/-
# BatchCompiler.Proofs.Nesting -- includes nest as deep as the limit, and no deeper

An include compiles another file, and files may include each other in a circle, so nothing about the
trees bounds how deep units nest. The level does: each unit stands one level below the unit around
it, and at the limit includes are refused. `Setup.unfold` is one turn of that recursion; after one
turn more than the limit, what a unit comes to does not depend on what lies beyond.

An error passes one wrapper for each level on its way out. So it has at most as many wrappers as
there are levels, and the refusal of an include that nests too deep has exactly as many.
-/

import Mathlib.Logic.Function.Iterate
import BatchCompiler.Proofs.Contract
import BatchCompiler.Proofs.Stack

namespace BatchCompiler

/-! ## The recursion over units -/

/-- What all the units of a compilation with the builtins of the language have in common. -/
def Options.setup (options : Options) (files : String → Except IoError String) : Setup :=
  { registry := .standard, files, folding := options.folding, limit := options.limit }

namespace Setup

/-- The surroundings of a unit at this level, if `units` gives those of all the units. Its includes
stand one level below, and are refused once the level has reached the limit. -/
def unfold (setup : Setup) (units : Nat → String → Env) (level : Nat) (base : String) : Env :=
  { registry := setup.registry, base, limit := setup.limit,
    includeUnit? :=
      if setup.limit ≤ level then none
      else some fun path =>
        setup.includeUnit (units (level + 1) (Path.directory base path)) path }

/-- Once the recursion has been unfolded down to the limit, what lies beyond does not matter. -/
theorem iterate_unfold (setup : Setup) (beyond : Nat → String → Env) {turns level : Nat}
    (h : setup.limit ≤ level + turns) (base : String) :
    setup.unfold^[turns + 1] beyond level base = setup.env (setup.limit - level) base := by
  induction turns generalizing level base with
  | zero =>
    have hlevel : setup.limit ≤ level := h
    show setup.unfold beyond level base = _
    rw [unfold, if_pos hlevel, Nat.sub_eq_zero_of_le hlevel]
    rfl
  | succ turns ih =>
    rw [Function.iterate_succ_apply', unfold]
    by_cases hlevel : setup.limit ≤ level
    · rw [if_pos hlevel, Nat.sub_eq_zero_of_le hlevel]
      rfl
    · have hbelow : setup.limit ≤ level + 1 + turns := by omega
      have hlevels : setup.limit - level = setup.limit - (level + 1) + 1 := by omega
      rw [if_neg hlevel, hlevels]
      simp only [ih hbelow]
      rfl

end Setup

/-! ## Errors -/

/-- The error is wrapped at most `depth` times around something that is not a wrapper. If that is the
refusal of an include that nests too deep, it is wrapped exactly as often, and names the limit. -/
structure CompileError.Within (limit depth : Nat) (e : CompileError) : Prop where
  wrapped : e.wrappers.length ≤ depth
  rootCause_ne (path : String) (inner : CompileError) : e.rootCause ≠ .inInclude path inner
  refused (location : Location) (reported : Nat) :
    e.rootCause = .located location (.includeDepth reported) →
      e.wrappers.length = depth ∧ reported = limit

namespace CompileError.Within

variable {limit depth : Nat}

theorem located (location : Location) {cause : Cause} (h : ∀ reported, cause ≠ .includeDepth reported) :
    (CompileError.located location cause).Within limit depth where
  wrapped := Nat.zero_le _
  rootCause_ne := nofun
  refused := by
    intro location' reported hcause
    cases hcause
    exact absurd rfl (h reported)

theorem includeDepth (location : Location) :
    (CompileError.located location (.includeDepth limit)).Within limit 0 where
  wrapped := Nat.le_refl _
  rootCause_ne := nofun
  refused := by
    intro location' reported hcause
    cases hcause
    exact ⟨rfl, rfl⟩

theorem includeUnreadable (path : String) (io : IoError) :
    (CompileError.includeUnreadable path io).Within limit depth where
  wrapped := Nat.zero_le _
  rootCause_ne := nofun
  refused := nofun

theorem inInclude {e : CompileError} (h : e.Within limit depth) (path : String) :
    (CompileError.inInclude path e).Within limit (depth + 1) where
  wrapped := Nat.succ_le_succ h.wrapped
  rootCause_ne := h.rootCause_ne
  refused := by
    intro location reported hcause
    obtain ⟨hlength, hreported⟩ := h.refused location reported hcause
    exact ⟨congrArg Nat.succ hlength, hreported⟩

end CompileError.Within

/-- A source text that spells no program is refused at a place of its own. -/
theorem readUnit_within {folding : Bool} {source : String} {e : CompileError}
    (h : readUnit folding source = .error e) (limit depth : Nat) : e.Within limit depth := by
  unfold readUnit readTokens readProgram at h
  cases htokens : tokenize source with
  | error problem =>
    rw [htokens] at h
    cases h
    exact .located _ fun reported hcause => by cases hcause
  | ok tokens =>
    rw [htokens] at h
    change (parse source.utf8ByteSize tokens).mapError (·.error source) >>=
      (fun program => pure (program.optimize folding)) = _ at h
    cases hparse : parse source.utf8ByteSize tokens with
    | error problem =>
      rw [hparse] at h
      cases h
      exact .located _ fun reported hcause => by cases hcause
    | ok program =>
      rw [hparse] at h
      cases h

/-- Generation that fails has a fault, which it places in the source. -/
theorem generate_eq_error {env : Env} {source : String} {n : Node} {s t : State} {e : CompileError}
    (h : generate env source n s = .error e t) :
    ∃ fault, Gen.statement (Gen.node env n) s = .error fault t ∧ e = fault.error source := by
  unfold generate at h
  split at h
  next => cases h
  next fault u hrun =>
    cases h
    exact ⟨fault, hrun, rfl⟩

/-! ## Faults -/

/-- What a unit may fail with if this many levels are left below it. -/
def Fault.Within (limit depth : Nat) (fault : Fault) : Prop :=
  ∀ source, (fault.error source).Within limit depth

theorem allowsLocal_within (limit depth : Nat) : AllowsLocal (Fault.Within limit depth) :=
  fun _ _ h _ => .located _ h

variable {setup : Setup}

/-- A source text that is generated as a unit fails as its program does. -/
theorem Setup.contribution_within {env : Env} {depth : Nat}
    (hnode : ∀ n, Adds (Fault.Within setup.limit depth) n.hasValue.toNat (Gen.node env n))
    {source : String} {shared : Shared} {e : CompileError}
    (h : setup.contribution env source shared = .error e) : e.Within setup.limit depth := by
  unfold Setup.contribution at h
  cases hread : readUnit setup.folding source with
  | error e' =>
    rw [hread] at h
    cases h
    exact readUnit_within hread _ _
  | ok program =>
    rw [hread] at h
    cases hgenerate : generate env source program { shared } with
    | ok a t =>
      simp only [bind, Except.bind, hgenerate] at h
      cases h
    | error e' t =>
      simp only [bind, Except.bind, hgenerate] at h
      cases h
      obtain ⟨fault, hrun, rfl⟩ := generate_eq_error hgenerate
      exact ((hnode program).statement.failed _ t fault hrun).1 source

/-- An include that fails adds a level to what the unit below has failed with. -/
theorem Setup.includeUnit_within {env : Env} {depth : Nat}
    (hnode : ∀ n, Adds (Fault.Within setup.limit depth) n.hasValue.toNat (Gen.node env n))
    {path : String} {shared : Shared} {e : CompileError}
    (h : setup.includeUnit env path shared = .error e) : e.Within setup.limit (depth + 1) := by
  unfold Setup.includeUnit at h
  split at h
  next io _ =>
    cases h
    exact .includeUnreadable path io
  next source _ =>
    cases hunit : setup.contribution env source shared with
    | ok unit =>
      rw [hunit] at h
      cases h
    | error e' =>
      rw [hunit] at h
      cases h
      exact (Setup.contribution_within hnode hunit).inInclude path

/-- A node fails with no more wrappers than there are levels left. -/
theorem node_within (hregistry : setup.registry.KeepsOffStack) (depth : Nat) (base : String)
    (n : Node) :
    Adds (Fault.Within setup.limit depth) n.hasValue.toNat (Gen.node (setup.env depth base) n) := by
  induction depth generalizing base n with
  | zero =>
    refine node_adds (allowsLocal_within _ _) hregistry (fun loc args => ?_) n
    refine .includes (allowsLocal_within _ _) _ loc args ?_ ?_
    · intro _ source
      exact .includeDepth _
    · intro includeUnit path shared e hunit
      cases hunit
  | succ depth ih =>
    refine node_adds (allowsLocal_within _ _) hregistry (fun loc args => ?_) n
    refine .includes (allowsLocal_within _ _) _ loc args ?_ ?_
    · intro hunit
      cases hunit
    · intro includeUnit path shared e hunit herror source
      cases hunit
      exact Setup.includeUnit_within (ih _) herror

/-- Include nesting is bounded exactly by the limit, whatever the files include. The recursion over
units ends: unfolded once more than the limit, it gives the surroundings of the outermost unit,
whatever lies beyond. A compilation has a script or an error, and an error has at most as many
wrappers as the limit, around something that is not a wrapper; if that is the refusal of an include
that nests too deep, it has as many wrappers as the limit and names the limit. -/
theorem include_nesting_is_bounded (files : String → Except IoError String) (options : Options)
    (source : String) :
    (∀ beyond : Nat → String → Env,
      (options.setup files).unfold^[options.limit + 1] beyond 0 options.base =
        options.env .standard files) ∧
    ((∃ script, compileSource files options source = .ok script) ∨
      ∃ e, compileSource files options source = .error e ∧
        e.Within options.limit options.limit) := by
  constructor
  · intro beyond
    exact (options.setup files).iterate_unfold beyond (Nat.le_add_left _ _) options.base
  · cases hcompile : compileSource files options source with
    | ok script => exact .inl ⟨script, rfl⟩
    | error e =>
      refine .inr ⟨e, rfl, ?_⟩
      have hnode := @node_within (options.setup files) Registry.standard_keepsOffStack options.limit
        options.base
      unfold compileSource at hcompile
      cases hread : readUnit options.folding source with
      | error e' =>
        rw [hread] at hcompile
        cases hcompile
        exact readUnit_within hread _ _
      | ok program =>
        rw [hread] at hcompile
        cases hgenerate : generate (options.env .standard files) source program {} with
        | ok a t =>
          simp only [bind, Except.bind, hgenerate] at hcompile
          cases hcompile
        | error e' t =>
          simp only [bind, Except.bind, hgenerate] at hcompile
          cases hcompile
          obtain ⟨fault, hrun, rfl⟩ := generate_eq_error hgenerate
          exact ((hnode program).statement.failed _ t fault hrun).1 source

end BatchCompiler
