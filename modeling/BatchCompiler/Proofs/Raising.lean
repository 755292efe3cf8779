/-
# BatchCompiler.Proofs.Raising -- a higher limit on includes changes nothing that was settled

The limit is looked at in one place only, where an include would nest too deep. A run that never
comes to that place, or fails before, is the same under a higher limit, step for step: the states of
the two runs are equal throughout, in every unit. So the two runs are compared as identical runs, in
which the first is excused once it has been refused an include for its depth.
-/

import BatchCompiler.Proofs.Coupling
import BatchCompiler.Proofs.Nesting

namespace BatchCompiler

/-! ## Refusals -/

/-- What the error comes down to is that an include nests too deep. -/
def CompileError.IsTooDeep (e : CompileError) : Prop :=
  ∃ location limit, e.rootCause = .located location (.includeDepth limit)

/-- What the fault comes down to is that an include nests too deep. -/
def Fault.IsTooDeep (fault : Fault) : Prop := ∀ source, (fault.error source).IsTooDeep

/-- Two runs that are the same until the first is refused an include for its depth. -/
abbrev Pairing.raising : Pairing := .identical Eq Eq Fault.IsTooDeep

theorem Pairing.raising_lawful : Pairing.raising.Lawful :=
  identical_lawful fun _ _ cause h => congrArg (Fault.here · cause) h

theorem Pairing.raising_wraps : Pairing.raising.Wraps .raising where
  raised _ := rfl
  fault {f f'} path source h := by
    obtain rfl : f = f' := h
    rfl
  excused path source h := fun _ => h source

/-! ## Units -/

open Gen Pairing

theorem Pairing.raising_start {s s' : State} (h : raising.state s s') :
    raising.state { shared := s.shared } { shared := s'.shared } :=
  h.congr (fun s => State.cleared { shared := s.shared }) fun _ => rfl

theorem Pairing.raising_including {s s' t t' : State} (hs : raising.state s s')
    (ht : raising.state t t') :
    raising.state (s.including t.contribution) (s'.including t'.contribution) := by
  have hunit : t.contribution = t'.contribution := ht.congr State.contribution fun _ => rfl
  rw [hunit]
  exact hs.congr (fun s => (s.including t'.contribution).cleared) fun _ => rfl

variable {files : String → Except IoError String} {options : Options} {limit depth depth' : Nat}

/-- Nodes are generated alike if their includes are. -/
theorem parts_raising {base : String} (hincludes : ∀ l args,
      raising.Yields false (lowerInclude ((options.setup files).env depth base) l args)
        (lowerInclude (({ options with limit }.setup files).env depth' base) l args)) (n : Node) :
    raising.Parts false ⟨n, node ((options.setup files).env depth base) n⟩
      ⟨n, node (({ options with limit }.setup files).env depth' base) n⟩ := by
  rw [node_eq_walk, node_eq_walk, Env.hooks_eq_standard (Setup.registry_env ..),
    Env.hooks_eq_standard (Setup.registry_env ..)]
  refine (Coupling.same_lawful raising_lawful (fun _ => rfl) (fun x hl => ?_) (fun x ty hl => ?_)
    hincludes).parts rfl
  · exact raising_lawful.resolve identical_resolves hl x
  · exact raising_lawful.nameTarget hl x ty

/-- With at least as many levels of includes below them, nodes are generated as before. -/
theorem node_raising (hdepth : depth ≤ depth') (base : String) (n : Node) :
    raising.Parts false ⟨n, node ((options.setup files).env depth base) n⟩
      ⟨n, node (({ options with limit }.setup files).env depth' base) n⟩ := by
  have hplaces : ∀ args : List Node, List.Forall₂ (fun a a' : Node => a.loc = a'.loc) args args :=
    fun args => List.forall₂_same.2 fun _ _ => rfl
  induction depth generalizing depth' base n with
  | zero =>
    refine parts_raising (fun l args => ?_) n
    cases h : includePath? args with
    | none => exact raising_lawful.refuseInclude rfl (hplaces args) h h _ _
    | some path =>
      obtain ⟨k, rfl⟩ := includePath?_eq_some h
      intro s s' hs
      rw [lowerInclude_path]
      exact .excused fun source => ⟨_, _, rfl⟩
  | succ depth ih =>
    obtain ⟨depth', rfl⟩ : ∃ d, depth' = d + 1 := ⟨depth' - 1, by omega⟩
    refine parts_raising (fun l args => ?_) n
    have hbase := Setup.base_env (options.setup files) (depth + 1) base
    have hbase' := Setup.base_env ({ options with limit }.setup files) (depth' + 1) base
    refine raising_lawful.includes hbase hbase' rfl rfl (fun path _ s s' hs => ?_) rfl
      (hplaces args) rfl
    rw [Setup.includeUnit_eq_unit, Setup.includeUnit_eq_unit]
    refine Pairing.unit raising_lawful raising_wraps (options.setup files)
      ({ options with limit }.setup files) rfl (fun source _ => ?_) (raising_start hs)
      fun t t' => raising_including hs
    cases hread : readUnit options.folding source with
    | error e => exact .inl ⟨e, hread, hread⟩
    | ok program =>
      have hprogram := ih (Nat.le_of_succ_le_succ hdepth)
        (Path.directory base (Path.join base path)) program
      exact .inr ⟨program, program, hread, hread, raising_lawful.statement hprogram.gen⟩

/-! ## Compilations -/

/-- Raising the limit on includes never changes a settled result: a compilation that has a script, or
fails with anything else than an include that nests too deep, comes to the same script or the same
error under every higher limit. -/
theorem settled_result_survives_raising (files : String → Except IoError String) (options : Options)
    (source : String) {limit : Nat} (hlimit : options.limit ≤ limit)
    (hsettled : ∀ e, compileSource files options source = .error e → ¬e.IsTooDeep) :
    compileSource files { options with limit } source = compileSource files options source := by
  rw [compileSource_eq] at hsettled ⊢
  rw [compileSource_eq]
  cases hread : readUnit options.folding source with
  | error e => rfl
  | ok program =>
    rw [hread] at hsettled
    dsimp only at hsettled ⊢
    have hnode : raising.Parts false ⟨program, node (options.env .standard files) program⟩
        ⟨program, node ({ options with limit }.env .standard files) program⟩ :=
      node_raising hlimit options.base program
    have hends := raising_lawful.statement hnode.gen {} {} rfl
    generalize statement (node (options.env .standard files) program) {} = r at hends hsettled ⊢
    generalize statement (node ({ options with limit }.env .standard files) program) {} = r'
      at hends ⊢
    cases hends with
    | excused hexcused => exact absurd (hexcused source) (hsettled _ rfl)
    | error hfault =>
      obtain rfl := hfault
      rfl
    | ok ht _ =>
      exact congrArg Except.ok (ht.congr State.script fun _ => rfl).symm

/-- Files that include one another, the last of which reads a name that stands for nothing. -/
def chainTree : FileTree :=
  [(["a.bc"], .text "include(\"b.bc\");"), (["b.bc"], .text "x = y;")]

/-- The error in the last file has two wrappers, and a limit above two levels leaves it as it is. -/
theorem chain_error_survives_raising :
    let error : CompileError := .inInclude "./a.bc" (.inInclude "./b.bc"
      (.located (Location.ofOffset "x = y;" 4) (.unresolved "y")))
    compileSource chainTree.read { limit := 2 } "include(\"a.bc\");" = .error error ∧
      ¬error.IsTooDeep ∧
      compileSource chainTree.read { limit := 64 } "include(\"a.bc\");" = .error error := by
  intro error
  have herror : compileSource chainTree.read { limit := 2 } "include(\"a.bc\");" = .error error := by
    decide +kernel
  have hsettled : ¬error.IsTooDeep := by
    rintro ⟨location, limit, hcause⟩
    cases hcause
  refine ⟨herror, hsettled, ?_⟩
  rw [← herror]
  refine settled_result_survives_raising chainTree.read { limit := 2 } _ (by decide) fun e he => ?_
  obtain rfl : error = e := Except.error.inj (herror.symm.trans he)
  exact hsettled

end BatchCompiler
