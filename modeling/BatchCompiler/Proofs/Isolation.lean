/-
# BatchCompiler.Proofs.Isolation -- an include happens as a whole, and sees little of what is around

An include that fails, however deep in the unit it includes, leaves the state as it was. One that
succeeds adds the unit's declarations and code behind the lines there, and the names of the unit's
root scope to the innermost scope. These names are distinct, so the order in which they are taken
over does not matter.

The unit itself is compiled from what the includer shares, the levels left and the path, and sees
neither its scopes, nor its operands, nor its lines. The includer's directory is not seen either: a
file that can be read lies in a directory of its own.
-/

import Mathlib.Data.List.TakeWhile
import BatchCompiler.Files.Tree
import BatchCompiler.Proofs.Growth

namespace BatchCompiler

/-! ## Bindings with distinct names -/

namespace Bindings

/-- No name is bound twice. -/
def Distinct (bindings : Bindings) : Prop := (bindings.map Prod.fst).Nodup

theorem Distinct.set {bindings : Bindings} (h : bindings.Distinct) (name : String) (v : Variable) :
    (bindings.set name v).Distinct := by
  induction bindings with
  | nil => exact List.nodup_cons.2 ⟨List.not_mem_nil, List.nodup_nil⟩
  | cons entry rest ih =>
    obtain ⟨other, w⟩ := entry
    obtain ⟨hfresh, hrest⟩ := List.nodup_cons.1 h
    unfold Bindings.set
    split
    next hname =>
      subst hname
      exact h
    next hname =>
      refine List.nodup_cons.2 ⟨?_, ih hrest⟩
      intro hmem
      obtain ⟨entry, hentry, heq⟩ := List.mem_map.1 hmem
      rcases mem_of_mem_set hentry with rfl | hold
      · exact hname heq.symm
      · exact hfresh (List.mem_map.2 ⟨entry, hold, heq⟩)

theorem get?_of_mem {bindings : Bindings} (h : bindings.Distinct) {k : String} {v : Variable}
    (hmem : (k, v) ∈ bindings) : bindings.get? k = some v := by
  induction bindings with
  | nil => exact absurd hmem List.not_mem_nil
  | cons entry rest ih =>
    obtain ⟨other, w⟩ := entry
    obtain ⟨hfresh, hrest⟩ := List.nodup_cons.1 h
    unfold Bindings.get?
    rcases List.mem_cons.1 hmem with heq | hlater
    · cases heq
      simp
    · have hne : k ≠ other := by
        rintro rfl
        exact hfresh (List.mem_map.2 ⟨(k, v), hlater, rfl⟩)
      rw [List.lookup_cons, beq_eq_false_iff_ne.2 hne]
      exact ih hrest hlater

theorem get?_eq_some_iff {bindings : Bindings} (h : bindings.Distinct) {k : String} {v : Variable} :
    bindings.get? k = some v ↔ (k, v) ∈ bindings :=
  ⟨mem_of_get?, get?_of_mem h⟩

/-- What distinct names are bound to does not depend on their order. -/
theorem get?_perm {xs ys : Bindings} (hperm : xs.Perm ys) (h : ys.Distinct) (k : String) :
    xs.get? k = ys.get? k := by
  have hxs : xs.Distinct := (hperm.map Prod.fst).nodup_iff.2 h
  apply Option.ext
  intro v
  rw [get?_eq_some_iff hxs, get?_eq_some_iff h]
  exact hperm.mem_iff

end Bindings

namespace ScopeChain

/-- No scope binds a name twice. -/
def Distinct (chain : ScopeChain) : Prop := ∀ scope ∈ chain.opened, Bindings.Distinct scope

theorem Distinct.declare {chain : ScopeChain} (h : chain.Distinct) (name : String) (v : Variable) :
    (chain.declare name v).Distinct := by
  obtain ⟨root, nested⟩ := chain
  cases nested with
  | nil =>
    intro scope hscope
    obtain rfl := List.mem_singleton.1 hscope
    exact (h root (List.mem_singleton.2 rfl)).set name v
  | cons first outer =>
    intro scope hscope
    rcases List.mem_cons.1 hscope with rfl | hscope
    · exact (h first List.mem_cons_self).set name v
    · exact h scope (List.mem_cons_of_mem _ hscope)

theorem Distinct.declareAll {chain : ScopeChain} (h : chain.Distinct) (bindings : Bindings) :
    (chain.declareAll bindings).Distinct := by
  induction bindings generalizing chain with
  | nil => exact h
  | cons entry rest ih => exact ih (h.declare entry.1 entry.2)

theorem Distinct.enter {chain : ScopeChain} (h : chain.Distinct) : chain.enter.Distinct := by
  intro scope hscope
  rcases List.mem_cons.1 hscope with rfl | hscope
  · exact List.nodup_nil
  · exact h scope hscope

theorem Distinct.leave {chain : ScopeChain} (h : chain.Distinct) : chain.leave.Distinct := by
  intro scope hscope
  apply h scope
  rcases List.mem_append.1 hscope with hnested | hroot
  · exact List.mem_append_left _ (List.mem_of_mem_tail hnested)
  · exact List.mem_append_right _ hroot

theorem distinct_start : ScopeChain.Distinct {} := by
  intro scope hscope
  obtain rfl := List.mem_singleton.1 hscope
  exact List.nodup_nil

theorem innermost_declare (chain : ScopeChain) (name : String) (v : Variable) :
    (chain.declare name v).innermost = chain.innermost.set name v := by
  obtain ⟨root, nested⟩ := chain
  cases nested <;> rfl

/-- Declaring distinct names overrides what the innermost scope binds them to, and nothing else. -/
theorem get?_innermost_declareAll {bindings : Bindings} (h : bindings.Distinct) (chain : ScopeChain)
    (k : String) :
    (chain.declareAll bindings).innermost.get? k =
      (bindings.get? k).or (chain.innermost.get? k) := by
  induction bindings generalizing chain with
  | nil => rfl
  | cons entry rest ih =>
    obtain ⟨name, v⟩ := entry
    obtain ⟨hfresh, hrest⟩ := List.nodup_cons.1 h
    show ((chain.declare name v).declareAll rest).innermost.get? k = _
    rw [ih hrest, innermost_declare, Bindings.get?_set]
    by_cases hk : k = name
    · subst hk
      have hnone : Bindings.get? rest k = none := by
        apply Option.eq_none_iff_forall_ne_some.2
        intro w hw
        exact hfresh (List.mem_map.2 ⟨(k, w), Bindings.mem_of_get? hw, rfl⟩)
      rw [hnone]
      simp [Bindings.get?]
    · simp [hk, Bindings.get?, List.lookup_cons, beq_eq_false_iff_ne.2 hk]

end ScopeChain

/-! ## Units bind distinct names -/

/-- Setting up a builtin keeps the names of every scope distinct. -/
def Registry.KeepsNamesDistinct (registry : Registry) : Prop :=
  ∀ b ∈ registry, ∀ s : State, s.scopes.Distinct → (b.setup s).2.scopes.Distinct

theorem Registry.standard_keepsNamesDistinct : Registry.standard.KeepsNamesDistinct := by
  intro b hb s hs
  obtain rfl := List.mem_singleton.1 hb
  dsimp only
  rw [Gen.setupProcess_apply]
  exact hs

namespace Distinctness

/-- Every stretch of generation keeps the names of every scope distinct. -/
def contract : Contract where
  inv := fun s => s.scopes.Distinct
  fresh := fun _ => True
  done := fun _ _ t => t.scopes.Distinct
  failed := fun _ _ => True

theorem sequential : contract.Sequential where
  inv_of_done := fun _ h => h
  refl := fun h => h
  trans := fun _ _ h => h
  perm := fun _ h => h
  cons := fun _ h => h
  failed_refl := fun _ => trivial
  failed_trans := fun _ _ _ => trivial
  fresh := fun _ => trivial
  temp := fun h => h
  stack := fun _ h => h
  emit := fun {_} _ {_} h _ => h
  label := fun h => h
  user := fun _ h _ => h.declare _ _
  param := fun {_} _ {_} _ h _ => h.declare _ _
  enter := fun h => h.enter
  leave := fun _ h => h.leave
  failed_leave := fun _ _ => trivial

theorem ignores (kind : Segment → Line → Bool) : contract.Ignores kind := fun _ _ _ h _ => h

theorem constructs (setup : Setup) : contract.Constructs setup where
  toSequential := sequential
  loop := fun hc hb => sequential.loop (ignores _) hc hb
  function := fun loc name params _ _ _ hb => sequential.function (ignores _) loc name params hb
  assign := fun _ _ _ _ _ ht hv => sequential.assign (ignores _) ht hv
  step := fun _ _ _ op _ _ ht => sequential.step (ignores _) op ht
  inv_start := fun _ => ScopeChain.distinct_start
  adopt := fun hs _ => hs.declareAll _
  adopt_failed := fun _ _ => trivial

theorem resolve {registry : Registry} (h : registry.KeepsNamesDistinct) (loc : Nat) (name : String) :
    Obeys contract [] (Gen.resolve registry loc name) := by
  intro s hs
  rw [Gen.resolve_apply]
  cases s.scopes.lookup name with
  | some v => exact ⟨hs, trivial⟩
  | none =>
    cases s.shared.emitted.get? name with
    | some v => exact ⟨hs.declare name v, trivial⟩
    | none =>
      cases hb : registry.get? name with
      | none => trivial
      | some b =>
        have hsetup := h b (List.mem_of_find?_eq_some hb) s hs
        exact ⟨hsetup.declare _ _, trivial⟩

end Distinctness

/-- The names that a unit has bound in its root scope are distinct. -/
theorem Setup.distinct_root {setup : Setup} (h : setup.registry.KeepsNamesDistinct) {depth : Nat}
    {base : String} {program : Node} {shared : Shared} {u : State}
    (hrun : Gen.statement (Gen.node (setup.env depth base) program) { shared } = .ok () u) :
    u.scopes.root.Distinct := by
  have hnode := (Distinctness.constructs setup).node (Distinctness.resolve h) depth base program
  have hstart : Distinctness.contract.inv { shared } := ScopeChain.distinct_start
  have hdone := (Distinctness.sequential.statement hnode).of_ok hstart hrun
  exact hdone.1 _ (List.mem_append_right _ (List.mem_singleton.2 rfl))

/-! ## Files in directories -/

/-- Every file that can be read lies in a directory. -/
def InDirectories (files : String → Except IoError String) : Prop :=
  ∀ path source, files path = .ok source → (Path.parent? path).isSome = true

/-- Pieces that name nothing lead nowhere from the root of the file system. -/
theorem FileTree.walk_root_of_idle (tree : FileTree) {segments : List (List Char)}
    (h : ∀ segment ∈ segments, Path.isIdle segment = true) :
    tree.walk .root segments = .ok .root := by
  induction segments with
  | nil => rfl
  | cons segment rest ih =>
    have hstep : tree.step .root segment = .ok .root := by
      simp [FileTree.step, h segment List.mem_cons_self]
    show (tree.step .root segment >>= fun place => tree.walk place rest) = _
    rw [hstep]
    apply ih
    intro other hother
    exact h other (List.mem_cons_of_mem _ hother)

/-- Nothing is left of pieces that all name nothing. -/
theorem Path.isIdle_of_trimIdle {segments : List (List Char)} (h : Path.trimIdle segments = []) :
    ∀ segment ∈ segments, Path.isIdle segment = true := by
  unfold Path.trimIdle at h
  rw [List.reverse_eq_nil_iff, List.dropWhile_eq_nil_iff] at h
  intro segment hsegment
  exact h segment (List.mem_reverse.2 hsegment)

/-- A path that has no directory is the empty one, or leads nowhere from the root of the file system. -/
theorem Path.eq_of_parent?_eq_none {path : String} (h : Path.parent? path = none) :
    path = "" ∨ Path.isAbsolute path = true ∧
      ∀ segment ∈ Path.segments path.toList, Path.isIdle segment = true := by
  unfold Path.parent? at h
  split at h
  next body hsegments =>
    split at h
    next htrim =>
      cases hpath : path.toList with
      | nil => exact .inl (String.toList_eq_nil_iff.1 hpath)
      | cons c cs =>
        right
        rw [hpath] at hsegments
        -- The first piece is empty, so the path starts with a slash.
        have hslash : c = '/' := by
          apply Decidable.byContradiction
          intro hc
          rw [Path.segments, if_neg hc] at hsegments
          split at hsegments <;> cases hsegments
        refine ⟨by simp [Path.isAbsolute, hpath, hslash], ?_⟩
        rw [hsegments]
        intro segment hsegment
        rcases List.mem_cons.1 hsegment with rfl | hbody
        · rfl
        · exact Path.isIdle_of_trimIdle htrim segment hbody
    next => cases h
  next => split at h <;> cases h
  next => cases h

/-- In a working directory with files around it, every file lies in a directory. -/
theorem FileTree.inDirectories (tree : FileTree) : InDirectories tree.read := by
  intro path source hread
  apply Option.isSome_iff_ne_none.2
  intro hparent
  unfold FileTree.read at hread
  rcases Path.eq_of_parent?_eq_none hparent with rfl | ⟨habsolute, hidle⟩
  · cases hread
  · cases hcheck : FileTree.checkPath path with
    | error io =>
      rw [hcheck] at hread
      cases hread
    | ok _ =>
      rw [hcheck, FileTree.start, if_pos habsolute, tree.walk_root_of_idle hidle] at hread
      cases hread

/-! ## Included units -/

/-- What a unit that has come to this state contributes. -/
def State.contribution (u : State) : Contribution :=
  { decl := u.segments.decl, code := u.segments.code, exports := u.scopes.root, shared := u.shared }

namespace Setup

variable {setup : Setup}

/-- The state that the file at a path comes to as a unit of its own, if includes may nest this many
levels deep below it. The unit is compiled from nothing else than what stands here. -/
def outcome (setup : Setup) (levels : Nat) (path : String) (shared : Shared) :
    Except CompileError State :=
  match setup.files path with
  | .error io => .error (.includeUnreadable path io)
  | .ok source =>
    match readUnit setup.folding source with
    | .error e => .error (.inInclude path e)
    | .ok program =>
      match generate (setup.env levels (Path.directory "" path)) source program { shared } with
      | .error e _ => .error (.inInclude path e)
      | .ok _ u => .ok u

/-- The directory of the includer does not matter to what an included unit contributes. -/
theorem includeUnit_eq_outcome (hfiles : InDirectories setup.files) (levels : Nat)
    (base path : String) (shared : Shared) :
    setup.includeUnit (setup.env levels (Path.directory base path)) path shared =
      (setup.outcome levels path shared).map State.contribution := by
  unfold Setup.includeUnit Setup.outcome Setup.contribution
  cases hsource : setup.files path with
  | error io => rfl
  | ok source =>
    obtain ⟨parent, hparent⟩ := Option.isSome_iff_exists.1 (hfiles path source hsource)
    have hdirectory : Path.directory base path = Path.directory "" path := by
      simp [Path.directory, hparent]
    dsimp only
    rw [hdirectory]
    cases readUnit setup.folding source with
    | error e => rfl
    | ok program =>
      simp only [bind, Except.bind]
      cases generate (setup.env levels (Path.directory "" path)) source program { shared } <;> rfl

theorem distinct_of_outcome (hregistry : setup.registry.KeepsNamesDistinct) {levels : Nat}
    {path : String} {shared : Shared} {u : State} (h : setup.outcome levels path shared = .ok u) :
    u.scopes.root.Distinct := by
  unfold outcome at h
  split at h
  · cases h
  · split at h
    · cases h
    · split at h
      next => cases h
      next hgenerate =>
        cases h
        exact distinct_root hregistry (generate_eq_ok hgenerate)

end Setup

/-- The state `s` becomes the state `t` when it takes over a unit that has come to the state `u`. -/
structure State.Takes (s u t : State) : Prop where
  init : t.segments.init = s.segments.init
  decl : t.segments.decl = s.segments.decl ++ u.segments.decl
  code : t.segments.code = s.segments.code ++ u.segments.code
  /-- What the unit binds in its root scope overrides what the innermost scope binds. -/
  innermost (k : String) :
    t.scopes.innermost.get? k = (u.scopes.root.get? k).or (s.scopes.innermost.get? k)
  /-- The order in which the names of the unit are declared does not matter. -/
  anyOrder {exports : Bindings} : exports.Perm u.scopes.root →
    ∀ k, (s.scopes.declareAll exports).innermost.get? k = t.scopes.innermost.get? k
  outer : t.scopes.opened.tail = s.scopes.opened.tail
  stack : ∃ o, t.stack = o :: s.stack
  shared : t.shared = u.shared

theorem State.takes_including {s u : State} (h : u.scopes.root.Distinct) :
    s.Takes u (s.including u.contribution) where
  init := rfl
  decl := rfl
  code := rfl
  innermost := fun k => ScopeChain.get?_innermost_declareAll h s.scopes k
  anyOrder := by
    intro exports hperm k
    have hexports : exports.Distinct := (hperm.map Prod.fst).nodup_iff.2 h
    show _ = (s.scopes.declareAll u.scopes.root).innermost.get? k
    rw [ScopeChain.get?_innermost_declareAll hexports, ScopeChain.get?_innermost_declareAll h,
      Bindings.get?_perm hperm h]
  outer := (ScopeChain.GrowsTo.declareAll s.scopes u.scopes.root).outer
  stack := ⟨_, rfl⟩
  shared := rfl

/-- All that an include of a literal path can come to. -/
theorem Gen.node_include {setup : Setup} (hfiles : InDirectories setup.files) (depth : Nat)
    (base : String) (loc l k : Nat) (path : String) (s : State) :
    Gen.node (setup.env depth base) (.call loc (.identifier l "include") [.string k path]) s =
      match depth with
      | 0 => .error (.here loc (.includeDepth setup.limit)) s
      | levels + 1 =>
        match setup.outcome levels (Path.join base path) s.shared with
        | .error e => .error (.raised e) s
        | .ok u => .ok () (s.including u.contribution) := by
  show Gen.lowerInclude (setup.env depth base) loc [.string k path] s = _
  rw [Gen.lowerInclude_path]
  cases depth with
  | zero => rfl
  | succ levels =>
    dsimp only [Setup.env]
    rw [Setup.includeUnit_eq_outcome hfiles]
    cases setup.outcome levels (Path.join base path) s.shared <;> rfl

/-- An include is atomic and isolated. If it fails, for whatever reason and however deep in the unit
it includes, the state is exactly as before. If it succeeds, the state has taken over the unit at the
path. What that unit comes to depends on the includer only through what is shared, the levels left
and the path that its path resolves to: two includes that agree on these, from whatever states,
take over the same unit or fail with the same error. -/
theorem include_is_atomic_and_isolated (setup : Setup)
    (hregistry : setup.registry.KeepsNamesDistinct) (hfiles : InDirectories setup.files)
    (depth : Nat) :
    (∀ (base : String) (loc l : Nat) (args : List Node) (s : State),
      match Gen.node (setup.env depth base) (.call loc (.identifier l "include") args) s with
      | .error _ t => t = s
      | .ok _ t =>
        ∃ l' path levels u, args = [.string l' path] ∧ depth = levels + 1 ∧
          setup.outcome levels (Path.join base path) s.shared = .ok u ∧ s.Takes u t) ∧
    ∀ (base base' path path' : String) (loc loc' l l' k k' : Nat) (s s' : State),
      Path.join base path = Path.join base' path' → s.shared = s'.shared →
      let run :=
        Gen.node (setup.env depth base) (.call loc (.identifier l "include") [.string k path]) s
      let run' := Gen.node (setup.env depth base')
        (.call loc' (.identifier l' "include") [.string k' path']) s'
      (∃ u t t', run = .ok () t ∧ run' = .ok () t' ∧ s.Takes u t ∧ s'.Takes u t') ∨
      (∃ e, run = .error (.raised e) s ∧ run' = .error (.raised e) s') ∨
      (run = .error (.here loc (.includeDepth setup.limit)) s ∧
        run' = .error (.here loc' (.includeDepth setup.limit)) s') := by
  constructor
  · intro base loc l args s
    by_cases hargs : ∃ l' path, args = [.string l' path]
    · obtain ⟨l', path, rfl⟩ := hargs
      rw [Gen.node_include hfiles]
      cases depth with
      | zero => rfl
      | succ levels =>
        dsimp only
        cases houtcome : setup.outcome levels (Path.join base path) s.shared with
        | error e => rfl
        | ok u =>
          have hdistinct := Setup.distinct_of_outcome hregistry houtcome
          exact ⟨l', path, levels, u, rfl, rfl, houtcome, State.takes_including hdistinct⟩
    · obtain ⟨l', problem, hwrong⟩ := Gen.lowerInclude_wrong (setup.env depth base) loc
        fun l' path h => hargs ⟨l', path, h⟩
      have hnode : Gen.node (setup.env depth base) (.call loc (.identifier l "include") args) s =
          .error (.here l' (.includeArgument problem)) s := hwrong s
      rw [hnode]
  · intro base base' path path' loc loc' l l' k k' s s' hpath hshared run run'
    have hrun : run = _ := Gen.node_include hfiles depth base loc l k path s
    have hrun' : run' = _ := Gen.node_include hfiles depth base' loc' l' k' path' s'
    rw [hrun, hrun', ← hpath, ← hshared]
    cases depth with
    | zero => exact .inr (.inr ⟨rfl, rfl⟩)
    | succ levels =>
      dsimp only
      cases houtcome : setup.outcome levels (Path.join base path) s.shared with
      | error e => exact .inr (.inl ⟨e, rfl, rfl⟩)
      | ok u =>
        have hdistinct := Setup.distinct_of_outcome hregistry houtcome
        exact .inl ⟨u, _, _, rfl, rfl, State.takes_including hdistinct,
          State.takes_including hdistinct⟩

/-- A directory with a file in it that can be included. -/
def libraryTree : FileTree :=
  [(["lib"], .directory), (["lib", "a.bc"], .text "x = \"a\"; while (x) \x7b x = 0; \x7d")]

/-- The file is included from the directory above it, and from its own directory inside of a function
that binds one of its names otherwise. Both includes take over the same unit. -/
theorem library_include_is_isolated :
    let setup : Setup :=
      { registry := .standard, files := libraryTree.read, folding := true, limit := 1 }
    let s : State := { scopes := { nested := [[("x", .slot 2 .integer)]] }, stack := [.integer 7] }
    setup.registry.KeepsNamesDistinct ∧ InDirectories setup.files ∧
      ∃ u t t', State.Takes {} u t ∧ s.Takes u t' ∧
        Gen.node (setup.env 1 ".")
          (.call 0 (.identifier 0 "include") [.string 8 "lib/a.bc"]) {} = .ok () t ∧
        Gen.node (setup.env 1 "./lib")
          (.call 5 (.identifier 5 "include") [.string 13 "a.bc"]) s = .ok () t' := by
  intro setup s
  have hregistry : setup.registry.KeepsNamesDistinct := Registry.standard_keepsNamesDistinct
  have hfiles : InDirectories setup.files := libraryTree.inDirectories
  have hpath : Path.join "." "lib/a.bc" = Path.join "./lib" "a.bc" := by decide +kernel
  have hruns : (EStateM.run' (Gen.node (setup.env 1 ".")
      (.call 0 (.identifier 0 "include") [.string 8 "lib/a.bc"])) {}).isSome = true := by
    decide +kernel
  refine ⟨hregistry, hfiles, ?_⟩
  rcases (include_is_atomic_and_isolated setup hregistry hfiles 1).2 "." "./lib" "lib/a.bc" "a.bc"
    0 5 0 5 8 13 {} s hpath rfl with
    ⟨u, t, t', hrun, hrun', htakes, htakes'⟩ | ⟨e, hrun, -⟩ | ⟨hrun, -⟩
  · exact ⟨u, t, t', htakes, htakes', hrun, hrun'⟩
  · delta EStateM.run' EStateM.run at hruns
    rw [hrun] at hruns
    cases hruns
  · delta EStateM.run' EStateM.run at hruns
    rw [hrun] at hruns
    cases hruns

end BatchCompiler
