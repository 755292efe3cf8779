/-
# BatchCompiler.Proofs.Reach -- a step that succeeds has come to all of its parts

The generator goes through every part of a construct, whatever the parts leave: there is no part that
is generated in some states and passed over in others. So if a construct has been generated, then all
of its parts have been, and if an include has succeeded, then so has the unit that it includes. Only
the name on the left of an assignment is not generated, but looked up or declared.
-/

import BatchCompiler.Proofs.Contract

namespace BatchCompiler.Gen

variable {α β : Type}

/-- The step succeeds in some state. -/
def Succeeds (m : Gen α) : Prop := ∃ s a t, m s = .ok a t

namespace Succeeds

theorem bind {m : Gen α} {f : α → Gen β} (h : Succeeds (m >>= f)) :
    Succeeds m ∧ ∃ a, Succeeds (f a) := by
  obtain ⟨s, b, u, hrun⟩ := h
  obtain ⟨a, t, hm, hf⟩ := bind_eq_ok_iff.1 hrun
  exact ⟨⟨s, a, t, hm⟩, a, t, b, u, hf⟩

theorem andThen {m : Gen Unit} {f : Gen β} (h : Succeeds (m >>= fun _ => f)) :
    Succeeds m ∧ Succeeds f := by
  obtain ⟨hm, _, hf⟩ := h.bind
  exact ⟨hm, hf⟩

/-! ## Parts -/

theorem statement {m : Gen Unit} (h : Succeeds (Gen.statement m)) : Succeeds m := by
  obtain ⟨s, a, t, hrun⟩ := h
  rw [statement_apply] at hrun
  cases hm : m s with
  | ok b u => exact ⟨s, b, u, hm⟩
  | error e u =>
    rw [hm] at hrun
    cases hrun

theorem eval {p : Part} (h : Succeeds (Gen.eval p)) : Succeeds p.gen := by
  obtain ⟨s, o, t, hrun⟩ := h
  obtain ⟨u, _, hgen, -⟩ := eval_eq_ok hrun
  exact ⟨s, (), u, hgen⟩

theorem evalDeref {p : Part} (h : Succeeds (Gen.evalDeref p)) : Succeeds p.gen := h.bind.1.eval

theorem inScope {m : Gen α} (h : Succeeds (Gen.inScope m)) : Succeeds m := by
  obtain ⟨s, a, t, hrun⟩ := h
  unfold Gen.inScope at hrun
  split at hrun
  next u hm => exact ⟨_, _, u, hm⟩
  next => cases hrun

theorem block {ps : List Part} (h : Succeeds (Gen.block ps)) : ∀ p ∈ ps, Succeeds p.gen := by
  induction ps with
  | nil => exact nofun
  | cons p ps ih =>
    obtain ⟨hfirst, hrest⟩ := h.andThen
    exact List.forall_mem_cons.2 ⟨hfirst.statement, ih hrest⟩

theorem evalAll {ps : List Part} (h : Succeeds (Gen.evalAll ps)) : ∀ p ∈ ps, Succeeds p.gen := by
  induction ps with
  | nil => exact nofun
  | cons p ps ih =>
    obtain ⟨hfirst, _, hrest⟩ := h.bind
    exact List.forall_mem_cons.2 ⟨hfirst.eval, ih hrest.bind.1⟩

theorem elements {handle : Name} {first : Nat} {ps : List Part}
    (h : Succeeds (lowerElements handle first ps)) : ∀ p ∈ ps, Succeeds p.gen := by
  induction ps generalizing first with
  | nil => exact nofun
  | cons p ps ih =>
    obtain ⟨hfirst, _, hrest⟩ := h.bind
    exact List.forall_mem_cons.2 ⟨hfirst.evalDeref, ih hrest.andThen.2⟩

/-! ## Constructs -/

variable {a b c : Part}

theorem comparands {op : BinaryOp} (h : Succeeds (Gen.comparands op a b)) :
    Succeeds a.gen ∧ Succeeds b.gen := by
  unfold Gen.comparands at h
  split at h
  · obtain ⟨hb, _, hrest⟩ := h.bind
    exact ⟨hrest.bind.1.eval, hb.eval⟩
  · obtain ⟨ha, _, hrest⟩ := h.bind
    exact ⟨ha.eval, hrest.bind.1.eval⟩

theorem binary {op : BinaryOp} (h : Succeeds (lowerBinary op a b)) :
    Succeeds a.gen ∧ Succeeds b.gen := by
  unfold lowerBinary at h
  split at h
  · exact h.bind.1.comparands
  · obtain ⟨ha, _, hrest⟩ := h.bind
    exact ⟨ha.eval, hrest.bind.1.eval⟩

theorem conjunction (h : Succeeds (lowerAnd a b)) : Succeeds a.gen ∧ Succeeds b.gen := by
  obtain ⟨ha, _, hrest⟩ := h.bind
  exact ⟨ha.evalDeref, hrest.andThen.2.andThen.1.statement⟩

theorem disjunction (h : Succeeds (lowerOr a b)) : Succeeds a.gen ∧ Succeeds b.gen := by
  obtain ⟨-, _, hrest⟩ := h.bind
  obtain ⟨ha, _, hrest⟩ := hrest.bind
  exact ⟨ha.evalDeref, hrest.andThen.2.bind.1.evalDeref⟩

theorem branch {thenBody elseBody : List Part} (h : Succeeds (lowerBranch c thenBody elseBody)) :
    Succeeds c.gen ∧ (∀ p ∈ thenBody, Succeeds p.gen) ∧ ∀ p ∈ elseBody, Succeeds p.gen := by
  obtain ⟨hc, _, hrest⟩ := h.bind
  obtain ⟨hthen, hrest⟩ := hrest.andThen.2.andThen
  refine ⟨hc.evalDeref, hthen.block, ?_⟩
  cases elseBody with
  | nil => exact nofun
  | cons p ps => exact hrest.andThen.2.andThen.1.block

theorem conditional (h : Succeeds (lowerTernary c a b)) :
    Succeeds c.gen ∧ Succeeds a.gen ∧ Succeeds b.gen := by
  obtain ⟨hc, _, hrest⟩ := h.bind
  obtain ⟨-, _, hrest⟩ := hrest.bind
  obtain ⟨ha, _, hrest⟩ := hrest.andThen.2.bind
  exact ⟨hc.evalDeref, ha.evalDeref, hrest.andThen.2.andThen.2.bind.1.evalDeref⟩

theorem loop {body : List Part} (h : Succeeds (lowerLoop c body)) :
    Succeeds c.gen ∧ ∀ p ∈ body, Succeeds p.gen := by
  obtain ⟨-, _, hrest⟩ := h.bind
  obtain ⟨hc, _, hrest⟩ := hrest.andThen.2.bind
  exact ⟨hc.evalDeref, hrest.andThen.2.andThen.1.block⟩

theorem function {loc : Nat} {name : Option String} {params : List String} {body : List Part}
    (h : Succeeds (lowerFunction loc name params body)) : ∀ p ∈ body, Succeeds p.gen := by
  obtain ⟨-, _, hrest⟩ := h.bind
  exact hrest.andThen.2.andThen.2.andThen.1.inScope.andThen.2.block

theorem call {args : List Part} (h : Succeeds (lowerCall a args)) :
    Succeeds a.gen ∧ ∀ p ∈ args, Succeeds p.gen := by
  obtain ⟨ha, _, hrest⟩ := h.bind
  exact ⟨ha.evalDeref, hrest.bind.1.evalAll⟩

theorem array {ps : List Part} (h : Succeeds (lowerArray ps)) : ∀ p ∈ ps, Succeeds p.gen := by
  obtain ⟨-, _, hrest⟩ := h.bind
  exact hrest.andThen.2.andThen.1.elements

theorem index (h : Succeeds (lowerIndex a b)) : Succeeds a.gen ∧ Succeeds b.gen := by
  obtain ⟨ha, _, hrest⟩ := h.bind
  exact ⟨ha.eval, hrest.bind.1.evalDeref⟩

/-- The target of an assignment is a name, or has been generated too. -/
theorem assign (h : Succeeds (lowerAssign a b)) :
    ((∃ l x, a.node = .identifier l x) ∨ Succeeds a.gen) ∧ Succeeds b.gen := by
  obtain ⟨s, u, t, hrun⟩ := h
  obtain ⟨v, s₁, place, s₂, hvalue, htarget, -⟩ := lowerAssign_eq_ok hrun
  have hb : Succeeds (Gen.evalDeref b) := ⟨s, v, s₁, hvalue⟩
  refine ⟨?_, hb.evalDeref⟩
  obtain ⟨l, x, hnode, -⟩ | ⟨_, _, _, o, -, heval, -⟩ := htarget
  · exact .inl ⟨l, x, hnode⟩
  · have ha : Succeeds (Gen.eval a) := ⟨s₁, o, s₂, heval⟩
    exact .inr ha.eval

end Succeeds

/-! ## Nodes -/

/-- A node that has been generated and is not an include has children that have been generated, or are
names. -/
theorem Succeeds.child {env : Env} {n m : Node}
    (hn : ∀ l f args, n = .call l f args → isInclude f = false) (h : Succeeds (node env n))
    (hm : m ∈ n.children) : (∃ l x, m = .identifier l x) ∨ Succeeds (node env m) := by
  have hall : ∀ {ns : List Node}, (∀ p ∈ parts env ns, Succeeds p.gen) → m ∈ ns →
      Succeeds (node env m) := by
    intro ns hns hmem
    rw [parts_eq_map] at hns
    exact hns ⟨m, node env m⟩ (List.mem_map.2 ⟨m, hmem, rfl⟩)
  have hpair : ∀ {a b : Node}, Succeeds (node env a) ∧ Succeeds (node env b) → m ∈ [a, b] →
      Succeeds (node env m) := by
    intro a b hab hmem
    obtain rfl | hmem := List.mem_cons.1 hmem
    · exact hab.1
    · rw [List.mem_singleton.1 hmem]
      exact hab.2
  cases n with
  | program l body =>
    rw [node] at h
    exact .inr (hall h.andThen.2.andThen.2.block hm)
  | integer l v => cases hm
  | string l v => cases hm
  | identifier l x => cases hm
  | binary l op a b =>
    rw [node] at h
    exact .inr (hpair h.binary hm)
  | and l a b =>
    rw [node] at h
    exact .inr (hpair h.conjunction hm)
  | or l a b =>
    rw [node] at h
    exact .inr (hpair h.disjunction hm)
  | assign l t v =>
    rw [node] at h
    obtain rfl | hm := List.mem_cons.1 hm
    · exact h.assign.1
    · rw [List.mem_singleton.1 hm]
      exact .inr h.assign.2
  | branch l c t e =>
    rw [node] at h
    obtain ⟨hc, ht, he⟩ := h.branch
    obtain rfl | hm := List.mem_cons.1 hm
    · exact .inr hc
    · obtain hm | hm := List.mem_append.1 hm
      · exact .inr (hall ht hm)
      · exact .inr (hall he hm)
  | ternary l c t e =>
    rw [node] at h
    obtain ⟨hc, hbranches⟩ := h.conditional
    obtain rfl | hm := List.mem_cons.1 hm
    · exact .inr hc
    · exact .inr (hpair hbranches hm)
  | loop l c body =>
    rw [node] at h
    obtain rfl | hm := List.mem_cons.1 hm
    · exact .inr h.loop.1
    · exact .inr (hall h.loop.2 hm)
  | function l x ps body =>
    rw [node] at h
    exact .inr (hall h.function hm)
  | call l f args =>
    rw [node, if_neg (Bool.eq_false_iff.1 (hn l f args rfl))] at h
    obtain rfl | hm := List.mem_cons.1 hm
    · exact .inr h.call.1
    · exact .inr (hall h.call.2 hm)
  | ret l v =>
    rw [node] at h
    rw [List.mem_singleton.1 hm]
    exact .inr h.bind.1.evalDeref
  | step l op leading t =>
    rw [node] at h
    rw [List.mem_singleton.1 hm]
    exact .inr h.bind.1.eval
  | array l es =>
    rw [node] at h
    exact .inr (hall h.array hm)
  | index l b i =>
    rw [node] at h
    exact .inr (hpair h.index hm)

/-- An include that has succeeded names a path, and the unit there has been generated. -/
theorem Succeeds.includes {setup : Setup} {depth l : Nat} {base : String} {f : Node}
    (hf : isInclude f = true) {args : List Node}
    (h : Succeeds (node (setup.env depth base) (.call l f args))) :
    ∃ below k path source program, depth = below + 1 ∧ args = [.string k path] ∧
      setup.files (Path.join base path) = .ok source ∧
      readUnit setup.folding source = .ok program ∧
      Succeeds (node (setup.env below (Path.directory base (Path.join base path))) program) := by
  obtain ⟨s, u, t, hrun⟩ := h
  rw [node, if_pos hf] at hrun
  by_cases hargs : ∃ k path, args = [.string k path]
  · obtain ⟨k, path, rfl⟩ := hargs
    rw [lowerInclude_path] at hrun
    cases depth with
    | zero => cases hrun
    | succ below =>
      dsimp only [Setup.env] at hrun
      cases hunit : setup.includeUnit (setup.env below (Path.directory base (Path.join base path)))
        (Path.join base path) s.shared with
      | error e =>
        rw [hunit] at hrun
        cases hrun
      | ok unit =>
        obtain ⟨source, program, t', hsource, hread, hgen, -⟩ := Setup.includeUnit_eq_ok hunit
        have hprogram : Succeeds (Gen.statement _) := ⟨_, _, _, hgen⟩
        exact ⟨below, k, path, source, program, rfl, rfl, hsource, hread, hprogram.statement⟩
  · obtain ⟨l', problem, hwrong⟩ := lowerInclude_wrong (setup.env depth base) l
      fun k path heq => hargs ⟨k, path, heq⟩
    rw [hwrong] at hrun
    cases hrun

end BatchCompiler.Gen
