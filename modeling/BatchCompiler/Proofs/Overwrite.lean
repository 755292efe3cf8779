/-
# BatchCompiler.Proofs.Overwrite -- operands that later operands assign to

An operand that is a variable is not a copy of the value: the line of the node reads the variable
when it runs, and by then the later operands have been evaluated. So the operand keeps its value only
as long as none of them assigns to the variable. `operand_kept_iff` says which do: those with an
assignment to, or a step of, a name that stands for the variable, in themselves or in what they
include.
-/

import BatchCompiler.Proofs.Operand
import BatchCompiler.Proofs.Shell

namespace BatchCompiler

/-! ## What lines and nodes assign -/

/-- The variable that the line assigns. -/
def Line.written? : Line → Option Name
  | handle x => some x
  | assign (.var x) _ => some x
  | compute (.var x) _ => some x
  | flag x _ => some x
  | fetch x _ => some x
  | compare x _ _ _ => some x
  | call _ x _ => some x
  | _ => none

theorem Line.IsOrdinary.of_written {own : Name → Prop} {line : Line} (h : line.IsOrdinary own)
    {x : Name} (hx : line.written? = some x) : own x := by
  cases line with
  | assign target value =>
    cases target <;> cases hx
    exact h
  | compute target formula =>
    cases target <;> cases hx
    exact h
  | flag y truth =>
    cases hx
    exact h
  | fetch y place =>
    cases hx
    exact h
  | compare y op a b =>
    cases hx
    exact h
  | call callee y args =>
    cases hx
    exact h
  | handle y => exact absurd h id
  | _ => cases hx

/-- The name that the node assigns to, or the one that it steps. -/
def Node.assignedName? : Node → Option String
  | assign _ (identifier _ name) _ => some name
  | step _ _ _ target => target.readName?
  | _ => none

theorem Node.assignedName?_of_not_special {n : Node} (h : n.isSpecial = false) :
    n.assignedName? = none := by
  cases n <;> first | rfl | cases h

/-- The name stands for the variable: it is the user's variable of that name, or the builtin. -/
def Shared.Denotes (shared : Shared) (k : String) (x : Name) : Prop :=
  x = .user k ∨ ∃ v, shared.emitted.get? k = some v ∧ v.storage = .named x

theorem Shared.Denotes.mono {a b : Shared} (hext : a.Extends b) {k : String} {x : Name}
    (h : a.Denotes k x) : b.Denotes k x := by
  rcases h with huser | ⟨v, hget, hv⟩
  · exact .inl huser
  · exact .inr ⟨v, hext.emitted hget, hv⟩

theorem Shared.Admits.denotes {shared : Shared} {k : String} {v : Variable} {x : Name}
    (h : shared.Admits k v) (hx : v.storage = .named x) : shared.Denotes k x := by
  rcases h with ⟨huser, -⟩ | ⟨i, hslot, -⟩ | ⟨hget, -⟩
  · rw [hx] at huser
    cases huser
    exact .inl rfl
  · rw [hx] at hslot
    cases hslot
  · exact .inr ⟨v, hget, hx⟩

/-- A name that is not that of a builtin stands for the user's variable only. -/
theorem WellScoped.eq_user {scopes : ScopeChain} {shared : Shared} (h : WellScoped scopes shared)
    {k : String} (hk : isBuiltin k = false) {x : Name} (hx : shared.Denotes k x) : x = .user k := by
  rcases hx with huser | ⟨v, hget, -⟩
  · exact huser
  · have hbuiltin := (h.builtin (Bindings.mem_of_get? hget)).1
    rw [hk] at hbuiltin
    cases hbuiltin

/-! ## What stretches of generation assign -/

/-- The lines assign only what the nodes assign, and temporaries with numbers above `b`; and they do
assign what the nodes assign. -/
structure Stores (b : Nat) (ns : List Node) (shared : Shared) (lines : List Line) : Prop where
  only : ∀ line ∈ lines, ∀ x, line.written? = some x →
    (∃ m, x = .temp m ∧ b < m) ∨ ∃ n ∈ ns, ∃ k, n.assignedName? = some k ∧ shared.Denotes k x
  all : ∀ n ∈ ns, ∀ k, n.assignedName? = some k → isBuiltin k = false →
    ∃ line ∈ lines, line.written? = some (.user k)

/-- From the first state to the second, generation keeps the scopes as they should be and writes code
that assigns what the nodes assign. -/
structure Assigns (b : Nat) (ns : List Node) (s t : State) : Prop where
  scopes : t.WellScoped
  shared : s.shared.Extends t.shared
  written : ∃ lines, t.segments.code = s.segments.code ++ lines ∧ Stores b ns t.shared lines

namespace Assigns

variable {b : Nat} {ms ns : List Node} {s t u : State}

/-- Nothing is assigned where no code is written. -/
theorem of_code_eq (ht : t.WellScoped) (hext : s.shared.Extends t.shared)
    (hcode : t.segments.code = s.segments.code) : Assigns b [] s t where
  scopes := ht
  shared := hext
  written := by
    refine ⟨[], by rw [hcode, List.append_nil], ?_, ?_⟩
    · intro line hline
      exact absurd hline List.not_mem_nil
    · intro n hn
      exact absurd hn List.not_mem_nil

theorem of_step (h : s.Step t) (hs : s.WellScoped) (hcode : t.segments.code = s.segments.code) :
    Assigns b [] s t := by
  obtain ⟨ht, hext, -⟩ := Compilation.scoped_of_step h hs
  exact of_code_eq ht hext hcode

theorem trans (hst : Assigns b ms s t) (htu : Assigns b ns t u) : Assigns b (ms ++ ns) s u where
  scopes := htu.scopes
  shared := hst.shared.trans htu.shared
  written := by
    obtain ⟨xs, hxs, hx⟩ := hst.written
    obtain ⟨ys, hys, hy⟩ := htu.written
    refine ⟨xs ++ ys, by rw [hys, hxs, List.append_assoc], ?_, ?_⟩
    · intro line hline x hwritten
      rcases List.mem_append.1 hline with hline | hline
      · refine (hx.only line hline x hwritten).imp id ?_
        rintro ⟨n, hn, k, hk, hdenotes⟩
        exact ⟨n, List.mem_append_left _ hn, k, hk, hdenotes.mono htu.shared⟩
      · refine (hy.only line hline x hwritten).imp id ?_
        rintro ⟨n, hn, k, hk, hdenotes⟩
        exact ⟨n, List.mem_append_right _ hn, k, hk, hdenotes⟩
    · intro n hn k hk hbuiltin
      rcases List.mem_append.1 hn with hn | hn
      · obtain ⟨line, hline, hwritten⟩ := hx.all n hn k hk hbuiltin
        exact ⟨line, List.mem_append_left _ hline, hwritten⟩
      · obtain ⟨line, hline, hwritten⟩ := hy.all n hn k hk hbuiltin
        exact ⟨line, List.mem_append_right _ hline, hwritten⟩

/-- What matters of the nodes is which of them assign something. -/
theorem regrade (h : Assigns b ms s t)
    (hmem : ∀ n, n.assignedName? ≠ none → (n ∈ ms ↔ n ∈ ns)) : Assigns b ns s t where
  scopes := h.scopes
  shared := h.shared
  written := by
    obtain ⟨lines, hlines, hstores⟩ := h.written
    refine ⟨lines, hlines, ?_, ?_⟩
    · intro line hline x hwritten
      refine (hstores.only line hline x hwritten).imp id ?_
      rintro ⟨n, hn, k, hk, hdenotes⟩
      exact ⟨n, (hmem n (by simp [hk])).1 hn, k, hk, hdenotes⟩
    · intro n hn k hk
      exact hstores.all n ((hmem n (by simp [hk])).2 hn) k hk

theorem cons (h : Assigns b ns s t) {n : Node} (hn : n.assignedName? = none) :
    Assigns b (n :: ns) s t := by
  refine h.regrade fun n' hn' => ?_
  constructor
  · exact List.mem_cons_of_mem _
  · intro hmem
    rcases List.mem_cons.1 hmem with rfl | hmem
    · exact absurd hn hn'
    · exact hmem

/-- A line of code that assigns what a node assigns. -/
theorem emit (hs : s.WellScoped) (line : Line) (ns : List Node)
    (honly : ∀ x, line.written? = some x →
      (∃ m, x = .temp m ∧ b < m) ∨ ∃ n ∈ ns, ∃ k, n.assignedName? = some k ∧ s.shared.Denotes k x)
    (hall : ∀ n ∈ ns, ∀ k, n.assignedName? = some k → isBuiltin k = false →
      line.written? = some (.user k)) : Assigns b ns s (s.emitAll [line]) where
  scopes := hs
  shared := .refl _
  written := by
    refine ⟨[line], rfl, ?_, ?_⟩
    · intro other hother x hwritten
      obtain rfl := List.mem_singleton.1 hother
      exact honly x hwritten
    · intro n hn k hk hbuiltin
      exact ⟨line, List.mem_singleton.2 rfl, hall n hn k hk hbuiltin⟩

/-- A unit takes over the code of another one that went on from what the unit shares. -/
theorem adopt (hs : s.WellScoped) (h : Assigns b ns { shared := s.shared } t) :
    Assigns b ns s (s.adopt t) where
  scopes := State.WellScoped.adopt hs h.scopes h.shared
  shared := h.shared
  written := by
    obtain ⟨lines, hlines, hstores⟩ := h.written
    refine ⟨lines, ?_, hstores⟩
    have hcode : t.segments.code = lines := hlines
    show s.segments.code ++ t.segments.code = s.segments.code ++ lines
    rw [hcode]

end Assigns

namespace Assignment

/-- Every stretch of generation that succeeds, and starts with at least `b` temporaries, assigns what
its nodes assign. -/
def contract (b : Nat) : Contract where
  inv := fun s => s.WellScoped ∧ b ≤ s.temps
  fresh := fun x => ∃ m, x = .temp m ∧ b < m
  done := Assigns b
  failed := fun _ _ => True

variable {α : Type} {b : Nat} {ms ns : List Node} {m : Gen α} {s t : State}

theorem obeys_of_ok (h : ∀ s a t, s.WellScoped → b ≤ s.temps → m s = .ok a t → Assigns b ns s t) :
    Obeys (contract b) ns m :=
  .intro (fun s a t hs hm => ⟨h s a t hs.1 hs.2 hm, trivial⟩) fun _ _ _ _ _ => trivial

theorem assigns_of_obeys (h : Obeys (contract b) ns m) (hs : s.WellScoped) (hb : b ≤ s.temps)
    {a : α} (hm : m s = .ok a t) : Assigns b ns s t :=
  (h.of_ok ⟨hs, hb⟩ hm).1

/-- A line that assigns a temporary of the construct itself, or nothing. -/
theorem emitFresh (hs : s.WellScoped) (segment : Segment) {line : Line}
    (h : segment = .code → ∀ x, line.written? = some x → ∃ m, x = .temp m ∧ b < m) :
    Assigns b [] s (s.emitTo segment line) := by
  cases segment with
  | init => exact .of_code_eq hs (.refl _) rfl
  | decl => exact .of_code_eq hs (.refl _) rfl
  | code =>
    refine .emit hs line [] ?_ ?_
    · intro x hx
      exact .inl (h rfl x hx)
    · intro n hn
      exact absurd hn List.not_mem_nil

theorem sequential (b : Nat) : (contract b).Sequential where
  inv_of_done := fun hs h => ⟨h.scopes, Nat.le_trans hs.2 h.shared.temps⟩
  refl := fun hs => .of_code_eq hs.1 (.refl _) rfl
  trans := fun _ => Assigns.trans
  perm := fun h hdone => hdone.regrade fun n _ => h.mem_iff
  cons := by
    intro n ns s t hn hdone
    exact hdone.cons (Node.assignedName?_of_not_special hn)
  failed_refl := fun _ => trivial
  failed_trans := fun _ _ _ => trivial
  fresh := fun {s} hs => ⟨s.temps + 1, rfl, Nat.lt_succ_of_le hs.2⟩
  temp := fun {s} hs => .of_code_eq hs.1.freshTemp s.extends_freshTemp rfl
  stack := fun stack hs => .of_step (.stack _ stack) hs.1 rfl
  emit := fun segment _ hs hline => emitFresh hs.1 segment fun _ x hx => hline.of_written hx
  label := fun hs => .of_step (.label _) hs.1 rfl
  user := fun ty hs h => .of_step (.user _ _ ty h) hs.1 rfl
  param := fun {s} name {i} ty hs h => .of_step (.param s name i ty h) hs.1 rfl
  enter := fun hs => ⟨hs.1.enter, hs.2⟩
  leave := by
    intro ns s t hs h
    have hentered : Assigns b [] s { s with scopes := s.scopes.enter } :=
      .of_step (.enter _) hs.1 rfl
    have hwhole := (hentered.trans h).trans (.of_step (.leave t) h.scopes rfl)
    rwa [List.append_nil] at hwhole
  failed_leave := fun _ _ => trivial

theorem ignores_mark (b : Nat) : (contract b).Ignores Line.isMark := by
  intro s segment line hs hline
  refine emitFresh hs.1 segment ?_
  rintro rfl x hx
  cases line with
  | label l => cases hx
  | goto l => cases hx
  | _ => cases hline

/-- A construct that evaluates parts, assigns and pushes an operand. -/
theorem finish {n : Node} {ls : List Node} {u : State} (hparts : Assigns b ls s t)
    (hline : Assigns b [n] t u) (stack : List Operand) (hperm : (ls ++ [n]).Perm ns) :
    Assigns b ns s { u with stack } := by
  have hpush : Assigns b [] u { u with stack } := .of_step (.stack u stack) hline.scopes rfl
  have hall := (hparts.trans hline).trans hpush
  rw [List.append_nil] at hall
  exact hall.regrade fun n _ => hperm.mem_iff

theorem written?_assignLine_var (x : Name) (v : Operand) :
    (Gen.assignLine (.var x) v).written? = some x := by
  unfold Gen.assignLine
  split <;> rfl

theorem written?_assignLine_location (place : Text) (v : Operand) :
    (Gen.assignLine (.location place) v).written? = none := by
  unfold Gen.assignLine
  split <;> rfl

/-- The variable that an assignment to a name assigns is one that the name stands for. -/
theorem nameTarget {loc : Nat} {k : String} {ty : ValueType} {place : Target} (hs : s.WellScoped)
    (h : Gen.nameTarget loc k ty s = .ok place t) :
    Assigns b [] s t ∧ ∃ x, place = .var x ∧ t.shared.Denotes k x := by
  rcases Gen.nameTarget_eq_ok h with ⟨-, hk, rfl, rfl⟩ | ⟨v, x, hlookup, hx, rfl, rfl⟩
  · exact ⟨.of_step (.user s k ty hk) hs rfl, _, rfl, .inl rfl⟩
  · exact ⟨.of_code_eq hs (.refl _) rfl, x, rfl, (hs.of_lookup hlookup).denotes hx⟩

theorem assign {target value : Part} (loc : Nat) (ht : Obeys (contract b) ms target.gen)
    (hv : Obeys (contract b) ns value.gen)
    (hname : ∀ l x, target.node = .identifier l x → ms = [.identifier l x]) :
    Obeys (contract b) (.assign loc target.node value.node :: (ms ++ ns))
      (Gen.lowerAssign target value) := by
  refine obeys_of_ok fun s a w hs hb hrun => ?_
  obtain ⟨v, s₁, place, s₂, hvalue, hplace, rfl⟩ := Gen.lowerAssign_eq_ok hrun
  have hfirst := assigns_of_obeys ((sequential b).evalDeref hv) hs hb hvalue
  have hb₁ := Nat.le_trans hb hfirst.shared.temps
  have hperm : ((ns ++ ms) ++ [Node.assign loc target.node value.node]).Perm
      (.assign loc target.node value.node :: (ms ++ ns)) :=
    (List.perm_append_singleton _ _).trans (List.perm_append_comm.cons _)
  rcases hplace with ⟨l, k, hnode, hplace⟩ | ⟨l, base, index, o, hnode, hplace, rfl⟩
  · obtain ⟨hsecond, x, rfl, hx⟩ := nameTarget (b := b) hfirst.scopes hplace
    have hassigned : (Node.assign loc target.node value.node).assignedName? = some k := by
      rw [hnode]
      rfl
    have hsecond' : Assigns b ms s₁ s₂ := by
      rw [hname l k hnode]
      exact hsecond.cons rfl
    refine finish (hfirst.trans hsecond') (.emit hsecond.scopes _ _ ?_ ?_) _ hperm
    · intro y hy
      rw [written?_assignLine_var] at hy
      cases hy
      exact .inr ⟨_, List.mem_singleton.2 rfl, k, hassigned, hx⟩
    · intro n hn k' hk' hbuiltin
      obtain rfl := List.mem_singleton.1 hn
      rw [hassigned] at hk'
      cases hk'
      rw [written?_assignLine_var, hsecond.scopes.eq_user hbuiltin hx]
  · have hsecond := assigns_of_obeys ((sequential b).eval ht) hfirst.scopes hb₁ hplace
    have hassigned : (Node.assign loc target.node value.node).assignedName? = none := by
      rw [hnode]
      rfl
    refine finish (hfirst.trans hsecond) (.emit hsecond.scopes _ _ ?_ ?_) _ hperm
    · intro y hy
      rw [written?_assignLine_location] at hy
      cases hy
    · intro n hn k hk
      obtain rfl := List.mem_singleton.1 hn
      rw [hassigned] at hk
      cases hk

/-- A step assigns the variable that its target is read from. -/
theorem step {target : Part} (loc : Nat) (op : StepOp) (leading : Bool)
    (ht : Obeys (contract b) ns target.gen)
    (hread : ∀ s o t, s.WellScoped → Gen.eval target s = .ok o t →
      o.IsReadOf target.node.readName? s.temps t.shared) :
    Obeys (contract b) (.step loc op leading target.node :: ns) (Gen.lowerStep op target) := by
  refine obeys_of_ok fun s a w hs hb hrun => ?_
  obtain ⟨o, s₁, place, current, s₂, heval, htarget, hderef, rfl⟩ := Gen.lowerStep_eq_ok hrun
  have hfirst := assigns_of_obeys ((sequential b).eval ht) hs hb heval
  have ho := hread s o s₁ hs heval
  have hb₁ := Nat.le_trans hb hfirst.shared.temps
  have hsecond := assigns_of_obeys ((sequential b).deref o) hfirst.scopes hb₁ hderef
  have hb₂ := Nat.le_trans hb₁ hsecond.shared.temps
  -- The temporary for the value from before.
  have hthird : Assigns b [] s₂ (s₂.freshTemp.2.emitAll
      [.compute (.var s₂.freshTemp.1) (.value current.splice)]) := by
    have htemp : Assigns b [] s₂ s₂.freshTemp.2 :=
      .of_code_eq hsecond.scopes.freshTemp s₂.extends_freshTemp rfl
    refine htemp.trans (emitFresh htemp.scopes .code fun _ x hx => ?_)
    cases hx
    exact ⟨s₂.temps + 1, rfl, Nat.lt_succ_of_le hb₂⟩
  have hparts := hfirst.trans (hsecond.trans hthird)
  rw [List.append_nil, List.append_nil] at hparts
  have hext := hsecond.shared.trans hthird.shared
  refine finish hparts (.emit hparts.scopes _ _ ?_ ?_) _ (List.perm_append_singleton _ _)
  · intro y hy
    rcases htarget with ⟨text, -, rfl⟩ | ⟨v, x, rfl, hx, rfl⟩
    · cases hy
    · cases hy
      cases hname : target.node.readName? with
      | some k =>
        rw [hname] at ho
        obtain ⟨w, hw, hadmits⟩ := ho
        cases hw
        exact .inr ⟨_, List.mem_singleton.2 rfl, k, hname, (hadmits.denotes hx).mono hext⟩
      | none =>
        -- What is stepped is a temporary, such as the value of another step.
        rw [hname] at ho
        obtain ⟨m, hm, hlt, -⟩ := ho v _ rfl hx
        exact .inl ⟨m, hm, Nat.lt_of_le_of_lt hb hlt⟩
  · intro n hn k hk hbuiltin
    obtain rfl := List.mem_singleton.1 hn
    have hname : target.node.readName? = some k := hk
    rw [hname] at ho
    obtain ⟨w, rfl, hadmits⟩ := ho
    rcases htarget with ⟨text, htext, -⟩ | ⟨v, x, hv, hx, rfl⟩
    · cases htext
    · cases hv
      have huser := hfirst.scopes.eq_user hbuiltin (hadmits.denotes hx)
      show some x = some (.user k)
      rw [huser]

theorem lawful (b : Nat) {setup : Setup} (h : setup.registry = .standard) :
    (contract b).Lawful setup where
  toSequential := sequential b
  standard := h
  bound := fun hs hv => .of_step (.builtin _ _ _ hv) hs.1 rfl
  process := fun hs hnew => .of_code_eq (hs.1.withProcess hnew) (State.extends_withProcess hnew) rfl
  loop := (sequential b).loop (ignores_mark b)
  function := by
    intro loc name params body ns ps hb
    refine Contract.Sequential.regrade
      ((sequential b).function (ignores_mark b) loc name params hb) fun s t hdone => ?_
    exact Assigns.cons hdone rfl
  assign := by
    intro depth base loc target value ht hv
    refine assign loc ht hv ?_
    rintro l x rfl
    exact setup.nodes_identifier depth base l x
  step := by
    intro depth base loc op leading target ht
    refine step loc op leading ht ?_
    intro s o t hs heval
    exact (eval_isLeftBy h depth base hs heval).isReadOf
  inv_start := fun hs => ⟨hs.1.start, hs.2⟩
  adopt := fun hs hdone => .adopt hs.1 hdone
  adopt_failed := fun _ _ => trivial

end Assignment

/-! ## Operands of a node -/

/-- The operands of the node, in the order in which they are evaluated. -/
def Node.operands : Node → List Node
  | binary _ op a b => if op = .lt then [b, a] else [a, b]
  | call _ f args => if Gen.isInclude f then [] else f :: args
  | index _ b i => [b, i]
  | _ => []

/-- Evaluating the node gives the operand, which may have been read from a place. -/
def EvaluatesTo (env : Env) (n : Node) (s : State) (o : Operand) (t : State) : Prop :=
  Gen.eval ⟨n, Gen.node env n⟩ s = .ok o t ∨ Gen.evalDeref ⟨n, Gen.node env n⟩ s = .ok o t

/-- Evaluating the nodes one after the other. -/
inductive Evaluates (env : Env) : List Node → State → State → Prop
  | nil (s : State) : Evaluates env [] s s
  | cons {n : Node} {ns : List Node} {s t u : State} {o : Operand} :
    EvaluatesTo env n s o t → Evaluates env ns t u → Evaluates env (n :: ns) s u

theorem Evaluates.split {env : Env} {before after : List Node} {p : Node} {s u : State}
    (h : Evaluates env (before ++ p :: after) s u) :
    ∃ s' o t, Evaluates env before s s' ∧ EvaluatesTo env p s' o t ∧ Evaluates env after t u := by
  induction before generalizing s with
  | nil =>
    cases h with
    | cons hp hafter => exact ⟨s, _, _, .nil s, hp, hafter⟩
  | cons n before ih =>
    cases h with
    | cons hn hrest =>
      obtain ⟨s', o, t, hbefore, hp, hafter⟩ := ih hrest
      exact ⟨s', o, t, .cons hn hbefore, hp, hafter⟩

theorem evaluates_of_evalAll {env : Env} {args : List Node} {s u : State} {os : List Operand}
    (h : Gen.evalAll (Gen.parts env args) s = .ok os u) : Evaluates env args s u := by
  induction args generalizing s os with
  | nil =>
    cases h
    exact .nil _
  | cons n args ih =>
    obtain ⟨o, t, hn, hrest⟩ := Gen.bind_eq_ok_iff.1 h
    obtain ⟨os', u', hargs, hpure⟩ := Gen.bind_eq_ok_iff.1 hrest
    cases hpure
    exact .cons (.inl hn) (ih hargs)

/-- The right operand of `<` is evaluated first. -/
theorem evaluates_of_lowerBinary {env : Env} {op : BinaryOp} {a b : Node} {s w : State}
    (h : Gen.lowerBinary op ⟨a, Gen.node env a⟩ ⟨b, Gen.node env b⟩ s = .ok () w) :
    ∃ u, Evaluates env (if op = .lt then [b, a] else [a, b]) s u := by
  unfold Gen.lowerBinary at h
  by_cases hcomparison : op.isComparison = true
  · rw [if_pos hcomparison] at h
    obtain ⟨sides, t, hsides, -⟩ := Gen.bind_eq_ok_iff.1 h
    unfold Gen.comparands at hsides
    by_cases hlt : op = .lt
    · rw [if_pos hlt] at hsides ⊢
      obtain ⟨p, t, hb, hrest⟩ := Gen.bind_eq_ok_iff.1 hsides
      obtain ⟨o, u, ha, -⟩ := Gen.bind_eq_ok_iff.1 hrest
      exact ⟨u, .cons (.inl hb) (.cons (.inl ha) (.nil u))⟩
    · rw [if_neg hlt] at hsides ⊢
      obtain ⟨o, t, ha, hrest⟩ := Gen.bind_eq_ok_iff.1 hsides
      obtain ⟨p, u, hb, -⟩ := Gen.bind_eq_ok_iff.1 hrest
      exact ⟨u, .cons (.inl ha) (.cons (.inl hb) (.nil u))⟩
  · have hlt : op ≠ .lt := by
      rintro rfl
      exact hcomparison rfl
    rw [if_neg hcomparison] at h
    rw [if_neg hlt]
    obtain ⟨o, t, ha, hrest⟩ := Gen.bind_eq_ok_iff.1 h
    obtain ⟨p, u, hb, -⟩ := Gen.bind_eq_ok_iff.1 hrest
    exact ⟨u, .cons (.inl ha) (.cons (.inl hb) (.nil u))⟩

/-- Generating a node starts with evaluating its operands. -/
theorem evaluates_operands {env : Env} {n : Node} {s w : State} (h : Gen.node env n s = .ok () w) :
    ∃ u, Evaluates env n.operands s u := by
  cases n with
  | binary l op a b => exact evaluates_of_lowerBinary h
  | call l f args =>
    have hcall : (if Gen.isInclude f then Gen.lowerInclude env l args
        else Gen.lowerCall ⟨f, Gen.node env f⟩ (Gen.parts env args)) s = .ok () w := h
    show ∃ u, Evaluates env (if Gen.isInclude f then [] else f :: args) s u
    by_cases hinclude : Gen.isInclude f = true
    · rw [if_pos hinclude]
      exact ⟨s, .nil s⟩
    · rw [if_neg hinclude] at hcall ⊢
      obtain ⟨o, t, hf, hrest⟩ := Gen.bind_eq_ok_iff.1 hcall
      obtain ⟨os, u, hargs, -⟩ := Gen.bind_eq_ok_iff.1 hrest
      exact ⟨u, .cons (.inr hf) (evaluates_of_evalAll hargs)⟩
  | index l b i =>
    obtain ⟨o, t, hb, hrest⟩ := Gen.bind_eq_ok_iff.1 h
    obtain ⟨p, u, hi, -⟩ := Gen.bind_eq_ok_iff.1 hrest
    exact ⟨u, .cons (.inl hb) (.cons (.inr hi) (.nil u))⟩
  | _ => exact ⟨s, .nil s⟩

/-! ## Which operands keep their value -/

/-- None of the lines assigns the variable. -/
def Kept (x : Name) (lines : List Line) : Prop := ∀ line ∈ lines, line.written? ≠ some x

/-- None of the nodes assigns to, or steps, a name that stands for the variable. -/
def Spared (x : Name) (shared : Shared) (ns : List Node) : Prop :=
  ∀ n ∈ ns, ∀ k, n.assignedName? = some k → ¬ shared.Denotes k x

/-- The variable is not one that the name of a builtin stands for. -/
def Shared.IsOrdinary (shared : Shared) (x : Name) : Prop :=
  ∀ k, isBuiltin k = true → ¬ shared.Denotes k x

/-- A variable of the user is ordinary, unless it has the name of a builtin. -/
theorem WellScoped.isOrdinary_user {scopes : ScopeChain} {shared : Shared}
    (h : WellScoped scopes shared) {k : String} (hk : isBuiltin k = false) :
    shared.IsOrdinary (.user k) := by
  rintro other hother (heq | ⟨v, hget, hv⟩)
  · cases heq
    rw [hk] at hother
    cases hother
  · obtain ⟨-, m, -, -, hm⟩ := h.builtin (Bindings.mem_of_get? hget)
    rw [hv] at hm
    cases hm

section Evaluation

variable {setup : Setup} {depth : Nat} {base : String}

/-- Evaluating nodes assigns what the nodes assign. -/
theorem Evaluates.assigns (hstandard : setup.registry = .standard) {ns : List Node} {s t : State}
    {b : Nat} (h : Evaluates (setup.env depth base) ns s t) (hs : s.WellScoped) (hb : b ≤ s.temps) :
    Assigns b (ns.flatMap (setup.nodes depth base)) s t := by
  induction h with
  | nil s => exact .of_code_eq hs (.refl _) rfl
  | @cons n ns s t u o hn _ ih =>
    have hnode := (Assignment.lawful b hstandard).node depth base n
    have hfirst : Assigns b (setup.nodes depth base n) s t := by
      rcases hn with heval | heval
      · exact Assignment.assigns_of_obeys ((Assignment.sequential b).eval hnode) hs hb heval
      · exact Assignment.assigns_of_obeys ((Assignment.sequential b).evalDeref hnode) hs hb heval
    exact hfirst.trans (ih hfirst.scopes (Nat.le_trans hb hfirst.shared.temps))

/-- The variable from which an operand is read has been made up by then, if it is a temporary. -/
theorem EvaluatesTo.made (hstandard : setup.registry = .standard) {n : Node} {s t : State}
    {m : Nat} {ty : ValueType}
    (h : EvaluatesTo (setup.env depth base) n s (.var (.named (.temp m) ty)) t)
    (hs : s.WellScoped) : m ≤ t.temps := by
  have hread : (Operand.var (.named (.temp m) ty)).IsReadOf n.readName? s.temps t.shared := by
    rcases h with heval | heval
    · exact (eval_isLeftBy hstandard depth base hs heval).isReadOf
    · exact (evalDeref_isReadBy hstandard depth base hs heval).isReadOf
  cases hname : n.readName? with
  | some k =>
    rw [hname] at hread
    obtain ⟨w, hw, hadmits⟩ := hread
    cases hw
    rcases hadmits with ⟨huser, -⟩ | ⟨i, hslot, -⟩ | ⟨-, m', -, hle, hm'⟩
    · cases huser
    · cases hslot
    · cases hm'
      exact hle
  | none =>
    rw [hname] at hread
    obtain ⟨m', hm', -, hle⟩ := hread _ _ rfl rfl
    cases hm'
    exact hle

end Evaluation

/-- When an operand keeps its value. While a node is generated, in whatever state a compilation has
come to, its operands are evaluated one after the other. If one of them is read from a variable, the
lines of the later ones leave the variable alone if none of these has an assignment to, or a step of,
a name that stands for it, in itself or in what it includes. Unless the variable is a builtin's, they
leave it alone only then. -/
theorem operand_kept_iff {setup : Setup} (hstandard : setup.registry = .standard) (depth : Nat)
    (base : String) {s w : State} {waiting : List State} {made : List Name}
    (hs : Compilation.Reached ⟨s, waiting, made, false⟩) {n : Node}
    (hrun : Gen.node (setup.env depth base) n s = .ok () w) {before after : List Node} {p : Node}
    (hoperands : n.operands = before ++ p :: after) :
    ∃ s' o t u lines, Evaluates (setup.env depth base) before s s' ∧
      EvaluatesTo (setup.env depth base) p s' o t ∧ Evaluates (setup.env depth base) after t u ∧
      u.segments.code = t.segments.code ++ lines ∧
      ∀ x ty, o = .var (.named x ty) →
        (Spared x u.shared (after.flatMap (setup.nodes depth base)) → Kept x lines) ∧
        (u.shared.IsOrdinary x →
          (Kept x lines ↔ Spared x u.shared (after.flatMap (setup.nodes depth base)))) := by
  -- Evaluate the operands in the order of the node, and cut the run at the operand in question.
  obtain ⟨u, hall⟩ := evaluates_operands hrun
  rw [hoperands] at hall
  obtain ⟨s', o, t, hbefore, hp, hafter⟩ := hall.split
  have hs₀ : s.WellScoped := (Compilation.sound_of_reached hs).scopes s List.mem_cons_self
  have hs' := (hbefore.assigns hstandard hs₀ (Nat.le_refl _)).scopes
  have ht : t.WellScoped :=
    ((Evaluates.cons hp (.nil t)).assigns hstandard hs' (Nat.le_refl _)).scopes
  have hlater := hafter.assigns hstandard ht (Nat.le_refl t.temps)
  obtain ⟨lines, hlines, hstores⟩ := hlater.written
  refine ⟨s', o, t, u, lines, hbefore, hp, hafter, hlines, ?_⟩
  rintro x ty rfl
  have hkept : Spared x u.shared (after.flatMap (setup.nodes depth base)) → Kept x lines := by
    intro hspared line hline hx
    rcases hstores.only line hline x hx with ⟨m, rfl, hm⟩ | ⟨n, hn, k, hk, hdenotes⟩
    · -- A temporary that the later operands make up is not the one that is read.
      have hle := hp.made hstandard hs'
      omega
    · exact hspared n hn k hk hdenotes
  refine ⟨hkept, fun hordinary => ⟨?_, hkept⟩⟩
  -- An assignment to a name that stands for the variable writes the user's variable of that name.
  intro hkept n hn k hk hdenotes
  have hbuiltin : isBuiltin k = false := Bool.eq_false_iff.2 fun hk => hordinary k hk hdenotes
  obtain ⟨line, hline, hwritten⟩ := hstores.all n hn k hk hbuiltin
  rw [← hlater.scopes.eq_user hbuiltin hdenotes] at hwritten
  exact hkept line hline hwritten

/-! ## An operand that does not keep its value -/

/-- The surroundings of a source without other files. -/
def sampleSetup : Setup :=
  { registry := .standard, files := fun _ => .error .notFound, folding := true, limit := 0 }

/-- The state of a unit that has declared `x` as an integer. -/
def sampleScope : State := State.declare "x" (.named (.user "x") .integer) {}

/-- The assignment `x = 2`. -/
def sampleAssignment : Node := .assign 0 (.identifier 0 "x") (.integer 0 2)

/-- In `x + (x = 2)` the left operand does not keep its value. -/
theorem sample_operand_not_kept :
    ∃ t u lines, EvaluatesTo (sampleSetup.env 0 ".") (.identifier 0 "x") sampleScope
        (.var (.named (.user "x") .integer)) t ∧
      Evaluates (sampleSetup.env 0 ".") [sampleAssignment] t u ∧
      u.segments.code = t.segments.code ++ lines ∧ ¬ Kept (.user "x") lines := by
  have hreached : Compilation.Reached ⟨sampleScope, [], [], false⟩ :=
    .single (.unit [] [] (.user {} "x" .integer (by decide)))
  have hscope : sampleScope.WellScoped :=
    (Compilation.sound_of_reached hreached).scopes _ List.mem_cons_self
  obtain ⟨s', o, t, u, lines, hbefore, hp, hafter, hlines, hkept⟩ :=
    @operand_kept_iff sampleSetup rfl 0 "." _ _ _ _ hreached
      (.binary 0 .add (.identifier 0 "x") sampleAssignment) rfl [] _ (.identifier 0 "x") rfl
  cases hbefore
  have hread : o = .var (.named (.user "x") .integer) := by
    rcases hp with heval | heval
    · cases heval
      rfl
    · cases heval
      rfl
  subst hread
  refine ⟨t, u, lines, hp, hafter, hlines, fun hlines => ?_⟩
  have hscope' := ((Evaluates.cons hp hafter).assigns rfl hscope (Nat.le_refl _)).scopes
  have hspared := ((hkept _ _ rfl).2 (hscope'.isOrdinary_user (by decide))).1 hlines
  exact hspared sampleAssignment List.mem_cons_self "x" rfl (.inl rfl)

/-- A source in which the right operand of an addition assigns to the left one. -/
def overwritingSource : String := "x = 1; y = x + (x = 2);"

/-- The lines of code for `overwritingSource`. -/
def overwritingCode : List Line :=
  [.compute (.var (.user "x")) (.value [.number 1]),
   .compute (.var (.user "x")) (.value [.number 2]),
   .compute (.var (.temp 1)) (.binary .add [.deferred (.user "x")] [.number 2]),
   .compute (.var (.user "y")) (.value [.deferred (.temp 1)])]

/-- The lines of code for a source, if it compiles. -/
def Options.code? (options : Options) (files : String → Except IoError String) (source : String) :
    Option (List Line) := do
  let program ← (readUnit options.folding source).toOption
  match generate (options.env .standard files) source program {} with
  | .error _ _ => none
  | .ok _ s => some s.segments.code

/-- The left operand of the addition is evaluated when `x` is 1. Between that and the line that adds,
the right operand assigns 2 to `x`, so what is added are 2 and 2. -/
theorem overwritten_operand_reads_new_value :
    Options.code? {} (fun _ => .error .notFound) overwritingSource = some overwritingCode ∧
      ∀ ops vars, (execute? ops overwritingCode vars).map (· "y") = some (ops .add 2 2) := by
  refine ⟨by decide +kernel, ?_⟩
  intro ops vars
  rfl

end BatchCompiler
