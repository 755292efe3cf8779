/-
# BatchCompiler.Proofs.Stack -- the operands that a step finds and those that it leaves

A step of generation does not look at the operands that it finds, and takes none of them away. With
more operands below, it does the same and leaves its own on top of them; how many these are depends
on the construct alone. `Adds` says so of a step, together with what the step may fail with, since
one walk over the constructs settles both.

What a failure leaves behind are operands below, so they cannot matter to what is generated later.
-/

import BatchCompiler.Proofs.Action
import BatchCompiler.Proofs.Splice

namespace BatchCompiler

/-! ## Operands below -/

namespace State

/-- The state with more operands below its own. -/
def stackedOn (s : State) (below : List Operand) : State := { s with stack := s.stack ++ below }

/-- The state without its operands. -/
def cleared (s : State) : State := { s with stack := [] }

theorem length_stackedOn (s : State) (below : List Operand) :
    (s.stackedOn below).stack.length = s.stack.length + below.length :=
  List.length_append

theorem sub_stackedOn (s : State) (depth : Nat) (below : List Operand) :
    (s.stackedOn below).stack.length - (depth + below.length) = s.stack.length - depth := by
  rw [length_stackedOn]
  omega

theorem above_stackedOn (s : State) (depth : Nat) (below : List Operand) :
    (s.stackedOn below).above (depth + below.length) = s.above depth := by
  unfold above
  rw [sub_stackedOn]
  exact List.take_append_of_le_length (Nat.sub_le _ _)

theorem dropTo_stackedOn (s : State) (depth : Nat) (below : List Operand) :
    (s.stackedOn below).dropTo (depth + below.length) = (s.dropTo depth).stackedOn below := by
  unfold dropTo
  rw [sub_stackedOn]
  show State.mk _ _ ((s.stack ++ below).drop _) _ = _
  rw [List.drop_append_of_le_length (Nat.sub_le _ _)]
  rfl

end State

/-- The result with more operands below those that it leaves. -/
def stackedResult {ε α : Type} (below : List Operand) :
    EStateM.Result ε State α → EStateM.Result ε State α
  | .ok a t => .ok a (t.stackedOn below)
  | .error e t => .error e (t.stackedOn below)

/-! ## Steps -/

/-- The step does not see the operands that it finds. If it succeeds, it has put `k` operands on top
of them; it fails only as `allowed` says, and then leaves the operands as they were. -/
structure Adds {α : Type} (allowed : Fault → Prop) (k : Nat) (m : Gen α) : Prop where
  frame (s : State) (below : List Operand) : m (s.stackedOn below) = stackedResult below (m s)
  count (s t : State) (a : α) : m s = .ok a t → t.stack.length = s.stack.length + k
  failed (s t : State) (e : Fault) : m s = .error e t → allowed e ∧ t.stack = s.stack

/-- All that can be wrong at a place of a unit is allowed, except that an include nests too deep. -/
def AllowsLocal (allowed : Fault → Prop) : Prop :=
  ∀ loc cause, (∀ limit, cause ≠ .includeDepth limit) → allowed (.here loc cause)

/-- Setting up a builtin neither sees nor changes the operands. -/
def Registry.KeepsOffStack (registry : Registry) : Prop :=
  ∀ b ∈ registry, ∀ s : State,
    b.setup s = ((b.setup s.cleared).1, { (b.setup s.cleared).2 with stack := s.stack })

theorem Registry.standard_keepsOffStack : Registry.standard.KeepsOffStack := by
  intro b hb s
  obtain rfl := List.mem_singleton.1 hb
  dsimp only
  rw [Gen.setupProcess_apply, Gen.setupProcess_apply]
  rfl

theorem Registry.KeepsOffStack.setup_stackedOn {registry : Registry} (h : registry.KeepsOffStack)
    {name : String} {b : Builtin} (hb : registry.get? name = some b) (s : State)
    (below : List Operand) :
    b.setup (s.stackedOn below) = ((b.setup s).1, (b.setup s).2.stackedOn below) := by
  have hmem : b ∈ registry := List.mem_of_find?_eq_some hb
  rw [h b hmem (s.stackedOn below), h b hmem s]
  rfl

theorem Registry.KeepsOffStack.stack_setup {registry : Registry} (h : registry.KeepsOffStack)
    {name : String} {b : Builtin} (hb : registry.get? name = some b) (s : State) :
    (b.setup s).2.stack = s.stack := by
  rw [h b (List.mem_of_find?_eq_some hb) s]

namespace Adds

open Gen

variable {α β : Type} {allowed : Fault → Prop} {i j k : Nat} {m : Gen α} {s t : State} {a : α}

/-- A step that succeeds has put its operands on top of those that it found. -/
theorem stack_eq (h : Adds allowed k m) (hm : m s = .ok a t) :
    ∃ new : List Operand, new.length = k ∧ t.stack = new ++ s.stack := by
  have hframe : m s = stackedResult s.stack (m s.cleared) := h.frame s.cleared s.stack
  cases hclear : m s.cleared with
  | error e u =>
    rw [hclear, hm] at hframe
    cases hframe
  | ok a' u =>
    rw [hclear, hm] at hframe
    cases hframe
    refine ⟨u.stack, ?_, rfl⟩
    have hcount := h.count _ _ _ hclear
    simpa [State.cleared] using hcount

theorem stack_eq_zero (h : Adds allowed 0 m) (hm : m s = .ok a t) : t.stack = s.stack := by
  obtain ⟨new, hlength, hstack⟩ := h.stack_eq hm
  rw [List.length_eq_zero_iff.1 hlength] at hstack
  exact hstack

/-- Dropping what a step has pushed gives back the operands that it found. -/
theorem stack_dropTo (h : Adds allowed k m) (hm : m s = .ok a t) :
    (t.dropTo s.stack.length).stack = s.stack := by
  obtain ⟨new, -, hstack⟩ := h.stack_eq hm
  show t.stack.drop (t.stack.length - s.stack.length) = s.stack
  rw [hstack, List.length_append, Nat.add_sub_cancel, List.drop_left]

/-! ## Sequences -/

theorem andThen {f : α → Gen β} (hm : Adds allowed 0 m) (hf : ∀ a, Adds allowed k (f a)) :
    Adds allowed k (m >>= f) where
  frame := by
    intro s below
    rw [bind_apply, bind_apply, hm.frame]
    cases m s with
    | ok a t => exact (hf a).frame t below
    | error e t => rfl
  count := by
    intro s u b hrun
    obtain ⟨a, t, hmt, hfu⟩ := bind_eq_ok_iff.1 hrun
    rw [(hf a).count t u b hfu, hm.count s t a hmt]
    rfl
  failed := by
    intro s u e hrun
    rw [bind_apply] at hrun
    cases hmt : m s with
    | ok a t =>
      rw [hmt] at hrun
      rw [← hm.stack_eq_zero hmt]
      exact (hf a).failed t u e hrun
    | error e' t =>
      rw [hmt] at hrun
      cases hrun
      exact hm.failed s u e hmt

/-- A step that always succeeds, and commutes with putting operands below. -/
theorem of_ok {value : State → α} {next : State → State} (hm : ∀ s, m s = .ok (value s) (next s))
    (hvalue : ∀ s below, value (s.stackedOn below) = value s)
    (hnext : ∀ s below, next (s.stackedOn below) = (next s).stackedOn below)
    (hcount : ∀ s, (next s).stack.length = s.stack.length + k) : Adds allowed k m where
  frame := by
    intro s below
    rw [hm, hm, hvalue, hnext]
    rfl
  count := by
    intro s t a hrun
    rw [hm] at hrun
    cases hrun
    exact hcount s
  failed := by
    intro s t e hrun
    rw [hm] at hrun
    cases hrun

/-- A step that always fails in the same way, and does nothing. -/
theorem of_error {e : Fault} (hm : ∀ s, m s = .error e s) (he : allowed e) : Adds allowed k m where
  frame := by
    intro s below
    rw [hm, hm]
    rfl
  count := by
    intro s t a hrun
    rw [hm] at hrun
    cases hrun
  failed := by
    intro s t e' hrun
    rw [hm] at hrun
    cases hrun
    exact ⟨he, rfl⟩

/-! ## Primitive steps -/

theorem pure (a : α) : Adds allowed 0 (Pure.pure a) :=
  of_ok (fun _ => rfl) (fun _ _ => rfl) (fun _ _ => rfl) fun _ => rfl

theorem fail {loc : Nat} {cause : Cause} (h : allowed (.here loc cause)) :
    Adds allowed k (Gen.fail loc cause : Gen α) :=
  of_error (fun _ => rfl) h

theorem emitTo (segment : Segment) (line : Line) : Adds allowed 0 (Gen.emitTo segment line) :=
  of_ok (emitTo_apply segment line) (fun _ _ => rfl) (fun _ _ => rfl) fun _ => rfl

theorem emit (line : Line) : Adds allowed 0 (Gen.emit line) := emitTo .code line

theorem emitAll (lines : List Line) : Adds allowed 0 (Gen.emitAll lines) :=
  of_ok (emitAll_apply lines) (fun _ _ => rfl) (fun _ _ => rfl) fun _ => rfl

theorem freshTemp : Adds allowed 0 Gen.freshTemp :=
  of_ok freshTemp_apply (fun _ _ => rfl) (fun _ _ => rfl) fun _ => rfl

theorem freshLabel : Adds allowed 0 Gen.freshLabel :=
  of_ok freshLabel_apply (fun _ _ => rfl) (fun _ _ => rfl) fun _ => rfl

theorem declare (name : String) (v : Variable) : Adds allowed 0 (Gen.declare name v) :=
  of_ok (declare_apply name v) (fun _ _ => rfl) (fun _ _ => rfl) fun _ => rfl

theorem lookup (name : String) : Adds allowed 0 (Gen.lookup name) :=
  of_ok (lookup_apply name) (fun _ _ => rfl) (fun _ _ => rfl) fun _ => rfl

theorem push (o : Operand) : Adds allowed 1 (Gen.push o) :=
  of_ok (push_apply o) (fun _ _ => rfl) (fun _ _ => rfl) fun _ => rfl

theorem pushVar (x : Name) (ty : ValueType) : Adds allowed 1 (Gen.pushVar x ty) := push _

theorem checkUserName (hlocal : AllowsLocal allowed) (loc : Nat) (name : String) :
    Adds allowed 0 (Gen.checkUserName loc name) := by
  unfold Gen.checkUserName
  split
  · exact fail (hlocal _ _ nofun)
  · exact pure _

theorem inScope (h : Adds allowed k m) : Adds allowed k (Gen.inScope m) where
  frame := by
    intro s below
    have henter : ({ s.stackedOn below with scopes := (s.stackedOn below).scopes.enter } : State) =
        State.stackedOn { s with scopes := s.scopes.enter } below := rfl
    unfold Gen.inScope
    rw [henter, h.frame]
    cases m { s with scopes := s.scopes.enter } <;> rfl
  count := by
    intro s t a hrun
    unfold Gen.inScope at hrun
    split at hrun
    next u hm =>
      cases hrun
      exact h.count { s with scopes := s.scopes.enter } u a hm
    next => cases hrun
  failed := by
    intro s t e hrun
    unfold Gen.inScope at hrun
    split at hrun
    next => cases hrun
    next u hm =>
      cases hrun
      exact h.failed { s with scopes := s.scopes.enter } u e hm

theorem deref (o : Operand) : Adds allowed 0 (Gen.deref o) := by
  cases o with
  | reference place => exact andThen freshTemp fun x => andThen (emit _) fun _ => pure _
  | integer value => exact pure _
  | text t => exact pure _
  | var v => exact pure _

theorem derefAll (os : List Operand) : Adds allowed 0 (Gen.derefAll os) := by
  induction os with
  | nil => exact pure _
  | cons o os ih => exact andThen ih fun _ => andThen (deref o) fun _ => pure _

/-! ## Parts -/

/-- A statement drops what it has pushed, and nothing else. -/
theorem statement {m : Gen Unit} (h : Adds allowed k m) : Adds allowed 0 (Gen.statement m) where
  frame := by
    intro s below
    rw [statement_apply, statement_apply, h.frame, State.length_stackedOn]
    cases m s with
    | error e t => rfl
    | ok a t =>
      show EStateM.Result.ok () ((t.stackedOn below).dropTo _) = _
      rw [State.dropTo_stackedOn]
      rfl
  count := by
    intro s u a hrun
    rw [statement_apply] at hrun
    cases hm : m s with
    | error e t =>
      rw [hm] at hrun
      cases hrun
    | ok a t =>
      rw [hm] at hrun
      cases hrun
      exact congrArg List.length (h.stack_dropTo hm)
  failed := by
    intro s u e hrun
    rw [statement_apply] at hrun
    cases hm : m s with
    | ok a t =>
      rw [hm] at hrun
      cases hrun
    | error e' t =>
      rw [hm] at hrun
      cases hrun
      exact h.failed s u e hm

/-- The last operand that a part has pushed is taken off, and the others dropped. -/
theorem eval (hlocal : AllowsLocal allowed) {p : Part} (h : Adds allowed k p.gen) :
    Adds allowed 0 (Gen.eval p) where
  frame := by
    intro s below
    rw [eval_apply, eval_apply, h.frame, State.length_stackedOn]
    cases p.gen s with
    | error e t => rfl
    | ok a t =>
      dsimp only [stackedResult]
      rw [State.above_stackedOn, State.dropTo_stackedOn]
      cases t.above s.stack.length <;> rfl
  count := by
    intro s u o hrun
    obtain ⟨t, rest, hgen, -, -, rfl⟩ := eval_eq_ok hrun
    exact congrArg List.length (h.stack_dropTo hgen)
  failed := by
    intro s u e hrun
    rw [eval_apply] at hrun
    cases hgen : p.gen s with
    | error e' t =>
      rw [hgen] at hrun
      cases hrun
      exact h.failed s u e hgen
    | ok a t =>
      rw [hgen] at hrun
      dsimp only at hrun
      split at hrun
      · cases hrun
      · cases hrun
        exact ⟨hlocal _ _ nofun, h.stack_dropTo hgen⟩

theorem evalDeref (hlocal : AllowsLocal allowed) {p : Part} (h : Adds allowed k p.gen) :
    Adds allowed 0 (Gen.evalDeref p) :=
  andThen (eval hlocal h) deref

theorem block {ps : List Part} (h : ∀ p ∈ ps, ∃ k, Adds allowed k p.gen) :
    Adds allowed 0 (Gen.block ps) := by
  induction ps with
  | nil => exact pure _
  | cons p ps ih =>
    obtain ⟨k, hp⟩ := h p List.mem_cons_self
    refine andThen (statement hp) fun _ => ih ?_
    intro q hq
    exact h q (List.mem_cons_of_mem _ hq)

theorem evalAll (hlocal : AllowsLocal allowed) {ps : List Part}
    (h : ∀ p ∈ ps, ∃ k, Adds allowed k p.gen) : Adds allowed 0 (Gen.evalAll ps) := by
  induction ps with
  | nil => exact pure _
  | cons p ps ih =>
    obtain ⟨k, hp⟩ := h p List.mem_cons_self
    refine andThen (eval hlocal hp) fun _ => andThen (ih ?_) fun _ => pure _
    intro q hq
    exact h q (List.mem_cons_of_mem _ hq)

/-! ## Constructs -/

theorem sum (o p : Operand) : Adds allowed 1 (lowerSum o p) := by
  refine andThen freshTemp fun x => ?_
  show Adds allowed 1 (if _ then _ else _)
  split
  · exact andThen (emit _) fun _ => pushVar _ _
  · exact andThen (emit _) fun _ => pushVar _ _

theorem arithmetic (op : BinaryOp) (o p : Operand) : Adds allowed 1 (lowerArithmetic op o p) :=
  andThen freshTemp fun _ => andThen (emit _) fun _ => pushVar _ _

variable {b c : Part} {a : Part}

theorem comparands (hlocal : AllowsLocal allowed) (op : BinaryOp) (ha : Adds allowed i a.gen)
    (hb : Adds allowed j b.gen) : Adds allowed 0 (Gen.comparands op a b) := by
  unfold Gen.comparands
  split
  · refine andThen (eval hlocal hb) fun p => andThen (eval hlocal ha) fun o => ?_
    refine andThen freshTemp fun x => ?_
    exact andThen (deref o) fun _ => andThen (deref p) fun _ => pure _
  · refine andThen (eval hlocal ha) fun o => andThen (eval hlocal hb) fun p => ?_
    refine andThen freshTemp fun x => ?_
    exact andThen (deref p) fun _ => andThen (deref o) fun _ => pure _

theorem binary (hlocal : AllowsLocal allowed) (op : BinaryOp) (ha : Adds allowed i a.gen)
    (hb : Adds allowed j b.gen) : Adds allowed 1 (lowerBinary op a b) := by
  unfold lowerBinary
  split
  · exact andThen (comparands hlocal op ha hb) fun sides => andThen (emit _) fun _ => pushVar _ _
  · refine andThen (eval hlocal ha) fun o => andThen (eval hlocal hb) fun p => ?_
    refine andThen (deref p) fun _ => andThen (deref o) fun _ => ?_
    show Adds allowed 1 (if _ then _ else _)
    split
    · exact sum _ _
    · exact arithmetic op _ _

theorem conjunction (hlocal : AllowsLocal allowed) (ha : Adds allowed i a.gen)
    (hb : Adds allowed j b.gen) : Adds allowed 0 (lowerAnd a b) := by
  refine andThen (evalDeref hlocal ha) fun o => andThen (emit _) fun _ => ?_
  exact andThen (statement hb) fun _ => emit _

theorem disjunction (hlocal : AllowsLocal allowed) (ha : Adds allowed i a.gen)
    (hb : Adds allowed j b.gen) : Adds allowed 1 (lowerOr a b) := by
  refine andThen freshTemp fun x => andThen (evalDeref hlocal ha) fun o => ?_
  refine andThen (emitAll _) fun _ => andThen (evalDeref hlocal hb) fun p => ?_
  exact andThen (emitAll _) fun _ => pushVar _ _

theorem branch (hlocal : AllowsLocal allowed) {thenBody elseBody : List Part}
    (hc : Adds allowed k c.gen) (ht : Adds allowed 0 (Gen.block thenBody))
    (he : Adds allowed 0 (Gen.block elseBody)) :
    Adds allowed 0 (lowerBranch c thenBody elseBody) := by
  refine andThen (evalDeref hlocal hc) fun o => andThen (emit _) fun _ => andThen ht fun _ => ?_
  split
  · exact emit _
  · exact andThen (emit _) fun _ => andThen he fun _ => emit _

theorem conditional (hlocal : AllowsLocal allowed) (hc : Adds allowed k c.gen)
    (ha : Adds allowed i a.gen) (hb : Adds allowed j b.gen) :
    Adds allowed 1 (lowerTernary c a b) := by
  refine andThen (evalDeref hlocal hc) fun q => andThen freshTemp fun x => ?_
  refine andThen (emit _) fun _ => andThen (evalDeref hlocal ha) fun o => ?_
  refine andThen (emit _) fun _ => andThen (emit _) fun _ => ?_
  refine andThen (evalDeref hlocal hb) fun p => ?_
  exact andThen (emit _) fun _ => andThen (emit _) fun _ => pushVar _ _

theorem loop (hlocal : AllowsLocal allowed) {body : List Part} (hc : Adds allowed k c.gen)
    (hb : Adds allowed 0 (Gen.block body)) : Adds allowed 0 (lowerLoop c body) := by
  refine andThen freshLabel fun label => andThen (emit _) fun _ => ?_
  refine andThen (evalDeref hlocal hc) fun o => andThen (emit _) fun _ => andThen hb fun _ => ?_
  exact andThen (emit _) fun _ => emit _

theorem functionName (hlocal : AllowsLocal allowed) (loc : Nat) (name : Option String) :
    Adds allowed 0 (Gen.functionName loc name) := by
  cases name with
  | none => exact freshTemp
  | some name =>
    exact andThen (checkUserName hlocal loc name) fun _ => andThen (declare _ _) fun _ => pure _

theorem declareParams (first : Nat) (params : List String) :
    Adds allowed 0 (Gen.declareParams first params) := by
  induction params generalizing first with
  | nil => exact pure _
  | cons param rest ih => exact andThen (declare _ _) fun _ => ih (first + 1)

theorem function (hlocal : AllowsLocal allowed) (loc : Nat) (name : Option String)
    (params : List String) {body : List Part} (hb : Adds allowed 0 (Gen.block body)) :
    Adds allowed 1 (lowerFunction loc name params body) := by
  refine andThen (functionName hlocal loc name) fun f => andThen (emitTo _ _) fun _ => ?_
  refine andThen (emitAll _) fun _ => ?_
  refine andThen (inScope (andThen (declareParams 2 params) fun _ => hb)) fun _ => ?_
  split
  · exact andThen (emit _) fun _ => push _
  · exact andThen (emitAll _) fun _ => andThen (emit _) fun _ => push _

theorem call (hlocal : AllowsLocal allowed) {args : List Part} (ha : Adds allowed i a.gen)
    (hargs : Adds allowed 0 (Gen.evalAll args)) : Adds allowed 1 (lowerCall a args) := by
  refine andThen (evalDeref hlocal ha) fun o => andThen hargs fun os => ?_
  refine andThen (derefAll os) fun _ => andThen freshTemp fun x => ?_
  exact andThen (emit _) fun _ => pushVar _ _

theorem ret (hlocal : AllowsLocal allowed) (ha : Adds allowed i a.gen) :
    Adds allowed 0 (lowerReturn a) :=
  andThen (evalDeref hlocal ha) fun _ => emitAll _

theorem nameTarget (hlocal : AllowsLocal allowed) (loc : Nat) (name : String) (ty : ValueType) :
    Adds allowed 0 (Gen.nameTarget loc name ty) := by
  refine andThen (lookup name) fun found => ?_
  cases found with
  | none =>
    exact andThen (checkUserName hlocal loc name) fun _ => andThen (declare _ _) fun _ => pure _
  | some v =>
    dsimp only
    split
    · exact pure _
    · exact fail (hlocal _ _ nofun)

theorem assign (hlocal : AllowsLocal allowed) (ha : Adds allowed i a.gen)
    (hb : Adds allowed j b.gen) : Adds allowed 1 (lowerAssign a b) := by
  refine andThen (evalDeref hlocal hb) fun v => ?_
  have hstored : ∀ place : Target, Adds allowed 1 (do
      Gen.emit (assignLine place v)
      Gen.push v) :=
    fun place => andThen (emit _) fun _ => push v
  dsimp only
  split
  · exact andThen (nameTarget hlocal _ _ _) hstored
  · exact andThen (eval hlocal ha) fun o => andThen (pure _) hstored
  · exact andThen (fail (hlocal _ _ nofun)) hstored

theorem stepTarget (hlocal : AllowsLocal allowed) (n : Node) (o : Operand) :
    Adds allowed 0 (Gen.stepTarget n o) := by
  unfold Gen.stepTarget
  split
  · exact pure _
  · split
    · exact pure _
    · exact fail (hlocal _ _ nofun)
    · exact fail (hlocal _ _ nofun)
  · exact fail (hlocal _ _ nofun)

theorem step (hlocal : AllowsLocal allowed) (op : StepOp) (ha : Adds allowed i a.gen) :
    Adds allowed 1 (lowerStep op a) := by
  refine andThen (eval hlocal ha) fun o => andThen (stepTarget hlocal a.node o) fun place => ?_
  refine andThen (deref o) fun current => andThen freshTemp fun x => ?_
  exact andThen (emit _) fun _ => andThen (emit _) fun _ => pushVar _ _

theorem elements (hlocal : AllowsLocal allowed) (handle : Name) (first : Nat) {ps : List Part}
    (h : ∀ p ∈ ps, ∃ k, Adds allowed k p.gen) :
    Adds allowed 0 (lowerElements handle first ps) := by
  induction ps generalizing first with
  | nil => exact pure _
  | cons p ps ih =>
    obtain ⟨k, hp⟩ := h p List.mem_cons_self
    refine andThen (evalDeref hlocal hp) fun o => andThen (emit _) fun _ => ih (first + 1) ?_
    intro q hq
    exact h q (List.mem_cons_of_mem _ hq)

theorem array (hlocal : AllowsLocal allowed) {ps : List Part}
    (h : ∀ p ∈ ps, ∃ k, Adds allowed k p.gen) : Adds allowed 1 (lowerArray ps) := by
  refine andThen freshTemp fun x => andThen (emit _) fun _ => ?_
  refine andThen (elements hlocal x 0 h) fun _ => ?_
  exact andThen (emit _) fun _ => pushVar _ _

theorem index (hlocal : AllowsLocal allowed) (ha : Adds allowed i a.gen)
    (hb : Adds allowed j b.gen) : Adds allowed 1 (lowerIndex a b) := by
  refine andThen (eval hlocal ha) fun o => andThen (evalDeref hlocal hb) fun p => ?_
  exact andThen (deref o) fun _ => push _

theorem program {body : List Part} (hb : Adds allowed 0 (Gen.block body)) :
    Adds allowed 0 (lowerProgram body) :=
  andThen (emitTo _ _) fun _ => andThen (emitTo _ _) fun _ => hb

/-! ## Names and includes -/

theorem resolve (hlocal : AllowsLocal allowed) {registry : Registry} (h : registry.KeepsOffStack)
    (loc : Nat) (name : String) : Adds allowed 0 (Gen.resolve registry loc name) where
  frame := by
    intro s below
    rw [resolve_apply, resolve_apply]
    dsimp only [State.stackedOn]
    cases s.scopes.lookup name with
    | some v => rfl
    | none =>
      cases s.shared.emitted.get? name with
      | some v => rfl
      | none =>
        cases hb : registry.get? name with
        | none => rfl
        | some b =>
          have hsetup := h.setup_stackedOn hb s below
          dsimp only [State.stackedOn] at hsetup ⊢
          rw [hsetup]
          rfl
  count := by
    intro s t v hrun
    rw [resolve_apply] at hrun
    split at hrun
    · cases hrun
      rfl
    · cases hrun
      rfl
    · cases hrun
    next b hb =>
      cases hrun
      exact congrArg List.length (h.stack_setup hb s)
  failed := by
    intro s t e hrun
    rw [resolve_apply] at hrun
    split at hrun
    · cases hrun
    · cases hrun
    · cases hrun
      exact ⟨hlocal _ _ nofun, rfl⟩
    · cases hrun

/-- An include leaves one operand, whatever the surroundings make of it. -/
theorem includes (hlocal : AllowsLocal allowed) (env : Env) (loc : Nat) (args : List Node)
    (hdepth : env.includeUnit? = none → allowed (.here loc (.includeDepth env.limit)))
    (hraised : ∀ includeUnit path shared e, env.includeUnit? = some includeUnit →
      includeUnit path shared = .error e → allowed (.raised e)) :
    Adds allowed 1 (lowerInclude env loc args) := by
  by_cases hargs : ∃ l path, args = [.string l path]
  · obtain ⟨l, path, rfl⟩ := hargs
    cases hunit : env.includeUnit? with
    | none =>
      refine of_error (fun s => ?_) (hdepth hunit)
      rw [lowerInclude_path, hunit]
    | some includeUnit =>
      refine ⟨?_, ?_, ?_⟩
      · intro s below
        rw [lowerInclude_path, lowerInclude_path, hunit]
        dsimp only [State.stackedOn]
        cases includeUnit (Path.join env.base path) s.shared <;> rfl
      · intro s t a hrun
        rw [lowerInclude_path, hunit] at hrun
        dsimp only at hrun
        split at hrun
        · cases hrun
        · cases hrun
          rfl
      · intro s t e hrun
        rw [lowerInclude_path, hunit] at hrun
        dsimp only at hrun
        split at hrun
        next e' he =>
          cases hrun
          exact ⟨hraised includeUnit _ _ e' hunit he, rfl⟩
        · cases hrun
  · obtain ⟨l, problem, hwrong⟩ := lowerInclude_wrong env loc fun l path h => hargs ⟨l, path, h⟩
    exact of_error hwrong (hlocal _ _ nofun)

end Adds

/-! ## Nodes -/

/-- The node leaves an operand. -/
def Node.hasValue (n : Node) : Bool := n.construct ∉ [.program, .and, .branch, .loop, .ret]

/-- Generating a node adds one operand, or none at all if it has no value. -/
theorem node_adds {allowed : Fault → Prop} (hlocal : AllowsLocal allowed) {env : Env}
    (hregistry : env.registry.KeepsOffStack)
    (hinclude : ∀ loc args, Adds allowed 1 (Gen.lowerInclude env loc args)) (n : Node) :
    Adds allowed n.hasValue.toNat (Gen.node env n) := by
  have hparts : ∀ {ns : List Node}, (∀ n ∈ ns, Adds allowed n.hasValue.toNat (Gen.node env n)) →
      ∀ p ∈ Gen.parts env ns, ∃ k, Adds allowed k p.gen := by
    intro ns h p hp
    rw [Gen.parts_eq_map] at hp
    obtain ⟨n, hn, rfl⟩ := List.mem_map.1 hp
    exact ⟨_, h n hn⟩
  induction n using Node.induction with
  | program l body ih => exact .program (.block (hparts ih))
  | integer l v => exact .push _
  | string l v => exact .push _
  | identifier l x => exact .andThen (.resolve hlocal hregistry l x) fun v => .push _
  | binary l op a b iha ihb => exact .binary hlocal op iha ihb
  | and l a b iha ihb => exact .conjunction hlocal iha ihb
  | or l a b iha ihb => exact .disjunction hlocal iha ihb
  | assign l t v iht ihv => exact .assign hlocal iht ihv
  | branch l c t e ihc iht ihe => exact .branch hlocal ihc (.block (hparts iht)) (.block (hparts ihe))
  | ternary l c t e ihc iht ihe => exact .conditional hlocal ihc iht ihe
  | loop l c body ihc ih => exact .loop hlocal ihc (.block (hparts ih))
  | function l x ps body ih => exact .function hlocal l x ps (.block (hparts ih))
  | call l f args ihf ih =>
    show Adds allowed 1 (if Gen.isInclude f then _ else _)
    split
    · exact hinclude l args
    · exact .call hlocal ihf (.evalAll hlocal (hparts ih))
  | ret l v ihv => exact .ret hlocal ihv
  | step l op leading t iht => exact .step hlocal op iht
  | array l es ih => exact .array hlocal (hparts ih)
  | index l b i ihb ihi => exact .index hlocal ihb ihi

/-- With any faults allowed, generating a node adds its operands, whatever includes are made of. -/
theorem node_adds_any {env : Env} (hregistry : env.registry.KeepsOffStack) (n : Node) :
    Adds (fun _ => True) n.hasValue.toNat (Gen.node env n) := by
  have hlocal : AllowsLocal fun _ => True := fun _ _ _ => trivial
  refine node_adds hlocal hregistry (fun loc args => ?_) n
  exact .includes hlocal env loc args (fun _ => trivial) fun _ _ _ _ _ _ => trivial

/-! ## The frame rule -/

/-- What generating and evaluating a node do with operands. -/
structure FrameRule (env : Env) (n : Node) : Prop where
  /-- The node is generated as if there were no operands, and its own come on top of those there. -/
  frame (s : State) : Gen.node env n s = stackedResult s.stack (Gen.node env n s.cleared)
  /-- A node that is generated leaves one operand if it has a value, and none if it has not. -/
  leaves (s t : State) :
    Gen.node env n s.cleared = .ok () t → t.stack.length = if n.hasValue then 1 else 0
  /-- A node that cannot be generated leaves nothing behind, and evaluating it fails likewise. -/
  failed (s t : State) (e : Fault) :
    Gen.node env n s = .error e t →
      t.stack = s.stack ∧ Gen.eval ⟨n, Gen.node env n⟩ s = .error e t
  /-- Evaluating a node that is generated and has a value takes off the operand that it left. -/
  valued (s t : State) :
    n.hasValue = true → Gen.node env n s = .ok () t →
      ∃ o, t.stack = o :: s.stack ∧
        Gen.eval ⟨n, Gen.node env n⟩ s = .ok o { t with stack := s.stack }
  /-- Evaluating a node that is generated and has no value is refused at the node itself. -/
  valueless (s t : State) :
    n.hasValue = false → Gen.node env n s = .ok () t →
      Gen.eval ⟨n, Gen.node env n⟩ s = .error (.here n.loc (.noValue n.construct)) t

theorem frameRule_node {env : Env} (hregistry : env.registry.KeepsOffStack) (n : Node) :
    FrameRule env n where
  frame := fun s => (node_adds_any hregistry n).frame s.cleared s.stack
  leaves := by
    intro s t hrun
    have hcount := (node_adds_any hregistry n).count _ t () hrun
    rw [hcount]
    cases n.hasValue <;> rfl
  failed := by
    intro s t e hrun
    refine ⟨((node_adds_any hregistry n).failed s t e hrun).2, ?_⟩
    rw [Gen.eval_apply]
    dsimp only
    rw [hrun]
  valued := by
    intro s t hvalue hrun
    obtain ⟨new, hlength, hstack⟩ := (node_adds_any hregistry n).stack_eq hrun
    rw [hvalue] at hlength
    obtain ⟨o, rfl⟩ := List.length_eq_one_iff.1 hlength
    exact ⟨o, hstack, Gen.eval_of_push hrun hstack⟩
  valueless := by
    intro s t hvalue hrun
    obtain ⟨new, hlength, hstack⟩ := (node_adds_any hregistry n).stack_eq hrun
    rw [hvalue] at hlength
    rw [List.length_eq_zero_iff.1 hlength] at hstack
    obtain ⟨segments, scopes, stack, shared⟩ := t
    obtain rfl : stack = s.stack := hstack
    rw [Gen.eval_apply]
    dsimp only
    rw [hrun]
    simp [State.above, State.dropTo]

/-! ## One generation after the other -/

/-- Generates nodes one after the other, each after `before` has been done to the state, whether or
not those before have failed. What each comes to is kept. -/
def session (env : Env) (source : String) (before : State → State) :
    List Node → State → List (Except CompileError Unit) × State
  | [], s => ([], s)
  | n :: ns, s =>
    match generate env source n (before s) with
    | .ok _ t => (.ok () :: (session env source before ns t).1, (session env source before ns t).2)
    | .error e t =>
      (.error e :: (session env source before ns t).1, (session env source before ns t).2)

theorem generate_stackedOn {env : Env} (hregistry : env.registry.KeepsOffStack) (source : String)
    (n : Node) (s : State) :
    generate env source n s = stackedResult s.stack (generate env source n s.cleared) := by
  have hframe : Gen.statement (Gen.node env n) s =
      stackedResult s.stack (Gen.statement (Gen.node env n) s.cleared) :=
    (node_adds_any hregistry n).statement.frame s.cleared s.stack
  unfold generate
  rw [hframe]
  cases Gen.statement (Gen.node env n) s.cleared <;> rfl

/-- States that differ in their operands alone are generated from alike. -/
theorem session_congr {env : Env} (hregistry : env.registry.KeepsOffStack) (source : String)
    {before after : State → State} (hbefore : ∀ s, (before s).cleared = s.cleared)
    (hafter : ∀ s, (after s).cleared = s.cleared) (ns : List Node) {s t : State}
    (h : s.cleared = t.cleared) :
    (session env source before ns s).1 = (session env source after ns t).1 ∧
      (session env source before ns s).2.cleared = (session env source after ns t).2.cleared := by
  induction ns generalizing s t with
  | nil => exact ⟨rfl, h⟩
  | cons n ns ih =>
    have hclear : (before s).cleared = (after t).cleared := by rw [hbefore, hafter, h]
    unfold session
    rw [generate_stackedOn hregistry source n (before s),
      generate_stackedOn hregistry source n (after t), hclear]
    cases generate env source n (after t).cleared with
    | ok a u =>
      obtain ⟨houtcomes, hstate⟩ :=
        @ih (u.stackedOn (before s).stack) (u.stackedOn (after t).stack) rfl
      exact ⟨congrArg (List.cons _) houtcomes, hstate⟩
    | error e u =>
      obtain ⟨houtcomes, hstate⟩ :=
        @ih (u.stackedOn (before s).stack) (u.stackedOn (after t).stack) rfl
      exact ⟨congrArg (List.cons _) houtcomes, hstate⟩

/-- The operands that generation finds never matter. Every node keeps to the frame rule; and where
nodes are generated one after the other, failures among them, each comes to the same, and the state
at the end is the same but for its operands, if the operands are cleared before each. -/
theorem operands_found_never_matter (env : Env) (hregistry : env.registry.KeepsOffStack) :
    (∀ n, FrameRule env n) ∧
    ∀ (source : String) (ns : List Node) (s : State),
      (session env source id ns s).1 = (session env source State.cleared ns s).1 ∧
      (session env source id ns s).2.cleared = (session env source State.cleared ns s).2.cleared := by
  refine ⟨fun n => frameRule_node hregistry n, ?_⟩
  intro source ns s
  refine session_congr hregistry source ?_ ?_ ns rfl
  · intro u
    rfl
  · intro u
    rfl

/-- With the builtins of the language and no files, the value of a conjunction is missing, whatever
operands are there, and what is generated after that failure is not affected. -/
theorem standard_operands_never_matter :
    Registry.standard.KeepsOffStack ∧
      FrameRule (Options.env {} .standard fun _ => .error .notFound)
        (.step 0 .inc true (.and 2 (.integer 2 1) (.integer 7 0))) ∧
      (session (Options.env {} .standard fun _ => .error .notFound) "" id
          [.step 0 .inc true (.and 2 (.integer 2 1) (.integer 7 0)), .identifier 0 "process"]
          { stack := [.integer 5] }).1 =
        (session (Options.env {} .standard fun _ => .error .notFound) "" State.cleared
          [.step 0 .inc true (.and 2 (.integer 2 1) (.integer 7 0)), .identifier 0 "process"]
          { stack := [.integer 5] }).1 :=
  ⟨Registry.standard_keepsOffStack,
    (operands_found_never_matter _ Registry.standard_keepsOffStack).1 _,
    ((operands_found_never_matter _ Registry.standard_keepsOffStack).2 _ _ _).1⟩

end BatchCompiler
