/-
# BatchCompiler.Proofs.Contract -- facts about every run of the generator, from facts about its steps

A contract says what holds between the state in which a step of generation starts and the state in
which it succeeds or fails. A contract that composes over sequences and holds of the primitive steps
holds of the lowerings of most constructs. What a contract has to say by itself is what assignments,
steps, loops and functions do; where it has nothing to say about one of these, the lemmas below
answer for it. The induction over trees and over levels of includes is done here, once, in
`Contract.Constructs.node`.

What succeeds is related to the nodes that it generated. Their order does not matter.
-/

import BatchCompiler.Proofs.Action
import BatchCompiler.Proofs.Splice

namespace BatchCompiler

/-! ## Lines -/

/-- The line neither is nor names a label, and what it writes is a variable of the given kind or an
element of an array. -/
def Line.IsOrdinary (own : Name → Prop) : Line → Prop
  | echoOff | deferExpansion => True
  | assign (.var x) _ => own x
  | assign (.element _ _) _ => True
  | assign (.size _) _ => True
  | compute (.var x) _ => own x
  | flag x _ => own x
  | fetch x _ => own x
  | compare x _ _ _ => own x
  | call _ x _ => own x
  | openIf _ | openElse | close => True
  | enterFunction | openReturn | setResult _ _ | returnZero | leaveFunction => True
  | _ => False

/-- The line marks a place, jumps to one, or declares the handle of a function. -/
def Line.isMark : Segment → Line → Bool
  | _, label _ | _, goto _ | .decl, handle _ => true
  | _, _ => false

/-- The line assigns what is given to a target of any kind. -/
def Line.isStore : Segment → Line → Bool
  | _, assign _ _ | _, compute _ _ => true
  | _, _ => false

/-! ## Contracts -/

/-- The node is one that a contract may have something to say about. -/
def Node.isSpecial (n : Node) : Bool := n.construct ∈ [.assign, .function, .step]

/-- What is to hold of the runs of generation. -/
structure Contract where
  /-- What holds of the states in which steps start. -/
  inv : State → Prop
  /-- What holds of a temporary when it is made up. -/
  fresh : Name → Prop
  /-- What holds between the states before and after a step that succeeds, which generated these
  nodes. -/
  done : List Node → State → State → Prop
  /-- What holds between the states before and after a step that fails. -/
  failed : State → State → Prop

/-- Every run of the step keeps to the contract. It generates the nodes `ns` if it succeeds, and its
result is as `Q` says. -/
def ObeysWith {α : Type} (K : Contract) (ns : List Node) (Q : α → Prop) (m : Gen α) : Prop :=
  ∀ s, K.inv s → match m s with
    | .ok a t => K.done ns s t ∧ Q a
    | .error _ t => K.failed s t

/-- Every run of the step keeps to the contract. -/
abbrev Obeys {α : Type} (K : Contract) (ns : List Node) (m : Gen α) : Prop :=
  ObeysWith K ns (fun _ => True) m

namespace ObeysWith

variable {α : Type} {K : Contract} {ns : List Node} {Q : α → Prop} {m : Gen α}

theorem intro (hok : ∀ s a t, K.inv s → m s = .ok a t → K.done ns s t ∧ Q a)
    (herror : ∀ s e t, K.inv s → m s = .error e t → K.failed s t) : ObeysWith K ns Q m := by
  intro s hs
  cases hm : m s with
  | ok a t => exact hok s a t hs hm
  | error e t => exact herror s e t hs hm

theorem of_ok (h : ObeysWith K ns Q m) {s t : State} (hs : K.inv s) {a : α} (hm : m s = .ok a t) :
    K.done ns s t ∧ Q a := by
  have hrun := h s hs
  rw [hm] at hrun
  exact hrun

theorem of_error (h : ObeysWith K ns Q m) {s t : State} (hs : K.inv s) {e : Fault}
    (hm : m s = .error e t) : K.failed s t := by
  have hrun := h s hs
  rw [hm] at hrun
  exact hrun

end ObeysWith

/-- The contract composes and holds of the primitive steps. -/
structure Contract.Sequential (K : Contract) : Prop where
  inv_of_done {ns : List Node} {s t : State} : K.inv s → K.done ns s t → K.inv t
  refl {s : State} : K.inv s → K.done [] s s
  trans {ms ns : List Node} {s t u : State} :
    K.inv s → K.done ms s t → K.done ns t u → K.done (ms ++ ns) s u
  perm {ms ns : List Node} {s t : State} : ms.Perm ns → K.done ms s t → K.done ns s t
  cons {n : Node} {ns : List Node} {s t : State} :
    n.isSpecial = false → K.done ns s t → K.done (n :: ns) s t
  failed_refl {s : State} : K.inv s → K.failed s s
  failed_trans {ns : List Node} {s t u : State} :
    K.inv s → K.done ns s t → K.failed t u → K.failed s u
  fresh {s : State} : K.inv s → K.fresh s.freshTemp.1
  temp {s : State} : K.inv s → K.done [] s s.freshTemp.2
  stack {s : State} (stack : List Operand) : K.inv s → K.done [] s { s with stack }
  emit {s : State} (segment : Segment) {line : Line} :
    K.inv s → line.IsOrdinary K.fresh → K.done [] s (s.emitTo segment line)
  label {s : State} : K.inv s → K.done [] s s.freshLabel.2
  user {s : State} {name : String} (ty : ValueType) :
    K.inv s → isReservedName name = false → K.done [] s (s.declare name (.named (.user name) ty))
  param {s : State} (name : String) {i : Nat} (ty : ValueType) :
    K.inv s → 2 ≤ i → K.done [] s (s.declare name (.slot i ty))
  enter {s : State} : K.inv s → K.inv { s with scopes := s.scopes.enter }
  leave {ns : List Node} {s t : State} : K.inv s → K.done ns { s with scopes := s.scopes.enter } t →
    K.done ns s { t with scopes := t.scopes.leave }
  failed_leave {s t : State} : K.inv s → K.failed { s with scopes := s.scopes.enter } t →
    K.failed s { t with scopes := t.scopes.leave }

namespace Contract.Sequential

open Gen

variable {α β : Type} {K : Contract} {ms ns ls : List Node} {m : Gen α} {f : α → Gen β}
  {Q : α → Prop} {R : β → Prop}

/-! ## Sequences -/

theorem bind (hK : K.Sequential) (hm : ObeysWith K ms Q m) (hf : ∀ a, Q a → ObeysWith K ns R (f a)) :
    ObeysWith K (ms ++ ns) R (m >>= f) := by
  refine .intro ?_ ?_
  · intro s b u hs hrun
    obtain ⟨a, t, hmt, hfu⟩ := bind_eq_ok_iff.1 hrun
    obtain ⟨hfirst, hQ⟩ := hm.of_ok hs hmt
    obtain ⟨hsecond, hR⟩ := (hf a hQ).of_ok (hK.inv_of_done hs hfirst) hfu
    exact ⟨hK.trans hs hfirst hsecond, hR⟩
  · intro s e u hs hrun
    cases hmt : m s with
    | error e' t =>
      rw [bind_apply, hmt] at hrun
      cases hrun
      exact hm.of_error hs hmt
    | ok a t =>
      rw [bind_of_ok hmt] at hrun
      obtain ⟨hfirst, hQ⟩ := hm.of_ok hs hmt
      exact hK.failed_trans hs hfirst ((hf a hQ).of_error (hK.inv_of_done hs hfirst) hrun)

/-- A step that generates nothing, and then another one. -/
theorem andThen (hK : K.Sequential) (hm : ObeysWith K [] Q m) (hf : ∀ a, Q a → ObeysWith K ns R (f a)) :
    ObeysWith K ns R (m >>= f) :=
  hK.bind hm hf

/-- A step, and then another one that generates nothing. -/
theorem bindLast (hK : K.Sequential) (hm : ObeysWith K ms Q m) (hf : ∀ a, Q a → ObeysWith K [] R (f a)) :
    ObeysWith K ms R (m >>= f) := by
  have h := hK.bind hm hf
  rwa [List.append_nil] at h

theorem pure (hK : K.Sequential) {a : α} (h : Q a) : ObeysWith K [] Q (Pure.pure a) :=
  fun _ hs => ⟨hK.refl hs, h⟩

/-- What holds of the generation of some nodes holds of that of others if it follows. -/
theorem regrade (hm : ObeysWith K ms Q m) (h : ∀ s t, K.done ms s t → K.done ns s t) :
    ObeysWith K ns Q m := by
  refine .intro ?_ fun s e t hs => hm.of_error hs
  intro s a t hs hrun
  obtain ⟨hdone, hQ⟩ := hm.of_ok hs hrun
  exact ⟨h s t hdone, hQ⟩

theorem permute (hK : K.Sequential) (hm : ObeysWith K ms Q m) (h : ms.Perm ns) :
    ObeysWith K ns Q m :=
  regrade hm fun _ _ => hK.perm h

/-! ## Primitive steps -/

theorem fail (hK : K.Sequential) (loc : Nat) (cause : Cause) :
    ObeysWith K ns Q (Gen.fail loc cause) :=
  fun _ hs => hK.failed_refl hs

theorem getState (hK : K.Sequential) : Obeys K [] (get : Gen State) :=
  fun _ hs => ⟨hK.refl hs, trivial⟩

theorem lookup (hK : K.Sequential) (name : String) : Obeys K [] (Gen.lookup name) :=
  fun _ hs => ⟨hK.refl hs, trivial⟩

theorem freshTemp (hK : K.Sequential) : ObeysWith K [] K.fresh Gen.freshTemp :=
  fun _ hs => ⟨hK.temp hs, hK.fresh hs⟩

theorem push (hK : K.Sequential) (o : Operand) : Obeys K [] (Gen.push o) :=
  fun _ hs => ⟨hK.stack _ hs, trivial⟩

theorem dropTo (hK : K.Sequential) (depth : Nat) : Obeys K [] (Gen.dropTo depth) :=
  fun _ hs => ⟨hK.stack _ hs, trivial⟩

theorem emitTo (hK : K.Sequential) (segment : Segment) (line : Line)
    (h : line.IsOrdinary K.fresh) : Obeys K [] (Gen.emitTo segment line) :=
  fun _ hs => ⟨hK.emit segment hs h, trivial⟩

theorem freshLabel (hK : K.Sequential) : Obeys K [] Gen.freshLabel :=
  fun _ hs => ⟨hK.label hs, trivial⟩

theorem declareUser (hK : K.Sequential) {name : String} (h : isReservedName name = false)
    (ty : ValueType) : Obeys K [] (Gen.declare name (.named (.user name) ty)) :=
  fun _ hs => ⟨hK.user ty hs h, trivial⟩

theorem checkUserName (hK : K.Sequential) (loc : Nat) (name : String) :
    ObeysWith K [] (fun _ => isReservedName name = false) (Gen.checkUserName loc name) := by
  unfold Gen.checkUserName
  split
  · exact hK.fail _ _
  · next h => exact hK.pure (Bool.eq_false_iff.2 h)

/-- The scope is closed whether the step succeeds or not. -/
theorem inScope (hK : K.Sequential) {m : Gen α} (hm : Obeys K ns m) : Obeys K ns (Gen.inScope m) := by
  intro s hs
  unfold Gen.inScope
  cases hms : m { s with scopes := s.scopes.enter } with
  | ok a t => exact ⟨hK.leave hs (hm.of_ok (hK.enter hs) hms).1, trivial⟩
  | error e t => exact hK.failed_leave hs (hm.of_error (hK.enter hs) hms)

theorem emitAll (hK : K.Sequential) {lines : List Line}
    (h : ∀ line ∈ lines, Obeys K [] (Gen.emit line)) : Obeys K [] (Gen.emitAll lines) := by
  induction lines with
  | nil => exact hK.pure trivial
  | cons line lines ih =>
    refine hK.andThen (h line List.mem_cons_self) fun _ _ => ih ?_
    intro other hother
    exact h other (List.mem_cons_of_mem _ hother)

theorem emitLines (hK : K.Sequential) {lines : List Line}
    (h : ∀ line ∈ lines, line.IsOrdinary K.fresh) : Obeys K [] (Gen.emitAll lines) :=
  hK.emitAll fun line hline => hK.emitTo .code line (h line hline)

theorem deref (hK : K.Sequential) (o : Operand) : Obeys K [] (Gen.deref o) := by
  cases o with
  | reference place =>
    refine hK.andThen hK.freshTemp fun x hx => ?_
    exact hK.andThen (hK.emitTo .code _ hx) fun _ _ => hK.pure trivial
  | integer value => exact hK.pure trivial
  | text t => exact hK.pure trivial
  | var v => exact hK.pure trivial

theorem derefAll (hK : K.Sequential) (os : List Operand) : Obeys K [] (Gen.derefAll os) := by
  induction os with
  | nil => exact hK.pure trivial
  | cons o os ih =>
    refine hK.andThen ih fun _ _ => ?_
    exact hK.andThen (hK.deref o) fun _ _ => hK.pure trivial

/-! ## Parts -/

theorem statement (hK : K.Sequential) {m : Gen Unit} (hm : Obeys K ns m) :
    Obeys K ns (Gen.statement m) :=
  hK.andThen hK.getState fun _ _ => hK.bindLast hm fun _ _ => hK.dropTo _

theorem eval (hK : K.Sequential) {p : Part} (hp : Obeys K ns p.gen) : Obeys K ns (Gen.eval p) := by
  refine hK.andThen hK.getState fun before _ => ?_
  refine hK.bindLast hp fun _ _ => ?_
  refine hK.andThen hK.getState fun after _ => ?_
  refine hK.andThen (hK.dropTo _) fun _ _ => ?_
  cases after.stack with
  | nil => exact hK.fail _ _
  | cons o rest =>
    show Obeys K [] (if _ then _ else _)
    split
    · exact hK.pure trivial
    · exact hK.fail _ _

theorem evalDeref (hK : K.Sequential) {p : Part} (hp : Obeys K ns p.gen) :
    Obeys K ns (Gen.evalDeref p) :=
  hK.bindLast (hK.eval hp) fun o _ => hK.deref o

/-- Parts generated one after the other for their effects. -/
theorem block (hK : K.Sequential) {env : Env} {nodes : Node → List Node} {body : List Node}
    (h : ∀ n ∈ body, Obeys K (nodes n) (node env n)) :
    Obeys K (body.flatMap nodes) (Gen.block (parts env body)) := by
  induction body with
  | nil => exact hK.pure trivial
  | cons n body ih =>
    refine hK.bind (hK.statement (h n List.mem_cons_self)) fun _ _ => ih ?_
    intro other hother
    exact h other (List.mem_cons_of_mem _ hother)

/-- Parts generated one after the other for their operands. -/
theorem evalAll (hK : K.Sequential) {env : Env} {nodes : Node → List Node} {args : List Node}
    (h : ∀ n ∈ args, Obeys K (nodes n) (node env n)) :
    Obeys K (args.flatMap nodes) (Gen.evalAll (parts env args)) := by
  induction args with
  | nil => exact hK.pure trivial
  | cons n args ih =>
    refine hK.bind (hK.eval (h n List.mem_cons_self)) fun _ _ => ?_
    refine hK.bindLast (ih ?_) fun _ _ => hK.pure trivial
    intro other hother
    exact h other (List.mem_cons_of_mem _ hother)

/-! ## Constructs that write only to their own temporaries -/

theorem program (hK : K.Sequential) {body : List Part} (h : Obeys K ns (Gen.block body)) :
    Obeys K ns (lowerProgram body) :=
  hK.andThen (hK.emitTo .init .echoOff trivial) fun _ _ =>
    hK.andThen (hK.emitTo .init .deferExpansion trivial) fun _ _ => h

theorem sum (hK : K.Sequential) (a b : Operand) : Obeys K [] (lowerSum a b) := by
  refine hK.andThen hK.freshTemp fun x hx => ?_
  show Obeys K [] (if _ then _ else _)
  split
  · exact hK.andThen (hK.emitTo .code _ hx) fun _ _ => hK.push _
  · exact hK.andThen (hK.emitTo .code _ hx) fun _ _ => hK.push _

theorem arithmetic (hK : K.Sequential) (op : BinaryOp) (a b : Operand) :
    Obeys K [] (lowerArithmetic op a b) := by
  refine hK.andThen hK.freshTemp fun x hx => ?_
  exact hK.andThen (hK.emitTo .code _ hx) fun _ _ => hK.push _

theorem comparands (hK : K.Sequential) (op : BinaryOp) {lhs rhs : Part} (ha : Obeys K ms lhs.gen)
    (hb : Obeys K ns rhs.gen) :
    ObeysWith K (ms ++ ns) (fun sides => K.fresh sides.2.2) (Gen.comparands op lhs rhs) := by
  unfold Gen.comparands
  split
  · -- The right operand comes first.
    refine hK.permute (hK.bind (hK.eval hb) fun b _ => ?_) List.perm_append_comm
    refine hK.bindLast (hK.eval ha) fun a _ => ?_
    refine hK.andThen hK.freshTemp fun x hx => ?_
    refine hK.andThen (hK.deref a) fun _ _ => ?_
    exact hK.andThen (hK.deref b) fun _ _ => hK.pure hx
  · refine hK.bind (hK.eval ha) fun a _ => ?_
    refine hK.bindLast (hK.eval hb) fun b _ => ?_
    refine hK.andThen hK.freshTemp fun x hx => ?_
    refine hK.andThen (hK.deref b) fun _ _ => ?_
    exact hK.andThen (hK.deref a) fun _ _ => hK.pure hx

theorem binary (hK : K.Sequential) (op : BinaryOp) {lhs rhs : Part} (ha : Obeys K ms lhs.gen)
    (hb : Obeys K ns rhs.gen) : Obeys K (ms ++ ns) (lowerBinary op lhs rhs) := by
  unfold lowerBinary
  split
  · refine hK.bindLast (hK.comparands op ha hb) fun sides hx => ?_
    exact hK.andThen (hK.emitTo .code _ hx) fun _ _ => hK.push _
  · refine hK.bind (hK.eval ha) fun a _ => ?_
    refine hK.bindLast (hK.eval hb) fun b _ => ?_
    refine hK.andThen (hK.deref b) fun _ _ => ?_
    refine hK.andThen (hK.deref a) fun _ _ => ?_
    show Obeys K [] (if _ then _ else _)
    split
    · exact hK.sum _ _
    · exact hK.arithmetic op _ _

theorem conjunction (hK : K.Sequential) {lhs rhs : Part} (ha : Obeys K ms lhs.gen)
    (hb : Obeys K ns rhs.gen) : Obeys K (ms ++ ns) (lowerAnd lhs rhs) := by
  refine hK.bind (hK.evalDeref ha) fun c _ => ?_
  refine hK.andThen (hK.emitTo .code (.openIf _) trivial) fun _ _ => ?_
  exact hK.bindLast (hK.statement hb) fun _ _ => hK.emitTo .code .close trivial

theorem disjunction (hK : K.Sequential) {lhs rhs : Part} (ha : Obeys K ms lhs.gen)
    (hb : Obeys K ns rhs.gen) : Obeys K (ms ++ ns) (lowerOr lhs rhs) := by
  refine hK.andThen hK.freshTemp fun x hx => ?_
  refine hK.bind (hK.evalDeref ha) fun a _ => ?_
  refine hK.andThen (hK.emitLines ?_) fun _ _ => ?_
  · simpa [Line.IsOrdinary] using hx
  refine hK.bindLast (hK.evalDeref hb) fun b _ => ?_
  refine hK.andThen (hK.emitLines ?_) fun _ _ => hK.push _
  simpa [Line.IsOrdinary] using hx

theorem branch (hK : K.Sequential) {cond : Part} {thenBody elseBody : List Part}
    (hc : Obeys K ls cond.gen) (ht : Obeys K ms (Gen.block thenBody))
    (he : Obeys K ns (Gen.block elseBody)) (hempty : elseBody = [] → ns = []) :
    Obeys K (ls ++ ms ++ ns) (lowerBranch cond thenBody elseBody) := by
  have hclose : Obeys K [] (Gen.emit .close) := hK.emitTo .code .close trivial
  rw [List.append_assoc]
  refine hK.bind (hK.evalDeref hc) fun c _ => ?_
  refine hK.andThen (hK.emitTo .code (.openIf _) trivial) fun _ _ => ?_
  refine hK.bind ht fun _ _ => ?_
  -- Without a second branch the block is closed at once.
  cases elseBody with
  | nil =>
    rw [hempty rfl]
    exact hclose
  | cons p rest =>
    refine hK.andThen (hK.emitTo .code .openElse trivial) fun _ _ => ?_
    exact hK.bindLast he fun _ _ => hclose

theorem conditional (hK : K.Sequential) {cond thenValue elseValue : Part}
    (hc : Obeys K ls cond.gen) (ht : Obeys K ms thenValue.gen) (he : Obeys K ns elseValue.gen) :
    Obeys K (ls ++ ms ++ ns) (lowerTernary cond thenValue elseValue) := by
  rw [List.append_assoc]
  refine hK.bind (hK.evalDeref hc) fun c _ => ?_
  refine hK.andThen hK.freshTemp fun x hx => ?_
  refine hK.andThen (hK.emitTo .code (.openIf _) trivial) fun _ _ => ?_
  refine hK.bind (hK.evalDeref ht) fun a _ => ?_
  refine hK.andThen (hK.emitTo .code _ hx) fun _ _ => ?_
  refine hK.andThen (hK.emitTo .code .openElse trivial) fun _ _ => ?_
  refine hK.bindLast (hK.evalDeref he) fun b _ => ?_
  refine hK.andThen (hK.emitTo .code _ hx) fun _ _ => ?_
  exact hK.andThen (hK.emitTo .code .close trivial) fun _ _ => hK.push _

theorem call (hK : K.Sequential) {callee : Part} {args : List Part} (hf : Obeys K ms callee.gen)
    (ha : Obeys K ns (Gen.evalAll args)) : Obeys K (ms ++ ns) (lowerCall callee args) := by
  refine hK.bind (hK.evalDeref hf) fun f _ => ?_
  refine hK.bindLast ha fun values _ => ?_
  refine hK.andThen (hK.derefAll values) fun _ _ => ?_
  refine hK.andThen hK.freshTemp fun x hx => ?_
  exact hK.andThen (hK.emitTo .code _ hx) fun _ _ => hK.push _

theorem ret (hK : K.Sequential) {value : Part} (hv : Obeys K ns value.gen) :
    Obeys K ns (lowerReturn value) := by
  refine hK.bindLast (hK.evalDeref hv) fun v _ => hK.emitLines ?_
  simp [Line.IsOrdinary]

theorem elements (hK : K.Sequential) {env : Env} {nodes : Node → List Node} (handle : Name)
    {es : List Node} (h : ∀ n ∈ es, Obeys K (nodes n) (node env n)) (first : Nat) :
    Obeys K (es.flatMap nodes) (lowerElements handle first (parts env es)) := by
  induction es generalizing first with
  | nil => exact hK.pure trivial
  | cons n es ih =>
    refine hK.bind (hK.evalDeref (h n List.mem_cons_self)) fun v _ => ?_
    refine hK.andThen (hK.emitTo .code (.assign (.element _ _) _) trivial) fun _ _ => ?_
    refine ih ?_ (first + 1)
    intro other hother
    exact h other (List.mem_cons_of_mem _ hother)

theorem array (hK : K.Sequential) {env : Env} {nodes : Node → List Node} {es : List Node}
    (h : ∀ n ∈ es, Obeys K (nodes n) (node env n)) :
    Obeys K (es.flatMap nodes) (lowerArray (parts env es)) := by
  refine hK.andThen hK.freshTemp fun x hx => ?_
  refine hK.andThen (hK.emitTo .code _ hx) fun _ _ => ?_
  refine hK.bindLast (hK.elements x h 0) fun _ _ => ?_
  exact hK.andThen (hK.emitTo .code (.assign (.size _) _) trivial) fun _ _ => hK.push _

theorem index (hK : K.Sequential) {base index : Part} (hb : Obeys K ms base.gen)
    (hi : Obeys K ns index.gen) : Obeys K (ms ++ ns) (lowerIndex base index) := by
  refine hK.bind (hK.eval hb) fun b _ => ?_
  refine hK.bindLast (hK.evalDeref hi) fun i _ => ?_
  exact hK.andThen (hK.deref b) fun _ _ => hK.push _

end Contract.Sequential

/-! ## Constructs that a contract may say nothing about -/

/-- The contract says nothing about the lines of this kind. -/
def Contract.Ignores (K : Contract) (kind : Segment → Line → Bool) : Prop :=
  ∀ s segment line, K.inv s → kind segment line = true → K.done [] s (s.emitTo segment line)

namespace Contract.Sequential

open Gen

variable {K : Contract} {ms ns : List Node}

theorem emitIgnored {kind : Segment → Line → Bool} (h : K.Ignores kind) (segment : Segment)
    {line : Line} (hline : kind segment line = true) : Obeys K [] (Gen.emitTo segment line) :=
  fun s hs => ⟨h s segment line hs hline, trivial⟩

theorem loop (hK : K.Sequential) (hmark : K.Ignores Line.isMark) {cond : Part} {body : List Part}
    (hc : Obeys K ms cond.gen) (hb : Obeys K ns (Gen.block body)) :
    Obeys K (ms ++ ns) (lowerLoop cond body) := by
  refine hK.andThen hK.freshLabel fun l _ => ?_
  refine hK.andThen (emitIgnored hmark .code rfl) fun _ _ => ?_
  refine hK.bind (hK.evalDeref hc) fun c _ => ?_
  refine hK.andThen (hK.emitTo .code (.openIf _) trivial) fun _ _ => ?_
  refine hK.bindLast hb fun _ _ => ?_
  exact hK.andThen (emitIgnored hmark .code rfl) fun _ _ => hK.emitTo .code .close trivial

theorem functionName (hK : K.Sequential) (loc : Nat) (name : Option String) :
    Obeys K [] (Gen.functionName loc name) := by
  cases name with
  | none => exact hK.andThen hK.freshTemp fun x _ => hK.pure trivial
  | some name =>
    refine hK.andThen (hK.checkUserName loc name) fun _ hname => ?_
    exact hK.andThen (hK.declareUser hname .text) fun _ _ => hK.pure trivial

theorem declareParams (hK : K.Sequential) {first : Nat} (h : 2 ≤ first) (params : List String) :
    Obeys K [] (Gen.declareParams first params) := by
  induction params generalizing first with
  | nil => exact hK.pure trivial
  | cons param rest ih =>
    refine hK.andThen (Q := fun _ => True) ?_ fun _ _ => ih (Nat.le_succ_of_le h)
    exact fun s hs => ⟨hK.param param .text hs h, trivial⟩

theorem function (hK : K.Sequential) (hmark : K.Ignores Line.isMark) (loc : Nat)
    (name : Option String) (params : List String) {body : List Part}
    (hb : Obeys K ns (Gen.block body)) : Obeys K ns (lowerFunction loc name params body) := by
  refine hK.andThen (hK.functionName loc name) fun f _ => ?_
  refine hK.andThen (emitIgnored hmark .decl rfl) fun _ _ => ?_
  refine hK.andThen (hK.emitAll ?_) fun _ _ => ?_
  · -- The jump over the body and the label in front of it are marks.
    intro line hline
    rcases List.mem_cons.1 hline with rfl | hline
    · exact emitIgnored hmark .code rfl
    rcases List.mem_cons.1 hline with rfl | hline
    · exact emitIgnored hmark .code rfl
    · obtain rfl := List.mem_singleton.1 hline
      exact hK.emitTo .code .enterFunction trivial
  refine hK.bindLast (hK.inScope ?_) fun _ _ => ?_
  · exact hK.andThen (hK.declareParams (Nat.le_refl 2) params) fun _ _ => hb
  have hlast : Obeys K [] (do
      Gen.emit (.label (.behind f))
      Gen.push (.text [.name f])) :=
    hK.andThen (emitIgnored hmark .code rfl) fun _ _ => hK.push _
  -- A body that does not end with a return gets one.
  split
  · exact hlast
  · exact hK.andThen (hK.emitLines (by simp [Line.IsOrdinary])) fun _ _ => hlast

theorem nameTarget (hK : K.Sequential) (loc : Nat) (name : String) (ty : ValueType) :
    Obeys K [] (Gen.nameTarget loc name ty) := by
  refine hK.andThen (hK.lookup name) fun found _ => ?_
  cases found with
  | none =>
    refine hK.andThen (hK.checkUserName loc name) fun _ hname => ?_
    exact hK.andThen (hK.declareUser hname ty) fun _ _ => hK.pure trivial
  | some v =>
    dsimp only
    split
    · exact hK.pure trivial
    · exact hK.fail _ _

/-- A target that is a name is not generated, but looked up. -/
theorem assign (hK : K.Sequential) (hstore : K.Ignores Line.isStore) {setup : Setup} {depth : Nat}
    {base : String} {target value : Node}
    (ht : Obeys K (setup.nodes depth base target) (node (setup.env depth base) target))
    (hv : Obeys K (setup.nodes depth base value) (node (setup.env depth base) value)) :
    Obeys K (setup.nodes depth base target ++ setup.nodes depth base value)
      (lowerAssign ⟨target, node (setup.env depth base) target⟩
        ⟨value, node (setup.env depth base) value⟩) := by
  have hstored : ∀ (v : Operand) (place : Target), Obeys K [] (do
      Gen.emit (assignLine place v)
      Gen.push v) := by
    intro v place
    have hline : (assignLine place v).isStore .code = true := by
      unfold assignLine
      split <;> rfl
    exact hK.andThen (emitIgnored hstore .code hline) fun _ _ => hK.push v
  -- The value comes first, whatever the target is.
  refine hK.permute (hK.bind (hK.evalDeref hv) fun v _ => ?_) List.perm_append_comm
  dsimp only
  split
  next l x =>
    rw [setup.nodes_identifier]
    refine hK.bindLast (Q := fun _ => True) ?_ fun place _ => hstored v place
    exact regrade (hK.nameTarget l x v.valueType) fun s t => hK.cons rfl
  next =>
    refine hK.bindLast (hK.eval ht) fun o _ => ?_
    exact hK.andThen (Q := fun _ => True) (hK.pure trivial) fun place _ => hstored v place
  next => exact hK.bindLast (Q := fun _ => True) (hK.fail _ _) fun place _ => hstored v place

theorem stepTarget (hK : K.Sequential) (n : Node) (o : Operand) :
    Obeys K [] (Gen.stepTarget n o) := by
  unfold Gen.stepTarget
  split
  · exact hK.pure trivial
  · split
    · exact hK.pure trivial
    · exact hK.fail _ _
    · exact hK.fail _ _
  · exact hK.fail _ _

theorem step (hK : K.Sequential) (hstore : K.Ignores Line.isStore) (op : StepOp) {target : Part}
    (ht : Obeys K ns target.gen) : Obeys K ns (lowerStep op target) := by
  refine hK.bindLast (hK.eval ht) fun o _ => ?_
  refine hK.andThen (hK.stepTarget target.node o) fun place _ => ?_
  refine hK.andThen (hK.deref o) fun current _ => ?_
  refine hK.andThen hK.freshTemp fun x hx => ?_
  refine hK.andThen (hK.emitTo .code _ hx) fun _ _ => ?_
  exact hK.andThen (emitIgnored hstore .code rfl) fun _ _ => hK.push _

end Contract.Sequential

/-! ## Units in units -/

theorem Setup.registry_env (setup : Setup) (depth : Nat) (base : String) :
    (setup.env depth base).registry = setup.registry := by
  cases depth <;> rfl

/-- Generation that succeeds has not changed what its steps did. -/
theorem generate_eq_ok {env : Env} {source : String} {n : Node} {s t : State}
    (h : generate env source n s = .ok () t) :
    Gen.statement (Gen.node env n) s = .ok () t := by
  unfold generate at h
  split at h
  next heq =>
    cases h
    exact heq
  next => cases h

/-- The script for a source text is that of the state which its program has come to. -/
theorem compileSource_eq_ok {files : String → Except IoError String} {options : Options}
    {source script : String} (h : compileSource files options source = .ok script) :
    ∃ program t, readUnit options.folding source = .ok program ∧
      generate (options.env .standard files) source program {} = .ok () t ∧ script = t.script := by
  unfold compileSource at h
  cases hread : readUnit options.folding source with
  | error e =>
    rw [hread] at h
    cases h
  | ok program =>
    rw [hread] at h
    cases hgenerate : generate (options.env .standard files) source program {} with
    | error e t => simp [hgenerate, bind, Except.bind, throw, throwThe, MonadExceptOf.throw] at h
    | ok _ t =>
      simp only [hgenerate, bind, Except.bind, pure, Except.pure] at h
      cases h
      exact ⟨program, t, rfl, hgenerate, rfl⟩

theorem exists_script {files : String → Except IoError String} {options : Options}
    {source : String} (h : (compileSource files options source).toOption.isSome = true) :
    ∃ script, compileSource files options source = .ok script := by
  cases hcompile : compileSource files options source with
  | error e => simp [hcompile, Except.toOption] at h
  | ok script => exact ⟨script, rfl⟩

/-- What a source text contributes is what its program has come to. -/
theorem Setup.contribution_eq_ok {setup : Setup} {env : Env} {source : String} {shared : Shared}
    {unit : Contribution} (h : setup.contribution env source shared = .ok unit) :
    ∃ program t, readUnit setup.folding source = .ok program ∧
      Gen.statement (Gen.node env program) { shared } = .ok () t ∧
      unit = ⟨t.segments.decl, t.segments.code, t.scopes.root, t.shared⟩ := by
  unfold Setup.contribution at h
  cases hread : readUnit setup.folding source with
  | error e =>
    rw [hread] at h
    cases h
  | ok program =>
    rw [hread] at h
    cases hgen : Gen.statement (Gen.node env program) { shared } with
    | error fault t =>
      simp [generate, hgen, bind, Except.bind, throw, throwThe, MonadExceptOf.throw] at h
    | ok _ t =>
      simp only [generate, hgen, bind, Except.bind, pure, Except.pure] at h
      cases h
      exact ⟨program, t, rfl, hgen, rfl⟩

/-- What the unit at a path contributes is what its program has come to. -/
theorem Setup.includeUnit_eq_ok {setup : Setup} {env : Env} {path : String} {shared : Shared}
    {unit : Contribution} (h : setup.includeUnit env path shared = .ok unit) :
    ∃ source program t, setup.files path = .ok source ∧
      readUnit setup.folding source = .ok program ∧
      Gen.statement (Gen.node env program) { shared } = .ok () t ∧
      unit = ⟨t.segments.decl, t.segments.code, t.scopes.root, t.shared⟩ := by
  unfold Setup.includeUnit at h
  split at h
  next => cases h
  next source hsource =>
    cases hcontribution : setup.contribution env source shared with
    | error e =>
      rw [hcontribution] at h
      cases h
    | ok unit' =>
      rw [hcontribution] at h
      cases h
      obtain ⟨program, t, hread, hgen, hunit⟩ := Setup.contribution_eq_ok hcontribution
      exact ⟨source, program, t, hsource, hread, hgen, hunit⟩

/-- A unit that is read and fails has come to a state in which its program fails. -/
theorem Setup.includeUnit_eq_error {setup : Setup} {env : Env} {path source : String}
    {shared : Shared} {program : Node} {e : CompileError}
    (h : setup.includeUnit env path shared = .error e) (hsource : setup.files path = .ok source)
    (hread : readUnit setup.folding source = .ok program) :
    ∃ fault t, Gen.statement (Gen.node env program) { shared } = .error fault t := by
  cases hgen : Gen.statement (Gen.node env program) { shared } with
  | error fault t => exact ⟨fault, t, rfl⟩
  | ok _ t =>
    have hcontribution : setup.contribution env source shared =
        .ok ⟨t.segments.decl, t.segments.code, t.scopes.root, t.shared⟩ := by
      simp [Setup.contribution, hread, generate, hgen, bind, Except.bind, pure, Except.pure]
    unfold Setup.includeUnit at h
    rw [hsource] at h
    dsimp only at h
    rw [hcontribution] at h
    cases h

/-! ## Whole compilations -/

open Gen in
/-- The contract holds of every construct but names in the units of a compilation. -/
structure Contract.Constructs (K : Contract) (setup : Setup) : Prop extends K.Sequential where
  loop {ms ns : List Node} {cond : Part} {body : List Part} :
    Obeys K ms cond.gen → Obeys K ns (block body) → Obeys K (ms ++ ns) (lowerLoop cond body)
  function (loc : Nat) (name : Option String) (params : List String) (body : List Node)
      {ns : List Node} {ps : List Part} :
    Obeys K ns (block ps) →
      Obeys K (.function loc name params body :: ns) (lowerFunction loc name params ps)
  assign (depth : Nat) (base : String) (loc : Nat) (target value : Node) :
    Obeys K (setup.nodes depth base target) (node (setup.env depth base) target) →
    Obeys K (setup.nodes depth base value) (node (setup.env depth base) value) →
      Obeys K (.assign loc target value ::
          (setup.nodes depth base target ++ setup.nodes depth base value))
        (lowerAssign ⟨target, node (setup.env depth base) target⟩
          ⟨value, node (setup.env depth base) value⟩)
  step (depth : Nat) (base : String) (loc : Nat) (op : StepOp) (leading : Bool) (target : Node) :
    Obeys K (setup.nodes depth base target) (node (setup.env depth base) target) →
      Obeys K (.step loc op leading target :: setup.nodes depth base target)
        (lowerStep op ⟨target, node (setup.env depth base) target⟩)
  inv_start {s : State} : K.inv s → K.inv { shared := s.shared }
  adopt {ns : List Node} {s t : State} :
    K.inv s → K.done ns { shared := s.shared } t → K.done ns s (s.adopt t)
  adopt_failed {s t : State} : K.inv s → K.failed { shared := s.shared } t → K.failed s s

/-- The contract holds of every construct in the units of a compilation with the builtins of the
language. -/
structure Contract.Lawful (K : Contract) (setup : Setup) : Prop extends K.Constructs setup where
  standard : setup.registry = .standard
  bound {s : State} {name : String} {v : Variable} :
    K.inv s → s.shared.emitted.get? name = some v → K.done [] s (s.declare name v)
  process {s : State} : K.inv s → s.shared.emitted.get? "process" = none → K.done [] s s.withProcess

namespace Contract.Constructs

open Gen

variable {K : Contract} {setup : Setup} {ns : List Node}

/-- A node that is not special counts for nothing by itself. -/
theorem construct (hK : K.Constructs setup) {n : Node} (hn : n.isSpecial = false) {m : Gen Unit}
    (h : Obeys K ns m) : Obeys K (n :: ns) m :=
  Contract.Sequential.regrade h fun _ _ => hK.cons hn

/-- Within one unit, a contract that holds of its includes holds of all its nodes. -/
theorem unit (hK : K.Constructs setup)
    (hresolve : ∀ loc name, Obeys K [] (Gen.resolve setup.registry loc name)) (depth : Nat)
    (base : String) {included : String → List Node}
    (hnodes : setup.nodes depth base = Node.spliced included)
    (hinclude : ∀ loc args, Obeys K (Node.ofArguments included args)
      (lowerInclude (setup.env depth base) loc args)) (n : Node) :
    Obeys K (Node.spliced included n) (node (setup.env depth base) n) := by
  have hseq := hK.toSequential
  induction n using Node.induction with
  | program l body ih =>
    refine hK.construct rfl (hseq.program ?_)
    rw [Node.splicedAll_eq_flatMap]
    exact hseq.block ih
  | integer l v => exact hK.construct rfl (hseq.push _)
  | string l v => exact hK.construct rfl (hseq.push _)
  | identifier l x =>
    have hname : Obeys K [] (Gen.resolve (setup.env depth base).registry l x) := by
      rw [setup.registry_env]
      exact hresolve l x
    exact hK.construct rfl (hseq.andThen hname fun v _ => hseq.push _)
  | binary l op a b iha ihb => exact hK.construct rfl (hseq.binary op iha ihb)
  | and l a b iha ihb => exact hK.construct rfl (hseq.conjunction iha ihb)
  | or l a b iha ihb => exact hK.construct rfl (hseq.disjunction iha ihb)
  | assign l t v iht ihv =>
    -- A contract speaks of assignments and steps in the terms of the setup.
    rw [← hnodes] at iht ihv
    have h := hK.assign depth base l t v iht ihv
    rwa [hnodes] at h
  | branch l c t e ihc iht ihe =>
    refine hK.construct rfl ?_
    rw [Node.splicedAll_eq_flatMap, Node.splicedAll_eq_flatMap]
    refine hseq.branch ihc (hseq.block iht) (hseq.block ihe) ?_
    intro he
    cases e with
    | nil => rfl
    | cons n ns => cases he
  | ternary l c t e ihc iht ihe => exact hK.construct rfl (hseq.conditional ihc iht ihe)
  | loop l c body ihc ih =>
    refine hK.construct rfl (hK.loop ihc ?_)
    rw [Node.splicedAll_eq_flatMap]
    exact hseq.block ih
  | function l x ps body ih =>
    refine hK.function l x ps body ?_
    rw [Node.splicedAll_eq_flatMap]
    exact hseq.block ih
  | call l f args ihf ih =>
    refine hK.construct rfl ?_
    show Obeys K (if isInclude f then _ else _) (if isInclude f then _ else _)
    split
    · exact hinclude l args
    · rw [Node.splicedAll_eq_flatMap]
      exact hseq.call ihf (hseq.evalAll ih)
  | ret l v ihv => exact hK.construct rfl (hseq.ret ihv)
  | step l op leading t iht =>
    rw [← hnodes] at iht
    have h := hK.step depth base l op leading t iht
    rwa [hnodes] at h
  | array l es ih =>
    refine hK.construct rfl ?_
    rw [Node.splicedAll_eq_flatMap]
    exact hseq.array ih
  | index l b i ihb ihi => exact hK.construct rfl (hseq.index ihb ihi)

/-- A unit that is included keeps to the contract if its program does. -/
theorem includeUnit (hK : K.Constructs setup) {env : Env} {nodes : Node → List Node}
    (hnode : ∀ n, Obeys K (nodes n) (node env n)) {s : State} (hs : K.inv s) (path : String) :
    match setup.includeUnit env path s.shared with
    | .ok unit => ∃ t, K.done (setup.unitNodes nodes path) s (s.adopt t) ∧
        unit = ⟨t.segments.decl, t.segments.code, t.scopes.root, t.shared⟩
    | .error _ => K.failed s s := by
  have hstart := hK.inv_start hs
  cases hunit : setup.includeUnit env path s.shared with
  | ok unit =>
    obtain ⟨source, program, t, hsource, hread, hgen, rfl⟩ := Setup.includeUnit_eq_ok hunit
    have hdone := ((hK.toSequential.statement (hnode program)).of_ok hstart hgen).1
    refine ⟨t, ?_, rfl⟩
    simpa [Setup.unitNodes, hsource, hread] using hK.adopt hs hdone
  | error e =>
    -- If the file is missing or spells no program, nothing has been generated.
    cases hsource : setup.files path with
    | error io => exact hK.failed_refl hs
    | ok source =>
      cases hread : readUnit setup.folding source with
      | error e' => exact hK.failed_refl hs
      | ok program =>
        obtain ⟨fault, t, hgen⟩ := Setup.includeUnit_eq_error hunit hsource hread
        have hfailed := (hK.toSequential.statement (hnode program)).of_error hstart hgen
        exact hK.adopt_failed hs hfailed

/-- A contract that holds of names and of every other construct holds of every node in every unit. -/
theorem node (hK : K.Constructs setup)
    (hresolve : ∀ loc name, Obeys K [] (Gen.resolve setup.registry loc name)) (depth : Nat)
    (base : String) (n : Node) :
    Obeys K (setup.nodes depth base n) (Gen.node (setup.env depth base) n) := by
  have hseq := hK.toSequential
  -- The arguments of an include are wrong, or else the level below decides.
  have hwrong : ∀ (env : Env) (included : String → List Node) (loc : Nat) (args : List Node),
      (∀ l path, args ≠ [.string l path]) →
        Obeys K (Node.ofArguments included args) (lowerInclude env loc args) := by
    intro env included loc args hargs s hs
    obtain ⟨l, problem, herror⟩ := lowerInclude_wrong env loc hargs
    rw [herror]
    exact hseq.failed_refl hs
  induction depth generalizing base n with
  | zero =>
    refine hK.unit hresolve 0 base rfl ?_ n
    intro loc args
    by_cases hargs : ∃ l path, args = [.string l path]
    · obtain ⟨l, path, rfl⟩ := hargs
      exact hseq.fail _ _
    · exact hwrong _ _ loc args fun l path h => hargs ⟨l, path, h⟩
  | succ depth ih =>
    refine hK.unit hresolve (depth + 1) base rfl ?_ n
    intro loc args
    by_cases hargs : ∃ l path, args = [.string l path]
    · obtain ⟨l, path, rfl⟩ := hargs
      intro s hs
      -- The unit that is included is one level below.
      have hunit := hK.includeUnit (ih (Path.directory base (Path.join base path))) hs
        (Path.join base path)
      rw [lowerInclude_path]
      dsimp only [Setup.env]
      cases hincluded : setup.includeUnit
          (setup.env depth (Path.directory base (Path.join base path))) (Path.join base path)
          s.shared with
      | error e =>
        rw [hincluded] at hunit
        exact hunit
      | ok unit =>
        rw [hincluded] at hunit
        obtain ⟨t, hdone, rfl⟩ := hunit
        have hpush := hseq.stack ((.text [.chars "include"] : Operand) :: s.stack)
          (hseq.inv_of_done hs hdone)
        have hboth := hseq.trans hs hdone hpush
        rw [List.append_nil] at hboth
        exact ⟨hboth, trivial⟩
    · exact hwrong _ _ loc args fun l path h => hargs ⟨l, path, h⟩

end Contract.Constructs

namespace Contract.Lawful

variable {K : Contract} {setup : Setup}

theorem resolve (hK : K.Lawful setup) (loc : Nat) (name : String) :
    Obeys K [] (Gen.resolve setup.registry loc name) := by
  rw [hK.standard]
  intro s hs
  rcases Gen.resolve_cases loc name s with ⟨v, -, h⟩ | ⟨v, -, hv, h⟩ | ⟨rfl, -, hnew, h⟩ | h
  · rw [h]
    exact ⟨hK.refl hs, trivial⟩
  · rw [h]
    exact ⟨hK.bound hs hv, trivial⟩
  · rw [h]
    have hsetup := hK.process hs hnew
    have hbound := hK.bound (hK.inv_of_done hs hsetup) (State.withProcess_emitted s)
    exact ⟨hK.trans hs hsetup hbound, trivial⟩
  · rw [h]
    exact hK.failed_refl hs

/-- A contract that holds of every construct holds of every node in every unit. -/
theorem node (hK : K.Lawful setup) (depth : Nat) (base : String) (n : Node) :
    Obeys K (setup.nodes depth base n) (Gen.node (setup.env depth base) n) :=
  hK.toConstructs.node hK.resolve depth base n

end Contract.Lawful

end BatchCompiler
