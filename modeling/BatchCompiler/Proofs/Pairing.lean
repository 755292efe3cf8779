/-
# BatchCompiler.Proofs.Pairing -- two runs of generation side by side

Many properties of the compiler compare two runs: of one program under two settings, or of two
programs under one. A `Pairing` says what corresponds in the two runs: names, places, states and
faults. If it is handed on by the primitive steps (`Pairing.Lawful`), then it is handed on by the
lowering of every construct whose parts correspond, and both runs succeed or both fail.

A pairing may excuse faults: where the first run ends in one of these, the second may do as it likes.
It may ask for the same lines on both sides, or leave lines and operands to differ as long as the
decisions of the generator agree. These hang on three things only: whether an operand is a number,
whether it has yet to be read, and, for `++` and `--`, whether it can be written.
-/

import Mathlib.Data.List.Forall2
import BatchCompiler.Proofs.Stack

namespace BatchCompiler

/-! ## What corresponds -/

/-- The name that the node is, if it is one. -/
def Node.name? : Node → Option String
  | .identifier _ x => some x
  | _ => none

/-- An assignable node is a name or an element. -/
theorem Node.isAssignable_cases {n : Node} (h : n.isAssignable = true) :
    (∃ l x, n = .identifier l x) ∨ ∃ l b i, n = .index l b i := by
  cases n with
  | identifier l x => exact .inl ⟨l, x, rfl⟩
  | index l b i => exact .inr ⟨l, b, i, rfl⟩
  | _ => cases h

/-- An assignment, with this step for what a name is as a target. -/
def Gen.assignVia (targets : Nat → String → ValueType → Gen Target) (target value : Part) :
    Gen Unit := do
  let v ← evalDeref value
  let place ← match target.node with
    | .identifier loc name => targets loc name v.valueType
    | .index .. => pure (.location (← eval target).splice)
    | n => fail n.loc (.notAssignable (.construct n.construct))
  emit (assignLine place v)
  push v

/-- An assignment to anything else is refused once its value has been evaluated. -/
theorem Gen.assignVia_of_not_assignable (targets : Nat → String → ValueType → Gen Target)
    {target : Part} (h : target.node.isAssignable = false) (value : Part) :
    assignVia targets target value = evalDeref value >>= fun _ =>
      fail target.node.loc (.notAssignable (.construct target.node.construct)) := by
  obtain ⟨node, gen⟩ := target
  funext s
  unfold assignVia
  rw [bind_apply, bind_apply]
  cases evalDeref value s with
  | error e t => rfl
  | ok v t =>
    cases node with
    | identifier l x => cases h
    | index l b i => cases h
    | _ => rfl

/-- Names a function and declares its handle. -/
def Gen.declareFunction (loc : Nat) (name : Option String) : Gen Name := do
  let f ← functionName loc name
  emitTo .decl (.handle f)
  return f

theorem Gen.declareFunction_some (loc : Nat) (x : String) :
    declareFunction loc (some x) = (do
      checkUserName loc x
      declare x (.named (.user x) .text)
      emitTo .decl (.handle (.user x))
      return .user x) := by
  simp [declareFunction, functionName]

/-- Writes the routine of the function of this name, and leaves the name. -/
def Gen.functionRoutine (params : List String) (body : List Part) (f : Name) : Gen Unit := do
  emitAll [.goto (.behind f), .label (.entry f), .enterFunction]
  inScope do
    declareParams 2 params
    block body
  unless body.getLast?.any (·.node.isReturn) do emitAll [.returnZero, .leaveFunction]
  emit (.label (.behind f))
  push (.text [.name f])

theorem Gen.lowerFunction_eq (loc : Nat) (name : Option String) (params : List String)
    (body : List Part) :
    lowerFunction loc name params body =
      declareFunction loc name >>= functionRoutine params body := by
  simp [lowerFunction, declareFunction, functionRoutine]

/-- A step of an argument of a routine is refused. -/
theorem Gen.stepTarget_of_argument {v : Variable} (h : v.target? = none) (n : Node) :
    stepTarget n (.var v) = fail n.loc
      (.notAssignable (n.name?.elim (.construct n.construct) .parameter)) := by
  unfold stepTarget
  dsimp only
  rw [h]
  cases n <;> rfl

theorem Operand.isReference_iff {o : Operand} :
    o.isReference = true ↔ ∃ place, o = .reference place := by
  cases o <;> simp [Operand.isReference]

/-- What corresponds in two runs of generation. -/
structure Pairing where
  /-- Both runs write the same lines. -/
  sameLines : Prop
  place : Nat → Nat → Prop
  construct : Construct → Construct → Prop
  name : Name → Name → Prop
  /-- States, whatever operands are on their stacks. -/
  state : State → State → Prop
  fault : Fault → Fault → Prop
  /-- The first run may fail so, whatever the second one does. -/
  excused : Fault → Prop

namespace Pairing

inductive Storages (K : Pairing) : Storage → Storage → Prop where
  | named {x x' : Name} : K.name x x' → Storages K (.named x) (.named x')
  | slot (index : Nat) : Storages K (.slot index) (.slot index)

structure Variables (K : Pairing) (v v' : Variable) : Prop where
  storage : K.Storages v.storage v'.storage
  ty : v.ty = v'.ty

/-- Operands of one form, which are read and written alike. -/
inductive SameForm (K : Pairing) : Operand → Operand → Prop where
  | integer (value : Int) : SameForm K (.integer value) (.integer value)
  | text {t t' : Text} : (K.sameLines → t = t') → SameForm K (.text t) (.text t')
  | reference {t t' : Text} : (K.sameLines → t = t') → SameForm K (.reference t) (.reference t')
  | var {v v' : Variable} : K.Variables v v' → SameForm K (.var v) (.var v')

/-- Operands on which all decisions agree, except, if `loose`, whether they can be written. -/
structure Operands (K : Pairing) (loose : Bool) (o o' : Operand) : Prop where
  valueType : o.valueType = o'.valueType
  isReference : o.isReference = o'.isReference
  eq : K.sameLines → o = o'
  form : loose = false → K.SameForm o o'

/-- Targets that are the same if the lines are. -/
def Targets (K : Pairing) (place place' : Target) : Prop := K.sameLines → place = place'

/-- Nodes that the lowering of a construct around them cannot tell apart. -/
structure Heads (K : Pairing) (n n' : Node) : Prop where
  place : K.place n.loc n'.loc
  construct : K.construct n.construct n'.construct
  isReturn : n.isReturn = n'.isReturn
  isAssignable : n.isAssignable = n'.isAssignable
  name? : n.name? = n'.name?

/-- The steps that the generator is made of hand the correspondence on. -/
structure Lawful (K : Pairing) : Prop where
  name_eq {x x' : Name} : K.sameLines → K.name x x' → x = x'
  user (x : String) : K.name (.user x) (.user x)
  construct (c : Construct) : K.construct c c
  here {l l' : Nat} (cause : Cause) : K.place l l' → K.fault (.here l cause) (.here l' cause)
  notAssignable {l l' : Nat} {c c' : Construct} : K.place l l' → K.construct c c' →
    K.fault (.here l (.notAssignable (.construct c))) (.here l' (.notAssignable (.construct c')))
  noValue {l l' : Nat} {c c' : Construct} : K.place l l' → K.construct c c' →
    K.fault (.here l (.noValue c)) (.here l' (.noValue c'))
  state_stack {s s' : State} (stack stack' : List Operand) :
    K.state s s' → K.state { s with stack } { s' with stack := stack' }
  state_lookup {s s' : State} (x : String) :
    K.state s s' → Option.Rel K.Variables (s.scopes.lookup x) (s'.scopes.lookup x)
  state_emit {s s' : State} {segment : Segment} {line line' : Line} : segment ≠ .decl →
    (K.sameLines → line = line') → K.state s s' →
      K.state (s.emitTo segment line) (s'.emitTo segment line')
  state_handleUser {s s' : State} {x : String} : isReservedName x = false → K.state s s' →
    K.state (s.emitTo .decl (.handle (.user x))) (s'.emitTo .decl (.handle (.user x)))
  state_handleTemp {s s' : State} : K.state s s' →
    K.state (s.freshTemp.2.emitTo .decl (.handle s.freshTemp.1))
      (s'.freshTemp.2.emitTo .decl (.handle s'.freshTemp.1))
  state_freshTemp {s s' : State} : K.state s s' →
    K.name s.freshTemp.1 s'.freshTemp.1 ∧ K.state s.freshTemp.2 s'.freshTemp.2
  state_freshLabel {s s' : State} : K.state s s' →
    (K.sameLines → s.freshLabel.1 = s'.freshLabel.1) ∧ K.state s.freshLabel.2 s'.freshLabel.2
  state_declareUser {s s' : State} {x : String} (ty : ValueType) : isReservedName x = false →
    K.state s s' →
      K.state (s.declare x (.named (.user x) ty)) (s'.declare x (.named (.user x) ty))
  state_declareSlot {s s' : State} {index : Nat} (x : String) : 2 ≤ index → K.state s s' →
    K.state (s.declare x (.slot index .text)) (s'.declare x (.slot index .text))
  state_enter {s s' : State} : K.state s s' →
    K.state { s with scopes := s.scopes.enter } { s' with scopes := s'.scopes.enter }
  state_leave {s s' : State} : K.state s s' →
    K.state { s with scopes := s.scopes.leave } { s' with scopes := s'.scopes.leave }

/-! ## Runs -/

variable {α β : Type}

/-- Results that correspond: both are successes, or both are failures, or the first is excused. -/
inductive Ends (K : Pairing) (Q : α → State → α → State → Prop) :
    EStateM.Result Fault State α → EStateM.Result Fault State α → Prop where
  | ok {a a' : α} {t t' : State} : K.state t t' → Q a t a' t' → Ends K Q (.ok a t) (.ok a' t')
  | error {e e' : Fault} {t t' : State} : K.fault e e' → Ends K Q (.error e t) (.error e' t')
  | excused {e : Fault} {t : State} {r' : EStateM.Result Fault State α} : K.excused e →
    Ends K Q (.error e t) r'

/-- The values are related, and related operands lie on top of those from before. -/
def Pushed (L : Operand → Operand → Prop) (Q : α → α → Prop) (s s' : State) (a : α) (t : State)
    (a' : α) (t' : State) : Prop :=
  Q a a' ∧ ∃ new new', List.Forall₂ L new new' ∧ t.stack = new ++ s.stack ∧
    t'.stack = new' ++ s'.stack

/-- Two steps that go from corresponding states to corresponding results, with values that `Q`
relates, and push operands that `L` relates. -/
def Runs (K : Pairing) (L : Operand → Operand → Prop) (Q : α → α → Prop) (m m' : Gen α) : Prop :=
  ∀ s s', K.state s s' → K.Ends (Pushed L Q s s') (m s) (m' s')

/-- Two steps that correspond and leave the operands that they find. -/
abbrev Pairs (K : Pairing) (Q : α → α → Prop) (m m' : Gen α) : Prop :=
  K.Runs (fun _ _ => False) Q m m'

/-- Two steps that correspond and have no value. -/
abbrev Does (K : Pairing) (m m' : Gen Unit) : Prop := K.Pairs (fun _ _ => True) m m'

/-- Two steps that correspond and push corresponding operands. -/
abbrev Yields (K : Pairing) (loose : Bool) (m m' : Gen Unit) : Prop :=
  K.Runs (K.Operands loose) (fun _ _ => True) m m'

/-- Parts that correspond. -/
structure Parts (K : Pairing) (loose : Bool) (p p' : Part) : Prop where
  heads : K.Heads p.node p'.node
  gen : K.Yields loose p.gen p'.gen

/-- Parts that correspond one by one. -/
abbrev AllParts (K : Pairing) (ps ps' : List Part) : Prop :=
  List.Forall₂ (fun p p' => ∃ loose, K.Parts loose p p') ps ps'

variable {K : Pairing} {L : Operand → Operand → Prop} {Q : α → α → Prop} {R : β → β → Prop}
  {loose : Bool}

namespace Runs

/-! ## Sequences -/

/-- A sequence corresponds to a sequence whose steps correspond. -/
theorem bind {m m' : Gen α} {f f' : α → Gen β} (hm : K.Pairs Q m m')
    (hf : ∀ a a', Q a a' → K.Runs L R (f a) (f' a')) : K.Runs L R (m >>= f) (m' >>= f') := by
  intro s s' hs
  rw [Gen.bind_apply, Gen.bind_apply]
  have hends := hm s s' hs
  generalize m s = r at hends
  generalize m' s' = r' at hends
  cases hends with
  | error hfault => exact .error hfault
  | excused hexcused => exact .excused hexcused
  | ok ht hq =>
    obtain ⟨hvalue, new, new', hnew, hstack, hstack'⟩ := hq
    cases hnew with
    | cons hfalse _ => exact hfalse.elim
    | nil =>
      have hrest := hf _ _ hvalue _ _ ht
      unfold Pushed at hrest
      rw [hstack, hstack'] at hrest
      exact hrest

theorem andThen {m m' : Gen Unit} {f f' : Gen β} (hm : K.Does m m') (hf : K.Runs L R f f') :
    K.Runs L R (m >>= fun _ => f) (m' >>= fun _ => f') :=
  bind hm fun _ _ _ => hf

/-- Steps that succeed and leave the operands that they find. -/
theorem of_ok {m m' : Gen α} {value value' : State → α} {next next' : State → State}
    (hm : ∀ s, m s = .ok (value s) (next s)) (hm' : ∀ s, m' s = .ok (value' s) (next' s))
    (hstack : ∀ s, (next s).stack = s.stack) (hstack' : ∀ s, (next' s).stack = s.stack)
    (h : ∀ s s', K.state s s' → Q (value s) (value' s') ∧ K.state (next s) (next' s')) :
    K.Runs L Q m m' := by
  intro s s' hs
  rw [hm, hm']
  exact .ok (h s s' hs).2 ⟨(h s s' hs).1, [], [], .nil, hstack s, hstack' s'⟩

theorem fail {m m' : Gen α} {e e' : Fault} (hm : ∀ s, m s = .error e s)
    (hm' : ∀ s, m' s = .error e' s) (h : K.fault e e') : K.Runs L Q m m' := by
  intro s s' hs
  rw [hm, hm']
  exact .error h

theorem pure {a a' : α} (h : Q a a') : K.Pairs Q (Pure.pure a) (Pure.pure a') :=
  of_ok (fun _ => rfl) (fun _ => rfl) (fun _ => rfl) (fun _ => rfl) fun _ _ hs => ⟨h, hs⟩

/-- What two steps push may be said to correspond less closely. -/
theorem weaken {L' : Operand → Operand → Prop} {Q' : α → α → Prop} {m m' : Gen α}
    (h : K.Runs L Q m m') (hL : ∀ o o', L o o' → L' o o') (hQ : ∀ a a', Q a a' → Q' a a') :
    K.Runs L' Q' m m' := by
  intro s s' hs
  have hends := h s s' hs
  generalize m s = r at hends
  generalize m' s' = r' at hends
  cases hends with
  | error hfault => exact .error hfault
  | excused hexcused => exact .excused hexcused
  | ok ht hq =>
    obtain ⟨hvalue, new, new', hnew, hstacks⟩ := hq
    exact .ok ht ⟨hQ _ _ hvalue, new, new', hnew.imp fun _ _ => hL _ _, hstacks⟩

/-- Steps that push nothing push corresponding operands. -/
theorem silent {m m' : Gen Unit} (h : K.Does m m') : K.Yields loose m m' :=
  weaken h (fun _ _ => False.elim) fun _ _ => id

end Runs

theorem Operands.isInteger {o o' : Operand} (h : K.Operands loose o o') :
    o.isInteger = o'.isInteger := by
  unfold Operand.isInteger
  rw [h.valueType]

namespace Lawful

/-! ## Variables and operands -/

theorem variables_eq (hK : K.Lawful) (hlines : K.sameLines) {v v' : Variable}
    (h : K.Variables v v') : v = v' := by
  obtain ⟨storage, ty⟩ := v
  obtain ⟨storage', ty'⟩ := v'
  obtain ⟨hstorage, hty⟩ := h
  dsimp only at hstorage hty
  subst hty
  cases hstorage with
  | named hname => rw [hK.name_eq hlines hname]
  | slot index => rfl

/-- Operands of one form correspond. -/
theorem operands (hK : K.Lawful) {o o' : Operand} (h : K.SameForm o o') : K.Operands loose o o' where
  valueType := by
    cases h with
    | integer value => rfl
    | text ht => rfl
    | reference ht => rfl
    | var hv => exact hv.ty
  isReference := by cases h <;> rfl
  eq := by
    intro hlines
    cases h with
    | integer value => rfl
    | text ht => rw [ht hlines]
    | reference ht => rw [ht hlines]
    | var hv => rw [hK.variables_eq hlines hv]
  form _ := h

theorem temp (hK : K.Lawful) {x x' : Name} (h : K.name x x') (ty : ValueType) :
    K.Operands loose (.var (.named x ty)) (.var (.named x' ty)) :=
  hK.operands (.var ⟨.named h, rfl⟩)

/-! ## Primitive steps -/

/-- Steps that give up at corresponding places for the same reason. -/
theorem failAt (hK : K.Lawful) {l l' : Nat} (cause : Cause) (h : K.place l l') :
    K.Runs L Q (Gen.fail l cause) (Gen.fail l' cause) :=
  .fail (fun _ => rfl) (fun _ => rfl) (hK.here cause h)

/-- Nodes that correspond are refused alike as what is written to. -/
theorem refuse (hK : K.Lawful) {n n' : Node} (h : K.Heads n n') :
    K.Runs L Q (Gen.fail n.loc (.notAssignable (.construct n.construct)))
      (Gen.fail n'.loc (.notAssignable (.construct n'.construct))) :=
  .fail (fun _ => rfl) (fun _ => rfl) (hK.notAssignable h.place h.construct)

theorem push (hK : K.Lawful) {o o' : Operand} (h : K.Operands loose o o') :
    K.Yields loose (Gen.push o) (Gen.push o') := by
  intro s s' hs
  rw [Gen.push_apply, Gen.push_apply]
  exact .ok (hK.state_stack _ _ hs) ⟨trivial, [o], [o'], .cons h .nil, rfl, rfl⟩

theorem pushVar (hK : K.Lawful) {x x' : Name} (h : K.name x x') {ty ty' : ValueType}
    (hty : ty = ty') : K.Yields loose (Gen.pushVar x ty) (Gen.pushVar x' ty') := by
  subst hty
  exact hK.push (hK.temp h ty)

theorem emitTo (hK : K.Lawful) (segment : Segment) (hsegment : segment ≠ .decl) {line line' : Line}
    (h : K.sameLines → line = line') : K.Does (Gen.emitTo segment line) (Gen.emitTo segment line') :=
  .of_ok (Gen.emitTo_apply _ _) (Gen.emitTo_apply _ _) (fun _ => rfl) (fun _ => rfl)
    fun _ _ hs => ⟨trivial, hK.state_emit hsegment h hs⟩

theorem emit (hK : K.Lawful) {line line' : Line} (h : K.sameLines → line = line') :
    K.Does (Gen.emit line) (Gen.emit line') :=
  hK.emitTo .code nofun h

theorem emitAll (hK : K.Lawful) {lines lines' : List Line} (hlength : lines.length = lines'.length)
    (h : K.sameLines → lines = lines') : K.Does (Gen.emitAll lines) (Gen.emitAll lines') := by
  induction lines generalizing lines' with
  | nil =>
    obtain rfl : lines' = [] := List.length_eq_zero_iff.1 hlength.symm
    exact .pure trivial
  | cons line lines ih =>
    cases lines' with
    | nil => cases hlength
    | cons line' lines' =>
      refine .andThen (hK.emit fun hlines => ?_) (ih (Nat.succ.inj hlength) fun hlines => ?_)
      · exact (List.cons.inj (h hlines)).1
      · exact (List.cons.inj (h hlines)).2

theorem freshTemp (hK : K.Lawful) : K.Pairs K.name Gen.freshTemp Gen.freshTemp :=
  .of_ok Gen.freshTemp_apply Gen.freshTemp_apply (fun _ => rfl) (fun _ => rfl)
    fun _ _ hs => hK.state_freshTemp hs

theorem freshLabel (hK : K.Lawful) :
    K.Pairs (fun l l' => K.sameLines → l = l') Gen.freshLabel Gen.freshLabel :=
  .of_ok Gen.freshLabel_apply Gen.freshLabel_apply (fun _ => rfl) (fun _ => rfl)
    fun _ _ hs => hK.state_freshLabel hs

theorem lookup (hK : K.Lawful) (x : String) :
    K.Pairs (Option.Rel K.Variables) (Gen.lookup x) (Gen.lookup x) :=
  .of_ok (Gen.lookup_apply x) (Gen.lookup_apply x) (fun _ => rfl) (fun _ => rfl)
    fun _ _ hs => ⟨hK.state_lookup x hs, hs⟩

theorem checkUserName (hK : K.Lawful) {l l' : Nat} (h : K.place l l') (x : String) :
    K.Pairs (fun _ _ => isReservedName x = false) (Gen.checkUserName l x)
      (Gen.checkUserName l' x) := by
  unfold Gen.checkUserName
  split
  next => exact hK.failAt _ h
  next hname => exact .pure (Bool.eq_false_iff.2 hname)

theorem declareUser (hK : K.Lawful) {x : String} (h : isReservedName x = false) (ty : ValueType) :
    K.Does (Gen.declare x (.named (.user x) ty)) (Gen.declare x (.named (.user x) ty)) :=
  .of_ok (Gen.declare_apply _ _) (Gen.declare_apply _ _) (fun _ => rfl) (fun _ => rfl)
    fun _ _ hs => ⟨trivial, hK.state_declareUser ty h hs⟩

theorem inScope (hK : K.Lawful) {m m' : Gen α} (h : K.Pairs Q m m') :
    K.Pairs Q (Gen.inScope m) (Gen.inScope m') := by
  intro s s' hs
  have hends := h _ _ (hK.state_enter hs)
  unfold Gen.inScope
  generalize m { s with scopes := s.scopes.enter } = r at hends
  generalize m' { s' with scopes := s'.scopes.enter } = r' at hends
  cases hends with
  | error hfault => exact .error hfault
  | excused hexcused => exact .excused hexcused
  | ok ht hq => exact .ok (hK.state_leave ht) hq

theorem deref (hK : K.Lawful) {o o' : Operand} (h : K.Operands loose o o') :
    K.Pairs (K.Operands loose) (Gen.deref o) (Gen.deref o') := by
  cases hreference : o.isReference with
  | false =>
    refine .of_ok (Gen.deref_of_not_reference hreference) (Gen.deref_of_not_reference ?_)
      (fun _ => rfl) (fun _ => rfl) fun _ _ hs => ⟨h, hs⟩
    rw [← h.isReference, hreference]
  | true =>
    have hreference' : o'.isReference = true := by rw [← h.isReference, hreference]
    obtain ⟨place, rfl⟩ := Operand.isReference_iff.1 hreference
    obtain ⟨place', rfl⟩ := Operand.isReference_iff.1 hreference'
    refine .bind hK.freshTemp fun t t' ht => .andThen (hK.emit fun hlines => ?_) (.pure ?_)
    · rw [hK.name_eq hlines ht, Operand.reference.inj (h.eq hlines)]
    · exact hK.temp ht .text

theorem derefAll (hK : K.Lawful) {os os' : List Operand}
    (h : List.Forall₂ (fun o o' => ∃ loose, K.Operands loose o o') os os') :
    K.Pairs (List.Forall₂ fun o o' => ∃ loose, K.Operands loose o o') (Gen.derefAll os)
      (Gen.derefAll os') := by
  induction h with
  | nil => exact .pure .nil
  | cons ho _ ih =>
    obtain ⟨loose, ho⟩ := ho
    refine .bind ih fun rest rest' hrest => .bind (hK.deref ho) fun o o' hvalue => ?_
    exact .pure (.cons ⟨loose, hvalue⟩ hrest)

/-! ## Parts -/

/-- Dropping what has been pushed gives back the operands from before. -/
theorem stack_dropTo {s t : State} {new : List Operand} (h : t.stack = new ++ s.stack) :
    t.dropTo s.stack.length = { t with stack := s.stack } := by
  unfold State.dropTo
  rw [h, List.length_append, Nat.add_sub_cancel, List.drop_left]

theorem statement (hK : K.Lawful) {m m' : Gen Unit} (h : K.Yields loose m m') :
    K.Does (Gen.statement m) (Gen.statement m') := by
  intro s s' hs
  rw [Gen.statement_apply, Gen.statement_apply]
  have hends := h s s' hs
  generalize m s = r at hends
  generalize m' s' = r' at hends
  cases hends with
  | error hfault => exact .error hfault
  | excused hexcused => exact .excused hexcused
  | ok ht hq =>
    obtain ⟨-, new, new', -, hstack, hstack'⟩ := hq
    dsimp only
    rw [stack_dropTo hstack, stack_dropTo hstack']
    exact .ok (hK.state_stack _ _ ht) ⟨trivial, [], [], .nil, rfl, rfl⟩

theorem eval (hK : K.Lawful) {p p' : Part} (h : K.Parts loose p p') :
    K.Pairs (K.Operands loose) (Gen.eval p) (Gen.eval p') := by
  intro s s' hs
  rw [Gen.eval_apply, Gen.eval_apply]
  have hends := h.gen s s' hs
  generalize p.gen s = r at hends
  generalize p'.gen s' = r' at hends
  cases hends with
  | error hfault => exact .error hfault
  | excused hexcused => exact .excused hexcused
  | ok ht hq =>
    obtain ⟨-, new, new', hnew, hstack, hstack'⟩ := hq
    dsimp only
    rw [stack_dropTo hstack, stack_dropTo hstack', State.above, State.above, hstack, hstack',
      List.length_append, List.length_append, Nat.add_sub_cancel, Nat.add_sub_cancel,
      List.take_left, List.take_left]
    cases hnew with
    | nil => exact .error (hK.noValue h.heads.place h.heads.construct)
    | cons ho _ => exact .ok (hK.state_stack _ _ ht) ⟨ho, [], [], .nil, rfl, rfl⟩

theorem evalDeref (hK : K.Lawful) {p p' : Part} (h : K.Parts loose p p') :
    K.Pairs (K.Operands loose) (Gen.evalDeref p) (Gen.evalDeref p') :=
  .bind (hK.eval h) fun _ _ => hK.deref

theorem block (hK : K.Lawful) {ps ps' : List Part} (h : K.AllParts ps ps') :
    K.Does (Gen.block ps) (Gen.block ps') := by
  induction h with
  | nil => exact .pure trivial
  | cons hp _ ih =>
    obtain ⟨loose, hp⟩ := hp
    exact .andThen (hK.statement hp.gen) ih

theorem evalAll (hK : K.Lawful) {ps ps' : List Part} (h : K.AllParts ps ps') :
    K.Pairs (List.Forall₂ fun o o' => ∃ loose, K.Operands loose o o') (Gen.evalAll ps)
      (Gen.evalAll ps') := by
  induction h with
  | nil => exact .pure .nil
  | cons hp _ ih =>
    obtain ⟨loose, hp⟩ := hp
    refine .bind (hK.eval hp) fun o o' ho => .bind ih fun os os' hos => ?_
    exact .pure (.cons ⟨loose, ho⟩ hos)

/-! ## Constructs -/

open Gen

variable {la lb lc : Bool} {a a' b b' c c' : Part} {ps ps' : List Part}

theorem program (hK : K.Lawful) (h : K.AllParts ps ps') :
    K.Does (lowerProgram ps) (lowerProgram ps') := by
  refine .andThen (hK.emitTo .init nofun fun _ => rfl) ?_
  exact .andThen (hK.emitTo .init nofun fun _ => rfl) (hK.block h)

theorem sum (hK : K.Lawful) {x x' y y' : Operand} (hx : K.Operands la x x')
    (hy : K.Operands lb y y') : K.Yields loose (lowerSum x y) (lowerSum x' y') := by
  unfold lowerSum
  rw [hx.valueType, hy.valueType, hx.isInteger, hy.isInteger]
  refine .bind hK.freshTemp fun t t' ht => ?_
  split
  · refine .andThen (hK.emit fun hlines => ?_) (hK.pushVar ht rfl)
    rw [hx.eq hlines, hy.eq hlines, hK.name_eq hlines ht]
  · refine .andThen (hK.emit fun hlines => ?_) (hK.pushVar ht rfl)
    rw [hx.eq hlines, hy.eq hlines, hK.name_eq hlines ht]

theorem arithmetic (hK : K.Lawful) (op : BinaryOp) {x x' y y' : Operand} (hx : K.Operands la x x')
    (hy : K.Operands lb y y') :
    K.Yields loose (lowerArithmetic op x y) (lowerArithmetic op x' y') := by
  unfold lowerArithmetic
  rw [hx.valueType, hy.valueType]
  refine .bind hK.freshTemp fun t t' ht => .andThen (hK.emit fun hlines => ?_) (hK.pushVar ht rfl)
  rw [hx.eq hlines, hy.eq hlines, hK.name_eq hlines ht]

/-- Comparands that correspond, with temporaries for the result. -/
structure Comparands (K : Pairing) (la lb : Bool) (sides sides' : Operand × Operand × Name) :
    Prop where
  left : K.Operands la sides.1 sides'.1
  right : K.Operands lb sides.2.1 sides'.2.1
  result : K.name sides.2.2 sides'.2.2

theorem comparands (hK : K.Lawful) (op : BinaryOp) (ha : K.Parts la a a') (hb : K.Parts lb b b') :
    K.Pairs (Comparands K la lb) (Gen.comparands op a b) (Gen.comparands op a' b') := by
  unfold Gen.comparands
  split
  · refine .bind (hK.eval hb) fun y y' hy => .bind (hK.eval ha) fun x x' hx => ?_
    refine .bind hK.freshTemp fun t t' ht => .bind (hK.deref hx) fun x x' hx => ?_
    exact .bind (hK.deref hy) fun y y' hy => .pure ⟨hx, hy, ht⟩
  · refine .bind (hK.eval ha) fun x x' hx => .bind (hK.eval hb) fun y y' hy => ?_
    refine .bind hK.freshTemp fun t t' ht => .bind (hK.deref hy) fun y y' hy => ?_
    exact .bind (hK.deref hx) fun x x' hx => .pure ⟨hx, hy, ht⟩

theorem binary (hK : K.Lawful) (op : BinaryOp) (ha : K.Parts la a a') (hb : K.Parts lb b b') :
    K.Yields loose (lowerBinary op a b) (lowerBinary op a' b') := by
  unfold lowerBinary
  split
  · refine .bind (hK.comparands op ha hb) fun sides sides' h => ?_
    refine .andThen (hK.emit fun hlines => ?_) (hK.pushVar h.result rfl)
    rw [h.left.eq hlines, h.right.eq hlines, hK.name_eq hlines h.result]
  · refine .bind (hK.eval ha) fun x x' hx => .bind (hK.eval hb) fun y y' hy => ?_
    refine .bind (hK.deref hy) fun y y' hy => .bind (hK.deref hx) fun x x' hx => ?_
    split
    · exact hK.sum hx hy
    · exact hK.arithmetic op hx hy

theorem conjunction (hK : K.Lawful) (ha : K.Parts la a a') (hb : K.Parts lb b b') :
    K.Does (lowerAnd a b) (lowerAnd a' b') := by
  refine .bind (hK.evalDeref ha) fun x x' hx => .andThen (hK.emit fun hlines => ?_) ?_
  · rw [hx.eq hlines]
  · exact .andThen (hK.statement hb.gen) (hK.emit fun _ => rfl)

theorem disjunction (hK : K.Lawful) (ha : K.Parts la a a') (hb : K.Parts lb b b') :
    K.Yields loose (lowerOr a b) (lowerOr a' b') := by
  refine .bind hK.freshTemp fun t t' ht => .bind (hK.evalDeref ha) fun x x' hx => ?_
  refine .andThen (hK.emitAll rfl fun hlines => ?_) (.bind (hK.evalDeref hb) fun y y' hy => ?_)
  · rw [hx.eq hlines, hK.name_eq hlines ht]
  · refine .andThen (hK.emitAll rfl fun hlines => ?_) (hK.pushVar ht rfl)
    rw [hy.eq hlines, hK.name_eq hlines ht]

theorem branch (hK : K.Lawful) {thenBody thenBody' elseBody elseBody' : List Part}
    (hc : K.Parts lc c c') (ht : K.AllParts thenBody thenBody')
    (he : K.AllParts elseBody elseBody') :
    K.Does (lowerBranch c thenBody elseBody) (lowerBranch c' thenBody' elseBody') := by
  refine .bind (hK.evalDeref hc) fun x x' hx => .andThen (hK.emit fun hlines => ?_) ?_
  · rw [hx.eq hlines]
  refine .andThen (hK.block ht) ?_
  cases he with
  | nil => exact hK.emit fun _ => rfl
  | cons hfirst hrest =>
    refine .andThen (hK.emit fun _ => rfl) (.andThen (hK.block (.cons hfirst hrest)) ?_)
    exact hK.emit fun _ => rfl

theorem conditional (hK : K.Lawful) (hc : K.Parts lc c c') (ha : K.Parts la a a')
    (hb : K.Parts lb b b') : K.Yields loose (lowerTernary c a b) (lowerTernary c' a' b') := by
  refine .bind (hK.evalDeref hc) fun z z' hz => .bind hK.freshTemp fun t t' ht => ?_
  refine .andThen (hK.emit fun hlines => by rw [hz.eq hlines]) ?_
  refine .bind (hK.evalDeref ha) fun x x' hx => ?_
  refine .andThen (hK.emit fun hlines => by rw [hx.eq hlines, hK.name_eq hlines ht]) ?_
  refine .andThen (hK.emit fun _ => rfl) (.bind (hK.evalDeref hb) fun y y' hy => ?_)
  refine .andThen (hK.emit fun hlines => by rw [hy.eq hlines, hK.name_eq hlines ht]) ?_
  refine .andThen (hK.emit fun _ => rfl) (hK.pushVar ht ?_)
  rw [hx.isInteger, hy.isInteger]

theorem loop (hK : K.Lawful) (hc : K.Parts lc c c') (h : K.AllParts ps ps') :
    K.Does (lowerLoop c ps) (lowerLoop c' ps') := by
  refine .bind hK.freshLabel fun l l' hl => .andThen (hK.emit fun hlines => by rw [hl hlines]) ?_
  refine .bind (hK.evalDeref hc) fun x x' hx => ?_
  refine .andThen (hK.emit fun hlines => by rw [hx.eq hlines]) (.andThen (hK.block h) ?_)
  exact .andThen (hK.emit fun hlines => by rw [hl hlines]) (hK.emit fun _ => rfl)

theorem declareFunction (hK : K.Lawful) {l l' : Nat} (h : K.place l l') (name : Option String) :
    K.Pairs K.name (Gen.declareFunction l name) (Gen.declareFunction l' name) := by
  cases name with
  | none =>
    exact .of_ok (fun _ => rfl) (fun _ => rfl) (fun _ => rfl) (fun _ => rfl)
      fun _ _ hs => ⟨(hK.state_freshTemp hs).1, hK.state_handleTemp hs⟩
  | some x =>
    rw [declareFunction_some, declareFunction_some]
    refine .bind (hK.checkUserName h x) fun _ _ hname => ?_
    refine .andThen (hK.declareUser hname .text) (.andThen ?_ (.pure (hK.user x)))
    exact .of_ok (emitTo_apply _ _) (emitTo_apply _ _) (fun _ => rfl) (fun _ => rfl)
      fun _ _ hs => ⟨trivial, hK.state_handleUser hname hs⟩

theorem declareParams (hK : K.Lawful) {first : Nat} (h : 2 ≤ first) (params : List String) :
    K.Does (Gen.declareParams first params) (Gen.declareParams first params) := by
  induction params generalizing first with
  | nil => exact .pure trivial
  | cons param rest ih =>
    refine .andThen ?_ (ih (Nat.le_succ_of_le h))
    exact .of_ok (declare_apply _ _) (declare_apply _ _) (fun _ => rfl) (fun _ => rfl)
      fun _ _ hs => ⟨trivial, hK.state_declareSlot param h hs⟩

/-- Bodies that correspond end in a return on both sides or on neither. -/
theorem isReturn_getLast? (h : K.AllParts ps ps') :
    ps.getLast?.any (·.node.isReturn) = ps'.getLast?.any (·.node.isReturn) := by
  induction h with
  | nil => rfl
  | cons hp hrest ih =>
    cases hrest with
    | nil =>
      obtain ⟨loose, hp⟩ := hp
      exact hp.heads.isReturn
    | cons _ _ =>
      rw [List.getLast?_cons_cons, List.getLast?_cons_cons]
      exact ih

theorem function (hK : K.Lawful) {l l' : Nat} (hl : K.place l l') (name : Option String)
    (params : List String) (h : K.AllParts ps ps') :
    K.Yields loose (lowerFunction l name params ps) (lowerFunction l' name params ps') := by
  rw [lowerFunction_eq, lowerFunction_eq]
  refine .bind (hK.declareFunction hl name) fun f f' hf => ?_
  refine .andThen (hK.emitAll rfl fun hlines => by rw [hK.name_eq hlines hf]) ?_
  refine .andThen (hK.inScope (.andThen (hK.declareParams (Nat.le_refl 2) params) (hK.block h))) ?_
  have hend : K.Yields loose (do Gen.emit (.label (.behind f)); Gen.push (.text [.name f]))
      (do Gen.emit (.label (.behind f')); Gen.push (.text [.name f'])) := by
    refine .andThen (hK.emit fun hlines => by rw [hK.name_eq hlines hf]) (hK.push ?_)
    exact hK.operands (.text fun hlines => by rw [hK.name_eq hlines hf])
  rw [isReturn_getLast? h]
  split
  · exact hend
  · exact .andThen (hK.emitAll rfl fun _ => rfl) hend

theorem call (hK : K.Lawful) (ha : K.Parts la a a') (h : K.AllParts ps ps') :
    K.Yields loose (lowerCall a ps) (lowerCall a' ps') := by
  refine .bind (hK.evalDeref ha) fun x x' hx => .bind (hK.evalAll h) fun os os' hos => ?_
  refine .bind (hK.derefAll hos) fun os os' hos => .bind hK.freshTemp fun t t' ht => ?_
  refine .andThen (hK.emit fun hlines => ?_) (hK.pushVar ht rfl)
  have heq : os = os' := List.forall₂_eq_eq_eq ▸ hos.imp fun o o' ho => ho.choose_spec.eq hlines
  rw [hx.eq hlines, hK.name_eq hlines ht, heq]

theorem ret (hK : K.Lawful) (ha : K.Parts la a a') : K.Does (lowerReturn a) (lowerReturn a') := by
  refine .bind (hK.evalDeref ha) fun x x' hx => hK.emitAll rfl fun hlines => ?_
  rw [hx.eq hlines]

theorem elements (hK : K.Lawful) {x x' : Name} (hx : K.name x x') (first : Nat)
    (h : K.AllParts ps ps') : K.Does (lowerElements x first ps) (lowerElements x' first ps') := by
  induction h generalizing first with
  | nil => exact .pure trivial
  | cons hp _ ih =>
    obtain ⟨loose, hp⟩ := hp
    refine .bind (hK.evalDeref hp) fun o o' ho => ?_
    exact .andThen (hK.emit fun hlines => by rw [ho.eq hlines, hK.name_eq hlines hx]) (ih (first + 1))

theorem array (hK : K.Lawful) (h : K.AllParts ps ps') :
    K.Yields loose (lowerArray ps) (lowerArray ps') := by
  refine .bind hK.freshTemp fun x x' hx => ?_
  refine .andThen (hK.emit fun hlines => by rw [hK.name_eq hlines hx]) ?_
  refine .andThen (hK.elements hx 0 h) ?_
  refine .andThen (hK.emit fun hlines => ?_) (hK.pushVar hx rfl)
  rw [hK.name_eq hlines hx, h.length_eq]

theorem index (hK : K.Lawful) (ha : K.Parts la a a') (hb : K.Parts lb b b') :
    K.Yields loose (lowerIndex a b) (lowerIndex a' b') := by
  refine .bind (hK.eval ha) fun x x' hx => .bind (hK.evalDeref hb) fun y y' hy => ?_
  refine .bind (hK.deref hx) fun x x' hx => hK.push (hK.operands (.reference fun hlines => ?_))
  rw [hx.eq hlines, hy.eq hlines]

/-! ## Assignments and steps -/

theorem nameTarget (hK : K.Lawful) {l l' : Nat} (h : K.place l l') (x : String) (ty : ValueType) :
    K.Pairs K.Targets (Gen.nameTarget l x ty) (Gen.nameTarget l' x ty) := by
  refine .bind (hK.lookup x) fun found found' hfound => ?_
  cases hfound with
  | none =>
    refine .bind (hK.checkUserName h x) fun _ _ hname => ?_
    exact .andThen (hK.declareUser hname ty) (.pure fun _ => rfl)
  | @some v v' hv =>
    obtain ⟨storage, ty⟩ := v
    obtain ⟨storage', ty'⟩ := v'
    obtain ⟨hstorage, -⟩ := hv
    cases hstorage with
    | named hx => exact .pure fun hlines => by rw [hK.name_eq hlines hx]
    | slot index => exact hK.failAt _ h

theorem assign (hK : K.Lawful) {targets targets' : Nat → String → ValueType → Gen Target}
    (htargets : ∀ {l l' : Nat} (x : String) (ty : ValueType), K.place l l' →
      K.Pairs K.Targets (targets l x ty) (targets' l' x ty))
    (ha : K.Parts la a a') (hb : K.Parts loose b b') :
    K.Yields loose (assignVia targets a b) (assignVia targets' a' b') := by
  have hstored : ∀ {place place' : Target} {v v' : Operand}, K.Operands loose v v' →
      K.Targets place place' → K.Yields loose (do Gen.emit (assignLine place v); Gen.push v)
        (do Gen.emit (assignLine place' v'); Gen.push v') := by
    intro place place' v v' hv hplace
    exact .andThen (hK.emit fun hlines => by rw [hplace hlines, hv.eq hlines]) (hK.push hv)
  obtain ⟨n, gen⟩ := a
  obtain ⟨n', gen'⟩ := a'
  have hassignable : n.isAssignable = n'.isAssignable := ha.heads.isAssignable
  have hname : n.name? = n'.name? := ha.heads.name?
  cases h : n.isAssignable with
  | false =>
    rw [assignVia_of_not_assignable _ h, assignVia_of_not_assignable _ (hassignable ▸ h)]
    exact .bind (hK.evalDeref hb) fun _ _ _ => hK.refuse ha.heads
  | true =>
    refine .bind (hK.evalDeref hb) fun v v' hv => ?_
    rw [h] at hassignable
    obtain ⟨l, x, rfl⟩ | ⟨l, base, i, rfl⟩ := Node.isAssignable_cases h <;>
      obtain ⟨l', x', rfl⟩ | ⟨l', base', i', rfl⟩ := Node.isAssignable_cases hassignable.symm
    · obtain rfl : x = x' := Option.some.inj hname
      rw [hv.valueType]
      exact .bind (htargets x _ ha.heads.place) fun place place' => hstored hv
    · cases hname
    · cases hname
    · refine .bind (hK.eval ha) fun o o' ho => ?_
      have hplace : K.Targets (.location o.splice) (.location o'.splice) :=
        fun hlines => by rw [ho.eq hlines]
      exact .bind (.pure hplace) fun place place' => hstored hv

theorem stepTarget (hK : K.Lawful) {n n' : Node} (hn : K.Heads n n') {o o' : Operand}
    (ho : K.SameForm o o') :
    K.Pairs K.Targets (Gen.stepTarget n o) (Gen.stepTarget n' o') := by
  cases ho with
  | integer value => exact hK.refuse hn
  | text ht => exact hK.refuse hn
  | reference ht => exact .pure fun hlines => by rw [ht hlines]
  | @var v v' hv =>
    obtain ⟨storage, ty⟩ := v
    obtain ⟨storage', ty'⟩ := v'
    obtain ⟨hstorage, -⟩ := hv
    cases hstorage with
    | named hx => exact .pure fun hlines => by rw [hK.name_eq hlines hx]
    | slot index =>
      rw [stepTarget_of_argument rfl, stepTarget_of_argument rfl, ← hn.name?]
      cases n.name? with
      | none => exact hK.refuse hn
      | some x => exact hK.failAt _ hn.place

theorem step (hK : K.Lawful) (op : StepOp) (ha : K.Parts false a a') :
    K.Yields loose (lowerStep op a) (lowerStep op a') := by
  refine .bind (hK.eval ha) fun o o' ho => ?_
  refine .bind (hK.stepTarget ha.heads (ho.form rfl)) fun place place' hplace => ?_
  refine .bind (hK.deref ho) fun x x' hx => .bind hK.freshTemp fun t t' ht => ?_
  refine .andThen (hK.emit fun hlines => by rw [hx.eq hlines, hK.name_eq hlines ht]) ?_
  refine .andThen (hK.emit fun hlines => by rw [hx.eq hlines, hplace hlines]) ?_
  exact hK.pushVar ht rfl

end Lawful

end Pairing

end BatchCompiler
