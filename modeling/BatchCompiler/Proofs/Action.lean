/-
# BatchCompiler.Proofs.Action -- what each step of generation does to the state

One equation for each primitive step, and for a sequence of two. Proofs about generation go through
these equations, so none of them has to know how steps are represented.
-/

import BatchCompiler.Generate.Node

namespace BatchCompiler

/-- Numbers are only ever counted up. -/
structure Counters.Le (lo hi : Counters) : Prop where
  temps : lo.temps ≤ hi.temps
  labels : lo.labels ≤ hi.labels

theorem Counters.Le.refl (c : Counters) : c.Le c := ⟨Nat.le_refl _, Nat.le_refl _⟩

theorem Counters.Le.trans {lo mid hi : Counters} (h : lo.Le mid) (h' : mid.Le hi) : lo.Le hi :=
  ⟨Nat.le_trans h.temps h'.temps, Nat.le_trans h.labels h'.labels⟩

namespace State

/-- How many temporaries have been made up. -/
abbrev temps (s : State) : Nat := s.shared.counters.temps

/-- How many loop labels have been made up. -/
abbrev labels (s : State) : Nat := s.shared.counters.labels

/-- The state with more lines of code. -/
def emitAll (lines : List Line) (s : State) : State :=
  { s with segments := { s.segments with code := s.segments.code ++ lines } }

theorem emitAll_emitAll (xs ys : List Line) (s : State) :
    (s.emitAll xs).emitAll ys = s.emitAll (xs ++ ys) := by
  simp [emitAll]

/-- The state with the process object set up and recorded. -/
def withProcess (s : State) : State :=
  { s.freshTemp.2 with
    segments := { s.segments with decl := s.segments.decl ++ processLines s.freshTemp.1 }
    shared := { s.freshTemp.2.shared with
      emitted := s.shared.emitted.set "process" (.named s.freshTemp.1 .text) } }

theorem withProcess_emitted (s : State) :
    s.withProcess.shared.emitted.get? "process" = some (.named s.freshTemp.1 .text) := by
  show (s.shared.emitted.set "process" _).get? "process" = _
  rw [Bindings.get?_set, if_pos rfl]

/-- The state with what another unit, which has come to the state `t`, contributes. -/
def adopt (s t : State) : State :=
  { s with
    segments := s.segments.splice t.segments.decl t.segments.code
    scopes := s.scopes.declareAll t.scopes.root
    shared := t.shared }

end State

/-- The operands that lie above the first `depth` ones. -/
def State.above (s : State) (depth : Nat) : List Operand := s.stack.take (s.stack.length - depth)

/-- The state with the operands above the first `depth` ones dropped. -/
def State.dropTo (s : State) (depth : Nat) : State :=
  { s with stack := s.stack.drop (s.stack.length - depth) }

/-- The state with a builtin recorded as set up. -/
def State.record (name : String) (v : Variable) (s : State) : State :=
  { s with shared := { s.shared with emitted := s.shared.emitted.set name v } }

/-- The state with what an included unit contributes, and the operand that an include leaves. -/
def State.including (unit : Contribution) (s : State) : State :=
  { s with
    segments := s.segments.splice unit.decl unit.code
    scopes := s.scopes.declareAll unit.exports
    stack := .text [.chars "include"] :: s.stack
    shared := unit.shared }

/-- The chain with the parameters bound to the arguments of the routine, from the one with this
number on. -/
def ScopeChain.declareSlots (chain : ScopeChain) (first : Nat) : List String → ScopeChain
  | [] => chain
  | param :: rest => (chain.declare param (.slot first .text)).declareSlots (first + 1) rest

/-- The state in which the body of the function `f` is written: the handle of the function is
declared, control jumps over the body, and the parameters are bound in a scope of their own. -/
def State.entering (f : Name) (params : List String) (s : State) : State :=
  { (s.emitTo .decl (.handle f)).emitAll [.goto (.behind f), .label (.entry f), .enterFunction] with
    scopes := s.scopes.enter.declareSlots 2 params }

/-- The process object is the only builtin of the language. -/
theorem Registry.standard_get? (name : String) :
    Registry.standard.get? name =
      if name = "process" then some { name := "process", ty := .text, setup := setupProcess }
      else none := by
  by_cases h : name = "process"
  · simp [Registry.standard, Registry.get?, h]
  · simp [Registry.standard, Registry.get?, h, Ne.symm h]

/-- The name is that of a builtin of the language. -/
def isBuiltin (name : String) : Bool := (Registry.standard.get? name).isSome

theorem isBuiltin_iff {name : String} : isBuiltin name = true ↔ name = "process" := by
  unfold isBuiltin
  rw [Registry.standard_get?]
  by_cases h : name = "process"
  · simp [h]
  · simp [h]

theorem isReservedName_of_isBuiltin {name : String} (h : isBuiltin name = true) :
    isReservedName name = false := by
  rw [isBuiltin_iff.1 h]
  decide

namespace Gen

variable {α β : Type}

/-! ## Sequences -/

theorem bind_apply (m : Gen α) (f : α → Gen β) (s : State) :
    (m >>= f) s = match m s with
      | .ok a t => f a t
      | .error e t => .error e t := by
  show EStateM.bind m f s = _
  unfold EStateM.bind
  cases m s <;> rfl

theorem bind_of_ok {m : Gen α} {f : α → Gen β} {s t : State} {a : α} (h : m s = .ok a t) :
    (m >>= f) s = f a t := by
  rw [bind_apply, h]

theorem bind_eq_ok_iff {m : Gen α} {f : α → Gen β} {s u : State} {b : β} :
    (m >>= f) s = .ok b u ↔ ∃ a t, m s = .ok a t ∧ f a t = .ok b u := by
  rw [bind_apply]
  constructor
  · intro h
    cases hm : m s with
    | ok a t =>
      rw [hm] at h
      exact ⟨a, t, rfl, h⟩
    | error e t =>
      rw [hm] at h
      cases h
  · rintro ⟨a, t, hm, hf⟩
    rw [hm]
    exact hf

/-! ## Primitive steps -/

@[simp] theorem pure_apply (a : α) (s : State) : (pure a : Gen α) s = .ok a s := rfl

@[simp] theorem get_apply (s : State) : (get : Gen State) s = .ok s s := rfl

@[simp] theorem fail_apply (loc : Nat) (cause : Cause) (s : State) :
    (fail loc cause : Gen α) s = .error (.here loc cause) s := rfl

@[simp] theorem emitTo_apply (segment : Segment) (line : Line) (s : State) :
    emitTo segment line s = .ok () (s.emitTo segment line) := rfl

@[simp] theorem emit_apply (line : Line) (s : State) : emit line s = .ok () (s.emitAll [line]) :=
  rfl

@[simp] theorem emitAll_apply (lines : List Line) (s : State) :
    emitAll lines s = .ok () (s.emitAll lines) := by
  induction lines generalizing s with
  | nil => simp [emitAll, State.emitAll]
  | cons line lines ih =>
    have hfirst : (emit line >>= fun _ => emitAll lines) s = emitAll lines (s.emitAll [line]) :=
      bind_of_ok (emit_apply line s)
    show (emit line >>= fun _ => emitAll lines) s = _
    rw [hfirst, ih]
    simp [State.emitAll]

@[simp] theorem freshTemp_apply (s : State) : freshTemp s = .ok s.freshTemp.1 s.freshTemp.2 := rfl

@[simp] theorem freshLabel_apply (s : State) : freshLabel s = .ok s.freshLabel.1 s.freshLabel.2 :=
  rfl

@[simp] theorem declare_apply (name : String) (v : Variable) (s : State) :
    declare name v s = .ok () (s.declare name v) := rfl

@[simp] theorem lookup_apply (name : String) (s : State) :
    lookup name s = .ok (s.scopes.lookup name) s := rfl

@[simp] theorem push_apply (o : Operand) (s : State) :
    push o s = .ok () { s with stack := o :: s.stack } := rfl

@[simp] theorem pushVar_apply (x : Name) (ty : ValueType) (s : State) :
    pushVar x ty s = .ok () { s with stack := .var (.named x ty) :: s.stack } := rfl

@[simp] theorem dropTo_apply (depth : Nat) (s : State) :
    dropTo depth s = .ok () { s with stack := s.stack.drop (s.stack.length - depth) } := rfl

theorem checkUserName_eq_ok {loc : Nat} {name : String} {s t : State} {u : Unit}
    (h : checkUserName loc name s = .ok u t) : isReservedName name = false ∧ t = s := by
  unfold checkUserName at h
  split at h
  · cases h
  · next hname =>
    cases h
    exact ⟨Bool.eq_false_iff.2 hname, rfl⟩

/-! ## Parts -/

/-- Evaluating a part that pushes one operand gives that operand and restores the stack. -/
theorem eval_of_push {p : Part} {s t : State} {o : Operand} (h : p.gen s = .ok () t)
    (hstack : t.stack = o :: s.stack) : eval p s = .ok o { t with stack := s.stack } := by
  unfold eval
  rw [bind_of_ok (get_apply s), bind_of_ok h, bind_of_ok (get_apply t),
    bind_of_ok (dropTo_apply _ t)]
  simp [hstack]

/-- What evaluating a part gives is what generating it has pushed last. -/
theorem eval_eq_ok {p : Part} {s u : State} {o : Operand} (h : eval p s = .ok o u) :
    ∃ t rest, p.gen s = .ok () t ∧ t.stack = o :: rest ∧ s.stack.length < t.stack.length ∧
      u = { t with stack := t.stack.drop (t.stack.length - s.stack.length) } := by
  unfold eval at h
  rw [bind_of_ok (get_apply s)] at h
  obtain ⟨_, t, hgen, h⟩ := bind_eq_ok_iff.1 h
  rw [bind_of_ok (get_apply t), bind_of_ok (dropTo_apply _ t)] at h
  cases hstack : t.stack with
  | nil =>
    rw [hstack] at h
    cases h
  | cons o' rest =>
    rw [hstack] at h
    dsimp only at h
    split at h
    next hlength =>
      cases h
      exact ⟨t, rest, hgen, hstack, by rw [hstack]; exact hlength, by rw [hstack]⟩
    next => cases h

@[simp] theorem deref_of_not_reference {o : Operand} (h : o.isReference = false) (s : State) :
    deref o s = .ok o s := by
  cases o with
  | reference place => cases h
  | integer value => rfl
  | text t => rfl
  | var v => rfl

theorem evalDeref_of_push {p : Part} {s t : State} {o : Operand} (h : p.gen s = .ok () t)
    (hstack : t.stack = o :: s.stack) (ho : o.isReference = false) :
    evalDeref p s = .ok o { t with stack := s.stack } := by
  unfold evalDeref
  rw [bind_of_ok (eval_of_push h hstack), deref_of_not_reference ho]

/-- A step run for its effects loses the operands that it has pushed. -/
theorem statement_apply (m : Gen Unit) (s : State) :
    statement m s = match m s with
      | .ok _ t => .ok () (t.dropTo s.stack.length)
      | .error e t => .error e t := by
  unfold statement
  rw [bind_of_ok (get_apply s), bind_apply]
  cases m s <;> rfl

/-- Evaluating a part is generating it and taking the last of the operands that it has pushed. -/
theorem eval_apply (p : Part) (s : State) :
    eval p s = match p.gen s with
      | .error e t => .error e t
      | .ok _ t =>
        match t.above s.stack.length with
        | o :: _ => .ok o (t.dropTo s.stack.length)
        | [] => .error (.here p.node.loc (.noValue p.node.construct)) (t.dropTo s.stack.length) := by
  unfold eval
  rw [bind_of_ok (get_apply s), bind_apply]
  cases p.gen s with
  | error e t => rfl
  | ok a t =>
    dsimp only
    rw [bind_of_ok (get_apply t), bind_of_ok (dropTo_apply _ t)]
    show (match t.stack with
      | o :: _ => _
      | [] => _ : Gen Operand) (t.dropTo s.stack.length) = _
    unfold State.above
    cases t.stack with
    | nil =>
      rw [List.take_nil]
      rfl
    | cons o rest =>
      dsimp only
      by_cases hlength : s.stack.length < (o :: rest).length
      · obtain ⟨n, hn⟩ := Nat.exists_eq_succ_of_ne_zero (Nat.sub_ne_zero_of_lt hlength)
        rw [if_pos hlength, hn]
        rfl
      · rw [if_neg hlength, Nat.sub_eq_zero_of_le (Nat.le_of_not_lt hlength)]
        rfl

/-! ## Constructs -/

/-- An assignment that succeeds has evaluated its value, then looked up or evaluated its target. -/
theorem lowerAssign_eq_ok {target value : Part} {s t : State} {u : Unit}
    (h : lowerAssign target value s = .ok u t) :
    ∃ v s₁ place s₂, evalDeref value s = .ok v s₁ ∧
      ((∃ loc name, target.node = .identifier loc name ∧
          nameTarget loc name v.valueType s₁ = .ok place s₂) ∨
        (∃ loc base index o, target.node = .index loc base index ∧
          eval target s₁ = .ok o s₂ ∧ place = .location o.splice)) ∧
      t = { s₂.emitAll [assignLine place v] with stack := v :: s₂.stack } := by
  obtain ⟨node, gen⟩ := target
  obtain ⟨v, s₁, hvalue, hrest⟩ := bind_eq_ok_iff.1 h
  cases node with
  | identifier loc name =>
    obtain ⟨place, s₂, hplace, hrest⟩ := bind_eq_ok_iff.1 hrest
    cases hrest
    exact ⟨v, s₁, place, s₂, hvalue, .inl ⟨loc, name, rfl, hplace⟩, rfl⟩
  | index loc base index =>
    obtain ⟨o, s₂, hplace, hrest⟩ := bind_eq_ok_iff.1 hrest
    cases hrest
    exact ⟨v, s₁, _, s₂, hvalue, .inr ⟨loc, base, index, o, rfl, hplace, rfl⟩, rfl⟩
  | _ => cases hrest

/-- A name that is assigned to becomes, or is, a named variable. -/
theorem nameTarget_eq_ok {loc : Nat} {name : String} {ty : ValueType} {place : Target} {s t : State}
    (h : nameTarget loc name ty s = .ok place t) :
    (s.scopes.lookup name = none ∧ isReservedName name = false ∧ place = .var (.user name) ∧
      t = s.declare name (.named (.user name) ty)) ∨
    ∃ v x, s.scopes.lookup name = some v ∧ v.storage = .named x ∧ place = .var x ∧ t = s := by
  unfold nameTarget at h
  rw [bind_of_ok (lookup_apply name s)] at h
  cases hlookup : s.scopes.lookup name with
  | none =>
    rw [hlookup] at h
    obtain ⟨_, s', hcheck, hrest⟩ := bind_eq_ok_iff.1 h
    obtain ⟨hname, rfl⟩ := checkUserName_eq_ok hcheck
    rw [bind_of_ok (declare_apply _ _ _)] at hrest
    cases hrest
    exact .inl ⟨rfl, hname, rfl, rfl⟩
  | some v =>
    rw [hlookup] at h
    obtain ⟨storage, ty'⟩ := v
    cases storage with
    | named x =>
      cases h
      exact .inr ⟨_, x, rfl, rfl, rfl, rfl⟩
    | slot i => cases h

/-- A function gets a temporary or the name that the user gives it, which is then bound to it. -/
theorem functionName_eq_ok {loc : Nat} {name : Option String} {f : Name} {s t : State}
    (h : functionName loc name s = .ok f t) :
    (name = none ∧ f = s.freshTemp.1 ∧ t = s.freshTemp.2) ∨
    ∃ k, name = some k ∧ f = .user k ∧ t = s.declare k (.named (.user k) .text) := by
  cases name with
  | none =>
    cases h
    exact .inl ⟨rfl, rfl, rfl⟩
  | some k =>
    obtain ⟨_, s', hcheck, hrest⟩ := bind_eq_ok_iff.1 h
    obtain ⟨-, rfl⟩ := checkUserName_eq_ok hcheck
    cases hrest
    exact .inr ⟨k, rfl, rfl, rfl⟩

theorem declareParams_apply (first : Nat) (params : List String) (s : State) :
    declareParams first params s =
      .ok () { s with scopes := s.scopes.declareSlots first params } := by
  induction params generalizing first s with
  | nil => rfl
  | cons param rest ih =>
    show (declare param (.slot first .text) >>= fun _ => declareParams (first + 1) rest) s = _
    rw [bind_of_ok (declare_apply param _ s), ih]
    rfl

/-- What a step changes is a place or a named variable. -/
theorem stepTarget_eq_ok {n : Node} {o : Operand} {place : Target} {s t : State}
    (h : stepTarget n o s = .ok place t) :
    t = s ∧ ((∃ text, o = .reference text ∧ place = .location text) ∨
      ∃ v x, o = .var v ∧ v.storage = .named x ∧ place = .var x) := by
  cases o with
  | reference text =>
    cases h
    exact ⟨rfl, .inl ⟨text, rfl, rfl⟩⟩
  | var v =>
    obtain ⟨storage, ty⟩ := v
    cases storage with
    | named x =>
      cases h
      exact ⟨rfl, .inr ⟨_, x, rfl, rfl, rfl⟩⟩
    | slot i => cases n <;> cases h
  | integer value => cases h
  | text t => cases h

/-- A step that succeeds keeps the value from before in a temporary and changes its target. -/
theorem lowerStep_eq_ok {op : StepOp} {target : Part} {s t : State} {u : Unit}
    (h : lowerStep op target s = .ok u t) :
    ∃ o s₁ place current s₂, eval target s = .ok o s₁ ∧
      ((∃ text, o = .reference text ∧ place = .location text) ∨
        ∃ v x, o = .var v ∧ v.storage = .named x ∧ place = .var x) ∧
      deref o s₁ = .ok current s₂ ∧
      t = { (s₂.freshTemp.2.emitAll
              [.compute (.var s₂.freshTemp.1) (.value current.splice)]).emitAll
              [.compute place (.step op current.splice)] with
            stack := .var (.named s₂.freshTemp.1 .integer) :: s₂.stack } := by
  obtain ⟨o, s₁, heval, hafterEval⟩ := bind_eq_ok_iff.1 h
  obtain ⟨place, s', hplace, hafterPlace⟩ := bind_eq_ok_iff.1 hafterEval
  obtain ⟨current, s₂, hderef, hlines⟩ := bind_eq_ok_iff.1 hafterPlace
  obtain ⟨rfl, htarget⟩ := stepTarget_eq_ok hplace
  cases hlines
  exact ⟨o, s', place, current, s₂, heval, htarget, hderef, rfl⟩

/-- A call that succeeds has evaluated its callee, then its arguments, and then reads those that have
yet to be read. -/
theorem lowerCall_eq_ok {callee : Part} {args : List Part} {s t : State} {u : Unit}
    (h : lowerCall callee args s = .ok u t) :
    ∃ f s₁ os s₂ values s₃, evalDeref callee s = .ok f s₁ ∧ evalAll args s₁ = .ok os s₂ ∧
      derefAll os s₂ = .ok values s₃ ∧
      t = { s₃.freshTemp.2.emitAll [.call f.splice s₃.freshTemp.1 (values.map argument)] with
            stack := .var (.named s₃.freshTemp.1 .text) :: s₃.stack } := by
  obtain ⟨f, s₁, hcallee, hafterCallee⟩ := bind_eq_ok_iff.1 h
  obtain ⟨os, s₂, hargs, hafterArgs⟩ := bind_eq_ok_iff.1 hafterCallee
  obtain ⟨values, s₃, hvalues, hline⟩ := bind_eq_ok_iff.1 hafterArgs
  cases hline
  exact ⟨f, s₁, os, s₂, values, s₃, hcallee, hargs, hvalues, rfl⟩

/-! ## Names -/

theorem resolve_of_lookup {s : State} {name : String} {v : Variable}
    (h : s.scopes.lookup name = some v) (registry : Registry) (loc : Nat) :
    resolve registry loc name s = .ok v s := by
  unfold resolve
  rw [bind_of_ok (lookup_apply name s), h]
  rfl

theorem resolve_of_emitted {s : State} {name : String} {v : Variable}
    (hlookup : s.scopes.lookup name = none) (h : s.shared.emitted.get? name = some v)
    (registry : Registry) (loc : Nat) : resolve registry loc name s = .ok v (s.declare name v) := by
  unfold resolve
  rw [bind_of_ok (lookup_apply name s), hlookup]
  show ((get : Gen State) >>= _) s = _
  rw [bind_of_ok (get_apply s), h]
  rfl

theorem forM_emitTo_decl (lines : List Line) (s : State) :
    (lines.forM fun line => (modify (State.emitTo .decl line) : StateM State PUnit)) s =
      ((), { s with segments := { s.segments with decl := s.segments.decl ++ lines } }) := by
  induction lines generalizing s with
  | nil =>
    show ((), s) = _
    rw [List.append_nil]
  | cons line lines ih =>
    show (lines.forM fun line => (modify (State.emitTo .decl line) : StateM State PUnit))
      (s.emitTo .decl line) = _
    rw [ih]
    simp only [State.emitTo, Segments.add, List.append_assoc, List.singleton_append]

theorem setupProcess_apply (s : State) :
    setupProcess s = (.named s.freshTemp.1 .text,
      { s.freshTemp.2 with
        segments := { s.segments with decl := s.segments.decl ++ processLines s.freshTemp.1 } }) := by
  have hlines := forM_emitTo_decl (processLines s.freshTemp.1) s.freshTemp.2
  show (Variable.named s.freshTemp.1 .text,
    ((processLines s.freshTemp.1).forM fun line =>
      (modify (State.emitTo .decl line) : StateM State PUnit)) s.freshTemp.2 |>.2) = _
  rw [hlines]
  rfl

/-- A name that is neither bound nor set up is looked up among the builtins. -/
theorem resolve_of_new {s : State} {name : String} (hlookup : s.scopes.lookup name = none)
    (h : s.shared.emitted.get? name = none) (loc : Nat) :
    resolve .standard loc name s =
      if name = "process" then
        .ok (.named s.freshTemp.1 .text) (s.withProcess.declare name (.named s.freshTemp.1 .text))
      else .error (.here loc (.unresolved name)) s := by
  unfold resolve
  rw [bind_of_ok (lookup_apply name s), hlookup]
  show ((get : Gen State) >>= _) s = _
  -- Neither bound nor set up: what is left is to ask for a builtin of that name.
  rw [bind_of_ok (get_apply s), h, Registry.standard_get?]
  by_cases hname : name = "process"
  · rw [if_pos hname, if_pos hname]
    subst hname
    have hsetup : (modifyGet setupProcess : Gen Variable) s =
        .ok (setupProcess s).1 (setupProcess s).2 := rfl
    show ((modifyGet setupProcess : Gen Variable) >>= _) s = _
    rw [bind_of_ok hsetup, setupProcess_apply]
    rfl
  · rw [if_neg hname, if_neg hname]
    rfl

/-- What a name stands for with the builtins of the language: what a scope binds it to, a builtin
that has been set up, the process object at its first use, or nothing. -/
theorem resolve_cases (loc : Nat) (name : String) (s : State) :
    (∃ v, s.scopes.lookup name = some v ∧ resolve .standard loc name s = .ok v s) ∨
    (∃ v, s.scopes.lookup name = none ∧ s.shared.emitted.get? name = some v ∧
      resolve .standard loc name s = .ok v (s.declare name v)) ∨
    (name = "process" ∧ s.scopes.lookup name = none ∧ s.shared.emitted.get? name = none ∧
      resolve .standard loc name s = .ok (.named s.freshTemp.1 .text)
        (s.withProcess.declare name (.named s.freshTemp.1 .text))) ∨
    resolve .standard loc name s = .error (.here loc (.unresolved name)) s := by
  cases hlookup : s.scopes.lookup name with
  | some v => exact .inl ⟨v, rfl, resolve_of_lookup hlookup _ _⟩
  | none =>
    cases hemitted : s.shared.emitted.get? name with
    | some v => exact .inr (.inl ⟨v, rfl, rfl, resolve_of_emitted hlookup hemitted _ _⟩)
    | none =>
      have hnew := resolve_of_new hlookup hemitted loc
      by_cases hname : name = "process"
      · rw [if_pos hname] at hnew
        exact .inr (.inr (.inl ⟨hname, rfl, rfl, hnew⟩))
      · rw [if_neg hname] at hnew
        exact .inr (.inr (.inr hnew))

/-- A name that stands for something is bound, or is a builtin and is then bound to it. -/
theorem resolve_eq_ok {loc : Nat} {name : String} {v : Variable} {s t : State}
    (h : resolve .standard loc name s = .ok v t) :
    (s.scopes.lookup name = some v ∧ t = s) ∨
    (s.scopes.lookup name = none ∧ s.shared.emitted.get? name = some v ∧ t = s.declare name v) ∨
    (name = "process" ∧ s.scopes.lookup name = none ∧ s.shared.emitted.get? name = none ∧
      v = .named s.freshTemp.1 .text ∧ t = s.withProcess.declare name v) := by
  rcases resolve_cases loc name s with ⟨w, hw, hrun⟩ | ⟨w, hnone, hw, hrun⟩ |
    ⟨hname, hnone, hnew, hrun⟩ | hrun
  all_goals
    rw [hrun] at h
    cases h
  · exact .inl ⟨hw, rfl⟩
  · exact .inr (.inl ⟨hnone, hw, rfl⟩)
  · exact .inr (.inr ⟨hname, hnone, hnew, rfl, rfl⟩)

/-- What a name stands for with any builtins: what a scope binds it to, or a builtin, which is set up
and recorded if this is its first use. -/
theorem resolve_apply (registry : Registry) (loc : Nat) (name : String) (s : State) :
    resolve registry loc name s =
      match s.scopes.lookup name, s.shared.emitted.get? name, registry.get? name with
      | some v, _, _ => .ok v s
      | none, some v, _ => .ok v (s.declare name v)
      | none, none, none => .error (.here loc (.unresolved name)) s
      | none, none, some b =>
        .ok { (b.setup s).1 with ty := b.ty }
          (((b.setup s).2.record name { (b.setup s).1 with ty := b.ty }).declare name
            { (b.setup s).1 with ty := b.ty }) := by
  cases hlookup : s.scopes.lookup name with
  | some v => exact resolve_of_lookup hlookup registry loc
  | none =>
    cases hemitted : s.shared.emitted.get? name with
    | some v => exact resolve_of_emitted hlookup hemitted registry loc
    | none =>
      unfold resolve
      rw [bind_of_ok (lookup_apply name s), hlookup]
      show ((get : Gen State) >>= _) s = _
      rw [bind_of_ok (get_apply s), hemitted]
      cases registry.get? name with
      | none => rfl
      | some b => rfl

/-! ## Includes -/

/-- An include of a literal path asks the surroundings for the unit at that path, and takes over what
the unit contributes. -/
theorem lowerInclude_path (env : Env) (loc l : Nat) (path : String) (s : State) :
    lowerInclude env loc [.string l path] s =
      match env.includeUnit? with
      | none => .error (.here loc (.includeDepth env.limit)) s
      | some includeUnit =>
        match includeUnit (Path.join env.base path) s.shared with
        | .error e => .error (.raised e) s
        | .ok unit => .ok () (s.including unit) := by
  unfold lowerInclude
  cases env.includeUnit? with
  | none => rfl
  | some includeUnit =>
    dsimp only
    rw [bind_of_ok (get_apply s)]
    cases includeUnit (Path.join env.base path) s.shared <;> rfl

/-- An include of anything else is refused for its arguments. -/
theorem lowerInclude_wrong (env : Env) (loc : Nat) {args : List Node}
    (h : ∀ l path, args ≠ [.string l path]) :
    ∃ l problem, ∀ s, lowerInclude env loc args s =
      .error (.here l (.includeArgument problem)) s := by
  unfold lowerInclude
  split
  next l path => exact absurd rfl (h l path)
  next => exact ⟨_, _, fun _ => rfl⟩
  next => exact ⟨_, _, fun _ => rfl⟩

end Gen

end BatchCompiler
