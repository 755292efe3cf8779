/-
# BatchCompiler.Proofs.Lvalue -- what is written to

Only an element or a named variable may be written to. An assignment looks at what its target is and
keeps to that. A step looks at the operand that its target has left, and that is a variable for more
targets than names: for all those whose value is kept in a temporary, and for assignments that pass
on a variable. `writes_lvalues_iff` says which these are; they are changed and should be refused.
-/

import BatchCompiler.Proofs.Operand

namespace BatchCompiler

open Gen

/-! ## What may be written to -/

/-- The node may be stepped: it is an element, or a name that stands for a named variable. -/
def Node.IsLvalue (env : Env) (s : State) : Node → Prop
  | index .. => True
  | identifier loc name =>
    ∃ v t, resolve env.registry loc name s = .ok v t ∧ v.target?.isSome = true
  | _ => False

/-- The node may be assigned to: it is an element, or a name that is bound to a named variable or is
not bound yet. -/
def Node.IsAssignTarget (s : State) : Node → Prop
  | index .. => True
  | identifier _ name => ∀ v, s.scopes.lookup name = some v → v.target?.isSome = true
  | _ => False

/-- The assignment writes only to what may be assigned to. It binds a new name to a variable of that
name, and where it refuses its target it leaves the state that evaluating the value has left. -/
structure AssignsLvalue (env : Env) (l : Nat) (target value : Node) (s : State) : Prop where
  accepted {t : State} : node env (.assign l target value) s = .ok () t →
    ∃ o u, evalDeref ⟨value, node env value⟩ s = .ok o u ∧ target.IsAssignTarget u ∧
      ∀ loc name, target = .identifier loc name → u.scopes.lookup name = none →
        t.scopes.lookup name = some (.named (.user name) o.valueType)
  refused {o : Operand} {u : State} : evalDeref ⟨value, node env value⟩ s = .ok o u →
    ¬ target.IsAssignTarget u →
    ∃ what, node env (.assign l target value) s = .error (.here target.loc (.notAssignable what)) u

/-- The step writes only to lvalues, and where it refuses its target it leaves the state that
evaluating the target has left. -/
structure StepsLvalue (env : Env) (l : Nat) (op : StepOp) (leading : Bool) (target : Node)
    (s : State) : Prop where
  accepted {t : State} : node env (.step l op leading target) s = .ok () t →
    target.IsLvalue env s
  refused {o : Operand} {u : State} : eval ⟨target, node env target⟩ s = .ok o u →
    ¬ target.IsLvalue env s →
    ∃ what, node env (.step l op leading target) s =
      .error (.here target.loc (.notAssignable what)) u

/-- The value of the node is kept in a named variable: in a temporary of its own, or in the variable
of the name that the node is or whose value it passes on. -/
def Node.KeptInVariable (env : Env) (s : State) : Node → Prop
  | identifier loc name =>
    ∃ v t, resolve env.registry loc name s = .ok v t ∧ v.target?.isSome = true
  | assign _ _ value => value.construct = .index ∨ value.KeptInVariable env s
  | call _ callee _ => isInclude callee = false
  | binary .. => True
  | or .. => True
  | ternary .. => True
  | step .. => True
  | array .. => True
  | _ => False

/-! ## What is pushed last -/

/-- The operand is a named variable. -/
def Operand.IsNamed (o : Operand) : Prop := ∃ x ty, o = .var (.named x ty)

/-- The operand is a value that is kept nowhere. -/
def Operand.IsLoose (o : Operand) : Prop := o.target? = none

namespace Pushes

variable {P : Operand → Prop}

theorem named (x : Name) (ty : ValueType) : Pushes Operand.IsNamed (pushVar x ty) :=
  .push ⟨x, ty, rfl⟩

theorem fail (loc : Nat) (cause : Cause) : Pushes P (Gen.fail loc cause) := by
  intro s t hrun
  cases hrun

theorem binary (op : BinaryOp) (a b : Part) : Pushes Operand.IsNamed (lowerBinary op a b) := by
  unfold lowerBinary
  split
  · exact .bind fun _ => .bind fun _ => .named _ _
  · refine .bind fun _ => .bind fun _ => .bind fun _ => .bind fun _ => ?_
    show Pushes _ (if _ then _ else _)
    split
    · refine .bind fun _ => ?_
      show Pushes _ (if _ then _ else _)
      split
      · exact .bind fun _ => .named _ _
      · exact .bind fun _ => .named _ _
    · exact .bind fun _ => .bind fun _ => .named _ _

theorem disjunction (a b : Part) : Pushes Operand.IsNamed (lowerOr a b) :=
  .bind fun _ => .bind fun _ => .bind fun _ => .bind fun _ => .bind fun _ => .named _ _

theorem conditional (c a b : Part) : Pushes Operand.IsNamed (lowerTernary c a b) :=
  .bind fun _ => .bind fun _ => .bind fun _ => .bind fun _ => .bind fun _ => .bind fun _ =>
    .bind fun _ => .bind fun _ => .bind fun _ => .named _ _

theorem call (f : Part) (args : List Part) : Pushes Operand.IsNamed (lowerCall f args) :=
  .bind fun _ => .bind fun _ => .bind fun _ => .bind fun _ => .bind fun _ => .named _ _

theorem step (op : StepOp) (target : Part) : Pushes Operand.IsNamed (lowerStep op target) :=
  .bind fun _ => .bind fun _ => .bind fun _ => .bind fun _ => .bind fun _ => .bind fun _ =>
    .named _ _

theorem array (elements : List Part) : Pushes Operand.IsNamed (lowerArray elements) :=
  .bind fun _ => .bind fun _ => .bind fun _ => .bind fun _ => .named _ _

theorem index (a b : Part) : Pushes (fun o => o.isReference = true) (lowerIndex a b) :=
  .bind fun _ => .bind fun _ => .bind fun _ => .push rfl

theorem function (loc : Nat) (name : Option String) (params : List String) (body : List Part) :
    Pushes Operand.IsLoose (lowerFunction loc name params body) := by
  refine .bind fun f => .bind fun _ => .bind fun _ => .bind fun _ => ?_
  split
  · exact .bind fun _ => .push rfl
  · exact .bind fun _ => .bind fun _ => .push rfl

theorem includes (env : Env) (loc : Nat) (args : List Node) :
    Pushes Operand.IsLoose (lowerInclude env loc args) := by
  unfold lowerInclude
  split
  next l path =>
    split
    · exact .fail _ _
    next includeUnit _ =>
      refine .bind fun s => ?_
      split
      · exact fun _ _ hrun => by cases hrun
      · exact .bind fun _ => .push rfl
  next => exact .fail _ _
  next => exact .fail _ _

end Pushes

/-! ## Operands and what they come from -/

/-- The operand shows whether it is an element, and whether it can be changed where it is kept. -/
structure Operand.ComesFrom (env : Env) (s : State) (n : Node) (o : Operand) : Prop where
  isReference : o.isReference = true ↔ n.construct = .index
  target? : o.target?.isSome = true ↔ n.construct = .index ∨ n.KeptInVariable env s

theorem Operand.IsNamed.comesFrom {env : Env} {s : State} {n : Node} {o : Operand} (h : o.IsNamed)
    (hindex : n.construct ≠ .index) (hkept : n.KeptInVariable env s) : o.ComesFrom env s n := by
  obtain ⟨x, ty, rfl⟩ := h
  exact ⟨by simp [Operand.isReference, hindex],
    by simp [Operand.target?, Variable.target?, Variable.named, hkept]⟩

theorem Operand.IsLoose.comesFrom {env : Env} {s : State} {n : Node} {o : Operand} (h : o.IsLoose)
    (hindex : n.construct ≠ .index) (hkept : ¬ n.KeptInVariable env s) : o.ComesFrom env s n := by
  have htarget : o.target? = none := h
  have hreference : o.isReference = false := by
    cases o with
    | reference place => cases htarget
    | _ => rfl
  exact ⟨by simp [hreference, hindex], by simp [htarget, hindex, hkept]⟩

theorem Pushes.comesFrom {env : Env} {n : Node} {P : Operand → Prop} {m : Gen Unit}
    (h : Pushes P m) (hP : ∀ s o, P o → o.ComesFrom env s n) {s t : State} (hrun : m s = .ok () t) :
    ∃ o rest, t.stack = o :: rest ∧ o.ComesFrom env s n := by
  obtain ⟨o, rest, hstack, ho⟩ := h s t hrun
  exact ⟨o, rest, hstack, hP s o ho⟩

/-- Reading an element gives a named variable, and nothing else is changed by reading it. -/
theorem Operand.ComesFrom.deref {env : Env} {s t u : State} {n : Node} {o v : Operand}
    (h : o.ComesFrom env s n) (hderef : Gen.deref o t = .ok v u) :
    v.isReference = false ∧
      (v.target?.isSome = true ↔ n.construct = .index ∨ n.KeptInVariable env s) := by
  cases ho : o.isReference with
  | true =>
    obtain ⟨place, rfl⟩ : ∃ place, o = .reference place := by
      cases o with
      | reference place => exact ⟨place, rfl⟩
      | _ => cases ho
    cases hderef
    exact ⟨rfl, iff_of_true rfl (.inl (h.isReference.1 ho))⟩
  | false =>
    rw [deref_of_not_reference ho] at hderef
    cases hderef
    exact ⟨ho, h.target?⟩

/-- The operand that generating the node leaves, if it leaves one, comes from the node. -/
def Settles (env : Env) (n : Node) : Prop :=
  (∀ s t, node env n s = .ok () t → ∃ o rest, t.stack = o :: rest ∧ o.ComesFrom env s n) ∨
    Shrinks (node env n)

theorem Settles.eval {env : Env} {n : Node} (h : Settles env n) {s t : State} {o : Operand}
    (heval : Gen.eval ⟨n, node env n⟩ s = .ok o t) : o.ComesFrom env s n := by
  obtain ⟨u, rest, hgen, hstack, hlength, rfl⟩ := eval_eq_ok heval
  rcases h with hpushes | hshrinks
  · obtain ⟨o', rest', hstack', ho⟩ := hpushes s u hgen
    rw [hstack] at hstack'
    cases hstack'
    exact ho
  · have hle := hshrinks s () u hgen
    omega

theorem Settles.assign {env : Env} {value : Node} (h : Settles env value) (l : Nat)
    (target : Node) : Settles env (.assign l target value) := by
  refine .inl fun s t hrun => ?_
  obtain ⟨v, u, place, u', hvalue, -, rfl⟩ := lowerAssign_eq_ok hrun
  obtain ⟨o, s₁, heval, hderef⟩ := bind_eq_ok_iff.1 hvalue
  obtain ⟨hreference, htarget⟩ := (h.eval heval).deref hderef
  refine ⟨v, u'.stack, rfl, ?_, ?_⟩
  · simp [hreference, Node.construct]
  · rw [htarget]
    simp [Node.construct, Node.KeptInVariable]

theorem settles_node (env : Env) (n : Node) : Settles env n := by
  have hnamed : ∀ {n : Node}, n.construct ≠ .index → (∀ s, n.KeptInVariable env s) →
      Pushes Operand.IsNamed (node env n) → Settles env n :=
    fun hindex hkept h => .inl fun s t hrun =>
      h.comesFrom (fun s o ho => ho.comesFrom hindex (hkept s)) hrun
  have hloose : ∀ {n : Node}, n.construct ≠ .index → (∀ s, ¬ n.KeptInVariable env s) →
      Pushes Operand.IsLoose (node env n) → Settles env n :=
    fun hindex hkept h => .inl fun s t hrun =>
      h.comesFrom (fun s o ho => ho.comesFrom hindex (hkept s)) hrun
  induction n using Node.induction with
  | program l body ih => exact .inr (.program _)
  | integer l v => exact hloose nofun (fun s h => h) (.push rfl)
  | string l v => exact hloose nofun (fun s h => h) (.push rfl)
  | identifier l x =>
    refine .inl fun s t hrun => ?_
    obtain ⟨v, u, hresolve, hpush⟩ := bind_eq_ok_iff.1 hrun
    cases hpush
    refine ⟨_, _, rfl, by simp [Operand.isReference, Node.construct], ?_⟩
    simp [Operand.target?, Node.construct, Node.KeptInVariable, hresolve]
  | binary l op a b iha ihb => exact hnamed nofun (fun _ => trivial) (.binary op _ _)
  | and l a b iha ihb => exact .inr (.conjunction _ _)
  | or l a b iha ihb => exact hnamed nofun (fun _ => trivial) (.disjunction _ _)
  | assign l t v iht ihv => exact ihv.assign l t
  | branch l c t e ihc iht ihe => exact .inr (.branch _ _ _)
  | ternary l c t e ihc iht ihe => exact hnamed nofun (fun _ => trivial) (.conditional _ _ _)
  | loop l c body ihc ih => exact .inr (.loop _ _)
  | function l x ps body ih => exact hloose nofun (fun s h => h) (.function l x ps _)
  | call l f args ihf ih =>
    cases hf : isInclude f with
    | true =>
      refine hloose nofun (fun s h => ?_) ?_
      · rw [Node.KeptInVariable, hf] at h
        cases h
      · rw [node, if_pos hf]
        exact .includes env l args
    | false =>
      refine hnamed nofun (fun s => hf) ?_
      rw [node, if_neg (by simp [hf])]
      exact .call _ _
  | ret l v ihv => exact .inr (.ret _)
  | step l op leading t iht => exact hnamed nofun (fun _ => trivial) (.step op _)
  | array l es ih => exact hnamed nofun (fun _ => trivial) (.array _)
  | index l b i ihb ihi =>
    refine .inl fun s t hrun => ?_
    obtain ⟨o, rest, hstack, ho⟩ := Pushes.index _ _ s t hrun
    cases o with
    | reference place => exact ⟨_, rest, hstack, iff_of_true ho rfl, iff_of_true rfl (.inl rfl)⟩
    | _ => cases ho

/-! ## Assignments -/

theorem nameTarget_of_parameter {loc : Nat} {name : String} {ty : ValueType} {s : State}
    {v : Variable} (hv : s.scopes.lookup name = some v) (htarget : v.target? = none) :
    nameTarget loc name ty s = .error (.here loc (.notAssignable (.parameter name))) s := by
  unfold nameTarget
  rw [bind_of_ok (lookup_apply name s), hv]
  simp [htarget]

theorem assignsLvalue (env : Env) (l : Nat) (target value : Node) (s : State) :
    AssignsLvalue env l target value s where
  accepted {t} hrun := by
    obtain ⟨o, u, place, u', hvalue, htarget, rfl⟩ := lowerAssign_eq_ok hrun
    refine ⟨o, u, hvalue, ?_⟩
    rcases htarget with ⟨loc, name, rfl, hplace⟩ | ⟨loc, base, index, p, rfl, -, -⟩
    · rcases nameTarget_eq_ok hplace with ⟨hnone, -, -, rfl⟩ | ⟨v, x, hv, hx, -, rfl⟩
      · refine ⟨fun v hv => ?_, ?_⟩
        · rw [hnone] at hv
          cases hv
        · rintro loc' name' hsame -
          cases hsame
          show (u.scopes.declare name _).lookup name = _
          rw [ScopeChain.lookup_declare, if_pos rfl]
      · refine ⟨fun w hw => ?_, ?_⟩
        · rw [hv] at hw
          cases hw
          simp [Variable.target?, hx]
        · rintro loc' name' hsame hnone
          cases hsame
          rw [hv] at hnone
          cases hnone
    · exact ⟨trivial, fun loc' name' hsame => nomatch hsame⟩
  refused {o u} hvalue htarget := by
    show ∃ what, lowerAssign ⟨target, node env target⟩ ⟨value, node env value⟩ s = _
    unfold lowerAssign
    rw [bind_of_ok hvalue]
    cases target with
    | identifier loc name =>
      obtain ⟨v, hv, hslot⟩ : ∃ v, u.scopes.lookup name = some v ∧ v.target? = none := by
        simpa [Node.IsAssignTarget] using htarget
      refine ⟨.parameter name, ?_⟩
      show (nameTarget loc name o.valueType >>= _) u = _
      rw [bind_apply, nameTarget_of_parameter hv hslot]
      rfl
    | index loc base index => exact absurd trivial htarget
    | _ => exact ⟨_, rfl⟩

/-! ## Steps -/

theorem lowerStep_of_target (op : StepOp) {target : Part} {s u : State} {o : Operand}
    (heval : eval target s = .ok o u) (ho : o.target?.isSome = true) :
    ∃ t, lowerStep op target s = .ok () t := by
  obtain ⟨place, hplace⟩ : ∃ place, stepTarget target.node o u = .ok place u := by
    cases o with
    | reference place => exact ⟨_, rfl⟩
    | var v =>
      obtain ⟨storage, ty⟩ := v
      cases storage with
      | named x => exact ⟨.var x, rfl⟩
      | slot i => cases ho
    | _ => cases ho
  unfold lowerStep
  rw [bind_of_ok heval, bind_of_ok hplace]
  cases o <;> exact ⟨_, rfl⟩

theorem lowerStep_of_loose (op : StepOp) {target : Part} {s u : State} {o : Operand}
    (heval : eval target s = .ok o u) (ho : o.IsLoose) :
    ∃ what, lowerStep op target s = .error (.here target.node.loc (.notAssignable what)) u := by
  obtain ⟨what, hplace⟩ : ∃ what, stepTarget target.node o u =
      .error (.here target.node.loc (.notAssignable what)) u := by
    cases o with
    | reference place => cases ho
    | var v =>
      obtain ⟨storage, ty⟩ := v
      cases storage with
      | named x => cases ho
      | slot i => cases target.node <;> exact ⟨_, rfl⟩
    | _ => exact ⟨_, rfl⟩
  refine ⟨what, ?_⟩
  unfold lowerStep
  rw [bind_of_ok heval, bind_apply, hplace]

/-- Apart from elements and names, no node is an lvalue. -/
theorem Node.isLvalue_iff {env : Env} {s : State} {n : Node} :
    n.IsLvalue env s ↔
      n.isAssignable = true ∧ (n.construct = .index ∨ n.KeptInVariable env s) := by
  cases n <;> simp [IsLvalue, isAssignable, construct, KeptInVariable]

/-- A step keeps to lvalues exactly if its target cannot be evaluated, is a name or an element, or
leaves no named variable. -/
theorem stepsLvalue_iff (env : Env) (l : Nat) (op : StepOp) (leading : Bool) (target : Node)
    (s : State) :
    StepsLvalue env l op leading target s ↔
      ((∃ o u, eval ⟨target, node env target⟩ s = .ok o u) →
        target.isAssignable = true ∨ ¬ target.KeptInVariable env s) := by
  have hstep : node env (.step l op leading target) s =
      lowerStep op ⟨target, node env target⟩ s := by rw [node]
  constructor
  · rintro h ⟨o, u, heval⟩
    by_cases hkept : target.KeptInVariable env s
    · have htarget := ((settles_node env target).eval heval).target?.2 (.inr hkept)
      obtain ⟨t, hrun⟩ := lowerStep_of_target op heval htarget
      exact .inl (Node.isLvalue_iff.1 (h.accepted (hstep.trans hrun))).1
    · exact .inr hkept
  · intro h
    -- A name or an element leaves something to change exactly if it is an lvalue.
    have hiff : ∀ {o u}, eval ⟨target, node env target⟩ s = .ok o u →
        (o.target?.isSome = true ↔ target.IsLvalue env s) := by
      intro o u heval
      rw [((settles_node env target).eval heval).target?, Node.isLvalue_iff]
      rcases h ⟨o, u, heval⟩ with hassignable | hkept
      · rw [and_iff_right hassignable]
      · constructor
        · intro htarget
          exact ⟨by simp [Node.isAssignable, htarget.resolve_right hkept], htarget⟩
        · exact And.right
    refine ⟨fun hrun => ?_, fun heval hlvalue => ?_⟩
    · rw [hstep] at hrun
      obtain ⟨o, u, heval, -⟩ := bind_eq_ok_iff.1 hrun
      cases htarget : o.target? with
      | some place => exact (hiff heval).1 (by rw [htarget]; rfl)
      | none =>
        obtain ⟨what, hrefused⟩ := lowerStep_of_loose op heval htarget
        rw [hrefused] at hrun
        cases hrun
    · rw [hstep]
      refine lowerStep_of_loose op heval ?_
      rw [← hiff heval, Option.not_isSome_iff_eq_none] at hlvalue
      exact hlvalue

/-- **Only lvalues are written to, steps of values kept in variables apart.** Every assignment writes
only to lvalues and refuses every other target without a change. A step does so exactly if its target
fails by itself, is a name or an element, or leaves no named variable: so not for the results of
operators, conditionals, steps, arrays and calls, nor for assignments of these, of elements, or of
names for named variables. -/
theorem writes_lvalues_iff (env : Env) (l : Nat) (target : Node) (s : State) :
    (∀ value, AssignsLvalue env l target value s) ∧
    ∀ op leading, StepsLvalue env l op leading target s ↔
      ((∃ o u, eval ⟨target, node env target⟩ s = .ok o u) →
        target.isAssignable = true ∨ ¬ target.KeptInVariable env s) :=
  ⟨fun value => assignsLvalue env l target value s,
    fun op leading => stepsLvalue_iff env l op leading target s⟩

/-- A sum is no lvalue, but it is stepped: the temporary that holds it is counted up, in the middle
of a generation as in a whole compilation. -/
theorem sum_is_stepped :
    (compileSource (fun _ => .error .notFound) {} "x = 1; ++(x + 1);").toOption =
      some ("@echo off\nsetlocal enabledelayedexpansion\n\nset /a \"x=1\"\n" ++
        "set /a \"__1=!x!+1\"\nset /a \"__2=!__1!\"\nset /a \"__1=!__1!+1\"\n") ∧
    ¬ StepsLvalue (Options.env {} .standard fun _ => .error .notFound) 7 .inc true
      (.binary 12 .add (.identifier 10 "x") (.integer 14 1))
      (State.declare "x" (.named (.user "x") .integer) {}) := by
  refine ⟨by decide +kernel, fun h => ?_⟩
  have hlvalue := h.accepted rfl
  exact hlvalue

end BatchCompiler
