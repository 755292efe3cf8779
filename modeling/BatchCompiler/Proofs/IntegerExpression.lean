/-
# BatchCompiler.Proofs.IntegerExpression -- lowered expressions of integers compute their value

An expression of integers is built from literals and integer variables by the operators, `||` and
the conditional. Its value is given by recursion on the tree. The lowering gives it by three-address
code that keeps intermediate values in temporaries and branches with nested blocks. The two agree:
the lowering succeeds in every state, the lines that it writes change nothing but the temporaries
that it makes up, and the operand that it pushes then reads the value of the tree.

The invariant that carries the induction is `Computes`. It bounds the temporaries of an expression
from both sides, so that an operand evaluated first is still the same when the second one has been
evaluated, and it says what the lines do in a block that runs and in one that does not.
-/

import BatchCompiler.Proofs.Action
import BatchCompiler.Proofs.Shell
import BatchCompiler.Proofs.Spelling

namespace BatchCompiler

/-! ## Expressions of integers -/

/-- The variable, by its spelling, if a name is bound to an integer variable of the user. -/
def ScopeChain.integerVariable? (scopes : ScopeChain) (name : String) : Option String :=
  match scopes.lookup name with
  | some ⟨.named (.user x), .integer⟩ => if isReservedName x then none else some x
  | _ => none

theorem ScopeChain.lookup_of_integerVariable? {scopes : ScopeChain} {name x : String}
    (h : scopes.integerVariable? name = some x) :
    scopes.lookup name = some (.named (.user x) .integer) ∧ isReservedName x = false := by
  unfold ScopeChain.integerVariable? at h
  split at h
  next y heq =>
    by_cases hy : isReservedName y = true
    · simp [hy] at h
    · rw [if_neg hy] at h
      cases h
      exact ⟨heq, by simpa using hy⟩
  next => cases h

/-- The node is an expression of integers. -/
inductive IsIntegerExpression (scopes : ScopeChain) : Node → Prop
  | integer (loc : Nat) (value : Int) : IsIntegerExpression scopes (.integer loc value)
  | identifier (loc : Nat) {name x : String} (h : scopes.integerVariable? name = some x) :
      IsIntegerExpression scopes (.identifier loc name)
  | binary (loc : Nat) (op : BinaryOp) {a b : Node} (ha : IsIntegerExpression scopes a)
      (hb : IsIntegerExpression scopes b) : IsIntegerExpression scopes (.binary loc op a b)
  | or (loc : Nat) {a b : Node} (ha : IsIntegerExpression scopes a)
      (hb : IsIntegerExpression scopes b) : IsIntegerExpression scopes (.or loc a b)
  | ternary (loc : Nat) {c a b : Node} (hc : IsIntegerExpression scopes c)
      (ha : IsIntegerExpression scopes a) (hb : IsIntegerExpression scopes b) :
      IsIntegerExpression scopes (.ternary loc c a b)

/-- The value of an operator: a truth value for a comparison. -/
def BinaryOp.value (ops : Arithmetic) (op : BinaryOp) (v w : Int) : Int :=
  if op.isComparison then truthValue (op.holds v w) else ops op v w

/-- The value of an expression of integers, by recursion on the tree. -/
def Node.value? (ops : Arithmetic) (scopes : ScopeChain) (vars : Vars) : Node → Option Int
  | integer _ value => some value
  | identifier _ name => (scopes.integerVariable? name).map vars
  | binary _ op a b => do
    let v ← a.value? ops scopes vars
    let w ← b.value? ops scopes vars
    return op.value ops v w
  | or _ a b => do
    let v ← a.value? ops scopes vars
    let w ← b.value? ops scopes vars
    return truthValue (v ≠ 0 ∨ w ≠ 0)
  | ternary _ c a b => do
    let v ← c.value? ops scopes vars
    if v ≠ 0 then a.value? ops scopes vars else b.value? ops scopes vars
  | _ => none

/-! ## Temporaries -/

/-- The variables differ at most in the temporaries after `lo` up to `hi`. -/
def AgreeOutside (lo hi : Nat) (vars vars' : Vars) : Prop :=
  ∀ name, (∀ n, lo < n → n ≤ hi → name ≠ (Name.temp n).render) → vars' name = vars name

theorem AgreeOutside.refl (lo hi : Nat) (vars : Vars) : AgreeOutside lo hi vars vars :=
  fun _ _ => rfl

theorem AgreeOutside.trans {lo hi : Nat} {u v w : Vars} (h : AgreeOutside lo hi u v)
    (h' : AgreeOutside lo hi v w) : AgreeOutside lo hi u w :=
  fun name hname => (h' name hname).trans (h name hname)

theorem AgreeOutside.mono {lo hi lo' hi' : Nat} {vars vars' : Vars}
    (h : AgreeOutside lo hi vars vars') (hlo : lo' ≤ lo) (hhi : hi ≤ hi') :
    AgreeOutside lo' hi' vars vars' := by
  intro name hname
  exact h name fun n hn hn' => hname n (by omega) (by omega)

theorem AgreeOutside.set {lo hi n : Nat} (vars : Vars) (v : Int) (hlo : lo < n) (hhi : n ≤ hi) :
    AgreeOutside lo hi vars (vars.set (.temp n) v) :=
  fun _ hname => vars.set_of_ne v (hname n hlo hhi)

/-- A variable that is none of these temporaries keeps its value. -/
theorem AgreeOutside.render_eq {lo hi : Nat} {vars vars' : Vars} (h : AgreeOutside lo hi vars vars')
    {x : Name} (hx : x.IsProper) (hother : ∀ n, x = .temp n → n ≤ lo ∨ hi < n) :
    vars' x.render = vars x.render := by
  apply h
  intro n hlo hhi heq
  have hxn : x = .temp n := Name.render_inj hx trivial heq
  have := hother n hxn
  omega

/-- The value of an expression does not depend on temporaries. -/
theorem AgreeOutside.value?_eq {lo hi : Nat} {vars vars' : Vars}
    (h : AgreeOutside lo hi vars vars') (ops : Arithmetic) {scopes : ScopeChain} {e : Node}
    (he : IsIntegerExpression scopes e) : e.value? ops scopes vars' = e.value? ops scopes vars := by
  induction he with
  | integer loc value => rfl
  | @identifier loc name x hx =>
    have hproper : isReservedName x = false := (ScopeChain.lookup_of_integerVariable? hx).2
    have hread : vars' x = vars x :=
      h.render_eq (x := .user x) hproper (fun n hn => by cases hn)
    simp [Node.value?, hx, hread]
  | binary loc op _ _ iha ihb => simp [Node.value?, iha, ihb]
  | or loc _ _ iha ihb => simp [Node.value?, iha, ihb]
  | ternary loc _ _ _ ihc iha ihb => simp [Node.value?, ihc, iha, ihb]

/-! ## Operands -/

/-- The operand is a number, an integer variable of the user, or a temporary after `lo` up to
`hi`. -/
def Operand.Settled (lo hi : Nat) : Operand → Prop
  | integer _ => True
  | var v => v.ty = .integer ∧
      ∃ x, v.storage = .named x ∧ x.IsProper ∧ ∀ n, x = .temp n → lo < n ∧ n ≤ hi
  | _ => False

theorem Operand.Settled.isReference_eq {lo hi : Nat} {o : Operand} (h : o.Settled lo hi) :
    o.isReference = false := by
  cases o with
  | reference place => exact absurd h id
  | integer value => rfl
  | text t => rfl
  | var v => rfl

theorem Operand.Settled.valueType_eq {lo hi : Nat} {o : Operand} (h : o.Settled lo hi) :
    o.valueType = .integer := by
  cases o with
  | integer value => rfl
  | var v => exact h.1
  | text t => exact absurd h id
  | reference place => exact absurd h id

/-- Code that uses other temporaries does not change what the operand reads. -/
theorem Operand.Settled.value?_eq {lo hi lo' hi' : Nat} {o : Operand} (h : o.Settled lo hi)
    {vars vars' : Vars} (hagree : AgreeOutside lo' hi' vars vars') (hother : hi ≤ lo' ∨ hi' ≤ lo) :
    o.splice.value? vars' = o.splice.value? vars := by
  cases o with
  | integer value => rfl
  | var v =>
    obtain ⟨-, x, hx, hproper, hbounds⟩ := h
    have hread : vars' x.render = vars x.render := by
      apply hagree.render_eq hproper
      intro n hn
      have := hbounds n hn
      omega
    simp [Operand.splice, Variable.read, hx, Text.value?, hread]
  | text t => exact absurd h id
  | reference place => exact absurd h id

theorem Operand.settled_temp {n lo hi : Nat} (hlo : lo < n) (hhi : n ≤ hi) :
    (Operand.var (.named (.temp n) .integer)).Settled lo hi :=
  ⟨rfl, .temp n, rfl, trivial, fun m hm => by cases hm; exact ⟨hlo, hhi⟩⟩

/-- What a temporary reads. -/
theorem Operand.value?_temp (vars : Vars) (n : Nat) (ty : ValueType) :
    (Operand.var (.named (.temp n) ty)).splice.value? vars = some (vars (Name.temp n).render) := rfl

/-! ## Code that computes an expression -/

/-- The lines of a disjunction with the result `t`, around those of its operands `a` and `b`. -/
def disjunctionLines (t : Name) (a b : Text) (la lb : List Line) : List Line :=
  la ++ ([.flag t false] ++ ifElseLines a [.flag t true] (lb ++ ifLines b [.flag t true]))

/-- The lines of a disjunction between those of its operands. -/
def disjunctionMiddle (t : Name) (a : Text) : List Line :=
  [.flag t false, .openIf a, .flag t true, .openElse]

/-- The lines of a conditional with the result `t`, around those of its condition `c` and its two
values `a` and `b`. -/
def conditionalLines (t : Name) (c a b : Text) (lc la lb : List Line) : List Line :=
  lc ++ ifElseLines c (la ++ [.assign (.var t) a]) (lb ++ [.assign (.var t) b])

/-- The lines of a conditional between those of its two values. -/
def conditionalMiddle (t : Name) (a : Text) : List Line :=
  [.assign (.var t) a, .openElse]

/-- Running the lines leaves the value of the expression where the operand reads it, and they use
no temporaries but those after `lo` up to `hi`. -/
structure Computes (scopes : ScopeChain) (e : Node) (o : Operand) (lines : List Line)
    (lo hi : Nat) : Prop where
  le : lo ≤ hi
  settled : o.Settled lo hi
  skips : Skips lines
  executes : ∀ ops vars, ∃ vars' v, Executes ops lines vars vars' ∧
    AgreeOutside lo hi vars vars' ∧ e.value? ops scopes vars = some v ∧
      o.splice.value? vars' = some v

namespace Computes

variable {scopes : ScopeChain} {a b c e : Node} {oa ob oc : Operand} {la lb lc : List Line}
  {lo mid mid' hi : Nat}

/-- After the code of two expressions, one behind the other, both operands read their values. -/
theorem pair (ha : Computes scopes a oa la lo mid) (hb : Computes scopes b ob lb mid hi)
    (heb : IsIntegerExpression scopes b) (ops : Arithmetic) (vars : Vars) :
    ∃ vars' v w, Executes ops (la ++ lb) vars vars' ∧ AgreeOutside lo hi vars vars' ∧
      (a.value? ops scopes vars = some v ∧ oa.splice.value? vars' = some v) ∧
      b.value? ops scopes vars = some w ∧ ob.splice.value? vars' = some w := by
  obtain ⟨vars₁, v, hrun₁, hagree₁, hv, hread₁⟩ := ha.executes ops vars
  obtain ⟨vars₂, w, hrun₂, hagree₂, hw, hread₂⟩ := hb.executes ops vars₁
  have hlo := ha.le
  have hhi := hb.le
  refine ⟨vars₂, v, w, hrun₁.append hrun₂, ?_, ⟨hv, ?_⟩, ?_, hread₂⟩
  · exact (hagree₁.mono (Nat.le_refl _) hhi).trans (hagree₂.mono hlo (Nat.le_refl _))
  · rw [ha.settled.value?_eq hagree₂ (.inl (Nat.le_refl _)), hread₁]
  · rw [← hagree₁.value?_eq ops heb, hw]

/-- Two expressions, and a line that puts what it makes of their values into a new temporary. -/
theorem combine (ha : Computes scopes a oa la lo mid) (hb : Computes scopes b ob lb mid hi)
    (heb : IsIntegerExpression scopes b) {line : Line} (hline : line.isCommand = true)
    {f : Arithmetic → Int → Int → Int}
    (heffect : ∀ ops vars v w, oa.splice.value? vars = some v → ob.splice.value? vars = some w →
      line.effect? ops vars = some (vars.set (.temp (hi + 1)) (f ops v w)))
    (hvalue : ∀ ops vars v w, a.value? ops scopes vars = some v → b.value? ops scopes vars = some w →
      e.value? ops scopes vars = some (f ops v w)) :
    Computes scopes e (.var (.named (.temp (hi + 1)) .integer)) (la ++ lb ++ [line]) lo (hi + 1) := by
  have hlo := ha.le
  have hhi := hb.le
  refine ⟨by omega, Operand.settled_temp (by omega) (Nat.le_refl _),
    (ha.skips.append hb.skips).append (.command hline), ?_⟩
  intro ops vars
  obtain ⟨vars', v, w, hrun, hagree, ⟨hv, hva⟩, hw, hwb⟩ := ha.pair hb heb ops vars
  refine ⟨vars'.set (.temp (hi + 1)) (f ops v w), f ops v w, ?_, ?_, hvalue ops vars v w hv hw, ?_⟩
  · exact hrun.append (.command hline (heffect ops vars' v w hva hwb))
  · exact (hagree.mono (Nat.le_refl _) (by omega)).trans (AgreeOutside.set _ _ (by omega) (Nat.le_refl _))
  · rw [Operand.value?_temp, Vars.set_render]

/-- The code of a disjunction. Its temporary comes before all those of the operands. -/
theorem disjunction (ha : Computes scopes a oa la (lo + 1) mid) (hb : Computes scopes b ob lb mid hi)
    (heb : IsIntegerExpression scopes b) (loc : Nat) :
    Computes scopes (.or loc a b) (.var (.named (.temp (lo + 1)) .integer))
      (disjunctionLines (.temp (lo + 1)) oa.splice ob.splice la lb) lo hi := by
  let t := Name.temp (lo + 1)
  have hlo := ha.le
  have hhi := hb.le
  have hflag : ∀ truth, Skips [.flag t truth] := fun truth => .command rfl
  have helse : Skips (lb ++ ifLines ob.splice [.flag t true]) :=
    hb.skips.append (.branch (hflag true))
  have hset : ∀ vars truth, AgreeOutside lo hi vars (vars.set t truth) :=
    fun vars truth => AgreeOutside.set vars truth (by omega) (by omega)
  refine ⟨by omega, Operand.settled_temp (by omega) (by omega),
    ha.skips.append ((hflag false).append (.branches (hflag true) helse)), ?_⟩
  intro ops vars
  obtain ⟨vars₁, v, hrun₁, hagree₁, hv, hread₁⟩ := ha.executes ops vars
  have hclear : Executes ops [.flag t false] vars₁ (vars₁.set t 0) := .command rfl rfl
  have hagree₂ : AgreeOutside lo hi vars (vars₁.set t 0) :=
    (hagree₁.mono (by omega) hhi).trans (hset vars₁ 0)
  have hread₂ : oa.splice.value? (vars₁.set t 0) = some v := by
    have hkeep : AgreeOutside lo (lo + 1) vars₁ (vars₁.set t 0) :=
      AgreeOutside.set vars₁ 0 (by omega) (Nat.le_refl _)
    rw [ha.settled.value?_eq hkeep (.inr (Nat.le_refl _)), hread₁]
  by_cases hzero : v = 0
  · -- The right operand decides. Its code leaves the result of the disjunction alone.
    subst hzero
    obtain ⟨vars₃, w, hrun₃, hagree₃, hw, hread₃⟩ := hb.executes ops (vars₁.set t 0)
    have hw' : b.value? ops scopes vars = some w := by rw [← hagree₂.value?_eq ops heb, hw]
    have ht : vars₃ t.render = 0 := by
      have hmid : ∀ n, t = .temp n → n ≤ mid ∨ hi < n := by
        intro n hn
        have := Name.temp.inj hn
        omega
      rw [hagree₃.render_eq (x := t) trivial hmid, Vars.set_render]
    by_cases hw0 : w = 0
    · refine ⟨vars₃, 0, ?_, hagree₂.trans (hagree₃.mono (by omega) (Nat.le_refl _)), ?_, ?_⟩
      · refine hrun₁.append (hclear.append (.branches_second hread₂ (hflag true) ?_))
        exact hrun₃.append (.branch hread₃ (fun h => absurd hw0 h) (fun _ => ⟨hflag true, rfl⟩))
      · simp [Node.value?, hv, hw', hw0, truthValue]
      · rw [Operand.value?_temp, ht]
    · refine ⟨vars₃.set t 1, 1, ?_, ?_, ?_, ?_⟩
      · refine hrun₁.append (hclear.append (.branches_second hread₂ (hflag true) ?_))
        exact hrun₃.append (.branch hread₃ (fun _ => .command rfl rfl) (fun h => absurd h hw0))
      · exact (hagree₂.trans (hagree₃.mono (by omega) (Nat.le_refl _))).trans (hset vars₃ 1)
      · simp [Node.value?, hv, hw', hw0, truthValue]
      · rw [Operand.value?_temp, Vars.set_render]
  · -- The code of the right operand is passed over, but the operand has a value.
    obtain ⟨-, w, -, -, hw, -⟩ := hb.executes ops (vars₁.set t 0)
    have hw' : b.value? ops scopes vars = some w := by rw [← hagree₂.value?_eq ops heb, hw]
    refine ⟨(vars₁.set t 0).set t 1, 1, ?_, hagree₂.trans (hset _ 1), ?_, ?_⟩
    · refine hrun₁.append (hclear.append (.branches_first hread₂ hzero ?_ helse))
      exact .command rfl rfl
    · simp [Node.value?, hv, hw', hzero, truthValue]
    · rw [Operand.value?_temp, Vars.set_render]

/-- The code of a conditional. Its temporary comes between those of the condition and those of the
two values. -/
theorem conditional (hc : Computes scopes c oc lc lo mid)
    (ha : Computes scopes a oa la (mid + 1) mid') (hb : Computes scopes b ob lb mid' hi)
    (hea : IsIntegerExpression scopes a) (heb : IsIntegerExpression scopes b) (loc : Nat) :
    Computes scopes (.ternary loc c a b) (.var (.named (.temp (mid + 1)) .integer))
      (conditionalLines (.temp (mid + 1)) oc.splice oa.splice ob.splice lc la lb) lo hi := by
  let t := Name.temp (mid + 1)
  have hlo := hc.le
  have hmid := ha.le
  have hhi := hb.le
  have hfirst : Skips (la ++ [.assign (.var t) oa.splice]) := ha.skips.append (.command rfl)
  have hsecond : Skips (lb ++ [.assign (.var t) ob.splice]) := hb.skips.append (.command rfl)
  refine ⟨by omega, Operand.settled_temp (by omega) (by omega),
    hc.skips.append (.branches hfirst hsecond), ?_⟩
  intro ops vars
  obtain ⟨vars₁, u, hrun₁, hagree₁, hu, hread₁⟩ := hc.executes ops vars
  obtain ⟨vars₂, v, hrun₂, hagree₂, hv, hread₂⟩ := ha.executes ops vars₁
  obtain ⟨vars₃, w, hrun₃, hagree₃, hw, hread₃⟩ := hb.executes ops vars₁
  -- Only one of the two runs, but each of them would run after the condition.
  rw [hagree₁.value?_eq ops hea] at hv
  rw [hagree₁.value?_eq ops heb] at hw
  have hset : ∀ vars v, AgreeOutside lo hi vars (vars.set t v) :=
    fun vars v => AgreeOutside.set vars v (by omega) (by omega)
  have hcond : AgreeOutside lo hi vars vars₁ := hagree₁.mono (Nat.le_refl _) (by omega)
  by_cases hzero : u = 0
  · subst hzero
    refine ⟨vars₃.set t w, w, ?_, ?_, ?_, ?_⟩
    · refine hrun₁.append (.branches_second hread₁ hfirst (hrun₃.append ?_))
      exact .command rfl (by simp [Line.effect?, hread₃, t])
    · exact (hcond.trans (hagree₃.mono (by omega) (Nat.le_refl _))).trans (hset vars₃ w)
    · simp [Node.value?, hu, hw]
    · rw [Operand.value?_temp, Vars.set_render]
  · refine ⟨vars₂.set t v, v, ?_, ?_, ?_, ?_⟩
    · refine hrun₁.append (.branches_first hread₁ hzero (hrun₂.append ?_) hsecond)
      exact .command rfl (by simp [Line.effect?, hread₂, t])
    · exact (hcond.trans (hagree₂.mono (by omega) (by omega))).trans (hset vars₂ v)
    · simp [Node.value?, hu, hv, hzero]
    · rw [Operand.value?_temp, Vars.set_render]

end Computes

/-! ## Lowering -/

/-- The state with more lines of code and with this many temporaries made up. -/
def State.advance (lines : List Line) (temps : Nat) (s : State) : State :=
  { s.emitAll lines with
    shared := { s.shared with counters := { s.shared.counters with temps } } }

namespace State

variable (s : State) (lines more : List Line) (n m : Nat)

@[simp] theorem scopes_advance : (s.advance lines n).scopes = s.scopes := rfl

@[simp] theorem temps_advance : (s.advance lines n).temps = n := rfl

@[simp] theorem stack_advance : (s.advance lines n).stack = s.stack := rfl

@[simp] theorem advance_advance :
    (s.advance lines n).advance more m = s.advance (lines ++ more) m := by
  simp [advance, emitAll]

@[simp] theorem emitAll_advance :
    (s.advance lines n).emitAll more = s.advance (lines ++ more) n := by
  simp [advance, emitAll]

@[simp] theorem freshTemp_advance :
    (s.advance lines n).freshTemp = (.temp (n + 1), s.advance lines (n + 1)) := rfl

theorem freshTemp_eq : s.freshTemp = (.temp (s.temps + 1), s.advance [] (s.temps + 1)) := by
  simp [freshTemp, advance, emitAll]

theorem advance_self : s.advance [] s.temps = s := by
  simp [advance, emitAll]

end State

/-- Generating the node writes the lines, uses the temporaries up to `hi` and pushes the operand. -/
def Lowers (env : Env) (e : Node) (s : State) (o : Operand) (lines : List Line) (hi : Nat) : Prop :=
  Gen.node env e s = .ok () { s.advance lines hi with stack := o :: s.stack }

namespace Lowers

open Gen

variable {env : Env} {e a b c : Node} {s : State} {o oa ob oc : Operand}
  {lines la lb lc : List Line} {mid mid' hi : Nat}

theorem eval_eq (h : Lowers env e s o lines hi) :
    eval ⟨e, node env e⟩ s = .ok o (s.advance lines hi) :=
  eval_of_push (p := ⟨e, node env e⟩) h rfl

theorem evalDeref_eq (h : Lowers env e s o lines hi) (ho : o.isReference = false) :
    evalDeref ⟨e, node env e⟩ s = .ok o (s.advance lines hi) :=
  evalDeref_of_push (p := ⟨e, node env e⟩) h rfl ho

/-- An operator that computes, on two integers. -/
theorem arithmetic (ha : Lowers env a s oa la mid) (hb : Lowers env b (s.advance la mid) ob lb hi)
    (hoa : oa.isReference = false) (hob : ob.isReference = false)
    (hta : oa.valueType = .integer) (htb : ob.valueType = .integer)
    (loc : Nat) {op : BinaryOp} (hop : op.isComparison = false) :
    Lowers env (.binary loc op a b) s (.var (.named (.temp (hi + 1)) .integer))
      (la ++ lb ++ [.compute (.var (.temp (hi + 1))) (.binary op oa.splice ob.splice)])
      (hi + 1) := by
  unfold Lowers node lowerBinary
  rw [if_neg (by simp [hop]), bind_of_ok ha.eval_eq, bind_of_ok hb.eval_eq,
    bind_of_ok (deref_of_not_reference hob _), bind_of_ok (deref_of_not_reference hoa _)]
  by_cases hadd : op = .add
  · subst hadd
    simp [lowerSum, bind_apply, Operand.isInteger, hta, htb, ValueType.join]
  · simp [hadd, lowerArithmetic, bind_apply, hta, htb, ValueType.join]

/-- A comparison that evaluates its left operand first. -/
theorem comparison (ha : Lowers env a s oa la mid) (hb : Lowers env b (s.advance la mid) ob lb hi)
    (hoa : oa.isReference = false) (hob : ob.isReference = false) (loc : Nat) {op : BinaryOp}
    (hop : op.isComparison = true) (hlt : op ≠ .lt) :
    Lowers env (.binary loc op a b) s (.var (.named (.temp (hi + 1)) .integer))
      (la ++ lb ++ [.compare (.temp (hi + 1)) op oa.splice ob.splice]) (hi + 1) := by
  unfold Lowers node lowerBinary
  rw [if_pos hop]
  have hsides : comparands op ⟨a, node env a⟩ ⟨b, node env b⟩ s =
      .ok (oa, ob, .temp (hi + 1)) (s.advance (la ++ lb) (hi + 1)) := by
    unfold comparands
    rw [if_neg hlt, bind_of_ok ha.eval_eq, bind_of_ok hb.eval_eq, bind_of_ok (freshTemp_apply _),
      bind_of_ok (deref_of_not_reference hob _), bind_of_ok (deref_of_not_reference hoa _)]
    simp
  unfold lowerComparison
  rw [bind_of_ok hsides]
  simp [bind_apply]

/-- The comparison that evaluates its right operand first. -/
theorem comparison_lt (hb : Lowers env b s ob lb mid)
    (ha : Lowers env a (s.advance lb mid) oa la hi) (hob : ob.isReference = false)
    (hoa : oa.isReference = false) (loc : Nat) :
    Lowers env (.binary loc .lt a b) s (.var (.named (.temp (hi + 1)) .integer))
      (lb ++ la ++ [.compare (.temp (hi + 1)) .lt oa.splice ob.splice]) (hi + 1) := by
  unfold Lowers node lowerBinary
  rw [if_pos (show BinaryOp.lt.isComparison = true from rfl)]
  have hsides : comparands .lt ⟨a, node env a⟩ ⟨b, node env b⟩ s =
      .ok (oa, ob, .temp (hi + 1)) (s.advance (lb ++ la) (hi + 1)) := by
    unfold comparands
    rw [if_pos rfl, bind_of_ok hb.eval_eq, bind_of_ok ha.eval_eq, bind_of_ok (freshTemp_apply _),
      bind_of_ok (deref_of_not_reference hoa _), bind_of_ok (deref_of_not_reference hob _)]
    simp
  unfold lowerComparison
  rw [bind_of_ok hsides]
  simp [bind_apply]

theorem disjunction
    (ha : Lowers env a (s.advance [] (s.temps + 1)) oa la mid)
    (hb : Lowers env b (s.advance (la ++ disjunctionMiddle (.temp (s.temps + 1)) oa.splice) mid)
      ob lb hi)
    (hoa : oa.isReference = false) (hob : ob.isReference = false) (loc : Nat) :
    Lowers env (.or loc a b) s (.var (.named (.temp (s.temps + 1)) .integer))
      (disjunctionLines (.temp (s.temps + 1)) oa.splice ob.splice la lb) hi := by
  have ha' := ha.evalDeref_eq hoa
  have hb' := hb.evalDeref_eq hob
  simp only [State.advance_advance, List.nil_append] at ha'
  unfold Lowers node lowerOr
  rw [bind_of_ok (freshTemp_apply s), State.freshTemp_eq, bind_of_ok ha',
    bind_of_ok (emitAll_apply _ _), State.emitAll_advance]
  unfold disjunctionMiddle at hb'
  rw [bind_of_ok hb']
  simp [bind_apply, disjunctionLines, ifElseLines, ifLines]

theorem conditional (hc : Lowers env c s oc lc mid)
    (ha : Lowers env a (s.advance (lc ++ [.openIf oc.splice]) (mid + 1)) oa la mid')
    (hb : Lowers env b (s.advance (lc ++ [.openIf oc.splice] ++ la ++
      conditionalMiddle (.temp (mid + 1)) oa.splice) mid') ob lb hi)
    (hoc : oc.isReference = false) (hoa : oa.isReference = false) (hob : ob.isReference = false)
    (hta : oa.valueType = .integer) (htb : ob.valueType = .integer) (loc : Nat) :
    Lowers env (.ternary loc c a b) s (.var (.named (.temp (mid + 1)) .integer))
      (conditionalLines (.temp (mid + 1)) oc.splice oa.splice ob.splice lc la lb) hi := by
  have ha' := ha.evalDeref_eq hoa
  have hb' := hb.evalDeref_eq hob
  simp only [State.advance_advance, conditionalMiddle, List.append_assoc,
    List.cons_append, List.nil_append] at ha' hb'
  unfold Lowers node lowerTernary
  rw [bind_of_ok (hc.evalDeref_eq hoc), bind_of_ok (freshTemp_apply _), State.freshTemp_advance,
    bind_of_ok (emit_apply _ _), State.emitAll_advance, bind_of_ok ha',
    bind_of_ok (emit_apply _ _), State.emitAll_advance, bind_of_ok (emit_apply _ _),
    State.emitAll_advance]
  simp only [List.append_assoc, List.cons_append, List.nil_append]
  rw [bind_of_ok hb']
  simp [bind_apply, Operand.isInteger, hta, htb, conditionalLines, ifElseLines]

end Lowers

/-! ## Every expression of integers -/

/-- The lowering of an expression of integers succeeds, and its code computes the expression. -/
theorem exists_lowers_computes (env : Env) {scopes : ScopeChain} {e : Node}
    (he : IsIntegerExpression scopes e) :
    ∀ s : State, s.scopes = scopes →
      ∃ o lines hi, Lowers env e s o lines hi ∧ Computes scopes e o lines s.temps hi := by
  induction he with
  | integer loc value =>
    intro s _
    refine ⟨.integer value, [], s.temps, ?_, Nat.le_refl _, trivial, .nil, ?_⟩
    · simp [Lowers, Gen.node, State.advance_self]
    · intro ops vars
      exact ⟨vars, value, .nil ops vars, .refl _ _ _, rfl, rfl⟩
  | @identifier loc name x hx =>
    intro s hs
    obtain ⟨hlookup, hproper⟩ := ScopeChain.lookup_of_integerVariable? hx
    refine ⟨.var (.named (.user x) .integer), [], s.temps, ?_, Nat.le_refl _, ?_, .nil, ?_⟩
    · unfold Lowers Gen.node
      rw [Gen.bind_of_ok (Gen.resolve_of_lookup (hs ▸ hlookup) _ _), State.advance_self]
      rfl
    · exact ⟨rfl, .user x, rfl, hproper, fun n hn => by cases hn⟩
    · intro ops vars
      exact ⟨vars, vars x, .nil ops vars, .refl _ _ _, by simp [Node.value?, hx], rfl⟩
  | @binary loc op a b hea heb iha ihb =>
    intro s hs
    by_cases hlt : op = .lt
    · -- The right operand is evaluated first, and so has the lower temporaries.
      subst hlt
      obtain ⟨ob, lb, mid, hlb, hcb⟩ := ihb s hs
      obtain ⟨oa, la, hi, hla, hca⟩ := iha (s.advance lb mid) hs
      refine ⟨_, _, _, hlb.comparison_lt hla hcb.settled.isReference_eq
        hca.settled.isReference_eq loc, hcb.combine hca hea rfl
        (f := fun _ w v => truthValue (BinaryOp.lt.holds v w)) ?_ ?_⟩
      · intro ops vars w v hw hv
        simp [Line.effect?, hv, hw]
      · intro ops vars w v hw hv
        simp [Node.value?, hv, hw, BinaryOp.value, BinaryOp.isComparison]
    · obtain ⟨oa, la, mid, hla, hca⟩ := iha s hs
      obtain ⟨ob, lb, hi, hlb, hcb⟩ := ihb (s.advance la mid) hs
      by_cases hop : op.isComparison = true
      · refine ⟨_, _, _, hla.comparison hlb hca.settled.isReference_eq
          hcb.settled.isReference_eq loc hop hlt, hca.combine hcb heb rfl
          (f := fun _ v w => truthValue (op.holds v w)) ?_ ?_⟩
        · intro ops vars v w hv hw
          simp [Line.effect?, hv, hw]
        · intro ops vars v w hv hw
          simp [Node.value?, hv, hw, BinaryOp.value, hop]
      · have hop' : op.isComparison = false := by simpa using hop
        refine ⟨_, _, _, hla.arithmetic hlb hca.settled.isReference_eq
          hcb.settled.isReference_eq hca.settled.valueType_eq hcb.settled.valueType_eq loc hop',
          hca.combine hcb heb rfl (f := fun ops v w => ops op v w) ?_ ?_⟩
        · intro ops vars v w hv hw
          simp [Line.effect?, hv, hw]
        · intro ops vars v w hv hw
          simp [Node.value?, hv, hw, BinaryOp.value, hop']
  | @or loc a b hea heb iha ihb =>
    intro s hs
    obtain ⟨oa, la, mid, hla, hca⟩ := iha (s.advance [] (s.temps + 1)) hs
    obtain ⟨ob, lb, hi, hlb, hcb⟩ := ihb
      (s.advance (la ++ disjunctionMiddle (.temp (s.temps + 1)) oa.splice) mid) hs
    exact ⟨_, _, _, hla.disjunction hlb hca.settled.isReference_eq hcb.settled.isReference_eq loc,
      hca.disjunction hcb heb loc⟩
  | @ternary loc c a b hec hea heb ihc iha ihb =>
    intro s hs
    obtain ⟨oc, lc, mid, hlc, hcc⟩ := ihc s hs
    obtain ⟨oa, la, mid', hla, hca⟩ := iha (s.advance (lc ++ [.openIf oc.splice]) (mid + 1)) hs
    obtain ⟨ob, lb, hi, hlb, hcb⟩ := ihb (s.advance (lc ++ [.openIf oc.splice] ++ la ++
      conditionalMiddle (.temp (mid + 1)) oa.splice) mid') hs
    exact ⟨_, _, _, hlc.conditional hla hlb hcc.settled.isReference_eq hca.settled.isReference_eq
      hcb.settled.isReference_eq hca.settled.valueType_eq hcb.settled.valueType_eq loc,
      hcc.conditional hca hcb hea heb loc⟩

/-- A state in which `x` is an integer variable and three temporaries are in use. -/
def sampleState : State :=
  { scopes := { root := [("x", .named (.user "x") .integer)] }, shared := { counters := ⟨3, 0⟩ } }

/-- The expression `x < (x || 2) ? x * 3 : -1`. -/
def sampleExpression : Node :=
  .ternary 0 (.binary 0 .lt (.identifier 0 "x") (.or 0 (.identifier 0 "x") (.integer 0 2)))
    (.binary 0 .mul (.identifier 0 "x") (.integer 0 3)) (.integer 0 (-1))

end BatchCompiler
