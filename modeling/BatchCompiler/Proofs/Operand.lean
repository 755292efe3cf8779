/-
# BatchCompiler.Proofs.Operand -- where the value of an expression is

Evaluating an expression leaves an operand. `Operand.IsLeftBy` says which, by the expression alone: a
literal leaves what it is, a name the variable that it stands for, an element its place, and what has
to be computed a temporary that the evaluation made up. An assignment leaves the value of its right
side. Where a value is wanted, a place is read into a temporary first (`Operand.IsReadBy`).
-/

import Mathlib.Data.List.Forall2
import BatchCompiler.Proofs.Compilation

namespace BatchCompiler

/-! ## Operands -/

/-- The name from whose variable the value of the expression is read. -/
def Node.readName? : Node → Option String
  | identifier _ name => some name
  | assign _ _ value => value.readName?
  | _ => none

/-- The variable is a temporary made up since `lo` were counted. -/
def Shared.MadeSince (lo : Nat) (shared : Shared) (x : Name) : Prop :=
  ∃ m, x = .temp m ∧ lo < m ∧ m ≤ shared.counters.temps

theorem Shared.MadeSince.mono {lo lo' : Nat} {shared shared' : Shared} {x : Name}
    (h : shared.MadeSince lo x) (hlo : lo' ≤ lo) (hext : shared.Extends shared') :
    shared'.MadeSince lo' x := by
  obtain ⟨m, rfl, hlt, hle⟩ := h
  exact ⟨m, rfl, Nat.lt_of_le_of_lt hlo hlt, Nat.le_trans hle hext.temps⟩

theorem State.madeSince_freshTemp (s : State) {lo : Nat} (hlo : lo ≤ s.shared.counters.temps) :
    s.freshTemp.2.shared.MadeSince lo s.freshTemp.1 :=
  ⟨_, rfl, Nat.lt_succ_of_le hlo, Nat.le_refl _⟩

namespace Operand

/-- The operand is the variable that the name is bound to; or else, if there is no name and it is a
variable at all, it is a temporary made up since `lo` were counted. -/
def IsReadOf (name : Option String) (lo : Nat) (shared : Shared) (o : Operand) : Prop :=
  match name with
  | some k => ∃ w, o = .var w ∧ shared.Admits k w
  | none => ∀ w x, o = .var w → w.storage = .named x → shared.MadeSince lo x

/-- The operand is a temporary made up since `lo` were counted. -/
def IsTemp (lo : Nat) (shared : Shared) (o : Operand) : Prop :=
  ∃ x ty, o = .var (.named x ty) ∧ shared.MadeSince lo x

/-- The operand `v` holds the value of `o`: it is `o` itself or, where that is a place, a temporary
into which the place has been read. -/
def IsValueOf (lo : Nat) (shared : Shared) (v o : Operand) : Prop :=
  if o.isReference then v.IsTemp lo shared else v = o

/-- Evaluating the node may leave this operand, if `lo` temporaries were counted before. -/
def IsLeftBy (lo : Nat) (shared : Shared) : Node → Operand → Prop
  | .integer _ value, o => o = .integer value
  | .string _ value, o => o = .text [.chars (escape value)]
  | .identifier _ k, o => ∃ v, o = .var v ∧ shared.Admits k v
  | .assign _ _ value, o => ∃ p, IsLeftBy lo shared value p ∧ o.IsValueOf lo shared p
  | .function _ (some k) _ _, o => o = .text [.name (.user k)]
  | .function _ none _ _, o => ∃ f, o = .text [.name f] ∧ shared.MadeSince lo f
  | .call _ callee _, o =>
    if Gen.isInclude callee then o = .text [.chars "include"] else o.IsTemp lo shared
  | .index _ base index, o =>
    ∃ b i : Operand, o = .reference (b.splice ++ .chars "." :: i.splice) ∧
      (∃ p, IsLeftBy lo shared base p ∧ b.IsValueOf lo shared p) ∧
      ∃ q, IsLeftBy lo shared index q ∧ i.IsValueOf lo shared q
  | .binary .., o | .or .., o | .ternary .., o | .step .., o | .array .., o => o.IsTemp lo shared
  | .program .., _ | .and .., _ | .branch .., _ | .loop .., _ | .ret .., _ => False

/-- The operand holds the value of the node. -/
def IsReadBy (lo : Nat) (shared : Shared) (n : Node) (v : Operand) : Prop :=
  ∃ o : Operand, o.IsLeftBy lo shared n ∧ v.IsValueOf lo shared o

variable {lo lo' : Nat} {shared shared' : Shared} {n : Node} {o p v : Operand}

theorem IsTemp.mono (h : o.IsTemp lo shared) (hlo : lo' ≤ lo) (hext : shared.Extends shared') :
    o.IsTemp lo' shared' := by
  obtain ⟨x, ty, rfl, hx⟩ := h
  exact ⟨x, ty, rfl, hx.mono hlo hext⟩

theorem IsValueOf.mono (h : v.IsValueOf lo shared o) (hlo : lo' ≤ lo)
    (hext : shared.Extends shared') : v.IsValueOf lo' shared' o := by
  unfold IsValueOf at h ⊢
  split
  next href =>
    rw [if_pos href] at h
    exact h.mono hlo hext
  next href =>
    rw [if_neg href] at h
    exact h

/-- What may be left may be left still when more has been made up. -/
theorem IsLeftBy.mono (h : o.IsLeftBy lo shared n) (hlo : lo' ≤ lo)
    (hext : shared.Extends shared') : o.IsLeftBy lo' shared' n := by
  induction n using Node.induction generalizing o with
  | integer l value => exact h
  | string l value => exact h
  | identifier l k =>
    obtain ⟨v, rfl, hv⟩ := h
    exact ⟨v, rfl, hv.mono hext⟩
  | assign l t value iht ih =>
    obtain ⟨p, hp, ho⟩ := h
    exact ⟨p, ih hp, ho.mono hlo hext⟩
  | function l name params body ih =>
    cases name with
    | some k => exact h
    | none =>
      obtain ⟨f, rfl, hf⟩ := h
      exact ⟨f, rfl, hf.mono hlo hext⟩
  | call l callee args ihf ih =>
    unfold IsLeftBy at h ⊢
    split
    next hinclude =>
      rw [if_pos hinclude] at h
      exact h
    next hinclude =>
      rw [if_neg hinclude] at h
      exact h.mono hlo hext
  | index l base index ihb ihi =>
    obtain ⟨b, i, rfl, ⟨p, hp, hb⟩, q, hq, hi⟩ := h
    exact ⟨b, i, rfl, ⟨p, ihb hp, hb.mono hlo hext⟩, q, ihi hq, hi.mono hlo hext⟩
  | binary | or | ternary | step | array => exact IsTemp.mono h hlo hext
  | program | and | branch | loop | ret => exact h.elim

theorem IsReadBy.mono (h : v.IsReadBy lo shared n) (hlo : lo' ≤ lo)
    (hext : shared.Extends shared') : v.IsReadBy lo' shared' n := by
  obtain ⟨o, ho, hv⟩ := h
  exact ⟨o, ho.mono hlo hext, hv.mono hlo hext⟩

theorem IsTemp.isReadOf (h : o.IsTemp lo shared) : o.IsReadOf none lo shared := by
  obtain ⟨x, ty, rfl, hx⟩ := h
  intro w y hw hy
  cases hw
  cases hy
  exact hx

/-- A place is not what a name is bound to, and it is read into a temporary. -/
theorem IsReadOf.value {name : Option String} (h : o.IsReadOf name lo shared)
    (hv : v.IsValueOf lo shared o) : v.IsReadOf name lo shared := by
  unfold IsValueOf at hv
  split at hv
  next href =>
    cases name with
    | some k =>
      obtain ⟨w, rfl, -⟩ := h
      cases href
    | none => exact hv.isReadOf
  next => exact hv ▸ h

/-- Where what is left is a variable, it is one that the node names, or a new temporary. -/
theorem IsLeftBy.isReadOf (h : o.IsLeftBy lo shared n) : o.IsReadOf n.readName? lo shared := by
  induction n using Node.induction generalizing o with
  | integer l value =>
    obtain rfl : o = .integer value := h
    exact nofun
  | string l value =>
    obtain rfl : o = .text [.chars (escape value)] := h
    exact nofun
  | identifier l k => exact h
  | assign l t value iht ih =>
    obtain ⟨p, hp, ho⟩ := h
    exact (ih hp).value ho
  | function l name params body ih =>
    cases name with
    | some k =>
      obtain rfl : o = .text [.name (.user k)] := h
      exact nofun
    | none =>
      obtain ⟨f, rfl, -⟩ := h
      exact nofun
  | call l callee args ihf ih =>
    unfold IsLeftBy at h
    split at h
    · subst h
      exact nofun
    · exact h.isReadOf
  | index l base index ihb ihi =>
    obtain ⟨b, i, rfl, -, -⟩ := h
    exact nofun
  | binary | or | ternary | step | array => exact IsTemp.isReadOf h
  | program | and | branch | loop | ret => exact h.elim

theorem IsReadBy.isReadOf (h : v.IsReadBy lo shared n) : v.IsReadOf n.readName? lo shared := by
  obtain ⟨o, ho, hv⟩ := h
  exact ho.isReadOf.value hv

end Operand

/-! ## Steps that push last -/

open Compilation Gen

variable {α : Type} {ns : List Node}

/-- The last thing that the step does is to push such an operand. -/
def Pushes (P : Operand → Prop) (m : Gen Unit) : Prop :=
  ∀ s t, m s = .ok () t → ∃ o rest, t.stack = o :: rest ∧ P o

/-- The step goes only through what can come about, and pushes such an operand last. -/
structure EndsWith (P : Operand → Prop) (m : Gen Unit) : Prop where
  obeys : Obeys contract [] m
  pushes : Pushes P m

/-- A step that succeeds leaves on top an operand of this kind, given how many temporaries were counted
before. -/
def Leaves (kind : Nat → Shared → Operand → Prop) (m : Gen Unit) : Prop :=
  ∀ s t, s.WellScoped → m s = .ok () t →
    ∃ o rest, t.stack = o :: rest ∧ kind s.temps t.shared o

/-- A step that succeeds leaves on top an operand which the node may leave. -/
abbrev LeavesFor (n : Node) : Gen Unit → Prop :=
  Leaves fun lo shared => Operand.IsLeftBy lo shared n

/-- The operand is a read of `x`. -/
abbrev Operand.IsVar (x : Name) (o : Operand) : Prop := ∃ ty, o = .var (.named x ty)

theorem obeys_nil {m : Gen α} (h : Obeys contract ns m) : Obeys contract [] m :=
  Contract.Sequential.regrade h fun _ _ hdone => hdone

theorem Pushes.push {P : Operand → Prop} {o : Operand} (h : P o) : Pushes P (Gen.push o) := by
  intro s t hrun
  cases hrun
  exact ⟨o, s.stack, rfl, h⟩

theorem Pushes.bind {P : Operand → Prop} {m : Gen α} {f : α → Gen Unit}
    (hf : ∀ a, Pushes P (f a)) : Pushes P (m >>= f) := by
  intro s t hrun
  obtain ⟨a, u, -, hrest⟩ := bind_eq_ok_iff.1 hrun
  exact hf a u t hrest

theorem EndsWith.push {P : Operand → Prop} {o : Operand} (h : P o) : EndsWith P (Gen.push o) :=
  ⟨sequential.push _, .push h⟩

theorem EndsWith.pushVar (x : Name) (ty : ValueType) :
    EndsWith (Operand.IsVar x) (Gen.pushVar x ty) :=
  .push ⟨ty, rfl⟩

theorem EndsWith.bind {P : Operand → Prop} {m : Gen α} {f : α → Gen Unit}
    (hm : Obeys contract ns m) (hf : ∀ a, EndsWith P (f a)) : EndsWith P (m >>= f) where
  obeys := sequential.andThen (obeys_nil hm) fun a _ => (hf a).obeys
  pushes := .bind fun a => (hf a).pushes

theorem Leaves.bind {m : Gen α} {f : α → Gen Unit} (hm : Obeys contract ns m)
    (hf : ∀ a, Leaves Operand.IsTemp (f a)) : Leaves Operand.IsTemp (m >>= f) := by
  intro s t hs h
  obtain ⟨a, u, hmu, hrest⟩ := bind_eq_ok_iff.1 h
  obtain ⟨hu, hext⟩ := scoped_of_obeys hm hs hmu
  obtain ⟨o, rest, hstack, ho⟩ := hf a u t hu hrest
  exact ⟨o, rest, hstack, ho.mono hext.temps (.refl _)⟩

/-- A temporary that the step makes up itself. -/
theorem Leaves.fresh {f : Name → Gen Unit} (hf : ∀ x, EndsWith (Operand.IsVar x) (f x)) :
    Leaves Operand.IsTemp (Gen.freshTemp >>= f) := by
  intro s t hs h
  rw [bind_of_ok (freshTemp_apply s)] at h
  have hu : s.freshTemp.2.WellScoped := hs.freshTemp
  obtain ⟨-, hext⟩ := scoped_of_obeys (hf _).obeys hu h
  obtain ⟨_, rest, hstack, ty, rfl⟩ := (hf _).pushes _ _ h
  refine ⟨_, rest, hstack, _, ty, rfl, ?_⟩
  exact (s.madeSince_freshTemp (Nat.le_refl _)).mono (Nat.le_refl _) hext

/-- An operand that is the same in every state. -/
theorem LeavesFor.push {n : Node} {o : Operand} (h : ∀ lo shared, o.IsLeftBy lo shared n) :
    LeavesFor n (Gen.push o) := by
  intro s t _ hrun
  cases hrun
  exact ⟨o, s.stack, rfl, h _ _⟩

/-! ## Steps that push nothing -/

/-- The step leaves no more operands than it has found. -/
def Shrinks (m : Gen α) : Prop := ∀ s a t, m s = .ok a t → t.stack.length ≤ s.stack.length

theorem Shrinks.bind {β : Type} {m : Gen α} {f : α → Gen β} (hm : Shrinks m)
    (hf : ∀ a, Shrinks (f a)) : Shrinks (m >>= f) := by
  intro s b t h
  obtain ⟨a, u, hmu, hrest⟩ := bind_eq_ok_iff.1 h
  exact Nat.le_trans (hf a u b t hrest) (hm s a u hmu)

theorem Shrinks.emitTo (segment : Segment) (line : Line) : Shrinks (Gen.emitTo segment line) := by
  intro s a t h
  cases h
  exact Nat.le_refl _

theorem Shrinks.emitAll (lines : List Line) : Shrinks (Gen.emitAll lines) := by
  intro s a t h
  rw [emitAll_apply] at h
  cases h
  exact Nat.le_refl _

theorem Shrinks.freshLabel : Shrinks Gen.freshLabel := by
  intro s a t h
  cases h
  exact Nat.le_refl _

theorem Shrinks.statement (m : Gen Unit) : Shrinks (Gen.statement m) := by
  intro s a t h
  unfold Gen.statement at h
  rw [bind_of_ok (get_apply s)] at h
  obtain ⟨_, u, -, hdrop⟩ := bind_eq_ok_iff.1 h
  cases hdrop
  show (u.stack.drop (u.stack.length - s.stack.length)).length ≤ s.stack.length
  rw [List.length_drop]
  omega

theorem Shrinks.block (ps : List Part) : Shrinks (Gen.block ps) := by
  induction ps with
  | nil =>
    intro s a t h
    cases h
    exact Nat.le_refl _
  | cons p ps ih => exact .bind (.statement p.gen) fun _ => ih

theorem Shrinks.eval (p : Part) : Shrinks (Gen.eval p) := by
  intro s o u h
  obtain ⟨t, rest, -, -, -, rfl⟩ := eval_eq_ok h
  show (t.stack.drop (t.stack.length - s.stack.length)).length ≤ s.stack.length
  rw [List.length_drop]
  omega

theorem Shrinks.deref (o : Operand) : Shrinks (Gen.deref o) := by
  intro s a t h
  cases o <;> cases h <;> exact Nat.le_refl _

theorem Shrinks.evalDeref (p : Part) : Shrinks (Gen.evalDeref p) :=
  .bind (.eval p) fun o => .deref o

/-! ## Constructs -/

theorem LeavesFor.identifier (loc : Nat) (k : String) :
    LeavesFor (.identifier loc k) (do Gen.push (.var (← Gen.resolve .standard loc k))) := by
  intro s t hs h
  obtain ⟨v, u, hresolve, hpush⟩ := bind_eq_ok_iff.1 h
  cases hpush
  refine ⟨.var v, u.stack, rfl, v, rfl, ?_⟩
  rcases resolve_cases loc k s with ⟨w, hw, hrun⟩ | ⟨w, -, hw, hrun⟩ | ⟨rfl, -, -, hrun⟩ | hrun
  · rw [hrun] at hresolve
    cases hresolve
    exact hs.of_lookup hw
  · rw [hrun] at hresolve
    cases hresolve
    exact .inr (.inr ⟨hw, (hs.builtin (Bindings.mem_of_get? hw)).2⟩)
  · rw [hrun] at hresolve
    cases hresolve
    have hmade : s.withProcess.shared.Made (.named s.freshTemp.1 .text) :=
      ⟨s.temps + 1, Nat.succ_pos _, Nat.le_refl _, rfl⟩
    exact .inr (.inr ⟨s.withProcess_emitted, hmade⟩)
  · rw [hrun] at hresolve
    cases hresolve

variable {ms ls : List Node} {a b c : Part}

theorem Leaves.sum (o p : Operand) : Leaves Operand.IsTemp (lowerSum o p) := by
  refine .fresh fun x => ?_
  show EndsWith (Operand.IsVar x) (if _ then _ else _)
  split
  · exact .bind (sequential.emitTo .code _ trivial) fun _ => .pushVar _ _
  · exact .bind (sequential.emitTo .code _ trivial) fun _ => .pushVar _ _

theorem Leaves.arithmetic (op : BinaryOp) (o p : Operand) :
    Leaves Operand.IsTemp (lowerArithmetic op o p) :=
  .fresh fun _ => .bind (sequential.emitTo .code _ trivial) fun _ => .pushVar _ _

theorem Leaves.comparison (op : BinaryOp) (ha : Obeys contract ms a.gen)
    (hb : Obeys contract ns b.gen) : Leaves Operand.IsTemp (lowerComparison op a b) := by
  unfold lowerComparison comparands
  split
  · simp only [bind_assoc, pure_bind]
    refine .bind (sequential.eval hb) fun p => .bind (sequential.eval ha) fun o => .fresh fun x => ?_
    refine .bind (sequential.deref o) fun _ => .bind (sequential.deref p) fun _ => ?_
    exact .bind (sequential.emitTo .code _ trivial) fun _ => .pushVar _ _
  · simp only [bind_assoc, pure_bind]
    refine .bind (sequential.eval ha) fun o => .bind (sequential.eval hb) fun p => .fresh fun x => ?_
    refine .bind (sequential.deref p) fun _ => .bind (sequential.deref o) fun _ => ?_
    exact .bind (sequential.emitTo .code _ trivial) fun _ => .pushVar _ _

theorem Leaves.binary (op : BinaryOp) (ha : Obeys contract ms a.gen) (hb : Obeys contract ns b.gen) :
    Leaves Operand.IsTemp (lowerBinary op a b) := by
  unfold lowerBinary
  split
  · exact .comparison op ha hb
  · refine .bind (sequential.eval ha) fun o => .bind (sequential.eval hb) fun p => ?_
    refine .bind (sequential.deref p) fun _ => .bind (sequential.deref o) fun _ => ?_
    show Leaves Operand.IsTemp (if _ then _ else _)
    split
    · exact .sum _ _
    · exact .arithmetic op _ _

theorem Leaves.disjunction (ha : Obeys contract ms a.gen) (hb : Obeys contract ns b.gen) :
    Leaves Operand.IsTemp (lowerOr a b) := by
  refine .fresh fun x => .bind (sequential.evalDeref ha) fun o => ?_
  refine .bind (sequential.emitLines (by simp [Line.IsOrdinary, contract])) fun _ => ?_
  refine .bind (sequential.evalDeref hb) fun p => ?_
  exact .bind (sequential.emitLines (by simp [Line.IsOrdinary, contract])) fun _ => .pushVar _ _

theorem Leaves.conditional (hc : Obeys contract ls c.gen) (ha : Obeys contract ms a.gen)
    (hb : Obeys contract ns b.gen) : Leaves Operand.IsTemp (lowerTernary c a b) := by
  refine .bind (sequential.evalDeref hc) fun o => .fresh fun x => ?_
  refine .bind (sequential.emitTo .code (.openIf _) trivial) fun _ => ?_
  refine .bind (sequential.evalDeref ha) fun p => ?_
  refine .bind (sequential.emitTo .code _ trivial) fun _ => ?_
  refine .bind (sequential.emitTo .code .openElse trivial) fun _ => ?_
  refine .bind (sequential.evalDeref hb) fun q => ?_
  refine .bind (sequential.emitTo .code _ trivial) fun _ => ?_
  exact .bind (sequential.emitTo .code .close trivial) fun _ => .pushVar _ _

theorem Leaves.call {args : List Part} (ha : Obeys contract ms a.gen)
    (hargs : Obeys contract ns (evalAll args)) : Leaves Operand.IsTemp (lowerCall a args) := by
  refine .bind (sequential.evalDeref ha) fun o => .bind hargs fun os => ?_
  refine .bind (sequential.derefAll os) fun _ => .fresh fun x => ?_
  exact .bind (sequential.emitTo .code _ trivial) fun _ => .pushVar _ _

theorem Leaves.step (op : StepOp) (ha : Obeys contract ms a.gen) :
    Leaves Operand.IsTemp (lowerStep op a) := by
  refine .bind (sequential.eval ha) fun o => .bind (sequential.stepTarget a.node o) fun place => ?_
  refine .bind (sequential.deref o) fun _ => .fresh fun x => ?_
  refine .bind (sequential.emitTo .code _ trivial) fun _ => ?_
  exact .bind (Contract.Sequential.emitIgnored (ignores Line.isStore) .code rfl) fun _ => .pushVar _ _

theorem Leaves.array {env : Env} {nodes : Node → List Node} {es : List Node}
    (h : ∀ n ∈ es, Obeys contract (nodes n) (node env n)) :
    Leaves Operand.IsTemp (lowerArray (parts env es)) := by
  refine .fresh fun x => .bind (sequential.emitTo .code _ trivial) fun _ => ?_
  refine .bind (sequential.elements x h 0) fun _ => ?_
  exact .bind (sequential.emitTo .code (.assign (.size _) _) trivial) fun _ => .pushVar _ _

/-! ## Values of parts -/

/-- Where the part can be evaluated, this leaves what its node may leave. -/
def Part.Evaluates (p : Part) : Prop :=
  ∀ s t o, s.WellScoped → eval p s = .ok o t → o.IsLeftBy s.temps t.shared p.node

theorem evaluates_of_leaves (h : LeavesFor a.node a.gen ∨ Shrinks a.gen) : a.Evaluates := by
  intro s t o hs heval
  obtain ⟨u, rest, hgen, hstack, hlength, rfl⟩ := eval_eq_ok heval
  rcases h with hleaves | hshrinks
  · obtain ⟨o', rest', hstack', ho⟩ := hleaves s u hs hgen
    rw [hstack] at hstack'
    cases hstack'
    exact ho
  · have hle := hshrinks s () u hgen
    omega

/-- Reading a place makes up a temporary; any other operand is its own value. -/
theorem isValueOf_of_deref {o v : Operand} {lo : Nat} {s t : State} (hlo : lo ≤ s.temps)
    (h : Gen.deref o s = .ok v t) : v.IsValueOf lo t.shared o := by
  cases o with
  | reference place =>
    cases h
    exact ⟨_, .text, rfl, s.madeSince_freshTemp hlo⟩
  | _ =>
    cases h
    rfl

theorem Part.Evaluates.read (h : a.Evaluates) (ha : Obeys contract ns a.gen) {s t : State}
    {v : Operand} (hs : s.WellScoped) (hrun : evalDeref a s = .ok v t) :
    v.IsReadBy s.temps t.shared a.node := by
  obtain ⟨o, u, heval, hderef⟩ := bind_eq_ok_iff.1 hrun
  obtain ⟨hu, hext⟩ := scoped_of_obeys (sequential.eval ha) hs heval
  obtain ⟨-, hext'⟩ := scoped_of_obeys (sequential.deref o) hu hderef
  exact ⟨o, (h s u o hs heval).mono (Nat.le_refl _) hext', isValueOf_of_deref hext.temps hderef⟩

/-! ## Constructs that leave other operands -/

/-- The place of an element is made of the values of its base and of its index. -/
theorem LeavesFor.index (l : Nat) (ha : a.Evaluates) (hb : b.Evaluates)
    (hna : Obeys contract ms a.gen) (hnb : Obeys contract ns b.gen) :
    LeavesFor (.index l a.node b.node) (lowerIndex a b) := by
  intro s t hs hrun
  obtain ⟨p, s₁, hbase, hafterBase⟩ := bind_eq_ok_iff.1 hrun
  obtain ⟨i, s₂, hindex, hafterIndex⟩ := bind_eq_ok_iff.1 hafterBase
  obtain ⟨v, s₃, hderef, hpush⟩ := bind_eq_ok_iff.1 hafterIndex
  cases hpush
  obtain ⟨hs₁, hext₁⟩ := scoped_of_obeys (sequential.eval hna) hs hbase
  obtain ⟨hs₂, hext₂⟩ := scoped_of_obeys (sequential.evalDeref hnb) hs₁ hindex
  obtain ⟨-, hext₃⟩ := scoped_of_obeys (sequential.deref p) hs₂ hderef
  have hp := (ha s s₁ p hs hbase).mono (Nat.le_refl _) (hext₂.trans hext₃)
  have hi := (hb.read hnb hs₁ hindex).mono hext₁.temps hext₃
  have hv := isValueOf_of_deref (Nat.le_trans hext₁.temps hext₂.temps) hderef
  exact ⟨_, s₃.stack, rfl, v, i, rfl, ⟨p, hp, hv⟩, hi⟩

theorem LeavesFor.function (loc : Nat) (name : Option String) (params : List String)
    (nodes : List Node) {body : List Part} (hb : Obeys contract ns (block body)) :
    LeavesFor (.function loc name params nodes) (lowerFunction loc name params body) := by
  intro s t hs hrun
  obtain ⟨f, s', hname, hrest⟩ := bind_eq_ok_iff.1 hrun
  have hs' := (scoped_of_obeys (sequential.functionName loc name) hs hname).1
  -- Behind the routine its name is pushed.
  have hlast : EndsWith (· = .text [.name f]) (do
      Gen.emit (.label (.behind f))
      Gen.push (.text [.name f])) :=
    .bind (Contract.Sequential.emitIgnored (ignores Line.isMark) .code rfl) fun _ => .push rfl
  have hpushes : EndsWith (· = .text [.name f]) (do
      Gen.emitTo .decl (.handle f)
      Gen.emitAll [.goto (.behind f), .label (.entry f), .enterFunction]
      Gen.inScope do
        declareParams 2 params
        block body
      unless body.getLast?.any (·.node.isReturn) do Gen.emitAll [.returnZero, .leaveFunction]
      Gen.emit (.label (.behind f))
      Gen.push (.text [.name f])) := by
    refine .bind (Contract.Sequential.emitIgnored (ignores Line.isMark) .decl rfl) fun _ => ?_
    refine .bind (sequential.emitAll fun line _ => ?_) fun _ => ?_
    · exact Contract.Sequential.emitIgnored (ignores fun _ _ => true) .code rfl
    refine .bind (sequential.inScope (sequential.andThen
      (sequential.declareParams (Nat.le_refl 2) params) fun _ _ => hb)) fun _ => ?_
    split
    · exact hlast
    · exact .bind (sequential.emitLines (by simp [Line.IsOrdinary])) fun _ => hlast
  obtain ⟨_, rest, hstack, rfl⟩ := hpushes.pushes _ _ hrest
  obtain ⟨-, hext⟩ := scoped_of_obeys hpushes.obeys hs' hrest
  refine ⟨_, rest, hstack, ?_⟩
  rcases functionName_eq_ok hname with ⟨rfl, rfl, rfl⟩ | ⟨k, rfl, rfl, -⟩
  · exact ⟨_, rfl, (s.madeSince_freshTemp (Nat.le_refl _)).mono (Nat.le_refl _) hext⟩
  · exact rfl

theorem lowerInclude_leaves (env : Env) (loc : Nat) (args : List Node) :
    Leaves (fun _ _ o => o = .text [.chars "include"]) (lowerInclude env loc args) := by
  unfold lowerInclude
  split
  next l path =>
    split
    · exact nofun
    next includeUnit _ =>
      intro s t _ h
      rw [bind_of_ok (get_apply s)] at h
      cases hunit : includeUnit (Path.join env.base path) s.shared with
      | error e =>
        rw [hunit] at h
        cases h
      | ok unit =>
        rw [hunit] at h
        cases h
        exact ⟨_, s.stack, rfl, rfl⟩
  next => exact nofun
  next => exact nofun

theorem LeavesFor.call (l : Nat) {env : Env} {n : Node} {args : List Node}
    (hn : Obeys contract ms (node env n)) (hargs : Obeys contract ns (evalAll (parts env args))) :
    LeavesFor (.call l n args) (node env (.call l n args)) := by
  intro s t hs hrun
  have hrun' : (if isInclude n then lowerInclude env l args
    else lowerCall ⟨n, node env n⟩ (parts env args)) s = .ok () t := hrun
  simp only [Operand.IsLeftBy]
  split at hrun'
  next hinclude =>
    simp only [if_pos hinclude]
    exact lowerInclude_leaves env l args s t hs hrun'
  next hinclude =>
    simp only [if_neg hinclude]
    exact Leaves.call hn hargs s t hs hrun'

/-- The value of an assignment is that of its right side. -/
theorem LeavesFor.assign (l : Nat) (ha : Obeys contract ms a.gen) (hb : Obeys contract ns b.gen)
    (hv : b.Evaluates) : LeavesFor (.assign l a.node b.node) (lowerAssign a b) := by
  intro s t hs h
  obtain ⟨v, s₁, place, s₂, hvalue, hplace, rfl⟩ := lowerAssign_eq_ok h
  have hscoped := (scoped_of_obeys (sequential.evalDeref hb) hs hvalue).1
  refine ⟨v, s₂.stack, rfl, (hv.read hb hs hvalue).mono (Nat.le_refl _) ?_⟩
  rcases hplace with ⟨loc, k, -, hplace⟩ | ⟨loc, base, index, o, -, hplace, -⟩
  · exact (scoped_of_obeys (sequential.nameTarget loc k v.valueType) hscoped hplace).2
  · exact (scoped_of_obeys (sequential.eval ha) hscoped hplace).2

/-! ## Constructs that leave nothing -/

theorem Shrinks.program (body : List Part) : Shrinks (lowerProgram body) :=
  .bind (.emitTo .init .echoOff) fun _ => .bind (.emitTo .init .deferExpansion) fun _ => .block body

theorem Shrinks.conjunction (a b : Part) : Shrinks (lowerAnd a b) := by
  refine .bind (.evalDeref a) fun o => .bind (.emitTo .code _) fun _ => ?_
  exact .bind (.statement b.gen) fun _ => .emitTo .code .close

theorem Shrinks.branch (c : Part) (thenBody elseBody : List Part) :
    Shrinks (lowerBranch c thenBody elseBody) := by
  refine .bind (.evalDeref c) fun o => .bind (.emitTo .code _) fun _ => .bind (.block _) fun _ => ?_
  split
  · exact .emitTo .code .close
  · refine .bind (.emitTo .code .openElse) fun _ => ?_
    exact .bind (.block _) fun _ => .emitTo .code .close

theorem Shrinks.loop (c : Part) (body : List Part) : Shrinks (lowerLoop c body) := by
  refine .bind .freshLabel fun l => .bind (.emitTo .code _) fun _ => .bind (.evalDeref c) fun o => ?_
  refine .bind (.emitTo .code _) fun _ => .bind (.block body) fun _ => ?_
  exact .bind (.emitTo .code _) fun _ => .emitTo .code .close

theorem Shrinks.ret (v : Part) : Shrinks (lowerReturn v) :=
  .bind (.evalDeref v) fun _ => .emitAll _

/-! ## Nodes -/

section Nodes

variable {setup : Setup}

/-- Generating a node leaves an operand which the node may leave, or none at all. -/
theorem node_leaves (h : setup.registry = .standard) (depth : Nat) (base : String)
    (n : Node) :
    LeavesFor n (node (setup.env depth base) n) ∨ Shrinks (node (setup.env depth base) n) := by
  have hnode := (lawful h).node depth base
  have heval : ∀ {m : Node}, (LeavesFor m (node (setup.env depth base) m) ∨
      Shrinks (node (setup.env depth base) m)) →
      Part.Evaluates ⟨m, node (setup.env depth base) m⟩ := fun hm => evaluates_of_leaves hm
  induction n using Node.induction with
  | program l body ih => exact .inr (.program _)
  | integer l v => exact .inl (.push fun _ _ => rfl)
  | string l v => exact .inl (.push fun _ _ => rfl)
  | identifier l x =>
    refine .inl ?_
    show LeavesFor _ (do push (.var (← Gen.resolve (setup.env depth base).registry l x)))
    rw [setup.registry_env, h]
    exact .identifier l x
  | binary l op a b iha ihb => exact .inl (Leaves.binary op (hnode a) (hnode b))
  | and l a b iha ihb => exact .inr (.conjunction _ _)
  | or l a b iha ihb => exact .inl (Leaves.disjunction (hnode a) (hnode b))
  | assign l t v iht ihv => exact .inl (.assign l (hnode t) (hnode v) (heval ihv))
  | branch l c t e ihc iht ihe => exact .inr (.branch _ _ _)
  | ternary l c t e ihc iht ihe => exact .inl (Leaves.conditional (hnode c) (hnode t) (hnode e))
  | loop l c body ihc ih => exact .inr (.loop _ _)
  | function l x ps body ih =>
    exact .inl (.function l x ps body (sequential.block fun n _ => hnode n))
  | call l f args ihf ih => exact .inl (.call l (hnode f) (sequential.evalAll fun n _ => hnode n))
  | ret l v ihv => exact .inr (.ret _)
  | step l op leading t iht => exact .inl (Leaves.step op (hnode t))
  | array l es ih => exact .inl (Leaves.array fun n _ => hnode n)
  | index l b i ihb ihi => exact .inl (.index l (heval ihb) (heval ihi) (hnode b) (hnode i))

theorem eval_isLeftBy (h : setup.registry = .standard) (depth : Nat) (base : String)
    {n : Node} {s t : State} {o : Operand} (hs : s.WellScoped)
    (heval : eval ⟨n, node (setup.env depth base) n⟩ s = .ok o t) : o.IsLeftBy s.temps t.shared n :=
  evaluates_of_leaves (node_leaves h depth base n) s t o hs heval

theorem evalDeref_isReadBy (h : setup.registry = .standard) (depth : Nat) (base : String)
    {n : Node} {s t : State} {v : Operand} (hs : s.WellScoped)
    (heval : evalDeref ⟨n, node (setup.env depth base) n⟩ s = .ok v t) :
    v.IsReadBy s.temps t.shared n :=
  (evaluates_of_leaves (node_leaves h depth base n)).read ((lawful h).node depth base n) hs heval

/-- The operands of arguments are left by the arguments, in their order. -/
theorem evalAll_isLeftBy (h : setup.registry = .standard) (depth : Nat) (base : String)
    {args : List Node} {s t : State} {os : List Operand} (hs : s.WellScoped)
    (hrun : evalAll (parts (setup.env depth base) args) s = .ok os t) :
    List.Forall₂ (Operand.IsLeftBy s.temps t.shared) args os := by
  have hnode := (lawful h).node depth base
  induction args generalizing s os with
  | nil =>
    cases hrun
    exact .nil
  | cons n args ih =>
    obtain ⟨o, s₁, heval, hrun⟩ := bind_eq_ok_iff.1 hrun
    obtain ⟨others, s₂, hothers, hrun⟩ := bind_eq_ok_iff.1 hrun
    cases hrun
    obtain ⟨hs₁, hext₁⟩ := scoped_of_obeys (sequential.eval (hnode n)) hs heval
    obtain ⟨-, hext₂⟩ := scoped_of_obeys (sequential.evalAll fun m _ => hnode m) hs₁ hothers
    refine .cons ((eval_isLeftBy h depth base hs heval).mono (Nat.le_refl _) hext₂) ?_
    exact (ih hs₁ hothers).imp fun _ _ hm => hm.mono hext₁.temps (.refl _)

end Nodes

/-- Operands that are read one after the other, the last one first, stay in their order. -/
theorem derefAll_isValueOf {os values : List Operand} {s t : State} {lo : Nat} (hlo : lo ≤ s.temps)
    (hs : s.WellScoped) (hrun : derefAll os s = .ok values t) :
    List.Forall₂ (fun o v => v.IsValueOf lo t.shared o) os values := by
  induction os generalizing t values with
  | nil =>
    cases hrun
    exact .nil
  | cons o os ih =>
    obtain ⟨rest, s₁, hrest, hrun⟩ := bind_eq_ok_iff.1 hrun
    obtain ⟨v, s₂, hderef, hrun⟩ := bind_eq_ok_iff.1 hrun
    cases hrun
    obtain ⟨hs₁, hext₁⟩ := scoped_of_obeys (sequential.derefAll os) hs hrest
    obtain ⟨-, hext₂⟩ := scoped_of_obeys (sequential.deref o) hs₁ hderef
    refine .cons (isValueOf_of_deref (Nat.le_trans hlo hext₁.temps) hderef) ?_
    exact (ih hrest).imp fun _ _ hv => hv.mono (Nat.le_refl _) hext₂

/-- The values of operands are read by the nodes that have left the operands. -/
theorem isReadBy_of_forall₂ {lo : Nat} {shared : Shared} {ns : List Node} {os values : List Operand}
    (hleft : List.Forall₂ (Operand.IsLeftBy lo shared) ns os)
    (hvalues : List.Forall₂ (fun o v => v.IsValueOf lo shared o) os values) :
    List.Forall₂ (Operand.IsReadBy lo shared) ns values := by
  induction hleft generalizing values with
  | nil =>
    cases hvalues
    exact .nil
  | cons ho _ ih =>
    cases hvalues with
    | cons hv hrest => exact .cons ⟨_, ho, hv⟩ (ih hrest)

/-! ## Places -/

/-- Where the value of the operand is kept, if it can be changed there. -/
def Operand.target? : Operand → Option Target
  | reference place => some (.location place)
  | var v => v.target?.map .var
  | _ => none

end BatchCompiler
