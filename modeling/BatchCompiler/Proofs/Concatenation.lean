/-
# BatchCompiler.Proofs.Concatenation -- sums of literals, folded or added by the script

A sum of integer and string literals can be worked out in two places. Folding does it before code is
generated, and writes the literal as an operand. Without folding the script does it, line by line:
integers are added, and everything else is put together as it is written. The type of the operand is
the same both ways, and so is its text, with one exception. The operand of a string literal is its
escaped text and the operand of an integer is its decimal as it is, but a folded string is escaped
after its parts have been put together. So the sign of a negative integer in a string gets a caret
if the sum is folded, and none if the script adds (`folded_text_eq_iff`).
-/

import Mathlib
import BatchCompiler.Proofs.Escaping
import BatchCompiler.Proofs.IntegerExpression
import BatchCompiler.Proofs.NormalForm
import BatchCompiler.Proofs.Overwrite

namespace BatchCompiler

/-! ## Variables that hold texts -/

/-- The texts of the variables, by spelling. -/
abbrev TextVars := String → String

/-- What the shell puts for a fragment when the line runs. It has nothing for the reads that are
replaced before. -/
def Fragment.expand? (vars : TextVars) : Fragment → Option String
  | chars text => some text
  | number value => some (toString value)
  | name x => some x.render
  | deferred x => some (vars x.render)
  | immediate _ => none
  | argument _ => none

/-- What the shell puts for a text when the line runs. -/
def Text.expand? (vars : TextVars) : Text → Option String
  | [] => some ""
  | f :: fs => do
    let first ← f.expand? vars
    let rest ← Text.expand? vars fs
    return first ++ rest

@[simp] theorem Text.expand?_singleton (vars : TextVars) (f : Fragment) :
    Text.expand? vars [f] = f.expand? vars := by
  cases h : f.expand? vars <;> simp [expand?, h]

/-- What a temporary reads. -/
theorem Operand.expand?_temp (vars : TextVars) (n : Nat) (ty : ValueType) :
    (Operand.var (.named (.temp n) ty)).splice.expand? vars = some (vars (Name.temp n).render) :=
  Text.expand?_singleton vars (.deferred (.temp n))

theorem Text.expand?_append {vars : TextVars} {a b : Text} {s t : String}
    (ha : a.expand? vars = some s) (hb : b.expand? vars = some t) :
    Text.expand? vars (a ++ b) = some (s ++ t) := by
  induction a generalizing s with
  | nil =>
    cases ha
    simpa using hb
  | cons f fs ih =>
    simp only [expand?, Option.bind_eq_bind, Option.bind_eq_some_iff] at ha
    obtain ⟨first, hfirst, rest, hrest, hs⟩ := ha
    cases hs
    simp [expand?, hfirst, ih hrest, String.append_assoc]

/-- What a line that assigns a text, or adds two integers, does to the variables. The sum is kept as
its decimal. -/
def Line.write? (vars : TextVars) : Line → Option TextVars
  | assign (.var x) value => do
    let text ← value.expand? vars
    return Function.update vars x.render text
  | compute (.var x) (.binary .add a b) => do
    let v ← (← a.expand? vars).toInt?
    let w ← (← b.expand? vars).toInt?
    return Function.update vars x.render (toString (v + w))
  | _ => none

/-- The temporaries up to `n` hold the same in both. -/
def KeepsTemps (n : Nat) (vars vars' : TextVars) : Prop :=
  ∀ m ≤ n, vars' (Name.temp m).render = vars (Name.temp m).render

theorem KeepsTemps.mono {n n' : Nat} {vars vars' : TextVars} (h : KeepsTemps n vars vars')
    (hle : n' ≤ n) : KeepsTemps n' vars vars' :=
  fun m hm => h m (Nat.le_trans hm hle)

theorem KeepsTemps.trans {n : Nat} {u v w : TextVars} (h : KeepsTemps n u v)
    (h' : KeepsTemps n v w) : KeepsTemps n u w :=
  fun m hm => (h' m hm).trans (h m hm)

theorem keepsTemps_update {n m : Nat} (vars : TextVars) (text : String) (h : n < m) :
    KeepsTemps n vars (Function.update vars (Name.temp m).render text) := by
  intro k hk
  apply Function.update_of_ne
  intro heq
  have hkm : Name.temp k = .temp m := Name.render_inj trivial trivial heq
  have := Name.temp.inj hkm
  omega

/-! ## Code that leaves a text -/

/-- Running the lines leaves the text where the operand reads it. They change no temporary up to
`lo`, and the operand depends on none after `hi`. -/
structure LeavesText (text : String) (o : Operand) (lines : List Line) (lo hi : Nat) : Prop where
  le : lo ≤ hi
  read : ∀ {vars vars'}, KeepsTemps hi vars vars' →
    o.splice.expand? vars' = o.splice.expand? vars
  run : ∀ vars, ∃ vars', lines.foldlM Line.write? vars = some vars' ∧ KeepsTemps lo vars vars' ∧
    o.splice.expand? vars' = some text

/-- An operand that no variable has a part in. -/
theorem LeavesText.constant {text : String} {o : Operand} (n : Nat)
    (h : ∀ vars, o.splice.expand? vars = some text) : LeavesText text o [] n n where
  le := Nat.le_refl n
  read := fun _ => by rw [h, h]
  run := fun vars => ⟨vars, rfl, fun _ _ => rfl, h vars⟩

/-- The code of two operands, and a line that puts what it makes of them into a new temporary. -/
theorem LeavesText.combine {s t text : String} {oa ob : Operand} {la lb : List Line}
    {lo mid hi : Nat} (ha : LeavesText s oa la lo mid) (hb : LeavesText t ob lb mid hi)
    (ty : ValueType) {line : Line}
    (hline : ∀ vars, oa.splice.expand? vars = some s → ob.splice.expand? vars = some t →
      line.write? vars = some (Function.update vars (Name.temp (hi + 1)).render text)) :
    LeavesText text (.var (.named (.temp (hi + 1)) ty)) (la ++ lb ++ [line]) lo (hi + 1) where
  le := Nat.le_succ_of_le (Nat.le_trans ha.le hb.le)
  read := by
    intro vars vars' hkeep
    rw [Operand.expand?_temp, Operand.expand?_temp, hkeep (hi + 1) (Nat.le_refl _)]
  run := by
    intro vars
    obtain ⟨vars₁, hrun₁, hkeep₁, hread₁⟩ := ha.run vars
    obtain ⟨vars₂, hrun₂, hkeep₂, hread₂⟩ := hb.run vars₁
    -- The second operand has its temporaries after those of the first.
    have hread : oa.splice.expand? vars₂ = some s := by rw [ha.read hkeep₂, hread₁]
    have hlo : lo < hi + 1 := Nat.lt_succ_of_le (Nat.le_trans ha.le hb.le)
    refine ⟨Function.update vars₂ (Name.temp (hi + 1)).render text, ?_, ?_, ?_⟩
    · simp [List.foldlM_append, hrun₁, hrun₂, hline vars₂ hread hread₂]
    · exact (hkeep₁.trans (hkeep₂.mono ha.le)).trans (keepsTemps_update vars₂ text hlo)
    · rw [Operand.expand?_temp, Function.update_self]

/-- A sum of which one operand is a text puts the two together. -/
theorem Lowers.concatenation {env : Env} {a b : Node} {s : State} {oa ob : Operand}
    {la lb : List Line} {mid hi : Nat} (ha : Lowers env a s oa la mid)
    (hb : Lowers env b (s.advance la mid) ob lb hi) (hoa : oa.isReference = false)
    (hob : ob.isReference = false) (htext : oa.valueType = .text ∨ ob.valueType = .text)
    (loc : Nat) :
    Lowers env (.binary loc .add a b) s (.var (.named (.temp (hi + 1)) .text))
      (la ++ lb ++ [.assign (.var (.temp (hi + 1))) (oa.splice ++ ob.splice)]) (hi + 1) := by
  unfold Lowers Gen.node Gen.lowerBinary
  rw [if_neg (by decide), Gen.bind_of_ok ha.eval_eq, Gen.bind_of_ok hb.eval_eq,
    Gen.bind_of_ok (Gen.deref_of_not_reference hob _),
    Gen.bind_of_ok (Gen.deref_of_not_reference hoa _), if_pos rfl]
  have hjoin : ValueType.join [oa.valueType, ob.valueType] = .text := by
    rcases htext with htext | htext <;> simp [ValueType.join, htext]
  have hnumbers : ¬ (oa.isInteger = true ∧ ob.isInteger = true) := by
    rcases htext with htext | htext <;> simp [Operand.isInteger, htext]
  simp [Gen.lowerSum, Gen.bind_apply, hjoin, hnumbers]

/-! ## Sums of literals -/

namespace Node

/-- The value of a node built from integer literals by `+`. -/
def total? : Node → Option Int
  | integer _ v => some v
  | binary _ .add a b => do
    let v ← a.total?
    let w ← b.total?
    return v + w
  | _ => none

/-- The node is built from integer and string literals by `+`, and every sum of integers in it is an
integer of the language. -/
inductive IsLiteralSum : Node → Prop
  | integer (loc : Nat) (v : Int) : IsLiteralSum (.integer loc v)
  | string (loc : Nat) (s : String) : IsLiteralSum (.string loc s)
  | add (loc : Nat) {a b : Node} (ha : IsLiteralSum a) (hb : IsLiteralSum b)
      (hfits : ∀ v w, a.total? = some v → b.total? = some w → fitsInteger (v + w) = true) :
      IsLiteralSum (.binary loc .add a b)

/-- What a sum of literals puts together: the strings, and the sums of integers that are not part of
larger ones. -/
def pieces : Node → List Value
  | integer _ v => [.number v]
  | string _ s => [.text s]
  | binary _ .add a b =>
    match a.total?, b.total? with
    | some v, some w => [.number (v + w)]
    | _, _ => a.pieces ++ b.pieces
  | _ => []

/-- No piece of a text is a negative integer. -/
def JoinsNoNegative (e : Node) : Prop :=
  e.total? = none → ∀ v, Value.number v ∈ e.pieces → 0 ≤ v

end Node

/-! ## The script's text -/

/-- What stands in the script for a piece. -/
def Value.written : Value → String
  | number v => toString v
  | text s => escape s

namespace Node

/-- The text that the script makes of a sum of literals. -/
def scriptText (e : Node) : String := String.join (e.pieces.map Value.written)

/-- The type of a sum of literals. -/
def sumType (e : Node) : ValueType := if e.total?.isSome then .integer else .text

variable {a b : Node} {v w : Int}

theorem pieces_of_total? {e : Node} (h : e.total? = some v) : e.pieces = [.number v] := by
  cases e with
  | integer l u =>
    cases h
    rfl
  | binary l op a b =>
    cases op with
    | add =>
      simp only [total?, Option.bind_eq_bind, Option.bind_eq_some_iff] at h
      obtain ⟨x, hx, y, hy, hv⟩ := h
      cases hv
      simp [pieces, hx, hy]
    | _ => cases h
  | _ => cases h

theorem scriptText_of_total? {e : Node} (h : e.total? = some v) : e.scriptText = toString v := by
  simp [scriptText, pieces_of_total? h, Value.written]

theorem total?_add (l : Nat) (ha : a.total? = some v) (hb : b.total? = some w) :
    (binary l .add a b).total? = some (v + w) := by
  simp [total?, ha, hb]

theorem total?_join (l : Nat) (h : a.total? = none ∨ b.total? = none) :
    (binary l .add a b).total? = none := by
  rcases h with h | h <;> simp [total?, h]

theorem pieces_join (l : Nat) (h : a.total? = none ∨ b.total? = none) :
    (binary l .add a b).pieces = a.pieces ++ b.pieces := by
  rw [pieces]
  split
  next v w hv hw => simp [hv, hw] at h
  next => rfl

theorem scriptText_join (l : Nat) (h : a.total? = none ∨ b.total? = none) :
    (binary l .add a b).scriptText = a.scriptText ++ b.scriptText := by
  simp [scriptText, pieces_join l h]

theorem sumType_eq_text_iff {e : Node} : e.sumType = .text ↔ e.total? = none := by
  cases h : e.total? <;> simp [sumType, h]

/-- Either a sum adds two integers, or one of its operands is a text. -/
theorem adds_or_joins (a b : Node) :
    (∃ v w, a.total? = some v ∧ b.total? = some w) ∨ a.total? = none ∨ b.total? = none := by
  cases a.total? with
  | none => exact .inr (.inl rfl)
  | some v =>
    cases b.total? with
    | none => exact .inr (.inr rfl)
    | some w => exact .inl ⟨v, w, rfl, rfl⟩

end Node

/-- Generating a sum of literals as it is succeeds, and the code leaves its text. -/
theorem exists_lowers_leavesText (env : Env) {e : Node} (he : e.IsLiteralSum) :
    ∀ s : State, ∃ o lines hi, Lowers env e s o lines hi ∧ o.isReference = false ∧
      o.valueType = e.sumType ∧ LeavesText e.scriptText o lines s.temps hi := by
  induction he with
  | integer loc v =>
    intro s
    refine ⟨.integer v, [], s.temps, ?_, rfl, rfl, .constant _ fun vars => ?_⟩
    · simp [Lowers, Gen.node, State.advance_self]
    · simp [Operand.splice, Fragment.expand?, Node.scriptText, Node.pieces, Value.written]
  | string loc text =>
    intro s
    refine ⟨.text [.chars (escape text)], [], s.temps, ?_, rfl, rfl, .constant _ fun vars => ?_⟩
    · simp [Lowers, Gen.node, State.advance_self]
    · simp [Operand.splice, Fragment.expand?, Node.scriptText, Node.pieces, Value.written]
  | @add loc a b _ _ _ iha ihb =>
    intro s
    obtain ⟨oa, la, mid, hla, hoa, hta, hwa⟩ := iha s
    obtain ⟨ob, lb, hi, hlb, hob, htb, hwb⟩ := ihb (s.advance la mid)
    obtain ⟨v, w, hv, hw⟩ | hjoins := Node.adds_or_joins a b
    · have htotal := Node.total?_add loc hv hw
      refine ⟨_, _, _, hla.arithmetic hlb hoa hob ?_ ?_ loc rfl, rfl, ?_,
        hwa.combine hwb .integer fun vars ha hb => ?_⟩
      · simp [hta, Node.sumType, hv]
      · simp [htb, Node.sumType, hw]
      · simp [Operand.valueType, Variable.named, Node.sumType, htotal]
      · rw [Node.scriptText_of_total? hv] at ha
        rw [Node.scriptText_of_total? hw] at hb
        simp [Line.write?, ha, hb, Int.toString_eq_repr, Node.scriptText_of_total? htotal]
    · refine ⟨_, _, _, hla.concatenation hlb hoa hob ?_ loc, rfl, ?_,
        hwa.combine hwb .text fun vars ha hb => ?_⟩
      · rwa [hta, htb, Node.sumType_eq_text_iff, Node.sumType_eq_text_iff]
      · exact (Node.sumType_eq_text_iff.2 (Node.total?_join loc hjoins)).symm
      · simp [Line.write?, Text.expand?_append ha hb, Node.scriptText_join loc hjoins]

/-! ## The folded text -/

/-- The literal that a sum of literals is folded to. -/
theorem Node.IsLiteralSum.fold_eq {e : Node} (he : e.IsLiteralSum) :
    e.fold = match e.total? with
      | some v => .integer e.loc v
      | none => .string e.loc (String.join (e.pieces.map Value.spelling)) := by
  induction he with
  | integer loc v => rfl
  | string loc s => simp [optimize, total?, pieces, Value.spelling, Node.loc]
  | @add loc a b _ _ hfits iha ihb =>
    show foldedSum loc a.fold b.fold = _
    rw [iha, ihb]
    cases hv : a.total? with
    | some v =>
      cases hw : b.total? with
      | some w => simp [foldedSum, hfits v w hv hw, total?_add loc hv hw, Node.loc]
      | none =>
        simp [foldedSum, total?_join loc (.inr hw), pieces_join loc (.inr hw), pieces_of_total? hv,
          Value.spelling, Node.loc]
    | none =>
      have hjoins : a.total? = none ∨ b.total? = none := .inl hv
      cases hw : b.total? with
      | some w =>
        simp [foldedSum, total?_join loc hjoins, pieces_join loc hjoins, pieces_of_total? hw,
          Value.spelling, Node.loc]
      | none => simp [foldedSum, total?_join loc hjoins, pieces_join loc hjoins, Node.loc]

theorem escape_of_digits {s : String} (h : ∀ c ∈ s.toList, c.isDigit = true) : escape s = s := by
  have hchar : ∀ c ∈ s.toList, escapeChar c = [c] := by
    intro c hc
    have hdigit := h c hc
    have hbang : c ≠ '!' := by
      rintro rfl
      cases hdigit
    simp [escapeChar, hbang, isPlain, Char.isAlphanum, hdigit]
  rw [escape, List.flatMap_congr hchar]
  simp

/-- The sign of an integer is escaped. -/
theorem escape_toString (v : Int) :
    escape (toString v) = if 0 ≤ v then toString v else "^" ++ toString v := by
  have hdigits : ∀ n : Nat, escape n.repr = n.repr := by
    intro n
    apply escape_of_digits
    intro c hc
    exact isDigit_of_mem_digits (by simpa using hc)
  rw [Int.toString_eq_repr, Int.repr_eq_if]
  split
  · exact hdigits _
  · rw [escape_append, hdigits]
    rfl

namespace Value

theorem escape_spelling_eq_iff (p : Value) :
    escape p.spelling = p.written ↔ ∀ v, p = .number v → 0 ≤ v := by
  cases p with
  | text s => simp [spelling, written]
  | number v =>
    simp only [spelling, written, escape_toString]
    split
    next h => simpa using h
    next h => simp [h]

theorem length_written_le (p : Value) : p.written.length ≤ (escape p.spelling).length := by
  cases p with
  | text s => exact Nat.le_refl _
  | number v =>
    simp only [spelling, written, escape_toString]
    split
    · exact Nat.le_refl _
    · simp

end Value

/-- Texts that are at least as long as others, piece by piece, are the same together only if they
are the same piece by piece. -/
theorem join_map_eq_iff {α : Type*} {f g : α → String} (hle : ∀ x, (g x).length ≤ (f x).length)
    (xs : List α) : String.join (xs.map f) = String.join (xs.map g) ↔ ∀ x ∈ xs, f x = g x := by
  constructor
  · intro h
    induction xs with
    | nil => simp
    | cons x xs ih =>
      rw [List.map_cons, List.map_cons, String.join_cons, String.join_cons] at h
      have hrest : (String.join (xs.map g)).length ≤ (String.join (xs.map f)).length := by
        simp only [String.length_join, List.map_map]
        exact List.sum_le_sum fun y _ => hle y
      have hlength : (f x).length = (g x).length := by
        have hsum := congrArg String.length h
        rw [String.length_append, String.length_append] at hsum
        have := hle x
        omega
      have hlists := congrArg String.toList h
      rw [String.toList_append, String.toList_append] at hlists
      rw [← String.length_toList, ← String.length_toList] at hlength
      obtain ⟨hx, hxs⟩ := List.append_inj hlists hlength
      exact List.forall_mem_cons.2 ⟨String.toList_inj.1 hx, ih (String.toList_inj.1 hxs)⟩
  · intro h
    rw [List.map_congr_left h]

/-- The folded operand and the script have the same text if no negative integer is part of a
string. -/
theorem Node.escape_join_eq_scriptText_iff (e : Node) :
    escape (String.join (e.pieces.map Value.spelling)) = e.scriptText ↔
      ∀ v, Value.number v ∈ e.pieces → 0 ≤ v := by
  rw [escape_join, List.map_map, scriptText,
    join_map_eq_iff (f := escape ∘ Value.spelling) Value.length_written_le]
  constructor
  · intro h v hv
    exact (Value.escape_spelling_eq_iff _).1 (h _ hv) v rfl
  · intro h p hp
    refine (Value.escape_spelling_eq_iff p).2 ?_
    rintro v rfl
    exact h v hp

/-- What a folded sum of literals is generated to: no lines, and an operand with its text. -/
theorem exists_operand_fold (env : Env) (s : State) {e : Node} (he : e.IsLiteralSum) :
    ∃ o, Gen.node env e.fold s = .ok () { s with stack := o :: s.stack } ∧
      o.valueType = e.sumType ∧ (o.splice.render = e.scriptText ↔ e.JoinsNoNegative) := by
  rw [he.fold_eq]
  cases h : e.total? with
  | some v =>
    refine ⟨.integer v, by simp [Gen.node], ?_, ?_⟩
    · simp [Operand.valueType, Node.sumType, h]
    · simp [Operand.splice, Fragment.render, Node.scriptText_of_total? h, Node.JoinsNoNegative, h]
  | none =>
    let text := escape (String.join (e.pieces.map Value.spelling))
    refine ⟨.text [.chars text], by simp [Gen.node, text], ?_, ?_⟩
    · simp [Operand.valueType, Node.sumType, h]
    · simp [Operand.splice, Fragment.render, text, Node.escape_join_eq_scriptText_iff,
        Node.JoinsNoNegative, h]

/-- **A sum of literals has the same type folded as added by the script, and the same text exactly
if it puts no negative integer into a string.** The folded sum is an operand without code. The code
of the sum as it is runs whatever the variables hold, and always leaves the same text. -/
theorem folded_text_eq_iff (env : Env) (s : State) {e : Node} (he : e.IsLiteralSum) :
    ∃ folded added lines t text,
      Gen.node env (e.optimize true) s = .ok () { s with stack := folded :: s.stack } ∧
      Gen.node env (e.optimize false) s = .ok () t ∧ t.stack = added :: s.stack ∧
      t.segments = { s.segments with code := s.segments.code ++ lines } ∧
      (∀ vars, ∃ vars', lines.foldlM Line.write? vars = some vars' ∧
        added.splice.expand? vars' = some text) ∧
      folded.valueType = added.valueType ∧
      (folded.splice.render = text ↔ e.JoinsNoNegative) := by
  obtain ⟨folded, hfolded, htype, htext⟩ := exists_operand_fold env s he
  obtain ⟨added, lines, hi, hlower, -, htype', hleaves⟩ := exists_lowers_leavesText env he s
  rw [e.optimize_false]
  refine ⟨folded, added, lines, _, e.scriptText, hfolded, hlower, rfl, rfl, ?_, ?_, htext⟩
  · intro vars
    obtain ⟨vars', hrun, -, hread⟩ := hleaves.run vars
    exact ⟨vars', hrun, hread⟩
  · rw [htype, htype']

/-- The expression `("#" + (-2 + 5)) + "!"`. -/
def numberedMark : Node :=
  .binary 0 .add (.binary 0 .add (.string 0 "#") (.binary 0 .add (.integer 0 (-2)) (.integer 0 5)))
    (.string 0 "!")

theorem numberedMark_same_text :
    numberedMark.IsLiteralSum ∧
    ∃ folded added lines t text,
      Gen.node ⟨.standard, ".", 64, none⟩ (numberedMark.optimize true) sampleState =
        .ok () { sampleState with stack := folded :: sampleState.stack } ∧
      Gen.node ⟨.standard, ".", 64, none⟩ (numberedMark.optimize false) sampleState = .ok () t ∧
      t.stack = added :: sampleState.stack ∧
      t.segments = { sampleState.segments with code := sampleState.segments.code ++ lines } ∧
      (∀ vars, ∃ vars', lines.foldlM Line.write? vars = some vars' ∧
        added.splice.expand? vars' = some text) ∧
      folded.valueType = added.valueType ∧ folded.splice.render = text := by
  have he : numberedMark.IsLiteralSum := by
    refine .add 0 (.add 0 (.string 0 "#") (.add 0 (.integer 0 (-2)) (.integer 0 5) ?_) ?_)
      (.string 0 "!") ?_
    · intro v w hv hw
      cases hv
      cases hw
      decide
    · intro v w hv
      cases hv
    · intro v w hv
      cases hv
  have hnone : numberedMark.JoinsNoNegative := by
    intro _ v hv
    have hpieces : numberedMark.pieces = [.text "#", .number 3, .text "!"] := by rfl
    simp [hpieces] at hv
    omega
  obtain ⟨folded, added, lines, t, text, hfolded, hadded, hstack, hlines, hrun, htype, htext⟩ :=
    folded_text_eq_iff ⟨.standard, ".", 64, none⟩ sampleState he
  exact ⟨he, folded, added, lines, t, text, hfolded, hadded, hstack, hlines, hrun, htype,
    htext.2 hnone⟩

/-- A source that adds a negative integer to a string. -/
def signedSource : String := "x = \"a\" + -5;"

/-- The lines of code for `signedSource` without folding. -/
def signedCode : List Line :=
  [.assign (.var (.temp 1)) [.chars "a", .number (-5)],
   .assign (.var (.user "x")) [.deferred (.temp 1)]]

/-- With folding, the one line assigns `a^-5`. Without, running the lines leaves `a-5`. -/
theorem folded_sign_gets_caret :
    Options.code? {} (fun _ => .error .notFound) signedSource =
      some [.assign (.var (.user "x")) [.chars "a^-5"]] ∧
    Options.code? { folding := false } (fun _ => .error .notFound) signedSource =
      some signedCode ∧
    ∀ vars, (signedCode.foldlM Line.write? vars).map (· "x") = some "a-5" := by
  refine ⟨by decide +kernel, by decide +kernel, ?_⟩
  intro vars
  rfl

end BatchCompiler
