/-
# BatchCompiler.Proofs.Escaping -- what the carets protect

Escaping goes through a string character by character, so that it can be done in parts. It puts one
caret in front of a character that the shell would not leave alone, two in front of an exclamation
mark, and a caret is such a character as well. A run of carets in an escaped text is therefore cut
from the left: two of them stand for an exclamation mark if one follows, and otherwise the first one
stands in front of the second. No other cut is possible, because what is escaped never starts with an
exclamation mark (`head?_escaped`). So an escaped text can be read back, and no two strings have the
same one.
-/

import BatchCompiler.Script.Text

namespace BatchCompiler

theorem escape_append (s t : String) : escape (s ++ t) = escape s ++ escape t := by
  simp [escape]

theorem escape_join (texts : List String) :
    escape (String.join texts) = String.join (texts.map escape) := by
  induction texts with
  | nil => rfl
  | cons text texts ih => simp [escape_append, ih]

/-! ## Reading an escaped text -/

namespace Escaped

/-- An ASCII letter, an ASCII digit or a blank. -/
def IsBare (c : Char) : Prop :=
  ('A' ≤ c ∧ c ≤ 'Z') ∨ ('a' ≤ c ∧ c ≤ 'z') ∨ ('0' ≤ c ∧ c ≤ '9') ∨ c = ' '

instance (c : Char) : Decidable (IsBare c) :=
  inferInstanceAs (Decidable (_ ∨ _ ∨ _ ∨ _))

/-- Escaping leaves exactly these characters alone. -/
theorem isPlain_iff {c : Char} : isPlain c = true ↔ IsBare c := by
  have hupper : c.isUpper = true ↔ 'A' ≤ c ∧ c ≤ 'Z' := decide_eq_true_iff
  have hlower : c.isLower = true ↔ 'a' ≤ c ∧ c ≤ 'z' :=
    Bool.and_eq_true_iff.trans (and_congr decide_eq_true_iff decide_eq_true_iff)
  have hdigit : c.isDigit = true ↔ '0' ≤ c ∧ c ≤ '9' :=
    Bool.and_eq_true_iff.trans (and_congr decide_eq_true_iff decide_eq_true_iff)
  show ((c.isUpper || c.isLower || c.isDigit) || decide (c = ' ')) = true ↔ _
  rw [Bool.or_eq_true, Bool.or_eq_true, Bool.or_eq_true, hupper, hlower, hdigit,
    decide_eq_true_iff, or_assoc, or_assoc]
  rfl

/-- What a character of an escaped text is there for. -/
inductive Mark where
  /-- A caret that protects what stands behind it. -/
  | caret
  /-- A character of the string that was escaped. -/
  | meant (c : Char)
  deriving DecidableEq, Repr

/-- The character itself. -/
def Mark.char : Mark → Char
  | caret => '^'
  | meant c => c

/-- The character of the string that was escaped. -/
def Mark.meaning? : Mark → Option Char
  | caret => none
  | meant c => some c

/-- Reads an escaped text from left to right: two carets and an exclamation mark are taken together,
otherwise a caret and the character behind it, otherwise a letter, a digit or a blank by itself. -/
def marks? : List Char → Option (List Mark)
  | [] => some []
  | '^' :: '^' :: '!' :: cs => (marks? cs).map ([.caret, .caret, .meant '!'] ++ ·)
  | '^' :: c :: cs => (marks? cs).map ([.caret, .meant c] ++ ·)
  | c :: cs => if IsBare c then (marks? cs).map ([.meant c] ++ ·) else none

/-- The string of which this is the escaped text. -/
def decode? (text : String) : Option String :=
  (marks? text.toList).map fun marks => String.ofList (marks.filterMap Mark.meaning?)

/-- The marks on what escaping makes of one character. -/
def marksOf (c : Char) : List Mark :=
  if c = '!' then [.caret, .caret, .meant c] else if IsBare c then [.meant c] else [.caret, .meant c]

theorem meaning_marksOf (c : Char) : (marksOf c).filterMap Mark.meaning? = [c] := by
  unfold marksOf
  split
  · rfl
  · split <;> rfl

/-! ## Cutting a run of carets -/

/-- What is escaped does not start with an exclamation mark. -/
theorem head?_escapeChar (c : Char) (rest : List Char) :
    (escapeChar c ++ rest).head? ≠ some '!' := by
  have hcaret : some '^' ≠ some '!' := by decide
  unfold escapeChar
  split
  next => exact hcaret
  next hbang =>
    split
    · exact fun h => hbang (Option.some.inj h)
    · exact hcaret

theorem head?_escaped (cs rest : List Char) (hrest : rest.head? ≠ some '!') :
    (cs.flatMap escapeChar ++ rest).head? ≠ some '!' := by
  cases cs with
  | nil => exact hrest
  | cons c cs =>
    rw [List.flatMap_cons, List.append_assoc]
    exact head?_escapeChar c _

theorem marks?_caret {c : Char} {rest : List Char} (h : c = '^' → rest.head? ≠ some '!') :
    marks? ('^' :: c :: rest) = (marks? rest).map ([.caret, .meant c] ++ ·) := by
  rw [marks?]
  rintro cs hc rfl
  exact h hc rfl

theorem marks?_bare {c : Char} (hbare : IsBare c) (rest : List Char) :
    marks? (c :: rest) = (marks? rest).map ([.meant c] ++ ·) := by
  have hcaret : c ≠ '^' := by
    rintro rfl
    exact absurd hbare (by decide)
  simp [marks?, hcaret, hbare]

/-- What escaping makes of one character is read first, unless an exclamation mark behind it could
be taken for a part of it. -/
theorem marks?_escapeChar (c : Char) {rest : List Char} (hrest : rest.head? ≠ some '!') :
    marks? (escapeChar c ++ rest) = (marks? rest).map (marksOf c ++ ·) := by
  unfold escapeChar marksOf
  split
  next hbang =>
    subst hbang
    rfl
  next =>
    by_cases hbare : IsBare c
    · rw [if_pos (isPlain_iff.2 hbare), if_pos hbare]
      exact marks?_bare hbare rest
    · rw [if_neg (mt isPlain_iff.1 hbare), if_neg hbare]
      exact marks?_caret fun _ => hrest

/-- An escaped text is read as it was escaped. -/
theorem marks?_escaped (cs : List Char) {rest : List Char} (hrest : rest.head? ≠ some '!') :
    marks? (cs.flatMap escapeChar ++ rest) = (marks? rest).map (cs.flatMap marksOf ++ ·) := by
  induction cs with
  | nil => simp
  | cons c cs ih =>
    rw [List.flatMap_cons, List.append_assoc, marks?_escapeChar c (head?_escaped cs rest hrest), ih,
      Option.map_map]
    congr 1
    funext marks
    simp

theorem marks?_escape (s : String) :
    marks? (escape s).toList = some (s.toList.flatMap marksOf) := by
  have h := @marks?_escaped s.toList [] (by decide)
  simpa [escape, marks?] using h

theorem decode?_escape (s : String) : decode? (escape s) = some s := by
  have hmeant : (s.toList.flatMap marksOf).filterMap Mark.meaning? = s.toList := by
    rw [List.filterMap_flatMap]
    simp [meaning_marksOf]
  rw [decode?, marks?_escape, Option.map_some, hmeant, String.ofList_toList]

/-! ## What stands behind a caret -/

/-- The marks are those of the characters of the text, one by one. -/
theorem char_of_marks? {cs : List Char} {marks : List Mark} (h : marks? cs = some marks) :
    marks.map Mark.char = cs := by
  fun_induction marks? cs generalizing marks with
  | case1 =>
    cases h
    rfl
  | case2 cs ih =>
    obtain ⟨rest, hrest, rfl⟩ := Option.map_eq_some_iff.1 h
    simp [Mark.char, ih hrest]
  | case3 c cs _ ih =>
    obtain ⟨rest, hrest, rfl⟩ := Option.map_eq_some_iff.1 h
    simp [Mark.char, ih hrest]
  | case4 c cs _ _ _ ih =>
    obtain ⟨rest, hrest, rfl⟩ := Option.map_eq_some_iff.1 h
    simp [Mark.char, ih hrest]
  | case5 => cases h

/-- The character is meant only where it needs no caret or has one in front of it. -/
def Guarded (marks : List Mark) : Prop :=
  ∀ i c, marks[i]? = some (.meant c) → IsBare c ∨ ∃ j, i = j + 1 ∧ marks[j]? = some .caret

theorem Guarded.append {first second : List Mark} (h : Guarded first) (h' : Guarded second) :
    Guarded (first ++ second) := by
  intro i c hi
  rcases Nat.lt_or_ge i first.length with hlt | hge
  · rw [List.getElem?_append_left hlt] at hi
    refine (h i c hi).imp_right ?_
    rintro ⟨j, rfl, hj⟩
    exact ⟨j, rfl, by rw [List.getElem?_append_left (Nat.lt_of_succ_lt hlt), hj]⟩
  · rw [List.getElem?_append_right hge] at hi
    refine (h' _ c hi).imp_right ?_
    rintro ⟨j, hij, hj⟩
    refine ⟨first.length + j, by omega, ?_⟩
    rw [List.getElem?_append_right (Nat.le_add_right _ _), Nat.add_sub_cancel_left, hj]

theorem guarded_meant {c : Char} {n : Nat} (h : IsBare c ∨ 0 < n) :
    Guarded (List.replicate n .caret ++ [.meant c]) := by
  intro i d hi
  have hlast : i < n ∨ i = n ∨ n < i := Nat.lt_trichotomy i n
  rcases hlast with hlt | rfl | hgt
  · rw [List.getElem?_append_left (by simpa using hlt), List.getElem?_replicate, if_pos hlt] at hi
    cases hi
  · rw [List.getElem?_append_right (by simp)] at hi
    obtain rfl : c = d := by simpa using hi
    refine h.imp_right fun hpos => ⟨i - 1, by omega, ?_⟩
    rw [List.getElem?_append_left (by simp; omega), List.getElem?_replicate, if_pos (by omega)]
  · rw [List.getElem?_eq_none (by simp; omega)] at hi
    cases hi

/-- In a text that can be read, no character stands unprotected that needs a caret. -/
theorem guarded_of_marks? {cs : List Char} {marks : List Mark} (h : marks? cs = some marks) :
    Guarded marks := by
  fun_induction marks? cs generalizing marks with
  | case1 =>
    cases h
    intro i c hi
    cases hi
  | case2 cs ih =>
    obtain ⟨rest, hrest, rfl⟩ := Option.map_eq_some_iff.1 h
    exact (guarded_meant (n := 2) (.inr (Nat.succ_pos 1))).append (ih hrest)
  | case3 c cs _ ih =>
    obtain ⟨rest, hrest, rfl⟩ := Option.map_eq_some_iff.1 h
    exact (guarded_meant (n := 1) (.inr Nat.one_pos)).append (ih hrest)
  | case4 c cs _ _ hbare ih =>
    obtain ⟨rest, hrest, rfl⟩ := Option.map_eq_some_iff.1 h
    exact (guarded_meant (n := 0) (.inl hbare)).append (ih hrest)
  | case5 => cases h

end Escaped

/-! ## Escaping can be undone -/

/-- **Escaping can be undone.** It can be done part by part, an escaped text is read back from left
to right as what was escaped, so that no two strings are escaped alike, and each of its characters is
a letter, a digit or a blank, is a caret that protects what stands behind it, or stands right behind
such a caret. -/
theorem escaping_is_uniquely_decodable :
    (∀ s t : String, escape (s ++ t) = escape s ++ escape t) ∧
    (∀ s : String, Escaped.decode? (escape s) = some s) ∧
    Function.Injective escape ∧
    ∀ s : String, ∃ marks : List Escaped.Mark,
      Escaped.marks? (escape s).toList = some marks ∧
      marks.map Escaped.Mark.char = (escape s).toList ∧
      ∀ (i : Nat) (c : Char), (escape s).toList[i]? = some c →
        Escaped.IsBare c ∨ marks[i]? = some .caret ∨ ∃ j, i = j + 1 ∧ marks[j]? = some .caret := by
  refine ⟨escape_append, Escaped.decode?_escape, ?_, ?_⟩
  · intro s t hst
    have hdecoded := congrArg Escaped.decode? hst
    rw [Escaped.decode?_escape, Escaped.decode?_escape] at hdecoded
    exact Option.some.inj hdecoded
  · intro s
    have hread := Escaped.marks?_escape s
    have hchars := Escaped.char_of_marks? hread
    refine ⟨_, hread, hchars, ?_⟩
    intro i c hi
    rw [← hchars, List.getElem?_map] at hi
    obtain ⟨mark, hmark, rfl⟩ := Option.map_eq_some_iff.1 hi
    cases mark with
    | caret => exact .inr (.inl hmark)
    | meant c => exact (Escaped.guarded_of_marks? hread i c hmark).imp_right .inr

/-- Carets before an exclamation mark and behind one, some of the string and some that protect. -/
theorem carets_around_marks_undone :
    let text := "^^^^!^^!^^a"
    let marks : List Escaped.Mark :=
      [.caret, .meant '^', .caret, .caret, .meant '!', .caret, .caret, .meant '!', .caret, .meant '^',
        .meant 'a']
    escape ("^!" ++ "!^a") = text ∧ Escaped.decode? text = some "^!!^a" ∧
      (∀ s, escape s = text → s = "^!!^a") ∧
      Escaped.marks? text.toList = some marks ∧ marks.map Escaped.Mark.char = text.toList ∧
      ∀ i c, text.toList[i]? = some c →
        Escaped.IsBare c ∨ marks[i]? = some .caret ∨ ∃ j, i = j + 1 ∧ marks[j]? = some .caret := by
  intro text marks
  obtain ⟨-, hdecode, hinjective, hguarded⟩ := escaping_is_uniquely_decodable
  have htext : escape "^!!^a" = text := by decide +kernel
  have hread : Escaped.marks? text.toList = some marks := by decide +kernel
  obtain ⟨_, hread', hchars, hguards⟩ := hguarded "^!!^a"
  obtain rfl := Option.some.inj (hread'.symm.trans (htext ▸ hread))
  refine ⟨htext, htext ▸ hdecode _, ?_, hread, htext ▸ hchars, htext ▸ hguards⟩
  intro s hs
  exact hinjective (hs.trans htext.symm)

end BatchCompiler
