/-
# BatchCompiler.Proofs.Munch -- the longest item at every place

What an item is can be said without reading it: a word or a number is a run that what follows does
not go on with, a comment ends at the first mark that ends it, a string at the first quote that no
backslash keeps, and a punctuator is the longest of the table that stands there (`Item.Stands`). A
text has at most one cut into such items, and `tokenize` finds it: its tokens are those among the
items, each at its offset, and where it fails no item stands (`tokenize_eq_iff_munched`).

The end of a string can also be looked for among the bytes of the source, where a backslash takes
only the first byte of the next character along and leaves the others behind. Nothing is lost by
this: these are no quotes, no backslashes and no line feeds (`stringEnd_utf8`).
-/

import Mathlib.Data.List.Forall2
import BatchCompiler.Proofs.Lexeme

namespace BatchCompiler

/-! ## Items by what they are -/

/-- The text does not go on with a character of the class. -/
def RunEnds (p : Char → Bool) (rest : List Char) : Prop := ∀ c ∈ rest.head?, p c = false

/-- Characters that do not end a string: none of them is a quote or a line feed, unless a backslash
stands before it that does not itself follow a backslash of this kind. -/
inductive QuotedBody : List Char → Prop
  | nil : QuotedBody []
  | plain {c : Char} {cs : List Char} : c ≠ '"' → c ≠ '\\' → c ≠ '\n' → QuotedBody cs →
      QuotedBody (c :: cs)
  | escaped (c : Char) {cs : List Char} : QuotedBody cs → QuotedBody ('\\' :: c :: cs)

/-- The item is formed in front of `rest`. -/
inductive Item.Stands (rest : List Char) : Item → Prop
  | blank {c : Char} : c ∈ [' ', '\t', '\n', '\x0c', '\r'] → Stands rest (.blank c)
  | lineComment {body : List Char} : '\n' ∉ body → RunEnds (· ≠ '\n') rest →
      Stands rest (.comment ('/' :: '/' :: body))
  | blockComment {body : List Char} : ¬ ['*', '/'] <:+: body ++ ['*'] →
      Stands rest (.comment ('/' :: '*' :: (body ++ ['*', '/'])))
  | word {c : Char} {cs : List Char} : isWordStart c = true → (∀ d ∈ cs, isWordPart d = true) →
      RunEnds isWordPart rest → Stands rest (.word (c :: cs))
  | number {digits : List Char} : digits ≠ [] → (∀ d ∈ digits, d.isDigit = true) →
      RunEnds Char.isDigit rest → decimalValue digits ≤ maxInteger → Stands rest (.number digits)
  | string {body : List Char} : QuotedBody body → Stands rest (.string ('"' :: (body ++ ['"'])))
  | punctuator {p : String} : p ∈ punctuators →
      (∀ q ∈ punctuators, q.toList <+: p.toList ++ rest → q.toList.length ≤ p.toList.length) →
      ¬ ['/', '/'] <+: p.toList ++ rest → ¬ ['/', '*'] <+: p.toList ++ rest →
      Stands rest (.punctuator p.toList)

/-- The problem keeps any item from being formed at the front of the text. -/
inductive LexProblem.Blocks : LexProblem → List Char → Prop
  | unterminatedComment {cs : List Char} : ¬ ['*', '/'] <:+: cs →
      Blocks .unterminatedComment ('/' :: '*' :: cs)
  | unterminatedString {cs : List Char} :
      (∀ body rest, QuotedBody body → cs ≠ body ++ '"' :: rest) →
      Blocks .unterminatedString ('"' :: cs)
  | numberTooLarge {digits rest : List Char} : digits ≠ [] → (∀ d ∈ digits, d.isDigit = true) →
      RunEnds Char.isDigit rest → maxInteger < decimalValue digits →
      Blocks .numberTooLarge (digits ++ rest)
  | invalidCharacter {c : Char} {cs : List Char} : c ∉ [' ', '\t', '\n', '\x0c', '\r'] →
      c.isDigit = false → isWordStart c = false → c ≠ '"' →
      (∀ p ∈ punctuators, ¬ p.toList <+: c :: cs) → Blocks (.invalidCharacter c) (c :: cs)

/-! ## Runs -/

theorem span_of_runEnds {p : Char → Bool} {cs rest : List Char} (h : ∀ c ∈ cs, p c = true)
    (hrest : RunEnds p rest) :
    (cs ++ rest).takeWhile p = cs ∧ (cs ++ rest).dropWhile p = rest := by
  rw [List.takeWhile_append_of_pos h, List.dropWhile_append_of_pos h]
  cases rest with
  | nil => simp
  | cons d rest => simp [hrest d rfl]

theorem runEnds_dropWhile (p : Char → Bool) (cs : List Char) : RunEnds p (cs.dropWhile p) := by
  intro c hc
  have hnot := List.head?_dropWhile_not p cs
  rw [Option.mem_def.1 hc] at hnot
  simpa using hnot

theorem of_mem_takeWhile {p : Char → Bool} {cs : List Char} : ∀ c ∈ cs.takeWhile p, p c = true :=
  List.all_eq_true.1 List.all_takeWhile

theorem isBlank_iff {c : Char} : isBlank c = true ↔ c ∈ [' ', '\t', '\n', '\x0c', '\r'] := by
  simp [isBlank]

/-! ## Block comments -/

theorem splitComment_of_first {body : List Char} (h : ¬ ['*', '/'] <:+: body ++ ['*'])
    (rest : List Char) :
    splitComment (body ++ '*' :: '/' :: rest) = some (body ++ ['*', '/'], rest) := by
  induction body with
  | nil => rfl
  | cons c body ih =>
    rw [List.cons_append, List.infix_cons_iff, not_or] at h
    -- The mark does not begin at `c`, not even with its second character behind the body.
    have hstart : ∀ cs, c = '*' → body ++ '*' :: '/' :: rest = '/' :: cs → False := by
      rintro cs rfl hcs
      refine h.1 ?_
      cases body with
      | nil => cases hcs
      | cons d body =>
        obtain ⟨rfl, -⟩ := List.cons.inj hcs
        exact ⟨body ++ ['*'], rfl⟩
    rw [List.cons_append, splitComment]
    · simp [ih h.2]
    · exact hstart

theorem first_of_splitComment {cs text rest : List Char}
    (h : splitComment cs = some (text, rest)) :
    ∃ body, text = body ++ ['*', '/'] ∧ ¬ ['*', '/'] <:+: body ++ ['*'] := by
  fun_induction splitComment cs generalizing text rest with
  | case1 cs =>
    cases h
    exact ⟨[], rfl, by decide⟩
  | case2 c cs hstart ih =>
    obtain ⟨⟨b, r⟩, hb, he⟩ := Option.map_eq_some_iff.1 h
    cases he
    obtain ⟨body, rfl, hfirst⟩ := ih hb
    refine ⟨c :: body, rfl, ?_⟩
    rw [List.cons_append, List.infix_cons_iff, not_or]
    refine ⟨?_, hfirst⟩
    rintro ⟨tail, htail⟩
    obtain ⟨rfl, hbody⟩ := List.cons.inj htail
    have hcs := splitComment_append hb
    cases body with
    | nil => cases hbody
    | cons d body =>
      obtain ⟨rfl, -⟩ := List.cons.inj hbody
      exact hstart (body ++ ['*', '/'] ++ rest) rfl hcs.symm
  | case3 => cases h

theorem splitComment_eq_none_iff {cs : List Char} :
    splitComment cs = none ↔ ¬ ['*', '/'] <:+: cs := by
  fun_induction splitComment cs with
  | case1 cs => simpa using ⟨[], cs, rfl⟩
  | case2 c cs hstart ih =>
    rw [Option.map_eq_none_iff, ih, List.infix_cons_iff, not_or]
    refine (and_iff_right ?_).symm
    rintro ⟨tail, htail⟩
    obtain ⟨hc, hcs⟩ := List.cons.inj htail
    exact hstart tail hc.symm hcs.symm
  | case3 => simp

/-! ## Strings -/

theorem splitString_of_quotedBody {body : List Char} (h : QuotedBody body) (rest : List Char) :
    splitString (body ++ '"' :: rest) = some (body ++ ['"'], rest) := by
  induction h with
  | nil => rfl
  | plain hquote hslash hline _ ih =>
    rw [List.cons_append, splitString]
    · simp [ih]
    all_goals simp [hquote, hslash, hline]
  | escaped c _ ih => simp [splitString, ih]

theorem quotedBody_of_splitString {cs text rest : List Char}
    (h : splitString cs = some (text, rest)) : ∃ body, text = body ++ ['"'] ∧ QuotedBody body := by
  fun_induction splitString cs generalizing text rest with
  | case1 cs =>
    cases h
    exact ⟨[], rfl, .nil⟩
  | case2 => cases h
  | case3 c cs ih =>
    obtain ⟨⟨b, r⟩, hb, he⟩ := Option.map_eq_some_iff.1 h
    cases he
    obtain ⟨body, rfl, hbody⟩ := ih hb
    exact ⟨_, rfl, .escaped c hbody⟩
  | case4 c cs hquote hline hslash ih =>
    obtain ⟨⟨b, r⟩, hb, he⟩ := Option.map_eq_some_iff.1 h
    cases he
    obtain ⟨body, rfl, hbody⟩ := ih hb
    -- A backslash that keeps no character is the last of the text, and no quote follows it.
    have hslash : c ≠ '\\' := by
      rintro rfl
      cases cs with
      | nil => cases hb
      | cons d cs => exact hslash d cs rfl rfl
    exact ⟨_, rfl, .plain hquote hslash hline hbody⟩
  | case5 => cases h

theorem splitString_eq_none_iff {cs : List Char} :
    splitString cs = none ↔ ∀ body rest, QuotedBody body → cs ≠ body ++ '"' :: rest := by
  constructor
  · rintro h body rest hbody rfl
    rw [splitString_of_quotedBody hbody] at h
    cases h
  · intro h
    rw [Option.eq_none_iff_forall_not_mem]
    rintro ⟨text, rest⟩ hsplit
    obtain ⟨body, rfl, hbody⟩ := quotedBody_of_splitString hsplit
    refine h body rest hbody ?_
    rw [← splitString_append hsplit, List.append_assoc]
    rfl

/-! ## Punctuators -/

/-- No punctuator stands in the table before a longer one. -/
theorem pairwise_punctuators :
    punctuators.Pairwise fun p q => q.toList.length ≤ p.toList.length := by decide +kernel

/-- The punctuator found is the longest that begins the text. -/
theorem longest_of_leadingPunctuator? {cs : List Char} {p : String}
    (h : leadingPunctuator? cs = some p) :
    p ∈ punctuators ∧ ∀ q ∈ punctuators, q.toList <+: cs → q.toList.length ≤ p.toList.length := by
  refine ⟨List.mem_of_find?_eq_some h, ?_⟩
  obtain ⟨-, before, after, htable, hbefore⟩ := List.find?_eq_some_iff_append.1 h
  intro q hq hbegins
  have hpairwise := pairwise_punctuators
  rw [htable] at hq hpairwise
  rcases List.mem_append.1 hq with hq | hq
  · simpa [ List.isPrefixOf_iff_prefix.2 hbegins] using hbefore q hq
  · rcases List.mem_cons.1 hq with rfl | hq
    · exact Nat.le_refl _
    · exact (List.pairwise_cons.1 (List.pairwise_append.1 hpairwise).2.1).1 q hq

theorem leadingPunctuator?_of_longest {p : String} (hp : p ∈ punctuators) {rest : List Char}
    (h : ∀ q ∈ punctuators, q.toList <+: p.toList ++ rest → q.toList.length ≤ p.toList.length) :
    leadingPunctuator? (p.toList ++ rest) = some p := by
  have hbegins : p.toList <+: p.toList ++ rest := List.prefix_append _ _
  cases hfound : leadingPunctuator? (p.toList ++ rest) with
  | none =>
    have hnone := List.find?_eq_none.1 hfound p hp
    exact absurd ( List.isPrefixOf_iff_prefix.2 hbegins) hnone
  | some q =>
    obtain ⟨hq, hlongest⟩ := longest_of_leadingPunctuator? hfound
    have hqbegins := isPrefix_of_leadingPunctuator? hfound
    have hlength : q.toList.length = p.toList.length :=
      Nat.le_antisymm (h q hq hqbegins) (hlongest p hp hbegins)
    have hpq := List.prefix_of_prefix_length_le hqbegins hbegins (Nat.le_of_eq hlength)
    rw [String.toList_inj.1 (hpq.eq_of_length hlength)]

theorem leadingPunctuator?_eq_none_iff {cs : List Char} :
    leadingPunctuator? cs = none ↔ ∀ p ∈ punctuators, ¬ p.toList <+: cs := by
  simp only [leadingPunctuator?, List.find?_eq_none, List.isPrefixOf_iff_prefix]

/-- A punctuator begins with a character with which no other kind of item begins, comments apart. -/
theorem first_of_mem_punctuators {p : String} (h : p ∈ punctuators) {c : Char} {cs : List Char}
    (hp : p.toList = c :: cs) :
    isBlank c = false ∧ c.isDigit = false ∧ isWordStart c = false ∧ c ≠ '"' := by
  -- A Boolean test, since a quantifier over characters is decided by running through all of them.
  have hchars : ∀ p ∈ punctuators, (p.toList.head?.all fun c =>
      !isBlank c && !c.isDigit && !isWordStart c && c != '"') = true := by decide +kernel
  simpa [hp, and_assoc] using hchars p h

/-! ## One item -/

/-- At the front of a text an item stands that is read, or a problem is named that blocks it. -/
theorem scanItem_cases (c : Char) (cs : List Char) :
    (∃ item rest, scanItem c cs = .ok (item, rest) ∧ item.Stands rest) ∨
      ∃ problem, scanItem c cs = .error problem ∧ problem.Blocks (c :: cs) := by
  unfold scanItem
  split
  next hblank => exact .inl ⟨_, _, rfl, .blank (isBlank_iff.1 hblank)⟩
  next hblank =>
  split
  next hline =>
    obtain ⟨rfl, hhead⟩ := hline
    obtain ⟨ds, rfl⟩ := List.head?_eq_some_iff.1 hhead
    refine .inl ⟨_, _, rfl, ?_⟩
    rw [List.takeWhile_cons_of_pos (by decide)]
    refine .lineComment ?_ (runEnds_dropWhile _ _)
    exact fun hmem => absurd (of_mem_takeWhile _ hmem) (by decide)
  next hline =>
  split
  next hblock =>
    obtain ⟨rfl, hhead⟩ := hblock
    obtain ⟨ds, rfl⟩ := List.head?_eq_some_iff.1 hhead
    split
    next hnone => exact .inr ⟨_, rfl, .unterminatedComment (splitComment_eq_none_iff.1 hnone)⟩
    next text rest hsome =>
      obtain ⟨body, rfl, hfirst⟩ := first_of_splitComment hsome
      exact .inl ⟨_, _, rfl, .blockComment hfirst⟩
  next hblock =>
  split
  next hdigit =>
    have hall : ∀ d ∈ c :: cs.takeWhile Char.isDigit, d.isDigit = true := by
      rw [List.forall_mem_cons]
      exact ⟨hdigit, of_mem_takeWhile⟩
    split
    next hle =>
      exact .inl ⟨_, _, rfl, .number (List.cons_ne_nil _ _) hall (runEnds_dropWhile _ _) hle⟩
    next hle =>
      have hblocks := LexProblem.Blocks.numberTooLarge (List.cons_ne_nil _ _) hall
        (runEnds_dropWhile Char.isDigit cs) (Int.not_le.1 hle)
      rw [List.cons_append, List.takeWhile_append_dropWhile] at hblocks
      exact .inr ⟨_, rfl, hblocks⟩
  next hdigit =>
  split
  next hword =>
    exact .inl ⟨_, _, rfl, .word hword of_mem_takeWhile (runEnds_dropWhile _ _)⟩
  next hword =>
  split
  next hquote =>
    subst hquote
    split
    next hnone => exact .inr ⟨_, rfl, .unterminatedString (splitString_eq_none_iff.1 hnone)⟩
    next text rest hsome =>
      obtain ⟨body, rfl, hbody⟩ := quotedBody_of_splitString hsome
      exact .inl ⟨_, _, rfl, .string hbody⟩
  next hquote =>
  split
  next p hp =>
    obtain ⟨hmem, hlongest⟩ := longest_of_leadingPunctuator? hp
    obtain ⟨rest, hrest⟩ := isPrefix_of_leadingPunctuator? hp
    refine .inl ⟨_, _, rfl, ?_⟩
    rw [← hrest] at hlongest
    rw [← hrest, List.drop_left]
    refine .punctuator hmem hlongest ?_ ?_
    · rw [hrest]
      rintro ⟨tail, htail⟩
      obtain ⟨rfl, rfl⟩ := List.cons.inj htail
      exact hline ⟨rfl, rfl⟩
    · rw [hrest]
      rintro ⟨tail, htail⟩
      obtain ⟨rfl, rfl⟩ := List.cons.inj htail
      exact hblock ⟨rfl, rfl⟩
  next hnone =>
    refine .inr ⟨_, rfl, .invalidCharacter ?_ ?_ ?_ hquote (leadingPunctuator?_eq_none_iff.1 hnone)⟩
    · rwa [← isBlank_iff]
    · simpa using hdigit
    · simpa using hword

/-- An item that stands in a text is the one that is read. -/
theorem scanItem_of_stands {item : Item} {rest : List Char} (h : item.Stands rest) :
    ∃ c cs, item.text ++ rest = c :: cs ∧ scanItem c cs = .ok (item, rest) := by
  cases h with
  | blank hc => exact ⟨_, _, rfl, by simp [scanItem, isBlank_iff.2 hc]⟩
  | @lineComment body hbody hrest =>
    refine ⟨_, _, rfl, ?_⟩
    have hall : ∀ d ∈ '/' :: body, decide (d ≠ '\n') = true := by
      rw [List.forall_mem_cons]
      refine ⟨by decide, ?_⟩
      intro d hd
      rw [decide_eq_true_iff]
      rintro rfl
      exact hbody hd
    obtain ⟨htake, hdrop⟩ := span_of_runEnds hall hrest
    unfold scanItem
    rw [if_neg (by decide), if_pos ⟨rfl, rfl⟩]
    exact congrArg Except.ok (Prod.ext (congrArg (Item.comment ∘ List.cons '/') htake) hdrop)
  | @blockComment body hbody =>
    refine ⟨_, _, rfl, ?_⟩
    have hsplit := splitComment_of_first hbody rest
    unfold scanItem
    rw [if_neg (by decide), if_neg (by simp), if_pos ⟨rfl, rfl⟩]
    simp [hsplit]
  | @word c cs hc hcs hrest =>
    refine ⟨_, _, rfl, ?_⟩
    obtain ⟨htake, hdrop⟩ := span_of_runEnds hcs hrest
    obtain ⟨hblank, hslash⟩ := plain_of_class (by decide) hc
    simp [scanItem, hblank, hslash, isDigit_of_isWordStart hc, hc, htake, hdrop]
  | @number digits hdigits hall hrest hle =>
    obtain ⟨c, cs, rfl⟩ := List.exists_cons_of_ne_nil hdigits
    rw [List.forall_mem_cons] at hall
    refine ⟨_, _, rfl, ?_⟩
    obtain ⟨htake, hdrop⟩ := span_of_runEnds hall.2 hrest
    obtain ⟨hblank, hslash⟩ := plain_of_class (by decide) hall.1
    simp [scanItem, hblank, hslash, hall.1, htake, hdrop, hle]
  | @string body hbody =>
    refine ⟨_, _, rfl, ?_⟩
    have hsplit := splitString_of_quotedBody hbody rest
    simp [scanItem, isBlank, isWordStart, hsplit]
  | @punctuator p hp hlongest hline hblock =>
    obtain ⟨c, cs, hchars⟩ := List.exists_cons_of_ne_nil (ne_nil_of_mem_punctuators hp)
    have hfound := leadingPunctuator?_of_longest hp hlongest
    obtain ⟨hblank, hdigit, hword, hquote⟩ := first_of_mem_punctuators hp hchars
    rw [hchars] at hline hblock hfound
    rw [hchars]
    refine ⟨c, cs ++ rest, rfl, ?_⟩
    have hcomment : ∀ d, ¬ ['/', d] <+: c :: cs ++ rest → ¬ (c = '/' ∧ (cs ++ rest).head? = some d) := by
      rintro d hd ⟨rfl, hhead⟩
      obtain ⟨tail, htail⟩ := List.head?_eq_some_iff.1 hhead
      exact hd ⟨tail, congrArg (List.cons '/') htail.symm⟩
    unfold scanItem
    rw [if_neg (by simp [hblank]), if_neg (hcomment _ hline), if_neg (hcomment _ hblock),
      if_neg (by simp [hdigit]), if_neg (by simp [hword]), if_neg hquote]
    rw [List.cons_append] at hfound
    simp [hfound, hchars]

/-- Where a problem blocks, it is the one that is reported. -/
theorem scanItem_of_blocks {problem : LexProblem} {text : List Char} (h : problem.Blocks text) :
    ∃ c cs, text = c :: cs ∧ scanItem c cs = .error problem := by
  cases h with
  | unterminatedComment hnone =>
    refine ⟨_, _, rfl, ?_⟩
    unfold scanItem
    rw [if_neg (by decide), if_neg (by simp), if_pos ⟨rfl, rfl⟩]
    simp [splitComment_eq_none_iff.2 hnone]
  | unterminatedString hnone =>
    refine ⟨_, _, rfl, ?_⟩
    simp [scanItem, isBlank, isWordStart, splitString_eq_none_iff.2 hnone]
  | @numberTooLarge digits rest hdigits hall hrest hlarge =>
    obtain ⟨c, cs, rfl⟩ := List.exists_cons_of_ne_nil hdigits
    rw [List.forall_mem_cons] at hall
    refine ⟨_, _, rfl, ?_⟩
    obtain ⟨htake, -⟩ := span_of_runEnds hall.2 hrest
    obtain ⟨hblank, hslash⟩ := plain_of_class (by decide) hall.1
    simp [scanItem, hblank, hslash, hall.1, htake, Int.not_le.2 hlarge]
  | @invalidCharacter c cs hblank hdigit hword hquote hnone =>
    refine ⟨_, _, rfl, ?_⟩
    have hslash : c ≠ '/' := by
      rintro rfl
      exact hnone "/" (by decide) ⟨cs, rfl⟩
    rw [← isBlank_iff, Bool.not_eq_true] at hblank
    simp [scanItem, hblank, hslash, hdigit, hword, hquote, leadingPunctuator?_eq_none_iff.2 hnone]

/-- Where a problem blocks, no item stands. -/
theorem not_stands_of_blocks {problem : LexProblem} {text : List Char} (h : problem.Blocks text)
    {item : Item} {rest : List Char} (htext : text = item.text ++ rest) : ¬ item.Stands rest := by
  intro hstands
  obtain ⟨c, cs, hcs, herror⟩ := scanItem_of_blocks h
  obtain ⟨d, ds, hds, hok⟩ := scanItem_of_stands hstands
  obtain ⟨rfl, rfl⟩ := List.cons.inj (hcs.symm.trans (htext.trans hds))
  rw [herror] at hok
  cases hok

/-! ## Rows of items -/

/-- The text begins with the items, each formed in front of what follows it, and `rest` is left. -/
inductive Munches : List Char → List Item → List Char → Prop
  | done (rest : List Char) : Munches rest [] rest
  | item {item : Item} {items : List Item} {after rest : List Char} : item.Stands after →
      Munches after items rest → Munches (item.text ++ after) (item :: items) rest

theorem Munches.append {cs rest : List Char} {items : List Item} (h : Munches cs items rest) :
    items.flatMap Item.text ++ rest = cs := by
  induction h with
  | done rest => rfl
  | item _ _ ih => rw [List.flatMap_cons, List.append_assoc, ih]

/-- An item of a cut stands in front of what follows it there. -/
theorem Munches.stands_between {before after : List Item} {item : Item} {cs rest : List Char}
    (h : Munches cs (before ++ item :: after) rest) :
    item.Stands (after.flatMap Item.text ++ rest) := by
  induction before generalizing cs with
  | nil =>
    cases h with
    | item hstands hafter => rwa [hafter.append]
  | cons first before ih =>
    cases h with
    | item _ hrest => exact ih hrest

theorem scan_of_munches {cs rest : List Char} {items : List Item} (h : Munches cs items rest) :
    scan cs = (items ++ (scan rest).1, (scan rest).2) := by
  induction h with
  | done rest => rfl
  | item hstands _ ih =>
    obtain ⟨c, cs, hcs, hitem⟩ := scanItem_of_stands hstands
    rw [hcs, scan_of_scanItem hitem, ih]
    rfl

theorem scan_of_blocks {cs : List Char} {problem : LexProblem} (h : problem.Blocks cs) :
    scan cs = ([], some problem) := by
  obtain ⟨c, cs, rfl, herror⟩ := scanItem_of_blocks h
  rw [scan]
  split
  next problem' hproblem =>
    rw [herror] at hproblem
    cases hproblem
    rfl
  next item rest hok =>
    rw [herror] at hok
    cases hok

/-- The items found are formed one after the other, up to the end or to a place that is blocked. -/
theorem munches_scan (cs : List Char) :
    ((scan cs).2 = none ∧ Munches cs (scan cs).1 []) ∨
      ∃ problem rest, (scan cs).2 = some problem ∧ Munches cs (scan cs).1 rest ∧
        problem.Blocks rest := by
  fun_induction scan cs with
  | case1 => exact .inl ⟨rfl, .done []⟩
  | case2 c cs problem hitem =>
    rcases scanItem_cases c cs with ⟨item, rest, hok, -⟩ | ⟨problem', herror, hblocks⟩
    · rw [hitem] at hok
      cases hok
    · rw [hitem] at herror
      cases herror
      exact .inr ⟨problem, c :: cs, rfl, .done _, hblocks⟩
  | case3 c cs item rest hitem items problem hscan ih =>
    have hstands : item.Stands rest := by
      rcases scanItem_cases c cs with ⟨item', rest', hok, hstands⟩ | ⟨problem', herror, -⟩
      · rw [hitem] at hok
        cases hok
        exact hstands
      · rw [hitem] at herror
        cases herror
    rw [hscan] at ih
    rw [← scanItem_append hitem]
    rcases ih with ⟨hnone, hitems⟩ | ⟨problem', rest', hsome, hitems, hblocks⟩
    · exact .inl ⟨hnone, .item hstands hitems⟩
    · exact .inr ⟨problem', rest', hsome, .item hstands hitems, hblocks⟩

/-! ## Tokens among the items -/

/-- Each item with the offset at which it starts, if the first starts at byte `loc`. -/
def Item.placed (loc : Nat) : List Item → List (Nat × Item)
  | [] => []
  | item :: items => (loc, item) :: placed (loc + byteSize item.text) items

/-- Blanks and comments are skipped. -/
def Item.isToken : Item → Bool
  | blank _ => false
  | comment _ => false
  | word _ => true
  | number _ => true
  | string _ => true
  | punctuator _ => true

/-- The token says what the placed item is. -/
inductive Token.Spells : Token → Nat × Item → Prop
  | keyword {loc : Nat} {cs : List Char} : String.ofList cs ∈ keywords →
      Spells { kind := .keyword, text := String.ofList cs, loc } (loc, .word cs)
  | identifier {loc : Nat} {cs : List Char} : String.ofList cs ∉ keywords →
      Spells { kind := .identifier, text := String.ofList cs, loc } (loc, .word cs)
  | number (loc : Nat) (cs : List Char) :
      Spells { kind := .number, text := String.ofList cs, loc, value := some (decimalValue cs) }
        (loc, .number cs)
  | string (loc : Nat) (cs : List Char) :
      Spells { kind := .string, text := String.ofList cs, loc } (loc, .string cs)
  | punctuator (loc : Nat) (cs : List Char) :
      Spells { kind := .punctuator, text := String.ofList cs, loc } (loc, .punctuator cs)

theorem Token.spells_iff {t : Token} {loc : Nat} {item : Item} :
    t.Spells (loc, item) ↔ item.token? loc = some t := by
  constructor
  · intro h
    cases h with
    | keyword hmem => rw [Item.token?, if_pos hmem]
    | identifier hmem => rw [Item.token?, if_neg hmem]
    | number => rfl
    | string => rfl
    | punctuator => rfl
  · intro h
    cases item with
    | blank c => cases h
    | comment cs => cases h
    | word cs =>
      cases h
      by_cases hmem : String.ofList cs ∈ keywords
      · rw [if_pos hmem]
        exact .keyword hmem
      · rw [if_neg hmem]
        exact .identifier hmem
    | number cs =>
      cases h
      exact .number loc cs
    | string cs =>
      cases h
      exact .string loc cs
    | punctuator cs =>
      cases h
      exact .punctuator loc cs

theorem Item.isSome_token? (item : Item) (loc : Nat) : (item.token? loc).isSome = item.isToken := by
  cases item <;> rfl

/-- There is one row of tokens that spells the placed items, those to skip left out. -/
theorem forall₂_spells_iff {front : List Token} {places : List (Nat × Item)} :
    List.Forall₂ Token.Spells front (places.filter fun x => x.2.isToken) ↔
      front = places.filterMap fun x => x.2.token? x.1 := by
  induction places generalizing front with
  | nil => simp
  | cons x places ih =>
    obtain ⟨loc, item⟩ := x
    have hsome := item.isSome_token? loc
    cases htoken : item.token? loc with
    | none =>
      rw [htoken, Option.isSome_none] at hsome
      simp only [List.filter_cons, ← hsome, Bool.false_eq_true, if_false, List.filterMap_cons, htoken]
      exact ih
    | some t =>
      rw [htoken, Option.isSome_some] at hsome
      simp only [List.filter_cons, ← hsome, if_true, List.filterMap_cons, htoken]
      cases front with
      | nil => simp
      | cons u front =>
        rw [List.forall₂_cons, Token.spells_iff, htoken, ih, Option.some_inj, List.cons_eq_cons,
          eq_comm (a := t)]

theorem tokensFrom_eq (loc : Nat) (items : List Item) :
    tokensFrom loc items = ((Item.placed loc items).filterMap fun x => x.2.token? x.1) ++
      [{ kind := .eof, text := "", loc := loc + byteSize (items.flatMap Item.text) }] := by
  induction items generalizing loc with
  | nil => rfl
  | cons item items ih =>
    rw [tokensFrom, Item.placed, ih, List.flatMap_cons, byteSize_append, ← Nat.add_assoc]
    cases htoken : item.token? loc with
    | none => simp only [List.filterMap_cons, htoken, Option.toList_none, List.nil_append]
    | some t =>
      simp only [List.filterMap_cons, htoken, Option.toList_some, List.cons_append,
        List.nil_append]

/-! ## Offsets between characters -/

theorem utf8ByteSize_ofList (cs : List Char) : (String.ofList cs).utf8ByteSize = byteSize cs := by
  induction cs with
  | nil => rfl
  | cons c cs ih =>
    rw [← List.singleton_append, String.ofList_append, String.utf8ByteSize_append, ih,
      ← String.singleton_eq_ofList, String.utf8ByteSize_singleton]
    rfl

theorem takeBytes_byteSize_append (front rest : List Char) :
    takeBytes (byteSize front) (front ++ rest) = front := by
  induction front with
  | nil =>
    cases rest with
    | nil => rfl
    | cons c rest =>
      have hpos := c.utf8Size_pos
      exact if_neg (by simp only [byteSize_nil]; omega)
  | cons c front ih =>
    rw [List.cons_append, takeBytes, byteSize_cons, if_pos (Nat.le_add_right _ _),
      Nat.add_sub_cancel_left, ih]

theorem dropBytes_byteSize_append (front rest : List Char) :
    dropBytes (byteSize front) (front ++ rest) = rest := by
  have hcut := takeBytes_append_dropBytes (byteSize front) (front ++ rest)
  rw [takeBytes_byteSize_append] at hcut
  exact List.append_cancel_left hcut

/-- A part of a text is found at the bytes that it takes. -/
theorem slice?_of_append {source : String} {front part rest : List Char}
    (h : front ++ (part ++ rest) = source.toList) :
    slice? source (byteSize front) (byteSize part) = some (String.ofList part) := by
  unfold slice?
  rw [← h]
  simp only [takeBytes_byteSize_append, dropBytes_byteSize_append, and_self, if_true]

theorem exists_append_of_mem_placed {items : List Item} {start loc : Nat} {item : Item}
    (h : (loc, item) ∈ Item.placed start items) :
    ∃ before after, items = before ++ item :: after ∧
      loc = start + byteSize (before.flatMap Item.text) := by
  induction items generalizing start with
  | nil => exact absurd h List.not_mem_nil
  | cons first items ih =>
    rcases List.mem_cons.1 h with heq | hmem
    · cases heq
      exact ⟨[], items, rfl, rfl⟩
    · obtain ⟨before, after, rfl, rfl⟩ := ih hmem
      refine ⟨first :: before, after, rfl, ?_⟩
      rw [List.flatMap_cons, byteSize_append, Nat.add_assoc]

/-- The bytes of every item, and those of what is left, are cut between characters. -/
theorem Munches.slices {source : String} {items : List Item} {rest : List Char}
    (h : Munches source.toList items rest) :
    (∀ x ∈ Item.placed 0 items,
      slice? source x.1 (byteSize x.2.text) = some (String.ofList x.2.text)) ∧
    slice? source (byteSize (items.flatMap Item.text)) (byteSize rest) =
      some (String.ofList rest) := by
  have happ := h.append
  constructor
  · rintro ⟨loc, item⟩ hmem
    obtain ⟨before, after, rfl, rfl⟩ := exists_append_of_mem_placed hmem
    rw [List.flatMap_append, List.flatMap_cons, List.append_assoc, List.append_assoc] at happ
    rw [Nat.zero_add]
    exact slice?_of_append happ
  · rw [← List.append_nil rest] at happ
    exact slice?_of_append happ

theorem Munches.utf8ByteSize {source : String} {items : List Item}
    (h : Munches source.toList items []) :
    source.utf8ByteSize = byteSize (items.flatMap Item.text) := by
  rw [← List.append_nil (items.flatMap Item.text), h.append, ← utf8ByteSize_ofList,
    String.ofList_toList]

/-! ## Strings among the bytes -/

/-- The bytes of a text. -/
def bytes (s : String) : List UInt8 := s.toUTF8.data.toList

theorem bytes_eq_flatMap (s : String) : bytes s = s.toList.flatMap String.utf8EncodeChar := by
  rw [bytes, String.toUTF8_eq_toByteArray, ← String.utf8Encode_toList, List.utf8Encode,
    List.toList_data_toByteArray]

theorem length_flatMap_utf8EncodeChar (cs : List Char) :
    (cs.flatMap String.utf8EncodeChar).length = byteSize cs := by
  induction cs with
  | nil => rfl
  | cons c cs ih =>
    rw [List.flatMap_cons, List.length_append, String.length_utf8EncodeChar, ih, byteSize_cons]

/-- How many bytes a string takes behind its opening quote. A backslash takes the next byte along,
whether or not that is a whole character. -/
def stringEnd : List UInt8 → Option Nat
  | 0x22 :: _ => some 1
  | 0x0a :: _ => none
  | 0x5c :: _ :: bs => (stringEnd bs).map (· + 2)
  | _ :: bs => (stringEnd bs).map (· + 1)
  | [] => none

/-- A character is one low byte, or all its bytes are high. -/
theorem utf8EncodeChar_cases (c : Char) :
    String.utf8EncodeChar c = [UInt8.ofNat c.toNat] ∧ c.toNat < 128 ∨
      ∀ b ∈ String.utf8EncodeChar c, 128 ≤ b.toNat := by
  unfold String.utf8EncodeChar
  dsimp only
  split
  next hascii => exact .inl ⟨rfl, Nat.lt_succ_of_le hascii⟩
  next =>
    refine .inr ?_
    split
    · simp only [List.forall_mem_cons, List.not_mem_nil, UInt8.toNat_ofNat']
      exact ⟨by omega, by omega, nofun⟩
    · split
      · simp only [List.forall_mem_cons, List.not_mem_nil, UInt8.toNat_ofNat']
        exact ⟨by omega, by omega, by omega, nofun⟩
      · simp only [List.forall_mem_cons, List.not_mem_nil, UInt8.toNat_ofNat']
        exact ⟨by omega, by omega, by omega, by omega, nofun⟩

/-- Behind the first byte of a character there are only high ones. -/
theorem utf8EncodeChar_eq_cons (c : Char) :
    ∃ b bs, String.utf8EncodeChar c = b :: bs ∧ bs.length + 1 = c.utf8Size ∧
      ∀ b' ∈ bs, 128 ≤ b'.toNat := by
  obtain ⟨b, bs, hbytes⟩ := List.exists_cons_of_ne_nil (String.utf8EncodeChar_ne_nil (c := c))
  refine ⟨b, bs, hbytes, ?_, ?_⟩
  · rw [← String.length_utf8EncodeChar, hbytes, List.length_cons]
  · rcases utf8EncodeChar_cases c with ⟨hone, -⟩ | hhigh
    · rw [hone] at hbytes
      obtain ⟨-, rfl⟩ := List.cons.inj hbytes
      exact nofun
    · rw [hbytes, List.forall_mem_cons] at hhigh
      exact hhigh.2

theorem stringEnd_cons {b : UInt8} (hquote : b ≠ 0x22) (hline : b ≠ 0x0a) (hslash : b ≠ 0x5c)
    (bs : List UInt8) : stringEnd (b :: bs) = (stringEnd bs).map (· + 1) := by
  rw [stringEnd]
  · exact hquote
  · exact hline
  · exact fun _ _ hb _ => hslash hb

/-- High bytes neither end a string nor take anything along. -/
theorem stringEnd_high {bs : List UInt8} (h : ∀ b ∈ bs, 128 ≤ b.toNat) (rest : List UInt8) :
    stringEnd (bs ++ rest) = (stringEnd rest).map (· + bs.length) := by
  induction bs with
  | nil => simp
  | cons b bs ih =>
    rw [List.forall_mem_cons] at h
    have hne : ∀ low : UInt8, low.toNat < 128 → b ≠ low := by
      rintro low hlow rfl
      omega
    have hstep := stringEnd_cons (hne 0x22 (by decide)) (hne 0x0a (by decide))
      (hne 0x5c (by decide)) (bs ++ rest)
    rw [List.cons_append, hstep, ih h.2, Option.map_map]
    rfl

/-- A character that does not end a string and takes nothing along is passed over. -/
theorem stringEnd_plain {c : Char} (hquote : c ≠ '"') (hslash : c ≠ '\\') (hline : c ≠ '\n')
    (rest : List UInt8) :
    stringEnd (String.utf8EncodeChar c ++ rest) = (stringEnd rest).map (· + c.utf8Size) := by
  rw [← String.length_utf8EncodeChar c]
  rcases utf8EncodeChar_cases c with ⟨hone, hlow⟩ | hhigh
  · have hne : ∀ d : Char, d.toNat < 128 → c ≠ d → UInt8.ofNat c.toNat ≠ UInt8.ofNat d.toNat := by
      intro d hd hcd hbytes
      have hnat := congrArg UInt8.toNat hbytes
      rw [UInt8.toNat_ofNat', UInt8.toNat_ofNat'] at hnat
      exact hcd (Char.toNat_inj.1 (by omega))
    rw [hone]
    exact stringEnd_cons (hne '"' (by decide) hquote) (hne '\n' (by decide) hline)
      (hne '\\' (by decide) hslash) rest
  · exact stringEnd_high hhigh rest

/-- The quote that ends a string is the same, whether it is looked for among the characters or among
their bytes. -/
theorem stringEnd_utf8 (cs : List Char) :
    stringEnd (cs.flatMap String.utf8EncodeChar) =
      (splitString cs).map fun cut => byteSize cut.1 := by
  fun_induction splitString cs with
  | case1 cs => rfl
  | case2 cs => rfl
  | case3 c cs ih =>
    -- The backslash takes one byte along, and what is left of the character is high.
    obtain ⟨b, bs, hbytes, hlength, hhigh⟩ := utf8EncodeChar_eq_cons c
    have hskip : stringEnd (('\\' :: c :: cs).flatMap String.utf8EncodeChar) =
        (stringEnd (bs ++ cs.flatMap String.utf8EncodeChar)).map (· + 2) := by
      rw [List.flatMap_cons, List.flatMap_cons, hbytes]
      rfl
    have hslash : '\\'.utf8Size = 1 := rfl
    rw [hskip, stringEnd_high hhigh, ih, Option.map_map, Option.map_map, Option.map_map]
    congr 1
    funext cut
    simp only [Function.comp_apply, byteSize_cons]
    omega
  | case4 c cs hquote hline hslash ih =>
    by_cases hc : c = '\\'
    · -- A backslash that nothing follows is the last character, and no quote ends the string.
      obtain rfl : cs = [] := by
        cases cs with
        | nil => rfl
        | cons d cs => exact absurd rfl (hslash d cs hc)
      subst hc
      rfl
    · rw [List.flatMap_cons, stringEnd_plain hquote hc hline, ih, Option.map_map, Option.map_map]
      congr 1
      funext cut
      simp only [Function.comp_apply, byteSize_cons]
      omega
  | case5 => rfl

/-- Behind the bytes of a front come those of what follows it. -/
theorem drop_bytes_of_append {source : String} {front rest : List Char}
    (h : front ++ rest = source.toList) :
    (bytes source).drop (byteSize front) = rest.flatMap String.utf8EncodeChar := by
  rw [bytes_eq_flatMap, ← h, List.flatMap_append, ← length_flatMap_utf8EncodeChar, List.drop_left]

/-- Behind a quote of the source, the byte at which the string ends is that of the quote found among
the characters. -/
theorem stringEnd_of_append {source : String} {front rest : List Char}
    (h : front ++ '"' :: rest = source.toList) :
    stringEnd ((bytes source).drop (byteSize front + 1)) =
      (splitString rest).map fun cut => byteSize cut.1 := by
  have hquote : byteSize front + 1 = byteSize (front ++ ['"']) := by
    rw [byteSize_append]
    rfl
  rw [List.append_cons] at h
  rw [hquote, drop_bytes_of_append h, stringEnd_utf8]

/-- Each string of a cut ends where it does among the bytes of the source, and behind a quote that
begins no string they have no end. -/
theorem Munches.stringEnds {source : String} {items : List Item} {rest : List Char}
    (h : Munches source.toList items rest) :
    (∀ loc cs, (loc, Item.string cs) ∈ Item.placed 0 items →
      stringEnd ((bytes source).drop (loc + 1)) = some (byteSize cs - 1)) ∧
    (LexProblem.unterminatedString.Blocks rest →
      stringEnd ((bytes source).drop (byteSize (items.flatMap Item.text) + 1)) = none) := by
  have happ := h.append
  constructor
  · intro loc cs hmem
    obtain ⟨before, after, rfl, rfl⟩ := exists_append_of_mem_placed hmem
    rw [List.flatMap_append, List.flatMap_cons, List.append_assoc, List.append_assoc] at happ
    rw [Nat.zero_add]
    cases h.stands_between with
    | @string body hbody =>
      have hquote : '"'.utf8Size = 1 := rfl
      rw [Item.text, List.cons_append, List.append_assoc, List.singleton_append] at happ
      rw [stringEnd_of_append happ, splitString_of_quotedBody hbody, Option.map_some, byteSize_cons,
        hquote, Nat.add_sub_cancel_left]
  · intro hblocks
    cases hblocks with
    | unterminatedString hnone =>
      rw [stringEnd_of_append happ, splitString_eq_none_iff.2 hnone, Option.map_none]

/-! ## The cut of a source text -/

/-- What reading `source` gives: the tokens that its items spell and an end token behind its last
byte, or the problem at the first place where no item stands. -/
inductive Munched (source : String) : Except LexError (List Token) → Prop
  | tokens {items : List Item} {front : List Token} :
      Munches source.toList items [] →
      List.Forall₂ Token.Spells front ((Item.placed 0 items).filter fun x => x.2.isToken) →
      Munched source (.ok (front ++ [{ kind := .eof, text := "", loc := source.utf8ByteSize }]))
  | problem {items : List Item} {rest : List Char} {problem : LexProblem} :
      Munches source.toList items rest → problem.Blocks rest →
      (∀ (item : Item) after, rest = item.text ++ after → ¬ item.Stands after) →
      Munched source (.error { loc := byteSize (items.flatMap Item.text), problem })

theorem munched_tokenize (source : String) : Munched source (tokenize source) := by
  unfold tokenize
  rcases munches_scan source.toList with ⟨hnone, hitems⟩ | ⟨problem, rest, hsome, hitems, hblocks⟩
  · generalize scan source.toList = scanned at hnone hitems ⊢
    obtain ⟨items, _⟩ := scanned
    cases hnone
    have hmunched := Munched.tokens hitems (forall₂_spells_iff.2 rfl)
    rwa [hitems.utf8ByteSize, ← Nat.zero_add (byteSize _), ← tokensFrom_eq] at hmunched
  · generalize scan source.toList = scanned at hsome hitems ⊢
    obtain ⟨items, _⟩ := scanned
    cases hsome
    exact .problem hitems hblocks fun item after htext => not_stands_of_blocks hblocks htext

theorem Munched.tokenize_eq {source : String} {result : Except LexError (List Token)}
    (h : Munched source result) : tokenize source = result := by
  unfold tokenize
  cases h with
  | @tokens items front hitems hfront =>
    have hscan : scan source.toList = (items, none) := by
      rw [scan_of_munches hitems, scan, List.append_nil]
    rw [hscan, forall₂_spells_iff.1 hfront, hitems.utf8ByteSize]
    simp only [tokensFrom_eq, Nat.zero_add]
  | @problem items rest problem hitems hblocks _ =>
    have hscan : scan source.toList = (items, some problem) := by
      rw [scan_of_munches hitems, scan_of_blocks hblocks, List.append_nil]
    rw [hscan]

end BatchCompiler
