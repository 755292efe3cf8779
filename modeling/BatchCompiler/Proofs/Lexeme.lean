/-
# BatchCompiler.Proofs.Lexeme -- tokens with blanks between them

Every printed token is a lexeme: in front of a blank or the end of the text, its characters are read
as the token and nothing else. So tokens with blanks between them are read as these tokens, at the
offsets at which they stand (`tokenize_lexemes`).
-/

import Mathlib.Data.List.Forall2
import BatchCompiler.Proofs.Printing
import BatchCompiler.Proofs.Spelling

namespace BatchCompiler

/-! ## String literals -/

namespace Quoted

theorem unescape_cons {c : Char} (h : c ≠ '\\') (cs : List Char) :
    unescape (c :: cs) = c :: unescape cs := by
  rw [unescape]
  all_goals simp [h]

theorem unescape_encodeChar (c : Char) (cs : List Char) :
    unescape (encodeChar c ++ cs) = c :: unescape cs := by
  unfold encodeChar
  split
  next h =>
    rcases h with rfl | rfl
    · rfl
    · rfl
  next h =>
    split
    next h =>
      subst h
      rfl
    next => exact unescape_cons (fun hc => h (.inr hc)) cs

theorem unescape_encoded (cs : List Char) : unescape (cs.flatMap encodeChar) = cs := by
  induction cs with
  | nil => rfl
  | cons c cs ih => rw [List.flatMap_cons, unescape_encodeChar, ih]

/-- A literal denotes the text that it was made from. -/
theorem decode_encode (s : String) : decode (encode s) = s := by
  have hlast : (s.toList.flatMap encodeChar ++ ['"']).getLast? = some '"' := by simp
  rw [decode, encode, String.toList_ofList, unquote, if_pos hlast, List.dropLast_concat,
    unescape_encoded, String.ofList_toList]

end Quoted

theorem splitString_encodeChar (c : Char) {cs body rest : List Char}
    (h : splitString cs = some (body, rest)) :
    splitString (Quoted.encodeChar c ++ cs) = some (Quoted.encodeChar c ++ body, rest) := by
  unfold Quoted.encodeChar
  split
  next hc =>
    rcases hc with rfl | rfl
    · simp [splitString, h]
    · simp [splitString, h]
  next hc =>
    split
    next hline =>
      subst hline
      simp [splitString, h]
    next hline =>
      rw [not_or] at hc
      rw [List.singleton_append, splitString]
      · simp [h]
      all_goals simp [hc, hline]

/-- The quote behind the encoded characters is the first that ends the literal. -/
theorem splitString_encoded (cs rest : List Char) :
    splitString (cs.flatMap Quoted.encodeChar ++ '"' :: rest) =
      some (cs.flatMap Quoted.encodeChar ++ ['"'], rest) := by
  induction cs with
  | nil => rfl
  | cons c cs ih =>
    rw [List.flatMap_cons, List.append_assoc, List.append_assoc]
    exact splitString_encodeChar c ih

/-! ## Lexemes -/

/-- What follows is a blank, or nothing. -/
def Apart (rest : List Char) : Prop := ∀ d ∈ rest.head?, d = ' '

/-- The characters of the token are read as the token, if what follows is apart. -/
def Token.IsLexeme (t : Token) : Prop :=
  ∃ item : Item, item.text = t.text.toList ∧ (∀ loc, item.token? loc = some { t with loc }) ∧
    ∃ c cs, t.text.toList = c :: cs ∧ ∀ rest, Apart rest → scanItem c (cs ++ rest) = .ok (item, rest)

/-- A run of characters of a class ends in front of what is apart. -/
theorem span_apart {p : Char → Bool} (hblank : p ' ' = false) {cs : List Char}
    (h : ∀ c ∈ cs, p c = true) {rest : List Char} (hrest : Apart rest) :
    (cs ++ rest).takeWhile p = cs ∧ (cs ++ rest).dropWhile p = rest := by
  rw [List.takeWhile_append_of_pos h, List.dropWhile_append_of_pos h]
  cases rest with
  | nil => simp
  | cons d rest =>
    have hd : d = ' ' := hrest d rfl
    subst hd
    simp [hblank]

/-- A character of a class without blanks and the slash begins neither a blank nor a comment. -/
theorem plain_of_class {p : Char → Bool}
    (hp : [' ', '\t', '\n', '\x0c', '\r', '/'].all (!p ·) = true) {c : Char} (hc : p c = true) :
    isBlank c = false ∧ c ≠ '/' := by
  have hnot : ∀ d ∈ [' ', '\t', '\n', '\x0c', '\r', '/'], c ≠ d := by
    rintro d hd rfl
    simpa [hc] using List.all_eq_true.1 hp c hd
  simp only [List.forall_mem_cons] at hnot
  simp [isBlank, hnot]

theorem isLexeme_literal (s : String) : (Token.literal s).IsLexeme := by
  refine ⟨.string ('"' :: (s.toList.flatMap Quoted.encodeChar ++ ['"'])), ?_, ?_, '"',
    s.toList.flatMap Quoted.encodeChar ++ ['"'], ?_, ?_⟩
  · simp [Item.text, Token.literal, Quoted.encode]
  · intro loc
    rfl
  · simp [Token.literal, Quoted.encode]
  · intro rest _
    have hsplit := splitString_encoded s.toList rest
    rw [List.append_assoc, List.singleton_append]
    simp [scanItem, isBlank, isWordStart, hsplit]

theorem decimalValue_toDigits (k : Nat) : decimalValue (Nat.toDigits 10 k) = k := by
  have hsame : decimalValue (Nat.toDigits 10 k) = Nat.ofDigitChars 10 (Nat.toDigits 10 k) 0 := by
    simp only [decimalValue, Nat.ofDigitChars, Nat.mul_comm]
  rw [hsame, Nat.ofDigitChars_ten_toDigits]

theorem isLexeme_number {k : Nat} (hk : (k : Int) ≤ maxInteger) : (Token.number k).IsLexeme := by
  obtain ⟨c, cs, hdigits⟩ := List.exists_cons_of_ne_nil (Nat.toDigits_ne_nil (n := k) (b := 10))
  have hall : ∀ d ∈ c :: cs, d.isDigit = true := by
    rw [← hdigits]
    exact fun d hd => isDigit_of_mem_digits hd
  have hc : c.isDigit = true := hall c List.mem_cons_self
  have hvalue : decimalValue (c :: cs) = k := by rw [← hdigits, decimalValue_toDigits]
  have htext : (Token.number k).text.toList = c :: cs := by simpa [Token.number] using hdigits
  refine ⟨.number (c :: cs), htext.symm, ?_, c, cs, htext, ?_⟩
  · intro loc
    rw [Item.token?, hvalue, ← htext, String.ofList_toList]
    rfl
  · intro rest hrest
    obtain ⟨htake, hdrop⟩ := span_apart (by decide) (fun d hd => hall d (List.mem_cons_of_mem c hd)) hrest
    obtain ⟨hblank, hslash⟩ := plain_of_class (by decide) hc
    simp [scanItem, hblank, hslash, hc, htake, hdrop, hvalue, hk]

theorem isDigit_of_isWordStart {c : Char} (h : isWordStart c = true) : c.isDigit = false := by
  rw [Bool.eq_false_iff]
  intro hdigit
  have hstart : ((decide (c.val ≥ 65 ∧ c.val ≤ 90) ||
      (decide (c.val ≥ 97) && decide (c.val ≤ 122))) || decide (c = '_')) = true := h
  have hnine : (decide (c.val ≥ 48) && decide (c.val ≤ 57)) = true := hdigit
  simp only [Bool.or_eq_true, Bool.and_eq_true, decide_eq_true_eq, ge_iff_le] at hstart hnine
  rcases hstart with (⟨h, -⟩ | ⟨h, -⟩) | rfl
  · exact absurd (UInt32.le_trans h hnine.2) (by decide)
  · exact absurd (UInt32.le_trans h hnine.2) (by decide)
  · exact absurd hnine.2 (by decide)

theorem isLexeme_word {w : String} (h : isWord w.toList = true) :
    Token.IsLexeme { kind := if w ∈ keywords then .keyword else .identifier, text := w, loc := 0 } := by
  cases hw : w.toList with
  | nil =>
    rw [hw] at h
    cases h
  | cons c cs =>
    rw [hw, isWord, Bool.and_eq_true, List.all_eq_true] at h
    obtain ⟨hc, hcs⟩ := h
    refine ⟨.word (c :: cs), hw.symm, ?_, c, cs, hw, ?_⟩
    · intro loc
      rw [← hw, Item.token?, String.ofList_toList]
    · intro rest hrest
      obtain ⟨htake, hdrop⟩ := span_apart (by decide) hcs hrest
      obtain ⟨hblank, hslash⟩ := plain_of_class (by decide) hc
      simp [scanItem, hblank, hslash, isDigit_of_isWordStart hc, hc, htake, hdrop]

/-- A beginning of a text does not reach into a rest whose first character it does not have. -/
theorem prefix_of_head?_not_mem {q p rest : List Char} (hrest : ∀ d ∈ rest.head?, d ∉ q)
    (h : q <+: p ++ rest) : q <+: p := by
  rcases List.prefix_or_prefix_of_prefix h (List.prefix_append p rest) with hqp | ⟨more, rfl⟩
  · exact hqp
  · have hmore : more <+: rest := (List.prefix_append_right_inj p).1 h
    cases more with
    | nil => simp
    | cons d more =>
      obtain ⟨tail, rfl⟩ := hmore
      exact absurd (by simp) (hrest d rfl)

/-- Each punctuator is the first of the table with which its characters start. -/
theorem leadingPunctuator?_append {p : String} (h : p ∈ punctuators) {rest : List Char}
    (hrest : Apart rest) : leadingPunctuator? (p.toList ++ rest) = some p := by
  -- Alone, a punctuator is found, and none before it in the table reaches into what is apart.
  have hfirst : ∀ p ∈ punctuators, leadingPunctuator? p.toList = some p := by decide +kernel
  have hblank : ∀ q ∈ punctuators, ' ' ∉ q.toList := by decide +kernel
  obtain ⟨-, before, after, htable, hbefore⟩ := List.find?_eq_some_iff_append.1 (hfirst p h)
  refine List.find?_eq_some_iff_append.2 ⟨?_, before, after, htable, ?_⟩
  · exact List.isPrefixOf_iff_prefix.2 (List.prefix_append _ _)
  · intro q hq
    have hnot := hbefore q hq
    rw [Bool.not_eq_true', Bool.eq_false_iff, Ne, List.isPrefixOf_iff_prefix] at hnot ⊢
    have hmem : q ∈ punctuators := htable ▸ List.mem_append_left _ hq
    intro hbegins
    refine hnot (prefix_of_head?_not_mem ?_ hbegins)
    intro d hd
    rw [hrest d hd]
    exact hblank q hmem

theorem isLexeme_punctuator {p : String} (h : p ∈ punctuators) :
    Token.IsLexeme { kind := .punctuator, text := p, loc := 0 } := by
  -- A Boolean test, since a quantifier over characters is decided by running through all of them.
  have hchars : ∀ p ∈ punctuators, (p.toList.head?.all fun c => !isBlank c && !c.isDigit &&
      !isWordStart c && c != '"' && (c != '/' || p.toList.tail.isEmpty)) = true := by decide +kernel
  cases hp : p.toList with
  | nil => exact absurd hp (ne_nil_of_mem_punctuators h)
  | cons c cs =>
    have hfirst := hchars p h
    simp only [hp, List.head?_cons, Option.all_some, List.tail_cons, Bool.and_eq_true,
      Bool.not_eq_true', bne_iff_ne, Bool.or_eq_true, List.isEmpty_iff] at hfirst
    obtain ⟨⟨⟨⟨hblank, hdigit⟩, hword⟩, hquote⟩, hslash⟩ := hfirst
    refine ⟨.punctuator (c :: cs), hp.symm, ?_, c, cs, hp, ?_⟩
    · intro loc
      rw [← hp, Item.token?, String.ofList_toList]
    · intro rest hrest
      have hleading := leadingPunctuator?_append h hrest
      rw [hp] at hleading
      have hcomment : ∀ d, d ≠ ' ' → ¬ (c = '/' ∧ (cs ++ rest).head? = some d) := by
        rintro d hd ⟨rfl, hhead⟩
        obtain rfl : cs = [] := hslash.resolve_left (by simp)
        exact hd (hrest d hhead)
      have hline := hcomment '/' (by decide)
      have hblock := hcomment '*' (by decide)
      unfold scanItem
      rw [if_neg (by simp [hblank]), if_neg hline, if_neg hblock, if_neg (by simp [hdigit]),
        if_neg (by simp [hword]), if_neg hquote]
      rw [List.cons_append] at hleading
      simp [hleading, hp]

/-! ## Texts of lexemes -/

/-- Two tokens that differ only in where they stand. -/
def Token.Same (t u : Token) : Prop := u.kind = t.kind ∧ u.text = t.text ∧ u.value = t.value

theorem scan_of_scanItem {c : Char} {cs rest : List Char} {item : Item}
    (h : scanItem c cs = .ok (item, rest)) :
    scan (c :: cs) = (item :: (scan rest).1, (scan rest).2) := by
  rw [scan]
  split
  next problem hproblem =>
    rw [h] at hproblem
    cases hproblem
  next item' rest' hok =>
    rw [h] at hok
    cases hok
    rfl

theorem scan_lexemes {ts : List Token} (h : ∀ t ∈ ts, t.IsLexeme) :
    (scan ([' '].intercalate (ts.map fun t => t.text.toList))).2 = none ∧
      ∀ loc, List.Forall₂ Token.Same (ts ++ [.ending])
        (tokensFrom loc (scan ([' '].intercalate (ts.map fun t => t.text.toList))).1) := by
  induction ts with
  | nil =>
    rw [List.map_nil, List.intercalate_nil, scan]
    exact ⟨rfl, fun loc => .cons ⟨rfl, rfl, rfl⟩ .nil⟩
  | cons t ts ih =>
    obtain ⟨item, htext, htoken, c, cs, hchars, hscan⟩ := h t List.mem_cons_self
    have hitem : ∀ loc items, tokensFrom loc (item :: items) =
        { t with loc } :: tokensFrom (loc + byteSize item.text) items := by
      intro loc items
      rw [tokensFrom, htoken]
      rfl
    cases ts with
    | nil =>
      have hlast := scan_of_scanItem (hscan [] fun d hd => by cases hd)
      rw [List.append_nil, ← hchars, scan] at hlast
      rw [List.map_cons, List.map_nil, List.intercalate_singleton, hlast]
      refine ⟨rfl, fun loc => ?_⟩
      rw [hitem]
      exact .cons ⟨rfl, rfl, rfl⟩ (.cons ⟨rfl, rfl, rfl⟩ .nil)
    | cons u ts =>
      -- Behind the token stands a blank, which is an item without a token.
      obtain ⟨hnone, htokens⟩ := ih fun t' ht' => h t' (List.mem_cons_of_mem t ht')
      generalize hrest : [' '].intercalate ((u :: ts).map fun t => t.text.toList) = rest
        at hnone htokens
      have hblank : scanItem ' ' rest = .ok (.blank ' ', rest) := by simp [scanItem, isBlank]
      have hapart : Apart (' ' :: rest) := fun d hd => by cases hd; rfl
      have hwhole := scan_of_scanItem (hscan (' ' :: rest) hapart)
      rw [scan_of_scanItem hblank, ← List.cons_append, ← hchars] at hwhole
      have hsplit : [' '].intercalate ((t :: u :: ts).map fun t => t.text.toList) =
          t.text.toList ++ ' ' :: rest := by
        rw [← hrest, List.map_cons, List.map_cons, List.intercalate_cons_cons, List.append_assoc]
        rfl
      rw [hsplit, hwhole]
      refine ⟨hnone, fun loc => ?_⟩
      rw [hitem]
      exact .cons ⟨rfl, rfl, rfl⟩ (htokens _)

/-- Lexemes with blanks between them are read as these tokens, and nothing is left over. -/
theorem tokenize_lexemes {ts : List Token} (h : ∀ t ∈ ts, t.IsLexeme) :
    ∃ tokens, tokenize (" ".intercalate (ts.map Token.text)) = .ok tokens ∧
      List.Forall₂ Token.Same (ts ++ [.ending]) tokens := by
  obtain ⟨hnone, htokens⟩ := scan_lexemes h
  have hchars : (" ".intercalate (ts.map Token.text)).toList =
      [' '].intercalate (ts.map fun t => t.text.toList) := by
    rw [String.toList_intercalate, List.map_map]
    rfl
  refine ⟨_, ?_, htokens 0⟩
  unfold tokenize
  rw [hchars]
  generalize scan ([' '].intercalate (ts.map fun t => t.text.toList)) = scanned at hnone ⊢
  obtain ⟨items, problem⟩ := scanned
  cases hnone
  rfl

/-! ## Printed tokens -/

theorem isLexeme_symbol {text : String} (h : text ∈ punctuators ∨ text ∈ keywords) :
    (Token.symbol text).IsLexeme := by
  by_cases hkeyword : text ∈ keywords
  · have hwords : ∀ w ∈ keywords, isWord w.toList = true := by decide +kernel
    have hlexeme := isLexeme_word (hwords text hkeyword)
    rw [if_pos hkeyword] at hlexeme
    rwa [Token.symbol, if_pos hkeyword]
  · rw [Token.symbol, if_neg hkeyword]
    exact isLexeme_punctuator (h.resolve_right hkeyword)

theorem isLexeme_name {x : String} (h : isIdentifier x = true) : (Token.name x).IsLexeme := by
  rw [isIdentifier, Bool.and_eq_true, decide_eq_true_iff] at h
  have hlexeme := isLexeme_word h.1
  rwa [if_neg h.2] at hlexeme

theorem isLexeme_commas {items : List (List Token)} (h : ∀ ts ∈ items, ∀ t ∈ ts, t.IsLexeme) :
    ∀ t ∈ commas items, t.IsLexeme := by
  induction items with
  | nil => exact fun t ht => absurd ht List.not_mem_nil
  | cons x items ih =>
    have hx := h x List.mem_cons_self
    cases items with
    | nil =>
      rw [commas_singleton]
      exact hx
    | cons y items =>
      rw [commas_cons_cons, List.forall_mem_append, List.forall_mem_cons]
      refine ⟨hx, isLexeme_symbol (by decide), ?_⟩
      exact ih fun ts hts => h ts (List.mem_cons_of_mem x hts)

theorem isLexeme_braces {ts : List Token} (h : ∀ t ∈ ts, t.IsLexeme) :
    ∀ t ∈ braces ts, t.IsLexeme := by
  rw [braces, List.forall_mem_cons, List.forall_mem_append, List.forall_mem_singleton]
  exact ⟨isLexeme_symbol (by decide), h, isLexeme_symbol (by decide)⟩

namespace Node

theorem isLexeme_placed {n : Node} {ts : List Token} (h : ∀ t ∈ ts, t.IsLexeme) (place : Nat) :
    ∀ t ∈ n.placed place ts, t.IsLexeme := by
  unfold placed
  split
  · rw [List.forall_mem_cons, List.forall_mem_append, List.forall_mem_singleton]
    exact ⟨isLexeme_symbol (by decide), h, isLexeme_symbol (by decide)⟩
  · exact h

theorem isLexeme_printBody {ns : List Node} (h : ∀ n ∈ ns, ∀ t ∈ n.print, t.IsLexeme) :
    ∀ t ∈ printBody ns, t.IsLexeme := by
  induction ns with
  | nil => exact fun t ht => absurd ht List.not_mem_nil
  | cons n ns ih =>
    rw [printBody, List.forall_mem_append, List.forall_mem_cons]
    refine ⟨h n List.mem_cons_self, isLexeme_symbol (by decide), ?_⟩
    exact ih fun m hm => h m (List.mem_cons_of_mem n hm)

theorem isLexeme_printItems {ns : List Node} (h : ∀ n ∈ ns, ∀ t ∈ n.print, t.IsLexeme) :
    ∀ t ∈ commas (printItems ns), t.IsLexeme := by
  refine isLexeme_commas ?_
  induction ns with
  | nil => exact fun ts hts => absurd hts List.not_mem_nil
  | cons n ns ih =>
    rw [printItems, List.forall_mem_cons]
    refine ⟨isLexeme_placed (h n List.mem_cons_self) 1, ?_⟩
    exact ih fun m hm => h m (List.mem_cons_of_mem n hm)

/-- Every token of a printed node is a lexeme. -/
theorem Expressible.isLexeme {n : Node} (h : n.Expressible) : ∀ t ∈ n.print, t.IsLexeme := by
  have hsymbol : ∀ {text : String}, text ∈ punctuators ∨ text ∈ keywords →
      (Token.symbol text).IsLexeme := isLexeme_symbol
  induction h with
  | @integer l v hmin hmax =>
    have hnumber : (Token.number v.natAbs).IsLexeme := by
      refine isLexeme_number ?_
      omega
    unfold print
    split
    · simpa using ⟨hsymbol (by decide), hnumber⟩
    · simpa using hnumber
  | string l s => simpa [print] using isLexeme_literal s
  | identifier l hx => simpa [print] using isLexeme_name hx
  | binary l op _ _ iha ihb =>
    rw [print, List.forall_mem_append, List.forall_mem_cons]
    refine ⟨isLexeme_placed iha _, hsymbol ?_, isLexeme_placed ihb _⟩
    cases op <;> decide
  | and l _ _ iha ihb =>
    rw [print, List.forall_mem_append, List.forall_mem_cons]
    exact ⟨isLexeme_placed iha _, hsymbol (by decide), isLexeme_placed ihb _⟩
  | or l _ _ iha ihb =>
    rw [print, List.forall_mem_append, List.forall_mem_cons]
    exact ⟨isLexeme_placed iha _, hsymbol (by decide), isLexeme_placed ihb _⟩
  | assign l _ _ _ iht ihv =>
    rw [print, List.forall_mem_append, List.forall_mem_cons]
    exact ⟨isLexeme_placed iht _, hsymbol (by decide), isLexeme_placed ihv _⟩
  | branch l _ _ _ ihc iht ihe =>
    simp only [print, List.forall_mem_cons, List.forall_mem_append]
    refine ⟨hsymbol (by decide), hsymbol (by decide), isLexeme_placed ihc _, hsymbol (by decide),
      isLexeme_braces (isLexeme_printBody iht), ?_⟩
    split
    · exact fun t ht => absurd ht List.not_mem_nil
    · rw [List.forall_mem_cons]
      exact ⟨hsymbol (by decide), isLexeme_braces (isLexeme_printBody ihe)⟩
  | ternary l _ _ _ ihc iht ihe =>
    simp only [print, List.forall_mem_cons, List.forall_mem_append]
    exact ⟨isLexeme_placed ihc _, hsymbol (by decide), isLexeme_placed iht _, hsymbol (by decide),
      isLexeme_placed ihe _⟩
  | loop l _ _ ihc ih =>
    simp only [print, List.forall_mem_cons, List.forall_mem_append]
    exact ⟨hsymbol (by decide), hsymbol (by decide), isLexeme_placed ihc _, hsymbol (by decide),
      isLexeme_braces (isLexeme_printBody ih)⟩
  | function l hx hps _ ih =>
    simp only [print, List.forall_mem_cons, List.forall_mem_append, List.forall_mem_map]
    refine ⟨hsymbol (by decide), fun y hy => isLexeme_name (hx y (by simpa using hy)),
      hsymbol (by decide), isLexeme_commas ?_, hsymbol (by decide),
      isLexeme_braces (isLexeme_printBody ih)⟩
    simp only [List.forall_mem_map, List.forall_mem_singleton]
    exact fun p hp => isLexeme_name (hps p hp)
  | call l _ _ ihf ih =>
    simp only [print, List.forall_mem_cons, List.forall_mem_append]
    exact ⟨isLexeme_placed ihf _, hsymbol (by decide), isLexeme_printItems ih, hsymbol (by decide),
      fun t ht => absurd ht List.not_mem_nil⟩
  | ret l _ ihv =>
    rw [print, List.forall_mem_cons]
    exact ⟨hsymbol (by decide), isLexeme_placed ihv _⟩
  | step l op leading _ iht =>
    have hop : (Token.symbol op.symbol).IsLexeme := by
      refine hsymbol ?_
      cases op <;> decide
    cases leading with
    | true =>
      rw [print, List.forall_mem_cons]
      exact ⟨hop, isLexeme_placed iht _⟩
    | false =>
      rw [print, List.forall_mem_append, List.forall_mem_singleton]
      exact ⟨isLexeme_placed iht _, hop⟩
  | array l _ ih =>
    simp only [print, List.forall_mem_cons, List.forall_mem_append]
    exact ⟨hsymbol (by decide), isLexeme_printItems ih, hsymbol (by decide),
      fun t ht => absurd ht List.not_mem_nil⟩
  | index l _ _ ihb ihi =>
    simp only [print, List.forall_mem_cons, List.forall_mem_append]
    exact ⟨isLexeme_placed ihb _, hsymbol (by decide), isLexeme_placed ihi _, hsymbol (by decide),
      fun t ht => absurd ht List.not_mem_nil⟩

end Node

end BatchCompiler
