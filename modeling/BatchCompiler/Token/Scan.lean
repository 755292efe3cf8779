/-
# BatchCompiler.Token.Scan -- from source text to tokens

A source text is a row of items: blanks, comments, and tokens. `scanItem` reads the longest item at
the front of a text, `scan` reads items until the text is used up or no item can be formed, and
`tokenize` keeps the tokens with their offsets and closes the list with an end token.
-/

import BatchCompiler.Integer
import BatchCompiler.Source.Offset
import BatchCompiler.Token.Basic

namespace BatchCompiler

/-! ## Items -/

/-- A piece of source text: something to skip, or a token. -/
inductive Item where
  | blank (c : Char)
  | comment (text : List Char)
  | word (text : List Char)
  | number (digits : List Char)
  | string (text : List Char)
  | punctuator (text : List Char)
  deriving DecidableEq, Repr

/-- Why no item can be formed. -/
inductive LexProblem where
  | unterminatedComment
  | unterminatedString
  | numberTooLarge
  | invalidCharacter (c : Char)
  deriving DecidableEq, Repr

/-- The wording of a problem. -/
def LexProblem.message : LexProblem → String
  | unterminatedComment => "unterminated block comment"
  | unterminatedString => "unterminated string"
  | numberTooLarge => "invalid number: number too large to fit in target type"
  | invalidCharacter c => "invalid token: '" ++ String.singleton c ++ "'"

/-- The characters of an item. -/
def Item.text : Item → List Char
  | blank c => [c]
  | comment t => t
  | word t => t
  | number t => t
  | string t => t
  | punctuator t => t

/-! ## Character classes -/

/-- Space, tab, line feed, form feed and carriage return. -/
def isBlank (c : Char) : Bool :=
  c = ' ' ∨ c = '\t' ∨ c = '\n' ∨ c = '\x0c' ∨ c = '\r'

/-- A character that can start a word. -/
def isWordStart (c : Char) : Bool := c.isAlpha || c = '_'

/-- A character that can continue a word. -/
def isWordPart (c : Char) : Bool := c.isAlphanum || c = '_'

/-- The number that a row of decimal digits denotes. -/
def decimalValue (digits : List Char) : Nat :=
  digits.foldl (fun n c => n * 10 + (c.toNat - '0'.toNat)) 0

/-! ## Reading one item -/

/-- Cuts after the first `*/`. -/
def splitComment : List Char → Option (List Char × List Char)
  | '*' :: '/' :: cs => some (['*', '/'], cs)
  | c :: cs => (splitComment cs).map fun (body, rest) => (c :: body, rest)
  | [] => none

/-- Cuts after the quote that ends a string. A backslash keeps the next character from ending it,
and a line feed that is not kept so must not occur. -/
def splitString : List Char → Option (List Char × List Char)
  | '"' :: cs => some (['"'], cs)
  | '\n' :: _ => none
  | '\\' :: c :: cs => (splitString cs).map fun (body, rest) => ('\\' :: c :: body, rest)
  | c :: cs => (splitString cs).map fun (body, rest) => (c :: body, rest)
  | [] => none

/-- The first punctuator of the table with which the text starts. -/
def leadingPunctuator? (cs : List Char) : Option String :=
  punctuators.find? fun p => p.toList.isPrefixOf cs

/-- Reads the item at the front of `c :: cs`, and gives what follows it. -/
def scanItem (c : Char) (cs : List Char) : Except LexProblem (Item × List Char) :=
  if isBlank c then .ok (.blank c, cs)
  else if c = '/' ∧ cs.head? = some '/' then
    .ok (.comment (c :: cs.takeWhile (· ≠ '\n')), cs.dropWhile (· ≠ '\n'))
  else if c = '/' ∧ cs.head? = some '*' then
    match splitComment cs.tail with
    | none => .error .unterminatedComment
    | some (body, rest) => .ok (.comment (c :: '*' :: body), rest)
  else if c.isDigit then
    if decimalValue (c :: cs.takeWhile Char.isDigit) ≤ maxInteger then
      .ok (.number (c :: cs.takeWhile Char.isDigit), cs.dropWhile Char.isDigit)
    else .error .numberTooLarge
  else if isWordStart c then .ok (.word (c :: cs.takeWhile isWordPart), cs.dropWhile isWordPart)
  else if c = '"' then
    match splitString cs with
    | none => .error .unterminatedString
    | some (body, rest) => .ok (.string (c :: body), rest)
  else
    match leadingPunctuator? (c :: cs) with
    | some p => .ok (.punctuator p.toList, (c :: cs).drop p.toList.length)
    | none => .error (.invalidCharacter c)

theorem splitComment_append {cs body rest : List Char} (h : splitComment cs = some (body, rest)) :
    body ++ rest = cs := by
  fun_induction splitComment cs generalizing body rest with
  | case1 cs => cases h; rfl
  | case2 c cs _ ih =>
    obtain ⟨⟨b, r⟩, hb, he⟩ := Option.map_eq_some_iff.1 h
    cases he
    simp [ih hb]
  | case3 => cases h

theorem splitString_append {cs body rest : List Char} (h : splitString cs = some (body, rest)) :
    body ++ rest = cs := by
  fun_induction splitString cs generalizing body rest with
  | case1 cs => cases h; rfl
  | case2 => cases h
  | case3 c cs ih =>
    obtain ⟨⟨b, r⟩, hb, he⟩ := Option.map_eq_some_iff.1 h
    cases he
    simp [ih hb]
  | case4 c cs _ _ _ ih =>
    obtain ⟨⟨b, r⟩, hb, he⟩ := Option.map_eq_some_iff.1 h
    cases he
    simp [ih hb]
  | case5 => cases h

/-- The punctuator found is a beginning of the text. -/
theorem isPrefix_of_leadingPunctuator? {cs : List Char} {p : String}
    (h : leadingPunctuator? cs = some p) : p.toList <+: cs := by
  rw [leadingPunctuator?] at h
  simpa using List.find?_some h

/-- Every punctuator has a character. -/
theorem ne_nil_of_mem_punctuators {p : String} (h : p ∈ punctuators) : p.toList ≠ [] := by
  have : ∀ q ∈ punctuators, q.toList ≠ [] := by decide +kernel
  exact this p h

/-- An item and what follows it are the whole text. -/
theorem scanItem_append {c : Char} {cs : List Char} {item : Item} {rest : List Char}
    (h : scanItem c cs = .ok (item, rest)) : item.text ++ rest = c :: cs := by
  unfold scanItem at h
  split at h
  · cases h; rfl
  split at h
  · cases h; simp [Item.text, List.takeWhile_append_dropWhile]
  split at h
  next hc =>
    split at h
    · cases h
    · next body rest' hs =>
      cases h
      obtain ⟨d, ds, rfl⟩ : ∃ d ds, cs = d :: ds := by
        cases cs with
        | nil => simp at hc
        | cons d ds => exact ⟨d, ds, rfl⟩
      have hd : d = '*' := by simpa using hc.2
      have hb : body ++ rest = ds := by simpa using splitComment_append hs
      simp [Item.text, hd, hb]
  split at h
  · split at h
    · cases h; simp [Item.text, List.takeWhile_append_dropWhile]
    · cases h
  split at h
  · cases h; simp [Item.text, List.takeWhile_append_dropWhile]
  split at h
  · split at h
    · cases h
    · next body rest' hs => cases h; simp [Item.text, splitString_append hs]
  · split at h
    · next p hp =>
      cases h
      obtain ⟨t, ht⟩ := isPrefix_of_leadingPunctuator? hp
      rw [← ht]
      simp [Item.text]
    · cases h

/-- An item has a character. -/
theorem scanItem_text_ne_nil {c : Char} {cs : List Char} {item : Item} {rest : List Char}
    (h : scanItem c cs = .ok (item, rest)) : item.text ≠ [] := by
  unfold scanItem at h
  split at h
  · cases h; simp [Item.text]
  split at h
  · cases h; simp [Item.text]
  split at h
  · split at h <;> cases h
    simp [Item.text]
  split at h
  · split at h <;> cases h
    simp [Item.text]
  split at h
  · cases h; simp [Item.text]
  split at h
  · split at h <;> cases h
    simp [Item.text]
  · split at h
    · next p hp =>
      cases h
      exact ne_nil_of_mem_punctuators (List.mem_of_find?_eq_some hp)
    · cases h

/-- Reading an item shortens the text. -/
theorem scanItem_length_lt {c : Char} {cs : List Char} {item : Item} {rest : List Char}
    (h : scanItem c cs = .ok (item, rest)) : rest.length < (c :: cs).length := by
  have happ := congrArg List.length (scanItem_append h)
  have hpos := List.length_pos_iff.2 (scanItem_text_ne_nil h)
  simp only [List.length_append] at happ
  omega

/-! ## Reading a whole text -/

/-- The items of a text up to its end or to the first place where none can be formed, and in the
second case the problem there. -/
def scan : List Char → List Item × Option LexProblem
  | [] => ([], none)
  | c :: cs =>
    match _h : scanItem c cs with
    | .error problem => ([], some problem)
    | .ok (item, rest) =>
      let (items, problem) := scan rest
      (item :: items, problem)
termination_by cs => cs.length
decreasing_by exact scanItem_length_lt _h

/-- The token that an item is, starting at byte `loc`. -/
def Item.token? (loc : Nat) : Item → Option Token
  | blank _ => none
  | comment _ => none
  | word t =>
    let text := String.ofList t
    some { kind := if text ∈ keywords then .keyword else .identifier, text, loc }
  | number t =>
    some { kind := .number, text := String.ofList t, loc, value := some (decimalValue t) }
  | string t => some { kind := .string, text := String.ofList t, loc }
  | punctuator t => some { kind := .punctuator, text := String.ofList t, loc }

/-- The tokens among the items of a text that starts at byte `loc`, and the end token. -/
def tokensFrom (loc : Nat) : List Item → List Token
  | [] => [{ kind := .eof, text := "", loc }]
  | item :: items => (item.token? loc).toList ++ tokensFrom (loc + byteSize item.text) items

/-- A problem and the offset at which it shows. -/
structure LexError where
  loc : Nat
  problem : LexProblem
  deriving DecidableEq, Repr

/-- The tokens of a source text. -/
def tokenize (source : String) : Except LexError (List Token) :=
  match scan source.toList with
  | (items, none) => .ok (tokensFrom 0 items)
  | (items, some problem) => .error { loc := byteSize (items.flatMap Item.text), problem }

end BatchCompiler
