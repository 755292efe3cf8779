/-
# BatchCompiler.Proofs.Literal -- string literals and the texts that they denote

A string literal is read twice: once to find the quote that ends it, and once more to resolve the
escapes between the quotes. The two readings go by the same rule, that a backslash takes the next
character along, so they never disagree: what is cut out of a source has a quote at either end, and
between them no backslash is left over for the second reading (`unescape?_of_quotedBody`). And every
text can be written as a literal, and is what that literal denotes.
-/

import BatchCompiler.Proofs.Respacing

namespace BatchCompiler

namespace Quoted

/-! ## Escapes -/

/-- What the character behind a backslash stands for. -/
def resolve (c : Char) : Char := if c = 'n' then '\n' else if c = 't' then '\t' else c

theorem unescape_escaped (c : Char) (cs : List Char) :
    unescape ('\\' :: c :: cs) = resolve c :: unescape cs := by
  unfold resolve
  split
  next hc =>
    subst hc
    rfl
  next hn =>
    split
    next hc =>
      subst hc
      rfl
    next ht =>
      rw [unescape]
      · exact hn
      · exact ht

/-! ## Reading without a way out -/

/-- Resolves escapes as `unescape` does, but gives up at a backslash with nothing behind it. -/
def unescape? : List Char → Option (List Char)
  | [] => some []
  | ['\\'] => none
  | '\\' :: c :: cs => (unescape? cs).map (resolve c :: ·)
  | c :: cs => (unescape? cs).map (c :: ·)

/-- The text between two quotes as `unquote` gives it. Without both of them there is none. -/
def unquote? : List Char → Option (List Char)
  | '"' :: cs => if cs.getLast? = some '"' then some cs.dropLast else none
  | _ => none

/-- What a literal denotes, if it is one: it stands in quotes, and each backslash in it has a
character to escape. -/
def decode? (literal : String) : Option String :=
  ((unquote? literal.toList).bind unescape?).map String.ofList

/-- Nothing between the quotes of a literal makes the reading give up. -/
theorem unescape?_of_quotedBody {body : List Char} (h : QuotedBody body) :
    unescape? body = some (unescape body) := by
  induction h with
  | nil => rfl
  | @plain c cs _ hslash _ _ ih =>
    have hstrict : unescape? (c :: cs) = (unescape? cs).map (c :: ·) := by
      rw [unescape?]
      all_goals simp [hslash]
    rw [hstrict, ih, unescape_cons hslash]
    rfl
  | @escaped c cs _ ih =>
    rw [unescape?, ih, unescape_escaped]
    rfl

theorem unquote_quoted (body : List Char) : unquote ('"' :: (body ++ ['"'])) = body := by
  simp [unquote]

theorem unquote?_quoted (body : List Char) : unquote? ('"' :: (body ++ ['"'])) = some body := by
  simp [unquote?]

theorem decode?_of_quotedBody {body : List Char} (h : QuotedBody body) :
    decode? (String.ofList ('"' :: (body ++ ['"']))) =
      some (decode (String.ofList ('"' :: (body ++ ['"'])))) := by
  unfold decode? decode
  rw [String.toList_ofList, unquote?_quoted, unquote_quoted, Option.bind_some,
    unescape?_of_quotedBody h]
  rfl

/-! ## Writing -/

/-- A character as a literal spells it: a backslash, a quote, a line feed and a tab are escaped. -/
def writeChar (c : Char) : List Char :=
  if c = '\\' ∨ c = '"' then ['\\', c]
  else if c = '\n' then ['\\', 'n']
  else if c = '\t' then ['\\', 't']
  else [c]

/-- The literal for a text. -/
def write (s : String) : String := String.ofList ('"' :: (s.toList.flatMap writeChar ++ ['"']))

theorem writeChar_cases (c : Char) :
    (writeChar c = [c] ∧ c ≠ '"' ∧ c ≠ '\\' ∧ c ≠ '\n') ∨
      ∃ d, writeChar c = ['\\', d] ∧ resolve d = c := by
  unfold writeChar
  split
  next h =>
    refine .inr ⟨c, rfl, ?_⟩
    rcases h with rfl | rfl
    · rfl
    · rfl
  next h =>
    rw [not_or] at h
    split
    next hline => exact .inr ⟨'n', rfl, hline.symm⟩
    next hline =>
      split
      next htab => exact .inr ⟨'t', rfl, htab.symm⟩
      next htab => exact .inl ⟨rfl, h.2, h.1, hline⟩

theorem quotedBody_written (cs : List Char) : QuotedBody (cs.flatMap writeChar) := by
  induction cs with
  | nil => exact .nil
  | cons c cs ih =>
    rw [List.flatMap_cons]
    rcases writeChar_cases c with ⟨hwrite, hquote, hslash, hline⟩ | ⟨d, hwrite, -⟩
    · rw [hwrite]
      exact .plain hquote hslash hline ih
    · rw [hwrite]
      exact .escaped d ih

theorem unescape_written (cs : List Char) : unescape (cs.flatMap writeChar) = cs := by
  induction cs with
  | nil => rfl
  | cons c cs ih =>
    rw [List.flatMap_cons]
    rcases writeChar_cases c with ⟨hwrite, -, hslash, -⟩ | ⟨d, hwrite, hresolve⟩
    · rw [hwrite, List.singleton_append, unescape_cons hslash, ih]
    · rw [hwrite, List.cons_append, List.singleton_append, unescape_escaped, hresolve, ih]

/-- A text is what its literal denotes. -/
theorem decode_write (s : String) : decode (write s) = s := by
  unfold decode write
  rw [String.toList_ofList, unquote_quoted, unescape_written, String.ofList_toList]

end Quoted

/-! ## Literals among the tokens -/

/-- The literal for a text is one token. -/
theorem tokenize_write (s : String) :
    tokenize (Quoted.write s) = .ok
      [{ kind := .string, text := Quoted.write s, loc := 0 },
       { kind := .eof, text := "", loc := (Quoted.write s).utf8ByteSize }] := by
  have hstands : Item.Stands [] (.string (Quoted.write s).toList) := by
    rw [Quoted.write, String.toList_ofList]
    exact .string (Quoted.quotedBody_written s.toList)
  have hitems := Munches.item hstands (.done [])
  rw [List.append_nil] at hitems
  have hspells := Token.Spells.string 0 (Quoted.write s).toList
  rw [String.ofList_toList] at hspells
  exact (Munched.tokens hitems (.cons hspells .nil)).tokenize_eq

/-- A string token is a literal that stands in the source at the token's offset. -/
theorem literal_of_mem_tokens {source : String} {tokens : List Token}
    (h : tokenize source = .ok tokens) {t : Token} (ht : t ∈ tokens) (hkind : t.kind = .string) :
    ∃ front body rest, source.toList = front ++ '"' :: (body ++ '"' :: rest) ∧ QuotedBody body ∧
      t.loc = byteSize front ∧ t.text = String.ofList ('"' :: (body ++ ['"'])) := by
  rcases placed_of_mem_tokens h ht with hend | ⟨front, item, rest, hsource, hstands, hspells⟩
  · rw [hkind] at hend
    cases hend
  · cases hspells with
    | string _ cs =>
      cases hstands with
      | @string body hbody =>
        refine ⟨front, body, rest, ?_, hbody, rfl, rfl⟩
        rw [hsource, Item.text, List.cons_append, List.append_assoc, List.singleton_append]
    | _ => cases hkind

theorem slice?_of_mem_tokens {source : String} {tokens : List Token}
    (h : tokenize source = .ok tokens) {t : Token} (ht : t ∈ tokens) (hkind : t.kind = .string) :
    slice? source t.loc t.size = some t.text := by
  obtain ⟨front, body, rest, hsource, -, hloc, htext⟩ := literal_of_mem_tokens h ht hkind
  rw [hloc, Token.size, htext, utf8ByteSize_ofList]
  apply slice?_of_append
  rw [hsource, List.cons_append, List.append_assoc, List.singleton_append]

/-- Among the bytes of the source, a string token ends where it does among the characters. -/
theorem stringEnd_of_mem_tokens {source : String} {tokens : List Token}
    (h : tokenize source = .ok tokens) {t : Token} (ht : t ∈ tokens) (hkind : t.kind = .string) :
    stringEnd ((bytes source).drop (t.loc + 1)) = some (t.size - 1) := by
  obtain ⟨front, body, rest, hsource, hbody, hloc, htext⟩ := literal_of_mem_tokens h ht hkind
  have hquote : '"'.utf8Size = 1 := rfl
  rw [hloc, stringEnd_of_append hsource.symm, splitString_of_quotedBody hbody, Option.map_some,
    Token.size, htext, utf8ByteSize_ofList, byteSize_cons, hquote, Nat.add_sub_cancel_left]

/-! ## Both ways -/

/-- **String literals round trip.** The literal for a text is one string token, and denotes the
text. A string token of any source stands in quotes, the quote at its end is the one that is found
among the bytes, each backslash in it has a character to escape, and the literal for what it denotes
denotes the same. -/
theorem string_literals_round_trip :
    (∀ s : String, ∃ t : Token,
      tokenize (Quoted.write s) = .ok
        [t, { kind := .eof, text := "", loc := (Quoted.write s).utf8ByteSize }] ∧
      t.kind = .string ∧ slice? (Quoted.write s) t.loc t.size = some t.text ∧
      Quoted.decode t.text = s) ∧
    ∀ (source : String) (tokens : List Token), tokenize source = .ok tokens →
      ∀ t ∈ tokens, t.kind = .string →
        slice? source t.loc t.size = some t.text ∧
        (∃ body, t.text = "\"" ++ body ++ "\"") ∧ 2 ≤ t.size ∧
        stringEnd ((bytes source).drop (t.loc + 1)) = some (t.size - 1) ∧
        Quoted.decode? t.text = some (Quoted.decode t.text) ∧
        Quoted.decode (Quoted.write (Quoted.decode t.text)) = Quoted.decode t.text := by
  constructor
  · intro s
    have htokens := tokenize_write s
    refine ⟨_, htokens, rfl, ?_, Quoted.decode_write s⟩
    exact slice?_of_mem_tokens htokens (List.mem_cons_self ..) rfl
  · intro source tokens h t ht hkind
    obtain ⟨front, body, rest, hsource, hbody, hloc, htext⟩ := literal_of_mem_tokens h ht hkind
    refine ⟨slice?_of_mem_tokens h ht hkind, ⟨String.ofList body, ?_⟩, ?_,
      stringEnd_of_mem_tokens h ht hkind, ?_, Quoted.decode_write _⟩
    · rw [htext, ← String.toList_inj]
      simp
    · rw [Token.size, htext, utf8ByteSize_ofList, byteSize_cons, byteSize_append]
      have hquote : '"'.utf8Size = 1 := rfl
      simp only [byteSize_cons, byteSize_nil, hquote]
      omega
    · rw [htext]
      exact Quoted.decode?_of_quotedBody hbody

/-- A literal in which a backslash stands before a character of two bytes, before another backslash
and before the quote behind that, and which has a line feed in it. -/
theorem escaped_literal_round_trips :
    let literal := "\"\\é\\\\\\\"\\\n\""
    let t : Token := { kind := .string, text := literal, loc := 2 }
    let tokens : List Token :=
      [{ kind := .identifier, text := "x", loc := 0 }, t, { kind := .eof, text := "", loc := 14 }]
    tokenize ("x " ++ literal ++ " ") = .ok tokens ∧ t ∈ tokens ∧ t.kind = .string ∧
      Quoted.decode t.text = "é\\\"\n" ∧
      Quoted.decode? t.text = some "é\\\"\n" ∧
      stringEnd ((bytes ("x " ++ literal ++ " ")).drop 3) = some 10 ∧
      Quoted.write (Quoted.decode t.text) = "\"é\\\\\\\"\\n\"" ∧
      Quoted.decode (Quoted.write (Quoted.decode t.text)) = Quoted.decode t.text := by
  intro literal t tokens
  have h : tokenize ("x " ++ literal ++ " ") = .ok tokens := by decide +kernel
  have ht : t ∈ tokens := by decide +kernel
  have hvalue : Quoted.decode t.text = "é\\\"\n" := by decide +kernel
  obtain ⟨-, -, -, hend, hstrict, hagain⟩ :=
    string_literals_round_trip.2 ("x " ++ literal ++ " ") tokens h t ht rfl
  rw [hvalue] at hstrict
  exact ⟨h, ht, rfl, hvalue, hstrict, hend, by decide +kernel, hagain⟩

end BatchCompiler
