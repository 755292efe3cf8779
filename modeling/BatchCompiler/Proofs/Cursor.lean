/-
# BatchCompiler.Proofs.Cursor -- what each step of a parser does to the tokens

One equation for each primitive parser, on tokens of which the first is given, and for a sequence of
two parsers. Proofs about the grammar go through these equations, so none of them has to know how
parsers are represented.
-/

import BatchCompiler.Parse.Grammar

namespace BatchCompiler

theorem Token.isSymbol_iff {t : Token} {text : String} :
    t.isSymbol text = true ↔ (t.kind = .punctuator ∨ t.kind = .keyword) ∧ t.text = text := by
  simp [Token.isSymbol]

theorem Token.text_of_isSymbol {t : Token} {text text' : String} (h : t.isSymbol text = true)
    (h' : t.isSymbol text' = true) : text = text' :=
  (Token.isSymbol_iff.1 h).2.symm.trans (Token.isSymbol_iff.1 h').2

theorem Token.not_eof_of_isSymbol {t : Token} {text : String} (h : t.isSymbol text = true) :
    t.kind ≠ .eof := by
  rcases (Token.isSymbol_iff.1 h).1 with hkind | hkind <;> simp [hkind]

/-- What holds of the first token holds of the one at the cursor. -/
theorem forall_head?_cons {P : Token → Prop} {t : Token} (h : P t) (ts : List Token) :
    ∀ u ∈ (t :: ts).head?, P u := by
  rintro u ⟨⟩
  exact h

namespace Parser

variable {α β : Type}

/-! ## Sequences -/

theorem bind_apply (p : Parser α) (f : α → Parser β) (ts : List Token) :
    (p >>= f) ts = match p ts with
      | .ok a rest => f a rest
      | .error e rest => .error e rest := by
  show EStateM.bind p f ts = _
  unfold EStateM.bind
  cases p ts <;> rfl

theorem bind_of_ok {p : Parser α} {f : α → Parser β} {ts rest : List Token} {a : α}
    (h : p ts = .ok a rest) : (p >>= f) ts = f a rest := by
  rw [bind_apply, h]

theorem bind_eq_ok_iff {p : Parser α} {f : α → Parser β} {ts rest : List Token} {b : β} :
    (p >>= f) ts = .ok b rest ↔ ∃ a mid, p ts = .ok a mid ∧ f a mid = .ok b rest := by
  rw [bind_apply]
  constructor
  · intro h
    cases hp : p ts with
    | ok a mid =>
      rw [hp] at h
      exact ⟨a, mid, rfl, h⟩
    | error e mid =>
      rw [hp] at h
      cases h
  · rintro ⟨a, mid, hp, hf⟩
    rw [hp]
    exact hf

/-! ## Primitive parsers -/

@[simp] theorem pure_apply (a : α) (ts : List Token) : (pure a : Parser α) ts = .ok a ts := rfl

@[simp] theorem reject_apply (problem : ParseProblem) (ts : List Token) :
    (reject problem : Parser α) ts = .error (.atCursor problem) ts := rfl

@[simp] theorem peek?_apply (ts : List Token) : peek? ts = .ok ts.head? ts := rfl

@[simp] theorem atEnd_apply (ts : List Token) : atEnd ts = .ok (Token.isEnd ts.head?) ts := rfl

theorem accept?_of_symbol {t : Token} {text : String} (h : t.isSymbol text = true)
    (ts : List Token) : accept? text (t :: ts) = .ok (some t) ts := by
  simp [accept?, h]

theorem accept?_of_not_symbol {text : String} {ts : List Token}
    (h : ∀ t ∈ ts.head?, t.isSymbol text = false) : accept? text ts = .ok none ts := by
  cases ts with
  | nil => rfl
  | cons t ts =>
    have ht : t.isSymbol text = false := h t rfl
    simp [accept?, ht]

theorem accept_of_symbol {t : Token} {text : String} (h : t.isSymbol text = true)
    (ts : List Token) : accept text (t :: ts) = .ok true ts :=
  bind_of_ok (accept?_of_symbol h ts)

theorem accept_of_not_symbol {text : String} {ts : List Token}
    (h : ∀ t ∈ ts.head?, t.isSymbol text = false) : accept text ts = .ok false ts :=
  bind_of_ok (accept?_of_not_symbol h)

/-- The first symbol of the table that is at the cursor is read. -/
theorem acceptAny?_cons (table : List (String × α)) (t : Token) (ts : List Token) :
    acceptAny? table (t :: ts) = match table.find? fun entry => t.isSymbol entry.1 with
      | some entry => .ok (some (t, entry.2)) ts
      | none => .ok none (t :: ts) := by
  induction table with
  | nil => rfl
  | cons entry table ih =>
    obtain ⟨text, a⟩ := entry
    unfold acceptAny?
    cases h : t.isSymbol text with
    | true =>
      rw [bind_of_ok (accept?_of_symbol h ts)]
      simp [h]
    | false =>
      rw [bind_of_ok (accept?_of_not_symbol (forall_head?_cons h ts))]
      simpa [List.find?_cons, h] using ih

theorem acceptAny?_nil (table : List (String × α)) : acceptAny? table [] = .ok none [] := by
  induction table with
  | nil => rfl
  | cons entry table ih => exact ih

/-- If no symbol of the table is at the cursor, none is read. -/
theorem acceptAny?_of_not_symbol {table : List (String × α)} {ts : List Token}
    (h : ∀ t ∈ ts.head?, ∀ entry ∈ table, t.isSymbol entry.1 = false) :
    acceptAny? table ts = .ok none ts := by
  cases ts with
  | nil => exact acceptAny?_nil table
  | cons t ts =>
    have hnone : table.find? (fun entry => t.isSymbol entry.1) = none := by
      rw [List.find?_eq_none]
      intro entry hentry
      simp [h t rfl entry hentry]
    rw [acceptAny?_cons, hnone]

/-- A symbol of the table was read, or nothing was. -/
theorem acceptAny?_eq_ok {table : List (String × α)} {t : Token} {ts rest : List Token}
    {x : Option (Token × α)} (h : acceptAny? table (t :: ts) = .ok x rest) :
    (∃ entry ∈ table, t.isSymbol entry.1 = true ∧ x = some (t, entry.2) ∧ rest = ts) ∨
      (∀ entry ∈ table, t.isSymbol entry.1 = false) ∧ x = none ∧ rest = t :: ts := by
  rw [acceptAny?_cons] at h
  cases hfind : table.find? fun entry => t.isSymbol entry.1 with
  | some entry =>
    rw [hfind] at h
    cases h
    have hsymbol : t.isSymbol entry.1 = true := by simpa using List.find?_some hfind
    exact .inl ⟨entry, List.mem_of_find?_eq_some hfind, hsymbol, rfl, rfl⟩
  | none =>
    rw [hfind] at h
    cases h
    refine .inr ⟨fun entry hentry => ?_, rfl, rfl⟩
    simpa using List.find?_eq_none.1 hfind entry hentry

theorem require_of_symbol {t : Token} {text : String} (h : t.isSymbol text = true)
    (ts : List Token) : require text (t :: ts) = .ok () ts :=
  bind_of_ok (accept_of_symbol h ts)

theorem require_of_not_symbol {text : String} {ts : List Token}
    (h : ∀ t ∈ ts.head?, t.isSymbol text = false) :
    require text ts = .error (.atCursor (.expected text)) ts :=
  bind_of_ok (accept_of_not_symbol h)

theorem expect_of_mem {t : Token} {kinds : List TokenKind} (h : t.kind ∈ kinds)
    (ts : List Token) : expect kinds (t :: ts) = .ok t ts := by
  simp [expect, h]

theorem expect_of_not_mem {kinds : List TokenKind} {ts : List Token}
    (h : ∀ t ∈ ts.head?, t.kind ∉ kinds) :
    expect kinds ts = .error (.atCursor (.expectedKind kinds)) ts := by
  cases ts with
  | nil => rfl
  | cons t ts => simp [expect, h t rfl]

theorem identifier_of_kind {t : Token} (h : t.kind = .identifier) (ts : List Token) :
    identifier (t :: ts) = .ok t.text ts :=
  bind_of_ok (expect_of_mem (by simp [h]) ts)

theorem identifier?_of_kind {t : Token} (h : t.kind = .identifier) (ts : List Token) :
    identifier? (t :: ts) = .ok (some t.text) ts := by
  unfold identifier?
  rw [bind_of_ok (peek?_apply _)]
  simp only [List.head?_cons, if_pos h]
  exact bind_of_ok (identifier_of_kind h ts)

theorem identifier?_of_not_kind {ts : List Token} (h : ∀ t ∈ ts.head?, t.kind ≠ .identifier) :
    identifier? ts = .ok none ts := by
  unfold identifier?
  rw [bind_of_ok (peek?_apply _)]
  cases ts with
  | nil => rfl
  | cons t ts =>
    have ht : t.kind ≠ .identifier := h t rfl
    simp only [List.head?_cons, if_neg ht]
    rfl

end Parser

end BatchCompiler
