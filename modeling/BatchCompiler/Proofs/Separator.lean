/-
# BatchCompiler.Proofs.Separator -- when a semicolon separates two texts

Two texts with a semicolon between them should be read as the statements of the first and then those
of the second. A conditional or a loop in the first text spoils this if its body has no braces: the
body takes the semicolon along, the conditional itself is an operand like any other, and so a suffix
or a sign at the beginning of the second text goes on with it. Nothing else does. A semicolon
separates the second text from every first one exactly if the second does not begin with such a
symbol (`semicolon_separates_iff`).
-/

import BatchCompiler.Proofs.Sequel

namespace BatchCompiler

open BatchCompiler.Parser

/-! ## Texts and their statements -/

/-- The tokens, with the end behind them, are read as a program with this body, up to the places at
which its parts stand. -/
def Spells (ts : List Token) (body : List Node) : Prop :=
  (∀ t ∈ ts, t.kind ≠ .eof) ∧ ∀ size loc, ∃ ns,
    parse size (ts ++ [{ Token.ending with loc }]) = .ok (.program 0 ns) ∧
      Node.eraseAll ns = Node.eraseAll body

theorem program_apply (ts : List Token) :
    program ts = (grammar.statements >>= fun ns => pure (Node.program 0 ns)) ts := by
  show ((rules ts.length).statements >>= fun ns => pure (Node.program 0 ns)) ts = _
  rw [bind_apply, bind_apply]
  rfl

theorem parse_eq_ok_iff {size : Nat} {ts : List Token} {n : Node} :
    parse size ts = .ok n ↔ ∃ ns rest, grammar.statements ts = .ok ns rest ∧ n = .program 0 ns := by
  rw [parse, Parser.outcome, program_apply, bind_apply]
  cases grammar.statements ts with
  | ok ns rest =>
    constructor
    · rintro ⟨⟩
      exact ⟨ns, rest, rfl, rfl⟩
    · rintro ⟨_, _, ⟨⟩, rfl⟩
      rfl
  | error e rest =>
    constructor
    · rintro ⟨⟩
    · rintro ⟨_, _, ⟨⟩, _⟩

/-- It does not matter where the end stands. -/
theorem spells_of_statements {ts : List Token} {body : List Node} (hts : ∀ t ∈ ts, t.kind ≠ .eof)
    {ns : List Node} {rest : List Token}
    (h : grammar.statements (ts ++ [.ending]) = .ok ns rest)
    (herase : Node.eraseAll ns = Node.eraseAll body) : Spells ts body := by
  refine ⟨hts, fun size loc => ?_⟩
  have hsame : List.Forall₂ Token.Same (ts ++ [.ending]) (ts ++ [{ Token.ending with loc }]) :=
    List.rel_append (List.forall₂_same.2 fun t _ => ⟨rfl, rfl, rfl⟩)
      (.cons ⟨rfl, rfl, rfl⟩ .nil)
  obtain ⟨ms, rest', hprogram, hms⟩ := program_of_same hsame h
  refine ⟨ms, ?_, hms.trans herase⟩
  rw [parse, Parser.outcome, hprogram]

theorem Spells.statements {ts : List Token} {body : List Node} (h : Spells ts body) :
    ∃ ns rest, grammar.statements (ts ++ [.ending]) = .ok ns rest ∧
      Node.eraseAll ns = Node.eraseAll body := by
  obtain ⟨ns, hparse, herase⟩ := h.2 0 0
  obtain ⟨_, rest, hns, ⟨⟩⟩ := parse_eq_ok_iff.1 hparse
  exact ⟨ns, rest, hns, herase⟩

theorem Spells.unique {ts : List Token} {P Q : List Node} (hP : Spells ts P) (hQ : Spells ts Q) :
    Node.eraseAll P = Node.eraseAll Q := by
  obtain ⟨ns, rest, hns, hP⟩ := hP.statements
  obtain ⟨ms, rest', hms, hQ⟩ := hQ.statements
  rw [hns] at hms
  cases hms
  exact hP.symm.trans hQ

/-! ## Where a statement begins -/

/-- The symbols that begin an expression and go on with one too. -/
def joiningStarts : List String := ["(", "[", "++", "--", "+", "-"]

/-- An operand begins with an opening symbol, if it begins with a symbol. -/
theorem opener_of_operand {t : Token} {ts rest : List Token} {n : Node}
    (h : grammar.operand (t :: ts) = .ok n rest) {text : String} (htext : t.isSymbol text = true) :
    text ∈ openers.map Prod.fst := by
  obtain ⟨x, mid, hx, hn⟩ := bind_eq_ok_iff.1 h
  rcases acceptAny?_eq_ok hx with ⟨entry, hentry, hsymbol, -, -⟩ | ⟨-, rfl, rfl⟩
  · rw [Token.text_of_isSymbol htext hsymbol]
    exact List.mem_map_of_mem hentry
  · obtain ⟨u, last, hu, -⟩ := bind_eq_ok_iff.1 hn
    have hkind : t.kind ∈ [.identifier, .number, .string] := by
      by_contra hkind
      rw [expect_of_not_mem (forall_head?_cons hkind ts)] at hu
      cases hu
    rcases (Token.isSymbol_iff.1 htext).1 with ht | ht <;> simp [ht] at hkind

/-- An expression begins with a sign or an opening symbol, if it begins with a symbol. -/
theorem start_of_assignment {t : Token} {ts rest : List Token} {n : Node}
    (h : grammar.assignment (t :: ts) = .ok n rest) {text : String}
    (htext : t.isSymbol text = true) : text ∈ joiningStarts ∨ text ∈ freshStarts := by
  have hsigns : ∀ entry ∈ signs, entry.1 ∈ joiningStarts := by decide
  have hopeners : ∀ text ∈ openers.map Prod.fst, text ∈ joiningStarts ∨ text ∈ freshStarts := by
    decide
  -- Whatever the level, an operand with its signs is read first.
  have htier : ∀ tiers n rest, grammar.tier tiers (t :: ts) = .ok n rest →
      ∃ n rest, grammar.sign (t :: ts) = .ok n rest := by
    intro tiers
    induction tiers with
    | nil => exact fun n rest hn => ⟨n, rest, hn⟩
    | cons tier tighter ih =>
      intro n rest hn
      obtain ⟨m, mid, hm, -⟩ := bind_eq_ok_iff.1 hn
      exact ih m mid hm
  obtain ⟨m, mid, hchoice, -⟩ := bind_eq_ok_iff.1 h
  obtain ⟨m, mid, hm, -⟩ := bind_eq_ok_iff.1 hchoice
  obtain ⟨m, mid, hsign⟩ := htier tiers m mid hm
  obtain ⟨x, last, hx, hm⟩ := bind_eq_ok_iff.1 hsign
  rcases acceptAny?_eq_ok hx with ⟨entry, hentry, hsymbol, -, -⟩ | ⟨-, rfl, rfl⟩
  · rw [Token.text_of_isSymbol htext hsymbol]
    exact .inl (hsigns entry hentry)
  · obtain ⟨m, last, hoperand, -⟩ := bind_eq_ok_iff.1 hm
    exact hopeners text (opener_of_operand hoperand htext)

/-- Statements that do not begin with a joining symbol leave alone what stands in front of them. -/
theorem fresh_of_statements {more rest : List Token} {ms : List Node}
    (h : grammar.statements more = .ok ms rest)
    (hsemicolon : ∀ t ∈ more.head?, t.isSymbol ";" = false)
    (hjoining : ∀ t ∈ more.head?, ∀ text ∈ joiningStarts, t.isSymbol text = false) :
    Fresh more := by
  intro t ht text htext
  obtain ⟨ts, rfl⟩ : ∃ ts, more = t :: ts := List.head?_eq_some_iff.1 ht
  rw [statements_of_statement (Token.not_eof_of_isSymbol htext) (hsemicolon t rfl)] at h
  obtain ⟨n, mid, hstatement, -⟩ := bind_eq_ok_iff.1 h
  obtain ⟨n, mid, hassignment, -⟩ := bind_eq_ok_iff.1 hstatement
  rcases start_of_assignment hassignment htext with hmem | hmem
  · rw [hjoining t rfl text hmem] at htext
    cases htext
  · exact hmem

/-! ## Operands that are gone on with -/

/-- What is read is more than a loop. -/
def NotLoop (p : Parser Node) (ts : List Token) : Prop :=
  ∀ n rest, p ts = .ok n rest → n.construct ≠ .loop

theorem construct_join (c : Connective) (l : Nat) (a b : Node) :
    (c.join l a b).construct ≠ .loop := by
  cases c <;> simp [Connective.join, Node.construct]

/-- Behind an operand there is no suffix, or there is one and those that follow it. -/
theorem suffix_cases {r : Rules} {n m : Node} {ts rest : List Token}
    (h : r.suffix n ts = .ok m rest) :
    (acceptAny? suffixes ts = .ok none rest ∧ m = n) ∨
      ∃ n' us, n'.construct ≠ .loop ∧ r.suffixed n' us = .ok m rest := by
  obtain ⟨x, mid, hx, hm⟩ := bind_eq_ok_iff.1 h
  match x with
  | none =>
    cases hm
    exact .inl ⟨hx, rfl⟩
  | some (t, .call) =>
    obtain ⟨args, us, -, hm⟩ := bind_eq_ok_iff.1 hm
    exact .inr ⟨_, us, by simp [Node.construct], hm⟩
  | some (t, .index) =>
    obtain ⟨i, us, -, hm⟩ := bind_eq_ok_iff.1 hm
    obtain ⟨-, us, -, hm⟩ := bind_eq_ok_iff.1 hm
    exact .inr ⟨_, us, by simp [Node.construct], hm⟩
  | some (t, .step op) => exact .inr ⟨_, mid, by simp [Node.construct], hm⟩

/-- Suffixes make no loops. -/
theorem notLoop_suffixed {n : Node} (hn : n.construct ≠ .loop) (ts : List Token) :
    NotLoop (grammar.suffixed n) ts := by
  have hrules : ∀ k n, n.construct ≠ .loop → ∀ ts, NotLoop ((rules k).suffixed n) ts := by
    intro k
    induction k with
    | zero =>
      rintro n hn ts m rest ⟨⟩
      exact hn
    | succ k ih =>
      intro n hn ts m rest hm
      rcases suffix_cases hm with ⟨-, rfl⟩ | ⟨n', us, hn', hm⟩
      · exact hn
      · exact ih n' hn' us m rest hm
  exact hrules ts.length n hn ts

theorem notLoop_suffix {t : Token} {entry : String × Suffix} (hentry : entry ∈ suffixes)
    (ht : t.isSymbol entry.1 = true) (n : Node) (ts : List Token) :
    NotLoop (grammar.suffixed n) (t :: ts) := by
  intro m rest hm
  rw [grammar_suffixed] at hm
  rcases suffix_cases hm with ⟨hnone, -⟩ | ⟨n', us, hn', hm⟩
  · rcases acceptAny?_eq_ok hnone with ⟨_, -, -, ⟨⟩, -⟩ | ⟨hnot, -, -⟩
    rw [hnot entry hentry] at ht
    cases ht
  · exact notLoop_suffixed hn' us m rest hm

/-- What is more than a loop on a tighter level is more than a loop on a looser one. -/
theorem notLoop_loosen {level : Nat} (hpos : 1 ≤ level) (hle : level ≤ 12) {ts : List Token}
    (h : NotLoop (reader (level + 1)) ts) : NotLoop (reader level) ts := by
  intro n rest hn
  match level, hpos, hle with
  | 1, _, _ =>
    obtain ⟨m, mid, hm, hn⟩ := bind_eq_ok_iff.1 hn
    obtain ⟨x, last, -, hn⟩ := bind_eq_ok_iff.1 hn
    match x with
    | none =>
      cases hn
      exact h _ _ hm
    | some t =>
      dsimp only at hn
      split at hn
      · obtain ⟨v, last, -, hn⟩ := bind_eq_ok_iff.1 hn
        cases hn
        simp [Node.construct]
      · cases hn
  | 2, _, _ =>
    obtain ⟨m, mid, hm, hn⟩ := bind_eq_ok_iff.1 hn
    obtain ⟨x, last, -, hn⟩ := bind_eq_ok_iff.1 hn
    match x with
    | none =>
      cases hn
      exact h _ _ hm
    | some t =>
      obtain ⟨a, last, -, hn⟩ := bind_eq_ok_iff.1 hn
      obtain ⟨u, last, -, hn⟩ := bind_eq_ok_iff.1 hn
      obtain ⟨b, last, -, hn⟩ := bind_eq_ok_iff.1 hn
      cases hn
      simp [Node.construct]
  | k + 3, _, hle =>
    have hk : k < tiers.length := by
      show k < 10
      omega
    rw [reader_tier hk] at hn
    obtain ⟨m, mid, hm, hn⟩ := bind_eq_ok_iff.1 hn
    obtain ⟨x, last, -, hn⟩ := bind_eq_ok_iff.1 hn
    match x with
    | none =>
      cases hn
      exact h _ _ hm
    | some (t, c) =>
      obtain ⟨b, last, -, hn⟩ := bind_eq_ok_iff.1 hn
      cases hn
      exact construct_join c t.loc m b

theorem notLoop_of_tighter {k l : Nat} (hpos : 1 ≤ k) (hkl : k ≤ l) (hl : l ≤ 13)
    {ts : List Token} (h : NotLoop (reader l) ts) : NotLoop (reader k) ts := by
  induction hkl with
  | refl => exact h
  | @step l hkl ih =>
    have hle : k ≤ l := hkl
    exact ih (by omega) (notLoop_loosen (by omega) (by omega) h)

/-- Whatever operand stands in front of a joining symbol, more than the operand is read. -/
theorem notLoop_of_joining {t : Token} {text : String} (htext : text ∈ joiningStarts)
    (ht : t.isSymbol text = true) {ts us : List Token} {n : Node}
    (h : grammar.sign ts = grammar.suffixed n (t :: us)) : NotLoop (reader 1) ts := by
  have hcases : ∀ text ∈ joiningStarts, (∃ entry ∈ suffixes, entry.1 = text) ∨
      (∃ entry ∈ tiers[8], entry.1 = text) ∧
        ∀ entry ∈ continuations, entry.1 = text → entry.2 < 12 := by decide
  rcases hcases text htext with ⟨entry, hentry, rfl⟩ | ⟨⟨entry, hentry, rfl⟩, hlevel⟩
  · refine notLoop_of_tighter (l := 13) (Nat.le_refl 1) (by decide) (Nat.le_refl 13) ?_
    show NotLoop grammar.sign ts
    intro m rest hm
    rw [h] at hm
    exact notLoop_suffix hentry ht n us m rest hm
  · -- A sign stops the tighter levels, and on its own level it joins the operand to another one.
    refine notLoop_of_tighter (l := 11) (Nat.le_refl 1) (by decide) (by decide) ?_
    have hstop : Stops 12 (t :: us) :=
      .cons (fun found hfound hsymbol => hlevel found hfound (Token.text_of_isSymbol hsymbol ht)) us
    have hlhs : reader 12 ts = .ok n (t :: us) :=
      Reads.within_of_sign h (by decide) (by decide) hstop
    intro m rest hm
    rw [reader_tier (k := 8) (by decide), bind_of_ok hlhs] at hm
    obtain ⟨x, mid, hx, hjoin⟩ := bind_eq_ok_iff.1 hm
    rcases acceptAny?_eq_ok hx with ⟨found, -, -, rfl, -⟩ | ⟨hnot, -, -⟩
    · obtain ⟨b, last, -, hb⟩ := bind_eq_ok_iff.1 hjoin
      cases hb
      exact construct_join _ _ _ _
    · rw [hnot entry hentry] at ht
      cases ht

/-! ## Loops without braces -/

/-- A loop with a loop as its body, and so on, `k` of them, without braces. -/
def nestedLoops : Nat → List Token
  | 0 => [.name "x"]
  | k + 1 => .symbol "while" :: .symbol "(" :: .name "x" :: .symbol ")" :: nestedLoops k

/-- The node of the nested loops. -/
def nestedLoop : Nat → Node
  | 0 => .identifier 0 "x"
  | k + 1 => .loop 0 (.identifier 0 "x") [nestedLoop k]

theorem nestedLoops_not_end (k : Nat) : ∀ t ∈ nestedLoops k, t.kind ≠ .eof := by
  induction k with
  | zero => decide
  | succ k ih =>
    simp only [nestedLoops, List.forall_mem_cons]
    exact ⟨by decide, by decide, by decide, by decide, ih⟩

section

variable {gap more : List Token} (hgap : ∀ t ∈ gap, t.isSymbol ";" = true)
  (hmore : ∀ t ∈ more.head?, t.isSymbol ";" = false)

include hgap hmore

theorem accept_semicolon_gap : ∃ b, accept ";" (gap ++ more) = .ok b (gap.tail ++ more) := by
  cases gap with
  | nil => exact ⟨false, accept_of_not_symbol hmore⟩
  | cons s gap => exact ⟨true, accept_of_symbol (hgap s List.mem_cons_self) _⟩

/-- The body of a loop takes a semicolon along. -/
theorem operand_nestedLoops {k : Nat} (h : reader 1 (nestedLoops k ++ (gap ++ more)) =
    .ok (nestedLoop k) (gap.drop k ++ more)) :
    grammar.operand (nestedLoops (k + 1) ++ (gap ++ more)) =
      .ok (nestedLoop (k + 1)) (gap.drop (k + 1) ++ more) := by
  have hcond : grammar.condition (.symbol "(" :: .name "x" :: .symbol ")" ::
      (nestedLoops k ++ (gap ++ more))) =
        .ok (.identifier 0 "x") (nestedLoops k ++ (gap ++ more)) := by
    refine condition_of_reader (Reads.whole_of_operand (by rfl) (operand_identifier "x" _) ?_)
    exact stops_closing (by decide) (Nat.le_refl 1) _
  have hbrace : ∀ t ∈ (nestedLoops k ++ (gap ++ more)).head?, t.isSymbol "\x7b" = false := by
    cases k with
    | zero => exact forall_head?_cons (by rfl) _
    | succ k => exact forall_head?_cons (by decide) _
  have hinside : grammar.expression (nestedLoops k ++ (gap ++ more)) =
      .ok (nestedLoop k) (gap.drop k ++ more) := grammar_expression ▸ h
  -- Whether a semicolon is left makes no difference to the body, only to what stands behind it.
  obtain ⟨b, hsemicolon⟩ := accept_semicolon_gap
    (fun t ht => hgap t (List.mem_of_mem_drop (i := k) ht)) hmore
  have hbody : grammar.body (nestedLoops k ++ (gap ++ more)) =
      .ok [nestedLoop k] (gap.drop (k + 1) ++ more) := by
    show (accept "\x7b" >>= _) _ = _
    rw [bind_of_ok (accept_of_not_symbol hbrace)]
    show (grammar.expression >>= _) _ = _
    rw [bind_of_ok hinside, bind_of_ok hsemicolon, List.tail_drop]
    rfl
  show (acceptAny? openers >>= _) _ = _
  rw [show nestedLoops (k + 1) = .symbol "while" :: .symbol "(" :: .name "x" :: .symbol ")" ::
    nestedLoops k from rfl]
  simp only [List.cons_append]
  rw [bind_of_ok (operand_of_opener (by rfl) _)]
  show (grammar.condition >>= _) _ = _
  rw [bind_of_ok hcond]
  exact bind_of_ok hbody

theorem reader_nestedLoops {k : Nat} (hstop : ∀ j ≤ k, Stops 1 (gap.drop j ++ more)) :
    reader 1 (nestedLoops k ++ (gap ++ more)) = .ok (nestedLoop k) (gap.drop k ++ more) := by
  induction k with
  | zero => exact Reads.whole_of_operand (by rfl) (operand_identifier "x" _) (hstop 0 (Nat.le_refl 0))
  | succ k ih =>
    have hinside := ih fun j hj => hstop j (Nat.le_succ_of_le hj)
    exact Reads.whole_of_operand (by decide) (operand_nestedLoops hgap hmore hinside)
      (hstop (k + 1) (Nat.le_refl _))

end

/-- Up to the end, nested loops are one statement. -/
theorem spells_nestedLoops (k : Nat) : Spells (nestedLoops (k + 1)) [nestedLoop (k + 1)] := by
  have hstop : Stops 1 [Token.ending] :=
    .cons (fun entry _ hsymbol => by cases hsymbol) []
  have hread : grammar.assignment (nestedLoops (k + 1) ++ [.ending]) =
      .ok (nestedLoop (k + 1)) [.ending] := by
    have hnone : ∀ t ∈ ([] : List Token), t.isSymbol ";" = true :=
      fun t ht => absurd ht List.not_mem_nil
    exact reader_nestedLoops hnone (not_symbol_ending ";") fun j _ => by simpa using hstop
  have hstatement : grammar.statement (nestedLoops (k + 1) ++ [.ending]) =
      .ok (nestedLoop (k + 1)) [.ending] := by
    show (grammar.assignment >>= _) _ = _
    rw [bind_of_ok hread, bind_of_ok (accept_of_not_symbol (not_symbol_ending ";"))]
    rfl
  have hstatements : grammar.statements (nestedLoops (k + 1) ++ [.ending]) =
      .ok [nestedLoop (k + 1)] [.ending] := by
    show grammar.statements (.symbol "while" :: _) = _
    rw [statements_of_statement (by decide) (by decide)]
    refine (bind_of_ok hstatement).trans ?_
    exact bind_of_ok (statements_nil [])
  exact spells_of_statements (nestedLoops_not_end _) hstatements rfl

/-- With as many semicolons as loops behind them, and a joining symbol, they are not. -/
theorem notLoop_nestedLoops {k : Nat} {gap : List Token} (hgap : ∀ t ∈ gap, t.isSymbol ";" = true)
    (hlength : gap.length = k + 1) {t : Token} {text : String} (htext : text ∈ joiningStarts)
    (ht : t.isSymbol text = true) (ts : List Token) :
    NotLoop (reader 1) (nestedLoops (k + 1) ++ (gap ++ t :: ts)) := by
  have hsemicolon : ∀ u ∈ (t :: ts).head?, u.isSymbol ";" = false := by
    refine forall_head?_cons ?_ ts
    rw [Bool.eq_false_iff]
    intro hsymbol
    rw [Token.text_of_isSymbol ht hsymbol] at htext
    exact absurd htext (by decide)
  -- Behind every loop but the outermost, a semicolon is left.
  have hstop : ∀ j ≤ k, Stops 1 (gap.drop j ++ t :: ts) := by
    intro j hj
    have hlt : j < gap.length := by omega
    have hnone : ∀ entry ∈ continuations, entry.1 ≠ ";" := by decide
    rw [List.drop_eq_getElem_cons hlt]
    refine .cons (fun entry hentry hsymbol => ?_) _
    exact absurd (Token.text_of_isSymbol hsymbol (hgap _ (List.getElem_mem hlt)))
      (hnone entry hentry)
  have hoperand := operand_nestedLoops hgap hsemicolon (reader_nestedLoops hgap hsemicolon hstop)
  rw [List.drop_of_length_le (Nat.le_of_eq hlength), List.nil_append] at hoperand
  exact notLoop_of_joining htext ht (sign_of_operand (by decide) hoperand)

/-! ## Semicolons -/

/-- The semicolons between the texts are the one that was put there and those at the beginning of the
second text. -/
theorem append_semicolons (A B : List Token) (s : Token) :
    A ++ s :: B ++ [.ending] = A ++ ((s :: B.takeWhile (·.isSymbol ";")) ++
      (B.dropWhile (·.isSymbol ";") ++ [.ending])) := by
  have hB : B.takeWhile (·.isSymbol ";") ++ B.dropWhile (·.isSymbol ";") = B :=
    List.takeWhile_append_dropWhile
  rw [List.cons_append, ← List.append_assoc (B.takeWhile _), hB]
  simp

theorem forall_semicolons {s : Token} (hs : s.isSymbol ";" = true) (B : List Token) :
    ∀ t ∈ s :: B.takeWhile (·.isSymbol ";"), t.isSymbol ";" = true :=
  List.forall_mem_cons.2 ⟨hs, List.all_eq_true.1 List.all_takeWhile⟩

/-- Up to the end, a text is read as what stands behind its semicolons. -/
theorem statements_dropWhile (B : List Token) :
    grammar.statements (B ++ [.ending]) =
      grammar.statements (B.dropWhile (·.isSymbol ";") ++ [.ending]) := by
  conv_lhs => rw [← List.takeWhile_append_dropWhile (p := (·.isSymbol ";")) (l := B)]
  rw [List.append_assoc, statements_gap (List.all_eq_true.1 List.all_takeWhile)]

theorem separates_of_not_joining {s : Token} (hs : s.isSymbol ";" = true) {A B : List Token}
    {P Q : List Node} (hA : Spells A P) (hB : Spells B Q)
    (h : ∀ t ∈ (B.dropWhile (·.isSymbol ";")).head?, ∀ text ∈ joiningStarts,
      t.isSymbol text = false) : Spells (A ++ s :: B) (P ++ Q) := by
  obtain ⟨ns, rest, hns, hP⟩ := hA.statements
  obtain ⟨ms, rest', hms, hQ⟩ := hB.statements
  rw [statements_dropWhile] at hms
  -- Behind its semicolons, the second text is at its end or at the beginning of a statement.
  have hfresh : Fresh (B.dropWhile (·.isSymbol ";") ++ [.ending]) := by
    refine fresh_of_statements hms ?_ ?_
    · cases hmore : B.dropWhile (·.isSymbol ";") with
      | nil => exact not_symbol_ending ";"
      | cons t more =>
        rintro u ⟨⟩
        have hhead := List.head?_dropWhile_not (·.isSymbol ";") B
        rw [hmore] at hhead
        simpa using hhead
    · cases hmore : B.dropWhile (·.isSymbol ";") with
      | nil => exact fun t ht text _ => not_symbol_ending text t ht
      | cons t more =>
        rintro u ⟨⟩
        rw [hmore] at h
        exact h t rfl
  have hkinds : ∀ t ∈ A ++ s :: B, t.kind ≠ .eof := by
    intro t ht
    rcases List.mem_append.1 ht with ht | ht
    · exact hA.1 t ht
    · rcases List.mem_cons.1 ht with rfl | ht
      · exact Token.not_eof_of_isSymbol hs
      · exact hB.1 t ht
  have hjoined := statements_of_extends hfresh hms (.append (forall_semicolons hs B) hA.1) hns
  rw [← append_semicolons] at hjoined
  refine spells_of_statements hkinds hjoined ?_
  rw [Node.eraseAll_append, Node.eraseAll_append, hP, hQ]

/-- Behind as many loops as there are semicolons, a text that begins with a joining symbol is not read
on its own. -/
theorem not_separates_of_joining {s : Token} (hs : s.isSymbol ";" = true) {B : List Token} {t : Token}
    (ht : t ∈ (B.dropWhile (·.isSymbol ";")).head?) {text : String} (htext : text ∈ joiningStarts)
    (hsymbol : t.isSymbol text = true) :
    ∃ A P, Spells A P ∧ ∀ Q, ¬ Spells (A ++ s :: B) (P ++ Q) := by
  obtain ⟨more, hmore⟩ := List.head?_eq_some_iff.1 ht
  let k := (B.takeWhile (·.isSymbol ";")).length
  refine ⟨nestedLoops (k + 1), [nestedLoop (k + 1)], spells_nestedLoops k, ?_⟩
  intro Q hspells
  obtain ⟨ns, rest, hns, herase⟩ := hspells.statements
  rw [append_semicolons, hmore] at hns
  have hnot := notLoop_nestedLoops (k := k) (forall_semicolons hs B) rfl htext hsymbol
    (more ++ [.ending])
  -- The first statement begins with the outermost loop, but it goes on behind it.
  have hstatements := statements_of_statement (t := .symbol "while") (by decide) (by decide)
    (.symbol "(" :: .name "x" :: .symbol ")" :: (nestedLoops k ++
      ((s :: B.takeWhile (·.isSymbol ";")) ++ (t :: more ++ [.ending]))))
  obtain ⟨n, mid, hn, hrest⟩ := bind_eq_ok_iff.1 (hstatements.symm.trans hns)
  obtain ⟨others, last, -, hlast⟩ := bind_eq_ok_iff.1 hrest
  cases hlast
  obtain ⟨m, mid, hm, hskip⟩ := bind_eq_ok_iff.1 hn
  obtain ⟨b, last, -, hlast⟩ := bind_eq_ok_iff.1 hskip
  cases hlast
  have hconstruct : n.construct = .loop := by
    rw [← Node.construct_erase, (List.cons.inj herase).1]
    rfl
  exact hnot n mid hm hconstruct

/-- A semicolon separates a text from every text in front of it, unless the text begins with a symbol
that goes on with an expression, semicolons of its own aside. -/
theorem semicolon_separates_iff {s : Token} (hs : s.isSymbol ";" = true) {B : List Token}
    {Q : List Node} (hB : Spells B Q) :
    (∀ A P, Spells A P → Spells (A ++ s :: B) (P ++ Q)) ↔
      ∀ t ∈ (B.dropWhile (·.isSymbol ";")).head?, ∀ text ∈ joiningStarts,
        t.isSymbol text = false := by
  constructor
  · intro hseparates t ht text htext
    rw [Bool.eq_false_iff]
    intro hsymbol
    obtain ⟨A, P, hA, hnot⟩ := not_separates_of_joining hs ht htext hsymbol
    exact hnot Q (hseparates A P hA)
  · intro hjoining A P hA
    exact separates_of_not_joining hs hA hB hjoining

/-- The tokens of `if (a) b = 1`. -/
def openConditional : List Token :=
  [.symbol "if", .symbol "(", .name "a", .symbol ")", .name "b", .symbol "=", .number 1]

/-- The node of `if (a) b = 1`. -/
def openConditionalNode : Node :=
  .branch 0 (.identifier 0 "a") [.assign 0 (.identifier 0 "b") (.integer 0 1)] []

theorem semicolon_separates_conditional :
    Spells (.symbol ";" :: openConditional) [openConditionalNode] ∧
    ∀ A P, Spells A P → Spells (A ++ .symbol ";" :: .symbol ";" :: openConditional)
      (P ++ [openConditionalNode]) := by
  have hread : grammar.statements (.symbol ";" :: openConditional ++ [.ending]) =
      .ok [openConditionalNode] [.ending] := by rfl
  have hB : Spells (.symbol ";" :: openConditional) [openConditionalNode] :=
    spells_of_statements (by decide) hread rfl
  exact ⟨hB, (semicolon_separates_iff (by decide) hB).2 (by decide)⟩

/-- Behind `if (a) b = 1`, the semicolon does not separate `++c`: the step is applied to the
conditional, and `c` is left as a statement. -/
theorem semicolon_joins_increment :
    Spells openConditional [openConditionalNode] ∧
    Spells [.symbol "++", .name "c"] [.step 0 .inc true (.identifier 0 "c")] ∧
    Spells (openConditional ++ .symbol ";" :: [.symbol "++", .name "c"])
      [.step 0 .inc false openConditionalNode, .identifier 0 "c"] ∧
    ¬ Spells (openConditional ++ .symbol ";" :: [.symbol "++", .name "c"])
      ([openConditionalNode] ++ [.step 0 .inc true (.identifier 0 "c")]) := by
  have hfirst : grammar.statements (openConditional ++ [.ending]) =
      .ok [openConditionalNode] [.ending] := by rfl
  have hsecond : grammar.statements [.symbol "++", .name "c", .ending] =
      .ok [.step 0 .inc true (.identifier 0 "c")] [.ending] := by rfl
  have hboth : grammar.statements
      (openConditional ++ .symbol ";" :: [.symbol "++", .name "c"] ++ [.ending]) =
        .ok [.step 0 .inc false openConditionalNode, .identifier 0 "c"] [.ending] := by rfl
  have hjoined := spells_of_statements (by decide) hboth rfl
  refine ⟨spells_of_statements (by decide) hfirst rfl, spells_of_statements (by decide) hsecond rfl,
    hjoined, ?_⟩
  intro hseparate
  cases hjoined.unique hseparate

end BatchCompiler
