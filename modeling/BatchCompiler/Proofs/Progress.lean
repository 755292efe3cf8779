/-
# BatchCompiler.Proofs.Progress -- the grammar comes to an end

The rules of the grammar call each other in a circle, down a ladder of levels on which nothing is
read before the last. What keeps them from going round for ever is that no round is complete without
a token. So there are at most as many rounds as tokens, and one more: the rules that would be called
after them may be any rules at all, for they are not called (`program_iterate`).

All this holds of any list of tokens, whether or not it comes from a source text, and wherever in it
an end stands. A program is read up to the first end, or up to the end of the list.
-/

import BatchCompiler.Proofs.Constant
import BatchCompiler.Proofs.ValidPrefix

namespace BatchCompiler

open Likeness

/-! ## The cursor -/

/-- Started anywhere in the list, the parser leaves the cursor in the list. If it succeeds, it has
moved the cursor on by `d` tokens at least; if it fails, it has not moved it back. -/
def Parser.MovesOn {α : Type} (tokens : List Token) (d : Nat) (p : Parser α) : Prop :=
  ∀ i ≤ tokens.length,
    (∀ a rest, p (tokens.drop i) = .ok a rest →
      ∃ j, rest = tokens.drop j ∧ i + d ≤ j ∧ j ≤ tokens.length) ∧
    ∀ e rest, p (tokens.drop i) = .error e rest →
      ∃ j, rest = tokens.drop j ∧ i ≤ j ∧ j ≤ tokens.length

/-- What is left of what is left. -/
theorem exists_drop_of_suffix {tokens rest : List Token} {i d : Nat} (hi : i ≤ tokens.length)
    (h : rest <:+ tokens.drop i) (hd : rest.length + d ≤ (tokens.drop i).length) :
    ∃ j, rest = tokens.drop j ∧ i + d ≤ j ∧ j ≤ tokens.length := by
  have hdrop : rest = tokens.drop (tokens.length - rest.length) :=
    List.suffix_iff_eq_drop.1 (h.trans (List.drop_suffix i tokens))
  rw [List.length_drop] at hd
  exact ⟨tokens.length - rest.length, hdrop, by omega, by omega⟩

theorem eq_of_same_tokens {ts us : List Token} (h : List.Forall₂ same.token ts us) : us = ts := by
  induction h with
  | nil => rfl
  | cons htoken _ ih => rw [htoken.1, ih]

/-- Parsers that are alike move the cursor on. -/
theorem Alike.movesOn {α β : Type} {tokens : List Token} {n d : Nat} {R : α → β → Prop}
    {p : Parser α} {q : Parser β} (h : Alike same n d R p q) (hn : tokens.length ≤ n) :
    Parser.MovesOn tokens d q := by
  intro i hi
  have hlength : (tokens.drop i).length ≤ n :=
    Nat.le_trans (List.drop_suffix i tokens).length_le hn
  have hrun := h (tokens.drop i) (tokens.drop i) (same_tokens _) hlength
  constructor
  · intro b rest hq
    rw [hq] at hrun
    split at hrun
    next hok =>
      cases hok
      obtain ⟨-, hsame, hsuffix, hd⟩ := hrun
      rw [eq_of_same_tokens hsame]
      exact exists_drop_of_suffix hi hsuffix hd
    next hok => cases hok
    next => exact hrun.elim
  · intro e rest hq
    rw [hq] at hrun
    split at hrun
    next hok => cases hok
    next herror =>
      cases herror
      obtain ⟨-, hsame, hsuffix⟩ := hrun
      rw [eq_of_same_tokens hsame]
      exact exists_drop_of_suffix (d := 0) hi hsuffix hsuffix.length_le
    next => exact hrun.elim

/-- Whatever reads a part of a program moves the cursor on. Only the loops over suffixes and over
statements may find nothing to read. -/
structure Rules.Advances (tokens : List Token) (r : Rules) : Prop where
  statement : Parser.MovesOn tokens 1 r.statement
  body : Parser.MovesOn tokens 1 r.body
  block : Parser.MovesOn tokens 1 r.block
  expression : Parser.MovesOn tokens 1 r.expression
  assignment : Parser.MovesOn tokens 1 r.assignment
  choice : Parser.MovesOn tokens 1 r.choice
  tier : ∀ ts, Parser.MovesOn tokens 1 (r.tier ts)
  sign : Parser.MovesOn tokens 1 r.sign
  place : Parser.MovesOn tokens 1 (r.operand >>= r.suffixed)
  operand : Parser.MovesOn tokens 1 r.operand
  list : ∀ close, Parser.MovesOn tokens 1 (r.list close)
  params : Parser.MovesOn tokens 1 r.params
  function : ∀ loc, Parser.MovesOn tokens 1 (r.function loc)
  branch : ∀ loc, Parser.MovesOn tokens 1 (r.branch loc)
  loop : ∀ loc, Parser.MovesOn tokens 1 (r.loop loc)
  suffixed : ∀ n, Parser.MovesOn tokens 0 (r.suffixed n)
  statements : Parser.MovesOn tokens 0 r.statements

theorem advances_grammar (tokens : List Token) : grammar.Advances tokens := by
  have hK : same.Lawful := named_lawful _
  have h : (rules tokens.length).Alike same tokens.length grammar :=
    alike_grammar hK (Nat.le_refl _)
  have hnode (n : Node) : same.node n n := ⟨rfl, fun _ _ => trivial⟩
  have htoken (loc : Nat) : same.token { Token.ending with loc } { Token.ending with loc } :=
    ⟨rfl, fun _ => trivial⟩
  exact {
    statement := (h.statement hK).movesOn (Nat.le_succ _)
    body := (h.body hK).movesOn (Nat.le_refl _)
    block := h.block.movesOn (Nat.le_refl _)
    expression := h.expression.movesOn (Nat.le_refl _)
    assignment := (h.assignment hK).movesOn (Nat.le_succ _)
    choice := (h.choice hK).movesOn (Nat.le_succ _)
    tier := fun ts => (h.tier hK ts).movesOn (Nat.le_succ _)
    sign := (h.sign hK).movesOn (Nat.le_succ _)
    place := (Alike.andThen (h.operand hK) fun _ _ hm => h.suffixed hm).movesOn (Nat.le_succ _)
    operand := (h.operand hK).movesOn (Nat.le_succ _)
    list := fun close => (h.list hK close).movesOn (Nat.le_refl _)
    params := (h.params hK).movesOn (Nat.le_refl _)
    function := fun loc => (h.function hK (htoken loc)).movesOn (Nat.le_refl _)
    branch := fun loc => (h.branch hK (htoken loc)).movesOn (Nat.le_refl _)
    loop := fun loc => (h.loop hK (htoken loc)).movesOn (Nat.le_refl _)
    suffixed := fun n => (h.suffixed (hnode n)).movesOn (Nat.le_refl _)
    statements := h.statements.movesOn (Nat.le_refl _) }

/-! ## Rounds -/

/-- After more rounds than there are tokens, it does not matter which rules would be called next. -/
theorem alike_iterate {K : Likeness} (hK : K.Lawful) (r : Rules) {n k m : Nat} (hk : n ≤ k)
    (hm : n ≤ m) : (Rules.next^[k + 1] r).Alike K n (rules m) := by
  rw [Function.iterate_succ_apply']
  induction n generalizing k m with
  | zero => exact (Rules.exhausts_next _).alike (exhausts_rules m)
  | succ n ih =>
    -- Behind the first token, there is one round less to go and one token less to read.
    obtain ⟨k, rfl⟩ := Nat.exists_eq_add_of_lt hk
    obtain ⟨m, rfl⟩ := Nat.exists_eq_add_of_lt hm
    rw [Function.iterate_succ_apply']
    exact (ih (Nat.le_of_succ_le_succ hk) (Nat.le_of_succ_le_succ hm)).next hK

/-- A program takes one round for each of its tokens, and one more at the end. -/
theorem program_iterate (r : Rules) {tokens : List Token} {k : Nat} (hk : tokens.length < k) :
    program tokens =
      (do return .program 0 (← (Rules.next^[k] r).statements) : Parser Node) tokens := by
  obtain ⟨k, rfl⟩ := Nat.exists_eq_add_of_lt hk
  have halike := alike_iterate (named_lawful fun _ => True) r (Nat.le_add_right tokens.length k)
    (Nat.le_refl tokens.length)
  have hstatements : (Rules.next^[tokens.length + k + 1] r).statements tokens =
      (rules tokens.length).statements tokens :=
    halike.statements.eq_of_same (fun _ _ hns => (named_nodes hns).1) (Nat.le_refl _)
  rw [Parser.bind_apply, hstatements]
  exact Parser.bind_apply _ _ _

/-! ## Where a program ends -/

/-- Statements are read up to the end. -/
theorem isEnd_of_statements {ts rest : List Token} {ns : List Node}
    (h : grammar.statements ts = .ok ns rest) : Token.isEnd rest.head? = true := by
  -- By induction on how many tokens are left: a semicolon takes one, and a statement at least one.
  induction hlength : ts.length using Nat.strongRecOn generalizing ts ns with
  | ind k ih =>
    cases hend : Token.isEnd ts.head? with
    | true =>
      rw [grammar_statements, Parser.bind_of_ok (Parser.atEnd_apply _), hend] at h
      cases h
      exact hend
    | false =>
      obtain ⟨t, ts, rfl⟩ : ∃ t us, ts = t :: us := by
        refine List.exists_cons_of_ne_nil ?_
        rintro rfl
        cases hend
      have hkind : t.kind ≠ .eof := by simpa [Token.isEnd] using hend
      cases hsemicolon : t.isSymbol ";" with
      | true =>
        rw [statements_semicolon hsemicolon] at h
        exact ih ts.length (by simp [← hlength]) h rfl
      | false =>
        rw [statements_of_statement hkind hsemicolon] at h
        obtain ⟨n, mid, hn, hrest⟩ := Parser.bind_eq_ok_iff.1 h
        obtain ⟨ns, last, hns, hlast⟩ := Parser.bind_eq_ok_iff.1 hrest
        cases hlast
        exact ih mid.length (hlength ▸ length_lt_of_statement hn) hns rfl

/-- A program ends at the first end, or where the tokens do. -/
theorem cursor_of_program {tokens rest : List Token} {n : Node}
    (h : program tokens = .ok n rest) :
    ∃ k ≤ tokens.length, rest = tokens.drop k ∧ (∀ t ∈ tokens.take k, t.kind ≠ .eof) ∧
      ∀ t, tokens[k]? = some t → t.kind = .eof := by
  -- No rule reads an end, so there is none in what was read.
  obtain ⟨front, hfront, -, hread, -⟩ := ((viable_program _).run (Nat.le_refl _)).ok h
  subst hfront
  have hend : Token.isEnd rest.head? = true := by
    rw [program_apply] at h
    obtain ⟨ns, mid, hns, hmid⟩ := Parser.bind_eq_ok_iff.1 h
    cases hmid
    exact isEnd_of_statements hns
  refine ⟨front.length, by simp, by simp, by simpa using hread, ?_⟩
  intro t ht
  rw [List.getElem?_append_right (Nat.le_refl _), Nat.sub_self, ← List.head?_eq_getElem?] at ht
  rw [ht] at hend
  simpa [Token.isEnd] using hend

/-- **The parser makes progress and comes to an end** on every list of tokens in which no number is
the least integer. It goes round the rules no more often than there are tokens, and once more at the
end, so that it does not matter what would be called then. No minus sign takes an integer out of the
language. What reads a part of a program moves the cursor on when it succeeds, does not move it back
when it fails, and leaves it among the tokens. A program that is read ends at the first end, or
where the tokens do. -/
theorem parser_progresses (tokens : List Token)
    (hvalues : ∀ t ∈ tokens, t.kind = .number → ∀ v, t.value = some v →
      fitsInteger v = true ∧ v ≠ minInteger) :
    (∀ r k, tokens.length < k → program tokens =
      (do return .program 0 (← (Rules.next^[k] r).statements) : Parser Node) tokens) ∧
    (∀ v, Negates tokens v → fitsInteger (-v) = true) ∧
    grammar.Advances tokens ∧
    ∀ size n rest, program.outcome size tokens = (.ok n, rest) →
      ∃ k ≤ tokens.length, rest = tokens.drop k ∧ (∀ t ∈ tokens.take k, t.kind ≠ .eof) ∧
        ∀ t, tokens[k]? = some t → t.kind = .eof := by
  have hrange : TokensInRange tokens := by
    intro t ht hkind v hv
    obtain ⟨hfits, hleast⟩ := hvalues t ht hkind v hv
    obtain ⟨hlow, hhigh⟩ := (fitsInteger_iff v).1 hfits
    unfold minInteger at hlow hleast
    unfold InSymmetricRange maxInteger at *
    exact ⟨by omega, hhigh⟩
  refine ⟨fun r k hk => program_iterate r hk, fun v hv => (hv.inRange hrange).neg.fitsInteger,
    advances_grammar tokens, ?_⟩
  intro size n rest h
  unfold Parser.outcome at h
  split at h
  next hrun =>
    cases h
    exact cursor_of_program hrun
  next => cases h

/-- Tokens that no source has: a number that is negative, an end that is not the last token, and
behind it a parenthesis that nothing opens. -/
def earlyEndTokens : List Token :=
  [{ kind := .punctuator, text := "-", loc := 0 },
   { kind := .number, text := "0", loc := 1, value := some (-9223372036854775807) },
   { kind := .eof, text := "", loc := 2 }, { kind := .punctuator, text := ")", loc := 2 },
   { kind := .eof, text := "", loc := 3 }]

/-- The first end is where the program ends. -/
theorem earlyEndTokens_progress :
    (∀ t ∈ earlyEndTokens, t.kind = .number → ∀ v, t.value = some v →
      fitsInteger v = true ∧ v ≠ minInteger) ∧
    program.outcome 3 earlyEndTokens =
      (.ok (.program 0 [.integer 0 9223372036854775807]), earlyEndTokens.drop 2) ∧
    Negates earlyEndTokens (-9223372036854775807) ∧
    fitsInteger 9223372036854775807 = true ∧ grammar.Advances earlyEndTokens ∧
    ∃ k ≤ earlyEndTokens.length, earlyEndTokens.drop 2 = earlyEndTokens.drop k ∧
      (∀ t ∈ earlyEndTokens.take k, t.kind ≠ .eof) ∧
      ∀ t, earlyEndTokens[k]? = some t → t.kind = .eof := by
  have hvalues : ∀ t ∈ earlyEndTokens, t.kind = .number → ∀ v, t.value = some v →
      fitsInteger v = true ∧ v ≠ minInteger := by
    simp [earlyEndTokens, fitsInteger, minInteger, maxInteger]
  have hnegates : Negates earlyEndTokens (-9223372036854775807) :=
    ⟨[], _, _, 1, earlyEndTokens.drop 2, rfl, rfl, rfl⟩
  have hprogram : program.outcome 3 earlyEndTokens =
      (.ok (.program 0 [.integer 0 9223372036854775807]), earlyEndTokens.drop 2) := rfl
  obtain ⟨-, hsigns, hadvances, hend⟩ := parser_progresses earlyEndTokens hvalues
  exact ⟨hvalues, hprogram, hnegates, hsigns _ hnegates, hadvances, hend _ _ _ hprogram⟩

end BatchCompiler
