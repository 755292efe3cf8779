/-
# BatchCompiler.Proofs.Sequel -- reading on where the tokens ended

Take the end away from a list of tokens and let semicolons and more tokens stand there. Whatever was
read up to the end is read again, as long as what stands there neither goes on with an expression nor
closes anything. Semicolons need care: no expression goes on with one, but the body of a conditional
or of a loop takes one along if it has no braces. So the two lists do not end alike from then on, and
`Extends` leaves open how many of the semicolons are still there.
-/

import BatchCompiler.Proofs.Reading

namespace BatchCompiler

open BatchCompiler.Parser

/-! ## Where one text follows another -/

/-- The symbols that begin an expression, and neither go on with one nor close anything. -/
def freshStarts : List String := ["true", "false", "func", "if", "while", "return"]

/-- If a symbol is at the cursor at all, it does no more than begin an expression. -/
def Fresh (more : List Token) : Prop :=
  ∀ t ∈ more.head?, ∀ text, t.isSymbol text = true → text ∈ freshStarts

/-- In place of the end of the first list, semicolons and `more` stand in the second. -/
inductive Extends (more : List Token) : List Token → List Token → Prop where
  | stop {gap : List Token} : (∀ t ∈ gap, t.isSymbol ";" = true) →
    Extends more [.ending] (gap ++ more)
  | cons {t : Token} {ts us : List Token} : t.kind ≠ .eof → Extends more ts us →
    Extends more (t :: ts) (t :: us)

theorem Extends.append {more gap : List Token} (hgap : ∀ t ∈ gap, t.isSymbol ";" = true)
    {front : List Token} (hfront : ∀ t ∈ front, t.kind ≠ .eof) :
    Extends more (front ++ [.ending]) (front ++ (gap ++ more)) := by
  induction front with
  | nil => exact .stop hgap
  | cons t front ih =>
    rw [List.forall_mem_cons] at hfront
    exact .cons hfront.1 (ih hfront.2)

theorem Fresh.not_symbol {more : List Token} (h : Fresh more) {text : String}
    (htext : text ∉ freshStarts) : ∀ t ∈ more.head?, t.isSymbol text = false := by
  intro t ht
  rw [Bool.eq_false_iff]
  exact fun hsymbol => htext (h t ht text hsymbol)

/-- Behind semicolons too, no symbol is at the cursor but those that begin an expression. -/
theorem Fresh.gap_not_symbol {more gap : List Token} (h : Fresh more)
    (hgap : ∀ t ∈ gap, t.isSymbol ";" = true) {text : String} (htext : text ∉ ";" :: freshStarts) :
    ∀ t ∈ (gap ++ more).head?, t.isSymbol text = false := by
  rw [List.mem_cons, not_or] at htext
  cases gap with
  | nil => exact h.not_symbol htext.2
  | cons s gap =>
    refine forall_head?_cons ?_ _
    rw [Bool.eq_false_iff]
    intro hsymbol
    exact htext.1 (Token.text_of_isSymbol hsymbol (hgap s List.mem_cons_self))

theorem Token.isSymbol_ending (text : String) : Token.ending.isSymbol text = false := rfl

theorem not_symbol_ending (text : String) :
    ∀ t ∈ [Token.ending].head?, t.isSymbol text = false :=
  forall_head?_cons (Token.isSymbol_ending text) []

/-! ## Parsers that read on -/

/-- The parser does not succeed at the end. -/
def FailsAtEnd {α : Type} (p : Parser α) : Prop := ∀ a rest, p [.ending] ≠ .ok a rest

namespace FailsAtEnd

variable {α β : Type} {p : Parser α}

theorem bind (h : FailsAtEnd p) (f : α → Parser β) : FailsAtEnd (p >>= f) := by
  intro b rest hrun
  obtain ⟨a, mid, hp, -⟩ := bind_eq_ok_iff.1 hrun
  exact h a mid hp

theorem require (text : String) : FailsAtEnd (Parser.require text) := by
  intro a rest hrun
  rw [require_of_not_symbol (not_symbol_ending text)] at hrun
  cases hrun

theorem expect {kinds : List TokenKind} (h : .eof ∉ kinds) : FailsAtEnd (Parser.expect kinds) := by
  intro a rest hrun
  rw [expect_of_not_mem (forall_head?_cons h [])] at hrun
  cases hrun

end FailsAtEnd

/-- What the parser reads from tokens up to the end, it reads from them if `more` stands there. -/
def Follows {α : Type} (more : List Token) (p : Parser α) : Prop :=
  ∀ ts us, Extends more ts us → ∀ a rest, p ts = .ok a rest →
    ∃ rest', p us = .ok a rest' ∧ Extends more rest rest'

namespace Follows

variable {α β : Type} {more : List Token} {p : Parser α} {f : α → Parser β}

theorem bind (hp : Follows more p) (hf : ∀ a, Follows more (f a)) : Follows more (p >>= f) := by
  intro ts us h b rest hrun
  obtain ⟨a, mid, hpt, hfm⟩ := bind_eq_ok_iff.1 hrun
  obtain ⟨mid', hpu, hmid⟩ := hp ts us h a mid hpt
  obtain ⟨rest', hfm', hrest⟩ := hf a mid mid' hmid b rest hfm
  exact ⟨rest', bind_eq_ok_iff.2 ⟨a, mid', hpu, hfm'⟩, hrest⟩

theorem pure (a : α) : Follows more (Pure.pure a) := by
  rintro ts us h b rest ⟨⟩
  exact ⟨us, rfl, h⟩

theorem fail (e : ParseFailure) : Follows more (throw e : Parser α) := by
  rintro ts us h b rest ⟨⟩

/-! ### Primitive parsers -/

/-- A symbol that cannot stand where the tokens ended, unless it is not wanted there. -/
theorem accept? (hmore : Fresh more) {text : String} {f : Option Token → Parser β}
    (hend : text ∉ ";" :: freshStarts ∨ FailsAtEnd (f none)) (hnone : Follows more (f none))
    (hsome : ∀ t, Follows more (f (some t))) : Follows more (Parser.accept? text >>= f) := by
  intro ts us h a rest hrun
  cases h with
  | stop hgap =>
    rw [bind_of_ok (accept?_of_not_symbol (not_symbol_ending text))] at hrun
    rcases hend with htext | hfails
    · rw [bind_of_ok (accept?_of_not_symbol (hmore.gap_not_symbol hgap htext))]
      exact hnone _ _ (.stop hgap) a rest hrun
    · exact absurd hrun (hfails a rest)
  | @cons t ts us ht h =>
    cases hsymbol : t.isSymbol text with
    | true =>
      rw [bind_of_ok (accept?_of_symbol hsymbol _)] at hrun ⊢
      exact hsome t _ _ h a rest hrun
    | false =>
      rw [bind_of_ok (accept?_of_not_symbol (forall_head?_cons hsymbol _))] at hrun ⊢
      exact hnone _ _ (.cons ht h) a rest hrun

theorem accept (hmore : Fresh more) {text : String} {f : Bool → Parser β}
    (hend : text ∉ ";" :: freshStarts ∨ FailsAtEnd (f false)) (hfalse : Follows more (f false))
    (htrue : Follows more (f true)) : Follows more (Parser.accept text >>= f) := by
  unfold Parser.accept
  simp only [bind_assoc, pure_bind]
  exact accept? hmore hend hfalse fun _ => htrue

theorem acceptAny? {γ : Type} (hmore : Fresh more) {table : List (String × γ)}
    {f : Option (Token × γ) → Parser β}
    (hend : (∀ entry ∈ table, entry.1 ∉ ";" :: freshStarts) ∨ FailsAtEnd (f none))
    (hnone : Follows more (f none)) (hsome : ∀ t a, Follows more (f (some (t, a)))) :
    Follows more (Parser.acceptAny? table >>= f) := by
  intro ts us h a rest hrun
  cases h with
  | stop hgap =>
    have hnot : Parser.acceptAny? table [.ending] = .ok none [.ending] :=
      acceptAny?_of_not_symbol fun t ht entry _ => not_symbol_ending entry.1 t ht
    rw [bind_of_ok hnot] at hrun
    rcases hend with htable | hfails
    · have hnot' := acceptAny?_of_not_symbol fun t ht entry hentry =>
        hmore.gap_not_symbol hgap (htable entry hentry) t ht
      rw [bind_of_ok hnot']
      exact hnone _ _ (.stop hgap) a rest hrun
    · exact absurd hrun (hfails a rest)
  | @cons t ts us ht h =>
    rw [bind_apply, acceptAny?_cons] at hrun ⊢
    cases hfind : table.find? fun entry => t.isSymbol entry.1 with
    | some entry =>
      rw [hfind] at hrun
      exact hsome t entry.2 _ _ h a rest hrun
    | none =>
      rw [hfind] at hrun
      exact hnone _ _ (.cons ht h) a rest hrun

/-- A semicolon may be there or not. Where the tokens ended, one of those that stand there is taken
along. -/
theorem skip (hmore : Fresh more) (h : Follows more p) :
    Follows more (Parser.accept ";" >>= fun _ => p) := by
  intro ts us hext a rest hrun
  cases hext with
  | @stop gap hgap =>
    rw [bind_of_ok (accept_of_not_symbol (not_symbol_ending ";"))] at hrun
    cases gap with
    | nil =>
      have hnot : ∀ t ∈ more.head?, t.isSymbol ";" = false := hmore.not_symbol (by decide)
      rw [List.nil_append, bind_of_ok (accept_of_not_symbol hnot)]
      exact h _ _ (.stop hgap) a rest hrun
    | cons s gap =>
      rw [List.forall_mem_cons] at hgap
      rw [List.cons_append, bind_of_ok (accept_of_symbol hgap.1 _)]
      exact h _ _ (.stop hgap.2) a rest hrun
  | @cons t ts us ht hext =>
    cases hsymbol : t.isSymbol ";" with
    | true =>
      rw [bind_of_ok (accept_of_symbol hsymbol _)] at hrun ⊢
      exact h _ _ hext a rest hrun
    | false =>
      rw [bind_of_ok (accept_of_not_symbol (forall_head?_cons hsymbol _))] at hrun ⊢
      exact h _ _ (.cons ht hext) a rest hrun

theorem require (hmore : Fresh more) (text : String) : Follows more (Parser.require text) := by
  refine accept hmore (.inr ?_) (fail _) (pure ())
  rintro a rest ⟨⟩

theorem expect {kinds : List TokenKind} (hkinds : .eof ∉ kinds) :
    Follows more (Parser.expect kinds) := by
  intro ts us h a rest hrun
  cases h with
  | stop hgap => exact absurd hrun (FailsAtEnd.expect hkinds a rest)
  | @cons t ts us ht h =>
    by_cases hmem : t.kind ∈ kinds
    · rw [expect_of_mem hmem] at hrun ⊢
      cases hrun
      exact ⟨us, rfl, h⟩
    · rw [expect_of_not_mem (forall_head?_cons hmem ts)] at hrun
      cases hrun

theorem identifier : Follows more Parser.identifier :=
  bind (expect (by decide)) fun t => pure t.text

/-- A name that may be there, with something behind it that has to be. -/
theorem identifier? {f : Option String → Parser β} (hend : FailsAtEnd (f none))
    (hf : ∀ x, Follows more (f x)) : Follows more (Parser.identifier? >>= f) := by
  intro ts us h a rest hrun
  cases h with
  | stop hgap =>
    have hnone : Parser.identifier? [Token.ending] = .ok none [.ending] := rfl
    rw [bind_of_ok hnone] at hrun
    exact absurd hrun (hend a rest)
  | @cons t ts us ht h =>
    by_cases hkind : t.kind = .identifier
    · rw [bind_of_ok (identifier?_of_kind hkind _)] at hrun ⊢
      exact hf _ _ _ h a rest hrun
    · rw [bind_of_ok (identifier?_of_not_kind (forall_head?_cons hkind _))] at hrun ⊢
      exact hf none _ _ (.cons ht h) a rest hrun

theorem atEnd {f : Bool → Parser β} (hend : FailsAtEnd (f true)) (hfalse : Follows more (f false)) :
    Follows more (Parser.atEnd >>= f) := by
  intro ts us h a rest hrun
  rw [bind_of_ok (atEnd_apply _)] at hrun ⊢
  cases h with
  | stop hgap => exact absurd hrun (hend a rest)
  | @cons t ts us ht h =>
    have hnot : Token.isEnd (some t) = false := by simp [Token.isEnd, ht]
    rw [List.head?_cons, hnot] at hrun ⊢
    exact hfalse _ _ (.cons ht h) a rest hrun

end Follows

/-! ## Rules that read on -/

/-- The rules that may be called read on where the tokens ended. -/
structure Rules.Follows (more : List Token) (r : Rules) : Prop where
  expression : BatchCompiler.Follows more r.expression
  ternary : BatchCompiler.Follows more r.ternary
  operators {ts : List Tier} : (∀ tier ∈ ts, ∀ entry ∈ tier, entry.1 ∉ ";" :: freshStarts) →
    BatchCompiler.Follows more (r.operators ts)
  signed : BatchCompiler.Follows more r.signed
  suffixed (m : Node) : BatchCompiler.Follows more (r.suffixed m)
  items {close : String} : close ∉ ";" :: freshStarts →
    BatchCompiler.Follows more (r.items close)
  names : BatchCompiler.Follows more r.names
  block : BatchCompiler.Follows more r.block

namespace Rules.Follows

open BatchCompiler.Follows

variable {more : List Token} {r : Rules}

/-! ### What is called behind a token -/

theorem list (hmore : Fresh more) (h : r.Follows more) {close : String}
    (hclose : close ∉ ";" :: freshStarts) : BatchCompiler.Follows more (r.list close) :=
  accept hmore (.inl hclose) (h.items hclose) (pure [])

theorem params (hmore : Fresh more) (h : r.Follows more) : BatchCompiler.Follows more r.params :=
  accept hmore (.inl (by decide)) h.names (pure [])

theorem condition (hmore : Fresh more) (h : r.Follows more) :
    BatchCompiler.Follows more r.condition := by
  refine bind (require hmore _) fun _ => ?_
  refine bind h.expression fun c => ?_
  exact bind (require hmore _) fun _ => pure c

theorem body (hmore : Fresh more) (h : r.Follows more) : BatchCompiler.Follows more r.body := by
  refine accept hmore (.inl (by decide)) ?_ h.block
  exact bind h.expression fun n => skip hmore (pure [n])

theorem function (hmore : Fresh more) (h : r.Follows more) (loc : Nat) :
    BatchCompiler.Follows more (r.function loc) := by
  refine identifier? ((FailsAtEnd.require _).bind _) fun x => ?_
  refine bind (require hmore _) fun _ => ?_
  refine bind (h.params hmore) fun ps => ?_
  refine bind (require hmore _) fun _ => ?_
  exact bind h.block fun b => pure _

theorem branch (hmore : Fresh more) (h : r.Follows more) (loc : Nat) :
    BatchCompiler.Follows more (r.branch loc) := by
  refine bind (h.condition hmore) fun c => ?_
  refine bind (h.body hmore) fun b => ?_
  refine accept hmore (.inl (by decide)) ?_ ?_
  · exact bind (pure []) fun other => pure _
  · exact bind (h.body hmore) fun other => pure _

theorem loop (hmore : Fresh more) (h : r.Follows more) (loc : Nat) :
    BatchCompiler.Follows more (r.loop loc) := by
  refine bind (h.condition hmore) fun c => ?_
  exact bind (h.body hmore) fun b => pure _

/-! ### What may be called on all the tokens -/

theorem atom : BatchCompiler.Follows more Rules.atom := by
  refine bind (expect (by decide)) fun t => ?_
  split
  · exact pure _
  · exact pure _
  · exact pure _
  · exact fail _

theorem operand (hmore : Fresh more) (h : r.Follows more) :
    BatchCompiler.Follows more r.operand := by
  refine acceptAny? hmore (.inr ((FailsAtEnd.expect (by decide)).bind _)) atom fun t a => ?_
  cases a with
  | group => exact bind h.expression fun n => bind (require hmore _) fun _ => pure n
  | array => exact bind (h.list hmore (by decide)) fun xs => pure _
  | constant v => exact pure _
  | function => exact h.function hmore t.loc
  | branch => exact h.branch hmore t.loc
  | loop => exact h.loop hmore t.loc
  | ret => exact bind h.expression fun n => pure _

theorem suffix (hmore : Fresh more) (h : r.Follows more) (n : Node) :
    BatchCompiler.Follows more (r.suffix n) := by
  refine acceptAny? hmore (.inl (by decide)) (pure n) fun t a => ?_
  cases a with
  | call => exact bind (h.list hmore (by decide)) fun xs => h.suffixed _
  | index => exact bind h.expression fun i => bind (require hmore _) fun _ => h.suffixed _
  | step op => exact h.suffixed _

theorem sign (hmore : Fresh more) (h : r.Follows more) : BatchCompiler.Follows more r.sign := by
  refine acceptAny? hmore (.inl (by decide)) ?_ fun t a => ?_
  · exact bind (h.operand hmore) fun n => h.suffixed n
  · cases a with
    | step op => exact bind h.signed fun n => pure _
    | plus => exact h.signed
    | minus => exact bind h.signed fun n => pure _

theorem tier (hmore : Fresh more) (h : r.Follows more) {ts : List Tier}
    (hts : ∀ tier ∈ ts, ∀ entry ∈ tier, entry.1 ∉ ";" :: freshStarts) :
    BatchCompiler.Follows more (r.tier ts) := by
  induction ts with
  | nil => exact h.sign hmore
  | cons tier tighter ih =>
    have htighter := fun tier htier => hts tier (List.mem_cons_of_mem _ htier)
    refine bind (ih htighter) fun lhs => ?_
    refine acceptAny? hmore (.inl (hts tier List.mem_cons_self)) (pure lhs) fun t c => ?_
    exact bind (h.operators hts) fun rhs => pure _

theorem choice (hmore : Fresh more) (h : r.Follows more) : BatchCompiler.Follows more r.choice := by
  refine bind (h.tier hmore (by decide)) fun c => ?_
  refine accept? hmore (.inl (by decide)) (pure c) fun t => ?_
  refine bind h.expression fun a => ?_
  refine bind (require hmore _) fun _ => ?_
  exact bind h.ternary fun b => pure _

theorem assignment (hmore : Fresh more) (h : r.Follows more) :
    BatchCompiler.Follows more r.assignment := by
  refine bind (h.choice hmore) fun target => ?_
  refine accept? hmore (.inl (by decide)) (pure target) fun t => ?_
  dsimp only
  split
  · exact bind h.expression fun v => pure _
  · exact fail _

theorem statement (hmore : Fresh more) (h : r.Follows more) :
    BatchCompiler.Follows more r.statement :=
  bind (h.assignment hmore) fun n => skip hmore (pure n)

theorem next_items (hmore : Fresh more) (h : r.Follows more) {close : String}
    (hclose : close ∉ ";" :: freshStarts) : BatchCompiler.Follows more (r.next.items close) := by
  refine bind (h.assignment hmore) fun item => ?_
  refine accept hmore (.inl hclose) ?_ (pure [item])
  refine bind (require hmore _) fun _ => ?_
  exact bind (h.items hclose) fun items => pure (item :: items)

theorem next_names (hmore : Fresh more) (h : r.Follows more) :
    BatchCompiler.Follows more r.next.names := by
  refine bind identifier fun x => ?_
  refine accept hmore (.inl (by decide)) ?_ (pure [x])
  refine bind (require hmore _) fun _ => ?_
  exact bind h.names fun xs => pure (x :: xs)

theorem next_block (hmore : Fresh more) (h : r.Follows more) :
    BatchCompiler.Follows more r.next.block := by
  refine accept hmore (.inl (by decide)) ?_ (pure [])
  -- At the end a brace is missing, so it does not matter that a semicolon may stand there.
  have hend : FailsAtEnd (reject (.expected "\x7d") : Parser (List Node)) := by
    rintro a rest ⟨⟩
  refine accept hmore (.inr ?_) ?_ h.block
  · intro a rest hrun
    exact hend a rest hrun
  · refine atEnd hend ?_
    refine bind (h.statement hmore) fun n => ?_
    exact bind h.block fun ns => pure (n :: ns)

/-- What reads on behind a token makes all the rules read on. -/
theorem next (hmore : Fresh more) (h : r.Follows more) : r.next.Follows more where
  expression := h.assignment hmore
  ternary := h.choice hmore
  operators := h.tier hmore
  signed := h.sign hmore
  suffixed := h.suffix hmore
  items := next_items hmore h
  names := next_names hmore h
  block := next_block hmore h

end Rules.Follows

theorem follows_rules {more : List Token} (hmore : Fresh more) (n : Nat) :
    (rules n).Follows more := by
  induction n with
  | zero =>
    exact {
      expression := .fail _
      ternary := .fail _
      operators := fun _ => .fail _
      signed := .fail _
      suffixed := fun m => .pure m
      items := fun _ => .fail _
      names := .fail _
      block := .fail _ }
  | succ n ih => exact ih.next hmore

open Likeness in
/-- Rules that were tied for enough tokens read the statements that the grammar reads. -/
theorem alike_statement (n : Nat) :
    Alike same (n + 1) 1 same.node (rules n).statement grammar.statement :=
  (alike_grammar (named_lawful _) (Nat.le_refl n)).statement (named_lawful _)

/-- A statement is read whether the end stands behind it or something that does not go on with it. -/
theorem follows_statement {more : List Token} (hmore : Fresh more) :
    Follows more grammar.statement := by
  intro ts us h n rest hrun
  -- One number of tokens will do for both lists.
  have hsame : ∀ {vs : List Token}, vs.length ≤ max ts.length us.length →
      (rules (max ts.length us.length)).statement vs = grammar.statement vs :=
    fun hvs => (alike_statement _).eq_of_same (fun a b hab => hab.1) (Nat.le_succ_of_le hvs)
  rw [← hsame (Nat.le_max_left _ _)] at hrun
  rw [← hsame (Nat.le_max_right _ _)]
  exact (follows_rules hmore _).statement hmore ts us h n rest hrun

/-! ## Statements that follow statements -/

theorem statements_semicolon {t : Token} (h : t.isSymbol ";" = true) (ts : List Token) :
    grammar.statements (t :: ts) = grammar.statements ts := by
  have hend : Token.isEnd (some t) = false := by simp [Token.isEnd, Token.not_eof_of_isSymbol h]
  conv_lhs => rw [grammar_statements]
  rw [bind_of_ok (atEnd_apply _), List.head?_cons, hend]
  show (accept ";" >>= _) _ = _
  rw [bind_of_ok (accept_of_symbol h ts)]
  rfl

theorem statements_gap {gap : List Token} (h : ∀ t ∈ gap, t.isSymbol ";" = true)
    (ts : List Token) : grammar.statements (gap ++ ts) = grammar.statements ts := by
  induction gap with
  | nil => rfl
  | cons t gap ih =>
    rw [List.forall_mem_cons] at h
    rw [List.cons_append, statements_semicolon h.1, ih h.2]

/-- At any other token, a statement is read and those behind it. -/
theorem statements_of_statement {t : Token} (hend : t.kind ≠ .eof)
    (hsemicolon : t.isSymbol ";" = false) (ts : List Token) :
    grammar.statements (t :: ts) = (do
      let n ← grammar.statement
      return n :: (← grammar.statements)) (t :: ts) := by
  have hnotEnd : Token.isEnd (some t) = false := by simp [Token.isEnd, hend]
  conv_lhs => rw [grammar_statements]
  rw [bind_of_ok (atEnd_apply _), List.head?_cons, hnotEnd]
  show (accept ";" >>= _) _ = _
  rw [bind_of_ok (accept_of_not_symbol (forall_head?_cons hsemicolon ts))]
  rfl

/-- A statement takes a token at least. -/
theorem length_lt_of_statement {ts rest : List Token} {n : Node}
    (h : grammar.statement ts = .ok n rest) : rest.length < ts.length := by
  have hrun := alike_statement ts.length ts ts (Likeness.same_tokens ts) (Nat.le_succ _)
  rw [(alike_statement _).eq_of_same (fun a b hab => hab.1) (Nat.le_succ _), h] at hrun
  exact hrun.2.2.2

/-- Statements up to the end, and other statements where the end was. -/
theorem statements_of_extends {more : List Token} (hmore : Fresh more) {ms : List Node}
    {rest' : List Token} (hms : grammar.statements more = .ok ms rest') {ts us : List Token}
    (h : Extends more ts us) {ns : List Node} {rest : List Token}
    (hns : grammar.statements ts = .ok ns rest) :
    grammar.statements us = .ok (ns ++ ms) rest' := by
  -- By induction on how many tokens the first list has.
  obtain ⟨k, hk⟩ : ∃ k, ts.length ≤ k := ⟨_, Nat.le_refl _⟩
  induction k generalizing ts us ns with
  | zero =>
    cases h with
    | stop hgap => simp at hk
    | cons ht h => simp at hk
  | succ k ih =>
    cases h with
    | stop hgap =>
      rw [statements_nil] at hns
      cases hns
      rw [statements_gap hgap, hms, List.nil_append]
    | @cons t ts us ht h =>
      cases hsemicolon : t.isSymbol ";" with
      | true =>
        rw [statements_semicolon hsemicolon] at hns ⊢
        exact ih h hns (Nat.le_of_succ_le_succ hk)
      | false =>
        rw [statements_of_statement ht hsemicolon] at hns ⊢
        obtain ⟨n, mid, hn, hrest⟩ := bind_eq_ok_iff.1 hns
        obtain ⟨ns, last, hns, hlast⟩ := bind_eq_ok_iff.1 hrest
        cases hlast
        obtain ⟨mid', hn', hmid⟩ := follows_statement hmore _ _ (.cons ht h) n mid hn
        have hlength := length_lt_of_statement hn
        rw [bind_of_ok hn', bind_of_ok (ih hmid hns (by omega))]
        rfl

end BatchCompiler
