/-
# BatchCompiler.Proofs.Constant -- where the integers of a tree come from

No rule of the grammar makes up an integer. An integer of a tree is spelled by a part of the tokens,
which is a number, `true` or `false` with signs and parentheses around it (`Signed`), or it is the
zero that something is subtracted from to change its sign. The numbers of a source go up to the
greatest integer of the language and are not negative, so no sign takes an integer out of the
symmetric range, which has one value less than the language has.

Folding adds. What it puts in the place of a sum is the sum of the integers below (`SumsTo`), and is
an integer of the language, possibly the one that the symmetric range leaves out.
-/

import BatchCompiler.Proofs.NormalForm
import BatchCompiler.Proofs.Respacing
import BatchCompiler.Proofs.Separator

namespace BatchCompiler

/-! ## What a parser reads -/

/-- Started anywhere in `tokens`, the parser reads a part of them if it succeeds, and `Q` holds of
that part and of the result. -/
def Parser.Consumes {α : Type} (tokens : List Token) (p : Parser α) (Q : List Token → α → Prop) :
    Prop :=
  ∀ ts, ts <:+ tokens → ∀ a rest, p ts = .ok a rest → ∃ part, ts = part ++ rest ∧ Q part a

namespace Parser.Consumes

variable {α β : Type} {tokens : List Token} {p : Parser α} {f : α → Parser β}
  {P Q : List Token → α → Prop}

theorem mono (h : Consumes tokens p P) (hPQ : ∀ part a, P part a → Q part a) :
    Consumes tokens p Q := by
  intro ts hts a rest hrun
  obtain ⟨part, hpart, ha⟩ := h ts hts a rest hrun
  exact ⟨part, hpart, hPQ part a ha⟩

theorem pure {a : α} (h : Q [] a) : Consumes tokens (Pure.pure a : Parser α) Q := by
  intro ts _ b rest hrun
  cases hrun
  exact ⟨[], rfl, h⟩

/-- A result is given, and nothing is read behind the part that it is read from. -/
theorem done {part : List Token} {a : α} (h : Q part a) :
    Consumes tokens (Pure.pure a : Parser α) fun more b => Q (part ++ ([] ++ more)) b := by
  refine .pure ?_
  rwa [List.nil_append, List.append_nil]

theorem fail (e : ParseFailure) : Consumes tokens (throw e : Parser α) Q := by
  intro ts _ b rest hrun
  cases hrun

/-- What is read first stands among the tokens, and what is read then stands behind it. -/
theorem bind {Q : List Token → β → Prop} (hp : Consumes tokens p P)
    (hf : ∀ part a, part <:+: tokens → P part a →
      Consumes tokens (f a) fun more b => Q (part ++ more) b) :
    Consumes tokens (p >>= f) Q := by
  intro ts hts b rest hrun
  obtain ⟨a, mid, hfirst, hsecond⟩ := bind_eq_ok_iff.1 hrun
  obtain ⟨part, rfl, hpart⟩ := hp ts hts a mid hfirst
  have hmid : mid <:+ tokens := (List.suffix_append part mid).trans hts
  have hinside : part <:+: tokens := (List.prefix_append part mid).isInfix.trans hts.isInfix
  obtain ⟨more, rfl, hmore⟩ := hf part a hinside hpart mid hmid b rest hsecond
  exact ⟨part ++ more, (List.append_assoc ..).symm, hmore⟩

/-- A symbol of the table was read, or nothing was. -/
theorem acceptAny? (table : List (String × α)) :
    Consumes tokens (Parser.acceptAny? table) fun part x => (x = none ∧ part = []) ∨
      ∃ t text a, x = some (t, a) ∧ part = [t] ∧ (text, a) ∈ table ∧ t.isSymbol text = true := by
  intro ts _ x rest hrun
  cases ts with
  | nil =>
    rw [acceptAny?_nil] at hrun
    cases hrun
    exact ⟨[], rfl, .inl ⟨rfl, rfl⟩⟩
  | cons t ts =>
    obtain ⟨entry, hentry, hsymbol, rfl, rfl⟩ | ⟨-, rfl, rfl⟩ := acceptAny?_eq_ok hrun
    · exact ⟨[t], rfl, .inr ⟨t, entry.1, entry.2, rfl, rfl, hentry, hsymbol⟩⟩
    · exact ⟨[], rfl, .inl ⟨rfl, rfl⟩⟩

theorem accept? (text : String) :
    Consumes tokens (Parser.accept? text) fun part x => (x = none ∧ part = []) ∨
      ∃ t, x = some t ∧ part = [t] ∧ t.isSymbol text = true := by
  intro ts _ x rest hrun
  cases ts with
  | nil =>
    cases hrun
    exact ⟨[], rfl, .inl ⟨rfl, rfl⟩⟩
  | cons t ts =>
    cases hsymbol : t.isSymbol text with
    | true =>
      rw [accept?_of_symbol hsymbol] at hrun
      cases hrun
      exact ⟨[t], rfl, .inr ⟨t, rfl, rfl, hsymbol⟩⟩
    | false =>
      rw [accept?_of_not_symbol (forall_head?_cons hsymbol ts)] at hrun
      cases hrun
      exact ⟨[], rfl, .inl ⟨rfl, rfl⟩⟩

theorem accept (text : String) : Consumes tokens (Parser.accept text) fun part x =>
    x = true → ∃ t, part = [t] ∧ t.isSymbol text = true := by
  refine .bind (.accept? text) fun part x _ hx => .pure ?_
  obtain ⟨rfl, rfl⟩ | ⟨t, rfl, rfl, hsymbol⟩ := hx
  · exact nofun
  · exact fun _ => ⟨t, rfl, hsymbol⟩

theorem require (text : String) : Consumes tokens (Parser.require text) fun part _ =>
    ∃ t, part = [t] ∧ t.isSymbol text = true := by
  refine .bind (.accept text) fun part b _ hb => ?_
  cases b with
  | true =>
    obtain ⟨t, rfl, hsymbol⟩ := hb rfl
    exact .pure ⟨t, rfl, hsymbol⟩
  | false => exact .fail _

theorem expect (kinds : List TokenKind) : Consumes tokens (Parser.expect kinds) fun part t =>
    part = [t] ∧ t.kind ∈ kinds := by
  intro ts _ u rest hrun
  cases ts with
  | nil => cases hrun
  | cons t ts =>
    by_cases hkind : t.kind ∈ kinds
    · rw [expect_of_mem hkind] at hrun
      cases hrun
      exact ⟨[_], rfl, rfl, hkind⟩
    · rw [expect_of_not_mem (forall_head?_cons hkind ts)] at hrun
      cases hrun

theorem atEnd : Consumes tokens Parser.atEnd fun _ _ => True := by
  intro ts _ b rest hrun
  cases hrun
  exact ⟨[], rfl, trivial⟩

theorem identifier : Consumes tokens Parser.identifier fun _ _ => True :=
  .bind (.expect _) fun _ _ _ _ => .pure trivial

theorem identifier? : Consumes tokens Parser.identifier? fun _ _ => True := by
  intro ts hts x rest hrun
  cases ts with
  | nil =>
    cases hrun
    exact ⟨[], rfl, trivial⟩
  | cons t ts =>
    by_cases hkind : t.kind = .identifier
    · rw [identifier?_of_kind hkind] at hrun
      cases hrun
      exact ⟨[t], rfl, trivial⟩
    · rw [identifier?_of_not_kind (forall_head?_cons hkind ts)] at hrun
      cases hrun
      exact ⟨[], rfl, trivial⟩

end Parser.Consumes

/-! ## Integers as the tokens spell them -/

/-- The tokens spell the integer `v`, and the node for it stands at `loc`: at the first minus, or at
the token of the value if there is none. -/
inductive Signed : List Token → Nat → Int → Prop
  | number {t : Token} {v : Int} : t.kind = .number → t.value = some v → Signed [t] t.loc v
  | truth {t : Token} : t.isSymbol "true" = true → Signed [t] t.loc 1
  | falsity {t : Token} : t.isSymbol "false" = true → Signed [t] t.loc 0
  | plus {t : Token} {part : List Token} {loc : Nat} {v : Int} : t.isSymbol "+" = true →
      Signed part loc v → Signed (t :: part) loc v
  | minus {t : Token} {part : List Token} {loc : Nat} {v : Int} : t.isSymbol "-" = true →
      Signed part loc v → Signed (t :: part) t.loc (-v)
  | group {t u : Token} {part : List Token} {loc : Nat} {v : Int} : t.isSymbol "(" = true →
      u.isSymbol ")" = true → Signed part loc v → Signed (t :: (part ++ [u])) loc v

/-- An integer at `loc` that a tree for the tokens can have: one that a part of them spells, or the
zero from which something is subtracted that has a minus in front of it. -/
inductive Constant (tokens : List Token) : Nat → Int → Prop
  | spelled {part : List Token} {loc : Nat} {v : Int} : part <:+: tokens → Signed part loc v →
      Constant tokens loc v
  | zero {t : Token} : t ∈ tokens → t.isSymbol "-" = true → Constant tokens t.loc 0

/-- The integer and its negative are integers of the language. Only the least integer is not so. -/
def InSymmetricRange (v : Int) : Prop := -maxInteger ≤ v ∧ v ≤ maxInteger

theorem InSymmetricRange.fitsInteger {v : Int} (h : InSymmetricRange v) : fitsInteger v = true := by
  obtain ⟨hlow, hhigh⟩ := h
  rw [fitsInteger_iff]
  unfold maxInteger at *
  unfold minInteger
  exact ⟨by omega, hhigh⟩

theorem InSymmetricRange.neg {v : Int} (h : InSymmetricRange v) : InSymmetricRange (-v) := by
  obtain ⟨hlow, hhigh⟩ := h
  exact ⟨by omega, by omega⟩

/-- The numbers among the tokens are in the symmetric range. -/
def TokensInRange (tokens : List Token) : Prop :=
  ∀ t ∈ tokens, t.kind = .number → ∀ v, t.value = some v → InSymmetricRange v

/-- Signs do not lead out of the symmetric range. -/
theorem Signed.inRange {part : List Token} {loc : Nat} {v : Int} (h : Signed part loc v)
    (hpart : TokensInRange part) : InSymmetricRange v := by
  induction h with
  | number hkind hvalue => exact hpart _ (List.mem_singleton_self _) hkind _ hvalue
  | truth => exact ⟨by decide, by decide⟩
  | falsity => exact ⟨by decide, by decide⟩
  | plus _ _ ih => exact ih fun t ht => hpart t (List.mem_cons_of_mem _ ht)
  | minus _ _ ih => exact (ih fun t ht => hpart t (List.mem_cons_of_mem _ ht)).neg
  | group _ _ _ ih =>
    exact ih fun t ht => hpart t (List.mem_cons_of_mem _ (List.mem_append_left _ ht))

theorem Constant.inRange {tokens : List Token} {loc : Nat} {v : Int} (h : Constant tokens loc v)
    (htokens : TokensInRange tokens) : InSymmetricRange v := by
  cases h with
  | spelled hinside hsigned => exact hsigned.inRange fun t ht => htokens t (hinside.mem ht)
  | zero => exact ⟨by decide, by decide⟩

/-! ## The integers of what is read -/

namespace Node

variable {tokens part : List Token} {n : Node}

/-- Every integer of the tree is one that a tree for the tokens can have. -/
def Within (tokens : List Token) (n : Node) : Prop :=
  ∀ l v, (integer l v).OccursIn n → Constant tokens l v

/-- The tree is read from this part of the tokens: the tokens account for every integer below its
root, and if the tree is an integer, then the part spells it. -/
structure ReadFrom (tokens part : List Token) (n : Node) : Prop where
  children : ∀ c ∈ n.children, c.Within tokens
  signed : ∀ l v, n = .integer l v → Signed part l v

theorem ReadFrom.within (h : n.ReadFrom tokens part) (hpart : part <:+: tokens) :
    n.Within tokens := by
  intro l v hoccurs
  cases hoccurs with
  | here => exact .spelled hpart (h.signed l v rfl)
  | inside hc hoccurs => exact h.children _ hc l v hoccurs

/-- The tree is no integer, and the tokens account for every integer in it. -/
structure IsCompound (tokens : List Token) (n : Node) : Prop where
  construct : n.construct ≠ .integer
  children : ∀ c ∈ n.children, c.Within tokens

theorem IsCompound.readFrom (h : n.IsCompound tokens) (part : List Token) :
    n.ReadFrom tokens part := by
  refine ⟨h.children, ?_⟩
  rintro l v rfl
  exact absurd rfl h.construct

theorem IsCompound.within (h : n.IsCompound tokens) : n.Within tokens :=
  (h.readFrom []).within (List.nil_infix ..)

theorem readFrom_integer {l : Nat} {v : Int} (h : Signed part l v) :
    (integer l v).ReadFrom tokens part := by
  refine ⟨nofun, ?_⟩
  rintro _ _ ⟨⟩
  exact h

/-- A minus sign in front of what is read. -/
theorem ReadFrom.negate {t : Token} (ht : [t] <:+: tokens) (hsymbol : t.isSymbol "-" = true)
    (hpart : part <:+: tokens) (h : n.ReadFrom tokens part) :
    (n.negate t.loc).ReadFrom tokens (t :: part) := by
  unfold Node.negate
  split
  next l v => exact readFrom_integer (.minus hsymbol (h.signed l v rfl))
  next =>
    have hzero : (integer t.loc 0).Within tokens := by
      intro l v hoccurs
      cases hoccurs with
      | here => exact .zero (ht.mem (List.mem_singleton_self t)) hsymbol
      | inside hc _ => cases hc
    have hcompound : (binary t.loc .sub (integer t.loc 0) n).IsCompound tokens :=
      ⟨nofun, List.forall_mem_cons.2 ⟨hzero, List.forall_mem_singleton.2 (h.within hpart)⟩⟩
    exact hcompound.readFrom _

end Node

open BatchCompiler.Parser (Consumes)

/-- What the rules read has no integers but those that the tokens account for. Either no suffix is
read behind an operand, or it becomes part of something that is no integer. -/
structure Rules.Accounts (tokens : List Token) (r : Rules) : Prop where
  expression : Consumes tokens r.expression (Node.ReadFrom tokens)
  ternary : Consumes tokens r.ternary (Node.ReadFrom tokens)
  operators : ∀ ts, Consumes tokens (r.operators ts) (Node.ReadFrom tokens)
  signed : Consumes tokens r.signed (Node.ReadFrom tokens)
  suffixed : ∀ n, n.Within tokens → Consumes tokens (r.suffixed n) fun more m =>
    m = n ∧ more = [] ∨ m.IsCompound tokens
  items : ∀ close, Consumes tokens (r.items close) fun _ ns => ∀ n ∈ ns, n.Within tokens
  names : Consumes tokens r.names fun _ _ => True
  block : Consumes tokens r.block fun _ ns => ∀ n ∈ ns, n.Within tokens
  statements : Consumes tokens r.statements fun _ ns => ∀ n ∈ ns, n.Within tokens

namespace Rules.Accounts

variable {tokens : List Token} {r : Rules}

theorem list (h : r.Accounts tokens) (close : String) :
    Consumes tokens (r.list close) fun _ ns => ∀ n ∈ ns, n.Within tokens := by
  refine .bind (.accept close) fun _ b _ _ => ?_
  cases b with
  | true => exact .pure nofun
  | false => exact h.items close

theorem params (h : r.Accounts tokens) : Consumes tokens r.params fun _ _ => True := by
  refine .bind (.accept ")") fun _ b _ _ => ?_
  cases b with
  | true => exact .pure trivial
  | false => exact h.names

theorem condition (h : r.Accounts tokens) :
    Consumes tokens r.condition fun _ n => n.Within tokens :=
  .bind (.require "(") fun _ _ _ _ => .bind h.expression fun _ _ hpart hn =>
    .bind (.require ")") fun _ _ _ _ => .pure (hn.within hpart)

theorem body (h : r.Accounts tokens) :
    Consumes tokens r.body fun _ ns => ∀ n ∈ ns, n.Within tokens := by
  refine .bind (.accept _) fun _ b _ _ => ?_
  cases b with
  | true => exact h.block
  | false =>
    refine .bind h.expression fun _ _ hpart hn => .bind (.accept ";") fun _ _ _ _ => .pure ?_
    exact List.forall_mem_singleton.2 (hn.within hpart)

theorem function (h : r.Accounts tokens) (loc : Nat) :
    Consumes tokens (r.function loc) fun _ n => n.IsCompound tokens :=
  .bind .identifier? fun _ _ _ _ => .bind (.require "(") fun _ _ _ _ =>
    .bind h.params fun _ _ _ _ => .bind (.require _) fun _ _ _ _ =>
    .bind h.block fun _ _ _ hbody => .pure ⟨nofun, hbody⟩

theorem branch (h : r.Accounts tokens) (loc : Nat) :
    Consumes tokens (r.branch loc) fun _ n => n.IsCompound tokens := by
  refine .bind h.condition fun _ c _ hc => .bind h.body fun _ xs _ hxs => ?_
  have hnode : ∀ ys : List Node, (∀ n ∈ ys, n.Within tokens) →
      (Node.branch loc c xs ys).IsCompound tokens := fun ys hys =>
    ⟨nofun, List.forall_mem_cons.2 ⟨hc, List.forall_mem_append.2 ⟨hxs, hys⟩⟩⟩
  refine .bind (.accept "else") fun _ b _ _ => ?_
  cases b with
  | true => exact .bind h.body fun _ ys _ hys => .pure (hnode ys hys)
  | false => exact .pure (hnode [] nofun)

theorem loop (h : r.Accounts tokens) (loc : Nat) :
    Consumes tokens (r.loop loc) fun _ n => n.IsCompound tokens :=
  .bind h.condition fun _ _ _ hc => .bind h.body fun _ _ _ hbody =>
    .pure ⟨nofun, List.forall_mem_cons.2 ⟨hc, hbody⟩⟩

theorem atom : Consumes tokens Rules.atom (Node.ReadFrom tokens) := by
  refine .bind (.expect _) fun part t _ ht => ?_
  obtain ⟨rfl, hkind⟩ := ht
  split
  · exact .pure ⟨nofun, nofun⟩
  · exact .pure ⟨nofun, nofun⟩
  next v hvalue hidentifier hstring =>
    have hnumber : t.kind = .number := by
      simp only [List.mem_cons, List.not_mem_nil, or_false] at hkind
      exact (hkind.resolve_left hidentifier).resolve_right hstring
    exact .pure (Node.readFrom_integer (.number hnumber hvalue))
  · exact .fail _

theorem operand (h : r.Accounts tokens) : Consumes tokens r.operand (Node.ReadFrom tokens) := by
  refine .bind (.acceptAny? openers) fun _ x _ hx => ?_
  obtain ⟨rfl, rfl⟩ | ⟨t, text, opener, rfl, rfl, hentry, hsymbol⟩ := hx
  · exact atom
  cases opener with
  | group =>
    -- Parentheses are the one thing that may stand around an integer on both sides.
    obtain rfl : text = "(" := by simpa [openers] using hentry
    refine .bind h.expression fun part n _ hn => .bind (.require ")") fun _ _ _ hclose => .pure ?_
    obtain ⟨u, rfl, hu⟩ := hclose
    exact ⟨hn.children, fun l v heq => .group hsymbol hu (hn.signed l v heq)⟩
  | array =>
    refine .bind (h.list "]") fun _ ns _ hns => .pure (Node.IsCompound.readFrom ⟨?_, ?_⟩ _)
    · rintro ⟨⟩
    · exact hns
  | constant v =>
    refine .pure (Node.readFrom_integer ?_)
    obtain ⟨rfl, rfl⟩ | ⟨rfl, rfl⟩ : text = "true" ∧ v = 1 ∨ text = "false" ∧ v = 0 := by
      simpa [openers] using hentry
    · exact .truth hsymbol
    · exact .falsity hsymbol
  | function => exact (h.function t.loc).mono fun _ _ hn => hn.readFrom _
  | branch => exact (h.branch t.loc).mono fun _ _ hn => hn.readFrom _
  | loop => exact (h.loop t.loc).mono fun _ _ hn => hn.readFrom _
  | ret =>
    refine .bind h.expression fun _ n hpart hn => .pure (Node.IsCompound.readFrom ⟨?_, ?_⟩ _)
    · rintro ⟨⟩
    · exact List.forall_mem_singleton.2 (hn.within hpart)

/-- Whatever follows behind a tree that is no integer, that is no integer either. -/
theorem after (h : r.Accounts tokens) {n : Node} (hn : n.IsCompound tokens) :
    Consumes tokens (r.suffixed n) fun _ m => m.IsCompound tokens := by
  refine (h.suffixed n hn.within).mono fun _ m hm => ?_
  obtain ⟨rfl, -⟩ | hm := hm
  · exact hn
  · exact hm

theorem suffix (h : r.Accounts tokens) (n : Node) (hn : n.Within tokens) :
    Consumes tokens (r.suffix n) fun more m => m = n ∧ more = [] ∨ m.IsCompound tokens := by
  refine .bind (.acceptAny? suffixes) fun _ x _ hx => ?_
  obtain ⟨rfl, rfl⟩ | ⟨t, text, suffix, rfl, rfl, -, -⟩ := hx
  · exact .pure (.inl ⟨rfl, rfl⟩)
  cases suffix with
  | call =>
    refine .bind (h.list ")") fun _ ns _ hns => ?_
    have hcall : (Node.call t.loc n ns).IsCompound tokens :=
      ⟨nofun, List.forall_mem_cons.2 ⟨hn, hns⟩⟩
    exact (h.after hcall).mono fun _ _ hm => .inr hm
  | index =>
    refine .bind h.expression fun _ i hpart hi => .bind (.require "]") fun _ _ _ _ => ?_
    have hindex : (Node.index t.loc n i).IsCompound tokens :=
      ⟨nofun, List.forall_mem_cons.2 ⟨hn, List.forall_mem_singleton.2 (hi.within hpart)⟩⟩
    exact (h.after hindex).mono fun _ _ hm => .inr hm
  | step op =>
    have hstep : (Node.step t.loc op false n).IsCompound tokens :=
      ⟨nofun, List.forall_mem_singleton.2 hn⟩
    exact (h.after hstep).mono fun _ _ hm => .inr hm

theorem sign (h : r.Accounts tokens) : Consumes tokens r.sign (Node.ReadFrom tokens) := by
  refine .bind (.acceptAny? signs) fun _ x hpart hx => ?_
  obtain ⟨rfl, rfl⟩ | ⟨t, text, sign, rfl, rfl, hentry, hsymbol⟩ := hx
  · -- An operand stays what it is, or a suffix makes it something that is no integer.
    refine .bind h.operand fun part n hpart hn => ?_
    refine (h.suffixed n (hn.within hpart)).mono fun more m hm => ?_
    obtain ⟨rfl, rfl⟩ | hm := hm
    · show m.ReadFrom tokens (part ++ [])
      rwa [List.append_nil]
    · exact hm.readFrom _
  cases sign with
  | step op =>
    refine .bind h.signed fun _ _ hpart hn => .pure ⟨?_, nofun⟩
    exact List.forall_mem_singleton.2 (hn.within hpart)
  | plus =>
    obtain rfl : text = "+" := by simpa [signs] using hentry
    refine h.signed.mono fun part n hn => ⟨hn.children, fun l v heq => ?_⟩
    exact .plus hsymbol (hn.signed l v heq)
  | minus =>
    obtain rfl : text = "-" := by simpa [signs] using hentry
    refine .bind h.signed fun part n hmore hn => .pure ?_
    show (n.negate t.loc).ReadFrom tokens (t :: (part ++ []))
    rw [List.append_nil]
    exact hn.negate hpart hsymbol hmore

theorem tier (h : r.Accounts tokens) (ts : List Tier) :
    Consumes tokens (r.tier ts) (Node.ReadFrom tokens) := by
  induction ts with
  | nil => exact h.sign
  | cons t tighter ih =>
    refine .bind ih fun part a hpart ha => .bind (.acceptAny? t) fun _ x _ hx => ?_
    obtain ⟨rfl, rfl⟩ | ⟨u, text, c, rfl, rfl, -, -⟩ := hx
    · exact .done ha
    · refine .bind (h.operators _) fun _ b hmore hb => .pure (Node.IsCompound.readFrom ?_ _)
      have hoperands : ∀ n ∈ [a, b], n.Within tokens :=
        List.forall_mem_cons.2 ⟨ha.within hpart, List.forall_mem_singleton.2 (hb.within hmore)⟩
      cases c with
      | or => exact ⟨nofun, hoperands⟩
      | and => exact ⟨nofun, hoperands⟩
      | op o => exact ⟨nofun, hoperands⟩

theorem choice (h : r.Accounts tokens) : Consumes tokens r.choice (Node.ReadFrom tokens) := by
  refine .bind (h.tier tiers) fun part c hpart hc => .bind (.accept? "?") fun _ x _ hx => ?_
  obtain ⟨rfl, rfl⟩ | ⟨t, rfl, rfl, -⟩ := hx
  · exact .done hc
  · refine .bind h.expression fun _ a ha' ha => .bind (.require ":") fun _ _ _ _ => ?_
    refine .bind h.ternary fun _ b hb' hb => .pure ⟨?_, nofun⟩
    exact List.forall_mem_cons.2 ⟨hc.within hpart, List.forall_mem_cons.2
      ⟨ha.within ha', List.forall_mem_singleton.2 (hb.within hb')⟩⟩

theorem assignment (h : r.Accounts tokens) :
    Consumes tokens r.assignment (Node.ReadFrom tokens) := by
  refine .bind h.choice fun part target hpart htarget => .bind (.accept? "=") fun _ x _ hx => ?_
  obtain ⟨rfl, rfl⟩ | ⟨t, rfl, rfl, -⟩ := hx
  · exact .done htarget
  · dsimp only
    split
    · refine .bind h.expression fun _ value hmore hvalue => .pure ⟨?_, nofun⟩
      exact List.forall_mem_cons.2
        ⟨htarget.within hpart, List.forall_mem_singleton.2 (hvalue.within hmore)⟩
    · exact .fail _

theorem statement (h : r.Accounts tokens) :
    Consumes tokens r.statement fun _ n => n.Within tokens :=
  .bind h.assignment fun _ _ hpart hn => .bind (.accept ";") fun _ _ _ _ =>
    .pure (hn.within hpart)

/-- From the rules that may be called once a token has been read to those that call them. -/
theorem next (h : r.Accounts tokens) : r.next.Accounts tokens where
  expression := h.assignment
  ternary := h.choice
  operators := h.tier
  signed := h.sign
  suffixed := h.suffix
  items close := by
    refine .bind h.assignment fun _ n hpart hn => .bind (.accept close) fun _ b _ _ => ?_
    cases b with
    | true => exact .pure (List.forall_mem_singleton.2 (hn.within hpart))
    | false =>
      refine .bind (.require ",") fun _ _ _ _ => .bind (h.items close) fun _ ns _ hns => .pure ?_
      exact List.forall_mem_cons.2 ⟨hn.within hpart, hns⟩
  names := by
    refine .bind .identifier fun _ _ _ _ => .bind (.accept ")") fun _ b _ _ => ?_
    cases b with
    | true => exact .pure trivial
    | false => exact .bind (.require ",") fun _ _ _ _ => .bind h.names fun _ _ _ _ => .pure trivial
  block := by
    refine .bind (.accept _) fun _ b _ _ => ?_
    cases b with
    | true => exact .pure nofun
    | false =>
      refine .bind (.accept ";") fun _ b _ _ => ?_
      cases b with
      | true => exact h.block
      | false =>
        refine .bind .atEnd fun _ b _ _ => ?_
        cases b with
        | true =>
          have hreject : Consumes tokens (Parser.reject (.expected "\x7d") : Parser PUnit)
              fun _ _ => False := .fail _
          exact .bind hreject fun _ _ _ hfalse => hfalse.elim
        | false =>
          refine .bind h.statement fun _ n _ hn => .bind h.block fun _ ns _ hns => .pure ?_
          exact List.forall_mem_cons.2 ⟨hn, hns⟩
  statements := by
    refine .bind .atEnd fun _ b _ _ => ?_
    cases b with
    | true => exact .pure nofun
    | false =>
      refine .bind (.accept ";") fun _ b _ _ => ?_
      cases b with
      | true => exact h.statements
      | false =>
        refine .bind h.statement fun _ n _ hn => .bind h.statements fun _ ns _ hns => .pure ?_
        exact List.forall_mem_cons.2 ⟨hn, hns⟩

theorem exhausted : Rules.exhausted.Accounts tokens where
  expression := .fail _
  ternary := .fail _
  operators _ := .fail _
  signed := .fail _
  suffixed _ _ := .pure (.inl ⟨rfl, rfl⟩)
  items _ := .fail _
  names := .fail _
  block := .fail _
  statements := .pure nofun

end Rules.Accounts

theorem accounts_rules (tokens : List Token) (n : Nat) : (rules n).Accounts tokens := by
  induction n with
  | zero => exact .exhausted
  | succ n ih => exact ih.next

/-- Every integer of a program is one that a tree for its tokens can have. -/
theorem within_of_parse {size : Nat} {tokens : List Token} {n : Node}
    (h : parse size tokens = .ok n) : n.Within tokens := by
  obtain ⟨ns, rest, hread, rfl⟩ := parse_eq_ok_iff.1 h
  obtain ⟨-, -, hns⟩ :=
    (accounts_rules tokens tokens.length).statements tokens (List.suffix_refl _) ns rest hread
  have hcompound : (Node.program 0 ns).IsCompound tokens := ⟨nofun, hns⟩
  exact hcompound.within

/-- A minus sign among the tokens is applied to the integer `v`: that is the operand which is read
behind the sign. -/
def Negates (tokens : List Token) (v : Int) : Prop :=
  ∃ before t ts l rest, tokens = before ++ t :: ts ∧ t.isSymbol "-" = true ∧
    grammar.signed ts = .ok (.integer l v) rest

theorem Negates.inRange {tokens : List Token} {v : Int} (h : Negates tokens v)
    (htokens : TokensInRange tokens) : InSymmetricRange v := by
  obtain ⟨before, t, ts, l, rest, rfl, -, hread⟩ := h
  have hts : ts <:+ before ++ t :: ts :=
    (List.suffix_cons t ts).trans (List.suffix_append before (t :: ts))
  obtain ⟨part, rfl, hnode⟩ :=
    (accounts_rules _ ts.length).signed ts hts (.integer l v) rest hread
  refine (hnode.signed l v rfl).inRange fun u hu => htokens u ?_
  exact List.mem_append_right _ (List.mem_cons_of_mem t (List.mem_append_left rest hu))

/-! ## Numbers of a source -/

/-- A number of a source is what its digits say. -/
theorem number_of_mem_tokens {source : String} {tokens : List Token}
    (h : tokenize source = .ok tokens) {t : Token} (ht : t ∈ tokens) (hkind : t.kind = .number) :
    ∃ digits : List Char, t.text = String.ofList digits ∧ (∀ d ∈ digits, d.isDigit = true) ∧
      t.value = some (decimalValue digits) ∧ decimalValue digits ≤ maxInteger := by
  rcases placed_of_mem_tokens h ht with hend | ⟨front, item, rest, -, hstands, hspells⟩
  · rw [hkind] at hend
    cases hend
  · cases hspells with
    | number _ digits =>
      cases hstands with
      | number _ hdigits _ hvalue => exact ⟨digits, rfl, hdigits, rfl, hvalue⟩
    | _ => cases hkind

theorem tokensInRange_of_tokenize {source : String} {tokens : List Token}
    (h : tokenize source = .ok tokens) : TokensInRange tokens := by
  intro t ht hkind v hv
  obtain ⟨digits, -, -, hvalue, hmax⟩ := number_of_mem_tokens h ht hkind
  obtain rfl : (decimalValue digits : Int) = v := by
    rw [hvalue] at hv
    exact Option.some.inj hv
  have hnonneg : (0 : Int) ≤ decimalValue digits := Int.natCast_nonneg _
  exact ⟨Int.le_trans (by decide) hnonneg, hmax⟩

/-! ## Sums -/

namespace Node

/-- The tree is made of integers and sums, each of which is an integer of the language, and this is
its value. -/
inductive SumsTo : Node → Int → Prop
  | integer (l : Nat) (v : Int) : SumsTo (.integer l v) v
  | add {l : Nat} {a b : Node} {v w : Int} : SumsTo a v → SumsTo b w →
      fitsInteger (v + w) = true → SumsTo (.binary l .add a b) (v + w)

/-- What is in a folded tree is folded from what was in the tree. -/
theorem OccursIn.of_fold {n m : Node} (h : m.OccursIn n.fold) :
    ∃ k : Node, k.OccursIn n ∧ k.fold = m := by
  induction n using induction_children with
  | h n ih =>
    obtain hkept | ⟨l, a, b, -, hsum⟩ := n.fold_inversion
    · generalize hfold : n.fold = f at h
      cases h with
      | here => exact ⟨n, .here, hfold⟩
      | inside hc hoccurs =>
        rw [← hfold, hkept.children, List.mem_map] at hc
        obtain ⟨c, hc, rfl⟩ := hc
        obtain ⟨k, hk, rfl⟩ := ih c hc hoccurs
        exact ⟨k, .inside hc hk, rfl⟩
    · -- A literal has nothing below it.
      generalize hfold : n.fold = f at h hsum
      cases h with
      | here => exact ⟨n, .here, hfold⟩
      | inside hc _ =>
        rw [children_of_isLiteral hsum.isLiteral.2.2] at hc
        cases hc

/-- What is folded to an integer is made of integers and sums, and the integer is its value. -/
theorem sumsTo_of_fold {n : Node} {l : Nat} {v : Int} (h : n.fold = .integer l v) :
    n.SumsTo v := by
  induction n using induction_children generalizing l v with
  | h n ih =>
    obtain hkept | ⟨l', a, b, rfl, hsum⟩ := n.fold_inversion
    · have hshape : n.shape = .integer v := by rw [← hkept.shape, h, shape]
      cases n with
      | integer l v =>
        cases hshape
        exact .integer l v
      | _ => cases hshape
    · rw [h] at hsum
      generalize ha : a.fold = a' at hsum
      generalize hb : b.fold = b' at hsum
      cases hsum with
      | integers hfits => exact .add (ih a (.head _) ha) (ih b (.tail _ (.head _)) hb) hfits

theorem sumsTo_of_optimize {n : Node} {folding : Bool} {l : Nat} {v : Int}
    (h : n.optimize folding = .integer l v) : n.SumsTo v := by
  cases folding with
  | true => exact sumsTo_of_fold h
  | false =>
    rw [n.optimize_false] at h
    exact h ▸ .integer l v

theorem OccursIn.of_optimize {n m : Node} {folding : Bool} (h : m.OccursIn (n.optimize folding)) :
    ∃ k : Node, k.OccursIn n ∧ k.optimize folding = m := by
  cases folding with
  | true => exact h.of_fold
  | false => exact ⟨m, n.optimize_false ▸ h, m.optimize_false⟩

theorem SumsTo.fitsInteger {n : Node} {v : Int} (h : n.SumsTo v)
    (hn : ∀ l w, n = .integer l w → BatchCompiler.fitsInteger w = true) :
    BatchCompiler.fitsInteger v = true := by
  cases h with
  | integer l v => exact hn l v rfl
  | add _ _ hfits => exact hfits

end Node

/-- **Integers do not overflow** before code is generated. The numbers of a source are what their
digits say. A minus sign is only ever applied to an integer whose negative is one too, and every
integer of the program is what the tokens spell. An integer of the folded program is an integer of
the language, and is the value of the sum of integers that has been folded into it. -/
theorem front_end_integers_exact {source : String} {tokens : List Token}
    (h : tokenize source = .ok tokens) :
    (∀ t ∈ tokens, t.kind = .number → ∃ digits : List Char, t.text = String.ofList digits ∧
      (∀ d ∈ digits, d.isDigit = true) ∧ t.value = some (decimalValue digits) ∧
      decimalValue digits ≤ maxInteger) ∧
    (∀ v, Negates tokens v → -maxInteger ≤ v ∧ v ≤ maxInteger) ∧
    ∀ size program, parse size tokens = .ok program →
      (∀ l v, (Node.integer l v).OccursIn program →
        Constant tokens l v ∧ -maxInteger ≤ v ∧ v ≤ maxInteger) ∧
      ∀ folding l v, (Node.integer l v).OccursIn (program.optimize folding) →
        minInteger ≤ v ∧ v ≤ maxInteger ∧ ∃ n : Node, n.OccursIn program ∧
          n.optimize folding = .integer l v ∧ n.SumsTo v := by
  have hrange := tokensInRange_of_tokenize h
  refine ⟨fun t ht hkind => number_of_mem_tokens h ht hkind, fun v hv => hv.inRange hrange, ?_⟩
  intro size program hparse
  have hwithin := within_of_parse hparse
  refine ⟨fun l v hoccurs => ⟨hwithin l v hoccurs, (hwithin l v hoccurs).inRange hrange⟩, ?_⟩
  intro folding l v hoccurs
  obtain ⟨n, hn, hoptimize⟩ := hoccurs.of_optimize
  have hsum := Node.sumsTo_of_optimize hoptimize
  have hfits : fitsInteger v = true := by
    refine hsum.fitsInteger ?_
    rintro l w rfl
    exact ((hwithin l w hn).inRange hrange).fitsInteger
  obtain ⟨hlow, hhigh⟩ := (fitsInteger_iff v).1 hfits
  exact ⟨hlow, hhigh, n, hn, hoptimize, hsum⟩

/-- The tokens of `-(+9223372036854775807) + -true`. -/
def leastSumTokens : List Token :=
  [{ kind := .punctuator, text := "-", loc := 0 }, { kind := .punctuator, text := "(", loc := 1 },
   { kind := .punctuator, text := "+", loc := 2 },
   { kind := .number, text := "9223372036854775807", loc := 3, value := some 9223372036854775807 },
   { kind := .punctuator, text := ")", loc := 22 }, { kind := .punctuator, text := "+", loc := 24 },
   { kind := .punctuator, text := "-", loc := 26 }, { kind := .keyword, text := "true", loc := 27 },
   { kind := .eof, text := "", loc := 31 }]

/-- No minus sign can make the least integer, but a sum of integers with minus signs is folded to
it. -/
theorem least_integer_folded :
    let sum : Node := .binary 24 .add (.integer 0 (-9223372036854775807)) (.integer 26 (-1))
    tokenize "-(+9223372036854775807) + -true" = .ok leastSumTokens ∧
    parse 31 leastSumTokens = .ok (.program 0 [sum]) ∧
    Negates leastSumTokens 9223372036854775807 ∧ ¬ Negates leastSumTokens minInteger ∧
    Constant leastSumTokens 0 (-9223372036854775807) ∧
    (Node.integer 24 minInteger).OccursIn ((Node.program 0 [sum]).optimize true) ∧
    ∃ n : Node, n.OccursIn (.program 0 [sum]) ∧ n.optimize true = .integer 24 minInteger ∧
      n.SumsTo minInteger := by
  intro sum
  have h : tokenize "-(+9223372036854775807) + -true" = .ok leastSumTokens := by decide +kernel
  have hparse : parse 31 leastSumTokens = .ok (.program 0 [sum]) := rfl
  have hnegates : Negates leastSumTokens 9223372036854775807 :=
    ⟨[], _, _, 3, leastSumTokens.drop 5, rfl, rfl, rfl⟩
  have hfolded : (Node.integer 24 minInteger).OccursIn ((Node.program 0 [sum]).optimize true) :=
    .inside (.head _) .here
  obtain ⟨-, hsigns, hprogram⟩ := front_end_integers_exact h
  obtain ⟨hconstants, hsums⟩ := hprogram 31 (.program 0 [sum]) hparse
  have hconstant := hconstants 0 (-9223372036854775807)
    (.inside (n := .program 0 [sum]) (.head _) (.inside (.head _) .here))
  have hleast : ¬ Negates leastSumTokens minInteger := by
    intro hnegates
    exact absurd (hsigns _ hnegates).1 (by decide)
  exact ⟨h, hparse, hnegates, hleast, hconstant.1, hfolded, (hsums true 24 minInteger hfolded).2.2⟩

end BatchCompiler
