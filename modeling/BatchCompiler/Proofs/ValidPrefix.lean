/-
# BatchCompiler.Proofs.ValidPrefix -- an error shows at the first token that cannot be right

A parser decides by the token at the cursor alone. So what it read before an error it reads again
whatever stands behind the cursor, and the error is there again as long as the same token is at the
cursor. And nothing that was read was a dead end: a few closing symbols and names in place of the
rest make it a whole program. `Viable` says both of one parser, on texts of a bounded length, in a
form that goes through sequences and alternatives; it holds of every rule by induction on the
length.
-/

import BatchCompiler.Proofs.Munch
import BatchCompiler.Proofs.Separator

namespace BatchCompiler

open BatchCompiler.Parser

/-! ## What completes a text -/

/-- The tokens that complete what was begun: a name where an operand is missing, and symbols that
open or close what has to be there. -/
def fillers : List Token :=
  .name "x" :: ["(", ")", "]", "\x7b", "\x7d", ":"].map Token.symbol

/-- The token neither goes on with a statement in front of it nor ends it. -/
def Token.Ends (t : Token) : Prop :=
  ∀ text ∈ ";" :: continuations.map Prod.fst, t.isSymbol text = false

instance (t : Token) : Decidable t.Ends := inferInstanceAs (Decidable (∀ text ∈ _, _))

/-- The token stands at the end. -/
abbrev Token.AtEnd (t : Token) : Prop := t.kind = .eof

/-- A number without its value, which no source text has. -/
def Token.Valueless (t : Token) : Prop := t.kind = .number ∧ t.value = none

theorem Token.not_symbol_of_atEnd {t : Token} (h : t.AtEnd) (text : String) :
    t.isSymbol text = false := by
  rw [Bool.eq_false_iff]
  exact fun hsymbol => Token.not_eof_of_isSymbol hsymbol h

theorem Token.ends_of_atEnd {t : Token} (h : t.AtEnd) : t.Ends :=
  fun text _ => Token.not_symbol_of_atEnd h text

theorem Token.Ends.not_tier {t : Token} (h : t.Ends) :
    ∀ tier ∈ tiers, ∀ entry ∈ tier, t.isSymbol entry.1 = false := by
  have hmem : ∀ tier ∈ tiers, ∀ entry ∈ tier, entry.1 ∈ ";" :: continuations.map Prod.fst := by
    decide +kernel
  exact fun tier htier entry hentry => h _ (hmem tier htier entry hentry)

theorem Token.Ends.not_suffix {t : Token} (h : t.Ends) :
    ∀ entry ∈ suffixes, t.isSymbol entry.1 = false := by
  have hmem : ∀ entry ∈ suffixes, entry.1 ∈ ";" :: continuations.map Prod.fst := by decide +kernel
  exact fun entry hentry => h _ (hmem entry hentry)

/-- A token that `Z` allows is at the cursor. -/
def NextIs (Z : Token → Prop) (ts : List Token) : Prop := ∃ t ∈ ts.head?, Z t

theorem NextIs.mono {Z Z' : Token → Prop} {ts : List Token} (h : NextIs Z ts)
    (hZ : ∀ t, Z t → Z' t) : NextIs Z' ts := by
  obtain ⟨t, ht, hZt⟩ := h
  exact ⟨t, ht, hZ t hZt⟩

theorem NextIs.append {Z : Token → Prop} {ts : List Token} {c : Token} (h : ts.head? = some c)
    (hc : Z c) (us : List Token) : NextIs Z (ts ++ us) :=
  ⟨c, by simp [h], hc⟩

theorem head?_append_of_ne_nil {front : List Token} (h : front ≠ []) (ts us : List Token) :
    (front ++ ts).head? = (front ++ us).head? := by
  obtain ⟨t, front, rfl⟩ := List.exists_cons_of_ne_nil h
  rfl

/-- The same token is at the cursor behind `front`, or one that `Z` allows, and so it is in front of
it if `front` is not empty or `Z` allows less than `Z'`. -/
theorem continues_append {Z Z' : Token → Prop} {front rest rest' : List Token}
    (h : rest'.head? = rest.head? ∨ NextIs Z rest') (hZ : front ≠ [] ∨ ∀ t, Z t → Z' t) :
    (front ++ rest').head? = (front ++ rest).head? ∨ NextIs Z' (front ++ rest') := by
  by_cases hfront : front = []
  · subst hfront
    have hZ' : ∀ t, Z t → Z' t := hZ.resolve_left fun hne => hne rfl
    exact h.imp_right fun hnext => hnext.mono hZ'
  · exact .inl (head?_append_of_ne_nil hfront _ _)

/-! ## Parsers without dead ends -/

/-- With a few more tokens behind `front` the parser succeeds, whatever `Z` allows behind them. If
`front` is empty, they begin with `first`. -/
def Completes {α : Type} (Z : Token → Prop) (first : Option Token) (p : Parser α)
    (front : List Token) : Prop :=
  ∃ more a, (∀ t ∈ more, t ∈ fillers) ∧ (front = [] → more.head? = first) ∧
    ∀ rest, NextIs Z rest → p (front ++ more ++ rest) = .ok a rest

/-- On these tokens, the parser decides by the token at the cursor and runs into no dead end. What
it reads are `d` tokens at least, and it reads them again if the same token is at the cursor behind
them or one that `Z` allows. Where it fails at the cursor, it fails on every text with the same
token there, and what it has read can be completed. If it has read nothing, this is promised only if
there is a token `first` to begin with. -/
structure ViableAt {α : Type} (d : Nat) (Z : Token → Prop) (first : Option Token) (p : Parser α)
    (ts : List Token) : Prop where
  ok {a : α} {rest : List Token} : p ts = .ok a rest →
    ∃ front, ts = front ++ rest ∧ d ≤ front.length ∧ (∀ t ∈ front, t.kind ≠ .eof) ∧
      ∀ rest', rest'.head? = rest.head? ∨ NextIs Z rest' → p (front ++ rest') = .ok a rest'
  atCursor {problem : ParseProblem} {rest : List Token} :
    p ts = .error (.atCursor problem) rest →
    ∃ front, ts = front ++ rest ∧ (∀ t ∈ front, t.kind ≠ .eof) ∧
      (∀ rest', rest'.head? = rest.head? →
        p (front ++ rest') = .error (.atCursor problem) rest') ∧
      (front ≠ [] ∨ first.isSome → Completes Z first p front)
  behind {loc : Nat} {found : String} {problem : ParseProblem} {rest : List Token} :
    p ts = .error (.behind loc found problem) rest →
    (∃ c, problem = .notAssignable c) ∨ ∃ t ∈ ts, t.Valueless

/-- The parser is so on all the tokens there may be, at most `n` of them. From nothing it gets no
further than to the cursor. -/
structure Viable {α : Type} (n d : Nat) (Z : Token → Prop) (first : Option Token)
    (p : Parser α) : Prop where
  run {ts : List Token} : ts.length ≤ n → ViableAt d Z first p ts
  start {rest : List Token} {loc : Nat} {found : String} {problem : ParseProblem} :
    p [] ≠ .error (.behind loc found problem) rest

/-- The parser fails because of what stands to the left of an equals sign. -/
def Refuses {α : Type} (p : Parser α) : Prop :=
  ∀ ts, ∃ loc found c, p ts = .error (.behind loc found (.notAssignable c)) ts

namespace ViableAt

variable {α : Type} {d : Nat} {Z Z' : Token → Prop} {first : Option Token} {p q : Parser α}
  {t : Token} {ts : List Token}

/-- Fewer tokens have to be read, and fewer may follow. -/
theorem mono (h : ViableAt d Z first p ts) {d' : Nat} (hd : d' ≤ d) (hZ : ∀ t, Z' t → Z t) :
    ViableAt d' Z' first p ts where
  ok hrun := by
    obtain ⟨front, hts, hread, hend, hagain⟩ := h.ok hrun
    refine ⟨front, hts, Nat.le_trans hd hread, hend, fun rest' hrest' => ?_⟩
    exact hagain rest' (hrest'.imp_right fun hnext => hnext.mono hZ)
  atCursor hrun := by
    obtain ⟨front, hts, hend, hagain, hcompletes⟩ := h.atCursor hrun
    refine ⟨front, hts, hend, hagain, fun hfront => ?_⟩
    obtain ⟨more, a, hmore, hfirst, hread⟩ := hcompletes hfront
    exact ⟨more, a, hmore, hfirst, fun rest hrest => hread rest (hrest.mono hZ)⟩
  behind := h.behind

/-- Another promise for the case that nothing has been read. -/
theorem promise (h : ViableAt d Z first p ts) {first' : Option Token}
    (hpromise : first'.isSome → Completes Z first' p []) : ViableAt d Z first' p ts where
  ok := h.ok
  atCursor hrun := by
    obtain ⟨front, hts, hend, hagain, hcompletes⟩ := h.atCursor hrun
    refine ⟨front, hts, hend, hagain, fun hfront => ?_⟩
    by_cases hnil : front = []
    · subst hnil
      exact hpromise (hfront.resolve_left fun hne => hne rfl)
    · obtain ⟨more, a, hmore, -, hread⟩ := hcompletes (.inl hnil)
      exact ⟨more, a, hmore, fun hfront => absurd hfront hnil, hread⟩
  behind := h.behind

/-- A parser that succeeds has nothing to promise. -/
theorem of_ok (h : ViableAt d Z first p ts) {a : α} {rest : List Token} (hok : p ts = .ok a rest)
    (first' : Option Token) : ViableAt d Z first' p ts where
  ok := h.ok
  atCursor hrun := by
    rw [hok] at hrun
    cases hrun
  behind := h.behind

/-- The parser does what another one does if the token at the cursor is as `B` says, and it is so.
-/
theorem branch (B : Option Token → Prop) (hq : ∀ us, B us.head? → p us = q us) (hB : B ts.head?)
    (h : ViableAt d Z first q ts) (hfirst : ∀ c ∈ first, B (some c))
    (hZ : 1 ≤ d ∨ ∀ t, Z t → B (some t)) : ViableAt d Z first p ts where
  ok {a rest} hrun := by
    rw [hq ts hB] at hrun
    obtain ⟨front, rfl, hread, hend, hagain⟩ := h.ok hrun
    refine ⟨front, rfl, hread, hend, fun rest' hrest' => ?_⟩
    have hcut : front ≠ [] ∨ ∀ t, Z t → B (some t) :=
      hZ.imp_left fun hd => List.ne_nil_of_length_pos (by omega)
    have hB' : B (front ++ rest').head? := by
      rcases continues_append hrest' hcut with hsame | ⟨t, ht, hBt⟩
      · rwa [hsame]
      · rwa [Option.mem_def.1 ht]
    rw [hq _ hB']
    exact hagain rest' hrest'
  atCursor {problem rest} hrun := by
    rw [hq ts hB] at hrun
    obtain ⟨front, rfl, hend, hagain, hcompletes⟩ := h.atCursor hrun
    refine ⟨front, rfl, hend, fun rest' hrest' => ?_, fun hfront => ?_⟩
    · have hB' : B (front ++ rest').head? := by
        rwa [List.head?_append, hrest', ← List.head?_append]
      rw [hq _ hB']
      exact hagain rest' hrest'
    · obtain ⟨more, a, hmore, hmoreFirst, hread⟩ := hcompletes hfront
      refine ⟨more, a, hmore, hmoreFirst, fun rest' hrest' => ?_⟩
      -- If nothing has been read, what is put in begins with `first`, and `B` holds of that.
      have hB' : B (front ++ more ++ rest').head? := by
        by_cases hnil : front = []
        · obtain ⟨c, hc⟩ := Option.isSome_iff_exists.1 (hfront.resolve_left (not_not.2 hnil))
          have hhead : more.head? = some c := (hmoreFirst hnil).trans hc
          subst hnil
          simpa [hhead] using hfirst c hc
        · rwa [List.append_assoc, head?_append_of_ne_nil hnil _ rest]
      rw [hq _ hB']
      exact hread rest' hrest'
  behind hrun := h.behind (by rwa [← hq ts hB])

/-- The parser reads the token at the cursor and then does what another one does. -/
theorem cons {c : Token} (hkind : t.kind ≠ .eof) (hq : ∀ us, p (t :: us) = q us)
    (h : ViableAt (d - 1) Z (some c) q ts) : ViableAt d Z first p (t :: ts) where
  ok {a rest} hrun := by
    rw [hq] at hrun
    obtain ⟨front, rfl, hread, hend, hagain⟩ := h.ok hrun
    refine ⟨t :: front, rfl, by simp; omega, List.forall_mem_cons.2 ⟨hkind, hend⟩, ?_⟩
    intro rest' hrest'
    rw [List.cons_append, hq]
    exact hagain rest' hrest'
  atCursor {problem rest} hrun := by
    rw [hq] at hrun
    obtain ⟨front, rfl, hend, hagain, hcompletes⟩ := h.atCursor hrun
    refine ⟨t :: front, rfl, List.forall_mem_cons.2 ⟨hkind, hend⟩, fun rest' hrest' => ?_,
      fun _ => ?_⟩
    · rw [List.cons_append, hq]
      exact hagain rest' hrest'
    · obtain ⟨more, a, hmore, -, hread⟩ := hcompletes (.inr rfl)
      refine ⟨more, a, hmore, fun hnil => absurd hnil (List.cons_ne_nil _ _), ?_⟩
      intro rest' hrest'
      rw [List.cons_append, List.cons_append, hq]
      exact hread rest' hrest'
  behind hrun := by
    rw [hq] at hrun
    refine (h.behind hrun).imp_right ?_
    rintro ⟨u, hu, hvalue⟩
    exact ⟨u, List.mem_cons_of_mem t hu, hvalue⟩

theorem of_pure (a : α) (ts : List Token) : ViableAt 0 Z first (pure a : Parser α) ts where
  ok := by
    rintro b rest ⟨⟩
    exact ⟨[], rfl, Nat.le_refl 0, by simp, fun rest' _ => rfl⟩
  atCursor := by rintro problem rest ⟨⟩
  behind := by rintro loc found problem rest ⟨⟩

/-- The parser fails because of something that it has read. -/
theorem of_behind {loc : Nat} {found : String} {problem : ParseProblem} {rest : List Token}
    (hrun : p ts = .error (.behind loc found problem) rest)
    (hbehind : (∃ c, problem = .notAssignable c) ∨ ∃ t ∈ ts, t.Valueless) :
    ViableAt d Z first p ts where
  ok h := by
    rw [hrun] at h
    cases h
  atCursor h := by
    rw [hrun] at h
    cases h
  behind h := by
    rw [hrun] at h
    cases h
    exact hbehind

end ViableAt

namespace Viable

variable {α β γ : Type} {n d : Nat} {Z Z' : Token → Prop} {first : Option Token} {p : Parser α}
  {f : α → Parser β}

/-- Fewer tokens, fewer of which have to be read, and fewer that may follow. -/
theorem mono (h : Viable n d Z first p) {n' d' : Nat} (hn : n' ≤ n) (hd : d' ≤ d)
    (hZ : ∀ t, Z' t → Z t) : Viable n' d' Z' first p where
  run hlen := (h.run (Nat.le_trans hlen hn)).mono hd hZ
  start := h.start

/-- It may be that nothing has been read. -/
theorem relax (h : Viable n 1 Z first p) : Viable n 0 Z first p :=
  h.mono (Nat.le_refl n) (Nat.zero_le 1) fun _ ht => ht

/-- Nothing is promised unless a token has been read. -/
theorem unstarted (h : Viable n d Z first p) : Viable n d Z none p where
  run hlen := (h.run hlen).promise nofun
  start := h.start

/-- One token is enough for the parser to begin with and to end with. -/
theorem starting (h : Viable n d Z none p) {c : Token} (hc : c ∈ fillers) {a : α}
    (hread : ∀ rest, NextIs Z rest → p (c :: rest) = .ok a rest) : Viable n d Z (some c) p where
  run hlen := (h.run hlen).promise fun _ => ⟨[c], a, by simpa using hc, fun _ => rfl, hread⟩
  start := h.start

/-- What the parser makes of nothing: it succeeds if that is enough, and else can be completed. -/
theorem of_nil {c : Token} (h : Viable n d Z (some c) p) :
    (d = 0 ∧ ∃ a, ∀ rest, NextIs Z rest → p rest = .ok a rest) ∨ Completes Z (some c) p [] := by
  have hnil : ViableAt d Z (some c) p [] := h.run (Nat.zero_le n)
  cases hrun : p [] with
  | ok a rest =>
    obtain ⟨front, hts, hread, -, hagain⟩ := hnil.ok hrun
    obtain ⟨rfl, rfl⟩ := List.append_eq_nil_iff.1 hts.symm
    exact .inl ⟨Nat.le_zero.1 hread, a, fun rest hrest => hagain rest (.inr hrest)⟩
  | error e rest =>
    cases e with
    | atCursor problem =>
      obtain ⟨front, hts, -, -, hcompletes⟩ := hnil.atCursor hrun
      obtain ⟨rfl, rfl⟩ := List.append_eq_nil_iff.1 hts.symm
      exact .inr (hcompletes (.inr rfl))
    | behind loc found problem => exact absurd hrun h.start

/-! ### Sequences -/

theorem pure (a : α) : Viable n 0 Z first (Pure.pure a : Parser α) where
  run _ := .of_pure a _
  start := by rintro rest loc found problem ⟨⟩

theorem reject (problem : ParseProblem) :
    Viable n d Z none (Parser.reject problem : Parser α) where
  run _ := {
    ok := by rintro b rest ⟨⟩
    atCursor := by
      rintro problem rest ⟨⟩
      exact ⟨[], rfl, by simp, fun rest' _ => rfl, by simp⟩
    behind := by rintro loc found problem rest ⟨⟩ }
  start := by rintro rest loc found problem ⟨⟩

/-- What completes the first of two parsers, and then what completes the second from nothing,
completes both. -/
theorem completes_bind {c : Token} {front : List Token} (hfront : front ≠ [] ∨ first.isSome)
    (hp : Completes Z first p front) (hc : Z c) (hf : ∀ a, Viable n d Z' (some c) (f a))
    (hZ : 1 ≤ d ∨ ∀ t, Z' t → Z t) : Completes Z' first (p >>= f) front := by
  obtain ⟨more, a, hmore, hfirst, hread⟩ := hp
  rcases (hf a).of_nil with ⟨hd, b, hsecond⟩ | ⟨more', b, hmore', hfirst', hsecond⟩
  · have hsub : ∀ t, Z' t → Z t := hZ.resolve_left (by omega)
    refine ⟨more, b, hmore, hfirst, fun rest hrest => ?_⟩
    rw [bind_of_ok (hread rest (hrest.mono hsub))]
    exact hsecond rest hrest
  · refine ⟨more ++ more', b, List.forall_mem_append.2 ⟨hmore, hmore'⟩, fun hnil => ?_, ?_⟩
    · obtain ⟨c', hc'⟩ := Option.isSome_iff_exists.1 (hfront.resolve_left (not_not.2 hnil))
      simp [hfirst hnil, hc']
    · intro rest hrest
      have hnext : NextIs Z (more' ++ rest) := NextIs.append (hfirst' rfl) hc rest
      have hrun := hread (more' ++ rest) hnext
      rw [← List.append_assoc front, List.append_assoc (front ++ more), bind_of_ok hrun]
      exact hsecond rest hrest

/-- A parser that reads a token, and another behind it that begins with a token `c`. The second has
to be viable only if a text is left to be read or to be completed. -/
theorem bind (c : Token) (hp : Viable n 1 Z first p) (hc : Z c)
    (hf : first.isSome ∨ 0 < n → ∀ a, Viable (n - 1) d Z' (some c) (f a))
    (hZ : 1 ≤ d ∨ ∀ t, Z' t → Z t) : Viable n 1 Z' first (p >>= f) := by
  -- Where the first parser succeeds, the second goes on with fewer tokens.
  have hsecond : ∀ {ts mid : List Token} {a : α}, ts.length ≤ n → p ts = .ok a mid →
      ViableAt d Z' (some c) (f a) mid := by
    intro ts mid a hlen hpt
    obtain ⟨front, rfl, hread, -, -⟩ := (hp.run hlen).ok hpt
    rw [List.length_append] at hlen
    exact (hf (.inr (by omega)) a).run (by omega)
  refine ⟨fun {ts} hlen => ⟨?ok, ?atCursor, ?behind⟩, ?start⟩
  case ok =>
    intro b rest hrun
    obtain ⟨a, mid, hpt, hfm⟩ := bind_eq_ok_iff.1 hrun
    obtain ⟨front', hmid, hread', hend', hagain'⟩ := (hsecond hlen hpt).ok hfm
    obtain ⟨front, hts, hread, hend, hagain⟩ := (hp.run hlen).ok hpt
    subst hmid hts
    refine ⟨front ++ front', by simp, by simp; omega, ?_, fun rest' hrest' => ?_⟩
    · exact List.forall_mem_append.2 ⟨hend, hend'⟩
    · have hcut : front' ≠ [] ∨ ∀ t, Z' t → Z t :=
        hZ.imp_left fun hd => List.ne_nil_of_length_pos (by omega)
      rw [List.append_assoc, bind_of_ok (hagain _ (continues_append hrest' hcut))]
      exact hagain' rest' hrest'
  case atCursor =>
    intro problem rest hrun
    rw [bind_apply] at hrun
    cases hpt : p ts with
    | error e mid =>
      rw [hpt] at hrun
      cases hrun
      obtain ⟨front, rfl, hend, hagain, hcompletes⟩ := (hp.run hlen).atCursor hpt
      refine ⟨front, rfl, hend, fun rest' hrest' => ?_, fun hfront => ?_⟩
      · rw [bind_apply, hagain rest' hrest']
      · have hpos : first.isSome ∨ 0 < n := by
          rcases hfront with hne | hsome
          · have := List.length_pos_iff.2 hne
            rw [List.length_append] at hlen
            exact .inr (by omega)
          · exact .inl hsome
        exact completes_bind hfront (hcompletes hfront) hc (hf hpos) hZ
    | ok a mid =>
      rw [hpt] at hrun
      obtain ⟨front', hmid, hend', hagain', hcompletes⟩ := (hsecond hlen hpt).atCursor hrun
      obtain ⟨front, hts, hread, hend, hagain⟩ := (hp.run hlen).ok hpt
      subst hmid hts
      refine ⟨front ++ front', by simp, ?_, fun rest' hrest' => ?_, fun _ => ?_⟩
      · exact List.forall_mem_append.2 ⟨hend, hend'⟩
      · have hsame : (front' ++ rest').head? = (front' ++ rest).head? := by
          rw [List.head?_append, List.head?_append, hrest']
        rw [List.append_assoc, bind_of_ok (hagain _ (.inl hsame))]
        exact hagain' rest' hrest'
      · obtain ⟨more, b, hmore, hfirst, hwhole⟩ := hcompletes (.inr rfl)
        refine ⟨more, b, hmore, fun hnil => ?_, fun rest' hrest' => ?_⟩
        · rw [(List.append_eq_nil_iff.1 hnil).1] at hread
          simp at hread
        · -- What is put in begins with `c` if the second parser has read nothing.
          have hsame : (front' ++ more ++ rest').head? = (front' ++ rest).head? ∨
              NextIs Z (front' ++ more ++ rest') := by
            by_cases hnil : front' = []
            · subst hnil
              exact .inr (NextIs.append (hfirst rfl) hc rest')
            · rw [List.append_assoc]
              exact .inl (head?_append_of_ne_nil hnil _ _)
          rw [List.append_assoc front, List.append_assoc front, bind_of_ok (hagain _ hsame)]
          exact hwhole rest' hrest'
  case behind =>
    intro loc found problem rest hrun
    rw [bind_apply] at hrun
    cases hpt : p ts with
    | error e mid =>
      rw [hpt] at hrun
      cases hrun
      exact (hp.run hlen).behind hpt
    | ok a mid =>
      rw [hpt] at hrun
      refine ((hsecond hlen hpt).behind hrun).imp_right ?_
      obtain ⟨front, rfl, -⟩ := (hp.run hlen).ok hpt
      rintro ⟨t, ht, hvalue⟩
      exact ⟨t, List.mem_append_right _ ht, hvalue⟩
  case start =>
    intro rest loc found problem hrun
    rw [bind_apply] at hrun
    cases hpt : p [] with
    | error e mid =>
      rw [hpt] at hrun
      cases hrun
      exact hp.start hpt
    | ok a mid =>
      have hnil : ViableAt 1 Z first p [] := hp.run (Nat.zero_le n)
      obtain ⟨front, hts, hread, -, -⟩ := hnil.ok hpt
      rw [(List.append_eq_nil_iff.1 hts.symm).1] at hread
      simp at hread

/-- A parser that reads a token, and one behind it that reads another. -/
theorem andThen (c : Token) (hp : Viable n 1 Z first p) (hc : Z c)
    (hf : first.isSome ∨ 0 < n → ∀ a, Viable (n - 1) 1 Z' (some c) (f a)) :
    Viable n 1 Z' first (p >>= f) :=
  bind c hp hc hf (.inl (Nat.le_refl 1))

/-- A parser that reads a token, and one behind it that may read none. -/
theorem andMaybe (c : Token) (hp : Viable n 1 Z first p) (hc : Z c)
    (hf : first.isSome ∨ 0 < n → ∀ a, Viable (n - 1) 0 Z' (some c) (f a))
    (hZ : ∀ t, Z' t → Z t) : Viable n 1 Z' first (p >>= f) :=
  bind c hp hc hf (.inr hZ)

/-- What is made of the result makes no difference. -/
theorem map (h : Viable n d Z first p) (g : α → β) :
    Viable n d Z first (p >>= fun a => Pure.pure (g a)) := by
  -- Where the second parser fails, it was the first that did.
  have herror : ∀ {ts rest : List Token} {e : ParseFailure},
      (p >>= fun a => Pure.pure (g a)) ts = .error e rest → p ts = .error e rest := by
    intro ts rest e hrun
    rw [bind_apply] at hrun
    cases hpt : p ts with
    | ok a mid =>
      rw [hpt] at hrun
      cases hrun
    | error e' mid =>
      rw [hpt] at hrun
      cases hrun
      rfl
  refine ⟨fun {ts} hlen => ⟨?read, ?rejected, fun hrun => (h.run hlen).behind (herror hrun)⟩,
    fun hrun => h.start (herror hrun)⟩
  case read =>
    intro b rest hrun
    obtain ⟨a, mid, hpt, hmid⟩ := bind_eq_ok_iff.1 hrun
    cases hmid
    obtain ⟨front, hts, hread, hend, hagain⟩ := (h.run hlen).ok hpt
    refine ⟨front, hts, hread, hend, fun rest' hrest' => ?_⟩
    rw [bind_of_ok (hagain rest' hrest')]
    rfl
  case rejected =>
    intro problem rest hrun
    obtain ⟨front, hts, hend, hagain, hcompletes⟩ := (h.run hlen).atCursor (herror hrun)
    refine ⟨front, hts, hend, fun rest' hrest' => ?_, fun hfront => ?_⟩
    · rw [bind_apply, hagain rest' hrest']
    · obtain ⟨more, a, hmore, hfirst, hread⟩ := hcompletes hfront
      refine ⟨more, g a, hmore, hfirst, fun rest hrest => ?_⟩
      rw [bind_of_ok (hread rest hrest)]
      rfl

/-! ### One token -/

/-- A parser that looks at one token: it reads it, or rejects it, or finds a number without a value.
-/
theorem token {problem : ParseProblem} (hnil : p [] = .error (.atCursor problem) [])
    (hcons : ∀ t, (t.kind ≠ .eof ∧ ∃ a, ∀ ts, p (t :: ts) = .ok a ts) ∨
      (∀ ts, p (t :: ts) = .error (.atCursor problem) (t :: ts)) ∨
      t.Valueless ∧ ∃ loc found q, ∀ ts, p (t :: ts) = .error (.behind loc found q) ts) :
    Viable n 1 Z none p := by
  have hreject : ∀ ts, ViableAt 1 Z none (Parser.reject problem : Parser α) ts :=
    fun ts => (reject problem).run (Nat.le_refl ts.length)
  refine ⟨fun {ts} _ => ?_, fun hrun => ?_⟩
  · cases ts with
    | nil =>
      refine ViableAt.branch (· = none) (fun us hus => ?_) rfl (hreject []) nofun
        (.inl (Nat.le_refl 1))
      rw [List.head?_eq_none_iff.1 hus]
      exact hnil
    | cons t ts =>
      rcases hcons t with ⟨hend, a, hread⟩ | hrejects | ⟨hvalue, loc, found, q, hbehind⟩
      · exact ViableAt.cons hend hread (@ViableAt.of_pure _ _ (some t) a ts)
      · refine ViableAt.branch (· = some t) (fun us hus => ?_) rfl (hreject _) nofun
          (.inl (Nat.le_refl 1))
        obtain ⟨vs, rfl⟩ := List.head?_eq_some_iff.1 hus
        exact hrejects vs
      · exact .of_behind (hbehind ts) (.inr ⟨t, List.mem_cons_self, hvalue⟩)
  · rw [hnil] at hrun
    cases hrun

theorem require (text : String) : Viable n 1 Z none (Parser.require text) := by
  refine token (require_of_not_symbol (by simp)) fun t => ?_
  cases hsymbol : t.isSymbol text with
  | true => exact .inl ⟨Token.not_eof_of_isSymbol hsymbol, (), require_of_symbol hsymbol⟩
  | false =>
    exact .inr (.inl fun ts => require_of_not_symbol (forall_head?_cons hsymbol ts))

/-- The symbol is a filler. -/
def Fills (text : String) : Prop :=
  .symbol text ∈ fillers ∧ (Token.symbol text).isSymbol text = true

instance (text : String) : Decidable (Fills text) := inferInstanceAs (Decidable (_ ∧ _))

theorem requireFiller {text : String} (h : Fills text) :
    Viable n 1 Z (some (.symbol text)) (Parser.require text) :=
  (require text).starting h.1 fun rest _ => require_of_symbol h.2 rest

/-- Behind a symbol that has to be there, anything may follow. -/
theorem requireThen {text : String} {f : Unit → Parser β} (h : Fills text) (c : Token)
    (hf : Viable (n - 1) 0 Z (some c) (f ())) :
    Viable n 1 Z (some (.symbol text)) (Parser.require text >>= f) :=
  andMaybe c (@requireFiller _ (fun _ => True) _ h) trivial (fun _ _ => hf) fun _ _ => trivial

theorem identifier : Viable n 1 Z (some (.name "x")) Parser.identifier := by
  have hunstarted : Viable n 1 Z none Parser.identifier := by
    refine token rfl fun t => ?_
    by_cases hkind : t.kind = .identifier
    · exact .inl ⟨by simp [hkind], t.text, identifier_of_kind hkind⟩
    · refine .inr (.inl fun ts => ?_)
      have hnot : ∀ u ∈ (t :: ts).head?, u.kind ∉ [TokenKind.identifier] :=
        forall_head?_cons (by simpa using hkind) ts
      show (Parser.expect _ >>= _) _ = _
      rw [bind_apply, expect_of_not_mem hnot]
  exact hunstarted.starting List.mem_cons_self fun rest _ => identifier_of_kind rfl rest

/-! ### Alternatives -/

/-- The parser takes the token at the cursor if `g` makes something of it, and else leaves it. -/
structure Tests (q : Parser (Option γ)) (g : Token → Option γ) : Prop where
  taken {t : Token} {x : γ} : g t = some x →
    t.kind ≠ .eof ∧ ∀ ts, q (t :: ts) = .ok (some x) ts
  left {ts : List Token} : (∀ t ∈ ts.head?, g t = none) → q ts = .ok none ts

/-- The token at the cursor decides which way to go on. Behind a token that was taken nothing is a
dead end, or an assignment is refused. -/
theorem test {q : Parser (Option γ)} {g : Token → Option γ} (hq : Tests q g)
    {f : Option γ → Parser β} (hnone : Viable n d Z first (f none))
    (hsome : 0 < n → ∀ t x, g t = some x →
      Refuses (f (some x)) ∨ ∃ c, Viable (n - 1) (d - 1) Z (some c) (f (some x)))
    (hfirst : ∀ c ∈ first, g c = none) (hZ : 1 ≤ d ∨ ∀ t, Z t → g t = none) :
    Viable n d Z first (q >>= f) := by
  -- Either the token at the cursor is left, or there is one and it is taken.
  refine ⟨fun {ts} hlen => ?_, fun hrun => ?_⟩
  · by_cases hleft : ∀ t ∈ ts.head?, g t = none
    · exact ViableAt.branch (fun o => ∀ t ∈ o, g t = none) (fun us hus => bind_of_ok (hq.left hus))
        hleft (hnone.run hlen) (by simpa using hfirst) (by simpa using hZ)
    · obtain ⟨t, us, rfl, hg⟩ : ∃ t us, ts = t :: us ∧ g t ≠ none := by
        cases ts with
        | nil => exact absurd nofun hleft
        | cons t us => exact ⟨t, us, rfl, fun hg => hleft (forall_head?_cons hg us)⟩
      obtain ⟨x, hx⟩ := Option.ne_none_iff_exists'.1 hg
      obtain ⟨hkind, htaken⟩ := hq.taken hx
      rw [List.length_cons] at hlen
      rcases hsome (by omega) t x hx with hrefuses | ⟨c, hviable⟩
      · obtain ⟨loc, found, c, hfail⟩ := hrefuses us
        exact .of_behind ((bind_of_ok (htaken us)).trans hfail) (.inl ⟨c, rfl⟩)
      · exact .cons hkind (fun vs => bind_of_ok (htaken vs)) (hviable.run (by omega))
  · rw [bind_of_ok (hq.left (by simp))] at hrun
    exact hnone.start hrun

/-- A symbol may be at the cursor. Only behind an equals sign may the parser refuse. -/
theorem accept? {text : String} {f : Option Token → Parser β}
    (hnone : Viable n d Z first (f none))
    (hsome : 0 < n → ∀ t,
      Refuses (f (some t)) ∨ ∃ c, Viable (n - 1) (d - 1) Z (some c) (f (some t)))
    (hfirst : ∀ c ∈ first, c.isSymbol text = false)
    (hZ : 1 ≤ d ∨ ∀ t, Z t → t.isSymbol text = false) :
    Viable n d Z first (Parser.accept? text >>= f) := by
  have htests : Tests (Parser.accept? text) fun t => if t.isSymbol text then some t else none := by
    constructor
    · intro t x hx
      obtain ⟨hsymbol, hx⟩ := Option.ite_none_right_eq_some.1 hx
      cases hx
      exact ⟨Token.not_eof_of_isSymbol hsymbol, accept?_of_symbol hsymbol⟩
    · intro ts hts
      exact accept?_of_not_symbol (by simpa using hts)
  refine test htests hnone (fun hn _ t _ => hsome hn t) ?_ ?_
  · simpa using hfirst
  · simpa using hZ

theorem accept {text : String} {f : Bool → Parser β} (c : Token)
    (hfalse : Viable n d Z first (f false))
    (htrue : 0 < n → Viable (n - 1) (d - 1) Z (some c) (f true))
    (hfirst : ∀ c ∈ first, c.isSymbol text = false)
    (hZ : 1 ≤ d ∨ ∀ t, Z t → t.isSymbol text = false) :
    Viable n d Z first (Parser.accept text >>= f) := by
  unfold Parser.accept
  simp only [bind_assoc, pure_bind]
  exact accept? hfalse (fun hn _ => .inr ⟨c, htrue hn⟩) hfirst hZ

/-- A semicolon may be there or not. -/
theorem skip (h : ∀ c ∈ first, c.isSymbol ";" = false) (hZ : ∀ t, Z t → t.isSymbol ";" = false)
    (a : α) : Viable n 0 Z first (Parser.accept ";" >>= fun _ => Pure.pure a) :=
  accept .ending (pure a) (fun _ => pure a) h (.inr hZ)

theorem acceptAny? {table : List (String × γ)} {f : Option (Token × γ) → Parser β}
    (hnone : Viable n d Z first (f none))
    (hsome : 0 < n → ∀ t a, ∃ c, Viable (n - 1) (d - 1) Z (some c) (f (some (t, a))))
    (hfirst : ∀ c ∈ first, ∀ entry ∈ table, c.isSymbol entry.1 = false)
    (hZ : 1 ≤ d ∨ ∀ t, Z t → ∀ entry ∈ table, t.isSymbol entry.1 = false) :
    Viable n d Z first (Parser.acceptAny? table >>= f) := by
  have htests : Tests (Parser.acceptAny? table) fun t =>
      (table.find? fun entry => t.isSymbol entry.1).map fun entry => (t, entry.2) := by
    constructor
    · intro t x hx
      obtain ⟨entry, hfind, rfl⟩ := Option.map_eq_some_iff.1 hx
      have hsymbol : t.isSymbol entry.1 = true := by simpa using List.find?_some hfind
      refine ⟨Token.not_eof_of_isSymbol hsymbol, fun ts => ?_⟩
      rw [acceptAny?_cons, hfind]
    · intro ts hts
      exact acceptAny?_of_not_symbol (by simpa using hts)
  refine test htests hnone (fun hn _ x _ => .inr (hsome hn x.1 x.2)) ?_ ?_
  · simpa using hfirst
  · simpa using hZ

/-- A closing symbol is at the cursor, or something that begins with no particular token. -/
theorem closing {close : String} (hclose : Fills close) {f : Bool → Parser β} {b : β}
    (htrue : f true = Pure.pure b) (hfalse : Viable n 1 Z none (f false)) :
    Viable n 1 Z (some (.symbol close)) (Parser.accept close >>= f) := by
  have hunstarted : Viable n 1 Z none (Parser.accept close >>= f) := by
    refine accept (.symbol close) hfalse (fun _ => ?_) (by simp) (.inl (Nat.le_refl 1))
    rw [htrue]
    exact pure b
  have hrun : ∀ rest, (Parser.accept close >>= f) (.symbol close :: rest) = .ok b rest := by
    intro rest
    rw [bind_of_ok (accept_of_symbol hclose.2 rest), htrue]
    rfl
  exact hunstarted.starting hclose.1 fun rest _ => hrun rest

/-- A name may be at the cursor, and something that is no name has to be behind it. -/
theorem identifier? {f : Option String → Parser β} {c : Token} (hc : c.kind ≠ .identifier)
    (h : ∀ x, Viable n 1 Z (some c) (f x)) :
    Viable n 1 Z (some c) (Parser.identifier? >>= f) := by
  have htests : Tests Parser.identifier? fun t =>
      if t.kind = .identifier then some t.text else none := by
    constructor
    · intro t x hx
      obtain ⟨hkind, hx⟩ := Option.ite_none_right_eq_some.1 hx
      cases hx
      exact ⟨by simp [hkind], identifier?_of_kind hkind⟩
    · intro ts hts
      exact identifier?_of_not_kind (by simpa using hts)
  refine test htests (h none) (fun _ _ x _ => .inr ⟨c, ?_⟩) ?_ (.inl (Nat.le_refl 1))
  · exact (h (some x)).mono (Nat.sub_le n 1) (Nat.zero_le 1) fun _ ht => ht
  · simpa using hc

/-- Where the tokens end, the parser fails or is done; elsewhere it reads a token. If it is promised
that something can follow, it does not fail at the end. -/
theorem atEnd {f : Bool → Parser β} (hd : d ≤ 1) (htrue : Viable n d Z none (f true))
    (hfalse : 0 < n → Viable n 1 Z first (f false))
    (hfirst : ∀ c ∈ first, c.kind ≠ .eof ∧ ∃ b, f true = Pure.pure b)
    (hZ : 1 ≤ d ∨ ∀ t, Z t → t.AtEnd) : Viable n d Z first (Parser.atEnd >>= f) := by
  have happly : ∀ ts, (Parser.atEnd >>= f) ts = f (Token.isEnd ts.head?) ts :=
    fun ts => bind_of_ok (atEnd_apply ts)
  have hbranch : ∀ b (us : List Token), Token.isEnd us.head? = b →
      (Parser.atEnd >>= f) us = f b us := by
    rintro b us rfl
    exact happly us
  refine ⟨fun {ts} hlen => ?_, fun hrun => htrue.start ((happly []).symm.trans hrun)⟩
  cases hend : Token.isEnd ts.head? with
  | true =>
    have hstop : ViableAt d Z none (Parser.atEnd >>= f) ts := by
      refine ViableAt.branch (Token.isEnd · = true) (hbranch true) hend (htrue.run hlen) nofun ?_
      exact hZ.imp_right fun hZ t ht => by simpa [Token.isEnd] using hZ t ht
    cases first with
    | none => exact hstop
    | some c =>
      obtain ⟨-, b, hpure⟩ := hfirst c rfl
      have hok : (Parser.atEnd >>= f) ts = .ok b ts := by rw [hbranch true ts hend, hpure]; rfl
      exact hstop.of_ok hok (some c)
  | false =>
    have hpos : 0 < n := by
      cases ts with
      | nil => cases hend
      | cons t ts => exact Nat.lt_of_lt_of_le (Nat.succ_pos _) hlen
    have hread : ViableAt 1 Z first (Parser.atEnd >>= f) ts := by
      refine ViableAt.branch (Token.isEnd · = false) (hbranch false) hend
        ((hfalse hpos).run hlen) (fun c hc => ?_) (.inl (Nat.le_refl 1))
      simpa [Token.isEnd] using (hfirst c hc).1
    exact hread.mono hd fun _ ht => ht

end Viable

/-! ## Rules without dead ends -/

/-- The rules that may be called run into no dead end on at most `n` tokens. -/
structure Rules.Viable (n : Nat) (r : Rules) : Prop where
  expression : BatchCompiler.Viable n 1 Token.Ends (some (.name "x")) r.expression
  ternary : BatchCompiler.Viable n 1 Token.Ends (some (.name "x")) r.ternary
  operators {ts : List Tier} : (∀ tier ∈ ts, tier ∈ tiers) →
    BatchCompiler.Viable n 1 Token.Ends (some (.name "x")) (r.operators ts)
  signed : BatchCompiler.Viable n 1 Token.Ends (some (.name "x")) r.signed
  suffixed (m : Node) : BatchCompiler.Viable n 0 Token.Ends (some (.name "x")) (r.suffixed m)
  items {close : String} : close ∈ [")", "]"] →
    BatchCompiler.Viable n 1 (fun _ => True) (some (.name "x")) (r.items close)
  names : BatchCompiler.Viable n 1 (fun _ => True) (some (.name "x")) r.names
  block : BatchCompiler.Viable n 1 (fun _ => True) (some (.symbol "\x7d")) r.block
  statements : BatchCompiler.Viable n 0 Token.AtEnd (some (.name "x")) r.statements

/-- The rules run into no dead end on fewer than `n` tokens. Suffixes may be called for even if no
token was there to be read, behind an operand that was put in. -/
structure Rules.ViableBelow (n : Nat) (r : Rules) : Prop where
  rules : 0 < n → r.Viable (n - 1)
  suffixed (m : Node) : BatchCompiler.Viable (n - 1) 0 Token.Ends (some (.name "x")) (r.suffixed m)

/-- A name goes on with nothing. -/
theorem name_not_symbol (x text : String) : (Token.name x).isSymbol text = false := rfl

theorem ends_name (x : String) : (Token.name x).Ends := fun text _ => name_not_symbol x text

/-- A symbol that closes something ends a statement. -/
theorem ends_of_closes {close : String} (h : close ∈ [")", "]"]) : (Token.symbol close).Ends := by
  have hall : ∀ close ∈ [")", "]"], (Token.symbol close).Ends := by decide +kernel
  exact hall close h

theorem fills_of_closes {close : String} (h : close ∈ [")", "]"]) : Viable.Fills close := by
  have hall : ∀ close ∈ [")", "]"], Viable.Fills close := by decide
  exact hall close h

namespace Rules.Viable

open BatchCompiler.Viable

variable {n m : Nat} {r : Rules}

theorem mono (h : r.Viable n) (hm : m ≤ n) : r.Viable m where
  expression := h.expression.mono hm (Nat.le_refl 1) fun _ ht => ht
  ternary := h.ternary.mono hm (Nat.le_refl 1) fun _ ht => ht
  operators hts := (h.operators hts).mono hm (Nat.le_refl 1) fun _ ht => ht
  signed := h.signed.mono hm (Nat.le_refl 1) fun _ ht => ht
  suffixed k := (h.suffixed k).mono hm (Nat.le_refl 0) fun _ ht => ht
  items hclose := (h.items hclose).mono hm (Nat.le_refl 1) fun _ ht => ht
  names := h.names.mono hm (Nat.le_refl 1) fun _ ht => ht
  block := h.block.mono hm (Nat.le_refl 1) fun _ ht => ht
  statements := h.statements.mono hm (Nat.le_refl 0) fun _ ht => ht

/-! ### What is called behind a token -/

theorem list (h : r.Viable n) {close : String} (hclose : close ∈ [")", "]"]) :
    BatchCompiler.Viable n 1 (fun _ => True) (some (.symbol close)) (r.list close) :=
  closing (fills_of_closes hclose) rfl (h.items hclose).unstarted

theorem params (h : r.Viable n) :
    BatchCompiler.Viable n 1 (fun _ => True) (some (.symbol ")")) r.params :=
  closing (by decide) rfl h.names.unstarted

theorem condition (h : r.Viable n) :
    BatchCompiler.Viable n 1 (fun _ => True) (some (.symbol "(")) r.condition := by
  have hsmaller : r.Viable (n - 1) := h.mono (Nat.sub_le n 1)
  refine requireThen (by decide) (.name "x") (relax ?_)
  refine andThen (.symbol ")") hsmaller.expression (by decide +kernel) fun _ cond => ?_
  exact (requireFiller (by decide)).map fun _ => cond

theorem body (h : r.Viable n) :
    BatchCompiler.Viable n 1 Token.Ends (some (.name "x")) r.body := by
  refine accept (.symbol "\x7d") ?_ (fun _ => ?_) (by simp [name_not_symbol])
    (.inl (Nat.le_refl 1))
  · -- The semicolon belongs to the body, so what may follow must not be one.
    refine andMaybe (.name "x") h.expression (ends_name "x") (fun _ n => ?_) fun _ ht => ht
    exact skip (by simp [name_not_symbol]) (fun t ht => ht _ List.mem_cons_self) [n]
  · exact h.block.mono (Nat.sub_le n 1) (Nat.zero_le 1) fun _ _ => trivial

theorem function (h : r.Viable n) (loc : Nat) :
    BatchCompiler.Viable n 1 (fun _ => True) (some (.symbol "(")) (r.function loc) := by
  have hsmaller : r.Viable (n - 1) := h.mono (Nat.sub_le n 1)
  refine identifier? (by decide) fun x => ?_
  refine requireThen (by decide) (.symbol ")") (relax ?_)
  refine andThen (.symbol "\x7b") hsmaller.params trivial fun _ ps => ?_
  refine requireThen (by decide) (.symbol "\x7d") (relax ?_)
  exact (hsmaller.mono (by omega)).block.map (Node.function loc x ps)

theorem branch (h : r.Viable n) (loc : Nat) :
    BatchCompiler.Viable n 1 Token.Ends (some (.symbol "(")) (r.branch loc) := by
  have hsmaller : r.Viable (n - 1) := h.mono (Nat.sub_le n 1)
  refine andThen (.name "x") h.condition trivial fun _ cond => ?_
  refine andMaybe (.name "x") hsmaller.body (ends_name "x") (fun _ thenBody => ?_) fun _ ht => ht
  refine accept (.name "x") ?_ (fun _ => ?_) (by simp [name_not_symbol])
    (.inr fun t ht => ht _ (by decide))
  · exact (BatchCompiler.Viable.pure []).map (Node.branch loc cond thenBody)
  · have helse := (hsmaller.mono (Nat.sub_le _ 1)).body.map (Node.branch loc cond thenBody)
    exact helse.mono (by omega) (Nat.zero_le 1) fun _ ht => ht

theorem loop (h : r.Viable n) (loc : Nat) :
    BatchCompiler.Viable n 1 Token.Ends (some (.symbol "(")) (r.loop loc) := by
  refine andThen (.name "x") h.condition trivial fun _ cond => ?_
  exact (h.mono (Nat.sub_le n 1)).body.map (Node.loop loc cond)

/-! ### What may be called on all the tokens -/

theorem atom {Z : Token → Prop} :
    BatchCompiler.Viable n 1 Z (some (.name "x")) Rules.atom := by
  have hunstarted : BatchCompiler.Viable n 1 Z none Rules.atom := by
    refine token rfl fun t => ?_
    by_cases hkind : t.kind ∈ [TokenKind.identifier, .number, .string]
    · have hread : ∀ ts, Rules.atom (t :: ts) = _ := fun ts => bind_of_ok (expect_of_mem hkind ts)
      simp only [List.mem_cons, List.not_mem_nil, or_false] at hkind
      rcases hkind with hkind | hkind | hkind
      · exact .inl ⟨by simp [hkind], .identifier t.loc t.text, fun ts => by rw [hread, hkind]; rfl⟩
      · cases hvalue : t.value with
        | none =>
          refine .inr (.inr ⟨⟨hkind, hvalue⟩, t.loc, t.text, .numberWithoutValue, fun ts => ?_⟩)
          rw [hread, hkind, hvalue]
          rfl
        | some v =>
          refine .inl ⟨by simp [hkind], .integer t.loc v, fun ts => ?_⟩
          rw [hread, hkind, hvalue]
          rfl
      · refine .inl ⟨by simp [hkind], .string t.loc (Quoted.decode t.text), fun ts => ?_⟩
        rw [hread, hkind]
        rfl
    · refine .inr (.inl fun ts => ?_)
      show (Parser.expect _ >>= _) _ = _
      rw [bind_apply, expect_of_not_mem (forall_head?_cons hkind ts)]
  exact hunstarted.starting List.mem_cons_self fun rest _ => rfl

theorem operand (h : 0 < n → r.Viable (n - 1)) :
    BatchCompiler.Viable n 1 Token.Ends (some (.name "x")) r.operand := by
  refine acceptAny? atom (fun hn t a => ?_) (by simp [name_not_symbol]) (.inl (Nat.le_refl 1))
  have hr := h hn
  cases a with
  | group =>
    refine ⟨.name "x", relax ?_⟩
    refine andThen (.symbol ")") hr.expression (by decide +kernel) fun _ m => ?_
    exact (requireFiller (by decide)).map fun _ => m
  | array =>
    have hlist := (hr.list (List.mem_cons_of_mem _ List.mem_cons_self)).map (Node.array t.loc)
    exact ⟨.symbol "]", hlist.mono (Nat.le_refl _) (Nat.zero_le 1) fun _ _ => trivial⟩
  | constant v => exact ⟨.name "x", .pure _⟩
  | function =>
    exact ⟨.symbol "(", (hr.function t.loc).mono (Nat.le_refl _) (Nat.zero_le 1) fun _ _ => trivial⟩
  | branch =>
    exact ⟨.symbol "(", (hr.branch t.loc).relax⟩
  | loop =>
    exact ⟨.symbol "(", (hr.loop t.loc).relax⟩
  | ret =>
    have hvalue := hr.expression.map (Node.ret t.loc)
    exact ⟨.name "x", hvalue.relax⟩

theorem suffix (h : 0 < n → r.Viable (n - 1)) (k : Node) :
    BatchCompiler.Viable n 0 Token.Ends (some (.name "x")) (r.suffix k) := by
  refine acceptAny? (.pure k) (fun hn t a => ?_) (by simp [name_not_symbol])
    (.inr fun t ht => ht.not_suffix)
  have hr := h hn
  have hsmaller : r.Viable (n - 1 - 1) := hr.mono (Nat.sub_le _ 1)
  cases a with
  | call =>
    refine ⟨.symbol ")", relax ?_⟩
    refine andMaybe (.name "x") (hr.list (by decide)) trivial (fun _ args => ?_) fun _ _ => trivial
    exact hsmaller.suffixed _
  | index =>
    refine ⟨.name "x", relax ?_⟩
    refine andThen (.symbol "]") hr.expression (by decide +kernel) fun _ i => ?_
    refine requireThen (by decide) (.name "x") ?_
    exact (hsmaller.mono (Nat.sub_le _ 1)).suffixed _
  | step op => exact ⟨.name "x", hr.suffixed _⟩

theorem sign (h : r.ViableBelow n) :
    BatchCompiler.Viable n 1 Token.Ends (some (.name "x")) r.sign := by
  refine acceptAny? ?_ (fun hn t a => ?_) (by simp [name_not_symbol]) (.inl (Nat.le_refl 1))
  · exact andMaybe (.name "x") (operand h.rules) (ends_name "x") (fun _ k => h.suffixed k)
      fun _ ht => ht
  · refine ⟨.name "x", ?_⟩
    have hsigned : BatchCompiler.Viable (n - 1) 0 Token.Ends (some (.name "x")) r.signed :=
      (h.rules hn).signed.relax
    cases a with
    | step op => exact hsigned.map (Node.step t.loc op true)
    | plus => exact hsigned
    | minus => exact hsigned.map (Node.negate t.loc)

theorem tier (h : r.ViableBelow n)
    {ts : List Tier} (hts : ∀ tier ∈ ts, tier ∈ tiers) :
    BatchCompiler.Viable n 1 Token.Ends (some (.name "x")) (r.tier ts) := by
  induction ts with
  | nil => exact sign h
  | cons tier tighter ih =>
    have htighter := ih fun tier htier => hts tier (List.mem_cons_of_mem _ htier)
    refine andMaybe (.name "x") htighter (ends_name "x") (fun _ lhs => ?_) fun _ ht => ht
    refine acceptAny? (.pure lhs) (fun hn t c => ⟨.name "x", ?_⟩) (by simp [name_not_symbol])
      (.inr fun t ht => ht.not_tier tier (hts tier List.mem_cons_self))
    have hrhs := ((h.rules (by omega)).operators hts).map (c.join t.loc lhs)
    exact hrhs.mono (Nat.sub_le _ 1) (Nat.zero_le 1) fun _ ht => ht

theorem choice (h : r.ViableBelow n) :
    BatchCompiler.Viable n 1 Token.Ends (some (.name "x")) r.choice := by
  refine andMaybe (.name "x") (tier h fun _ ht => ht) (ends_name "x")
    (fun _ cond => ?_) fun _ ht => ht
  refine accept? (.pure cond) (fun hn t => .inr ⟨.name "x", ?_⟩) (by simp [name_not_symbol])
    (.inr fun t ht => ht _ (by decide))
  have hr : r.Viable (n - 1 - 1) := (h.rules (by omega)).mono (Nat.sub_le _ 1)
  refine relax ?_
  refine andThen (.symbol ":") hr.expression (by decide +kernel) fun _ thenValue => ?_
  refine requireThen (by decide) (.name "x") (relax ?_)
  exact (hr.mono (by omega)).ternary.map (Node.ternary t.loc cond thenValue)

theorem assignment (h : r.ViableBelow n) :
    BatchCompiler.Viable n 1 Token.Ends (some (.name "x")) r.assignment := by
  refine andMaybe (.name "x") (choice h) (ends_name "x") (fun _ target => ?_)
    fun _ ht => ht
  refine accept? (.pure target) (fun hn t => ?_) (by simp [name_not_symbol])
    (.inr fun t ht => ht _ (by decide))
  dsimp only
  split
  · have hvalue := (h.rules (by omega)).expression.map (Node.assign t.loc target)
    exact .inr ⟨.name "x", hvalue.mono (Nat.sub_le _ 1) (Nat.zero_le 1) fun _ ht => ht⟩
  · -- Another target is refused before anything behind the sign is looked at.
    exact .inl fun ts => ⟨target.loc, target.construct.phrase, target.construct, rfl⟩

theorem statement (h : r.ViableBelow n) :
    BatchCompiler.Viable n 1 Token.Ends (some (.name "x")) r.statement := by
  refine andMaybe (.name "x") (assignment h) (ends_name "x") (fun _ k => ?_)
    fun _ ht => ht
  exact skip (by simp [name_not_symbol]) (fun t ht => ht _ List.mem_cons_self) k

theorem next_items (h : r.ViableBelow n)
    {close : String} (hclose : close ∈ [")", "]"]) :
    BatchCompiler.Viable n 1 (fun _ => True) (some (.name "x")) (r.next.items close) := by
  refine andThen (.symbol close) (assignment h) (ends_of_closes hclose) fun _ item => ?_
  refine closing (fills_of_closes hclose) rfl ?_
  -- The closing symbol would do as well as the comma, so the comma needs no completion of its own.
  refine @andThen _ _ _ (fun _ => True) _ _ _ _ (.name "x") (require ",") trivial fun hpos _ => ?_
  have hn : 0 < n - 1 := hpos.resolve_left (by simp)
  exact (((h.rules (by omega)).mono (Nat.sub_le _ 1)).items hclose).map (item :: ·)

theorem next_names (h : r.ViableBelow n) :
    BatchCompiler.Viable n 1 (fun _ => True) (some (.name "x")) r.next.names := by
  refine @andThen _ _ _ (fun _ => True) _ _ _ _ (.symbol ")") identifier trivial fun _ x => ?_
  refine closing (by decide) rfl ?_
  refine @andThen _ _ _ (fun _ => True) _ _ _ _ (.name "x") (require ",") trivial fun hpos _ => ?_
  have hn : 0 < n - 1 := hpos.resolve_left (by simp)
  exact ((h.rules (by omega)).mono (Nat.sub_le _ 1)).names.map (x :: ·)

theorem next_block (h : r.ViableBelow n) :
    BatchCompiler.Viable n 1 (fun _ => True) (some (.symbol "\x7d")) r.next.block := by
  -- A brace completes every block, so nothing is promised for the other ways to begin one.
  refine closing (by decide) rfl ?_
  refine accept (.symbol "\x7d") ?_ (fun hn => ?_) (by simp) (.inl (Nat.le_refl 1))
  · refine atEnd (Nat.le_refl 1) (reject _) (fun hn => ?_) (by simp) (.inl (Nat.le_refl 1))
    refine andThen (.symbol "\x7d") (statement h).unstarted (by decide +kernel) fun _ k => ?_
    exact (h.rules hn).block.map (k :: ·)
  · exact (h.rules hn).block.relax

theorem next_statements (h : r.ViableBelow n) :
    BatchCompiler.Viable n 0 Token.AtEnd (some (.name "x")) r.next.statements := by
  refine atEnd (Nat.zero_le 1) (.pure []) (fun hn => ?_) ?_ (.inr fun _ ht => ht)
  · refine accept (.name "x") ?_ (fun _ => (h.rules hn).statements) (by simp [name_not_symbol])
      (.inl (Nat.le_refl 1))
    refine andMaybe (.name "x") (statement h) (ends_name "x") (fun _ k => ?_)
      fun _ ht => Token.ends_of_atEnd ht
    exact (h.rules hn).statements.map (k :: ·)
  · rintro c ⟨⟩
    exact ⟨by decide, [], rfl⟩

/-- What runs into no dead end behind a token makes all the rules run into none. -/
theorem next (h : r.ViableBelow n) :
    r.next.Viable n where
  expression := assignment h
  ternary := choice h
  operators := tier h
  signed := sign h
  suffixed := suffix h.rules
  items := next_items h
  names := next_names h
  block := next_block h
  statements := next_statements h

end Rules.Viable

/-- The grammar runs into no dead end. -/
theorem viable_grammar (n : Nat) : grammar.Viable n := by
  induction n with
  | zero =>
    have hnone : 0 < 0 → grammar.Viable (0 - 1) := fun h => absurd h (Nat.lt_irrefl 0)
    -- Suffixes come first: behind nothing they take nothing.
    have hbelow : grammar.ViableBelow 0 := ⟨hnone, fun k => by
      rw [grammar_suffixed]
      exact Rules.Viable.suffix hnone k⟩
    rw [← grammar_next]
    exact Rules.Viable.next hbelow
  | succ n ih =>
    rw [← grammar_next]
    exact Rules.Viable.next ⟨fun _ => ih, ih.suffixed⟩

theorem viable_program (n : Nat) :
    Viable n 0 Token.AtEnd (some (.name "x")) program := by
  have hprogram : program = grammar.statements >>= fun ns => pure (Node.program 0 ns) :=
    funext program_apply
  rw [hprogram]
  exact (viable_grammar n).statements.map (Node.program 0)

/-! ## Source texts -/

/-- The tokens of a source text end with the end, and their numbers have values. -/
theorem tokens_of_tokenize {source : String} {tokens : List Token}
    (h : tokenize source = .ok tokens) :
    (∃ t ∈ tokens, t.kind = .eof) ∧ ∀ t ∈ tokens, ¬ t.Valueless := by
  have hmunched := munched_tokenize source
  rw [h] at hmunched
  cases hmunched with
  | @tokens items front _ hfront =>
    rw [forall₂_spells_iff] at hfront
    refine ⟨⟨_, List.mem_append_right _ List.mem_cons_self, rfl⟩, ?_⟩
    rintro t ht ⟨hkind, hvalue⟩
    rcases List.mem_append.1 ht with hmem | hmem
    · rw [hfront, List.mem_filterMap] at hmem
      obtain ⟨⟨loc, item⟩, -, htoken⟩ := hmem
      cases item with
      | number digits =>
        cases htoken
        cases hvalue
      | blank c => cases htoken
      | comment text => cases htoken
      | word text =>
        cases htoken
        revert hkind
        dsimp only
        split <;> exact fun hkind => nomatch hkind
      | string text =>
        cases htoken
        cases hkind
      | punctuator text =>
        cases htoken
        cases hkind
    · obtain rfl := List.mem_singleton.1 hmem
      cases hkind

/-- **A parse error shows at the first token that cannot be right.** Let the error be none about
what stands to the left of an equals sign, and let the cursor stand on token `k`. The error tells
where that token starts and what it is. A few tokens behind the first `k` make a whole program of
them; and no text that begins with the first `k + 1` is one. -/
theorem parse_error_at_first_wrong_token (source : String) (tokens : List Token) (e : ParseError)
    (htokens : tokenize source = .ok tokens)
    (hparse : parse source.utf8ByteSize tokens = .error e)
    (hproblem : ∀ target, e.problem ≠ .notAssignable target) :
    ∃ k t, (program.outcome source.utf8ByteSize tokens).2 = tokens.drop k ∧
      tokens[k]? = some t ∧ e.loc = t.loc ∧
      e.found = (if t.kind = .eof then "EOF" else t.text) ∧
      (∃ more result, (∀ u ∈ more, u ∈ fillers) ∧ ∀ size last, last.kind = .eof →
        parse size (tokens.take k ++ more ++ [last]) = .ok result) ∧
      ∀ more size result, parse size (tokens.take (k + 1) ++ more) ≠ .ok result := by
  obtain ⟨⟨last, hlast, hend⟩, hvalues⟩ := tokens_of_tokenize htokens
  have hviable := (viable_program tokens.length).run (Nat.le_refl _)
  cases hrun : program tokens with
  | ok n rest =>
    rw [parse, Parser.outcome, hrun] at hparse
    cases hparse
  | error failure rest =>
    have hcursor : (program.outcome source.utf8ByteSize tokens).2 = rest := by
      rw [Parser.outcome, hrun]
    rw [parse, Parser.outcome, hrun] at hparse
    cases hparse
    cases failure with
    | behind loc found problem =>
      rcases hviable.behind hrun with ⟨target, rfl⟩ | ⟨t, ht, hvalue⟩
      · exact absurd rfl (hproblem target)
      · exact absurd hvalue (hvalues t ht)
    | atCursor problem =>
      obtain ⟨front, hsplit, hread, hagain, hcompletes⟩ := hviable.atCursor hrun
      subst hsplit
      -- The end has not been read, so there is a token at the cursor.
      obtain ⟨t, rest, rfl⟩ : ∃ t us, rest = t :: us := by
        refine List.exists_cons_of_ne_nil fun hnil => ?_
        rw [hnil, List.append_nil] at hlast
        exact hread last hlast hend
      have htake : (front ++ t :: rest).take (front.length + 1) = front ++ [t] := by
        rw [List.take_length_add_append, List.take_succ_cons, List.take_zero]
      refine ⟨front.length, t, ?_, by simp, rfl, rfl, ?_, fun more size result => ?_⟩
      · rw [hcursor, List.drop_left]
      · obtain ⟨more, result, hmore, -, hwhole⟩ := hcompletes (.inr rfl)
        refine ⟨more, result, hmore, fun size last hlast => ?_⟩
        rw [List.take_left, parse, Parser.outcome, hwhole [last] ⟨last, rfl, hlast⟩]
      · rw [htake, List.append_assoc, parse, Parser.outcome, List.singleton_append,
          hagain (t :: more) rfl]
        rintro ⟨⟩

/-- A condition that is not closed where it should be. -/
def unclosedSource : String := "if (a ; b)"

/-- The tokens of `unclosedSource`. -/
def unclosedTokens : List Token :=
  [{ kind := .keyword, text := "if", loc := 0 }, { kind := .punctuator, text := "(", loc := 3 },
   { kind := .identifier, text := "a", loc := 4 }, { kind := .punctuator, text := ";", loc := 6 },
   { kind := .identifier, text := "b", loc := 8 }, { kind := .punctuator, text := ")", loc := 9 },
   { kind := .eof, text := "", loc := 10 }]

/-- The semicolon is the first token of `unclosedSource` that cannot be right. -/
theorem unclosedSource_error :
    parse unclosedSource.utf8ByteSize unclosedTokens =
      .error { loc := 6, found := ";", problem := .expected ")" } ∧
    ∃ k t, (program.outcome unclosedSource.utf8ByteSize unclosedTokens).2 = unclosedTokens.drop k ∧
      unclosedTokens[k]? = some t ∧ 6 = t.loc ∧
      ";" = (if t.kind = .eof then "EOF" else t.text) ∧
      (∃ more result, (∀ u ∈ more, u ∈ fillers) ∧ ∀ size last, last.kind = .eof →
        parse size (unclosedTokens.take k ++ more ++ [last]) = .ok result) ∧
      ∀ more size result, parse size (unclosedTokens.take (k + 1) ++ more) ≠ .ok result :=
  ⟨rfl, parse_error_at_first_wrong_token unclosedSource unclosedTokens
    { loc := 6, found := ";", problem := .expected ")" } (by decide +kernel) rfl nofun⟩

end BatchCompiler
