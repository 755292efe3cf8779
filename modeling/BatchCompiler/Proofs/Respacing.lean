/-
# BatchCompiler.Proofs.Respacing -- printed tokens are read again

The tokens of a source can be written down again with any blanks between them, and reading that
gives the same tokens. What makes it true is that a token in front of a blank ends there, whatever
followed it before: a blank goes on with no word and no number, no punctuator has one in it, and so
nothing that begins in the token reaches behind it (`Item.Stands.apart`). Comments do not survive,
which is why a `/` may come to stand in front of a `*` with nothing but a blank between them.
-/

import BatchCompiler.Proofs.Munch

namespace BatchCompiler

/-! ## Words with blanks between them -/

/-- Space, tab, line feed, form feed and carriage return. -/
abbrev blanks : List Char := [' ', '\t', '\n', '\x0c', '\r']

/-- The text has the words in it, in this order, with one or more blanks between each two. -/
inductive Spaced : List String → String → Prop
  | nil : Spaced [] ""
  | single (word : String) : Spaced [word] word
  | cons (word gap : String) {next text : String} {words : List String} : gap ≠ "" →
      (∀ c ∈ gap.toList, c ∈ blanks) → Spaced (next :: words) text →
      Spaced (word :: next :: words) (word ++ gap ++ text)

/-- What follows begins with a blank, or there is nothing. -/
def BlankAhead (rest : List Char) : Prop :=
  ∀ c ∈ rest.head?, c ∈ blanks

theorem BlankAhead.runEnds {p : Char → Bool}
    (hp : blanks.all (!p ·) = true) {rest : List Char}
    (h : BlankAhead rest) : RunEnds p rest := by
  intro c hc
  simpa using List.all_eq_true.1 hp c (h c hc)

/-- A token can stand in front of a blank, whatever it stood in front of before. -/
theorem Item.Stands.apart {item : Item} {after rest : List Char} (h : item.Stands after)
    (htoken : item.isToken = true) (hrest : BlankAhead rest) : item.Stands rest := by
  cases h with
  | blank _ => cases htoken
  | lineComment _ _ => cases htoken
  | blockComment _ => cases htoken
  | word hstart hpart _ => exact .word hstart hpart (hrest.runEnds (by decide))
  | number hne hdigits _ hle => exact .number hne hdigits (hrest.runEnds (by decide)) hle
  | string hbody => exact .string hbody
  | @punctuator p hp hlongest hline hblock =>
    have hfree : ∀ q ∈ punctuators, ∀ c ∈ blanks, c ∉ q.toList := by simp [punctuators, blanks]
    -- What begins in the punctuator and has no blank in it ends in the punctuator.
    have hinside : ∀ {cs : List Char}, (∀ c ∈ blanks, c ∉ cs) → cs <+: p.toList ++ rest →
        cs <+: p.toList ++ after := by
      intro cs hcs hbegins
      have hfront : cs <+: p.toList :=
        prefix_of_head?_not_mem (fun c hc => hcs c (hrest c hc)) hbegins
      exact hfront.trans (List.prefix_append _ _)
    refine .punctuator hp ?_ ?_ ?_
    · intro q hq hbegins
      exact hlongest q hq (hinside (hfree q hq) hbegins)
    · exact fun hbegins => hline (hinside (by simp [blanks]) hbegins)
    · exact fun hbegins => hblock (hinside (by simp [blanks]) hbegins)

/-! ## Cuts with blanks between the tokens -/

theorem Munches.blanks {gap cs rest : List Char} {items : List Item}
    (hgap : ∀ c ∈ gap, c ∈ blanks) (h : Munches cs items rest) :
    Munches (gap ++ cs) (gap.map .blank ++ items) rest := by
  induction gap with
  | nil => exact h
  | cons c gap ih =>
    rw [List.forall_mem_cons] at hgap
    exact .item (.blank hgap.1) (ih hgap.2)

theorem filter_isToken_blanks (gap : List Char) (items : List Item) :
    (gap.map Item.blank ++ items).filter Item.isToken = items.filter Item.isToken := by
  simp [List.filter_append, List.filter_map, Function.comp_def, Item.isToken]

/-- Tokens with blanks between them are cut into these tokens and the blanks. -/
theorem exists_munches_of_spaced {kept : List Item}
    (hkept : ∀ item ∈ kept, item.isToken = true ∧ ∃ after, item.Stands after) {text : String}
    (h : Spaced (kept.map fun item => String.ofList item.text) text) :
    ∃ items, Munches text.toList items [] ∧ items.filter Item.isToken = kept := by
  induction kept generalizing text with
  | nil =>
    cases h with
    | nil => exact ⟨[], .done [], rfl⟩
  | cons item kept ih =>
    obtain ⟨⟨htoken, after, hstands⟩, hothers⟩ := List.forall_mem_cons.1 hkept
    cases kept with
    | nil =>
      cases h with
      | single _ =>
        have hend : BlankAhead [] := fun c hc => absurd hc (Option.not_mem_none c)
        refine ⟨[item], ?_, List.filter_cons_of_pos htoken⟩
        have hlast := Munches.item (hstands.apart htoken hend) (.done [])
        rwa [List.append_nil, ← String.toList_ofList (l := item.text)] at hlast
    | cons next kept =>
      cases h with
      | @cons _ gap _ rest _ hgap hblank hrest =>
        obtain ⟨items, hitems, hfilter⟩ := ih hothers hrest
        have hahead : BlankAhead (gap.toList ++ rest.toList) := by
          cases hchars : gap.toList with
          | nil => exact absurd (String.toList_eq_nil_iff.1 hchars) hgap
          | cons c cs =>
            rintro d ⟨⟩
            exact hblank c (hchars ▸ List.mem_cons_self)
        refine ⟨item :: (gap.toList.map .blank ++ items), ?_, ?_⟩
        · have hfirst := Munches.item (hstands.apart htoken hahead) (hitems.blanks hblank)
          rwa [← List.append_assoc, ← String.toList_ofList (l := item.text), ← String.toList_append,
            ← String.toList_append] at hfirst
        · rw [List.filter_cons_of_pos htoken, filter_isToken_blanks, hfilter]

theorem Munches.stands {cs rest : List Char} {items : List Item} (h : Munches cs items rest) :
    ∀ item ∈ items, ∃ after, item.Stands after := by
  induction h with
  | done rest => exact nofun
  | item hstands _ ih => exact List.forall_mem_cons.2 ⟨⟨_, hstands⟩, ih⟩

/-! ## Tokens wherever they stand -/

/-- The token says what the item is, wherever that stands. -/
def Token.SpellsItem (t : Token) (item : Item) : Prop := ∃ loc, t.Spells (loc, item)

namespace Token.SpellsItem

variable {t u : Token} {item : Item}

theorem text_eq (h : t.SpellsItem item) : t.text = String.ofList item.text := by
  obtain ⟨loc, hspells⟩ := h
  cases hspells <;> rfl

theorem kind_ne_eof (h : t.SpellsItem item) : t.kind ≠ .eof := by
  obtain ⟨loc, hspells⟩ := h
  cases hspells <;> exact nofun

theorem same (ht : t.SpellsItem item) (hu : u.SpellsItem item) : t.Same u := by
  obtain ⟨loc, ht⟩ := ht
  obtain ⟨loc', hu⟩ := hu
  rw [Token.spells_iff] at ht hu
  cases item with
  | blank c => cases ht
  | comment cs => cases ht
  | _ =>
    cases ht
    cases hu
    exact ⟨rfl, rfl, rfl⟩

end Token.SpellsItem

theorem map_snd_placed (loc : Nat) (items : List Item) :
    (Item.placed loc items).map Prod.snd = items := by
  induction items generalizing loc with
  | nil => rfl
  | cons item items ih => simp [Item.placed, ih]

theorem forall₂_spellsItem {front : List Token} {loc : Nat} {items : List Item}
    (h : List.Forall₂ Token.Spells front
      ((Item.placed loc items).filter fun x => x.2.isToken)) :
    List.Forall₂ Token.SpellsItem front (items.filter Item.isToken) := by
  have hmap : ((Item.placed loc items).filter fun x => x.2.isToken).map Prod.snd =
      items.filter Item.isToken := by
    rw [← map_snd_placed loc items, List.filter_map, map_snd_placed]
    rfl
  rw [← hmap, List.forall₂_map_right_iff]
  exact h.imp fun t x hx => ⟨x.1, hx⟩

/-- A token of a source is the end, or an item that stands at its offset in the source. -/
theorem placed_of_mem_tokens {source : String} {tokens : List Token}
    (h : tokenize source = .ok tokens) {t : Token} (ht : t ∈ tokens) :
    t.kind = .eof ∨ ∃ front item after, source.toList = front ++ (item.text ++ after) ∧
      item.Stands after ∧ t.Spells (byteSize front, item) := by
  have hmunched := munched_tokenize source
  rw [h] at hmunched
  cases hmunched with
  | @tokens items front hitems hfront =>
    rw [forall₂_spells_iff] at hfront
    rcases List.mem_append.1 ht with hmem | hmem
    · rw [hfront, List.mem_filterMap] at hmem
      obtain ⟨⟨loc, item⟩, hplaced, htoken⟩ := hmem
      obtain ⟨before, after, rfl, rfl⟩ := exists_append_of_mem_placed hplaced
      have hstands := hitems.stands_between
      rw [List.append_nil] at hstands
      rw [Nat.zero_add] at htoken
      refine .inr ⟨_, item, _, ?_, hstands, Token.spells_iff.2 htoken⟩
      rw [← hitems.append, List.append_nil, List.flatMap_append, List.flatMap_cons]
    · rw [List.mem_singleton.1 hmem]
      exact .inl rfl

theorem texts_of_spellsItem {front : List Token} {kept : List Item}
    (h : List.Forall₂ Token.SpellsItem front kept) :
    front.map Token.text = kept.map fun item => String.ofList item.text := by
  induction h with
  | nil => rfl
  | cons ht _ ih => rw [List.map_cons, List.map_cons, ht.text_eq, ih]

theorem same_of_spellsItem {front front' : List Token} {kept : List Item}
    (h : List.Forall₂ Token.SpellsItem front kept)
    (h' : List.Forall₂ Token.SpellsItem front' kept) : List.Forall₂ Token.Same front front' := by
  induction h generalizing front' with
  | nil =>
    cases h' with
    | nil => exact .nil
  | cons ht _ ih =>
    cases h' with
    | cons hu hrest => exact .cons (ht.same hu) (ih hrest)

theorem filter_kind_of_spellsItem {front : List Token} {kept : List Item}
    (h : List.Forall₂ Token.SpellsItem front kept) {last : Token} (hlast : last.kind = .eof) :
    (front ++ [last]).filter (fun t => t.kind ≠ .eof) = front := by
  induction h with
  | nil => simp [hlast]
  | cons ht _ ih =>
    rw [List.cons_append, List.filter_cons_of_pos (by simpa using ht.kind_ne_eof), ih]

/-- **Printed tokens are read again**: the texts of the tokens of a source, the end left out, with
any blanks between them, are a source with the same tokens. -/
theorem respaced_tokens_same {source : String} {tokens : List Token}
    (h : tokenize source = .ok tokens) {respaced : String}
    (hspaced : Spaced ((tokens.filter fun t => t.kind ≠ .eof).map Token.text) respaced) :
    ∃ tokens', tokenize respaced = .ok tokens' ∧
      List.Forall₂ (fun t t' => t'.kind = t.kind ∧ t'.text = t.text ∧ t'.value = t.value ∧
        Quoted.decode t'.text = Quoted.decode t.text) tokens tokens' := by
  have hmunched := munched_tokenize source
  rw [h] at hmunched
  cases hmunched with
  | @tokens items front hitems hfront =>
    have hspells := forall₂_spellsItem hfront
    have hkept : ∀ item ∈ items.filter Item.isToken,
        item.isToken = true ∧ ∃ after, item.Stands after := by
      intro item hmem
      obtain ⟨hmem, htoken⟩ := List.mem_filter.1 hmem
      exact ⟨htoken, hitems.stands item hmem⟩
    rw [filter_kind_of_spellsItem hspells rfl, texts_of_spellsItem hspells] at hspaced
    obtain ⟨items', hitems', hfilter⟩ := exists_munches_of_spaced hkept hspaced
    have hfront' := forall₂_spells_iff.2 (Eq.refl ((Item.placed 0 items').filterMap _))
    have hspells' := forall₂_spellsItem hfront'
    rw [hfilter] at hspells'
    refine ⟨_, (Munched.tokens hitems' hfront').tokenize_eq, ?_⟩
    refine List.rel_append ?_ (.cons ⟨rfl, rfl, rfl, rfl⟩ .nil)
    refine (same_of_spellsItem hspells hspells').imp fun t t' hsame => ?_
    obtain ⟨hkind, htext, hvalue⟩ := hsame
    exact ⟨hkind, htext, hvalue, congrArg Quoted.decode htext⟩

/-- A source with a comment between `/` and `*`, and with a literal that has the beginning of a
comment, a quote and a line feed in it. Written again, the comment is gone, and other blanks stand
between the tokens. -/
theorem commented_quotient_respaced :
    let literal := "\"/*\\\"\\\né\""
    let source := "x/ /*?*/*2<<" ++ literal
    let respaced := "x" ++ "\t" ++ ("/" ++ "\r\n" ++ ("*" ++ " " ++ ("2" ++ "\x0c" ++
      ("<<" ++ "  " ++ literal))))
    ∃ tokens tokens', tokenize source = .ok tokens ∧
      Spaced ((tokens.filter fun t => t.kind ≠ .eof).map Token.text) respaced ∧
      tokenize respaced = .ok tokens' ∧
      List.Forall₂ (fun t t' => t'.kind = t.kind ∧ t'.text = t.text ∧ t'.value = t.value ∧
        Quoted.decode t'.text = Quoted.decode t.text) tokens tokens' := by
  intro literal source respaced
  have h : tokenize source = .ok ((tokenize source).toOption.getD []) := by decide +kernel
  have htexts :
      (((tokenize source).toOption.getD []).filter fun t => t.kind ≠ .eof).map Token.text =
        ["x", "/", "*", "2", "<<", literal] := by decide +kernel
  have hspaced : Spaced ["x", "/", "*", "2", "<<", literal] respaced := by
    refine .cons _ _ (by decide) (by simp) (.cons _ _ (by decide) (by simp) ?_)
    refine .cons _ _ (by decide) (by simp) (.cons _ _ (by decide) (by simp) ?_)
    exact .cons _ _ (by decide) (by simp) (.single _)
  rw [← htexts] at hspaced
  obtain ⟨tokens', htokens', hsame⟩ := respaced_tokens_same h hspaced
  exact ⟨_, tokens', h, hspaced, htokens', hsame⟩

end BatchCompiler
