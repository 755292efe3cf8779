/-
# BatchCompiler.Proofs.Naming -- the names in a source text are identifiers

A name can come into a tree only from a token of its own, and such a token is a word that is not a
keyword. Neither the grammar nor folding makes up names, so every name in the program of a unit is
an identifier: letters, digits and underscores, of which the first is not a digit.
-/

import BatchCompiler.Compile
import BatchCompiler.Proofs.Likeness
import BatchCompiler.Proofs.Splice

namespace BatchCompiler

/-- The characters spell a word. -/
def isWord : List Char → Bool
  | [] => false
  | c :: cs => isWordStart c && cs.all isWordPart

/-- The text is a word that can be a name. -/
def isIdentifier (text : String) : Bool := isWord text.toList && text ∉ keywords

/-! ## Words -/

theorem isWord_of_scanItem {c : Char} {cs word rest : List Char}
    (h : scanItem c cs = .ok (.word word, rest)) : isWord word = true := by
  unfold scanItem at h
  split at h
  · cases h
  split at h
  · cases h
  split at h
  · split at h <;> cases h
  split at h
  · split at h <;> cases h
  split at h
  next hstart =>
    cases h
    simp [isWord, hstart]
  split at h
  · split at h <;> cases h
  · split at h <;> cases h

/-- Every word among the items of a text is spelled as words are. -/
theorem isWord_of_mem_scan {cs word : List Char} (h : .word word ∈ (scan cs).1) :
    isWord word = true := by
  fun_induction scan cs with
  | case1 => exact absurd h List.not_mem_nil
  | case2 c cs problem hitem => exact absurd h List.not_mem_nil
  | case3 c cs item rest hitem items problem hscan ih =>
    rcases List.mem_cons.1 h with rfl | hrest
    · exact isWord_of_scanItem hitem
    · rw [hscan] at ih
      exact ih hrest

theorem isIdentifier_of_mem_tokensFrom {items : List Item}
    (hwords : ∀ word, .word word ∈ items → isWord word = true) {loc : Nat} {t : Token}
    (ht : t ∈ tokensFrom loc items) (hkind : t.kind = .identifier) : isIdentifier t.text = true := by
  induction items generalizing loc with
  | nil =>
    obtain rfl := List.mem_singleton.1 ht
    cases hkind
  | cons item items ih =>
    rcases List.mem_append.1 ht with hfirst | hrest
    · cases item with
      | word word =>
        obtain rfl := List.mem_singleton.1 hfirst
        have hword := hwords word List.mem_cons_self
        simp only [ite_eq_right_iff, reduceCtorEq, imp_false] at hkind
        simp [isIdentifier, hword, hkind]
      | blank c => exact absurd hfirst List.not_mem_nil
      | comment text => exact absurd hfirst List.not_mem_nil
      | number digits =>
        obtain rfl := List.mem_singleton.1 hfirst
        cases hkind
      | string text =>
        obtain rfl := List.mem_singleton.1 hfirst
        cases hkind
      | punctuator text =>
        obtain rfl := List.mem_singleton.1 hfirst
        cases hkind
    · exact ih (fun word hword => hwords word (List.mem_cons_of_mem _ hword)) hrest

/-- The tokens of a source text that can be names are identifiers. -/
theorem isIdentifier_of_tokenize {source : String} {tokens : List Token}
    (h : tokenize source = .ok tokens) {t : Token} (ht : t ∈ tokens) (hkind : t.kind = .identifier) :
    isIdentifier t.text = true := by
  unfold tokenize at h
  cases hscan : scan source.toList with
  | mk items problem =>
    rw [hscan] at h
    cases problem with
    | some problem => cases h
    | none =>
      cases h
      refine isIdentifier_of_mem_tokensFrom ?_ ht hkind
      intro word hword
      have hmem : .word word ∈ (scan source.toList).1 := by
        rw [hscan]
        exact hword
      exact isWord_of_mem_scan hmem

/-! ## Programs -/

theorem Node.names_foldedSum (l : Nat) (a b : Node) :
    (foldedSum l a b).names = a.names ++ b.names := by
  unfold foldedSum
  split
  · split <;> rfl
  all_goals rfl

theorem Node.names_rewriteRoot (folding : Bool) (n : Node) :
    (rewriteRoot folding n).names = n.names := by
  unfold rewriteRoot
  split
  · exact names_foldedSum _ _ _
  · rfl

/-- The names are kept, whether or not sums are folded. -/
theorem Node.names_optimize (folding : Bool) (n : Node) : (n.optimize folding).names = n.names := by
  have hall : ∀ ns : List Node, (∀ n ∈ ns, (n.optimize folding).names = n.names) →
      namesAll (optimizeAll folding ns) = namesAll ns := by
    intro ns h
    rw [namesAll_eq_flatMap, namesAll_eq_flatMap, optimizeAll_eq_map, List.flatMap_map]
    exact List.flatMap_congr h
  induction n using Node.induction with
  | program l body ih => simp [optimize, names, hall body ih]
  | integer l v => rfl
  | string l v => rfl
  | identifier l x => rfl
  | binary l op a b iha ihb =>
    rw [optimize, names_rewriteRoot, names, names, iha, ihb]
  | and l a b iha ihb => simp [optimize, names, iha, ihb]
  | or l a b iha ihb => simp [optimize, names, iha, ihb]
  | assign l t v iht ihv => simp [optimize, names, iht, ihv]
  | branch l c t e ihc iht ihe => simp [optimize, names, ihc, hall t iht, hall e ihe]
  | ternary l c t e ihc iht ihe => simp [optimize, names, ihc, iht, ihe]
  | loop l c body ihc ih => simp [optimize, names, ihc, hall body ih]
  | function l x ps body ih => simp [optimize, names, hall body ih]
  | call l f args ihf ih => simp [optimize, names, ihf, hall args ih]
  | ret l v ih => simp [optimize, names, ih]
  | step l op leading t ih => simp [optimize, names, ih]
  | array l es ih => simp [optimize, names, hall es ih]
  | index l b i ihb ihi => simp [optimize, names, ihb, ihi]

/-- What tokens can be read as has no other names than they have. -/
theorem fit_of_program {fit : String → Prop} {tokens rest : List Token} {n : Node}
    (hfit : ∀ t ∈ tokens, t.kind = .identifier → fit t.text) (h : program tokens = .ok n rest) :
    ∀ x ∈ n.names, fit x := by
  have hlike : List.Forall₂ (Likeness.named fit).token tokens tokens :=
    List.forall₂_same.2 fun t ht => ⟨rfl, hfit t ht⟩
  have hrun := (alike_rules (Likeness.named_lawful fit) (Nat.le_refl tokens.length)
    (Nat.le_refl tokens.length)).statements tokens tokens hlike (Nat.le_refl _)
  unfold program at h
  obtain ⟨body, mid, hbody, hn⟩ := Parser.bind_eq_ok_iff.1 h
  rw [hbody] at hrun
  cases hn
  exact (Likeness.named_nodes hrun.1).2

/-- Every name in the program of a source text is an identifier. -/
theorem isIdentifier_of_readUnit {folding : Bool} {source : String} {n : Node}
    (h : readUnit folding source = .ok n) : ∀ x ∈ n.names, isIdentifier x = true := by
  unfold readUnit readTokens readProgram at h
  cases htokens : tokenize source with
  | error e =>
    rw [htokens] at h
    cases h
  | ok tokens =>
    rw [htokens] at h
    simp only [Except.mapError, bind, Except.bind, parse, Parser.outcome] at h
    cases hprogram : program tokens with
    | error e rest =>
      rw [hprogram] at h
      cases h
    | ok m rest =>
      rw [hprogram] at h
      cases h
      have hm : ∀ x ∈ m.names, isIdentifier x = true :=
        fit_of_program (fun t ht hkind => isIdentifier_of_tokenize htokens ht hkind) hprogram
      rwa [Node.names_optimize]

end BatchCompiler
