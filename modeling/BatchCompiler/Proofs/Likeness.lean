/-
# BatchCompiler.Proofs.Likeness -- what the grammar makes of tokens that are alike

The grammar looks at the kind, the text and the value of the token at the cursor and at nothing else,
and it builds trees out of tokens in a fixed number of ways. So when two lists of tokens are alike,
in whatever sense leaves kinds, texts and values as they are and is handed on from tokens to trees,
then what is read from them is alike too (`alike_rules`). A likeness may forget where tokens stand;
it may also be equality together with a fact about tokens, and then says that the fact holds of
whatever is read.

The two sides may be read by rules that were tied for texts of different length. With equality as the
likeness, this says that any length will do that is great enough, and gives the rules without a bound
(`grammar`) that call themselves (`grammar_next`). On the way each rule is seen to advance.
-/

import Mathlib.Data.List.Forall2
import BatchCompiler.Proofs.Cursor

namespace BatchCompiler

/-! ## Likenesses -/

/-- What it is for places, tokens and trees on two sides to be alike, and for a name to be fit. -/
structure Likeness where
  loc : Nat → Nat → Prop
  token : Token → Token → Prop
  node : Node → Node → Prop
  name : String → Prop

namespace Likeness

/-- The failures are alike: they say the same of places that are alike. -/
def failure (K : Likeness) : ParseFailure → ParseFailure → Prop
  | .atCursor problem, .atCursor problem' => problem = problem'
  | .behind loc found problem, .behind loc' found' problem' =>
    K.loc loc loc' ∧ found = found' ∧ problem = problem'
  | _, _ => False

/-- The same name on both sides, which is fit. -/
def sameName (K : Likeness) (x y : String) : Prop := x = y ∧ K.name x

/-- The same names on both sides, all of which are fit. -/
def sameNames (K : Likeness) (xs ys : List String) : Prop := xs = ys ∧ ∀ x ∈ xs, K.name x

/-- The likeness leaves what the grammar looks at as it is and is handed on from tokens to trees. -/
structure Lawful (K : Likeness) : Prop where
  kind {t u : Token} : K.token t u → u.kind = t.kind
  text {t u : Token} : K.token t u → u.text = t.text
  value {t u : Token} : K.token t u → u.value = t.value
  loc_token {t u : Token} : K.token t u → K.loc t.loc u.loc
  loc_node {m n : Node} : K.node m n → K.loc m.loc n.loc
  construct {m n : Node} : K.node m n → n.construct = m.construct
  name {t u : Token} : K.token t u → t.kind = .identifier → K.name t.text
  identifier {t u : Token} : K.token t u → t.kind = .identifier →
    K.node (.identifier t.loc t.text) (.identifier u.loc t.text)
  string {t u : Token} : K.token t u → t.kind = .string →
    K.node (.string t.loc (Quoted.decode t.text)) (.string u.loc (Quoted.decode t.text))
  number {t u : Token} {v : Int} : K.token t u → t.kind = .number → t.value = some v →
    K.node (.integer t.loc v) (.integer u.loc v)
  constant {t u : Token} {v : Int} : K.token t u → v = 1 ∨ v = 0 →
    K.node (.integer t.loc v) (.integer u.loc v)
  negate {t u : Token} {m n : Node} : K.token t u → K.node m n →
    K.node (m.negate t.loc) (n.negate u.loc)
  join {t u : Token} {a a' b b' : Node} (c : Connective) : K.token t u → K.node a a' →
    K.node b b' → K.node (c.join t.loc a b) (c.join u.loc a' b')
  assign {t u : Token} {a a' b b' : Node} : K.token t u → a.isAssignable = true → K.node a a' →
    K.node b b' → K.node (.assign t.loc a b) (.assign u.loc a' b')
  branch {t u : Token} {c c' : Node} {xs xs' ys ys' : List Node} : K.token t u → K.node c c' →
    List.Forall₂ K.node xs xs' → List.Forall₂ K.node ys ys' →
    K.node (.branch t.loc c xs ys) (.branch u.loc c' xs' ys')
  ternary {t u : Token} {c c' a a' b b' : Node} : K.token t u → K.node c c' → K.node a a' →
    K.node b b' → K.node (.ternary t.loc c a b) (.ternary u.loc c' a' b')
  loop {t u : Token} {c c' : Node} {xs xs' : List Node} : K.token t u → K.node c c' →
    List.Forall₂ K.node xs xs' → K.node (.loop t.loc c xs) (.loop u.loc c' xs')
  function {t u : Token} {x : Option String} {ps : List String} {xs xs' : List Node} :
    K.token t u → (∀ y ∈ x, K.name y) → (∀ p ∈ ps, K.name p) → List.Forall₂ K.node xs xs' →
    K.node (.function t.loc x ps xs) (.function u.loc x ps xs')
  call {t u : Token} {f f' : Node} {xs xs' : List Node} : K.token t u → K.node f f' →
    List.Forall₂ K.node xs xs' → K.node (.call t.loc f xs) (.call u.loc f' xs')
  ret {t u : Token} {a a' : Node} : K.token t u → K.node a a' →
    K.node (.ret t.loc a) (.ret u.loc a')
  step {t u : Token} {a a' : Node} (op : StepOp) (leading : Bool) : K.token t u → K.node a a' →
    K.node (.step t.loc op leading a) (.step u.loc op leading a')
  array {t u : Token} {xs xs' : List Node} : K.token t u → List.Forall₂ K.node xs xs' →
    K.node (.array t.loc xs) (.array u.loc xs')
  index {t u : Token} {a a' b b' : Node} : K.token t u → K.node a a' → K.node b b' →
    K.node (.index t.loc a b) (.index u.loc a' b')

end Likeness

/-! ## Parsers that are alike -/

/-- On tokens that are alike, at most `n` of them, both parsers succeed or both fail. What they read is
alike as `R` says, and at least `d` tokens have been read. -/
def Alike {α β : Type} (K : Likeness) (n d : Nat) (R : α → β → Prop) (p : Parser α)
    (q : Parser β) : Prop :=
  ∀ ts us, List.Forall₂ K.token ts us → ts.length ≤ n → match p ts, q us with
    | .ok a rest, .ok b rest' =>
      R a b ∧ List.Forall₂ K.token rest rest' ∧ rest <:+ ts ∧ rest.length + d ≤ ts.length
    | .error e rest, .error e' rest' =>
      K.failure e e' ∧ List.Forall₂ K.token rest rest' ∧ rest <:+ ts
    | _, _ => False

namespace Alike

open BatchCompiler.Parser

variable {α β γ δ : Type} {K : Likeness} {n d e : Nat} {R : α → β → Prop} {S : γ → δ → Prop}
  {p : Parser α} {q : Parser β} {f : α → Parser γ} {g : β → Parser δ}

/-- Fewer tokens, and less said about the result. -/
theorem mono (h : Alike K n d R p q) {n' d' : Nat} (hn : n' ≤ n) (hd : d' ≤ d) :
    Alike K n' d' R p q := by
  intro ts us htu hlen
  have hrun := h ts us htu (Nat.le_trans hlen hn)
  cases hp : p ts with
  | ok a rest =>
    cases hq : q us with
    | ok b rest' =>
      rw [hp, hq] at hrun
      obtain ⟨hR, hrest, hsuffix, hle⟩ := hrun
      exact ⟨hR, hrest, hsuffix, by omega⟩
    | error e' rest' =>
      rw [hp, hq] at hrun
      exact hrun
  | error e rest =>
    cases hq : q us with
    | ok b rest' =>
      rw [hp, hq] at hrun
      exact hrun
    | error e' rest' =>
      rw [hp, hq] at hrun
      exact hrun

/-- What the second parser has left to read is shorter by what the first has read. -/
theorem bind (hp : Alike K n d R p q)
    (hf : ∀ a b, R a b → Alike K (n - d) e S (f a) (g b)) :
    Alike K n (d + e) S (p >>= f) (q >>= g) := by
  intro ts us htu hlen
  have hfirst := hp ts us htu hlen
  rw [bind_apply, bind_apply]
  cases hpt : p ts with
  | ok a mid =>
    cases hqt : q us with
    | ok b mid' =>
      rw [hpt, hqt] at hfirst
      obtain ⟨hR, hmid, hsuffix, hle⟩ := hfirst
      have hsecond := hf a b hR mid mid' hmid (by omega)
      dsimp only
      cases hfm : f a mid with
      | ok c rest =>
        cases hgm : g b mid' with
        | ok c' rest' =>
          rw [hfm, hgm] at hsecond
          obtain ⟨hS, hrest, hsuffix', hle'⟩ := hsecond
          exact ⟨hS, hrest, hsuffix'.trans hsuffix, by omega⟩
        | error e' rest' =>
          rw [hfm, hgm] at hsecond
          exact hsecond
      | error e rest =>
        cases hgm : g b mid' with
        | ok c' rest' =>
          rw [hfm, hgm] at hsecond
          exact hsecond
        | error e' rest' =>
          rw [hfm, hgm] at hsecond
          obtain ⟨hfail, hrest, hsuffix'⟩ := hsecond
          exact ⟨hfail, hrest, hsuffix'.trans hsuffix⟩
    | error e' mid' =>
      rw [hpt, hqt] at hfirst
      exact hfirst.elim
  | error e mid =>
    cases hqt : q us with
    | ok b mid' =>
      rw [hpt, hqt] at hfirst
      exact hfirst.elim
    | error e' mid' =>
      rw [hpt, hqt] at hfirst
      exact hfirst

/-- A parser that reads a token, and then another one that may read none. -/
theorem andThen (hp : Alike K n 1 R p q)
    (hf : ∀ a b, R a b → Alike K (n - 1) 0 S (f a) (g b)) : Alike K n 1 S (p >>= f) (q >>= g) :=
  bind hp hf

/-- Two parsers of which nothing has to be read. -/
theorem seq (hp : Alike K n d R p q) (hf : ∀ a b, R a b → Alike K n 0 S (f a) (g b)) :
    Alike K n 0 S (p >>= f) (q >>= g) :=
  bind (hp.mono (Nat.le_refl n) (Nat.zero_le d)) hf

theorem pure {a : α} {b : β} (h : R a b) : Alike K n 0 R (Pure.pure a) (Pure.pure b) :=
  fun _ _ htu _ => ⟨h, htu, List.suffix_rfl, Nat.le_refl _⟩

theorem fail {e e' : ParseFailure} (h : K.failure e e') :
    Alike K n d R (throw e) (throw e') :=
  fun _ _ htu _ => ⟨h, htu, List.suffix_rfl⟩

/-- Parsers that give results that are alike when no token is left. -/
theorem of_ok_nil {a : α} {b : β} (hp : p [] = .ok a []) (hq : q [] = .ok b []) (h : R a b) :
    Alike K 0 0 R p q := by
  intro ts us htu hlen
  obtain rfl := List.length_eq_zero_iff.1 (Nat.le_zero.1 hlen)
  cases htu
  rw [hp, hq]
  exact ⟨h, .nil, List.suffix_rfl, Nat.le_refl _⟩

/-- Parsers that fail alike when no token is left. -/
theorem of_error_nil {e e' : ParseFailure} (hp : p [] = .error e []) (hq : q [] = .error e' [])
    (h : K.failure e e') : Alike K 0 d R p q := by
  intro ts us htu hlen
  obtain rfl := List.length_eq_zero_iff.1 (Nat.le_zero.1 hlen)
  cases htu
  rw [hp, hq]
  exact ⟨h, .nil, List.suffix_rfl⟩

theorem reject (problem : ParseProblem) :
    Alike K n d R (Parser.reject problem) (Parser.reject problem) :=
  fail rfl

/-! ## Primitive parsers -/

theorem isSymbol (hK : K.Lawful) {t u : Token} (h : K.token t u) (text : String) :
    u.isSymbol text = t.isSymbol text := by
  simp only [Token.isSymbol, hK.kind h, hK.text h]

/-- A symbol is at the cursor on both sides, or on neither. -/
theorem accept? (hK : K.Lawful) {text : String} {f : Option Token → Parser γ}
    {g : Option Token → Parser δ} (hnone : Alike K n d S (f none) (g none))
    (hsome : ∀ t u, K.token t u → Alike K (n - 1) (d - 1) S (f (some t)) (g (some u))) :
    Alike K n d S (Parser.accept? text >>= f) (Parser.accept? text >>= g) := by
  intro ts us htu hlen
  cases htu with
  | nil =>
    have hnil : Parser.accept? text [] = .ok none [] := rfl
    rw [bind_of_ok hnil, bind_of_ok hnil]
    exact hnone [] [] .nil (by simp)
  | @cons t u ts us htoken hrest =>
    cases ht : t.isSymbol text with
    | true =>
      have hu : u.isSymbol text = true := (isSymbol hK htoken text).trans ht
      rw [bind_of_ok (accept?_of_symbol ht ts), bind_of_ok (accept?_of_symbol hu us)]
      have hrun := hsome t u htoken ts us hrest (by simp at hlen; omega)
      revert hrun
      cases f (some t) ts <;> cases g (some u) us
      · rintro ⟨hS, hrest', hsuffix, hle⟩
        exact ⟨hS, hrest', hsuffix.trans (List.suffix_cons _ _), by simp; omega⟩
      · exact id
      · exact id
      · rintro ⟨hfail, hrest', hsuffix⟩
        exact ⟨hfail, hrest', hsuffix.trans (List.suffix_cons _ _)⟩
    | false =>
      have hu : u.isSymbol text = false := (isSymbol hK htoken text).trans ht
      rw [bind_of_ok (accept?_of_not_symbol (forall_head?_cons ht ts)),
        bind_of_ok (accept?_of_not_symbol (forall_head?_cons hu us))]
      exact hnone _ _ (.cons htoken hrest) hlen

theorem accept (hK : K.Lawful) {text : String} {f : Bool → Parser γ} {g : Bool → Parser δ}
    (hfalse : Alike K n d S (f false) (g false))
    (htrue : Alike K (n - 1) (d - 1) S (f true) (g true)) :
    Alike K n d S (Parser.accept text >>= f) (Parser.accept text >>= g) := by
  unfold Parser.accept
  simp only [bind_assoc, pure_bind]
  exact accept? hK hfalse fun _ _ _ => htrue

/-- The symbol may be there or not, and it makes no difference. -/
theorem skip (hK : K.Lawful) {text : String} {p : Parser γ} {q : Parser δ}
    (h : Alike K n 0 S p q) :
    Alike K n 0 S (Parser.accept text >>= fun _ => p) (Parser.accept text >>= fun _ => q) :=
  accept hK h (h.mono (Nat.sub_le n 1) (Nat.le_refl 0))

/-- A symbol of the table is at the cursor on both sides, the same one, or on neither. -/
theorem acceptAny? {ε : Type} (hK : K.Lawful) {table : List (String × ε)}
    {f : Option (Token × ε) → Parser γ} {g : Option (Token × ε) → Parser δ}
    (hnone : Alike K n d S (f none) (g none))
    (hsome : ∀ t u a, K.token t u → a ∈ table.map Prod.snd →
      Alike K (n - 1) (d - 1) S (f (some (t, a))) (g (some (u, a)))) :
    Alike K n d S (Parser.acceptAny? table >>= f) (Parser.acceptAny? table >>= g) := by
  induction table with
  | nil =>
    unfold Parser.acceptAny?
    simpa only [pure_bind] using hnone
  | cons entry table ih =>
    obtain ⟨text, a⟩ := entry
    unfold Parser.acceptAny?
    simp only [bind_assoc]
    refine accept? hK ?_ ?_
    · refine ih fun t u b htoken hb => hsome t u b htoken ?_
      exact List.mem_cons_of_mem _ hb
    · intro t u htoken
      simpa only [pure_bind] using hsome t u a htoken List.mem_cons_self

theorem require (hK : K.Lawful) (text : String) :
    Alike K n 1 (fun _ _ => True) (Parser.require text) (Parser.require text) := by
  unfold Parser.require
  refine accept hK ?_ ?_
  · exact reject _
  · exact Alike.pure trivial

theorem atEnd (hK : K.Lawful) : Alike K n 0 Eq Parser.atEnd Parser.atEnd := by
  intro ts us htu _
  refine ⟨?_, htu, List.suffix_rfl, Nat.le_refl _⟩
  cases htu with
  | nil => rfl
  | cons htoken _ => simp [Token.isEnd, hK.kind htoken]

theorem expect (hK : K.Lawful) (kinds : List TokenKind) :
    Alike K n 1 (fun t u => K.token t u ∧ t.kind ∈ kinds) (Parser.expect kinds)
      (Parser.expect kinds) := by
  intro ts us htu _
  cases htu with
  | nil => exact ⟨rfl, .nil, List.suffix_rfl⟩
  | @cons t u ts us htoken hrest =>
    by_cases ht : t.kind ∈ kinds
    · have hu : u.kind ∈ kinds := hK.kind htoken ▸ ht
      rw [expect_of_mem ht, expect_of_mem hu]
      exact ⟨⟨htoken, ht⟩, hrest, List.suffix_cons _ _, by simp⟩
    · have hu : u.kind ∉ kinds := hK.kind htoken ▸ ht
      rw [expect_of_not_mem (forall_head?_cons ht ts), expect_of_not_mem (forall_head?_cons hu us)]
      exact ⟨rfl, .cons htoken hrest, List.suffix_rfl⟩

theorem identifier (hK : K.Lawful) :
    Alike K n 1 K.sameName Parser.identifier Parser.identifier := by
  refine andThen (expect hK _) fun t u htu => ?_
  obtain ⟨htoken, hkind⟩ := htu
  exact Alike.pure ⟨(hK.text htoken).symm, hK.name htoken (List.mem_singleton.1 hkind)⟩

theorem identifier? (hK : K.Lawful) :
    Alike K n 0 (fun x y => x = y ∧ ∀ z ∈ x, K.name z) Parser.identifier? Parser.identifier? := by
  intro ts us htu _
  have hnone : ∀ z ∈ (none : Option String), K.name z := fun z hz => by cases hz
  cases htu with
  | nil => exact ⟨⟨rfl, hnone⟩, .nil, List.suffix_rfl, Nat.le_refl _⟩
  | @cons t u ts us htoken hrest =>
    by_cases ht : t.kind = .identifier
    · have hu : u.kind = .identifier := (hK.kind htoken).trans ht
      rw [identifier?_of_kind ht, identifier?_of_kind hu, hK.text htoken]
      refine ⟨⟨rfl, ?_⟩, hrest, List.suffix_cons _ _, by simp⟩
      rintro z ⟨⟩
      exact hK.name htoken ht
    · have hu : u.kind ≠ .identifier := hK.kind htoken ▸ ht
      rw [identifier?_of_not_kind (forall_head?_cons ht ts),
        identifier?_of_not_kind (forall_head?_cons hu us)]
      exact ⟨⟨rfl, hnone⟩, .cons htoken hrest, List.suffix_rfl, Nat.le_refl _⟩

end Alike

/-! ## Rules that are alike -/

/-- The rules that may be called are alike on at most `n` tokens. -/
structure Rules.Alike (K : Likeness) (n : Nat) (r r' : Rules) : Prop where
  expression : BatchCompiler.Alike K n 1 K.node r.expression r'.expression
  ternary : BatchCompiler.Alike K n 1 K.node r.ternary r'.ternary
  operators (ts : List Tier) :
    BatchCompiler.Alike K n 1 K.node (r.operators ts) (r'.operators ts)
  signed : BatchCompiler.Alike K n 1 K.node r.signed r'.signed
  suffixed {m m' : Node} : K.node m m' →
    BatchCompiler.Alike K n 0 K.node (r.suffixed m) (r'.suffixed m')
  items (close : String) :
    BatchCompiler.Alike K n 1 (List.Forall₂ K.node) (r.items close) (r'.items close)
  names : BatchCompiler.Alike K n 1 K.sameNames r.names r'.names
  block : BatchCompiler.Alike K n 1 (List.Forall₂ K.node) r.block r'.block
  statements : BatchCompiler.Alike K n 0 (List.Forall₂ K.node) r.statements r'.statements

namespace Rules.Alike

open BatchCompiler.Alike

variable {K : Likeness} {n : Nat} {r r' : Rules} {t u : Token}

theorem sameNames_cons {x y : String} {xs ys : List String} (hx : K.sameName x y)
    (hxs : K.sameNames xs ys) : K.sameNames (x :: xs) (y :: ys) := by
  obtain ⟨rfl, hname⟩ := hx
  obtain ⟨rfl, hnames⟩ := hxs
  refine ⟨rfl, ?_⟩
  intro z hz
  rcases List.mem_cons.1 hz with rfl | hz
  · exact hname
  · exact hnames z hz

/-! ### What is called behind a token -/

theorem list (hK : K.Lawful) (h : r.Alike K n r') (close : String) :
    BatchCompiler.Alike K n 1 (List.Forall₂ K.node) (r.list close) (r'.list close) :=
  accept hK (h.items close) (.pure .nil)

theorem params (hK : K.Lawful) (h : r.Alike K n r') :
    BatchCompiler.Alike K n 1 K.sameNames r.params r'.params := by
  refine accept hK h.names (.pure ⟨rfl, ?_⟩)
  intro x hx
  exact absurd hx List.not_mem_nil

theorem condition (hK : K.Lawful) (h : r.Alike K n r') :
    BatchCompiler.Alike K n 1 K.node r.condition r'.condition := by
  refine andThen (require hK _) fun _ _ _ => ?_
  refine .mono (n := n) ?_ (Nat.sub_le n 1) (Nat.le_refl 0)
  refine seq h.expression fun c c' hc => ?_
  exact seq (require hK _) fun _ _ _ => .pure hc

theorem body (hK : K.Lawful) (h : r.Alike K n r') :
    BatchCompiler.Alike K n 1 (List.Forall₂ K.node) r.body r'.body := by
  refine accept hK ?_ (h.block.mono (Nat.sub_le n 1) (Nat.zero_le _))
  refine andThen h.expression fun m m' hm => ?_
  exact skip hK (.pure (.cons hm .nil))

theorem function (hK : K.Lawful) (h : r.Alike K n r') (htu : K.token t u) :
    BatchCompiler.Alike K n 1 K.node (r.function t.loc) (r'.function u.loc) := by
  refine Alike.bind (d := 0) (e := 1) (identifier? hK) fun x y hxy => ?_
  obtain ⟨rfl, hx⟩ := hxy
  refine andThen (require hK _) fun _ _ _ => ?_
  refine .mono (n := n) ?_ (Nat.sub_le n 1) (Nat.le_refl 0)
  refine seq (h.params hK) fun ps ps' hnames => ?_
  obtain ⟨rfl, hps⟩ := hnames
  refine seq (require hK _) fun _ _ _ => ?_
  exact seq h.block fun b b' hb => .pure (hK.function htu hx hps hb)

theorem branch (hK : K.Lawful) (h : r.Alike K n r') (htu : K.token t u) :
    BatchCompiler.Alike K n 1 K.node (r.branch t.loc) (r'.branch u.loc) := by
  refine andThen (h.condition hK) fun c c' hc => ?_
  refine .mono (n := n) ?_ (Nat.sub_le n 1) (Nat.le_refl 0)
  refine seq (h.body hK) fun b b' hb => ?_
  have hrest : ∀ xs ys, List.Forall₂ K.node xs ys → BatchCompiler.Alike K n 0 K.node
      (Pure.pure (.branch t.loc c b xs)) (Pure.pure (.branch u.loc c' b' ys)) :=
    fun xs ys hxy => .pure (hK.branch htu hc hb hxy)
  -- Without a second body, there is nothing to read for it.
  refine accept hK ?_ (.mono ?_ (Nat.sub_le n 1) (Nat.le_refl 0))
  · exact seq (.pure .nil) hrest
  · exact seq (h.body hK) hrest

theorem loop (hK : K.Lawful) (h : r.Alike K n r') (htu : K.token t u) :
    BatchCompiler.Alike K n 1 K.node (r.loop t.loc) (r'.loop u.loc) := by
  refine andThen (h.condition hK) fun c c' hc => ?_
  refine .mono (n := n) ?_ (Nat.sub_le n 1) (Nat.le_refl 0)
  exact seq (h.body hK) fun b b' hb => .pure (hK.loop htu hc hb)

/-! ### What may be called on all the tokens -/

theorem atom (hK : K.Lawful) : BatchCompiler.Alike K n 1 K.node Rules.atom Rules.atom := by
  refine andThen (expect hK _) fun t u htu => ?_
  obtain ⟨htoken, hkind⟩ := htu
  rw [hK.kind htoken, hK.value htoken, hK.text htoken]
  simp only [List.mem_cons, List.not_mem_nil, or_false] at hkind
  rcases hkind with hk | hk | hk
  · rw [hk]
    exact .pure (hK.identifier htoken hk)
  · rw [hk]
    cases hv : t.value with
    | some v => exact .pure (hK.number htoken hk hv)
    | none => exact .fail ⟨hK.loc_token htoken, rfl, rfl⟩
  · rw [hk]
    exact .pure (hK.string htoken hk)

theorem operand (hK : K.Lawful) (h : r.Alike K n r') :
    BatchCompiler.Alike K (n + 1) 1 K.node r.operand r'.operand := by
  refine acceptAny? hK (atom hK) fun t u a htu ha => ?_
  cases a with
  | group =>
    refine seq h.expression fun m m' hm => ?_
    exact seq (require hK _) fun _ _ _ => .pure hm
  | array => exact seq (h.list hK _) fun xs ys hxy => .pure (hK.array htu hxy)
  | constant v =>
    refine .pure (hK.constant htu ?_)
    simpa [openers] using ha
  | function => exact (h.function hK htu).mono (Nat.le_refl n) (Nat.zero_le 1)
  | branch => exact (h.branch hK htu).mono (Nat.le_refl n) (Nat.zero_le 1)
  | loop => exact (h.loop hK htu).mono (Nat.le_refl n) (Nat.zero_le 1)
  | ret => exact seq h.expression fun m m' hm => .pure (hK.ret htu hm)

theorem suffix (hK : K.Lawful) (h : r.Alike K n r') {m m' : Node} (hm : K.node m m') :
    BatchCompiler.Alike K (n + 1) 0 K.node (r.suffix m) (r'.suffix m') := by
  refine acceptAny? hK (.pure hm) fun t u a htu _ => ?_
  cases a with
  | call => exact seq (h.list hK _) fun xs ys hxy => h.suffixed (hK.call htu hm hxy)
  | index =>
    refine seq h.expression fun i i' hi => ?_
    exact seq (require hK _) fun _ _ _ => h.suffixed (hK.index htu hm hi)
  | step op => exact h.suffixed (hK.step op false htu hm)

theorem sign (hK : K.Lawful) (h : r.Alike K n r') :
    BatchCompiler.Alike K (n + 1) 1 K.node r.sign r'.sign := by
  refine acceptAny? hK ?_ fun t u a htu _ => ?_
  · exact andThen (h.operand hK) fun m m' hm => h.suffixed hm
  · cases a with
    | step op => exact seq h.signed fun m m' hm => .pure (hK.step op true htu hm)
    | plus => exact h.signed.mono (Nat.le_refl n) (Nat.zero_le 1)
    | minus => exact seq h.signed fun m m' hm => .pure (hK.negate htu hm)

theorem tier (hK : K.Lawful) (h : r.Alike K n r') (ts : List Tier) :
    BatchCompiler.Alike K (n + 1) 1 K.node (r.tier ts) (r'.tier ts) := by
  induction ts with
  | nil => exact h.sign hK
  | cons tier tighter ih =>
    refine andThen ih fun a a' ha => ?_
    refine acceptAny? hK (.pure ha) fun t u c htu _ => ?_
    refine .mono (n := n) ?_ (Nat.sub_le n 1) (Nat.le_refl 0)
    exact seq (h.operators (tier :: tighter)) fun b b' hb => .pure (hK.join c htu ha hb)

theorem choice (hK : K.Lawful) (h : r.Alike K n r') :
    BatchCompiler.Alike K (n + 1) 1 K.node r.choice r'.choice := by
  refine andThen (h.tier hK tiers) fun c c' hc => ?_
  refine accept? hK (.pure hc) fun t u htu => ?_
  refine .mono (n := n) ?_ (Nat.sub_le n 1) (Nat.le_refl 0)
  refine seq h.expression fun a a' ha => ?_
  refine seq (require hK _) fun _ _ _ => ?_
  exact seq h.ternary fun b b' hb => .pure (hK.ternary htu hc ha hb)

theorem assignment (hK : K.Lawful) (h : r.Alike K n r') :
    BatchCompiler.Alike K (n + 1) 1 K.node r.assignment r'.assignment := by
  refine andThen (h.choice hK) fun m m' hm => ?_
  refine accept? hK (.pure hm) fun t u htu => ?_
  refine .mono (n := n) ?_ (Nat.sub_le n 1) (Nat.le_refl 0)
  have hconstruct := hK.construct hm
  have hsame : m'.isAssignable = m.isAssignable := by simp [Node.isAssignable, hconstruct]
  dsimp only
  rw [hsame, hconstruct]
  split
  next hassignable =>
    exact seq h.expression fun v v' hv => .pure (hK.assign htu hassignable hm hv)
  next => exact .fail ⟨hK.loc_node hm, rfl, rfl⟩

theorem statement (hK : K.Lawful) (h : r.Alike K n r') :
    BatchCompiler.Alike K (n + 1) 1 K.node r.statement r'.statement :=
  andThen (h.assignment hK) fun _ _ hm => skip hK (.pure hm)

theorem next_items (hK : K.Lawful) (h : r.Alike K n r') (close : String) :
    BatchCompiler.Alike K (n + 1) 1 (List.Forall₂ K.node) (r.next.items close)
      (r'.next.items close) := by
  refine andThen (h.assignment hK) fun m m' hm => ?_
  refine accept hK ?_ (.pure (.cons hm .nil))
  refine seq (require hK _) fun _ _ _ => ?_
  exact seq (h.items close) fun xs ys hxy => .pure (.cons hm hxy)

theorem next_names (hK : K.Lawful) (h : r.Alike K n r') :
    BatchCompiler.Alike K (n + 1) 1 K.sameNames r.next.names r'.next.names := by
  have hnil : K.sameNames [] [] := ⟨rfl, fun x hx => absurd hx List.not_mem_nil⟩
  refine andThen (identifier hK) fun x y hx => ?_
  refine accept hK ?_ (.pure (sameNames_cons hx hnil))
  refine seq (require hK _) fun _ _ _ => ?_
  exact seq h.names fun xs ys hxy => .pure (sameNames_cons hx hxy)

theorem next_block (hK : K.Lawful) (h : r.Alike K n r') :
    BatchCompiler.Alike K (n + 1) 1 (List.Forall₂ K.node) r.next.block r'.next.block := by
  refine accept hK ?_ (.pure .nil)
  refine accept hK ?_ (h.block.mono (Nat.le_refl n) (Nat.zero_le 1))
  refine Alike.bind (d := 0) (e := 1) (atEnd hK) fun b b' hb => ?_
  subst hb
  cases b with
  | true => exact fail rfl
  | false =>
    refine andThen (h.statement hK) fun m m' hm => ?_
    exact seq h.block fun xs ys hxy => .pure (.cons hm hxy)

theorem next_statements (hK : K.Lawful) (h : r.Alike K n r') :
    BatchCompiler.Alike K (n + 1) 0 (List.Forall₂ K.node) r.next.statements
      r'.next.statements := by
  refine seq (atEnd hK) fun b b' hb => ?_
  subst hb
  cases b with
  | true => exact .pure .nil
  | false =>
    refine accept hK ?_ h.statements
    refine .mono (andThen (h.statement hK) fun m m' hm => ?_) (Nat.le_refl _) (Nat.zero_le 1)
    exact seq h.statements fun xs ys hxy => .pure (.cons hm hxy)

/-- What is alike behind a token makes all the rules alike. -/
theorem next (hK : K.Lawful) (h : r.Alike K n r') : r.next.Alike K (n + 1) r'.next where
  expression := h.assignment hK
  ternary := h.choice hK
  operators := h.tier hK
  signed := h.sign hK
  suffixed := h.suffix hK
  items := next_items hK h
  names := next_names hK h
  block := next_block hK h
  statements := next_statements hK h

end Rules.Alike

/-! ### When no token is left -/

/-- When no token is left, the rules answer as those do that were tied for no token. -/
structure Rules.Exhausts (r : Rules) : Prop where
  expression : r.expression [] = exhausted.expression []
  ternary : r.ternary [] = exhausted.ternary []
  operators (ts : List Tier) : r.operators ts [] = (exhausted.operators ts) []
  signed : r.signed [] = exhausted.signed []
  suffixed (m : Node) : r.suffixed m [] = (exhausted.suffixed m) []
  items (close : String) : r.items close [] = (exhausted.items close) []
  names : r.names [] = exhausted.names []
  block : r.block [] = exhausted.block []
  statements : r.statements [] = exhausted.statements []

theorem Rules.exhausts_next (r : Rules) : r.next.Exhausts where
  expression := rfl
  ternary := rfl
  operators ts := by
    show r.tier ts [] = _
    induction ts with
    | nil => rfl
    | cons t ts ih =>
      show (r.tier ts >>= _) [] = _
      rw [Parser.bind_apply, ih]
      rfl
  signed := rfl
  suffixed _ := rfl
  items _ := rfl
  names := rfl
  block := rfl
  statements := rfl

theorem exhausts_rules (n : Nat) : (rules n).Exhausts := by
  cases n with
  | zero => constructor <;> intros <;> rfl
  | succ n => exact (rules n).exhausts_next

theorem Rules.Exhausts.alike {K : Likeness} {r r' : Rules} (h : r.Exhausts) (h' : r'.Exhausts) :
    r.Alike K 0 r' where
  expression := .of_error_nil h.expression h'.expression rfl
  ternary := .of_error_nil h.ternary h'.ternary rfl
  operators ts := .of_error_nil (h.operators ts) (h'.operators ts) rfl
  signed := .of_error_nil h.signed h'.signed rfl
  suffixed hm := .of_ok_nil (h.suffixed _) (h'.suffixed _) hm
  items close := .of_error_nil (h.items close) (h'.items close) rfl
  names := .of_error_nil h.names h'.names rfl
  block := .of_error_nil h.block h'.block rfl
  statements := .of_ok_nil h.statements h'.statements .nil

/-- What is read from tokens that are alike is alike, if the rules were tied for that many. -/
theorem alike_rules {K : Likeness} (hK : K.Lawful) {n m m' : Nat} (hm : n ≤ m) (hm' : n ≤ m') :
    (rules m).Alike K n (rules m') := by
  induction n generalizing m m' with
  | zero => exact (exhausts_rules m).alike (exhausts_rules m')
  | succ n ih =>
    obtain ⟨m, rfl⟩ := Nat.exists_eq_succ_of_ne_zero (Nat.ne_of_gt (Nat.lt_of_lt_of_le n.succ_pos hm))
    obtain ⟨m', rfl⟩ := Nat.exists_eq_succ_of_ne_zero (Nat.ne_of_gt (Nat.lt_of_lt_of_le n.succ_pos hm'))
    exact (ih (Nat.le_of_succ_le_succ hm) (Nat.le_of_succ_le_succ hm')).next hK

/-! ## Names -/

namespace Node

mutual

/-- The names that the program spells: those it reads or assigns, and those of functions and their
parameters. -/
def names : Node → List String
  | program _ body => namesAll body
  | integer _ _ => []
  | string _ _ => []
  | identifier _ x => [x]
  | binary _ _ a b => names a ++ names b
  | and _ a b => names a ++ names b
  | or _ a b => names a ++ names b
  | assign _ t v => names t ++ names v
  | branch _ c t e => names c ++ namesAll t ++ namesAll e
  | ternary _ c t e => names c ++ names t ++ names e
  | loop _ c body => names c ++ namesAll body
  | function _ x ps body => x.toList ++ ps ++ namesAll body
  | call _ f args => names f ++ namesAll args
  | ret _ v => names v
  | step _ _ _ t => names t
  | array _ es => namesAll es
  | index _ b i => names b ++ names i

/-- The names that the nodes of a list spell. -/
def namesAll : List Node → List String
  | [] => []
  | n :: ns => names n ++ namesAll ns

end

theorem namesAll_eq_flatMap (ns : List Node) : namesAll ns = ns.flatMap names := by
  induction ns with
  | nil => rfl
  | cons n ns ih => simp [namesAll, ih]

theorem names_negate (l : Nat) (n : Node) : (n.negate l).names = n.names := by
  cases n <;> simp [negate, names]

theorem names_join (l : Nat) (a b : Node) (c : Connective) :
    (c.join l a b).names = a.names ++ b.names := by
  cases c <;> rfl

theorem mem_namesAll {ns : List Node} {x : String} : x ∈ namesAll ns ↔ ∃ n ∈ ns, x ∈ n.names := by
  rw [namesAll_eq_flatMap, List.mem_flatMap]

end Node

namespace Likeness

/-- Everything is like itself only, and only if the names in it are fit. -/
def named (fit : String → Prop) : Likeness where
  loc := Eq
  token t u := u = t ∧ (t.kind = .identifier → fit t.text)
  node m n := n = m ∧ ∀ x ∈ m.names, fit x
  name := fit

variable {fit : String → Prop}

theorem named_nodes {xs ys : List Node} (h : List.Forall₂ (named fit).node xs ys) :
    ys = xs ∧ ∀ x ∈ Node.namesAll xs, fit x := by
  induction h with
  | nil => exact ⟨rfl, fun x hx => absurd hx List.not_mem_nil⟩
  | cons hnode _ ih =>
    obtain ⟨rfl, hx⟩ := hnode
    obtain ⟨rfl, hxs⟩ := ih
    refine ⟨rfl, ?_⟩
    simp only [Node.namesAll, List.mem_append]
    rintro x (h | h)
    · exact hx x h
    · exact hxs x h

theorem named_lawful (fit : String → Prop) : (named fit).Lawful where
  kind h := by rw [h.1]
  text h := by rw [h.1]
  value h := by rw [h.1]
  loc_token h := congrArg Token.loc h.1.symm
  loc_node h := congrArg Node.loc h.1.symm
  construct h := by rw [h.1]
  name h hkind := h.2 hkind
  identifier h hkind := by
    obtain ⟨rfl, ht⟩ := h
    refine ⟨rfl, ?_⟩
    simpa [Node.names] using ht hkind
  string h _ := by
    obtain ⟨rfl, -⟩ := h
    exact ⟨rfl, by simp [Node.names]⟩
  number h _ _ := by
    obtain ⟨rfl, -⟩ := h
    exact ⟨rfl, by simp [Node.names]⟩
  constant h _ := by
    obtain ⟨rfl, -⟩ := h
    exact ⟨rfl, by simp [Node.names]⟩
  negate h hm := by
    obtain ⟨rfl, -⟩ := h
    obtain ⟨rfl, hx⟩ := hm
    exact ⟨rfl, by simpa [Node.names_negate] using hx⟩
  join c h ha hb := by
    obtain ⟨rfl, -⟩ := h
    obtain ⟨rfl, ha⟩ := ha
    obtain ⟨rfl, hb⟩ := hb
    refine ⟨rfl, ?_⟩
    simpa [Node.names_join, or_imp, forall_and] using ⟨ha, hb⟩
  assign h _ ha hb := by
    obtain ⟨rfl, -⟩ := h
    obtain ⟨rfl, ha⟩ := ha
    obtain ⟨rfl, hb⟩ := hb
    refine ⟨rfl, ?_⟩
    simpa [Node.names, or_imp, forall_and] using ⟨ha, hb⟩
  branch h hc hxs hys := by
    obtain ⟨rfl, -⟩ := h
    obtain ⟨rfl, hc⟩ := hc
    obtain ⟨rfl, hxs⟩ := named_nodes hxs
    obtain ⟨rfl, hys⟩ := named_nodes hys
    refine ⟨rfl, ?_⟩
    simpa [Node.names, or_imp, forall_and] using ⟨hc, hxs, hys⟩
  ternary h hc ha hb := by
    obtain ⟨rfl, -⟩ := h
    obtain ⟨rfl, hc⟩ := hc
    obtain ⟨rfl, ha⟩ := ha
    obtain ⟨rfl, hb⟩ := hb
    refine ⟨rfl, ?_⟩
    simpa [Node.names, or_imp, forall_and] using ⟨hc, ha, hb⟩
  loop h hc hxs := by
    obtain ⟨rfl, -⟩ := h
    obtain ⟨rfl, hc⟩ := hc
    obtain ⟨rfl, hxs⟩ := named_nodes hxs
    refine ⟨rfl, ?_⟩
    simpa [Node.names, or_imp, forall_and] using ⟨hc, hxs⟩
  function h hx hps hxs := by
    obtain ⟨rfl, -⟩ := h
    obtain ⟨rfl, hxs⟩ := named_nodes hxs
    refine ⟨rfl, ?_⟩
    simpa [Node.names, or_imp, forall_and] using ⟨hx, hps, hxs⟩
  call h hf hxs := by
    obtain ⟨rfl, -⟩ := h
    obtain ⟨rfl, hf⟩ := hf
    obtain ⟨rfl, hxs⟩ := named_nodes hxs
    refine ⟨rfl, ?_⟩
    simpa [Node.names, or_imp, forall_and] using ⟨hf, hxs⟩
  ret h ha := by
    obtain ⟨rfl, -⟩ := h
    obtain ⟨rfl, ha⟩ := ha
    exact ⟨rfl, by simpa [Node.names] using ha⟩
  step op leading h ha := by
    obtain ⟨rfl, -⟩ := h
    obtain ⟨rfl, ha⟩ := ha
    exact ⟨rfl, by simpa [Node.names] using ha⟩
  array h hxs := by
    obtain ⟨rfl, -⟩ := h
    obtain ⟨rfl, hxs⟩ := named_nodes hxs
    exact ⟨rfl, by simpa [Node.names] using hxs⟩
  index h ha hb := by
    obtain ⟨rfl, -⟩ := h
    obtain ⟨rfl, ha⟩ := ha
    obtain ⟨rfl, hb⟩ := hb
    refine ⟨rfl, ?_⟩
    simpa [Node.names, or_imp, forall_and] using ⟨ha, hb⟩

/-- Everything is like itself only. -/
abbrev same : Likeness := named fun _ => True

theorem same_tokens (ts : List Token) : List.Forall₂ same.token ts ts :=
  List.forall₂_same.2 fun _ _ => ⟨rfl, fun _ => trivial⟩

end Likeness

/-! ## Rules without a bound -/

open Likeness in
/-- Parsers whose results are the same on tokens that are the same. -/
theorem Alike.eq_of_same {α : Type} {n d : Nat} {R : α → α → Prop} {p q : Parser α}
    (h : Alike same n d R p q) (hR : ∀ a b, R a b → b = a) {ts : List Token}
    (hlen : ts.length ≤ n) : p ts = q ts := by
  have hrest : ∀ {xs ys}, List.Forall₂ same.token xs ys → ys = xs := by
    intro xs ys hxy
    induction hxy with
    | nil => rfl
    | cons htoken _ ih => rw [htoken.1, ih]
  have hrun := h ts ts (same_tokens ts) hlen
  cases hp : p ts with
  | ok a rest =>
    cases hq : q ts with
    | ok b rest' =>
      rw [hp, hq] at hrun
      obtain ⟨hab, hxy, -⟩ := hrun
      rw [hR a b hab, hrest hxy]
    | error e rest' =>
      rw [hp, hq] at hrun
      exact hrun.elim
  | error e rest =>
    cases hq : q ts with
    | ok b rest' =>
      rw [hp, hq] at hrun
      exact hrun.elim
    | error e' rest' =>
      rw [hp, hq] at hrun
      obtain ⟨hfail, hxy, -⟩ := hrun
      have he : e' = e := by
        unfold Likeness.failure at hfail
        split at hfail
        · rw [hfail]
        · obtain ⟨hloc, rfl, rfl⟩ := hfail
          cases hloc
          rfl
        · exact hfail.elim
      rw [he, hrest hxy]

/-- The rules of the grammar, tied for as many tokens as there are. -/
def grammar : Rules where
  expression ts := (rules ts.length).expression ts
  ternary ts := (rules ts.length).ternary ts
  operators tiers ts := (rules ts.length).operators tiers ts
  signed ts := (rules ts.length).signed ts
  suffixed n ts := (rules ts.length).suffixed n ts
  items close ts := (rules ts.length).items close ts
  names ts := (rules ts.length).names ts
  block ts := (rules ts.length).block ts
  statements ts := (rules ts.length).statements ts

/-- A parser that is tied for as many tokens as there are. -/
theorem Alike.of_length {α β : Type} {K : Likeness} {n d : Nat} {R : α → β → Prop} {p : Parser α}
    {q : Nat → Parser β} (h : ∀ k ≤ n, Alike K k d R p (q k)) :
    Alike K n d R p fun us => q us.length us := by
  intro ts us htu hlen
  have hlength : us.length = ts.length := htu.length_eq.symm
  dsimp only
  rw [hlength]
  exact h ts.length hlen ts us htu (Nat.le_refl _)

/-- Rules that were tied for enough tokens read what the grammar reads. -/
theorem alike_grammar {K : Likeness} (hK : K.Lawful) {n m : Nat} (hm : n ≤ m) :
    (rules m).Alike K n grammar := by
  have hrules : ∀ k ≤ n, (rules m).Alike K k (rules k) :=
    fun k hk => alike_rules hK (Nat.le_trans hk hm) (Nat.le_refl k)
  exact {
    expression := .of_length fun k hk => (hrules k hk).expression
    ternary := .of_length fun k hk => (hrules k hk).ternary
    operators := fun tiers => .of_length fun k hk => (hrules k hk).operators tiers
    signed := .of_length fun k hk => (hrules k hk).signed
    suffixed := fun hm => .of_length fun k hk => (hrules k hk).suffixed hm
    items := fun close => .of_length fun k hk => (hrules k hk).items close
    names := .of_length fun k hk => (hrules k hk).names
    block := .of_length fun k hk => (hrules k hk).block
    statements := .of_length fun k hk => (hrules k hk).statements }

open Likeness in
/-- The rules of the grammar are made of themselves. -/
theorem grammar_next : grammar.next = grammar := by
  have hsame := named_lawful fun _ => True
  have hrules (n : Nat) : (rules (n + 1)).Alike same (n + 1) grammar :=
    alike_grammar hsame (Nat.le_refl _)
  have hnext (n : Nat) : (rules (n + 1)).Alike same (n + 1) grammar.next :=
    (alike_grammar hsame (Nat.le_refl n)).next hsame
  have hnode (m n : Node) (h : same.node m n) : n = m := h.1
  have hnodes (xs ys : List Node) (h : List.Forall₂ same.node xs ys) : ys = xs := (named_nodes h).1
  have hnames (xs ys : List String) (h : same.sameNames xs ys) : ys = xs := h.1.symm
  -- Both sides read what rules read that were tied for one token more than there are.
  have hequal : ∀ {α : Type} {d : Nat} {R : α → α → Prop} {p : Nat → Parser α} {q q' : Parser α},
      (∀ n, Alike same (n + 1) d R (p n) q) → (∀ n, Alike same (n + 1) d R (p n) q') →
      (∀ a b, R a b → b = a) → q = q' := by
    intro α d R p q q' h h' hR
    funext ts
    exact ((h ts.length).eq_of_same hR (Nat.le_succ _)).symm.trans
      ((h' ts.length).eq_of_same hR (Nat.le_succ _))
  have hexpression := hequal (fun n => (hnext n).expression) (fun n => (hrules n).expression) hnode
  have hternary := hequal (fun n => (hnext n).ternary) (fun n => (hrules n).ternary) hnode
  have hoperators : grammar.next.operators = grammar.operators := funext fun tiers =>
    hequal (fun n => (hnext n).operators tiers) (fun n => (hrules n).operators tiers) hnode
  have hsigned := hequal (fun n => (hnext n).signed) (fun n => (hrules n).signed) hnode
  have hsuffixed : grammar.next.suffixed = grammar.suffixed := funext fun m =>
    have hm : same.node m m := ⟨rfl, fun _ _ => trivial⟩
    hequal (fun n => (hnext n).suffixed hm) (fun n => (hrules n).suffixed hm) hnode
  have hitems : grammar.next.items = grammar.items := funext fun close =>
    hequal (fun n => (hnext n).items close) (fun n => (hrules n).items close) hnodes
  have hnamesEq := hequal (fun n => (hnext n).names) (fun n => (hrules n).names) hnames
  have hblock := hequal (fun n => (hnext n).block) (fun n => (hrules n).block) hnodes
  have hstatements :=
    hequal (fun n => (hnext n).statements) (fun n => (hrules n).statements) hnodes
  calc grammar.next
    _ = ⟨grammar.next.expression, grammar.next.ternary, grammar.next.operators,
          grammar.next.signed, grammar.next.suffixed, grammar.next.items, grammar.next.names,
          grammar.next.block, grammar.next.statements⟩ := rfl
    _ = grammar := by
      rw [hexpression, hternary, hoperators, hsigned, hsuffixed, hitems, hnamesEq, hblock,
        hstatements]

end BatchCompiler
