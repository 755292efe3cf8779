/-
# BatchCompiler.Proofs.Reading -- what was printed is read back

Printed tokens are read by the rule for the level of the place they were printed for, whatever
follows them, as long as it does not go on with an expression on that level (`Stops`). A suffix is
different: what it applies to has been read before it, so of a printed node that can take suffixes
one says that reading it comes down to reading the suffixes behind it. `Reads` says these things of a
node, and holds of every expressible one by induction over the tree.
-/

import BatchCompiler.Proofs.Lexeme
import BatchCompiler.Proofs.Likeness

namespace BatchCompiler

open BatchCompiler.Parser

/-! ## The grammar without a bound -/

theorem grammar_expression : grammar.expression = grammar.assignment := by
  conv_lhs => rw [← grammar_next]
  rfl

theorem grammar_ternary : grammar.ternary = grammar.choice := by
  conv_lhs => rw [← grammar_next]
  rfl

theorem grammar_operators (ts : List Tier) : grammar.operators ts = grammar.tier ts := by
  conv_lhs => rw [← grammar_next]
  rfl

theorem grammar_signed : grammar.signed = grammar.sign := by
  conv_lhs => rw [← grammar_next]
  rfl

theorem grammar_suffixed (n : Node) : grammar.suffixed n = grammar.suffix n := by
  conv_lhs => rw [← grammar_next]
  rfl

/-- The rule that reads an expression on a level. -/
def reader : Nat → Parser Node
  | 0 => grammar.assignment
  | 1 => grammar.assignment
  | 2 => grammar.choice
  | k + 3 => grammar.tier (tiers.drop k)

/-! ## Where an expression ends -/

/-- The symbols that go on with an expression or a conditional in front of them, and the level on
which they do. -/
def continuations : List (String × Nat) :=
  ("else", 1) :: ("=", 1) :: ("?", 2) ::
    (tiers.zipIdx.flatMap (fun (tier, k) => tier.map fun entry => (entry.1, k + 3)) ++
      suffixes.map fun entry => (entry.1, 14))

/-- What follows does not go on with an expression of this level. -/
def Stops (level : Nat) (rest : List Token) : Prop :=
  ∀ t ∈ rest.head?, ∀ entry ∈ continuations, t.isSymbol entry.1 = true → entry.2 < level

theorem Stops.mono {k l : Nat} {rest : List Token} (h : Stops k rest) (hkl : k ≤ l) : Stops l rest :=
  fun t ht entry hentry hsymbol => Nat.lt_of_lt_of_le (h t ht entry hentry hsymbol) hkl

theorem Stops.cons {level : Nat} {t : Token}
    (h : ∀ entry ∈ continuations, t.isSymbol entry.1 = true → entry.2 < level) (rest : List Token) :
    Stops level (t :: rest) :=
  forall_head?_cons h rest

/-- A symbol that closes something or stands between two things goes on with nothing. -/
theorem stops_closing {text : String}
    (h : text ∈ [")", "]", "\x7b", "\x7d", ",", ":", ";"]) {level : Nat} (hlevel : 1 ≤ level)
    (rest : List Token) : Stops level (.symbol text :: rest) := by
  have hnone : ∀ text ∈ [")", "]", "\x7b", "\x7d", ",", ":", ";"], ∀ entry ∈ continuations,
      (Token.symbol text).isSymbol entry.1 = true → entry.2 < 1 := by decide +kernel
  exact (Stops.cons (hnone text h) rest).mono hlevel

/-- A symbol of the level is not at the cursor. -/
theorem Stops.not_symbol {level : Nat} {rest : List Token} (h : Stops level rest)
    {text : String} (hmem : (text, level) ∈ continuations) :
    ∀ t ∈ rest.head?, t.isSymbol text = false := by
  intro t ht
  rw [Bool.eq_false_iff]
  intro hsymbol
  exact Nat.lt_irrefl _ (h t ht _ hmem hsymbol)

theorem mem_continuations_tier {k : Nat} (hk : k < tiers.length) {entry : String × Connective}
    (h : entry ∈ tiers[k]) : (entry.1, k + 3) ∈ continuations := by
  refine List.mem_cons_of_mem _ (List.mem_cons_of_mem _ (List.mem_cons_of_mem _ ?_))
  refine List.mem_append_left _ (List.mem_flatMap.2 ⟨(tiers[k], k), ?_, ?_⟩)
  · exact List.mem_zipIdx_iff_getElem?.2 (List.getElem?_eq_getElem hk)
  · exact List.mem_map.2 ⟨entry, h, rfl⟩

theorem mem_continuations_suffix {entry : String × Suffix} (h : entry ∈ suffixes) :
    (entry.1, 14) ∈ continuations := by
  refine List.mem_cons_of_mem _ (List.mem_cons_of_mem _ (List.mem_cons_of_mem _ ?_))
  exact List.mem_append_right _ (List.mem_map.2 ⟨entry, h, rfl⟩)

/-! ## From level to level -/

theorem reader_tier {k : Nat} (hk : k < tiers.length) :
    reader (k + 3) = (do
      let lhs ← reader (k + 4)
      match ← acceptAny? tiers[k] with
      | none => return lhs
      | some (symbol, c) => return c.join symbol.loc lhs (← reader (k + 3))) := by
  have hdrop : tiers.drop k = tiers[k] :: tiers.drop (k + 1) := List.drop_eq_getElem_cons hk
  -- Behind the symbol, the level itself is called again, by its list of tiers.
  have hright : reader (k + 3) = grammar.operators (tiers[k] :: tiers.drop (k + 1)) := by
    rw [grammar_operators, ← hdrop]
    rfl
  conv_lhs => rw [reader, hdrop]
  rw [hright]
  rfl

/-- What is read on a tighter level is read on a looser one, if nothing goes on there. -/
theorem reader_loosen {level : Nat} {ts rest : List Token} {n : Node} (hpos : 1 ≤ level)
    (hle : level ≤ 12) (h : reader (level + 1) ts = .ok n rest) (hstop : Stops level rest) :
    reader level ts = .ok n rest := by
  match level, hpos, hle with
  | 1, _, _ =>
    have hchoice : grammar.choice ts = .ok n rest := h
    show (grammar.choice >>= _) ts = _
    rw [bind_of_ok hchoice, bind_of_ok (accept?_of_not_symbol (hstop.not_symbol (by decide)))]
    rfl
  | 2, _, _ =>
    have htier : grammar.tier tiers ts = .ok n rest := h
    show (grammar.tier tiers >>= _) ts = _
    rw [bind_of_ok htier, bind_of_ok (accept?_of_not_symbol (hstop.not_symbol (by decide)))]
    rfl
  | k + 3, _, hle =>
    have hk : k < tiers.length := by
      show k < 10
      omega
    rw [reader_tier hk, bind_of_ok h]
    refine bind_of_ok (acceptAny?_of_not_symbol ?_)
    intro t ht entry hentry
    exact hstop.not_symbol (mem_continuations_tier hk hentry) t ht

theorem reader_of_tighter {k l : Nat} {ts rest : List Token} {n : Node} (hpos : 1 ≤ k) (hkl : k ≤ l)
    (hl : l ≤ 13) (h : reader l ts = .ok n rest) (hstop : Stops k rest) :
    reader k ts = .ok n rest := by
  -- One level at a time; what follows stops every level in between.
  induction hkl with
  | refl => exact h
  | @step l hkl ih =>
    have hle : k ≤ l := hkl
    exact ih (by omega) (reader_loosen (by omega) (by omega) h (hstop.mono hle))

/-- Without a suffix, nothing is done about suffixes. -/
theorem suffixed_of_stops {rest : List Token} (h : Stops 14 rest) (n : Node) :
    grammar.suffixed n rest = .ok n rest := by
  rw [grammar_suffixed]
  refine bind_of_ok (acceptAny?_of_not_symbol ?_)
  intro t ht entry hentry
  exact h.not_symbol (mem_continuations_suffix hentry) t ht

/-! ## One rule after the other -/

/-- An operand that does not begin with a sign. -/
theorem sign_of_operand {t : Token} {ts rest : List Token} {m : Node}
    (hsign : signs.find? (fun entry => t.isSymbol entry.1) = none)
    (h : grammar.operand (t :: ts) = .ok m rest) :
    grammar.sign (t :: ts) = grammar.suffixed m rest := by
  have hnone : acceptAny? signs (t :: ts) = .ok none (t :: ts) := by rw [acceptAny?_cons, hsign]
  show (acceptAny? signs >>= _) (t :: ts) = _
  rw [bind_of_ok hnone]
  exact bind_of_ok h

theorem sign_step (op : StepOp) {ts rest : List Token} {m : Node}
    (h : grammar.sign ts = .ok m rest) :
    grammar.sign (.symbol op.symbol :: ts) = .ok (.step 0 op true m) rest := by
  have hsign : acceptAny? signs (.symbol op.symbol :: ts) =
      .ok (some (.symbol op.symbol, .step op)) ts := by
    rw [acceptAny?_cons]
    cases op <;> rfl
  show (acceptAny? signs >>= _) _ = _
  rw [bind_of_ok hsign]
  rw [← grammar_signed] at h
  exact bind_of_ok h

theorem sign_minus {ts rest : List Token} {m : Node} (h : grammar.sign ts = .ok m rest) :
    grammar.sign (.symbol "-" :: ts) = .ok (m.negate 0) rest := by
  have hsign : acceptAny? signs (.symbol "-" :: ts) = .ok (some (.symbol "-", .minus)) ts := by
    rw [acceptAny?_cons]
    rfl
  show (acceptAny? signs >>= _) _ = _
  rw [bind_of_ok hsign]
  rw [← grammar_signed] at h
  exact bind_of_ok h

/-- Two operands and the symbol that joins them. -/
theorem reader_join {k : Nat} (hk : k < tiers.length) {text : String} {c : Connective}
    {ts us rest : List Token} {a b : Node}
    (hsymbol : tiers[k].find? (fun entry => (Token.symbol text).isSymbol entry.1) = some (text, c))
    (ha : reader (k + 4) ts = .ok a (.symbol text :: us)) (hb : reader (k + 3) us = .ok b rest) :
    reader (k + 3) ts = .ok (c.join 0 a b) rest := by
  have htier : acceptAny? tiers[k] (.symbol text :: us) = .ok (some (.symbol text, c)) us := by
    rw [acceptAny?_cons, hsymbol]
  rw [reader_tier hk, bind_of_ok ha, bind_of_ok htier]
  exact bind_of_ok hb

theorem choice_ternary {ts us vs rest : List Token} {a b c : Node}
    (hc : reader 3 ts = .ok c (.symbol "?" :: us)) (ha : reader 1 us = .ok a (.symbol ":" :: vs))
    (hb : reader 2 vs = .ok b rest) : reader 2 ts = .ok (.ternary 0 c a b) rest := by
  have hcond : grammar.tier tiers ts = .ok c (.symbol "?" :: us) := hc
  have hthen : grammar.expression us = .ok a (.symbol ":" :: vs) := grammar_expression ▸ ha
  have helse : grammar.ternary vs = .ok b rest := grammar_ternary ▸ hb
  show (grammar.tier tiers >>= _) ts = _
  rw [bind_of_ok hcond, bind_of_ok (accept?_of_symbol (by decide) us)]
  dsimp only
  rw [bind_of_ok hthen, bind_of_ok (require_of_symbol (by decide) vs)]
  exact bind_of_ok helse

theorem assignment_assign {ts us rest : List Token} {t v : Node}
    (ht : reader 2 ts = .ok t (.symbol "=" :: us)) (htarget : t.isAssignable = true)
    (hv : reader 1 us = .ok v rest) : reader 1 ts = .ok (.assign 0 t v) rest := by
  have hchoice : grammar.choice ts = .ok t (.symbol "=" :: us) := ht
  have hvalue : grammar.expression us = .ok v rest := grammar_expression ▸ hv
  show (grammar.choice >>= _) ts = _
  rw [bind_of_ok hchoice, bind_of_ok (accept?_of_symbol (by decide) us)]
  dsimp only
  rw [if_pos htarget]
  exact bind_of_ok hvalue

/-! ### Operands -/

/-- The symbol that opens an operand is read first. -/
theorem operand_of_opener {text : String} {a : Opener}
    (h : openers.find? (fun entry => (Token.symbol text).isSymbol entry.1) = some (text, a))
    (ts : List Token) :
    acceptAny? openers (.symbol text :: ts) = .ok (some (.symbol text, a)) ts := by
  rw [acceptAny?_cons, h]

theorem operand_of_atom {t : Token} (h : t.kind ∈ [.identifier, .number, .string])
    (ts : List Token) : grammar.operand (t :: ts) = Rules.atom (t :: ts) := by
  refine bind_of_ok (acceptAny?_of_not_symbol ?_)
  rintro u ⟨⟩ entry -
  simp only [List.mem_cons, List.not_mem_nil, or_false] at h
  rcases h with h | h | h <;> simp [Token.isSymbol, h]

theorem operand_identifier (x : String) (ts : List Token) :
    grammar.operand (.name x :: ts) = .ok (.identifier 0 x) ts := by
  rw [operand_of_atom (by simp [Token.name])]
  rfl

theorem operand_number (k : Nat) (ts : List Token) :
    grammar.operand (.number k :: ts) = .ok (.integer 0 k) ts := by
  rw [operand_of_atom (by simp [Token.number])]
  rfl

theorem operand_literal {s : String} (h : Quoted.decode (Quoted.encode s) = s) (ts : List Token) :
    grammar.operand (.literal s :: ts) = .ok (.string 0 s) ts := by
  rw [operand_of_atom (by simp [Token.literal])]
  show EStateM.Result.ok (Node.string 0 (Quoted.decode (Quoted.encode s))) ts = _
  rw [h]

theorem operand_group {ts rest : List Token} {m : Node}
    (h : reader 1 ts = .ok m (.symbol ")" :: rest)) :
    grammar.operand (.symbol "(" :: ts) = .ok m rest := by
  have hinside : grammar.expression ts = .ok m (.symbol ")" :: rest) := grammar_expression ▸ h
  show (acceptAny? openers >>= _) _ = _
  rw [bind_of_ok (operand_of_opener (by rfl) ts)]
  dsimp only
  rw [bind_of_ok hinside]
  exact bind_of_ok (require_of_symbol (by decide) rest)

theorem operand_ret {ts rest : List Token} {m : Node} (h : reader 1 ts = .ok m rest) :
    grammar.operand (.symbol "return" :: ts) = .ok (.ret 0 m) rest := by
  have hvalue : grammar.expression ts = .ok m rest := grammar_expression ▸ h
  show (acceptAny? openers >>= _) _ = _
  rw [bind_of_ok (operand_of_opener (by rfl) ts)]
  exact bind_of_ok hvalue

theorem operand_array {ts rest : List Token} {ms : List Node}
    (h : grammar.list "]" ts = .ok ms rest) :
    grammar.operand (.symbol "[" :: ts) = .ok (.array 0 ms) rest := by
  show (acceptAny? openers >>= _) _ = _
  rw [bind_of_ok (operand_of_opener (by rfl) ts)]
  exact bind_of_ok h

theorem condition_of_reader {ts rest : List Token} {c : Node}
    (h : reader 1 ts = .ok c (.symbol ")" :: rest)) :
    grammar.condition (.symbol "(" :: ts) = .ok c rest := by
  have hinside : grammar.expression ts = .ok c (.symbol ")" :: rest) := grammar_expression ▸ h
  show (require "(" >>= _) _ = _
  rw [bind_of_ok (require_of_symbol (by decide) ts), bind_of_ok hinside]
  exact bind_of_ok (require_of_symbol (by decide) rest)

theorem body_of_block {ts rest : List Token} {ms : List Node}
    (h : grammar.block ts = .ok ms rest) :
    grammar.body (.symbol "\x7b" :: ts) = .ok ms rest := by
  show (accept "\x7b" >>= _) _ = _
  rw [bind_of_ok (accept_of_symbol (by decide) ts)]
  exact h

theorem operand_loop {ts us rest : List Token} {c : Node} {body : List Node}
    (hc : reader 1 ts = .ok c (.symbol ")" :: .symbol "\x7b" :: us))
    (hbody : grammar.block us = .ok body rest) :
    grammar.operand (.symbol "while" :: .symbol "(" :: ts) = .ok (.loop 0 c body) rest := by
  show (acceptAny? openers >>= _) _ = _
  rw [bind_of_ok (operand_of_opener (by rfl) _)]
  show (grammar.condition >>= _) _ = _
  rw [bind_of_ok (condition_of_reader hc)]
  exact bind_of_ok (body_of_block hbody)

/-- A conditional with one body. -/
theorem operand_branch {ts us rest : List Token} {c : Node} {body : List Node}
    (hc : reader 1 ts = .ok c (.symbol ")" :: .symbol "\x7b" :: us))
    (hbody : grammar.block us = .ok body rest) (hstop : Stops 1 rest) :
    grammar.operand (.symbol "if" :: .symbol "(" :: ts) = .ok (.branch 0 c body []) rest := by
  show (acceptAny? openers >>= _) _ = _
  rw [bind_of_ok (operand_of_opener (by rfl) _)]
  show (grammar.condition >>= _) _ = _
  rw [bind_of_ok (condition_of_reader hc), bind_of_ok (body_of_block hbody),
    bind_of_ok (accept_of_not_symbol (hstop.not_symbol (by decide)))]
  rfl

/-- A conditional with two bodies. -/
theorem operand_branches {ts us vs rest : List Token} {c : Node} {body other : List Node}
    (hc : reader 1 ts = .ok c (.symbol ")" :: .symbol "\x7b" :: us))
    (hbody : grammar.block us = .ok body (.symbol "else" :: .symbol "\x7b" :: vs))
    (hother : grammar.block vs = .ok other rest) :
    grammar.operand (.symbol "if" :: .symbol "(" :: ts) = .ok (.branch 0 c body other) rest := by
  show (acceptAny? openers >>= _) _ = _
  rw [bind_of_ok (operand_of_opener (by rfl) _)]
  show (grammar.condition >>= _) _ = _
  rw [bind_of_ok (condition_of_reader hc), bind_of_ok (body_of_block hbody),
    bind_of_ok (accept_of_symbol (by decide) _)]
  exact bind_of_ok (body_of_block hother)

theorem operand_function {x : Option String} {ts us rest : List Token} {ps : List String}
    {body : List Node} (hps : grammar.params ts = .ok ps (.symbol "\x7b" :: us))
    (hbody : grammar.block us = .ok body rest) :
    grammar.operand (.symbol "func" :: (x.toList.map Token.name ++ .symbol "(" :: ts)) =
      .ok (.function 0 x ps body) rest := by
  have hname : identifier? (x.toList.map Token.name ++ .symbol "(" :: ts) =
      .ok x (.symbol "(" :: ts) := by
    cases x with
    | some x => exact identifier?_of_kind rfl _
    | none => exact identifier?_of_not_kind (forall_head?_cons (by decide) ts)
  show (acceptAny? openers >>= _) _ = _
  rw [bind_of_ok (operand_of_opener (by rfl) _)]
  show (identifier? >>= _) _ = _
  rw [bind_of_ok hname, bind_of_ok (require_of_symbol (by decide) ts), bind_of_ok hps,
    bind_of_ok (require_of_symbol (by decide) us)]
  exact bind_of_ok hbody

/-! ### Suffixes -/

theorem suffixed_of_symbol {text : String} {a : Suffix}
    (h : suffixes.find? (fun entry => (Token.symbol text).isSymbol entry.1) = some (text, a))
    (ts : List Token) :
    acceptAny? suffixes (.symbol text :: ts) = .ok (some (.symbol text, a)) ts := by
  rw [acceptAny?_cons, h]

theorem suffixed_call {ts rest : List Token} {ms : List Node} (f : Node)
    (h : grammar.list ")" ts = .ok ms rest) :
    grammar.suffixed f (.symbol "(" :: ts) = grammar.suffixed (.call 0 f ms) rest := by
  conv_lhs => rw [grammar_suffixed]
  show (acceptAny? suffixes >>= _) _ = _
  rw [bind_of_ok (suffixed_of_symbol (by rfl) ts)]
  exact bind_of_ok h

theorem suffixed_index {ts rest : List Token} {i : Node} (b : Node)
    (h : reader 1 ts = .ok i (.symbol "]" :: rest)) :
    grammar.suffixed b (.symbol "[" :: ts) = grammar.suffixed (.index 0 b i) rest := by
  have hinside : grammar.expression ts = .ok i (.symbol "]" :: rest) := grammar_expression ▸ h
  conv_lhs => rw [grammar_suffixed]
  show (acceptAny? suffixes >>= _) _ = _
  rw [bind_of_ok (suffixed_of_symbol (by rfl) ts)]
  dsimp only
  rw [bind_of_ok hinside]
  exact bind_of_ok (require_of_symbol (by decide) rest)

theorem suffixed_step (op : StepOp) (t : Node) (rest : List Token) :
    grammar.suffixed t (.symbol op.symbol :: rest) = grammar.suffixed (.step 0 op false t) rest := by
  conv_lhs => rw [grammar_suffixed]
  show (acceptAny? suffixes >>= _) _ = _
  rw [bind_of_ok (suffixed_of_symbol (by cases op <;> rfl) rest)]
  rfl

/-! ### Lists -/

theorem grammar_items (close : String) : grammar.items close = (do
    let item ← grammar.assignment
    if ← accept close then return [item]
    require ","
    return item :: (← grammar.items close)) := by
  conv_lhs => rw [← grammar_next]
  rfl

theorem grammar_names : grammar.names = (do
    let name ← identifier
    if ← accept ")" then return [name]
    require ","
    return name :: (← grammar.names)) := by
  conv_lhs => rw [← grammar_next]
  rfl

theorem items_last {close : String} {ts rest : List Token} {m : Node}
    (hclose : (Token.symbol close).isSymbol close = true)
    (h : reader 1 ts = .ok m (.symbol close :: rest)) : grammar.items close ts = .ok [m] rest := by
  have hitem : grammar.assignment ts = .ok m (.symbol close :: rest) := h
  rw [grammar_items, bind_of_ok hitem, bind_of_ok (accept_of_symbol hclose rest)]
  rfl

theorem items_cons {close : String} {ts us rest : List Token} {m : Node} {ms : List Node}
    (hclose : (Token.symbol ",").isSymbol close = false)
    (h : reader 1 ts = .ok m (.symbol "," :: us)) (hrest : grammar.items close us = .ok ms rest) :
    grammar.items close ts = .ok (m :: ms) rest := by
  have hitem : grammar.assignment ts = .ok m (.symbol "," :: us) := h
  have hnot := accept_of_not_symbol (forall_head?_cons hclose us)
  rw [grammar_items, bind_of_ok hitem, bind_of_ok hnot]
  show (require "," >>= _) _ = _
  rw [bind_of_ok (require_of_symbol (by decide) us)]
  exact bind_of_ok hrest

theorem params_of_names (ps : List String) (rest : List Token) :
    grammar.params (commas (ps.map fun p => [Token.name p]) ++ .symbol ")" :: rest) =
      .ok ps rest := by
  have hnames : ∀ p (ps : List String), grammar.names
      (commas ((p :: ps).map fun p => [Token.name p]) ++ .symbol ")" :: rest) =
        .ok (p :: ps) rest := by
    intro p ps
    induction ps generalizing p with
    | nil =>
      rw [grammar_names]
      show (identifier >>= _) (.name p :: .symbol ")" :: rest) = _
      rw [bind_of_ok (identifier_of_kind rfl _), bind_of_ok (accept_of_symbol (by decide) rest)]
      rfl
    | cons q ps ih =>
      have hnot : ∀ ts, accept ")" (.symbol "," :: ts) = .ok false (.symbol "," :: ts) :=
        fun ts => accept_of_not_symbol (forall_head?_cons (by decide) ts)
      rw [grammar_names, List.map_cons, List.map_cons, commas_cons_cons]
      show (identifier >>= _) (.name p :: .symbol "," :: (commas _ ++ .symbol ")" :: rest)) = _
      rw [bind_of_ok (identifier_of_kind rfl _), bind_of_ok (hnot _)]
      show (require "," >>= _) _ = _
      rw [bind_of_ok (require_of_symbol (by decide) _)]
      exact bind_of_ok (ih q)
  cases ps with
  | nil =>
    show (accept ")" >>= _) (.symbol ")" :: rest) = _
    rw [bind_of_ok (accept_of_symbol (by decide) rest)]
    rfl
  | cons p ps =>
    have hnot : ∀ ts, accept ")" (.name p :: ts) = .ok false (.name p :: ts) :=
      fun ts => accept_of_not_symbol (forall_head?_cons (by rfl) ts)
    have hfront : ∃ ts, commas ((p :: ps).map fun p => [Token.name p]) ++ .symbol ")" :: rest =
        .name p :: ts := by
      cases ps with
      | nil => exact ⟨_, rfl⟩
      | cons q ps => exact ⟨_, by rw [List.map_cons, List.map_cons, commas_cons_cons]; rfl⟩
    obtain ⟨ts, hts⟩ := hfront
    show (accept ")" >>= _) _ = _
    rw [hts, bind_of_ok (hnot ts), ← hts]
    exact hnames p ps

/-! ### Statements -/

theorem Begins.not_symbol {ts : List Token} (h : Begins ts) {text : String}
    (htext : text ∈ [")", "]", "\x7d", ";"]) : ∀ t ∈ ts.head?, t.isSymbol text = false := by
  obtain ⟨t, rest, rfl, ht⟩ := h
  rintro u ⟨⟩
  rw [Token.begins, Bool.and_eq_true, List.all_eq_true] at ht
  simpa using ht.2 text htext

theorem Begins.not_end {ts : List Token} (h : Begins ts) : Token.isEnd ts.head? = false := by
  obtain ⟨t, rest, rfl, ht⟩ := h
  rw [Token.begins, Bool.and_eq_true] at ht
  simpa [Token.isEnd] using ht.1

theorem grammar_block : grammar.block = (do
    if ← accept "\x7d" then return []
    if ← accept ";" then return ← grammar.block
    if ← atEnd then reject (.expected "\x7d")
    let n ← grammar.statement
    return n :: (← grammar.block)) := by
  conv_lhs => rw [← grammar_next]
  rfl

theorem grammar_statements : grammar.statements = (do
    if ← atEnd then return []
    if ← accept ";" then return ← grammar.statements
    let n ← grammar.statement
    return n :: (← grammar.statements)) := by
  conv_lhs => rw [← grammar_next]
  rfl

theorem statement_of_reader {ts rest : List Token} {m : Node}
    (h : reader 1 ts = .ok m (.symbol ";" :: rest)) : grammar.statement ts = .ok m rest := by
  have hexpression : grammar.assignment ts = .ok m (.symbol ";" :: rest) := h
  show (grammar.assignment >>= _) ts = _
  rw [bind_of_ok hexpression, bind_of_ok (accept_of_symbol (by decide) rest)]
  rfl

theorem block_nil (rest : List Token) : grammar.block (.symbol "\x7d" :: rest) = .ok [] rest := by
  rw [grammar_block, bind_of_ok (accept_of_symbol (by decide) rest)]
  rfl

theorem block_cons {ts us rest : List Token} {m : Node} {ms : List Node} (hts : Begins ts)
    (h : reader 1 ts = .ok m (.symbol ";" :: us)) (hrest : grammar.block us = .ok ms rest) :
    grammar.block ts = .ok (m :: ms) rest := by
  have hend : atEnd ts = .ok false ts := by rw [atEnd_apply, hts.not_end]
  rw [grammar_block, bind_of_ok (accept_of_not_symbol (hts.not_symbol (by decide)))]
  show (accept ";" >>= _) ts = _
  rw [bind_of_ok (accept_of_not_symbol (hts.not_symbol (by decide)))]
  show (atEnd >>= _) ts = _
  rw [bind_of_ok hend]
  show (grammar.statement >>= _) ts = _
  rw [bind_of_ok (statement_of_reader h)]
  exact bind_of_ok hrest

theorem statements_nil (rest : List Token) :
    grammar.statements (.ending :: rest) = .ok [] (.ending :: rest) := by
  rw [grammar_statements, bind_of_ok (atEnd_apply _)]
  rfl

theorem statements_cons {ts us rest : List Token} {m : Node} {ms : List Node} (hts : Begins ts)
    (h : reader 1 ts = .ok m (.symbol ";" :: us)) (hrest : grammar.statements us = .ok ms rest) :
    grammar.statements ts = .ok (m :: ms) rest := by
  have hend : atEnd ts = .ok false ts := by rw [atEnd_apply, hts.not_end]
  rw [grammar_statements, bind_of_ok hend]
  show (accept ";" >>= _) ts = _
  rw [bind_of_ok (accept_of_not_symbol (hts.not_symbol (by decide)))]
  show (grammar.statement >>= _) ts = _
  rw [bind_of_ok (statement_of_reader h)]
  exact bind_of_ok hrest

/-! ## Nodes that are read back -/

/-- The printed node is read back: as a whole statement, in a place of any level, and with suffixes
behind it. -/
structure Reads (n : Node) : Prop where
  begins : Begins n.print
  whole {rest : List Token} : Stops 1 rest → reader 1 (n.print ++ rest) = .ok n.erase rest
  within {place : Nat} {rest : List Token} : 1 ≤ place → place ≤ 13 → Stops place rest →
    reader place (n.placed place n.print ++ rest) = .ok n.erase rest
  base (rest : List Token) :
    grammar.sign (n.placed 14 n.print ++ rest) = grammar.suffixed n.erase rest

namespace Reads

variable {n : Node}

/-- A node in parentheses, with suffixes behind it. -/
theorem group (h : ∀ {rest}, Stops 1 rest → reader 1 (n.print ++ rest) = .ok n.erase rest)
    (rest : List Token) :
    grammar.sign (.symbol "(" :: (n.print ++ [.symbol ")"]) ++ rest) =
      grammar.suffixed n.erase rest := by
  simp only [List.cons_append, List.append_assoc, List.nil_append]
  refine sign_of_operand (by decide) (operand_group ?_)
  exact h (stops_closing (by decide) (Nat.le_refl 1) rest)

/-- What comes down to suffixes is read on any level, if there are none. -/
theorem within_of_sign {place : Nat} {ts rest : List Token} {m : Node}
    (h : grammar.sign ts = grammar.suffixed m rest) (hpos : 1 ≤ place) (hle : place ≤ 13)
    (hstop : Stops place rest) : reader place ts = .ok m rest := by
  refine reader_of_tighter hpos hle (Nat.le_refl 13) ?_ hstop
  show grammar.sign _ = _
  rw [h]
  exact suffixed_of_stops (hstop.mono (by omega)) m

/-- A node that is bare only as a whole statement. -/
theorem of_whole (hbegins : Begins n.print) (hlevel : n.level = 0)
    (h : ∀ {rest}, Stops 1 rest → reader 1 (n.print ++ rest) = .ok n.erase rest) : Reads n where
  begins := hbegins
  whole := h
  within := by
    intro place rest hpos hle hstop
    rw [Node.placed, if_pos (by omega)]
    exact within_of_sign (group h rest) hpos hle hstop
  base rest := by
    rw [Node.placed, if_pos (by omega)]
    exact group h rest

/-- A node that is bare on its own level and on the looser ones. -/
theorem of_level {k : Nat} (hbegins : Begins n.print) (hlevel : n.level = k) (hpos : 1 ≤ k)
    (hle : k ≤ 13) (h : ∀ {rest}, Stops k rest → reader k (n.print ++ rest) = .ok n.erase rest) :
    Reads n := by
  subst hlevel
  have hlooser : ∀ {place rest}, 1 ≤ place → place ≤ n.level → Stops place rest →
      reader place (n.print ++ rest) = .ok n.erase rest :=
    fun hplace hlevel hstop => reader_of_tighter hplace hlevel hle (h (hstop.mono hlevel)) hstop
  have hwhole : ∀ {rest}, Stops 1 rest → reader 1 (n.print ++ rest) = .ok n.erase rest :=
    fun hstop => hlooser (Nat.le_refl 1) hpos hstop
  constructor
  case begins => exact hbegins
  case whole => exact hwhole
  case within =>
    intro place rest hplace hle' hstop
    unfold Node.placed
    split
    · exact within_of_sign (group hwhole rest) hplace hle' hstop
    next hlevel => exact hlooser hplace (Nat.le_of_not_lt hlevel) hstop
  case base =>
    intro rest
    rw [Node.placed, if_pos (by omega)]
    exact group hwhole rest

/-- A node that can take suffixes. -/
theorem of_base {k : Nat} (hbegins : Begins n.print) (hlevel : n.level = k) (hk : 14 ≤ k)
    (h : ∀ rest, grammar.sign (n.print ++ rest) = grammar.suffixed n.erase rest) : Reads n where
  begins := hbegins
  whole := fun hstop => within_of_sign (h _) (Nat.le_refl 1) (by decide) hstop
  within := by
    intro place rest hpos hle hstop
    rw [Node.placed, if_neg (by omega)]
    exact within_of_sign (h rest) hpos hle hstop
  base rest := by
    rw [Node.placed, if_neg (by omega)]
    exact h rest

/-! ### Lists of nodes -/

theorem items {close : String} (hclose : close ∈ [")", "]"]) {m : Node} {ms : List Node}
    (h : ∀ n ∈ m :: ms, Reads n) (rest : List Token) :
    grammar.items close (commas (Node.printItems (m :: ms)) ++ .symbol close :: rest) =
      .ok (Node.eraseAll (m :: ms)) rest := by
  have hsymbols : ∀ close ∈ [")", "]"], (Token.symbol close).isSymbol close = true ∧
      (Token.symbol ",").isSymbol close = false := by decide
  have hstops : ∀ ts, Stops 1 (.symbol close :: ts) := by
    intro ts
    refine stops_closing ?_ (Nat.le_refl 1) ts
    simp only [List.mem_cons, List.not_mem_nil, or_false] at hclose ⊢
    tauto
  induction ms generalizing m with
  | nil =>
    show grammar.items close (commas [m.placed 1 m.print] ++ .symbol close :: rest) = _
    rw [commas_singleton]
    refine items_last (hsymbols close hclose).1 ?_
    exact (h m List.mem_cons_self).within (Nat.le_refl 1) (by decide) (hstops rest)
  | cons n ms ih =>
    show grammar.items close (commas (m.placed 1 m.print :: n.placed 1 n.print ::
      Node.printItems ms) ++ .symbol close :: rest) = _
    rw [commas_cons_cons, List.append_assoc]
    refine items_cons (hsymbols close hclose).2 ?_ (ih fun k hk => h k (List.mem_cons_of_mem m hk))
    exact (h m List.mem_cons_self).within (Nat.le_refl 1) (by decide)
      (stops_closing (by decide) (Nat.le_refl 1) _)

theorem list {close : String} (hclose : close ∈ [")", "]"]) {ms : List Node}
    (h : ∀ n ∈ ms, Reads n) (rest : List Token) :
    grammar.list close (commas (Node.printItems ms) ++ .symbol close :: rest) =
      .ok (Node.eraseAll ms) rest := by
  cases ms with
  | nil =>
    have hsymbol : (Token.symbol close).isSymbol close = true := by
      have hall : ∀ close ∈ [")", "]"], (Token.symbol close).isSymbol close = true := by decide
      exact hall close hclose
    show (accept close >>= _) (.symbol close :: rest) = _
    rw [bind_of_ok (accept_of_symbol hsymbol rest)]
    rfl
  | cons m ms =>
    have hbegins : Begins (commas (Node.printItems (m :: ms)) ++ .symbol close :: rest) := by
      have hfirst := Node.begins_placed (h m List.mem_cons_self).begins (n := m) 1
      cases ms with
      | nil =>
        show Begins (commas [m.placed 1 m.print] ++ _)
        rw [commas_singleton]
        exact hfirst.append _
      | cons n ms =>
        show Begins (commas (m.placed 1 m.print :: n.placed 1 n.print :: Node.printItems ms) ++ _)
        rw [commas_cons_cons, List.append_assoc]
        exact hfirst.append _
    have hcloser : close ∈ [")", "]", "\x7d", ";"] := by
      simp only [List.mem_cons, List.not_mem_nil, or_false] at hclose ⊢
      tauto
    have hnot := hbegins.not_symbol hcloser
    show (accept close >>= _) _ = _
    rw [bind_of_ok (accept_of_not_symbol hnot)]
    exact items hclose h rest

theorem block {ns : List Node} (h : ∀ n ∈ ns, Reads n) (rest : List Token) :
    grammar.block (Node.printBody ns ++ .symbol "\x7d" :: rest) = .ok (Node.eraseAll ns) rest := by
  induction ns with
  | nil => exact block_nil rest
  | cons n ns ih =>
    have hn := h n List.mem_cons_self
    show grammar.block ((n.print ++ .symbol ";" :: Node.printBody ns) ++ _) = _
    rw [List.append_assoc]
    refine block_cons (hn.begins.append _) (hn.whole ?_) (ih fun m hm => h m (List.mem_cons_of_mem n hm))
    exact stops_closing (by decide) (Nat.le_refl 1) _

theorem statements {ns : List Node} (h : ∀ n ∈ ns, Reads n) :
    grammar.statements (Node.printBody ns ++ [.ending]) = .ok (Node.eraseAll ns) [.ending] := by
  induction ns with
  | nil => exact statements_nil []
  | cons n ns ih =>
    have hn := h n List.mem_cons_self
    show grammar.statements ((n.print ++ .symbol ";" :: Node.printBody ns) ++ _) = _
    rw [List.append_assoc]
    refine statements_cons (hn.begins.append _) (hn.whole ?_) (ih fun m hm => h m (List.mem_cons_of_mem n hm))
    exact stops_closing (by decide) (Nat.le_refl 1) _

/-! ### Operators -/

theorem stops_symbol (op : BinaryOp) (rest : List Token) :
    Stops (op.level + 1) (.symbol op.symbol :: rest) := by
  refine .cons ?_ rest
  cases op <;> decide +kernel

/-- The signs of the tiers above the binary operators, each behind an operand of the tier below. -/
theorem stops_sign {level : Nat} {text : String}
    (h : (level, text) ∈ [(5, "&&"), (4, "||"), (3, "?"), (2, "=")]) (rest : List Token) :
    Stops level (.symbol text :: rest) := by
  have hnone : ∀ sign ∈ [(5, "&&"), (4, "||"), (3, "?"), (2, "=")], ∀ entry ∈ continuations,
      (Token.symbol sign.2).isSymbol entry.1 = true → entry.2 < sign.1 := by decide +kernel
  exact .cons (hnone _ h) rest

theorem find_symbol (op : BinaryOp) : ∃ k, ∃ hk : k < tiers.length, op.level = k + 3 ∧
    tiers[k].find? (fun entry => (Token.symbol op.symbol).isSymbol entry.1) =
      some (op.symbol, .op op) := by
  cases op with
  | bitOr => exact ⟨2, by decide, rfl, by rfl⟩
  | bitXor => exact ⟨3, by decide, rfl, by rfl⟩
  | bitAnd => exact ⟨4, by decide, rfl, by rfl⟩
  | eq | ne => exact ⟨5, by decide, rfl, by rfl⟩
  | lt | le | gt | ge => exact ⟨6, by decide, rfl, by rfl⟩
  | shl | shr => exact ⟨7, by decide, rfl, by rfl⟩
  | add | sub => exact ⟨8, by decide, rfl, by rfl⟩
  | mul | div | mod => exact ⟨9, by decide, rfl, by rfl⟩

/-- Two printed operands with the symbol of a tier between them. -/
theorem join {k : Nat} (hk : k < tiers.length) {text : String} {c : Connective} {a b : Node}
    (ha : Reads a) (hb : Reads b)
    (hsymbol : tiers[k].find? (fun entry => (Token.symbol text).isSymbol entry.1) = some (text, c))
    (hstops : ∀ rest, Stops (k + 4) (.symbol text :: rest)) {rest : List Token}
    (hrest : Stops (k + 3) rest) :
    reader (k + 3) (a.placed (k + 4) a.print ++ .symbol text :: b.placed (k + 3) b.print ++ rest) =
      .ok (c.join 0 a.erase b.erase) rest := by
  have hle : k < 10 := hk
  rw [List.append_assoc]
  refine reader_join hk hsymbol ?_ (hb.within (by omega) (by omega) hrest)
  exact ha.within (by omega) (by omega) (hstops _)

theorem binary (l : Nat) (op : BinaryOp) {a b : Node} (ha : Reads a) (hb : Reads b) :
    Reads (.binary l op a b) := by
  obtain ⟨k, hk, hlevel, hsymbol⟩ := find_symbol op
  have hle : k < 10 := hk
  refine of_level ((Node.begins_placed ha.begins _).append _) hlevel (by omega) (by omega) ?_
  intro rest hrest
  have hstops : ∀ rest, Stops (k + 4) (.symbol op.symbol :: rest) := by
    intro rest
    have h := stops_symbol op rest
    rwa [hlevel] at h
  have h := join hk ha hb hsymbol hstops hrest
  show reader (k + 3) (a.placed (op.level + 1) a.print ++ .symbol op.symbol ::
    b.placed op.level b.print ++ rest) = _
  rw [hlevel]
  exact h

theorem and (l : Nat) {a b : Node} (ha : Reads a) (hb : Reads b) : Reads (.and l a b) := by
  refine of_level (k := 4) ((Node.begins_placed ha.begins _).append _) rfl (by decide) (by decide) ?_
  have hsymbol : tiers[1].find? (fun entry => (Token.symbol "&&").isSymbol entry.1) =
      some ("&&", .and) := by rfl
  intro rest hrest
  exact join (k := 1) (by decide) ha hb hsymbol
    (fun rest => stops_sign (by simp) rest) hrest

theorem or (l : Nat) {a b : Node} (ha : Reads a) (hb : Reads b) : Reads (.or l a b) := by
  refine of_level (k := 3) ((Node.begins_placed ha.begins _).append _) rfl (by decide) (by decide) ?_
  have hsymbol : tiers[0].find? (fun entry => (Token.symbol "||").isSymbol entry.1) =
      some ("||", .or) := by rfl
  intro rest hrest
  exact join (k := 0) (by decide) ha hb hsymbol
    (fun rest => stops_sign (by simp) rest) hrest

theorem ternary (l : Nat) {c a b : Node} (hc : Reads c) (ha : Reads a) (hb : Reads b) :
    Reads (.ternary l c a b) := by
  refine of_level (k := 2) ((Node.begins_placed hc.begins _).append _) rfl (by decide) (by decide) ?_
  intro rest hrest
  show reader 2 (c.placed 3 c.print ++ .symbol "?" :: (a.placed 1 a.print ++ .symbol ":" ::
    b.placed 2 b.print) ++ rest) = _
  simp only [List.append_assoc, List.cons_append]
  refine choice_ternary (hc.within (by decide) (by decide) (stops_sign (by simp) _))
    (ha.within (by decide) (by decide) (stops_closing (by decide) (by decide) _)) ?_
  exact hb.within (by decide) (by decide) hrest

theorem assign (l : Nat) {t v : Node} (htarget : t.isAssignable = true) (ht : Reads t)
    (hv : Reads v) : Reads (.assign l t v) := by
  refine of_level (k := 1) ((Node.begins_placed ht.begins _).append _) rfl (by decide) (by decide) ?_
  intro rest hrest
  show reader 1 (t.placed 2 t.print ++ .symbol "=" :: v.placed 1 v.print ++ rest) = _
  rw [List.append_assoc]
  refine assignment_assign (ht.within (by decide) (by decide) (stops_sign (by simp) _)) ?_ ?_
  · rwa [Node.isAssignable_erase]
  · exact hv.within (by decide) (by decide) hrest

/-! ### Signs and suffixes -/

theorem integer (l : Nat) (v : Int) : Reads (.integer l v) := by
  have hnumber : ∀ rest, grammar.sign (.number v.natAbs :: rest) =
      grammar.suffixed (.integer 0 v.natAbs) rest :=
    fun rest => sign_of_operand (by rfl) (operand_number v.natAbs rest)
  by_cases hv : v < 0
  · -- The sign is read first and then taken into the literal.
    have hprint : (Node.integer l v).print = [.symbol "-", .number v.natAbs] := by
      rw [Node.print, if_pos hv]
    have hlevel : (Node.integer l v).level = 13 := by rw [Node.level, if_pos hv]
    refine of_level ?_ hlevel (by decide) (by decide) ?_
    · rw [hprint]
      exact .cons (by decide) _
    · intro rest hrest
      rw [hprint]
      have hminus := sign_minus ((hnumber rest).trans (suffixed_of_stops (hrest.mono (by decide)) _))
      have hvalue : -(v.natAbs : Int) = v := by omega
      rw [Node.negate, hvalue] at hminus
      exact hminus
  · have hprint : (Node.integer l v).print = [.number v.natAbs] := by
      rw [Node.print, if_neg hv]
    have hlevel : (Node.integer l v).level = 15 := by rw [Node.level, if_neg hv]
    refine of_base ?_ hlevel (by decide) ?_
    · rw [hprint]
      exact .cons rfl _
    · intro rest
      have hvalue : (v.natAbs : Int) = v := by omega
      have h := hnumber rest
      rw [hvalue] at h
      rw [hprint]
      exact h

theorem step (l : Nat) (op : StepOp) (leading : Bool) {t : Node} (ht : Reads t) :
    Reads (.step l op leading t) := by
  cases leading with
  | true =>
    refine of_level (k := 13) ?_ rfl (by decide) (by decide) ?_
    · refine .cons ?_ _
      cases op <;> decide
    · intro rest hrest
      have htarget := ht.within (by decide) (by decide) hrest
      exact sign_step op htarget
  | false =>
    refine of_base (k := 14) ((Node.begins_placed ht.begins _).append _) rfl (by decide) ?_
    intro rest
    show grammar.sign (t.placed 14 t.print ++ [.symbol op.symbol] ++ rest) = _
    rw [List.append_assoc, ht.base]
    exact suffixed_step op t.erase rest

theorem call (l : Nat) {f : Node} {args : List Node} (hf : Reads f) (hargs : ∀ n ∈ args, Reads n) :
    Reads (.call l f args) := by
  refine of_base (k := 14) ((Node.begins_placed hf.begins _).append _) rfl (by decide) ?_
  intro rest
  show grammar.sign (f.placed 14 f.print ++ .symbol "(" :: (commas (Node.printItems args) ++
    [.symbol ")"]) ++ rest) = _
  simp only [List.append_assoc, List.cons_append, List.nil_append]
  rw [hf.base]
  exact suffixed_call f.erase (list (by decide) hargs rest)

theorem index (l : Nat) {b i : Node} (hb : Reads b) (hi : Reads i) : Reads (.index l b i) := by
  refine of_base (k := 14) ((Node.begins_placed hb.begins _).append _) rfl (by decide) ?_
  intro rest
  show grammar.sign (b.placed 14 b.print ++ .symbol "[" :: (i.placed 1 i.print ++
    [.symbol "]"]) ++ rest) = _
  simp only [List.append_assoc, List.cons_append, List.nil_append]
  rw [hb.base]
  refine suffixed_index b.erase ?_
  exact hi.within (by decide) (by decide) (stops_closing (by decide) (by decide) _)

/-! ### Atoms -/

theorem identifier (l : Nat) (x : String) : Reads (.identifier l x) :=
  of_base (k := 15) (.cons rfl _) rfl (by decide) fun rest => sign_of_operand (by rfl) (operand_identifier x rest)

theorem string (l : Nat) {s : String} (h : Quoted.decode (Quoted.encode s) = s) :
    Reads (.string l s) :=
  of_base (k := 15) (.cons rfl _) rfl (by decide) fun rest => sign_of_operand (by rfl) (operand_literal h rest)

theorem array (l : Nat) {es : List Node} (h : ∀ n ∈ es, Reads n) : Reads (.array l es) := by
  refine of_base (k := 15) (.cons (by decide) _) rfl (by decide) ?_
  intro rest
  show grammar.sign (.symbol "[" :: (commas (Node.printItems es) ++ [.symbol "]"]) ++ rest) = _
  simp only [List.append_assoc, List.cons_append, List.nil_append]
  exact sign_of_operand (by decide) (operand_array (list (by decide) h rest))

/-! ### Statements -/

/-- An operand without signs and suffixes is a whole statement. -/
theorem whole_of_operand {t : Token} {ts rest : List Token} {m : Node}
    (hsign : signs.find? (fun entry => t.isSymbol entry.1) = none)
    (h : grammar.operand (t :: ts) = .ok m rest) (hstop : Stops 1 rest) :
    reader 1 (t :: ts) = .ok m rest :=
  within_of_sign (sign_of_operand hsign h) (Nat.le_refl 1) (by decide) hstop

theorem ret (l : Nat) {v : Node} (hv : Reads v) : Reads (.ret l v) := by
  refine of_whole (.cons (by decide) _) rfl ?_
  intro rest hstop
  refine whole_of_operand (by decide) (operand_ret ?_) hstop
  exact hv.within (Nat.le_refl 1) (by decide) hstop

/-- A condition in parentheses, with a body behind it. -/
theorem condition {c : Node} (hc : Reads c) (rest : List Token) :
    reader 1 (c.placed 1 c.print ++ .symbol ")" :: rest) = .ok c.erase (.symbol ")" :: rest) :=
  hc.within (Nat.le_refl 1) (by decide) (stops_closing (by decide) (Nat.le_refl 1) rest)

theorem loop (l : Nat) {c : Node} {body : List Node} (hc : Reads c) (hbody : ∀ n ∈ body, Reads n) :
    Reads (.loop l c body) := by
  refine of_whole (.cons (by decide) _) rfl ?_
  intro rest hstop
  show reader 1 (.symbol "while" :: .symbol "(" :: (c.placed 1 c.print ++ .symbol ")" ::
    braces (Node.printBody body)) ++ rest) = _
  simp only [braces, List.append_assoc, List.cons_append, List.nil_append]
  exact whole_of_operand (by decide) (operand_loop (condition hc _) (block hbody rest)) hstop

theorem branch (l : Nat) {c : Node} {t e : List Node} (hc : Reads c) (ht : ∀ n ∈ t, Reads n)
    (he : ∀ n ∈ e, Reads n) : Reads (.branch l c t e) := by
  refine of_whole (.cons (by decide) _) rfl ?_
  intro rest hstop
  rw [Node.print]
  simp only [braces, List.append_assoc, List.cons_append, List.nil_append]
  refine whole_of_operand (by decide) ?_ hstop
  cases e with
  | nil =>
    rw [List.isEmpty_nil, if_pos rfl, List.nil_append]
    exact operand_branch (condition hc _) (block ht rest) hstop
  | cons n ns =>
    rw [List.isEmpty_cons, if_neg (by decide)]
    simp only [List.append_assoc, List.cons_append, List.nil_append]
    exact operand_branches (condition hc _) (block ht _) (block he rest)

theorem function (l : Nat) (x : Option String) (ps : List String) {body : List Node}
    (hbody : ∀ n ∈ body, Reads n) : Reads (.function l x ps body) := by
  refine of_whole (.cons (by decide) _) rfl ?_
  intro rest hstop
  show reader 1 (.symbol "func" :: (x.toList.map Token.name ++ .symbol "(" ::
    (commas (ps.map fun p => [Token.name p]) ++ .symbol ")" :: braces (Node.printBody body))) ++
      rest) = _
  simp only [braces, List.append_assoc, List.cons_append, List.nil_append]
  exact whole_of_operand (by decide)
    (operand_function (params_of_names ps _) (block hbody rest)) hstop

end Reads

/-- Whatever can be written is read back. -/
theorem Node.Expressible.reads {n : Node} (h : n.Expressible) : Reads n := by
  induction h with
  | @integer l v _ _ => exact .integer l v
  | string l s => exact .string l (Quoted.decode_encode s)
  | @identifier l x _ => exact .identifier l x
  | binary l op _ _ iha ihb => exact .binary l op iha ihb
  | and l _ _ iha ihb => exact .and l iha ihb
  | or l _ _ iha ihb => exact .or l iha ihb
  | assign l htarget _ _ iht ihv => exact .assign l htarget iht ihv
  | branch l _ _ _ ihc iht ihe => exact .branch l ihc iht ihe
  | ternary l _ _ _ ihc iht ihe => exact .ternary l ihc iht ihe
  | loop l _ _ ihc ih => exact .loop l ihc ih
  | @function l x ps _ _ _ _ ih => exact .function l x ps ih
  | call l _ _ ihf ih => exact .call l ihf ih
  | ret l _ ih => exact .ret l ih
  | step l op leading _ ih => exact .step l op leading ih
  | array l _ ih => exact .array l ih
  | index l _ _ ihb ihi => exact .index l ihb ihi

/-! ## Tokens somewhere else -/

namespace Node

theorem erase_negate (l : Nat) (n : Node) : (n.negate l).erase = n.erase.negate 0 := by
  cases n <;> rfl

theorem erase_join (l : Nat) (a b : Node) (c : Connective) :
    (c.join l a b).erase = c.join 0 a.erase b.erase := by
  cases c <;> rfl

theorem erase_erase (n : Node) : n.erase.erase = n.erase := by
  have hall : ∀ ns : List Node, (∀ n ∈ ns, n.erase.erase = n.erase) →
      eraseAll (eraseAll ns) = eraseAll ns := by
    intro ns h
    rw [eraseAll_eq_map, eraseAll_eq_map, List.map_map]
    exact List.map_congr_left h
  induction n using Node.induction with
  | program l body ih => simp [erase, hall body ih]
  | integer l v => rfl
  | string l v => rfl
  | identifier l x => rfl
  | binary l op a b iha ihb => simp [erase, iha, ihb]
  | and l a b iha ihb => simp [erase, iha, ihb]
  | or l a b iha ihb => simp [erase, iha, ihb]
  | assign l t v iht ihv => simp [erase, iht, ihv]
  | branch l c t e ihc iht ihe => simp [erase, ihc, hall t iht, hall e ihe]
  | ternary l c t e ihc iht ihe => simp [erase, ihc, iht, ihe]
  | loop l c body ihc ih => simp [erase, ihc, hall body ih]
  | function l x ps body ih => simp [erase, hall body ih]
  | call l f args ihf ih => simp [erase, ihf, hall args ih]
  | ret l v ih => simp [erase, ih]
  | step l op leading t ih => simp [erase, ih]
  | array l es ih => simp [erase, hall es ih]
  | index l b i ihb ihi => simp [erase, ihb, ihi]

end Node

namespace Likeness

/-- Tokens and trees are alike if they differ only in their offsets. -/
def placeless : Likeness where
  loc _ _ := True
  token := Token.Same
  node m n := n.erase = m.erase
  name _ := True

theorem placeless_nodes {xs ys : List Node} (h : List.Forall₂ placeless.node xs ys) :
    Node.eraseAll ys = Node.eraseAll xs := by
  induction h with
  | nil => rfl
  | cons hnode _ ih =>
    have hfirst : _ = _ := hnode
    rw [Node.eraseAll, Node.eraseAll, hfirst, ih]

theorem placeless_lawful : placeless.Lawful where
  kind h := h.1
  text h := h.2.1
  value h := h.2.2
  loc_token _ := trivial
  loc_node _ := trivial
  construct {m n} h := by
    have herase : n.erase = m.erase := h
    rw [← Node.construct_erase, herase, Node.construct_erase]
  name _ _ := trivial
  identifier _ _ := rfl
  string _ _ := rfl
  number _ _ _ := rfl
  constant _ _ := rfl
  negate {t u m n} _ h := by
    have herase : n.erase = m.erase := h
    show (n.negate u.loc).erase = (m.negate t.loc).erase
    rw [Node.erase_negate, Node.erase_negate, herase]
  join {t u a a' b b'} c _ ha hb := by
    have hera : a'.erase = a.erase := ha
    have herb : b'.erase = b.erase := hb
    show (c.join u.loc a' b').erase = (c.join t.loc a b).erase
    rw [Node.erase_join, Node.erase_join, hera, herb]
  assign _ _ ha hb := congrArg₂ (Node.assign 0) ha hb
  branch _ hc hxs hys := by
    show Node.branch 0 _ _ _ = Node.branch 0 _ _ _
    rw [placeless_nodes hxs, placeless_nodes hys, show _ = _ from hc]
  ternary _ hc ha hb := by
    show Node.ternary 0 _ _ _ = Node.ternary 0 _ _ _
    rw [show _ = _ from hc, show _ = _ from ha, show _ = _ from hb]
  loop _ hc hxs := congrArg₂ (Node.loop 0) hc (placeless_nodes hxs)
  function _ _ _ hxs := congrArg (Node.function 0 _ _) (placeless_nodes hxs)
  call _ hf hxs := congrArg₂ (Node.call 0) hf (placeless_nodes hxs)
  ret _ ha := congrArg (Node.ret 0) ha
  step op leading _ ha := congrArg (Node.step 0 op leading) ha
  array _ hxs := congrArg (Node.array 0) (placeless_nodes hxs)
  index _ ha hb := congrArg₂ (Node.index 0) ha hb

end Likeness

/-! ## Texts -/

/-- Tokens that differ only in their offsets are read as the same program. -/
theorem program_of_same {ts us : List Token} (h : List.Forall₂ Token.Same ts us)
    {ns : List Node} {rest : List Token} (hns : grammar.statements ts = .ok ns rest) :
    ∃ ms rest', program us = .ok (.program 0 ms) rest' ∧ Node.eraseAll ms = Node.eraseAll ns := by
  have hrun := (alike_rules Likeness.placeless_lawful (Nat.le_refl ts.length)
    (Nat.le_of_eq h.length_eq)).statements ts us h (Nat.le_refl _)
  have hfirst : (rules ts.length).statements ts = .ok ns rest := hns
  rw [hfirst] at hrun
  cases hsecond : (rules us.length).statements us with
  | error e rest' =>
    rw [hsecond] at hrun
    exact hrun.elim
  | ok ms rest' =>
    rw [hsecond] at hrun
    exact ⟨ms, rest', bind_of_ok hsecond, Likeness.placeless_nodes hrun.1⟩

/-- Parsing undoes printing: the text of a program is read as that program, up to the places at which
its parts stand. -/
theorem parse_print (l : Nat) (body : List Node) (h : ∀ n ∈ body, n.Expressible) :
    ∃ tokens n, tokenize (Node.program l body).text = .ok tokens ∧
      parse (Node.program l body).text.utf8ByteSize tokens = .ok n ∧
      n.erase = (Node.program l body).erase := by
  have hlexemes : ∀ t ∈ (Node.program l body).print, t.IsLexeme :=
    Node.isLexeme_printBody fun n hn => (h n hn).isLexeme
  obtain ⟨tokens, htokens, hsame⟩ := tokenize_lexemes hlexemes
  have hread : grammar.statements ((Node.program l body).print ++ [.ending]) =
      .ok (Node.eraseAll body) [.ending] := Reads.statements fun n hn => (h n hn).reads
  obtain ⟨ms, rest, hprogram, hms⟩ := program_of_same hsame hread
  refine ⟨tokens, .program 0 ms, htokens, ?_, ?_⟩
  · rw [parse, Parser.outcome, hprogram]
  · have herase := (Node.program l body).erase_erase
    have hbody : Node.eraseAll (Node.eraseAll body) = Node.eraseAll body :=
      (Node.program.inj herase).2
    show Node.program 0 (Node.eraseAll ms) = Node.program 0 (Node.eraseAll body)
    rw [hms, hbody]

/-- Statements in which tight constructs hold looser ones. -/
def looseStatements : List Node :=
  [.assign 1 (.index 2 (.identifier 3 "a") (.integer 4 (-1)))
     (.binary 5 .mul (.binary 6 .add (.integer 7 2) (.integer 8 3))
       (.step 9 .inc false (.string 10 "x\"y"))),
   .branch 11 (.or 12 (.identifier 13 "b") (.ret 14 (.integer 15 (-9223372036854775807))))
     [.call 16 (.function 17 (some "f") ["x", "y"] []) [.ternary 18 (.identifier 19 "x")
       (.assign 20 (.identifier 21 "y") (.integer 22 0)) (.array 23 [])]] []]

theorem parse_print_looseStatements :
    (Node.program 0 looseStatements).text =
      "a [ - 1 ] = ( 2 + 3 ) * \"x\\\"y\" ++ ; if ( b || ( return - 9223372036854775807 ) ) \x7b " ++
        "( func f ( x , y ) \x7b \x7d ) ( x ? y = 0 : [ ] ) ; \x7d ;" ∧
    ∃ tokens n, tokenize (Node.program 0 looseStatements).text = .ok tokens ∧
      parse (Node.program 0 looseStatements).text.utf8ByteSize tokens = .ok n ∧
      n.erase = (Node.program 0 looseStatements).erase := by
  refine ⟨by decide +kernel, parse_print 0 looseStatements ?_⟩
  have hname : ∀ x ∈ ["a", "b", "f", "x", "y"], isIdentifier x = true := by decide +kernel
  have hinteger : ∀ l, ∀ v ∈ [(-1 : Int), 2, 3, -9223372036854775807, 0],
      (Node.integer l v).Expressible := by
    have hvalue : ∀ v ∈ [(-1 : Int), 2, 3, -9223372036854775807, 0],
        -maxInteger ≤ v ∧ v ≤ maxInteger := by decide
    exact fun l v hv => .integer l (hvalue v hv).1 (hvalue v hv).2
  have hnone : ∀ n ∈ ([] : List Node), n.Expressible := fun n hn => absurd hn List.not_mem_nil
  have hplace : (Node.index 2 (.identifier 3 "a") (.integer 4 (-1))).Expressible :=
    .index 2 (.identifier 3 (hname _ (by simp))) (hinteger 4 _ (by simp))
  have hsum : (Node.binary 6 .add (.integer 7 2) (.integer 8 3)).Expressible :=
    .binary 6 .add (hinteger 7 _ (by simp)) (hinteger 8 _ (by simp))
  have hcallee : (Node.function 17 (some "f") ["x", "y"] []).Expressible := by
    refine .function 17 ?_ ?_ hnone
    · rintro y ⟨⟩
      exact hname "f" (by simp)
    · exact fun p hp => hname p (by simp at hp ⊢; tauto)
  have hargument : (Node.ternary 18 (.identifier 19 "x")
      (.assign 20 (.identifier 21 "y") (.integer 22 0)) (.array 23 [])).Expressible :=
    .ternary 18 (.identifier 19 (hname _ (by simp)))
      (.assign 20 rfl (.identifier 21 (hname _ (by simp))) (hinteger 22 _ (by simp)))
      (.array 23 hnone)
  have hcond : (Node.or 12 (.identifier 13 "b")
      (.ret 14 (.integer 15 (-9223372036854775807)))).Expressible :=
    .or 12 (.identifier 13 (hname _ (by simp))) (.ret 14 (hinteger 15 _ (by simp)))
  simp only [looseStatements, List.forall_mem_cons]
  refine ⟨.assign 1 rfl hplace (.binary 5 .mul hsum (.step 9 .inc false (.string 10 _))),
    .branch 11 hcond ?_ hnone, hnone⟩
  refine List.forall_mem_singleton.2 (.call 16 hcallee ?_)
  exact List.forall_mem_singleton.2 hargument

end BatchCompiler
