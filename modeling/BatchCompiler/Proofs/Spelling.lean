/-
# BatchCompiler.Proofs.Spelling -- what is different is spelled differently

The shell knows variables and labels by their spelling only. The compiler keeps what it makes up
apart from what the user names by reserving spellings: two underscores at the front, or `lbl` and a
number. This is enough: a name or a label that respects the reservation can be read back from its
spelling (`Name.read_render`, `Label.read_render`), so no two of them are spelled alike.
-/

import BatchCompiler.Script.Line

namespace BatchCompiler

/-! ## Numbers -/

/-- The number that a row of digits spells. -/
def readNumber (digits : List Char) : Nat := Nat.ofDigitChars 10 digits 0

@[simp] theorem readNumber_toDigits (n : Nat) : readNumber (Nat.toDigits 10 n) = n :=
  Nat.ofDigitChars_ten_toDigits

theorem isDigit_of_mem_digits {n : Nat} {c : Char} (h : c ∈ Nat.toDigits 10 n) :
    c.isDigit = true :=
  Nat.isDigit_of_mem_toDigits (by decide) (by decide) h

/-- A number ends where the digits end. -/
theorem span_digits_append (n : Nat) {rest : List Char} (h : ∀ c ∈ rest.head?, c.isDigit = false) :
    (Nat.toDigits 10 n ++ rest).takeWhile Char.isDigit = Nat.toDigits 10 n ∧
      (Nat.toDigits 10 n ++ rest).dropWhile Char.isDigit = rest := by
  rw [List.takeWhile_append_of_pos fun c hc => isDigit_of_mem_digits hc,
    List.dropWhile_append_of_pos fun c hc => isDigit_of_mem_digits hc]
  cases rest with
  | nil => simp
  | cons c rest =>
    have hc : c.isDigit = false := h c (by simp)
    simp [hc]

/-! ## Variables -/

/-- The name keeps to the reservation: the user's names are not spelled like the compiler's. -/
def Name.IsProper : Name → Prop
  | user text => isReservedName text = false
  | temp _ => True

/-- The name that is spelled so. -/
def Name.read (text : String) : Name :=
  match text.toList with
  | '_' :: '_' :: digits => .temp (readNumber digits)
  | _ => .user text

theorem isReservedName_render_temp (n : Nat) : isReservedName (Name.temp n).render = true := by
  simp [isReservedName, Name.render]

theorem Name.read_render {x : Name} (h : x.IsProper) : Name.read x.render = x := by
  cases x with
  | user text =>
    have htext : isReservedName text = false := h
    unfold isReservedName at htext
    unfold Name.read Name.render
    -- A name that is not reserved starts neither with two underscores nor with `lbl` and digits.
    split at htext
    next => cases htext
    next heq => simp [heq]
    next hfront _ =>
      split
      next digits heq => exact absurd heq (hfront digits)
      next => rfl
  | temp n => simp [Name.read, Name.render]

/-- Names that keep to the reservation are spelled alike only if they are the same. -/
theorem Name.render_inj {x y : Name} (hx : x.IsProper) (hy : y.IsProper)
    (h : x.render = y.render) : x = y := by
  rw [← Name.read_render hx, h, Name.read_render hy]

/-! ## Labels -/

/-- The label keeps to the reservation. The end of the script is not among them: no line of the
script defines it. -/
def Label.IsProper : Label → Prop
  | loop _ => True
  | entry f => f.IsProper
  | behind f => f.IsProper
  | exit (.temp _) => True
  | behindExit (.temp _) => True
  | _ => False

/-- The label of a temporary whose number is followed by this many characters. -/
def Label.ofTailLength (p : Name) : Nat → Label
  | 0 => .entry p
  | 6 => .exit p
  | _ => .behindExit p

/-- The label that is spelled with two underscores and then so. -/
def Label.readUnderscored : List Char → Label
  | 'a' :: 'f' :: 't' :: 'e' :: 'r' :: '_' :: f => .behind (.read (.ofList f))
  | rest =>
    .ofTailLength (.temp (readNumber (rest.takeWhile Char.isDigit)))
      (rest.dropWhile Char.isDigit).length

/-- The label that is spelled so. -/
def Label.read (text : String) : Label :=
  if isReservedName text then
    match text.toList with
    | '_' :: '_' :: rest => .readUnderscored rest
    | _ :: _ :: _ :: digits => .loop (readNumber digits)
    | _ => .eof
  else .entry (.user text)

/-- A label that hangs on a temporary is spelled by the number and a tail that tells the kind. -/
theorem Label.read_of_number {l : Label} (n : Nat) {tail : List Char}
    (htail : ∀ c ∈ tail.head?, c.isDigit = false)
    (h : l.render.toList = '_' :: '_' :: (Nat.toDigits 10 n ++ tail)) :
    Label.read l.render = .ofTailLength (.temp n) tail.length := by
  have hread : Label.read l.render = .readUnderscored (Nat.toDigits 10 n ++ tail) := by
    simp [Label.read, isReservedName, h]
  rw [hread]
  unfold Label.readUnderscored
  split
  next heq =>
    -- A number does not start with a letter.
    have hmem : 'a' ∈ Nat.toDigits 10 n := by
      cases hn : Nat.toDigits 10 n with
      | nil => exact absurd hn Nat.toDigits_ne_nil
      | cons d ds =>
        rw [hn] at heq
        obtain ⟨rfl, -⟩ := List.cons.inj heq
        exact List.mem_cons_self
    exact absurd (isDigit_of_mem_digits hmem) (by decide)
  next =>
    rw [(span_digits_append n htail).1, (span_digits_append n htail).2, readNumber_toDigits]

theorem isReservedName_render_loop (n : Nat) : isReservedName (Label.loop n).render = true := by
  unfold isReservedName Label.render
  cases hn : Nat.toDigits 10 n with
  | nil => exact absurd hn Nat.toDigits_ne_nil
  | cons d ds =>
    have hall : ∀ c ∈ d :: ds, c.isDigit = true := fun c hc => isDigit_of_mem_digits (hn ▸ hc)
    simpa [hn] using hall

/-- A label that keeps to the reservation can be read back from its spelling. -/
theorem Label.read_render {l : Label} (h : l.IsProper) : Label.read l.render = l := by
  cases l with
  | loop n =>
    unfold Label.read
    rw [if_pos (isReservedName_render_loop n)]
    simp [Label.render]
  | entry f =>
    cases f with
    | user text =>
      have htext : isReservedName text = false := h
      simp [Label.read, Label.render, Name.render, htext]
    | temp n =>
      have hspell : (Label.entry (.temp n)).render.toList =
          '_' :: '_' :: (Nat.toDigits 10 n ++ []) := by
        simp [Label.render, Name.render]
      rw [Label.read_of_number n (by simp) hspell]
      rfl
  | behind f =>
    have hf : Name.read f.render = f := Name.read_render h
    simp [Label.read, Label.readUnderscored, Label.render, isReservedName, hf]
  | exit p =>
    cases p with
    | user _ => exact absurd h id
    | temp n =>
      have hspell : (Label.exit (.temp n)).render.toList =
          '_' :: '_' :: (Nat.toDigits 10 n ++ "[exit]".toList) := by
        simp [Label.render, Name.render]
      rw [Label.read_of_number n (by simp) hspell]
      rfl
  | behindExit p =>
    cases p with
    | user _ => exact absurd h id
    | temp n =>
      have hspell : (Label.behindExit (.temp n)).render.toList =
          '_' :: '_' :: (Nat.toDigits 10 n ++ "[exit]_".toList) := by
        simp [Label.render, Name.render]
      rw [Label.read_of_number n (by simp) hspell]
      rfl
  | eof => exact absurd h id

/-- Labels that keep to the reservation are spelled alike only if they are the same. -/
theorem Label.render_inj {k l : Label} (hk : k.IsProper) (hl : l.IsProper)
    (h : k.render = l.render) : k = l := by
  rw [← Label.read_render hk, h, Label.read_render hl]

end BatchCompiler
