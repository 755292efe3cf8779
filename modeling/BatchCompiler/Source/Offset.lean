/-
# BatchCompiler.Source.Offset -- byte offsets into a text

A place in a source text is the number of UTF-8 bytes in front of it. All reading is done on the
list of characters; this module measures such a list in bytes and cuts it at an offset. An offset
that falls inside a character is rounded down to the start of that character.
-/

namespace BatchCompiler

/-! ## Size -/

/-- The number of bytes that the characters take in UTF-8. -/
def byteSize : List Char → Nat
  | [] => 0
  | c :: cs => c.utf8Size + byteSize cs

@[simp] theorem byteSize_nil : byteSize [] = 0 := rfl

@[simp] theorem byteSize_cons (c : Char) (cs : List Char) :
    byteSize (c :: cs) = c.utf8Size + byteSize cs := rfl

@[simp] theorem byteSize_append (cs ds : List Char) :
    byteSize (cs ++ ds) = byteSize cs + byteSize ds := by
  induction cs with
  | nil => simp
  | cons c cs ih => simp [ih, Nat.add_assoc]

/-! ## Cutting at an offset -/

/-- The longest run of leading characters that fits into `n` bytes. -/
def takeBytes : Nat → List Char → List Char
  | _, [] => []
  | n, c :: cs => if c.utf8Size ≤ n then c :: takeBytes (n - c.utf8Size) cs else []

/-- What follows the longest run of leading characters that fits into `n` bytes. -/
def dropBytes : Nat → List Char → List Char
  | _, [] => []
  | n, c :: cs => if c.utf8Size ≤ n then dropBytes (n - c.utf8Size) cs else c :: cs

/-- A cut loses nothing. -/
theorem takeBytes_append_dropBytes (n : Nat) (cs : List Char) :
    takeBytes n cs ++ dropBytes n cs = cs := by
  induction cs generalizing n with
  | nil => rfl
  | cons c cs ih =>
    rw [takeBytes, dropBytes]
    split
    · simp [ih]
    · rfl

/-- What is taken fits. -/
theorem byteSize_takeBytes_le (n : Nat) (cs : List Char) : byteSize (takeBytes n cs) ≤ n := by
  induction cs generalizing n with
  | nil => simp [takeBytes]
  | cons c cs ih =>
    rw [takeBytes]
    split
    next h => have := ih (n - c.utf8Size); simp only [byteSize_cons]; omega
    next => simp

/-- The part of `source` that starts at byte `loc` and takes `size` bytes, if both of its ends lie
between characters of `source`. -/
def slice? (source : String) (loc size : Nat) : Option String :=
  let before := takeBytes loc source.toList
  let part := takeBytes size (dropBytes loc source.toList)
  if byteSize before = loc ∧ byteSize part = size then some (String.ofList part) else none

end BatchCompiler
