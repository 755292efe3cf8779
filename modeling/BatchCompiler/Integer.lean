/-
# BatchCompiler.Integer -- the integers of the language

Integers have 64 bits with a sign. A literal or a folded sum outside of that range is no integer of
the language.
-/

namespace BatchCompiler

/-- The smallest integer of the language. -/
def minInteger : Int := -9223372036854775808

/-- The largest integer of the language. -/
def maxInteger : Int := 9223372036854775807

/-- The value is an integer of the language. -/
def fitsInteger (v : Int) : Bool := minInteger ≤ v ∧ v ≤ maxInteger

theorem fitsInteger_iff (v : Int) : fitsInteger v = true ↔ minInteger ≤ v ∧ v ≤ maxInteger := by
  simp [fitsInteger]

end BatchCompiler
