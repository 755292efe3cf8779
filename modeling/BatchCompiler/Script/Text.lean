/-
# BatchCompiler.Script.Text -- what stands in for a value on a line of the script

The shell expands a line before it runs it. A text is a row of fragments: characters that stay as
they are, and reads of variables, which the shell replaces. `!x!` is replaced when the line runs,
`%x%` when the block around the line is read, and `%~i` is the `i`-th argument of the routine.
-/

import BatchCompiler.Script.Name

namespace BatchCompiler

/-! ## Fragments -/

/-- A piece of a text. -/
inductive Fragment where
  | chars (text : String)
  | number (value : Int)
  /-- The name itself, not its value. -/
  | name (x : Name)
  /-- The value at the time the line runs. -/
  | deferred (x : Name)
  /-- The value at the time the line is read. -/
  | immediate (x : Name)
  /-- An argument of the routine. -/
  | argument (slot : Nat)
  deriving DecidableEq, Repr

/-- A fragment as it is spelled in the script. -/
def Fragment.render : Fragment → String
  | chars text => text
  | number value => toString value
  | name x => x.render
  | deferred x => "!" ++ x.render ++ "!"
  | immediate x => "%" ++ x.render ++ "%"
  | argument slot => "%~" ++ toString slot

/-- A row of fragments. -/
abbrev Text := List Fragment

/-- A text as it is spelled in the script. -/
def Text.render : Text → String
  | [] => ""
  | f :: fs => f.render ++ Text.render fs

@[simp] theorem Text.render_nil : Text.render [] = "" := rfl

@[simp] theorem Text.render_cons (f : Fragment) (fs : Text) :
    Text.render (f :: fs) = f.render ++ Text.render fs := rfl

@[simp] theorem Text.render_append (s t : Text) :
    Text.render (s ++ t) = Text.render s ++ Text.render t := by
  induction s with
  | nil => simp
  | cons f fs ih => simp [ih, String.append_assoc]

/-! ## Escaping -/

/-- A character that the shell leaves alone. -/
def isPlain (c : Char) : Bool := c.isAlphanum || c = ' '

/-- A character with the carets that protect it. An exclamation mark needs two, because the
replacement of variables takes one of them. -/
def escapeChar (c : Char) : List Char :=
  if c = '!' then ['^', '^', '!'] else if isPlain c then [c] else ['^', c]

/-- A string with every character outside letters, digits and blanks protected. -/
def escape (s : String) : String := String.ofList (s.toList.flatMap escapeChar)

end BatchCompiler
