/-
# BatchCompiler.Script.Name -- names in the generated script

A script has variables that the user named, temporaries `__1`, `__2`, … that the compiler makes up,
and labels. Names that could be taken for the compiler's own are refused to the user, so that the
two never meet.
-/

namespace BatchCompiler

/-- The name of a variable of the script. -/
inductive Name where
  | user (text : String)
  | temp (number : Nat)
  deriving DecidableEq, Repr

/-- A variable as it is spelled in the script. -/
def Name.render : Name → String
  | user text => text
  | temp number => "__" ++ toString number

/-- The name looks like one that the compiler makes up: two underscores at its front, or `lbl` and
digits. -/
def isReservedName (name : String) : Bool :=
  match name.toList with
  | '_' :: '_' :: _ => true
  | 'l' :: 'b' :: 'l' :: d :: ds => (d :: ds).all Char.isDigit
  | _ => false

/-- A place in the script that can be jumped to or called. -/
inductive Label where
  /-- The head of a loop. -/
  | loop (number : Nat)
  /-- The entry of a function. -/
  | entry (function : Name)
  /-- The place behind a function. -/
  | behind (function : Name)
  /-- The exit routine of a process object. -/
  | exit (process : Name)
  /-- The place behind that routine. -/
  | behindExit (process : Name)
  /-- The end of the script, which every script has. -/
  | eof
  deriving DecidableEq, Repr

/-- A label as it is spelled in the script. -/
def Label.render : Label → String
  | loop number => "lbl" ++ toString number
  | entry function => function.render
  | behind function => "__after_" ++ function.render
  | exit process => process.render ++ "[exit]"
  | behindExit process => process.render ++ "[exit]_"
  | eof => "eof"

end BatchCompiler
