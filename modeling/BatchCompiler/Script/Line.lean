/-
# BatchCompiler.Script.Line -- the lines of the script

Every line that the compiler writes has one of the forms below. `Line.render` is the only place that
knows how they are spelled.
-/

import BatchCompiler.Script.Text
import BatchCompiler.Tree.Operator

namespace BatchCompiler

/-! ## Parts of lines -/

/-- What a line assigns to. -/
inductive Target where
  | var (x : Name)
  /-- An element of the array with this handle. -/
  | element (handle : Name) (index : Nat)
  /-- The size of the array with this handle. -/
  | size (handle : Name)
  /-- A place worked out when the line runs. -/
  | location (place : Text)
  deriving DecidableEq, Repr

/-- A target as it is spelled in the script. -/
def Target.render : Target → String
  | var x => x.render
  | element handle index => handle.render ++ "." ++ toString index
  | size handle => handle.render ++ ".length"
  | location place => place.render

/-- The sign of an arithmetic operator, or the keyword of a comparison. -/
def BinaryOp.spelling : BinaryOp → String
  | .add => "+"
  | .sub => "-"
  | .mul => "*"
  | .div => "/"
  | .mod => "%%"
  | .bitAnd => "&"
  | .bitOr => "|"
  | .bitXor => "^"
  | .shl => "<<"
  | .shr => ">>"
  | .eq => "equ"
  | .ne => "neq"
  | .lt => "lss"
  | .le => "leq"
  | .gt => "gtr"
  | .ge => "geq"

/-- What a step adds. -/
def StepOp.spelling : StepOp → String
  | .inc => "+1"
  | .dec => "-1"

/-- What an arithmetic line computes. -/
inductive Formula where
  | value (a : Text)
  | binary (op : BinaryOp) (a b : Text)
  | step (op : StepOp) (a : Text)
  deriving DecidableEq, Repr

/-- A formula as it is spelled in the script. -/
def Formula.render : Formula → String
  | value a => a.render
  | binary op a b => a.render ++ op.spelling ++ b.render
  | step op a => a.render ++ op.spelling

/-- An argument of a call: a number, or a text between quotes. -/
inductive Argument where
  | bare (text : Text)
  | quoted (text : Text)
  deriving DecidableEq, Repr

/-- An argument as it is spelled in the script. -/
def Argument.render : Argument → String
  | bare text => text.render
  | quoted text => "\"" ++ text.render ++ "\""

/-! ## Lines -/

/-- A line of the script. -/
inductive Line where
  | echoOff
  | deferExpansion
  | blank
  /-- Assigns the name `x` to the variable `x`. -/
  | handle (x : Name)
  /-- Assigns its own name to the exit routine of a process object. -/
  | exitHandle (process : Name)
  /-- Clears the exit code of a process object. -/
  | exitCode (process : Name)
  /-- Assigns a text. -/
  | assign (target : Target) (value : Text)
  /-- Assigns the value of a formula. -/
  | compute (target : Target) (formula : Formula)
  /-- Assigns a truth value. -/
  | flag (x : Name) (truth : Bool)
  /-- Assigns the value at a place worked out when the line runs. -/
  | fetch (x : Name) (place : Text)
  /-- Assigns the truth value of a comparison. -/
  | compare (x : Name) (op : BinaryOp) (a b : Text)
  /-- Opens a block that runs if the text is not zero. -/
  | openIf (cond : Text)
  /-- Closes the block and opens the one that runs otherwise. -/
  | openElse
  | close
  | label (l : Label)
  | goto (l : Label)
  /-- A jump written without the colon. -/
  | gotoBare (l : Label)
  /-- Calls a routine, which leaves its result in `result`. -/
  | call (callee : Text) (result : Name) (args : List Argument)
  | enterFunction
  /-- Opens the block that ends a function with a result. -/
  | openReturn
  /-- Hands the result to the caller, as a number or as a text. -/
  | setResult (isNumber : Bool) (value : Text)
  /-- Ends a function with the result zero. -/
  | returnZero
  | leaveFunction
  | verbatim (text : String)
  deriving DecidableEq, Repr

namespace Line

/-- The command that assigns a truth value. -/
def flagCommand (x : Name) (truth : Bool) : String :=
  "set /a " ++ x.render ++ "=" ++ (if truth then "1" else "0")

/-- A line as it is spelled in the script. -/
def render : Line → String
  | echoOff => "@echo off"
  | deferExpansion => "setlocal enabledelayedexpansion"
  | blank => ""
  | handle x => "set " ++ x.render ++ "=" ++ x.render
  | exitHandle p => "set " ++ (Label.exit p).render ++ "=" ++ (Label.exit p).render
  | exitCode p => "set " ++ p.render ++ "[exitCode]=0"
  | assign target value => "set \"" ++ target.render ++ "=" ++ value.render ++ "\""
  | compute target formula => "set /a \"" ++ target.render ++ "=" ++ formula.render ++ "\""
  | flag x truth => flagCommand x truth
  | fetch x place => "call set \"" ++ x.render ++ "=%%" ++ place.render ++ "%%\""
  | compare x op a b =>
    "if " ++ a.render ++ " " ++ op.spelling ++ " " ++ b.render
      ++ " (" ++ flagCommand x true ++ ") else (" ++ flagCommand x false ++ ")"
  | openIf cond => "if " ++ cond.render ++ " neq 0 ("
  | openElse => ") else ("
  | close => ")"
  | label l => ":" ++ l.render
  | goto l => "goto :" ++ l.render
  | gotoBare l => "goto " ++ l.render
  | call callee result args =>
    "call :" ++ callee.render ++ " " ++ result.render
      ++ String.join (args.map fun a => " " ++ a.render)
  | enterFunction => "setlocal"
  | openReturn => "endlocal & ("
  | setResult isNumber value => "set" ++ (if isNumber then " /a" else "") ++ " %1=" ++ value.render
  | returnZero => "endlocal & (set %1=0)"
  | leaveFunction => "exit /b"
  | verbatim text => text

end Line

end BatchCompiler
