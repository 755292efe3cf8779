/-
# BatchCompiler.Generate.Routine -- functions, calls and returns

A function becomes a routine in the middle of the code, with a jump around it. A call names the
variable for the result as the first argument, so the parameters are the arguments from the second
one on.
-/

import BatchCompiler.Generate.Part

namespace BatchCompiler.Gen

/-! ## Functions -/

/-- The name of a function in the script. A function without a name is reached only through the
value that it leaves. -/
def functionName (loc : Nat) : Option String → Gen Name
  | some name => do
    checkUserName loc name
    declare name (.named (.user name) .text)
    return .user name
  | none => freshTemp

/-- Binds parameters to the arguments of the routine, from the one with this number on. -/
def declareParams (first : Nat) : List String → Gen Unit
  | [] => return ()
  | param :: rest => do
    declare param (.slot first .text)
    declareParams (first + 1) rest

/-- A function. The first argument of its routine names the variable for the result. -/
def lowerFunction (loc : Nat) (name : Option String) (params : List String) (body : List Part) :
    Gen Unit := do
  let f ← functionName loc name
  emitTo .decl (.handle f)
  emitAll [.goto (.behind f), .label (.entry f), .enterFunction]
  inScope do
    declareParams 2 params
    block body
  unless body.getLast?.any (·.node.isReturn) do emitAll [.returnZero, .leaveFunction]
  emit (.label (.behind f))
  push (.text [.name f])

/-! ## Calls and returns -/

/-- Reads the values of operands that have yet to be read, the last one first. -/
def derefAll : List Operand → Gen (List Operand)
  | [] => return []
  | o :: rest => do
    let rest ← derefAll rest
    let o ← deref o
    return o :: rest

/-- How an operand is passed: a number as it is, anything else between quotes. -/
def argument (o : Operand) : Argument := if o.isInteger then .bare o.splice else .quoted o.splice

/-- A call. -/
def lowerCall (callee : Part) (args : List Part) : Gen Unit := do
  let f ← evalDeref callee
  let values ← evalAll args
  let values ← derefAll values
  let t ← freshTemp
  emit (.call f.splice t (values.map argument))
  pushVar t .text

/-- A return. The value is read before the variables of the function are dropped. -/
def lowerReturn (value : Part) : Gen Unit := do
  let v ← evalDeref value
  emitAll [.openReturn, .setResult v.isInteger v.spliceNow, .close, .leaveFunction]

end BatchCompiler.Gen
