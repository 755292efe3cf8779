/-
# BatchCompiler.Scope.Variable -- variables and operands

A variable of the language lives in a named variable of the script, or is an argument of the routine
that is being written. An operand is what evaluating an expression leaves: a number, a text, a
variable, or a place that has yet to be read.
-/

import BatchCompiler.Script.Text

namespace BatchCompiler

/-! ## Types -/

/-- What a value is known to be. -/
inductive ValueType where
  | integer
  | text
  deriving DecidableEq, Repr

/-- The name of the type. -/
def ValueType.name : ValueType → String
  | integer => "Integer"
  | text => "Text"

/-- The type of a value made of values of these types: a text if one of them is. -/
def ValueType.join (types : List ValueType) : ValueType :=
  if .text ∈ types then .text else .integer

/-! ## Variables -/

/-- Where the value of a variable is kept. -/
inductive Storage where
  | named (x : Name)
  | slot (index : Nat)
  deriving DecidableEq, Repr

/-- A variable of the language. -/
structure Variable where
  storage : Storage
  ty : ValueType
  deriving DecidableEq, Repr

namespace Variable

/-- The variable kept under a name. -/
def named (x : Name) (ty : ValueType) : Variable := { storage := .named x, ty }

/-- The variable that is an argument of the routine. -/
def slot (index : Nat) (ty : ValueType) : Variable := { storage := .slot index, ty }

/-- A read of the variable at the time the line runs. -/
def read (v : Variable) : Fragment :=
  match v.storage with
  | .named x => .deferred x
  | .slot index => .argument index

/-- A read of the variable at the time the line is read. -/
def readNow (v : Variable) : Fragment :=
  match v.storage with
  | .named x => .immediate x
  | .slot index => .argument index

/-- The name under which the variable can be assigned to. Arguments cannot. -/
def target? (v : Variable) : Option Name :=
  match v.storage with
  | .named x => some x
  | .slot _ => none

end Variable

/-! ## Operands -/

/-- What evaluating an expression leaves. -/
inductive Operand where
  | integer (value : Int)
  | text (text : Text)
  /-- A place such as `!a!.0`, whose value has yet to be read. -/
  | reference (place : Text)
  | var (v : Variable)
  deriving DecidableEq, Repr

namespace Operand

/-- What stands in for the operand on a line. -/
def splice : Operand → Text
  | integer value => [.number value]
  | text t => t
  | reference place => place
  | var v => [v.read]

/-- What stands in for the operand on a line that is read as a whole before it runs. -/
def spliceNow : Operand → Text
  | var v => [v.readNow]
  | o => o.splice

/-- The operand is a place whose value has yet to be read. -/
def isReference : Operand → Bool
  | reference _ => true
  | _ => false

/-- The type of the value. What is read from a place is a text. -/
def valueType : Operand → ValueType
  | integer _ => .integer
  | text _ => .text
  | reference _ => .text
  | var v => v.ty

/-- The value is known to be a number. -/
def isInteger (o : Operand) : Bool := o.valueType = .integer

/-- The variable that holds the value. -/
def var? : Operand → Option Variable
  | var v => some v
  | _ => none

end Operand

end BatchCompiler
