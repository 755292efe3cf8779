/-
# BatchCompiler.Tree.Operator -- the operators of the language
-/

namespace BatchCompiler

/-- Operators that compute one value from two. -/
inductive BinaryOp where
  | add | sub | mul | div | mod
  | bitAnd | bitOr | bitXor | shl | shr
  | eq | ne | lt | le | gt | ge
  deriving DecidableEq, Repr

namespace BinaryOp

/-- The result is a truth value. -/
def isComparison : BinaryOp → Bool
  | eq | ne | lt | le | gt | ge => true
  | _ => false

/-- The operands are taken as rows of bits, so that the result is a number whatever they are. -/
def isBitwise : BinaryOp → Bool
  | bitAnd | bitOr | bitXor | shl | shr => true
  | _ => false

end BinaryOp

/-- Operators that change a variable by one. -/
inductive StepOp where
  | inc | dec
  deriving DecidableEq, Repr

end BatchCompiler
