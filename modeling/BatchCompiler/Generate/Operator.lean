/-
# BatchCompiler.Generate.Operator -- operators on values

Every operator but the conjunction leaves its result in a fresh temporary. Operands are evaluated
from left to right, except those of `<`, whose right operand comes first. Arithmetic and comparison
read places only after both operands have been evaluated.
-/

import BatchCompiler.Generate.Part

namespace BatchCompiler.Gen

/-- Addition computes if both operands are numbers and concatenates otherwise. -/
def lowerSum (a b : Operand) : Gen Unit := do
  let ty := ValueType.join [a.valueType, b.valueType]
  let t ← freshTemp
  if a.isInteger ∧ b.isInteger then emit (.compute (.var t) (.binary .add a.splice b.splice))
  else emit (.assign (.var t) (a.splice ++ b.splice))
  pushVar t ty

/-- An operator that computes, other than addition. -/
def lowerArithmetic (op : BinaryOp) (a b : Operand) : Gen Unit := do
  let ty := if op.isBitwise then .integer else ValueType.join [a.valueType, b.valueType]
  let t ← freshTemp
  emit (.compute (.var t) (.binary op a.splice b.splice))
  pushVar t ty

/-- The operands of a comparison and the temporary for its result. The operator `<` evaluates its
right operand first. -/
def comparands (op : BinaryOp) (lhs rhs : Part) : Gen (Operand × Operand × Name) := do
  if op = .lt then
    let b ← eval rhs
    let a ← eval lhs
    let t ← freshTemp
    let a ← deref a
    let b ← deref b
    return (a, b, t)
  else
    let a ← eval lhs
    let b ← eval rhs
    let t ← freshTemp
    let b ← deref b
    let a ← deref a
    return (a, b, t)

/-- A comparison. -/
def lowerComparison (op : BinaryOp) (lhs rhs : Part) : Gen Unit := do
  let (a, b, t) ← comparands op lhs rhs
  emit (.compare t op a.splice b.splice)
  pushVar t .integer

/-- A binary operator. -/
def lowerBinary (op : BinaryOp) (lhs rhs : Part) : Gen Unit := do
  if op.isComparison then lowerComparison op lhs rhs
  else
    let a ← eval lhs
    let b ← eval rhs
    let b ← deref b
    let a ← deref a
    if op = .add then lowerSum a b else lowerArithmetic op a b

/-- A conjunction guards its right side and has no value. -/
def lowerAnd (lhs rhs : Part) : Gen Unit := do
  let cond ← evalDeref lhs
  emit (.openIf cond.splice)
  statement rhs.gen
  emit .close

/-- A disjunction evaluates its right side only if the left side is zero. -/
def lowerOr (lhs rhs : Part) : Gen Unit := do
  let t ← freshTemp
  let cond ← evalDeref lhs
  emitAll [.flag t false, .openIf cond.splice, .flag t true, .openElse]
  let other ← evalDeref rhs
  emitAll [.openIf other.splice, .flag t true, .close, .close]
  pushVar t .integer

end BatchCompiler.Gen
