/-
# BatchCompiler.Generate.Control -- conditionals and loops

The script tests a value by comparing it with zero. The blocks between the lines that open and close
a conditional are the lowerings of its bodies.
-/

import BatchCompiler.Generate.Part

namespace BatchCompiler.Gen

/-- A conditional statement. -/
def lowerBranch (cond : Part) (thenBody elseBody : List Part) : Gen Unit := do
  let c ← evalDeref cond
  emit (.openIf c.splice)
  block thenBody
  unless elseBody.isEmpty do
    emit .openElse
    block elseBody
  emit .close

/-- A conditional expression. -/
def lowerTernary (cond thenValue elseValue : Part) : Gen Unit := do
  let c ← evalDeref cond
  let t ← freshTemp
  emit (.openIf c.splice)
  let a ← evalDeref thenValue
  emit (.assign (.var t) a.splice)
  emit .openElse
  let b ← evalDeref elseValue
  emit (.assign (.var t) b.splice)
  emit .close
  pushVar t (if a.isInteger ∧ b.isInteger then .integer else .text)

/-- A loop. Its condition is computed anew each time round. -/
def lowerLoop (cond : Part) (body : List Part) : Gen Unit := do
  let l ← freshLabel
  emit (.label l)
  let c ← evalDeref cond
  emit (.openIf c.splice)
  block body
  emit (.goto l)
  emit .close

end BatchCompiler.Gen
