/-
# BatchCompiler.Generate.Part -- the children of a construct

A construct is lowered from its parts: its child nodes, each with the step that generates it. A part
can be run for its effects alone or for the operand that it pushes. Either way the stack is left as
it was found.
-/

import BatchCompiler.Generate.State
import BatchCompiler.Tree.Node

namespace BatchCompiler

/-- A node together with the step that generates it. -/
structure Part where
  node : Node
  gen : Gen Unit

namespace Gen

/-- Generates a part for its effects alone. -/
def statement (step : Gen Unit) : Gen Unit := do
  let depth := (← get).stack.length
  step
  dropTo depth

/-- Generates parts for their effects, one after the other. -/
def block : List Part → Gen Unit
  | [] => return ()
  | p :: rest => do
    statement p.gen
    block rest

/-- Generates a part and pops the operand that it pushed. -/
def eval (p : Part) : Gen Operand := do
  let depth := (← get).stack.length
  p.gen
  let stack := (← get).stack
  dropTo depth
  match stack with
  | o :: _ => if depth < stack.length then return o else fail p.node.loc (.noValue p.node.construct)
  | [] => fail p.node.loc (.noValue p.node.construct)

/-- Generates a part and reads its value if that has yet to be read. -/
def evalDeref (p : Part) : Gen Operand := do deref (← eval p)

/-- Generates parts one after the other and pops the operand that each pushed. -/
def evalAll : List Part → Gen (List Operand)
  | [] => return []
  | p :: rest => do
    let o ← eval p
    let others ← evalAll rest
    return o :: others

end Gen

end BatchCompiler
