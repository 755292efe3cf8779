/-
# BatchCompiler.Generate.Assignment -- assignments and steps

What is assigned to is a named variable or a place in an array. The first assignment to a name that
no scope binds declares it; its type is that of the value. Arguments of a routine cannot be assigned
to.
-/

import BatchCompiler.Generate.Part

namespace BatchCompiler.Gen

/-- What an assignment to a name assigns to: the variable that it is bound to, or a new one. -/
def nameTarget (loc : Nat) (name : String) (ty : ValueType) : Gen Target := do
  match ← lookup name with
  | none =>
    checkUserName loc name
    declare name (.named (.user name) ty)
    return .var (.user name)
  | some v =>
    match v.target? with
    | some x => return .var x
    | none => fail loc (.notAssignable (.parameter name))

/-- The line that assigns an operand. -/
def assignLine (target : Target) (value : Operand) : Line :=
  if value.isInteger then .compute target (.value value.splice) else .assign target value.splice

/-- An assignment evaluates its value before its target. -/
def lowerAssign (target value : Part) : Gen Unit := do
  let v ← evalDeref value
  let place ← match target.node with
    | .identifier loc name => nameTarget loc name v.valueType
    | .index .. => pure (.location (← eval target).splice)
    | n => fail n.loc (.notAssignable (.construct n.construct))
  emit (assignLine place v)
  push v

/-- What a step may change: a place, or a variable that is not an argument. -/
def stepTarget (n : Node) : Operand → Gen Target
  | .reference place => return .location place
  | .var v =>
    match v.target?, n with
    | some x, _ => return .var x
    | none, .identifier loc name => fail loc (.notAssignable (.parameter name))
    | none, _ => fail n.loc (.notAssignable (.construct n.construct))
  | _ => fail n.loc (.notAssignable (.construct n.construct))

/-- A step leaves the value from before the change, wherever its sign stands. -/
def lowerStep (op : StepOp) (target : Part) : Gen Unit := do
  let o ← eval target
  let place ← stepTarget target.node o
  let current ← deref o
  let t ← freshTemp
  emit (.compute (.var t) (.value current.splice))
  emit (.compute place (.step op current.splice))
  pushVar t .integer

end BatchCompiler.Gen
