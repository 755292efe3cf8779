/-
# BatchCompiler.Generate.State -- what generation keeps while it writes a unit

Generation runs a stack machine of its own: evaluating an expression writes the lines that compute
it and pushes an operand that says where the value is. The state also numbers temporaries and
labels and remembers which builtins have been set up; these two go from a unit to the units it
includes and come back from them.
-/

import BatchCompiler.Error
import BatchCompiler.Scope.Chain
import BatchCompiler.Script.Segments

namespace BatchCompiler

/-! ## State -/

/-- How many temporaries and labels have been made up. -/
structure Counters where
  temps : Nat := 0
  labels : Nat := 0
  deriving DecidableEq, Repr

/-- What a unit has in common with the units it includes. -/
structure Shared where
  counters : Counters := {}
  /-- The builtins that have been set up, and the variables that they are. -/
  emitted : Bindings := []
  deriving DecidableEq, Repr

/-- What generation keeps while it writes a unit. -/
structure State where
  segments : Segments := {}
  scopes : ScopeChain := {}
  /-- The operands pushed, the last one first. -/
  stack : List Operand := []
  shared : Shared := {}
  deriving DecidableEq, Repr

namespace State

/-- The state with one more line. -/
def emitTo (segment : Segment) (line : Line) (s : State) : State :=
  { s with segments := s.segments.add line segment }

/-- A temporary that has not been used before. -/
def freshTemp (s : State) : Name × State :=
  let temps := s.shared.counters.temps + 1
  (.temp temps,
    { s with shared := { s.shared with counters := { s.shared.counters with temps } } })

/-- A loop label that has not been used before. -/
def freshLabel (s : State) : Label × State :=
  let labels := s.shared.counters.labels + 1
  (.loop labels,
    { s with shared := { s.shared with counters := { s.shared.counters with labels } } })

/-- The state with a name bound in the innermost scope. -/
def declare (name : String) (v : Variable) (s : State) : State :=
  { s with scopes := s.scopes.declare name v }

/-- The text of the script as written so far. -/
def script (s : State) : String := s.segments.assemble

end State

/-! ## Actions -/

/-- A step of generation. A step that fails leaves what it has done up to then. -/
abbrev Gen := EStateM Fault State

namespace Gen

/-- Fails with a cause at an offset of the unit. -/
def fail {α : Type} (loc : Nat) (cause : Cause) : Gen α := throw (.here loc cause)

/-- Writes a line to a segment. -/
def emitTo (segment : Segment) (line : Line) : Gen Unit := modify (State.emitTo segment line)

/-- Writes a line of code. -/
def emit (line : Line) : Gen Unit := emitTo .code line

/-- Writes lines of code. -/
def emitAll (lines : List Line) : Gen Unit := lines.forM emit

/-- Makes up a temporary. -/
def freshTemp : Gen Name := modifyGet State.freshTemp

/-- Makes up a loop label. -/
def freshLabel : Gen Label := modifyGet State.freshLabel

/-- Binds a name in the innermost scope. -/
def declare (name : String) (v : Variable) : Gen Unit := modify (State.declare name v)

/-- What a name is bound to. -/
def lookup (name : String) : Gen (Option Variable) := return (← get).scopes.lookup name

/-- Pushes an operand. -/
def push (o : Operand) : Gen Unit := modify fun s => { s with stack := o :: s.stack }

/-- Pushes the value of a variable. -/
def pushVar (x : Name) (ty : ValueType) : Gen Unit := push (.var (.named x ty))

/-- Drops operands until `depth` are left. -/
def dropTo (depth : Nat) : Gen Unit :=
  modify fun s => { s with stack := s.stack.drop (s.stack.length - depth) }

/-- Runs a step in a scope of its own, which is closed whether the step succeeds or not. -/
def inScope {α : Type} (step : Gen α) : Gen α := fun s =>
  match step { s with scopes := s.scopes.enter } with
  | .ok a s => .ok a { s with scopes := s.scopes.leave }
  | .error e s => .error e { s with scopes := s.scopes.leave }

/-- The operand itself, or, for a place whose value has yet to be read, a temporary into which it is
read. -/
def deref : Operand → Gen Operand
  | .reference place => do
    let t ← freshTemp
    emit (.fetch t place)
    return .var (.named t .text)
  | o => return o

/-- Refuses a name that looks like one of the compiler's own. -/
def checkUserName (loc : Nat) (name : String) : Gen Unit := do
  if isReservedName name then fail loc (.reserved name)

end Gen

end BatchCompiler
