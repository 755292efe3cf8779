/-
# BatchCompiler.Generate.Include -- units in units

An include compiles another file as a unit of its own, which shares nothing with the unit around it
but the numbering and the builtins, and then takes over its lines and the names that it binds. How
the other unit is compiled is given by the surroundings.
-/

import BatchCompiler.Files.Path
import BatchCompiler.Generate.Builtin
import BatchCompiler.Tree.Node

namespace BatchCompiler

/-! ## Surroundings -/

/-- What an included unit contributes to the unit that includes it. -/
structure Contribution where
  decl : List Line
  code : List Line
  /-- The names that the unit binds in its root scope. -/
  exports : Bindings
  shared : Shared

/-- The surroundings of a unit, which stay the same while it is written. -/
structure Env where
  registry : Registry
  /-- The directory against which the paths of includes are resolved. -/
  base : String
  /-- How deep includes may nest, counted from the outermost unit. -/
  limit : Nat
  /-- Compiles the unit at a path, or nothing if it would nest too deep. -/
  includeUnit? : Option (String → Shared → Except CompileError Contribution)

namespace Gen

/-! ## Includes -/

/-- Takes over what an included unit contributes. -/
def adopt (unit : Contribution) : Gen Unit :=
  modify fun s =>
    { s with
      segments := s.segments.splice unit.decl unit.code
      scopes := s.scopes.declareAll unit.exports
      shared := unit.shared }

/-- An include compiles another file as a unit of its own and takes over what it contributes. -/
def lowerInclude (env : Env) (loc : Nat) : List Node → Gen Unit
  | [.string _ path] => do
    match env.includeUnit? with
    | none => fail loc (.includeDepth env.limit)
    | some includeUnit =>
      match includeUnit (Path.join env.base path) (← get).shared with
      | .error e => throw (.raised e)
      | .ok unit =>
        adopt unit
        push (.text [.chars "include"])
  | [arg] => fail arg.loc (.includeArgument .notALiteral)
  | args => fail loc (.includeArgument (.argumentCount args.length))

end Gen

end BatchCompiler
