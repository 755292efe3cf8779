/-
# BatchCompiler.Compile -- from source text to script

A source text is one unit. It is read, parsed, folded and generated; an include does the same with
another file and takes over what that contributes. `Setup.env` builds the surroundings of a unit
from those of the units below it, by recursion on how many levels of includes are still allowed, so
files that include each other in a circle end at the limit.
-/

import BatchCompiler.Generate.Node
import BatchCompiler.Parse.Grammar
import BatchCompiler.Tree.Fold

namespace BatchCompiler

/-! ## One unit -/

/-- The tokens of a source text. -/
def readTokens (source : String) : Except CompileError (List Token) :=
  (tokenize source).mapError (·.error source)

/-- The program that tokens of a source text spell. -/
def readProgram (source : String) (tokens : List Token) : Except CompileError Node :=
  (parse source.utf8ByteSize tokens).mapError (·.error source)

/-- The program that a source text spells, folded if that is asked for. -/
def readUnit (folding : Bool) (source : String) : Except CompileError Node := do
  let program ← readProgram source (← readTokens source)
  return program.optimize folding

/-- Generates a node of the unit with this source. -/
def generate (env : Env) (source : String) (n : Node) : EStateM CompileError State Unit := fun s =>
  match Gen.statement (Gen.node env n) s with
  | .ok _ s => .ok () s
  | .error fault s => .error (fault.error source) s

/-! ## Units in units -/

/-- What all the units of a compilation have in common. -/
structure Setup where
  registry : Registry
  /-- The text of the file at a path. -/
  files : String → Except IoError String
  /-- Additions of literals are folded. -/
  folding : Bool
  /-- How deep includes may nest. -/
  limit : Nat

namespace Setup

/-- Generates a source text as a unit of its own. -/
def contribution (setup : Setup) (env : Env) (source : String) (shared : Shared) :
    Except CompileError Contribution := do
  let program ← readUnit setup.folding source
  match generate env source program { shared } with
  | .error e _ => throw e
  | .ok _ s =>
    return { decl := s.segments.decl, code := s.segments.code, exports := s.scopes.root,
             shared := s.shared }

/-- Reads the file at a path and generates it as a unit of its own. -/
def includeUnit (setup : Setup) (env : Env) (path : String) (shared : Shared) :
    Except CompileError Contribution :=
  match setup.files path with
  | .error io => .error (.includeUnreadable path io)
  | .ok source => (setup.contribution env source shared).mapError (.inInclude path)

/-- The surroundings of a unit that resolves paths against `base` and below which includes may nest
this many levels deep. -/
def env (setup : Setup) : Nat → String → Env
  | 0, base =>
    { registry := setup.registry, base, limit := setup.limit, includeUnit? := none }
  | depth + 1, base =>
    { registry := setup.registry, base, limit := setup.limit,
      includeUnit? := some fun path =>
        setup.includeUnit (setup.env depth (Path.directory base path)) path }

end Setup

/-! ## Whole programs -/

/-- What a caller may choose. -/
structure Options where
  /-- Additions of literals are folded. -/
  folding : Bool := true
  /-- The directory against which the paths of includes are resolved. -/
  base : String := "."
  /-- How deep includes may nest. -/
  limit : Nat := 64
  deriving DecidableEq, Repr

/-- The surroundings of the outermost unit. -/
def Options.env (options : Options) (registry : Registry)
    (files : String → Except IoError String) : Env :=
  Setup.env { registry, files, folding := options.folding, limit := options.limit }
    options.limit options.base

/-- The script for a source text. -/
def compileSource (files : String → Except IoError String) (options : Options) (source : String) :
    Except CompileError String := do
  let program ← readUnit options.folding source
  match generate (options.env .standard files) source program {} with
  | .error e _ => throw e
  | .ok _ s => return s.script

/-- The script for the source text in a file, whose includes are resolved against its directory. -/
def compileFile (files : String → Except IoError String) (options : Options) (path : String) :
    Except CompileError String :=
  match files path with
  | .error io => .error (.sourceUnreadable path io)
  | .ok source =>
    compileSource files { options with base := Path.directory options.base path } source

end BatchCompiler
