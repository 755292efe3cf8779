/-
# BatchCompiler.Script.Segments -- the three parts of a script

Lines are collected in three segments that follow each other in the script, whatever the order in
which their lines were written: start-up, declarations, and code.
-/

import BatchCompiler.Script.Line

namespace BatchCompiler

/-- A part of the script. -/
inductive Segment where
  | init
  | decl
  | code
  deriving DecidableEq, Repr

/-- The lines written so far. -/
structure Segments where
  init : List Line := []
  decl : List Line := []
  code : List Line := []
  deriving DecidableEq, Repr

namespace Segments

/-- The segments with one more line at the end of one of them. -/
def add (segments : Segments) (line : Line) : Segment → Segments
  | .init => { segments with init := segments.init ++ [line] }
  | .decl => { segments with decl := segments.decl ++ [line] }
  | .code => { segments with code := segments.code ++ [line] }

/-- The segments with the declarations and the code of a unit at their ends. The unit's start-up
lines are dropped, since the script has started already. -/
def splice (segments : Segments) (decl code : List Line) : Segments :=
  { segments with decl := segments.decl ++ decl, code := segments.code ++ code }

/-- The lines, with line feeds between them. -/
def joinLines (lines : List Line) : String := "\n".intercalate (lines.map Line.render)

/-- The text of the script. -/
def assemble (segments : Segments) : String :=
  joinLines segments.init ++ "\n" ++ joinLines segments.decl ++ "\n" ++ joinLines segments.code
    ++ "\n"

end Segments

end BatchCompiler
