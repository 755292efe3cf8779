/-
# BatchCompiler.Error -- what a compilation can fail with

An error is a cause at a location of one source text, or a file that could not be read. An error in
an included file is wrapped once for every file on the way to it. The wording is in the `message`
functions and nowhere else.
-/

import BatchCompiler.Files.IoError
import BatchCompiler.Parse.Cursor
import BatchCompiler.Source.Location
import BatchCompiler.Token.Scan

namespace BatchCompiler

/-! ## Causes -/

/-- What cannot be assigned to. -/
inductive Unassignable where
  | parameter (name : String)
  | construct (c : Construct)
  deriving DecidableEq, Repr

/-- The phrase by which a diagnostic names what cannot be assigned to. -/
def Unassignable.phrase : Unassignable → String
  | parameter name => "parameter `" ++ name ++ "`"
  | construct c => c.phrase

/-- What is wrong with the arguments of an include. -/
inductive IncludeProblem where
  | argumentCount (count : Nat)
  | notALiteral
  deriving DecidableEq, Repr

/-- The wording of the problem. -/
def IncludeProblem.message : IncludeProblem → String
  | argumentCount count => "include expects exactly one argument, got " ++ toString count
  | notALiteral => "include expects a string literal path"

/-- What is wrong at a place of a source text. -/
inductive Cause where
  | lex (problem : LexProblem)
  | parse (found : String) (problem : ParseProblem)
  | unresolved (name : String)
  | reserved (name : String)
  | notAssignable (what : Unassignable)
  | noValue (construct : Construct)
  | includeArgument (problem : IncludeProblem)
  | includeDepth (limit : Nat)
  deriving DecidableEq, Repr

/-- The wording of the cause. -/
def Cause.message : Cause → String
  | lex problem => problem.message
  | parse found problem => problem.message found
  | unresolved name => "unresolved identifier `" ++ name ++ "`"
  | reserved name => "`" ++ name ++ "` is reserved for compiler-generated names"
  | notAssignable what => "cannot assign to " ++ what.phrase
  | noValue construct => construct.phrase ++ " does not produce a value"
  | includeArgument problem => problem.message
  | includeDepth limit => "include nesting exceeds " ++ toString limit ++ " levels"

/-! ## Errors -/

/-- A coarse classification of errors. -/
inductive ErrorKind where
  | parse
  | generation
  | io
  deriving DecidableEq, Repr

/-- What a compilation fails with. -/
inductive CompileError where
  | located (location : Location) (cause : Cause)
  | includeUnreadable (path : String) (io : IoError)
  | inInclude (path : String) (inner : CompileError)
  | sourceUnreadable (path : String) (io : IoError)
  deriving DecidableEq, Repr

namespace CompileError

/-- The full wording of the error. -/
def message : CompileError → String
  | located location cause => location.display ++ " " ++ cause.message
  | includeUnreadable path io => "failed to read included file " ++ path ++ ": " ++ io.message
  | inInclude path inner => "in included file " ++ path ++ ":\n" ++ inner.message
  | sourceUnreadable path io => "failed to read " ++ path ++ ": " ++ io.message

/-- The class of the error. An error in an included file has the class of what is wrong there. -/
def kind : CompileError → ErrorKind
  | located _ (.lex _) => .parse
  | located _ (.parse _ _) => .parse
  | located _ _ => .generation
  | includeUnreadable _ _ => .generation
  | inInclude _ inner => inner.kind
  | sourceUnreadable _ _ => .io

/-- The error without the wrappers around it. -/
def rootCause : CompileError → CompileError
  | inInclude _ inner => inner.rootCause
  | e => e

/-- The included files on the way to the error, the outermost first. -/
def wrappers : CompileError → List String
  | inInclude path inner => path :: inner.wrappers
  | _ => []

/-- The wordings of the error and of what lies beneath it, from the outside in. -/
def messageChain : CompileError → List String
  | located location cause => [(located location cause).message]
  | includeUnreadable path io => [(includeUnreadable path io).message, io.message]
  | inInclude path inner => (inInclude path inner).message :: inner.messageChain
  | sourceUnreadable path io => [(sourceUnreadable path io).message, io.message]

/-- The file that could not be read, if that is what is wrong. -/
def unreadable? : CompileError → Option String
  | located _ _ => none
  | includeUnreadable path _ => some path
  | inInclude _ inner => inner.unreadable?
  | sourceUnreadable path _ => some path

end CompileError

/-- The error that a lexical problem is in this source. -/
def LexError.error (source : String) (e : LexError) : CompileError :=
  .located (Location.ofOffset source e.loc) (.lex e.problem)

/-- The error that a grammatical problem is in this source. -/
def ParseError.error (source : String) (e : ParseError) : CompileError :=
  .located (Location.ofOffset source e.loc) (.parse e.found e.problem)

/-! ## Faults -/

/-- What the generation of a unit fails with: a cause at an offset of the unit, or an error that has
its location already. -/
inductive Fault where
  | here (loc : Nat) (cause : Cause)
  | raised (error : CompileError)
  deriving DecidableEq, Repr

/-- The error that a fault is in the unit with this source. -/
def Fault.error (source : String) : Fault → CompileError
  | here loc cause => .located (Location.ofOffset source loc) cause
  | raised error => error

end BatchCompiler
