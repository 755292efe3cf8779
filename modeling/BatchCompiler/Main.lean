/-
# BatchCompiler.Main -- the command at work on real files

The compiler itself reads no files: it is given their texts. So a job is compiled with the texts
read so far, and whenever it stops at a file that has not been read yet, that file is read and the
job is compiled again.
-/

import BatchCompiler.CommandLine

namespace BatchCompiler.CommandLine

/-- The number by which the system knows an error. Some calls give it with its sign reversed. -/
def errorNumber (code : UInt32) : Nat :=
  if code.toNat < 2147483648 then code.toNat else 4294967296 - code.toNat

/-- The error with this number, of which the system says `details`. -/
def numberedError (code : UInt32) (details : String) : IoError :=
  match errorNumber code with
  | 2 => .notFound
  | 13 => .other "Permission denied (os error 13)"
  | 20 => .notADirectory
  | 21 => .isDirectory
  | 36 => .nameTooLong
  | n => .other (details ++ " (os error " ++ toString n ++ ")")

/-- Why a file cannot be read or written, from what the system says. -/
def ioError : IO.Error → IoError
  | .noFileOrDirectory _ code details | .inappropriateType _ code details
  | .permissionDenied _ code details | .resourceExhausted _ code details
  | .invalidArgument _ code details | .noSuchThing _ code details
  | .alreadyExists _ code details | .otherError code details | .resourceBusy code details
  | .illegalOperation code details | .unsatisfiedConstraints code details =>
    numberedError code details
  | e => .other (toString e)

/-- The text of a file. -/
def readText (path : String) : IO (Except IoError String) := do
  if '\x00' ∈ path.toList then return .error .nulInPath
  try
    match String.fromUTF8? (← IO.FS.readBinFile path) with
    | some text => return .ok text
    | none => return .error .notText
  catch e => return .error (ioError e)

/-- The texts read so far. -/
abbrev Texts := List (String × Except IoError String)

/-- The text of a file, if it has been read. -/
def Texts.read (texts : Texts) (path : String) : Except IoError String :=
  (texts.lookup path).getD (.error .notFound)

/-- Compiles a job, reading the files that it needs. -/
partial def Job.compile (job : Job) (texts : Texts) : IO (Except CompileError String) := do
  match job.script texts.read with
  | .ok script => return .ok script
  | .error e =>
    match e.unreadable? with
    | none => return .error e
    | some path =>
      if (texts.lookup path).isSome then return .error e
      else job.compile ((path, ← readText path) :: texts)

/-- Does a job, and gives the exit status. -/
def Job.perform (job : Job) : IO UInt32 := do
  match ← job.compile [] with
  | .error e =>
    IO.eprint (job.compileReport e)
    return 1
  | .ok script =>
    match job.output with
    | none =>
      IO.print script
      return 0
    | some path =>
      try
        IO.FS.writeFile path script
        return 0
      catch e =>
        IO.eprint (writeReport path (ioError e))
        return 1

end BatchCompiler.CommandLine

open BatchCompiler.CommandLine in
/-- The command. -/
def main (args : List String) : IO UInt32 := do
  match request args with
  | .compile job => job.perform
  | .version =>
    IO.print versionText
    return 0
  | .help =>
    IO.print helpText
    return 0
  | .misuse =>
    IO.eprint helpText
    return 2
