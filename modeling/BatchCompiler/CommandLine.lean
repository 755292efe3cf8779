/-
# BatchCompiler.CommandLine -- the command `batchc`

    batchc INPUT [-o|--output FILE] [--no-fold] [--max-include-depth N] [-v|--verbose]...
           [-V|--version]

Arguments are read from left to right, options and INPUT in any order. The first argument that is
wrong ends the reading, and so does a request for the version or for help.
-/

import BatchCompiler.Compile
import BatchCompiler.Files.Tree

namespace BatchCompiler.CommandLine

/-! ## Arguments -/

/-- A compilation to be done. -/
structure Job where
  input : String
  output : Option String
  folding : Bool
  limit : Nat
  deriving DecidableEq, Repr

/-- What is asked of the command. -/
inductive Request where
  | compile (job : Job)
  | version
  | help
  | misuse
  deriving DecidableEq, Repr

/-- The options of the command. -/
inductive Flag where
  | output
  | noFold
  | limit
  | verbose
  | version
  | help
  deriving DecidableEq, Repr

/-- The option with this long name. -/
def Flag.ofLong? : String → Option Flag
  | "output" => some .output
  | "no-fold" => some .noFold
  | "max-include-depth" => some .limit
  | "verbose" => some .verbose
  | "version" => some .version
  | "help" => some .help
  | _ => none

/-- The option with this letter. -/
def Flag.ofLetter? : Char → Option Flag
  | 'o' => some .output
  | 'v' => some .verbose
  | 'V' => some .version
  | 'h' => some .help
  | _ => none

/-- The option has a value. -/
def Flag.takesValue : Flag → Bool
  | output | limit => true
  | _ => false

/-- What the arguments read so far have said. -/
structure Draft where
  input : Option String := none
  output : Option String := none
  noFold : Bool := false
  limit : Option Nat := none
  /-- The option whose value is the next argument. -/
  pending : Option Flag := none
  /-- The rest of the arguments are paths, whatever they look like. -/
  optionsEnded : Bool := false
  deriving DecidableEq, Repr

/-- The greatest number that can be given. -/
def maxNumber : Nat := 18446744073709551615

/-- A number as it is given: digits, with an optional plus sign in front. -/
def number? (text : String) : Option Nat :=
  let digits := match text.toList with
    | '+' :: cs => cs
    | cs => cs
  if digits ≠ [] ∧ digits.all Char.isDigit ∧ decimalValue digits ≤ maxNumber then
    some (decimalValue digits)
  else none

namespace Draft

/-- The path of the input is given once and is not empty. -/
def setInput (d : Draft) (path : String) : Except Request Draft :=
  if d.input.isSome ∨ path = "" then .error .misuse else .ok { d with input := some path }

/-- An option with a value is given once. A path is not empty. -/
def setValue (d : Draft) (value : String) : Flag → Except Request Draft
  | .output =>
    if d.output.isSome ∨ value = "" then .error .misuse else .ok { d with output := some value }
  | .limit =>
    match d.limit, number? value with
    | none, some n => .ok { d with limit := some n }
    | _, _ => .error .misuse
  | _ => .error .misuse

/-- An option without a value is given once, unless it is the one for verbosity. -/
def setFlag (d : Draft) : Flag → Except Request Draft
  | .noFold => if d.noFold then .error .misuse else .ok { d with noFold := true }
  | .verbose => .ok d
  | .version => .error .version
  | .help => .error .help
  | _ => .error .misuse

/-- An option with the value that is attached to it, if there is one. -/
def setOption (d : Draft) (flag : Flag) (attached : Option String) : Except Request Draft :=
  match flag.takesValue, attached with
  | true, some value => d.setValue value flag
  | true, none => .ok { d with pending := some flag }
  | false, some _ => .error .misuse
  | false, none => d.setFlag flag

/-- Reads a long option behind its two dashes. A value is attached to it by an equals sign. -/
def readLong (d : Draft) (arg : List Char) : Except Request Draft :=
  match Flag.ofLong? (String.ofList (arg.takeWhile (· ≠ '='))) with
  | none => .error .misuse
  | some flag =>
    d.setOption flag ((arg.dropWhile (· ≠ '=')).tail?.map String.ofList)

/-- The value attached to an option letter, without the equals sign in front of it. -/
def attachedValue? : List Char → Option String
  | [] => none
  | '=' :: value => some (String.ofList value)
  | value => some (String.ofList value)

/-- Reads a row of option letters. A letter with a value takes the rest of the row as its value. -/
def readLetters (d : Draft) : List Char → Except Request Draft
  | [] => .ok d
  | c :: cs =>
    match Flag.ofLetter? c with
    | none => .error .misuse
    | some flag =>
      if flag.takesValue then d.setOption flag (attachedValue? cs)
      else do (← d.setFlag flag).readLetters cs

/-- The argument looks like an option. A single dash does not. -/
def looksLikeOption (arg : String) : Bool := arg.toList.head? = some '-' ∧ arg ≠ "-"

/-- Reads one argument. -/
def read (d : Draft) (arg : String) : Except Request Draft :=
  match d.pending with
  | some flag =>
    if looksLikeOption arg then .error .misuse
    else ({ d with pending := none } : Draft).setValue arg flag
  | none =>
    if d.optionsEnded ∨ !looksLikeOption arg then d.setInput arg
    else if arg = "--" then .ok { d with optionsEnded := true }
    else
      match arg.toList with
      | '-' :: '-' :: name => d.readLong name
      | letters => d.readLetters letters.tail

/-- What a draft asks for when there are no more arguments. -/
def request (d : Draft) : Request :=
  match d.pending, d.input with
  | none, some input =>
    .compile { input, output := d.output, folding := !d.noFold, limit := d.limit.getD 64 }
  | _, _ => .misuse

end Draft

/-- What the arguments ask for. -/
def request (args : List String) : Request :=
  match args.foldlM Draft.read {} with
  | .error r => r
  | .ok d => d.request

/-! ## Answers -/

/-- What `--version` prints. -/
def versionText : String := "batchc 0.1.0\n"

/-- What `--help` prints. -/
def helpText : String :=
  "Usage: batchc [OPTIONS] <INPUT>\n\n"
    ++ "Arguments:\n"
    ++ "  <INPUT>  Source file to compile\n\n"
    ++ "Options:\n"
    ++ "  -o, --output <OUTPUT>        Write the script here instead of stdout\n"
    ++ "      --no-fold                Emit additions as written instead of folding constants\n"
    ++ "      --max-include-depth <N>  [default: 64]\n"
    ++ "  -v, --verbose...             Raise log verbosity (-v debug, -vv trace)\n"
    ++ "  -h, --help                   Print help\n"
    ++ "  -V, --version                Print version\n"

/-- The script for a job. -/
def Job.script (job : Job) (files : String → Except IoError String) : Except CompileError String :=
  compileFile files { folding := job.folding, limit := job.limit } job.input

/-- What is reported when a job fails. -/
def Job.compileReport (job : Job) (e : CompileError) : String :=
  ": ".intercalate (("failed to compile " ++ job.input) :: e.messageChain) ++ "\n"

/-- What is reported when the script cannot be written. -/
def writeReport (path : String) (io : IoError) : String :=
  "failed to write " ++ path ++ ": " ++ io.message ++ "\n"

/-- What a run of the command leaves behind. -/
structure Outcome where
  exit : Nat
  stdout : String := ""
  stderr : String := ""
  tree : FileTree

/-- Does a job in a working directory. -/
def Job.run (job : Job) (tree : FileTree) : Outcome :=
  match job.script tree.read with
  | .error e => { exit := 1, stderr := job.compileReport e, tree }
  | .ok script =>
    match job.output with
    | none => { exit := 0, stdout := script, tree }
    | some path =>
      match tree.write path script with
      | .error io => { exit := 1, stderr := writeReport path io, tree }
      | .ok tree => { exit := 0, tree }

/-- Runs the command in a working directory. -/
def run (args : List String) (tree : FileTree) : Outcome :=
  match request args with
  | .compile job => job.run tree
  | .version => { exit := 0, stdout := versionText, tree }
  | .help => { exit := 0, stdout := helpText, tree }
  | .misuse => { exit := 2, stderr := helpText, tree }

end BatchCompiler.CommandLine
