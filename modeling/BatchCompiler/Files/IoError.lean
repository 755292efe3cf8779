/-
# BatchCompiler.Files.IoError -- why a file cannot be read or written
-/

namespace BatchCompiler

/-- Why a file cannot be read or written. -/
inductive IoError where
  | notFound
  | isDirectory
  | notADirectory
  | nameTooLong
  | nulInPath
  | notText
  | other (text : String)
  deriving DecidableEq, Repr

/-- The wording of the error. -/
def IoError.message : IoError → String
  | notFound => "No such file or directory (os error 2)"
  | isDirectory => "Is a directory (os error 21)"
  | notADirectory => "Not a directory (os error 20)"
  | nameTooLong => "File name too long (os error 36)"
  | nulInPath => "file name contained an unexpected NUL byte"
  | notText => "stream did not contain valid UTF-8"
  | other text => text

end BatchCompiler
