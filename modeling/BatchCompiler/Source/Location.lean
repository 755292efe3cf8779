/-
# BatchCompiler.Source.Location -- where a diagnostic points

A location is a byte offset worked out for a reader: line, column, the text of the line, and a
marker to print under it. An offset past the end stands for the end, and one inside a character for
the start of that character, so every offset has a location.
-/

import BatchCompiler.Source.Offset

namespace BatchCompiler

/-- A place in one source text, as a diagnostic shows it. -/
structure Location where
  /-- The number of the line, from 1. -/
  line : Nat
  /-- The number of the character in its line, from 1. -/
  column : Nat
  /-- The line without its line feed and without the carriage returns before that. -/
  sourceLine : String
  /-- Spaces up to the column, then a caret. -/
  marker : String
  deriving DecidableEq, Repr

namespace Location

/-- The characters since the last line feed. -/
def lineHead (before : List Char) : List Char :=
  (before.reverse.takeWhile (· ≠ '\n')).reverse

/-- The line without the carriage returns at its end. -/
def trimReturns (line : List Char) : List Char :=
  (line.reverse.dropWhile (· = '\r')).reverse

/-- The location of the place between `before` and `after`. -/
def ofSplit (before after : List Char) : Location where
  line := before.count '\n' + 1
  column := (lineHead before).length + 1
  sourceLine := String.ofList (trimReturns (lineHead before ++ after.takeWhile (· ≠ '\n')))
  marker := String.ofList (List.replicate (lineHead before).length ' ' ++ ['^'])

/-- The location of byte `loc` of `source`. -/
def ofOffset (source : String) (loc : Nat) : Location :=
  ofSplit (takeBytes loc source.toList) (dropBytes loc source.toList)

/-- Line and column, the line, and the marker under it. -/
def display (l : Location) : String :=
  toString l.line ++ ":" ++ toString l.column ++ "\n" ++ l.sourceLine ++ "\n" ++ l.marker

end Location

end BatchCompiler
