/-
# BatchCompiler.Parse.Cursor -- reading tokens one after the other

A parser is an action on the list of tokens that are still to be read. Reading never looks further
than the first of them. A parser that fails leaves the list where it failed, so that a failure at
the cursor needs to say only what was wanted: the place and what was found there are read off the
list.
-/

import BatchCompiler.Token.Basic
import BatchCompiler.Tree.Node

namespace BatchCompiler

/-! ## Failures -/

/-- What a rule of the grammar finds wrong. -/
inductive ParseProblem where
  | expected (text : String)
  | expectedKind (kinds : List TokenKind)
  | notAssignable (target : Construct)
  | numberWithoutValue
  deriving DecidableEq, Repr

/-- The wording of a problem. -/
def ParseProblem.message (found : String) : ParseProblem → String
  | expected text => "expected \"" ++ text ++ "\", but got \"" ++ found ++ "\""
  | expectedKind kinds =>
    "expected " ++ " or ".intercalate (kinds.map TokenKind.phrase)
      ++ ", but got \"" ++ found ++ "\""
  | notAssignable target => "cannot assign to " ++ target.phrase
  | numberWithoutValue => "internal error: numeric token missing value"

/-- A problem with the token at the cursor, or with something that was read before it. -/
inductive ParseFailure where
  | atCursor (problem : ParseProblem)
  | behind (loc : Nat) (found : String) (problem : ParseProblem)
  deriving DecidableEq, Repr

/-- A problem, where it shows and what stands there. -/
structure ParseError where
  loc : Nat
  found : String
  problem : ParseProblem
  deriving DecidableEq, Repr

/-- The failure of a parser that left `rest` of the tokens of a source text of `size` bytes. -/
def ParseFailure.error (size : Nat) (rest : List Token) : ParseFailure → ParseError
  | atCursor problem =>
    { loc := (rest.head?.map Token.loc).getD size, found := Token.found rest.head?, problem }
  | behind loc found problem => { loc, found, problem }

/-! ## Parsers -/

/-- An action on the tokens that are still to be read. -/
abbrev Parser := EStateM ParseFailure (List Token)

namespace Parser

/-- The token at the cursor. -/
def peek? : Parser (Option Token) := do return (← get).head?

/-- Nothing is left to read. -/
def atEnd : Parser Bool := do return Token.isEnd (← peek?)

/-- Fails because of the token at the cursor. -/
def reject {α : Type} (problem : ParseProblem) : Parser α := throw (.atCursor problem)

/-- Reads the punctuator or keyword `text` if it is at the cursor. -/
def accept? (text : String) : Parser (Option Token) := fun
  | [] => .ok none []
  | t :: ts => if t.isSymbol text then .ok (some t) ts else .ok none (t :: ts)

/-- Reads the punctuator or keyword `text` if it is at the cursor, and tells whether it was. -/
def accept (text : String) : Parser Bool := return (← accept? text).isSome

/-- Reads the first symbol of the table that is at the cursor. -/
def acceptAny? {α : Type} : List (String × α) → Parser (Option (Token × α))
  | [] => return none
  | (text, a) :: table => do
    match ← accept? text with
    | some t => return some (t, a)
    | none => acceptAny? table

/-- Reads the punctuator or keyword `text`. -/
def require (text : String) : Parser Unit := do
  unless ← accept text do reject (.expected text)

/-- Reads a token of one of the kinds. -/
def expect (kinds : List TokenKind) : Parser Token := fun
  | [] => reject (.expectedKind kinds) []
  | t :: ts => if t.kind ∈ kinds then .ok t ts else reject (.expectedKind kinds) (t :: ts)

/-- Reads an identifier. -/
def identifier : Parser String := return (← expect [.identifier]).text

/-- Reads an identifier if one is at the cursor. -/
def identifier? : Parser (Option String) := do
  match ← peek? with
  | some t => if t.kind = .identifier then return some (← identifier) else return none
  | none => return none

/-- The outcome of a parser on the tokens of a source text of `size` bytes, and what it left. -/
def outcome {α : Type} (p : Parser α) (size : Nat) (tokens : List Token) :
    Except ParseError α × List Token :=
  match p tokens with
  | .ok a rest => (.ok a, rest)
  | .error failure rest => (.error (failure.error size rest), rest)

end Parser

end BatchCompiler
