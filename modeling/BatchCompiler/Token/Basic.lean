/-
# BatchCompiler.Token.Basic -- the words of the language

A token is a classified piece of source text with the offset at which it starts. Numbers carry
their value. The tables of keywords and punctuators are the whole vocabulary.
-/

namespace BatchCompiler

/-- What a token is. -/
inductive TokenKind where
  | identifier
  | keyword
  | punctuator
  | number
  | string
  | eof
  deriving DecidableEq, Repr

/-- The phrase by which a diagnostic asks for a token of this kind. -/
def TokenKind.phrase : TokenKind → String
  | identifier => "an identifier"
  | keyword => "a keyword"
  | punctuator => "a punctuator"
  | number => "a number"
  | string => "a string"
  | eof => "end of input"

/-- A classified piece of source text. -/
structure Token where
  kind : TokenKind
  /-- The characters of the token as written. -/
  text : String
  /-- The byte offset at which the token starts. -/
  loc : Nat
  /-- The value of a number. -/
  value : Option Int := none
  deriving DecidableEq, Repr

namespace Token

/-- The number of bytes the token takes. -/
def size (t : Token) : Nat := t.text.utf8ByteSize

/-- The token is the punctuator or keyword `text`. -/
def isSymbol (t : Token) (text : String) : Bool :=
  (t.kind = .punctuator ∨ t.kind = .keyword) ∧ t.text = text

/-- The end of the input, which no rule of the grammar consumes. -/
def isEnd : Option Token → Bool
  | none => true
  | some t => t.kind = .eof

/-- What a diagnostic says was found: the text, or that the input ended. -/
def found : Option Token → String
  | none => "EOF"
  | some t => if t.kind = .eof then "EOF" else t.text

end Token

/-- The words that are not identifiers. -/
def keywords : List String := ["func", "if", "else", "while", "return", "true", "false"]

/-- The punctuators, each before those that begin it. -/
def punctuators : List String :=
  ["<<", ">>", "==", "!=", "<=", ">=", "&&", "||", "++", "--", "+", "-", "*", "/", "%", "&", "|",
   "^", "<", ">", "=", "?", ":", "(", ")", "\x7b", "\x7d", "[", "]", ",", ";"]

end BatchCompiler
