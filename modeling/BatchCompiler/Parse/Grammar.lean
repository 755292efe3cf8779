/-
# BatchCompiler.Parse.Grammar -- from tokens to trees

Expressions are read on a ladder of levels: assignment, the ternary, ten tiers of binary operators,
unary signs, suffixes, and atoms. A binary tier reads its left operand on the next tighter level
and its right operand on its own, so every binary operator associates to the right. Statements are
expressions with an optional semicolon behind them.

The rules call each other in a circle, but a rule goes round the circle only after it has read a
token. So the rules are written over a record of the rules that may be called from then on, and
`rules n` ties the knot for texts of at most `n` tokens. Its base answers as the rules do when no
token is left.
-/

import BatchCompiler.Parse.Cursor
import BatchCompiler.Token.Quoted

namespace BatchCompiler

/-! ## Tables -/

/-- What joins the two operands of a tier. -/
inductive Connective where
  | or
  | and
  | op (o : BinaryOp)
  deriving DecidableEq, Repr

/-- The node for two operands joined at `loc`. -/
def Connective.join (loc : Nat) (lhs rhs : Node) : Connective → Node
  | or => .or loc lhs rhs
  | and => .and loc lhs rhs
  | op o => .binary loc o lhs rhs

/-- The operators of one precedence. -/
abbrev Tier := List (String × Connective)

/-- The tiers of binary operators, from the loosest to the tightest. -/
def tiers : List Tier :=
  [[("||", .or)],
   [("&&", .and)],
   [("|", .op .bitOr)],
   [("^", .op .bitXor)],
   [("&", .op .bitAnd)],
   [("==", .op .eq), ("!=", .op .ne)],
   [("<=", .op .le), (">=", .op .ge), ("<", .op .lt), (">", .op .gt)],
   [("<<", .op .shl), (">>", .op .shr)],
   [("+", .op .add), ("-", .op .sub)],
   [("*", .op .mul), ("/", .op .div), ("%", .op .mod)]]

/-- What stands in front of an operand. -/
inductive Sign where
  | step (op : StepOp)
  | plus
  | minus
  deriving DecidableEq, Repr

/-- The signs that may stand in front of an operand. -/
def signs : List (String × Sign) :=
  [("++", .step .inc), ("--", .step .dec), ("+", .plus), ("-", .minus)]

/-- What stands behind an operand. -/
inductive Suffix where
  | call
  | index
  | step (op : StepOp)
  deriving DecidableEq, Repr

/-- The symbols that begin a suffix. -/
def suffixes : List (String × Suffix) :=
  [("(", .call), ("[", .index), ("++", .step .inc), ("--", .step .dec)]

/-- What the first symbol of an operand announces. -/
inductive Opener where
  | group
  | array
  | constant (v : Int)
  | function
  | branch
  | loop
  | ret
  deriving DecidableEq, Repr

/-- The symbols that begin an operand. -/
def openers : List (String × Opener) :=
  [("(", .group), ("[", .array), ("true", .constant 1), ("false", .constant 0),
   ("func", .function), ("if", .branch), ("while", .loop), ("return", .ret)]

/-- The node with a minus sign at `loc` in front of it: a literal is negated, anything else is
subtracted from zero. -/
def Node.negate (loc : Nat) : Node → Node
  | .integer _ v => .integer loc (-v)
  | n => .binary loc .sub (.integer loc 0) n

/-! ## Rules -/

/-- The rules that may be called once a token has been read. -/
structure Rules where
  /-- An expression on the loosest level. -/
  expression : Parser Node
  /-- An expression in which assignments are in parentheses. -/
  ternary : Parser Node
  /-- An expression on the first of these tiers. -/
  operators : List Tier → Parser Node
  /-- An operand with its signs. -/
  signed : Parser Node
  /-- The suffixes behind an operand. -/
  suffixed : Node → Parser Node
  /-- One or more expressions with commas between them, up to the closing symbol. -/
  items : String → Parser (List Node)
  /-- One or more names with commas between them, up to the closing parenthesis. -/
  names : Parser (List String)
  /-- Statements up to a closing brace. -/
  block : Parser (List Node)
  /-- Statements up to the end. -/
  statements : Parser (List Node)

namespace Rules

open BatchCompiler.Parser

/-- A list of expressions behind its opening symbol. -/
def list (r : Rules) (close : String) : Parser (List Node) := do
  if ← accept close then return [] else r.items close

/-- A list of parameters behind its opening parenthesis. -/
def params (r : Rules) : Parser (List String) := do
  if ← accept ")" then return [] else r.names

/-- A condition in parentheses. -/
def condition (r : Rules) : Parser Node := do
  require "("
  let cond ← r.expression
  require ")"
  return cond

/-- A braced list of statements, or one statement. -/
def body (r : Rules) : Parser (List Node) := do
  if ← accept "\x7b" then r.block
  else
    let statement ← r.expression
    let _ ← accept ";"
    return [statement]

/-- A function behind its keyword. -/
def function (r : Rules) (loc : Nat) : Parser Node := do
  let name ← identifier?
  require "("
  let params ← r.params
  require "\x7b"
  return .function loc name params (← r.block)

/-- A conditional behind its keyword. -/
def branch (r : Rules) (loc : Nat) : Parser Node := do
  let cond ← r.condition
  let thenBody ← r.body
  let elseBody ← if ← accept "else" then r.body else pure []
  return .branch loc cond thenBody elseBody

/-- A loop behind its keyword. -/
def loop (r : Rules) (loc : Nat) : Parser Node := do
  let cond ← r.condition
  return .loop loc cond (← r.body)

/-- A name or a literal. -/
def atom : Parser Node := do
  let t ← expect [.identifier, .number, .string]
  match t.kind, t.value with
  | .identifier, _ => return .identifier t.loc t.text
  | .string, _ => return .string t.loc (Quoted.decode t.text)
  | _, some v => return .integer t.loc v
  | _, none => throw (.behind t.loc t.text .numberWithoutValue)

/-- An operand without its signs and suffixes. -/
def operand (r : Rules) : Parser Node := do
  match ← acceptAny? openers with
  | none => atom
  | some (_, .group) =>
    let n ← r.expression
    require ")"
    return n
  | some (t, .array) => return .array t.loc (← r.list "]")
  | some (t, .constant v) => return .integer t.loc v
  | some (t, .function) => r.function t.loc
  | some (t, .branch) => r.branch t.loc
  | some (t, .loop) => r.loop t.loc
  | some (t, .ret) => return .ret t.loc (← r.expression)

/-- One suffix behind `n` and those that follow it, or none. -/
def suffix (r : Rules) (n : Node) : Parser Node := do
  match ← acceptAny? suffixes with
  | none => return n
  | some (t, .call) => r.suffixed (.call t.loc n (← r.list ")"))
  | some (t, .index) =>
    let i ← r.expression
    require "]"
    r.suffixed (.index t.loc n i)
  | some (t, .step op) => r.suffixed (.step t.loc op false n)

/-- An operand with its signs. -/
def sign (r : Rules) : Parser Node := do
  match ← acceptAny? signs with
  | none => r.suffixed (← r.operand)
  | some (t, .step op) => return .step t.loc op true (← r.signed)
  | some (_, .plus) => r.signed
  | some (t, .minus) => return .negate t.loc (← r.signed)

/-- An expression on the first of these tiers. -/
def tier (r : Rules) : List Tier → Parser Node
  | [] => r.sign
  | t :: tighter => do
    let lhs ← r.tier tighter
    match ← acceptAny? t with
    | none => return lhs
    | some (symbol, c) => return c.join symbol.loc lhs (← r.operators (t :: tighter))

/-- An expression in which assignments are in parentheses. -/
def choice (r : Rules) : Parser Node := do
  let cond ← r.tier tiers
  match ← accept? "?" with
  | none => return cond
  | some t =>
    let thenValue ← r.expression
    require ":"
    return .ternary t.loc cond thenValue (← r.ternary)

/-- An expression on the loosest level. Only a name or an indexed place can be assigned to. -/
def assignment (r : Rules) : Parser Node := do
  let target ← r.choice
  match ← accept? "=" with
  | none => return target
  | some t =>
    if target.isAssignable then return .assign t.loc target (← r.expression)
    else throw (.behind target.loc target.construct.phrase (.notAssignable target.construct))

/-- An expression, and the semicolon behind it if there is one. -/
def statement (r : Rules) : Parser Node := do
  let n ← r.assignment
  let _ ← accept ";"
  return n

/-- Every rule, given the rules that may be called once a token has been read. -/
def next (r : Rules) : Rules where
  expression := r.assignment
  ternary := r.choice
  operators := r.tier
  signed := r.sign
  suffixed := r.suffix
  items close := do
    let item ← r.assignment
    if ← accept close then return [item]
    require ","
    return item :: (← r.items close)
  names := do
    let name ← identifier
    if ← accept ")" then return [name]
    require ","
    return name :: (← r.names)
  block := do
    if ← accept "\x7d" then return []
    if ← accept ";" then return ← r.block
    if ← atEnd then reject (.expected "\x7d")
    let n ← r.statement
    return n :: (← r.block)
  statements := do
    if ← atEnd then return []
    if ← accept ";" then return ← r.statements
    let n ← r.statement
    return n :: (← r.statements)

/-- The rules when no token is left. -/
def exhausted : Rules where
  expression := reject (.expectedKind [.identifier, .number, .string])
  ternary := reject (.expectedKind [.identifier, .number, .string])
  operators _ := reject (.expectedKind [.identifier, .number, .string])
  signed := reject (.expectedKind [.identifier, .number, .string])
  suffixed n := return n
  items _ := reject (.expectedKind [.identifier, .number, .string])
  names := reject (.expectedKind [.identifier])
  block := reject (.expected "\x7d")
  statements := return []

end Rules

/-- The rules for texts of at most `n` tokens. -/
def rules : Nat → Rules
  | 0 => .exhausted
  | n + 1 => (rules n).next

/-! ## Entry points -/

/-- Reads one expression. -/
def expression : Parser Node := fun tokens => (rules tokens.length).expression tokens

/-- Reads a whole program. -/
def program : Parser Node := fun tokens =>
  (do return .program 0 (← (rules tokens.length).statements) : Parser Node) tokens

/-- The program that the tokens of a source text of `size` bytes spell. -/
def parse (size : Nat) (tokens : List Token) : Except ParseError Node :=
  (program.outcome size tokens).1

end BatchCompiler
