/-
# BatchCompiler.Proofs.Printing -- programs as text

The printer turns a tree into tokens and puts blanks between them. Parentheses stand only where the
levels of the grammar ask for them: every place in which an expression can stand has a level, and an
expression that is looser than its place is put in parentheses. The levels are those of the grammar,
from the assignment to the atoms:

    1 `=`   2 `?:`   3 `||`   4 `&&`   5 `|`   6 `^`   7 `&`   8 `==`   9 `<`   10 `<<`
    11 `+`  12 `*`   13 signs   14 suffixes   15 names and literals

Conditionals, loops, functions and returns are at home on level 0: bare where they are a whole
statement, in parentheses everywhere else.
-/

import BatchCompiler.Parse.Grammar
import BatchCompiler.Proofs.Naming

namespace BatchCompiler

/-! ## Tokens -/

namespace Quoted

/-- A character as it stands between the quotes of a literal. -/
def encodeChar (c : Char) : List Char :=
  if c = '"' ∨ c = '\\' then ['\\', c] else if c = '\n' then ['\\', 'n'] else [c]

/-- The literal that denotes the text. -/
def encode (s : String) : String := String.ofList ('"' :: (s.toList.flatMap encodeChar ++ ['"']))

end Quoted

namespace Token

/-- A punctuator or a keyword. -/
def symbol (text : String) : Token :=
  { kind := if text ∈ keywords then .keyword else .punctuator, text, loc := 0 }

/-- A name. -/
def name (x : String) : Token := { kind := .identifier, text := x, loc := 0 }

/-- A number. -/
def number (k : Nat) : Token := { kind := .number, text := toString k, loc := 0, value := some k }

/-- A string literal. -/
def literal (s : String) : Token := { kind := .string, text := Quoted.encode s, loc := 0 }

/-- The end of the input. -/
def ending : Token := { kind := .eof, text := "", loc := 0 }

end Token

/-- The tokens of each item, with commas between them. -/
def commas (items : List (List Token)) : List Token := [Token.symbol ","].intercalate items

theorem commas_cons_cons (x y : List Token) (zs : List (List Token)) :
    commas (x :: y :: zs) = x ++ .symbol "," :: commas (y :: zs) := by
  rw [commas, List.intercalate_cons_cons, List.append_assoc]
  rfl

theorem commas_singleton (x : List Token) : commas [x] = x := List.intercalate_singleton

/-- The tokens in braces. -/
def braces (ts : List Token) : List Token := .symbol "\x7b" :: (ts ++ [.symbol "\x7d"])

/-! ## Levels -/

/-- The sign of the operator in a source text. -/
def BinaryOp.symbol : BinaryOp → String
  | add => "+"
  | sub => "-"
  | mul => "*"
  | div => "/"
  | mod => "%"
  | bitAnd => "&"
  | bitOr => "|"
  | bitXor => "^"
  | shl => "<<"
  | shr => ">>"
  | eq => "=="
  | ne => "!="
  | lt => "<"
  | le => "<="
  | gt => ">"
  | ge => ">="

/-- The level of the operator. -/
def BinaryOp.level : BinaryOp → Nat
  | bitOr => 5
  | bitXor => 6
  | bitAnd => 7
  | eq | ne => 8
  | lt | le | gt | ge => 9
  | shl | shr => 10
  | add | sub => 11
  | mul | div | mod => 12

/-- The sign of the step in a source text. -/
def StepOp.symbol : StepOp → String
  | inc => "++"
  | dec => "--"

namespace Node

/-- The level on which the node can stand without parentheses. -/
def level : Node → Nat
  | assign .. => 1
  | ternary .. => 2
  | or .. => 3
  | and .. => 4
  | binary _ op _ _ => op.level
  | integer _ v => if v < 0 then 13 else 15
  | step _ _ leading _ => if leading then 13 else 14
  | call .. | index .. => 14
  | string .. | identifier .. | array .. => 15
  | program .. | branch .. | loop .. | function .. | ret .. => 0

/-- The tokens of a node in a place of this level. -/
def placed (n : Node) (place : Nat) (ts : List Token) : List Token :=
  if n.level < place then .symbol "(" :: (ts ++ [.symbol ")"]) else ts

/-! ## Trees as tokens -/

mutual

/-- The tokens of the node. -/
def print : Node → List Token
  | program _ body => printBody body
  | integer _ v => if v < 0 then [.symbol "-", .number v.natAbs] else [.number v.natAbs]
  | string _ s => [.literal s]
  | identifier _ x => [.name x]
  | binary _ op a b =>
    a.placed (op.level + 1) (print a) ++ .symbol op.symbol :: b.placed op.level (print b)
  | and _ a b => a.placed 5 (print a) ++ .symbol "&&" :: b.placed 4 (print b)
  | or _ a b => a.placed 4 (print a) ++ .symbol "||" :: b.placed 3 (print b)
  | assign _ t v => t.placed 2 (print t) ++ .symbol "=" :: v.placed 1 (print v)
  | branch _ c t e =>
    .symbol "if" :: .symbol "(" :: (c.placed 1 (print c) ++ .symbol ")" :: (braces (printBody t) ++
      if e.isEmpty then [] else .symbol "else" :: braces (printBody e)))
  | ternary _ c t e =>
    c.placed 3 (print c) ++ .symbol "?" :: (t.placed 1 (print t) ++ .symbol ":" ::
      e.placed 2 (print e))
  | loop _ c body =>
    .symbol "while" :: .symbol "(" :: (c.placed 1 (print c) ++ .symbol ")" ::
      braces (printBody body))
  | function _ x ps body =>
    .symbol "func" :: (x.toList.map Token.name ++ .symbol "(" ::
      (commas (ps.map fun p => [Token.name p]) ++ .symbol ")" :: braces (printBody body)))
  | call _ f args =>
    f.placed 14 (print f) ++ .symbol "(" :: (commas (printItems args) ++ [.symbol ")"])
  | ret _ v => .symbol "return" :: v.placed 1 (print v)
  | step _ op true t => .symbol op.symbol :: t.placed 13 (print t)
  | step _ op false t => t.placed 14 (print t) ++ [.symbol op.symbol]
  | array _ es => .symbol "[" :: (commas (printItems es) ++ [.symbol "]"])
  | index _ b i =>
    b.placed 14 (print b) ++ .symbol "[" :: (i.placed 1 (print i) ++ [.symbol "]"])

/-- The tokens of statements, each with its semicolon. -/
def printBody : List Node → List Token
  | [] => []
  | n :: ns => print n ++ .symbol ";" :: printBody ns

/-- The tokens of each expression of a list. -/
def printItems : List Node → List (List Token)
  | [] => []
  | n :: ns => n.placed 1 (print n) :: printItems ns

end

/-- The node as text: its tokens with blanks between them. -/
def text (n : Node) : String := " ".intercalate (n.print.map Token.text)

/-! ## Trees that can be written -/

/-- The node is one that a source text can spell as an expression or a statement. -/
inductive Expressible : Node → Prop where
  | integer (l : Nat) {v : Int} : -maxInteger ≤ v → v ≤ maxInteger → Expressible (.integer l v)
  | string (l : Nat) (s : String) : Expressible (.string l s)
  | identifier (l : Nat) {x : String} : isIdentifier x = true → Expressible (.identifier l x)
  | binary (l : Nat) (op : BinaryOp) {a b : Node} :
    Expressible a → Expressible b → Expressible (.binary l op a b)
  | and (l : Nat) {a b : Node} : Expressible a → Expressible b → Expressible (.and l a b)
  | or (l : Nat) {a b : Node} : Expressible a → Expressible b → Expressible (.or l a b)
  | assign (l : Nat) {t v : Node} :
    t.isAssignable = true → Expressible t → Expressible v → Expressible (.assign l t v)
  | branch (l : Nat) {c : Node} {t e : List Node} : Expressible c → (∀ n ∈ t, Expressible n) →
    (∀ n ∈ e, Expressible n) → Expressible (.branch l c t e)
  | ternary (l : Nat) {c t e : Node} :
    Expressible c → Expressible t → Expressible e → Expressible (.ternary l c t e)
  | loop (l : Nat) {c : Node} {body : List Node} :
    Expressible c → (∀ n ∈ body, Expressible n) → Expressible (.loop l c body)
  | function (l : Nat) {x : Option String} {ps : List String} {body : List Node} :
    (∀ y ∈ x, isIdentifier y = true) → (∀ p ∈ ps, isIdentifier p = true) →
    (∀ n ∈ body, Expressible n) → Expressible (.function l x ps body)
  | call (l : Nat) {f : Node} {args : List Node} :
    Expressible f → (∀ n ∈ args, Expressible n) → Expressible (.call l f args)
  | ret (l : Nat) {v : Node} : Expressible v → Expressible (.ret l v)
  | step (l : Nat) (op : StepOp) (leading : Bool) {t : Node} :
    Expressible t → Expressible (.step l op leading t)
  | array (l : Nat) {es : List Node} : (∀ n ∈ es, Expressible n) → Expressible (.array l es)
  | index (l : Nat) {b i : Node} : Expressible b → Expressible i → Expressible (.index l b i)

/-! ## Trees without places -/

mutual

/-- The node with every offset set to zero. -/
def erase : Node → Node
  | program _ body => program 0 (eraseAll body)
  | integer _ v => integer 0 v
  | string _ s => string 0 s
  | identifier _ x => identifier 0 x
  | binary _ op a b => binary 0 op (erase a) (erase b)
  | and _ a b => and 0 (erase a) (erase b)
  | or _ a b => or 0 (erase a) (erase b)
  | assign _ t v => assign 0 (erase t) (erase v)
  | branch _ c t e => branch 0 (erase c) (eraseAll t) (eraseAll e)
  | ternary _ c t e => ternary 0 (erase c) (erase t) (erase e)
  | loop _ c body => loop 0 (erase c) (eraseAll body)
  | function _ x ps body => function 0 x ps (eraseAll body)
  | call _ f args => call 0 (erase f) (eraseAll args)
  | ret _ v => ret 0 (erase v)
  | step _ op leading t => step 0 op leading (erase t)
  | array _ es => array 0 (eraseAll es)
  | index _ b i => index 0 (erase b) (erase i)

/-- Every node of the list with every offset set to zero. -/
def eraseAll : List Node → List Node
  | [] => []
  | n :: ns => erase n :: eraseAll ns

end

theorem eraseAll_eq_map (ns : List Node) : eraseAll ns = ns.map erase := by
  induction ns with
  | nil => rfl
  | cons n ns ih => simp [eraseAll, ih]

theorem eraseAll_append (xs ys : List Node) :
    eraseAll (xs ++ ys) = eraseAll xs ++ eraseAll ys := by
  simp only [eraseAll_eq_map, List.map_append]

@[simp] theorem construct_erase (n : Node) : n.erase.construct = n.construct := by
  cases n <;> rfl

@[simp] theorem isAssignable_erase (n : Node) : n.erase.isAssignable = n.isAssignable := by
  simp [isAssignable]

end Node

/-! ## How printed nodes begin -/

/-- The token can begin an expression: it is neither the end nor a symbol that closes something. -/
def Token.begins (t : Token) : Bool :=
  t.kind ≠ .eof && [")", "]", "\x7d", ";"].all fun text => !t.isSymbol text

/-- The first of the tokens can begin an expression. -/
def Begins (ts : List Token) : Prop := ∃ t rest, ts = t :: rest ∧ t.begins = true

theorem Begins.cons {t : Token} (h : t.begins = true) (ts : List Token) : Begins (t :: ts) :=
  ⟨t, ts, rfl, h⟩

theorem Begins.append {ts : List Token} (h : Begins ts) (us : List Token) : Begins (ts ++ us) := by
  obtain ⟨t, rest, rfl, ht⟩ := h
  exact ⟨t, rest ++ us, rfl, ht⟩

theorem Node.begins_placed {n : Node} {ts : List Token} (h : Begins ts) (place : Nat) :
    Begins (n.placed place ts) := by
  unfold placed
  split
  · exact .cons (by decide) _
  · exact h

end BatchCompiler
