/-
# BatchCompiler.Tree.Node -- programs as trees

Every node carries the byte offset of the token that introduced it. A node's direct children have
one order, that of the source text, in which `mapChildrenM` visits them.
-/

import BatchCompiler.Tree.Operator

namespace BatchCompiler

/-- A program or a part of one. -/
inductive Node where
  | program (loc : Nat) (body : List Node)
  | integer (loc : Nat) (value : Int)
  | string (loc : Nat) (value : String)
  | identifier (loc : Nat) (name : String)
  | binary (loc : Nat) (op : BinaryOp) (lhs rhs : Node)
  | and (loc : Nat) (lhs rhs : Node)
  | or (loc : Nat) (lhs rhs : Node)
  | assign (loc : Nat) (target value : Node)
  | branch (loc : Nat) (cond : Node) (thenBody elseBody : List Node)
  | ternary (loc : Nat) (cond thenValue elseValue : Node)
  | loop (loc : Nat) (cond : Node) (body : List Node)
  | function (loc : Nat) (name : Option String) (params : List String) (body : List Node)
  | call (loc : Nat) (callee : Node) (args : List Node)
  | ret (loc : Nat) (value : Node)
  | step (loc : Nat) (op : StepOp) (leading : Bool) (target : Node)
  | array (loc : Nat) (elements : List Node)
  | index (loc : Nat) (base index : Node)
  deriving Repr

/-- The kind of a node. -/
inductive Construct where
  | program | integer | string | identifier | binary | and | or | assign | branch | ternary | loop
  | function | call | ret | step | array | index
  deriving DecidableEq, Repr

/-- The phrase by which a diagnostic names a kind of node. -/
def Construct.phrase : Construct → String
  | program => "program"
  | integer => "integer"
  | string => "string"
  | identifier => "identifier"
  | binary => "binary expression"
  | and => "`&&`"
  | or => "`||`"
  | assign => "assignment"
  | branch => "`if`"
  | ternary => "ternary"
  | loop => "`while`"
  | function => "function"
  | call => "call"
  | ret => "`return`"
  | step => "increment"
  | array => "array literal"
  | index => "index"

namespace Node

/-- The byte offset of the token that introduced the node. -/
def loc : Node → Nat
  | program l _ | integer l _ | string l _ | identifier l _ | binary l _ _ _ | and l _ _ | or l _ _
  | assign l _ _ | branch l _ _ _ | ternary l _ _ _ | loop l _ _ | function l _ _ _ | call l _ _
  | ret l _ | step l _ _ _ | array l _ | index l _ _ => l

/-- The kind of the node. -/
def construct : Node → Construct
  | program .. => .program
  | integer .. => .integer
  | string .. => .string
  | identifier .. => .identifier
  | binary .. => .binary
  | and .. => .and
  | or .. => .or
  | assign .. => .assign
  | branch .. => .branch
  | ternary .. => .ternary
  | loop .. => .loop
  | function .. => .function
  | call .. => .call
  | ret .. => .ret
  | step .. => .step
  | array .. => .array
  | index .. => .index

/-- The node hands a value back to the caller of a function. -/
def isReturn (n : Node) : Bool := n.construct = .ret

/-- The node may stand on the left of `=`. -/
def isAssignable (n : Node) : Bool := n.construct = .identifier ∨ n.construct = .index

/-- The node with each direct child replaced. -/
def mapChildren (f : Node → Node) : Node → Node
  | program l body => program l (body.map f)
  | integer l v => integer l v
  | string l v => string l v
  | identifier l x => identifier l x
  | binary l op a b => binary l op (f a) (f b)
  | and l a b => and l (f a) (f b)
  | or l a b => or l (f a) (f b)
  | assign l t v => assign l (f t) (f v)
  | branch l c t e => branch l (f c) (t.map f) (e.map f)
  | ternary l c t e => ternary l (f c) (f t) (f e)
  | loop l c body => loop l (f c) (body.map f)
  | function l x ps body => function l x ps (body.map f)
  | call l c args => call l (f c) (args.map f)
  | ret l v => ret l (f v)
  | step l op leading t => step l op leading (f t)
  | array l es => array l (es.map f)
  | index l b i => index l (f b) (f i)

/-- The node with each direct child replaced by the result of an action, the actions run in the
order of the source. -/
def mapChildrenM {m : Type → Type} [Monad m] (f : Node → m Node) : Node → m Node
  | program l body => return program l (← body.mapM f)
  | integer l v => return integer l v
  | string l v => return string l v
  | identifier l x => return identifier l x
  | binary l op a b => return binary l op (← f a) (← f b)
  | and l a b => return and l (← f a) (← f b)
  | or l a b => return or l (← f a) (← f b)
  | assign l t v => return assign l (← f t) (← f v)
  | branch l c t e => return branch l (← f c) (← t.mapM f) (← e.mapM f)
  | ternary l c t e => return ternary l (← f c) (← f t) (← f e)
  | loop l c body => return loop l (← f c) (← body.mapM f)
  | function l x ps body => return function l x ps (← body.mapM f)
  | call l c args => return call l (← f c) (← args.mapM f)
  | ret l v => return ret l (← f v)
  | step l op leading t => return step l op leading (← f t)
  | array l es => return array l (← es.mapM f)
  | index l b i => return index l (← f b) (← f i)

/-- Actions without effect replace the children and do nothing else. -/
theorem mapChildrenM_pure {m : Type → Type} [Monad m] [LawfulMonad m] (f : Node → Node) (n : Node) :
    n.mapChildrenM (fun c => (pure (f c) : m Node)) = pure (n.mapChildren f) := by
  cases n <;> simp [mapChildrenM, mapChildren]

@[simp] theorem loc_mapChildren (f : Node → Node) (n : Node) : (n.mapChildren f).loc = n.loc := by
  cases n <;> rfl

@[simp] theorem construct_mapChildren (f : Node → Node) (n : Node) :
    (n.mapChildren f).construct = n.construct := by
  cases n <;> rfl

end Node

end BatchCompiler
