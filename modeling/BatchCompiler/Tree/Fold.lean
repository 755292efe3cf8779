/-
# BatchCompiler.Tree.Fold -- additions of literals, done ahead of time

One pass from the leaves up, which rebuilds the whole tree. The sum of two integer literals is folded
if it is an integer of the language; a sum with a string literal is the concatenation of the two
texts. Everything else stays. A switch turns the folding off, and nothing else.
-/

import BatchCompiler.Integer
import BatchCompiler.Tree.Node

namespace BatchCompiler

namespace Node

/-- The sum of two nodes, as a literal if both are literals and their sum is one. -/
def foldedSum (loc : Nat) : Node → Node → Node
  | integer la a, integer lb b =>
    if fitsInteger (a + b) then integer loc (a + b)
    else binary loc .add (integer la a) (integer lb b)
  | integer _ a, string _ b => string loc (toString a ++ b)
  | string _ a, integer _ b => string loc (a ++ toString b)
  | string _ a, string _ b => string loc (a ++ b)
  | a, b => binary loc .add a b

/-- What becomes of a node whose children have been rewritten: an addition is folded if that is asked
for, and every other node stays as it is. -/
def rewriteRoot : Bool → Node → Node
  | true, binary loc .add a b => foldedSum loc a b
  | _, n => n

mutual

/-- The node as it is generated. Its children are rewritten first, and then the node itself; only the
constructs that are ever folded are offered to `rewriteRoot` (`optimize_eq`). -/
def optimize (folding : Bool) : Node → Node
  | program l body => program l (optimizeAll folding body)
  | integer l v => integer l v
  | string l v => string l v
  | identifier l x => identifier l x
  | binary l op a b => rewriteRoot folding (binary l op (optimize folding a) (optimize folding b))
  | and l a b => and l (optimize folding a) (optimize folding b)
  | or l a b => or l (optimize folding a) (optimize folding b)
  | assign l t v => assign l (optimize folding t) (optimize folding v)
  | branch l c t e =>
    branch l (optimize folding c) (optimizeAll folding t) (optimizeAll folding e)
  | ternary l c t e => ternary l (optimize folding c) (optimize folding t) (optimize folding e)
  | loop l c body => loop l (optimize folding c) (optimizeAll folding body)
  | function l x ps body => function l x ps (optimizeAll folding body)
  | call l c args => call l (optimize folding c) (optimizeAll folding args)
  | ret l v => ret l (optimize folding v)
  | step l op leading t => step l op leading (optimize folding t)
  | array l es => array l (optimizeAll folding es)
  | index l b i => index l (optimize folding b) (optimize folding i)

/-- Every node of the list as it is generated. -/
def optimizeAll (folding : Bool) : List Node → List Node
  | [] => []
  | n :: ns => optimize folding n :: optimizeAll folding ns

end

/-- The node with every addition of literals folded, the innermost first. -/
abbrev fold (n : Node) : Node := optimize true n

/-- A list is rewritten by rewriting its members. -/
theorem optimizeAll_eq_map (folding : Bool) (ns : List Node) :
    optimizeAll folding ns = ns.map (optimize folding) := by
  induction ns with
  | nil => rfl
  | cons n ns ih => simp [optimizeAll, ih]

/-- Every node is rewritten by rewriting its children and then offering the node itself to
`rewriteRoot`, whatever its construct is. -/
theorem optimize_eq (folding : Bool) (n : Node) :
    optimize folding n = rewriteRoot folding (n.mapChildren (optimize folding)) := by
  cases n <;> simp [optimize, rewriteRoot, mapChildren, optimizeAll_eq_map]

/-- Nothing is folded if that is not asked for. -/
@[simp] theorem rewriteRoot_false (n : Node) : rewriteRoot false n = n := rfl

end Node

end BatchCompiler
