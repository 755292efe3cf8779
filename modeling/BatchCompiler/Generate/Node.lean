/-
# BatchCompiler.Generate.Node -- from trees to lines

Generation is one recursion over the tree. It hands the parts of each construct to the lowering of
that construct and decides nothing else.
-/

import BatchCompiler.Generate.Array
import BatchCompiler.Generate.Assignment
import BatchCompiler.Generate.Control
import BatchCompiler.Generate.Include
import BatchCompiler.Generate.Operator
import BatchCompiler.Generate.Routine

namespace BatchCompiler.Gen

/-- The callee is the name by which other files are included. -/
def isInclude : Node → Bool
  | .identifier _ name => name = "include"
  | _ => false

/-- The program itself: the lines that start the script, and its statements. -/
def lowerProgram (body : List Part) : Gen Unit := do
  emitTo .init .echoOff
  emitTo .init .deferExpansion
  block body

mutual

/-- Generates a node. -/
def node (env : Env) : Node → Gen Unit
  | .program _ body => lowerProgram (parts env body)
  | .integer _ v => push (.integer v)
  | .string _ s => push (.text [.chars (escape s)])
  | .identifier loc name => do push (.var (← resolve env.registry loc name))
  | .binary _ op a b => lowerBinary op ⟨a, node env a⟩ ⟨b, node env b⟩
  | .and _ a b => lowerAnd ⟨a, node env a⟩ ⟨b, node env b⟩
  | .or _ a b => lowerOr ⟨a, node env a⟩ ⟨b, node env b⟩
  | .assign _ t v => lowerAssign ⟨t, node env t⟩ ⟨v, node env v⟩
  | .branch _ c t e => lowerBranch ⟨c, node env c⟩ (parts env t) (parts env e)
  | .ternary _ c t e => lowerTernary ⟨c, node env c⟩ ⟨t, node env t⟩ ⟨e, node env e⟩
  | .loop _ c body => lowerLoop ⟨c, node env c⟩ (parts env body)
  | .function loc name params body => lowerFunction loc name params (parts env body)
  | .call loc f args =>
    if isInclude f then lowerInclude env loc args
    else lowerCall ⟨f, node env f⟩ (parts env args)
  | .ret _ v => lowerReturn ⟨v, node env v⟩
  | .step _ op _ t => lowerStep op ⟨t, node env t⟩
  | .array _ elements => lowerArray (parts env elements)
  | .index _ b i => lowerIndex ⟨b, node env b⟩ ⟨i, node env i⟩

/-- Nodes together with the steps that generate them. -/
def parts (env : Env) : List Node → List Part
  | [] => []
  | n :: ns => ⟨n, node env n⟩ :: parts env ns

end

/-- Every node of a list becomes a part. -/
theorem parts_eq_map (env : Env) (ns : List Node) :
    parts env ns = ns.map fun n => ⟨n, node env n⟩ := by
  induction ns with
  | nil => rfl
  | cons n ns ih => simp [parts, ih]

end BatchCompiler.Gen
