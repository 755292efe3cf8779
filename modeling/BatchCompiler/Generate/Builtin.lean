/-
# BatchCompiler.Generate.Builtin -- names that every program knows

A name that no scope binds is looked up in a registry of builtins. The first use of a builtin in a
compilation sets it up, which may write lines and makes the variable that the name stands for.
-/

import BatchCompiler.Generate.State

namespace BatchCompiler

/-! ## Registries -/

/-- A name that is bound at its first use. -/
structure Builtin where
  name : String
  ty : ValueType
  /-- Writes what the builtin needs and gives the variable that it is. -/
  setup : StateM State Variable

/-- How a listing shows a builtin. -/
def Builtin.describe (b : Builtin) : String :=
  "Builtin \x7b name: \"" ++ b.name ++ "\", ty: " ++ b.ty.name ++ ", .. \x7d"

/-- The builtins that a compilation knows, each name once. -/
abbrev Registry := List Builtin

namespace Registry

/-- The builtin of this name. -/
def get? (registry : Registry) (name : String) : Option Builtin :=
  registry.find? (·.name = name)

/-- The registry with one more builtin, in place of the one of the same name if there is one. -/
def register (registry : Registry) (b : Builtin) : Registry :=
  registry.filter (·.name ≠ b.name) ++ [b]

/-- A registered builtin is found under its name, and the others under theirs. -/
theorem get?_register (registry : Registry) (b : Builtin) (name : String) :
    (registry.register b).get? name = if name = b.name then some b else registry.get? name := by
  unfold register get?
  rw [List.find?_append]
  by_cases h : name = b.name
  · subst h
    have hnone : (registry.filter (·.name ≠ b.name)).find? (·.name = b.name) = none := by
      rw [List.find?_eq_none]
      intro c hc
      simpa using (List.mem_filter.1 hc).2
    rw [hnone, if_pos rfl, Option.none_or]
    simp
  · rw [if_neg h]
    have hlast : [b].find? (·.name = name) = none := by simp [Ne.symm h]
    rw [hlast, Option.or_none, List.find?_filter]
    congr 1
    funext c
    by_cases hc : c.name = name
    · simp [hc, h]
    · simp [hc]

end Registry

/-! ## The process object -/

/-- The lines that set up the process object `p`: a handle, a routine that ends the script, and an
exit code. -/
def processLines (p : Name) : List Line :=
  [.handle p, .blank, .exitHandle p, .gotoBare (.behindExit p), .label (.exit p), .goto .eof,
   .label (.behindExit p), .blank, .exitCode p]

/-- Sets up the process object. -/
def setupProcess : StateM State Variable := do
  let p ← modifyGet State.freshTemp
  (processLines p).forM fun line => modify (State.emitTo .decl line)
  return .named p .text

/-- The builtins of the language. -/
def Registry.standard : Registry := [{ name := "process", ty := .text, setup := setupProcess }]

/-! ## Names -/

/-- The variable that a name stands for: what a scope binds it to, or else a builtin, which is set
up if this is its first use. -/
def Gen.resolve (registry : Registry) (loc : Nat) (name : String) : Gen Variable := do
  if let some v ← Gen.lookup name then return v
  if let some v := (← get).shared.emitted.get? name then
    Gen.declare name v
    return v
  match registry.get? name with
  | none => Gen.fail loc (.unresolved name)
  | some builtin =>
    let v : Variable := { ← modifyGet builtin.setup with ty := builtin.ty }
    modify fun s => { s with shared := { s.shared with emitted := s.shared.emitted.set name v } }
    Gen.declare name v
    return v

end BatchCompiler
