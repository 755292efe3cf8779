/-
# BatchCompiler.Scope.Chain -- names in scope

A unit has a root scope, and each function being written opens one more. A name is declared in the
innermost scope and looked up from there outwards. The root scope is never closed.
-/

import BatchCompiler.Scope.Variable

namespace BatchCompiler

/-! ## Bindings -/

/-- Names and what they are bound to, each name once, in the order of their first binding. -/
abbrev Bindings := List (String × Variable)

namespace Bindings

/-- What the name is bound to. -/
def get? (bindings : Bindings) (name : String) : Option Variable := bindings.lookup name

/-- The bindings with the name bound to `v`, whatever it was bound to before. -/
def set (name : String) (v : Variable) : Bindings → Bindings
  | [] => [(name, v)]
  | (other, w) :: rest => if other = name then (name, v) :: rest else (other, w) :: set name v rest

/-- A name is bound to what it was set to, and the other names to what they were bound to. -/
theorem get?_set (name other : String) (v : Variable) (bindings : Bindings) :
    (set name v bindings).get? other = if other = name then some v else bindings.get? other := by
  induction bindings with
  | nil =>
    by_cases h : other = name
    · simp [set, get?, h]
    · simp [set, get?, List.lookup_cons, h, beq_eq_false_iff_ne.2 h]
  | cons entry rest ih =>
    obtain ⟨x, w⟩ := entry
    simp only [set, get?] at ih ⊢
    by_cases hx : x = name
    · subst hx
      by_cases h : other = x
      · simp [h]
      · simp [List.lookup_cons, h, beq_eq_false_iff_ne.2 h]
    · by_cases h : other = x
      · subst h
        simp [hx]
      · simp [hx, List.lookup_cons, beq_eq_false_iff_ne.2 h, ih]

end Bindings

/-! ## Chains of scopes -/

/-- The scopes that are open. -/
structure ScopeChain where
  root : Bindings := []
  /-- The scopes opened since, the innermost first. -/
  nested : List Bindings := []
  deriving DecidableEq, Repr

namespace ScopeChain

/-- Opens a scope. -/
def enter (chain : ScopeChain) : ScopeChain := { chain with nested := [] :: chain.nested }

/-- Closes the innermost scope, unless it is the root. -/
def leave (chain : ScopeChain) : ScopeChain := { chain with nested := chain.nested.tail }

/-- Binds the name in the innermost scope. -/
def declare (chain : ScopeChain) (name : String) (v : Variable) : ScopeChain :=
  match chain.nested with
  | [] => { chain with root := chain.root.set name v }
  | scope :: outer => { chain with nested := scope.set name v :: outer }

/-- Binds all of the names in the innermost scope. -/
def declareAll (chain : ScopeChain) (bindings : Bindings) : ScopeChain :=
  bindings.foldl (fun chain (name, v) => chain.declare name v) chain

/-- What the name is bound to in the innermost scope that binds it. -/
def lookup (chain : ScopeChain) (name : String) : Option Variable :=
  (chain.nested ++ [chain.root]).findSome? (·.get? name)

/-- Opening and closing a scope changes nothing. -/
@[simp] theorem leave_enter (chain : ScopeChain) : chain.enter.leave = chain := rfl

/-- A name is bound to what it was declared as last, and the other names to what they were. -/
theorem lookup_declare (chain : ScopeChain) (name other : String) (v : Variable) :
    (chain.declare name v).lookup other = if other = name then some v else chain.lookup other := by
  obtain ⟨root, nested⟩ := chain
  cases nested with
  | nil =>
    simp only [declare, lookup, List.nil_append, List.findSome?_cons, List.findSome?_nil]
    rw [Bindings.get?_set]
    by_cases h : other = name <;> simp [h]
  | cons scope outer =>
    simp only [declare, lookup, List.cons_append, List.findSome?_cons]
    rw [Bindings.get?_set]
    by_cases h : other = name <;> simp [h]

end ScopeChain

end BatchCompiler
