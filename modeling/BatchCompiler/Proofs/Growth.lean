/-
# BatchCompiler.Proofs.Growth -- generation only adds

Whatever a step of generation does, what was there before stays: the lines of every segment, the
numbers counted so far, the builtins that have been set up, and the scopes around the innermost one.
The innermost scope may bind more names, or bind them anew, but loses none. This holds of a step that
fails as well, so the state that a failure leaves can be gone on from.

A function opens a scope, so halfway through it there is one scope more than before. The relation is
kept by what stands inside of that scope, and closing the scope then gives back exactly the scopes
from before (`ScopeChain.GrowsTo.leave_enter`).
-/

import BatchCompiler.Proofs.Contract
import BatchCompiler.Proofs.Scoping

namespace BatchCompiler

/-! ## Scopes -/

namespace ScopeChain

/-- The scope in which names are declared. -/
def innermost (chain : ScopeChain) : Bindings := chain.nested.headD chain.root

/-- The second chain has the scopes of the first one. Only the innermost may have changed, and it
binds all the names that it bound before. -/
structure GrowsTo (chain later : ScopeChain) : Prop where
  count : later.opened.length = chain.opened.length
  outer : later.opened.tail = chain.opened.tail
  names {k : String} :
    (chain.innermost.get? k).isSome = true → (later.innermost.get? k).isSome = true

namespace GrowsTo

variable {chain later latest : ScopeChain}

theorem refl (chain : ScopeChain) : chain.GrowsTo chain := ⟨rfl, rfl, id⟩

theorem trans (h : chain.GrowsTo later) (h' : later.GrowsTo latest) : chain.GrowsTo latest where
  count := h'.count.trans h.count
  outer := h'.outer.trans h.outer
  names := fun hk => h'.names (h.names hk)

theorem isSome_get?_set {bindings : Bindings} {k : String} (name : String) (v : Variable)
    (h : (bindings.get? k).isSome = true) : ((bindings.set name v).get? k).isSome = true := by
  rw [Bindings.get?_set]
  split
  · rfl
  · exact h

/-- A declaration changes the innermost scope and forgets no name. -/
theorem declare (chain : ScopeChain) (name : String) (v : Variable) :
    chain.GrowsTo (chain.declare name v) := by
  obtain ⟨root, nested⟩ := chain
  cases nested with
  | nil => exact ⟨rfl, rfl, fun hk => isSome_get?_set name v hk⟩
  | cons scope outer => exact ⟨rfl, rfl, fun hk => isSome_get?_set name v hk⟩

theorem declareAll (chain : ScopeChain) (bindings : Bindings) :
    chain.GrowsTo (chain.declareAll bindings) := by
  induction bindings generalizing chain with
  | nil => exact refl chain
  | cons entry rest ih =>
    obtain ⟨name, v⟩ := entry
    exact (declare chain name v).trans (ih (chain.declare name v))

/-- Closing a scope that was opened gives back the chain, whatever was declared in between. -/
theorem leave_enter (h : chain.enter.GrowsTo later) : later.leave = chain := by
  obtain ⟨root, nested⟩ := chain
  obtain ⟨root', nested'⟩ := later
  cases nested' with
  | nil =>
    have hcount := h.count
    simp [opened, enter] at hcount
  | cons scope outer =>
    have houter : outer ++ [root'] = nested ++ [root] := h.outer
    obtain ⟨rfl, hroot⟩ := List.append_inj' houter rfl
    cases hroot
    rfl

end GrowsTo

end ScopeChain

/-! ## States -/

namespace State

/-- The second state has all that the first one has. -/
structure GrowsTo (s t : State) : Prop where
  init : s.segments.init <+: t.segments.init
  decl : s.segments.decl <+: t.segments.decl
  code : s.segments.code <+: t.segments.code
  temps : s.temps ≤ t.temps
  labels : s.labels ≤ t.labels
  builtins {k : String} {v : Variable} :
    s.shared.emitted.get? k = some v → t.shared.emitted.get? k = some v
  scopes : s.scopes.GrowsTo t.scopes

namespace GrowsTo

variable {s t u : State}

theorem refl (s : State) : s.GrowsTo s where
  init := List.prefix_rfl
  decl := List.prefix_rfl
  code := List.prefix_rfl
  temps := Nat.le_refl _
  labels := Nat.le_refl _
  builtins := id
  scopes := .refl _

theorem trans (h : s.GrowsTo t) (h' : t.GrowsTo u) : s.GrowsTo u where
  init := h.init.trans h'.init
  decl := h.decl.trans h'.decl
  code := h.code.trans h'.code
  temps := Nat.le_trans h.temps h'.temps
  labels := Nat.le_trans h.labels h'.labels
  builtins := fun hk => h'.builtins (h.builtins hk)
  scopes := h.scopes.trans h'.scopes

theorem emitTo (s : State) (segment : Segment) (line : Line) : s.GrowsTo (s.emitTo segment line) := by
  cases segment with
  | init => exact { refl s with init := List.prefix_append _ _ }
  | decl => exact { refl s with decl := List.prefix_append _ _ }
  | code => exact { refl s with code := List.prefix_append _ _ }

theorem declare (s : State) (name : String) (v : Variable) : s.GrowsTo (s.declare name v) :=
  { refl s with scopes := .declare s.scopes name v }

/-- Inside of a scope of its own a step may declare what it likes. -/
theorem inScope (h : { s with scopes := s.scopes.enter }.GrowsTo t) :
    s.GrowsTo { t with scopes := t.scopes.leave } where
  init := h.init
  decl := h.decl
  code := h.code
  temps := h.temps
  labels := h.labels
  builtins := h.builtins
  scopes := by
    have hback : t.scopes.leave = s.scopes := h.scopes.leave_enter
    show s.scopes.GrowsTo t.scopes.leave
    rw [hback]
    exact .refl _

theorem withProcess (hnew : s.shared.emitted.get? "process" = none) : s.GrowsTo s.withProcess where
  init := List.prefix_rfl
  decl := List.prefix_append _ _
  code := List.prefix_rfl
  temps := Nat.le_succ _
  labels := Nat.le_refl _
  builtins := (extends_withProcess hnew).emitted
  scopes := .refl _

/-- A unit takes over what another one contributes that went on from what the unit shares. -/
theorem adopt (h : GrowsTo { shared := s.shared } t) : s.GrowsTo (s.adopt t) where
  init := List.prefix_rfl
  decl := List.prefix_append _ _
  code := List.prefix_append _ _
  temps := h.temps
  labels := h.labels
  builtins := h.builtins
  scopes := .declareAll s.scopes _

end GrowsTo

end State

/-! ## Generation -/

namespace Growth

open State

/-- Every stretch of generation only adds to the state, also one that fails. -/
def contract : Contract where
  inv := fun _ => True
  fresh := fun _ => True
  done := fun _ => State.GrowsTo
  failed := State.GrowsTo

theorem sequential : contract.Sequential where
  inv_of_done := fun _ _ => trivial
  refl := fun _ => .refl _
  trans := fun _ => GrowsTo.trans
  perm := fun _ => id
  cons := fun _ => id
  failed_refl := fun _ => .refl _
  failed_trans := fun _ => GrowsTo.trans
  fresh := fun _ => trivial
  temp := fun {s} _ => { GrowsTo.refl s with temps := Nat.le_succ _ }
  stack := fun {s} _ _ => { GrowsTo.refl s with }
  emit := fun {s} segment {line} _ _ => .emitTo s segment line
  label := fun {s} _ => { GrowsTo.refl s with labels := Nat.le_succ _ }
  user := fun {s} {name} _ _ _ => .declare s name _
  param := fun {s} name {_} _ _ _ => .declare s name _
  enter := fun _ => trivial
  leave := fun _ => GrowsTo.inScope
  failed_leave := fun _ => GrowsTo.inScope

theorem ignores (kind : Segment → Line → Bool) : contract.Ignores kind :=
  fun s segment line _ _ => .emitTo s segment line

theorem lawful {setup : Setup} (h : setup.registry = .standard) : contract.Lawful setup where
  toSequential := sequential
  standard := h
  bound := fun {s} {name} {v} _ _ => .declare s name v
  process := fun _ hnew => .withProcess hnew
  loop := fun hc hb => sequential.loop (ignores _) hc hb
  function := fun loc name params _ _ _ hb => sequential.function (ignores _) loc name params hb
  assign := fun _ _ _ _ _ ht hv => sequential.assign (ignores _) ht hv
  step := fun _ _ _ op _ _ ht => sequential.step (ignores _) op ht
  inv_start := fun _ => trivial
  adopt := fun _ => GrowsTo.adopt
  adopt_failed := fun {s} _ _ _ => .refl s

end Growth

/-- Generation only adds to the state and restores the scopes, whether it succeeds or fails. Whatever
the files, the limits and the state before, the state after a node has every line of every segment
in its place, counts at least as far, knows every builtin as before, and has as many scopes open, of
which only the innermost may differ, and not by a name that it has lost. -/
theorem generation_only_adds (files : String → Except IoError String) (folding : Bool)
    (limit depth : Nat) (base : String) (n : Node) (s : State) :
    match Gen.node (Setup.env { registry := .standard, files, folding, limit } depth base) n s with
    | .ok _ t => s.GrowsTo t
    | .error _ t => s.GrowsTo t := by
  let setup : Setup := { registry := .standard, files, folding, limit }
  have hobeys : Obeys Growth.contract _ (Gen.node (setup.env depth base) n) :=
    (@Growth.lawful setup rfl).node depth base n
  have hrun := hobeys s trivial
  split
  next t hm =>
    rw [hm] at hrun
    exact hrun.1
  next e t hm =>
    rw [hm] at hrun
    exact hrun

end BatchCompiler
