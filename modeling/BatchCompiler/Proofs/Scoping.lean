/-
# BatchCompiler.Proofs.Scoping -- what names may be bound to

A name in scope stands for a variable of its own spelling, for an argument of the routine, or for a
builtin. Only the first is checked against the compiler's own spellings, and only the last is one of
the compiler's variables. `WellScoped` says so of every scope that is open; the lemmas below say that
each step of generation keeps it.
-/

import BatchCompiler.Proofs.Action
import BatchCompiler.Proofs.Spelling

namespace BatchCompiler

/-! ## Bindings -/

theorem Bindings.mem_of_mem_set {name : String} {v : Variable} {bindings : Bindings}
    {entry : String × Variable} (h : entry ∈ bindings.set name v) :
    entry = (name, v) ∨ entry ∈ bindings := by
  induction bindings with
  | nil => exact .inl (List.mem_singleton.1 h)
  | cons first rest ih =>
    obtain ⟨other, w⟩ := first
    unfold Bindings.set at h
    split at h
    · rcases List.mem_cons.1 h with heq | hrest
      · exact .inl heq
      · exact .inr (List.mem_cons_of_mem _ hrest)
    · rcases List.mem_cons.1 h with rfl | hrest
      · exact .inr List.mem_cons_self
      · rcases ih hrest with heq | hmem
        · exact .inl heq
        · exact .inr (List.mem_cons_of_mem _ hmem)

theorem Bindings.mem_of_get? {name : String} {v : Variable} {bindings : Bindings}
    (h : bindings.get? name = some v) : (name, v) ∈ bindings := by
  induction bindings with
  | nil => cases h
  | cons first rest ih =>
    obtain ⟨other, w⟩ := first
    unfold Bindings.get? at h
    rw [List.lookup_cons] at h
    split at h
    next heq =>
      cases h
      rw [eq_of_beq heq]
      exact List.mem_cons_self
    next => exact List.mem_cons_of_mem _ (ih h)

/-- The scopes that are open, the innermost first. -/
def ScopeChain.opened (chain : ScopeChain) : List Bindings := chain.nested ++ [chain.root]

/-- A declaration changes one scope, by one entry. -/
theorem ScopeChain.mem_opened_declare {chain : ScopeChain} {name : String} {v : Variable}
    {scope : Bindings} (h : scope ∈ (chain.declare name v).opened) {entry : String × Variable}
    (hentry : entry ∈ scope) :
    entry = (name, v) ∨ ∃ other ∈ chain.opened, entry ∈ other := by
  obtain ⟨root, nested⟩ := chain
  cases nested with
  | nil =>
    obtain rfl := List.mem_singleton.1 h
    rcases Bindings.mem_of_mem_set hentry with heq | hmem
    · exact .inl heq
    · exact .inr ⟨root, List.mem_singleton.2 rfl, hmem⟩
  | cons first rest =>
    rcases List.mem_cons.1 h with rfl | hscope
    · rcases Bindings.mem_of_mem_set hentry with heq | hmem
      · exact .inl heq
      · exact .inr ⟨first, List.mem_cons_self, hmem⟩
    · exact .inr ⟨scope, List.mem_cons_of_mem _ hscope, hentry⟩

theorem ScopeChain.exists_mem_of_lookup {chain : ScopeChain} {name : String} {v : Variable}
    (h : chain.lookup name = some v) : ∃ scope ∈ chain.opened, (name, v) ∈ scope := by
  obtain ⟨scope, hscope, hget⟩ := List.exists_of_findSome?_eq_some h
  exact ⟨scope, hscope, Bindings.mem_of_get? hget⟩

/-! ## What is shared -/

/-- The second has all the numbers and builtins of the first. -/
structure Shared.Extends (first second : Shared) : Prop where
  temps : first.counters.temps ≤ second.counters.temps
  emitted {k : String} {v : Variable} :
    first.emitted.get? k = some v → second.emitted.get? k = some v

theorem Shared.Extends.refl (shared : Shared) : shared.Extends shared :=
  ⟨Nat.le_refl _, id⟩

theorem Shared.Extends.trans {a b c : Shared} (hab : a.Extends b) (hbc : b.Extends c) :
    a.Extends c :=
  ⟨Nat.le_trans hab.temps hbc.temps, fun h => hbc.emitted (hab.emitted h)⟩

/-- The variable is one of the temporaries that have been made up. -/
def Shared.Made (shared : Shared) (v : Variable) : Prop :=
  ∃ n, 1 ≤ n ∧ n ≤ shared.counters.temps ∧ v.storage = .named (.temp n)

/-- The variable is that of a builtin that has been set up. -/
def Shared.IsHandle (shared : Shared) (x : Name) : Prop :=
  ∃ k v, shared.emitted.get? k = some v ∧ v.storage = .named x

/-- What a name in scope may be bound to: the variable of that spelling, which is not one of the
compiler's; an argument of the routine behind the one for the result; or the builtin of that name. -/
def Shared.Admits (shared : Shared) (k : String) (v : Variable) : Prop :=
  (v.storage = .named (.user k) ∧ isReservedName k = false) ∨
  (∃ i, v.storage = .slot i ∧ 2 ≤ i) ∨
  (shared.emitted.get? k = some v ∧ shared.Made v)

theorem Shared.Made.mono {a b : Shared} (h : a.Extends b) {v : Variable} (hv : a.Made v) :
    b.Made v := by
  obtain ⟨n, hpos, hle, hn⟩ := hv
  exact ⟨n, hpos, Nat.le_trans hle h.temps, hn⟩

theorem Shared.Admits.mono {a b : Shared} (h : a.Extends b) {k : String} {v : Variable}
    (hv : a.Admits k v) : b.Admits k v := by
  rcases hv with huser | hslot | ⟨hget, hmade⟩
  · exact .inl huser
  · exact .inr (.inl hslot)
  · exact .inr (.inr ⟨h.emitted hget, hmade.mono h⟩)

/-! ## Scopes -/

/-- Every open scope binds names to what they may be bound to, and what is set up are builtins of the
language, each of which is one of the temporaries. -/
structure WellScoped (scopes : ScopeChain) (shared : Shared) : Prop where
  admits {scope : Bindings} {k : String} {v : Variable} :
    scope ∈ scopes.opened → (k, v) ∈ scope → shared.Admits k v
  builtin {k : String} {v : Variable} :
    (k, v) ∈ shared.emitted → isBuiltin k = true ∧ shared.Made v

namespace WellScoped

variable {scopes : ScopeChain} {shared : Shared}

theorem of_lookup (h : WellScoped scopes shared) {k : String} {v : Variable}
    (hk : scopes.lookup k = some v) : shared.Admits k v := by
  obtain ⟨scope, hscope, hmem⟩ := ScopeChain.exists_mem_of_lookup hk
  exact h.admits hscope hmem

theorem declare (h : WellScoped scopes shared) {k : String} {v : Variable}
    (hv : shared.Admits k v) : WellScoped (scopes.declare k v) shared where
  admits := by
    intro scope k' v' hscope hmem
    rcases ScopeChain.mem_opened_declare hscope hmem with heq | ⟨other, hother, hmem'⟩
    · cases heq
      exact hv
    · exact h.admits hother hmem'
  builtin := h.builtin

theorem declareSlots (h : WellScoped scopes shared) {first : Nat} (hfirst : 2 ≤ first)
    (params : List String) : WellScoped (scopes.declareSlots first params) shared := by
  induction params generalizing scopes first with
  | nil => exact h
  | cons param rest ih =>
    exact ih (h.declare (.inr (.inl ⟨first, rfl, hfirst⟩))) (Nat.le_succ_of_le hfirst)

theorem declareAll {bindings : Bindings} (h : WellScoped scopes shared)
    (hb : ∀ k v, (k, v) ∈ bindings → shared.Admits k v) :
    WellScoped (scopes.declareAll bindings) shared := by
  induction bindings generalizing scopes with
  | nil => exact h
  | cons entry rest ih =>
    refine ih (h.declare (hb entry.1 entry.2 List.mem_cons_self)) ?_
    intro k v hkv
    exact hb k v (List.mem_cons_of_mem _ hkv)

theorem enter (h : WellScoped scopes shared) : WellScoped scopes.enter shared where
  admits := by
    intro scope k v hscope hmem
    rcases List.mem_cons.1 hscope with rfl | hscope
    · exact absurd hmem List.not_mem_nil
    · exact h.admits hscope hmem
  builtin := h.builtin

theorem leave (h : WellScoped scopes shared) : WellScoped scopes.leave shared where
  admits := by
    intro scope k v hscope hmem
    refine h.admits ?_ hmem
    rcases List.mem_append.1 hscope with hnested | hroot
    · exact List.mem_append_left _ (List.mem_of_mem_tail hnested)
    · exact List.mem_append_right _ hroot
  builtin := h.builtin

/-- A unit starts with nothing in scope. -/
theorem start (h : WellScoped scopes shared) : WellScoped {} shared where
  admits := by
    intro scope k v hscope hmem
    obtain rfl := List.mem_singleton.1 hscope
    exact absurd hmem List.not_mem_nil
  builtin := h.builtin

/-- The scopes of a unit stay as they should be while other units go on from what it shares. -/
theorem extend (h : WellScoped scopes shared) {later : Shared} (hext : shared.Extends later)
    (hlater : ∀ k v, (k, v) ∈ later.emitted → isBuiltin k = true ∧ later.Made v) :
    WellScoped scopes later where
  admits := fun hscope hmem => (h.admits hscope hmem).mono hext
  builtin := fun {k v} => hlater k v

end WellScoped

/-! ## Spellings -/

/-- The text is neither a name that is bound to a named variable nor the spelling of such a
variable. A name that is bound to an argument may be any text: it is not the name of a variable. -/
def Bindings.Avoids (bindings : Bindings) (text : String) : Prop :=
  ∀ k v x, (k, v) ∈ bindings → v.storage = .named x → k ≠ text ∧ x.render ≠ text

theorem ne_render_temp {k : String} (h : isReservedName k = false) (n : Nat) :
    k ≠ (Name.temp n).render := by
  rintro rfl
  rw [isReservedName_render_temp] at h
  cases h

/-- No variable that has been made up is spelled like one that has not. -/
theorem Shared.Made.render_ne {shared : Shared} {v : Variable} {x : Name} {n : Nat}
    (h : shared.Made v) (hx : v.storage = .named x) (hn : shared.counters.temps < n) :
    x.render ≠ (Name.temp n).render := by
  obtain ⟨m, -, hm, hv⟩ := h
  rw [hx] at hv
  cases hv
  intro hrender
  have hmn : Name.temp m = Name.temp n := Name.render_inj trivial trivial hrender
  cases hmn
  omega

/-- A temporary that has yet to be made up occurs neither in a scope nor among the builtins. -/
theorem WellScoped.avoids {scopes : ScopeChain} {shared : Shared} (h : WellScoped scopes shared)
    {n : Nat} (hn : shared.counters.temps < n) :
    (∀ scope ∈ scopes.opened, scope.Avoids (Name.temp n).render) ∧
      shared.emitted.Avoids (Name.temp n).render := by
  constructor
  · intro scope hscope k v x hkv hx
    rcases h.admits hscope hkv with ⟨huser, hk⟩ | ⟨i, hslot, -⟩ | ⟨hget, hmade⟩
    · rw [hx] at huser
      cases huser
      exact ⟨ne_render_temp hk n, ne_render_temp hk n⟩
    · rw [hx] at hslot
      cases hslot
    · -- The names of the builtins are not of the shapes that the compiler makes up.
      have hk := isReservedName_of_isBuiltin (h.builtin (Bindings.mem_of_get? hget)).1
      exact ⟨ne_render_temp hk n, hmade.render_ne hx hn⟩
  · intro k v x hkv hx
    have hk := isReservedName_of_isBuiltin (h.builtin hkv).1
    exact ⟨ne_render_temp hk n, (h.builtin hkv).2.render_ne hx hn⟩

/-! ## States -/

namespace State

/-- The scopes of the state are as they should be. -/
abbrev WellScoped (s : State) : Prop := BatchCompiler.WellScoped s.scopes s.shared

theorem extends_freshTemp (s : State) : s.shared.Extends s.freshTemp.2.shared :=
  ⟨Nat.le_succ _, id⟩

theorem WellScoped.freshTemp {s : State} (h : s.WellScoped) : s.freshTemp.2.WellScoped :=
  h.extend s.extends_freshTemp fun _ _ hkv =>
    ⟨(h.builtin hkv).1, (h.builtin hkv).2.mono s.extends_freshTemp⟩

/-- A builtin that is recorded for the first time extends what was shared. -/
theorem extends_record {shared : Shared} {name : String} (v : Variable)
    (hnew : shared.emitted.get? name = none) :
    shared.Extends { shared with emitted := shared.emitted.set name v } where
  temps := Nat.le_refl _
  emitted := by
    intro k w hk
    show (shared.emitted.set name v).get? k = some w
    rw [Bindings.get?_set, if_neg]
    · exact hk
    · rintro rfl
      rw [hnew] at hk
      cases hk

theorem WellScoped.record {s : State} (h : s.WellScoped) {name : String} {v : Variable}
    (hname : isBuiltin name = true) (hnew : s.shared.emitted.get? name = none)
    (hv : s.shared.Made v) :
    BatchCompiler.WellScoped s.scopes { s.shared with emitted := s.shared.emitted.set name v } := by
  refine h.extend (extends_record v hnew) ?_
  intro k w hkw
  rcases Bindings.mem_of_mem_set hkw with heq | hmem
  · cases heq
    exact ⟨hname, hv⟩
  · exact h.builtin hmem

theorem extends_withProcess {s : State} (hnew : s.shared.emitted.get? "process" = none) :
    s.shared.Extends s.withProcess.shared :=
  s.extends_freshTemp.trans (@extends_record s.freshTemp.2.shared _ _ hnew)

theorem WellScoped.withProcess {s : State} (h : s.WellScoped)
    (hnew : s.shared.emitted.get? "process" = none) : s.withProcess.WellScoped :=
  h.freshTemp.record (s := s.freshTemp.2) (isBuiltin_iff.2 rfl) hnew
    ⟨s.temps + 1, Nat.succ_pos _, Nat.le_refl _, rfl⟩

/-- At first nothing is bound and nothing is set up. -/
theorem WellScoped.initial : ({} : State).WellScoped where
  admits := by
    intro scope k v hscope hmem
    obtain rfl := List.mem_singleton.1 hscope
    exact absurd hmem List.not_mem_nil
  builtin := fun hmem => absurd hmem List.not_mem_nil

/-- A unit takes over the names of another one that went on from what the unit shares. -/
theorem WellScoped.adopt {s t : State} (hs : s.WellScoped) (ht : t.WellScoped)
    (hext : s.shared.Extends t.shared) : (s.adopt t).WellScoped := by
  have hs' : BatchCompiler.WellScoped s.scopes t.shared :=
    BatchCompiler.WellScoped.extend hs hext fun _ _ hkv => ht.builtin hkv
  refine hs'.declareAll ?_
  intro k v hkv
  exact ht.admits (List.mem_append_right _ (List.mem_singleton.2 rfl)) hkv

end State

end BatchCompiler
