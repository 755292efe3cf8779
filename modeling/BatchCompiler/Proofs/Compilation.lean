/-
# BatchCompiler.Proofs.Compilation -- a compilation as a machine

A compilation writes one unit at a time. While an included unit is written, the units around it wait;
it starts from what they share and gives that back. `Compilation.Step` lists all that can happen:
what a unit does to its own state, that a unit begins and ends, and that a failure closes what is
open. The generation of every node is a sequence of such steps (`Compilation.lawful`), so what every
step keeps holds of all the states that a compilation goes through, in all its units.
-/

import Mathlib.Logic.Relation
import BatchCompiler.Proofs.Contract
import BatchCompiler.Proofs.Scoping

namespace BatchCompiler

/-! ## The machine -/

/-- What a unit can do to its own state without making up a temporary. -/
inductive State.Step : State → State → Prop
  | emit (s : State) (segment : Segment) (line : Line) : Step s (s.emitTo segment line)
  | stack (s : State) (stack : List Operand) : Step s { s with stack }
  | label (s : State) : Step s s.freshLabel.2
  /-- Binds a name that the user may choose to the variable of that name. -/
  | user (s : State) (name : String) (ty : ValueType) :
    isReservedName name = false → Step s (s.declare name (.named (.user name) ty))
  /-- Binds a name to an argument of the routine. Parameters are not checked. -/
  | param (s : State) (name : String) (i : Nat) (ty : ValueType) :
    2 ≤ i → Step s (s.declare name (.slot i ty))
  /-- Binds a name to the builtin of that name. -/
  | builtin (s : State) (name : String) (v : Variable) :
    s.shared.emitted.get? name = some v → Step s (s.declare name v)
  | enter (s : State) : Step s { s with scopes := s.scopes.enter }
  | leave (s : State) : Step s { s with scopes := s.scopes.leave }

/-- A compilation in progress. -/
structure Compilation where
  /-- The state of the unit that is being written. -/
  current : State := {}
  /-- The states of the units that wait for it, the innermost first. -/
  waiting : List State := []
  /-- The temporaries that have been made up in all the units, the last one first. -/
  made : List Name := []
  failed : Bool := false

namespace Compilation

/-- What can happen in a compilation. -/
inductive Step : Compilation → Compilation → Prop
  | unit {s t : State} (waiting : List State) (made : List Name) :
    s.Step t → Step ⟨s, waiting, made, false⟩ ⟨t, waiting, made, false⟩
  | temp (s : State) (waiting : List State) (made : List Name) :
    Step ⟨s, waiting, made, false⟩ ⟨s.freshTemp.2, waiting, s.freshTemp.1 :: made, false⟩
  /-- Records a temporary as the variable of a builtin that is used for the first time. -/
  | record (s : State) (waiting : List State) (made : List Name) {name : String}
      {builtin : Builtin} {x : Name} :
    Registry.standard.get? name = some builtin → s.shared.emitted.get? name = none → x ∈ made →
      Step ⟨s, waiting, made, false⟩
        ⟨{ s with shared := { s.shared with
            emitted := s.shared.emitted.set name (.named x builtin.ty) } }, waiting, made, false⟩
  /-- An included unit begins. -/
  | begin (s : State) (waiting : List State) (made : List Name) :
    Step ⟨s, waiting, made, false⟩ ⟨{ shared := s.shared }, s :: waiting, made, false⟩
  /-- An included unit ends, and the unit around it takes over what it contributes. -/
  | finish (s t : State) (waiting : List State) (made : List Name) :
    Step ⟨t, s :: waiting, made, false⟩ ⟨s.adopt t, waiting, made, false⟩
  | fail (s : State) (waiting : List State) (made : List Name) :
    Step ⟨s, waiting, made, false⟩ ⟨s, waiting, made, true⟩
  /-- A failure closes the scope that is open. -/
  | unwind (s : State) (waiting : List State) (made : List Name) :
    Step ⟨s, waiting, made, true⟩ ⟨{ s with scopes := s.scopes.leave }, waiting, made, true⟩
  /-- A failure in an included unit is a failure of the unit around it. -/
  | abandon (s t : State) (waiting : List State) (made : List Name) :
    Step ⟨t, s :: waiting, made, true⟩ ⟨s, waiting, made, true⟩

/-- Any number of steps. -/
abbrev Steps : Compilation → Compilation → Prop := Relation.ReflTransGen Step

/-- The compilation is one that can come about. -/
def Reached (c : Compilation) : Prop := Steps {} c

/-! ## Generation takes steps -/

/-- Whatever waits and has been made up before, a step of generation that succeeds goes from one
state to the other, and one that fails goes there and fails. -/
def contract : Contract where
  inv := fun _ => True
  fresh := fun _ => True
  done := fun _ s t => ∀ waiting made,
    ∃ made', Steps ⟨s, waiting, made, false⟩ ⟨t, waiting, made', false⟩
  failed := fun s t => ∀ waiting made,
    ∃ made', Steps ⟨s, waiting, made, false⟩ ⟨t, waiting, made', true⟩

theorem done_of_step {s t : State} (h : s.Step t) (ns : List Node) : contract.done ns s t :=
  fun waiting made => ⟨made, .single (.unit waiting made h)⟩

theorem sequential : contract.Sequential where
  inv_of_done := fun _ _ => trivial
  refl := fun _ _ made => ⟨made, .refl⟩
  trans := by
    intro ms ns s t u _ hst htu waiting made
    obtain ⟨made', hst'⟩ := hst waiting made
    obtain ⟨made'', htu'⟩ := htu waiting made'
    exact ⟨made'', hst'.trans htu'⟩
  perm := fun _ h => h
  cons := fun _ h => h
  failed_refl := fun _ waiting made => ⟨made, .single (.fail _ waiting made)⟩
  failed_trans := by
    intro ns s t u _ hst htu waiting made
    obtain ⟨made', hst'⟩ := hst waiting made
    obtain ⟨made'', htu'⟩ := htu waiting made'
    exact ⟨made'', hst'.trans htu'⟩
  fresh := fun _ => trivial
  temp := fun _ waiting made => ⟨_, .single (.temp _ waiting made)⟩
  stack := fun stack _ => done_of_step (.stack _ stack) _
  emit := fun {s} segment {line} _ _ => done_of_step (.emit s segment line) _
  label := fun _ => done_of_step (.label _) _
  user := fun ty _ h => done_of_step (.user _ _ ty h) _
  param := fun {s} name {i} ty _ h => done_of_step (.param s name i ty h) _
  enter := fun _ => trivial
  leave := by
    intro ns s t _ h waiting made
    obtain ⟨made', h'⟩ := h waiting made
    exact ⟨made', .head (.unit _ _ (.enter s)) (h'.tail (.unit _ _ (.leave t)))⟩
  failed_leave := by
    intro s t _ h waiting made
    obtain ⟨made', h'⟩ := h waiting made
    exact ⟨made', .head (.unit _ _ (.enter s)) (h'.tail (.unwind t waiting made'))⟩

theorem ignores (kind : Segment → Line → Bool) : contract.Ignores kind :=
  fun s segment line _ _ => done_of_step (.emit s segment line) _

theorem steps_emit (s : State) (waiting : List State) (made : List Name) (lines : List Line) :
    Steps ⟨s, waiting, made, false⟩
      ⟨{ s with segments := { s.segments with decl := s.segments.decl ++ lines } }, waiting, made,
        false⟩ := by
  induction lines generalizing s with
  | nil => rw [List.append_nil]
  | cons line lines ih =>
    have hfirst : Step ⟨s, waiting, made, false⟩ ⟨s.emitTo .decl line, waiting, made, false⟩ :=
      .unit waiting made (.emit s .decl line)
    have hrest := ih (s.emitTo .decl line)
    simp only [State.emitTo, Segments.add, List.append_assoc, List.singleton_append] at hrest
    exact .head hfirst hrest

theorem lawful {setup : Setup} (h : setup.registry = .standard) : contract.Lawful setup where
  toSequential := sequential
  standard := h
  bound := fun _ hv => done_of_step (.builtin _ _ _ hv) _
  process := by
    intro s _ hnew waiting made
    refine ⟨s.freshTemp.1 :: made, ?_⟩
    -- A temporary is made up, the lines of the object are written, and the temporary is recorded.
    have htemp : Steps ⟨s, waiting, made, false⟩ _ := .single (.temp s waiting made)
    have hlines := steps_emit s.freshTemp.2 waiting (s.freshTemp.1 :: made)
      (processLines s.freshTemp.1)
    refine (htemp.trans hlines).tail ?_
    have hget := Registry.standard_get? "process"
    rw [if_pos rfl] at hget
    exact Step.record _ _ _ hget hnew List.mem_cons_self
  loop := fun hc hb => sequential.loop (ignores _) hc hb
  function := fun loc name params _ _ _ hb => sequential.function (ignores _) loc name params hb
  assign := fun _ _ _ _ _ ht hv => sequential.assign (ignores _) ht hv
  step := fun _ _ _ op _ _ ht => sequential.step (ignores _) op ht
  inv_start := fun _ => trivial
  adopt := by
    intro ns s t _ hdone waiting made
    -- While the other unit is written, this one waits.
    obtain ⟨made', hinside⟩ := hdone (s :: waiting) made
    exact ⟨made', .head (.begin s waiting made) (hinside.tail (.finish s t waiting made'))⟩
  adopt_failed := by
    intro s t _ hfailed waiting made
    obtain ⟨made', hinside⟩ := hfailed (s :: waiting) made
    exact ⟨made', .head (.begin s waiting made) (hinside.tail (.abandon s t waiting made'))⟩

/-! ## What every step keeps -/

/-- The first temporaries, the last one first. -/
def firstTemps : Nat → List Name
  | 0 => []
  | n + 1 => .temp (n + 1) :: firstTemps n

theorem mem_firstTemps {n : Nat} {x : Name} (h : x ∈ firstTemps n) :
    ∃ m, 1 ≤ m ∧ m ≤ n ∧ x = .temp m := by
  induction n with
  | zero => exact absurd h List.not_mem_nil
  | succ n ih =>
    rcases List.mem_cons.1 h with rfl | hrest
    · exact ⟨n + 1, Nat.succ_pos n, Nat.le_refl _, rfl⟩
    · obtain ⟨m, hpos, hle, hm⟩ := ih hrest
      exact ⟨m, hpos, Nat.le_succ_of_le hle, hm⟩

theorem length_firstTemps (n : Nat) : (firstTemps n).length = n := by
  induction n with
  | zero => rfl
  | succ n ih => exact congrArg Nat.succ ih

theorem nodup_render_firstTemps (n : Nat) : ((firstTemps n).map Name.render).Nodup := by
  induction n with
  | zero => exact List.nodup_nil
  | succ n ih =>
    refine List.nodup_cons.2 ⟨?_, ih⟩
    intro hmem
    obtain ⟨x, hx, hrender⟩ := List.mem_map.1 hmem
    obtain ⟨m, -, hle, rfl⟩ := mem_firstTemps hx
    have hmn : Name.temp m = Name.temp (n + 1) := Name.render_inj trivial trivial hrender
    cases hmn
    omega

/-- The scopes of every unit are as they should be, each unit has all that the units around it share,
and what has been made up are the first temporaries. No unit counts more of them, and the one that is
being written counts them all. -/
structure Sound (c : Compilation) : Prop where
  scopes : ∀ s ∈ c.current :: c.waiting, s.WellScoped
  nested : (c.current :: c.waiting).Pairwise fun inner outer => outer.shared.Extends inner.shared
  made : ∃ n, c.made = firstTemps n ∧ c.current.temps ≤ n ∧
    (c.failed = false → n = c.current.temps)

/-- A unit whose scopes are as they should be may begin with the temporaries that it has counted. -/
theorem sound_of_wellScoped {s : State} (h : s.WellScoped) :
    Sound ⟨s, [], firstTemps s.temps, false⟩ where
  scopes := by
    intro u hu
    obtain rfl := List.mem_singleton.1 hu
    exact h
  nested := List.pairwise_singleton _ _
  made := ⟨s.temps, rfl, Nat.le_refl _, fun _ => rfl⟩

/-- What a unit does to its own state keeps its scopes as they should be, and all that is shared. -/
theorem scoped_of_step {s t : State} (h : s.Step t) (hs : s.WellScoped) :
    t.WellScoped ∧ s.shared.Extends t.shared ∧ t.temps = s.temps := by
  cases h with
  | emit segment line => exact ⟨hs, .refl _, rfl⟩
  | stack stack => exact ⟨hs, .refl _, rfl⟩
  | label => exact ⟨hs.extend ⟨Nat.le_refl _, id⟩ fun k v => hs.builtin, ⟨Nat.le_refl _, id⟩, rfl⟩
  | user name ty hname => exact ⟨hs.declare (.inl ⟨rfl, hname⟩), .refl _, rfl⟩
  | param name i ty hi => exact ⟨hs.declare (.inr (.inl ⟨i, rfl, hi⟩)), .refl _, rfl⟩
  | builtin name v hv =>
    have hmade := (hs.builtin (Bindings.mem_of_get? hv)).2
    exact ⟨hs.declare (.inr (.inr ⟨hv, hmade⟩)), .refl _, rfl⟩
  | enter => exact ⟨hs.enter, .refl _, rfl⟩
  | leave => exact ⟨hs.leave, .refl _, rfl⟩

/-- The unit that is being written may go on from what it shares. -/
theorem Sound.advance {s t : State} {waiting : List State} {made made' : List Name} {n : Nat}
    {failed failed' : Bool} (h : Sound ⟨s, waiting, made, failed⟩) (ht : t.WellScoped)
    (hext : s.shared.Extends t.shared) (hmade : made' = firstTemps n) (hle : t.temps ≤ n)
    (hn : failed' = false → n = t.temps) : Sound ⟨t, waiting, made', failed'⟩ where
  scopes := by
    intro u hu
    rcases List.mem_cons.1 hu with rfl | hu
    · exact ht
    · exact h.scopes u (List.mem_cons_of_mem _ hu)
  nested := by
    obtain ⟨houter, hwaiting⟩ := List.pairwise_cons.1 h.nested
    refine List.pairwise_cons.2 ⟨?_, hwaiting⟩
    intro outer hmem
    exact (houter outer hmem).trans hext
  made := ⟨n, hmade, hle, hn⟩

/-- The units around the one that is being written are sound without it. -/
theorem Sound.abandon {s t : State} {waiting : List State} {made : List Name} {failed : Bool}
    (h : Sound ⟨t, s :: waiting, made, failed⟩) : Sound ⟨s, waiting, made, true⟩ where
  scopes := fun u hu => h.scopes u (List.mem_cons_of_mem _ hu)
  nested := (List.pairwise_cons.1 h.nested).2
  made := by
    obtain ⟨n, hmade, hle, -⟩ := h.made
    have houter := (List.pairwise_cons.1 h.nested).1 s List.mem_cons_self
    exact ⟨n, hmade, Nat.le_trans houter.temps hle, fun hfailed => by cases hfailed⟩

theorem sound_of_step {c d : Compilation} (h : Step c d) (hc : Sound c) : Sound d := by
  have hcurrent := hc.scopes c.current List.mem_cons_self
  obtain ⟨n, hmade, hle, hn⟩ := hc.made
  cases h with
  | unit waiting made hstep =>
    obtain ⟨ht, hext, htemps⟩ := scoped_of_step hstep hcurrent
    exact hc.advance ht hext hmade (htemps ▸ hle) fun _ => (hn rfl).trans htemps.symm
  | temp s waiting made =>
    obtain rfl : n = s.temps := hn rfl
    obtain rfl : made = firstTemps s.temps := hmade
    exact hc.advance (n := s.temps + 1) hcurrent.freshTemp s.extends_freshTemp rfl (Nat.le_refl _)
      fun _ => rfl
  | @record s waiting made name builtin x hget hnew hx =>
    obtain rfl : n = s.temps := hn rfl
    obtain rfl : made = firstTemps s.temps := hmade
    -- What is recorded is one of the first temporaries.
    obtain ⟨m, hpos, hm, rfl⟩ := mem_firstTemps hx
    have hv : s.shared.Made (.named (.temp m) builtin.ty) := ⟨m, hpos, hm, rfl⟩
    have hname : isBuiltin name = true := by
      unfold isBuiltin
      rw [hget]
      rfl
    have hrecord := hcurrent.record hname hnew hv
    exact hc.advance hrecord (State.extends_record _ hnew) rfl hle fun _ => rfl
  | begin s waiting made =>
    refine ⟨?_, ?_, n, hmade, hle, hn⟩
    · intro u hu
      rcases List.mem_cons.1 hu with rfl | hu
      · exact hcurrent.start
      · exact hc.scopes u hu
    · refine List.pairwise_cons.2 ⟨?_, hc.nested⟩
      intro outer houter
      rcases List.mem_cons.1 houter with rfl | houter
      · exact .refl _
      · exact (List.pairwise_cons.1 hc.nested).1 outer houter
  | finish s t waiting made =>
    obtain ⟨houter, hwaiting⟩ := List.pairwise_cons.1 hc.nested
    -- The unit that ends has all that the unit around it shares, so its names may be taken over.
    have hext : s.shared.Extends t.shared := houter s List.mem_cons_self
    have hs : s.WellScoped := hc.scopes s (List.mem_cons_of_mem _ List.mem_cons_self)
    have hwaits : Sound ⟨s, waiting, made, true⟩ := hc.abandon
    exact hwaits.advance (hs.adopt hcurrent hext) hext hmade hle hn
  | fail s waiting made => exact hc.advance hcurrent (.refl _) hmade hle fun h => by cases h
  | unwind s waiting made => exact hc.advance hcurrent.leave (.refl _) hmade hle fun h => by cases h
  | abandon s t waiting made => exact hc.abandon

theorem sound_of_steps {c d : Compilation} (h : Steps c d) (hc : Sound c) : Sound d := by
  induction h with
  | refl => exact hc
  | tail _ hstep ih => exact sound_of_step hstep ih

/-- What every step keeps holds of all that can come about. -/
theorem sound_of_reached {c : Compilation} (h : Reached c) : Sound c :=
  sound_of_steps h (sound_of_wellScoped .initial)

/-- A step of generation that succeeds keeps the scopes as they should be, and all that is shared. -/
theorem scoped_of_obeys {α : Type} {ns : List Node} {m : Gen α} (h : Obeys contract ns m)
    {s t : State} {a : α} (hs : s.WellScoped) (hm : m s = .ok a t) :
    t.WellScoped ∧ s.shared.Extends t.shared := by
  -- The state before the step is kept as that of a unit that waits.
  have hbefore : Sound ⟨s, [s], firstTemps s.temps, false⟩ := by
    refine ⟨?_, ?_, s.temps, rfl, Nat.le_refl _, fun _ => rfl⟩
    · intro u hu
      rcases List.mem_cons.1 hu with rfl | hu
      · exact hs
      · obtain rfl := List.mem_singleton.1 hu
        exact hs
    · refine List.pairwise_cons.2 ⟨?_, List.pairwise_singleton _ _⟩
      intro outer houter
      obtain rfl := List.mem_singleton.1 houter
      exact .refl _
  obtain ⟨made, hsteps⟩ := (h.of_ok trivial hm).1 [s] (firstTemps s.temps)
  have hafter := sound_of_steps hsteps hbefore
  refine ⟨hafter.scopes t List.mem_cons_self, ?_⟩
  exact (List.pairwise_cons.1 hafter.nested).1 s List.mem_cons_self

end Compilation

end BatchCompiler
