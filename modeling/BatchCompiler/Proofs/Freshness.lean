/-
# BatchCompiler.Proofs.Freshness -- temporaries are always new

The trace of a run is one of the ways that a compilation can go: what happens in it happens on the
way from one state of the machine to another (`Compilation.Runs`). Each plan is such a way, by one
induction over the primitive steps, and each unit is, by one over the levels of includes. So what
the machine keeps holds of every state in the trace, and the names in the trace are those of the
first temporaries, each made up once.
-/

import BatchCompiler.Proofs.Compilation
import BatchCompiler.Proofs.Stack
import BatchCompiler.Proofs.Trace

namespace BatchCompiler

/-- The name is neither in a scope that is open nor among the builtins that have been set up. -/
def State.Avoids (s : State) (x : Name) : Prop :=
  (∀ scope ∈ s.scopes.opened, scope.Avoids x.render) ∧ s.shared.emitted.Avoids x.render

/-! ## Ways through a compilation -/

namespace Compilation

/-- The compilation gets from the first to the last, and this is what happens on the way. -/
inductive Runs : Compilation → List Moment → Compilation → Prop
  | done (c : Compilation) : Runs c [] c
  | reached {c d : Compilation} {log : List Moment} :
    Runs c log d → Runs c (.reached c.current :: log) d
  | made {c d e : Compilation} {x : Name} {log : List Moment} :
    Step c d → d.made = x :: c.made → Runs d log e → Runs c (.made x :: log) e
  /-- Any number of steps in which no temporary is made up. -/
  | steps {c d e : Compilation} {log : List Moment} :
    Steps c d → d.made = c.made → Runs d log e → Runs c log e

theorem Sound.temps_le {c : Compilation} (h : Sound c) : c.current.temps ≤ c.made.length := by
  obtain ⟨n, hn, hle, -⟩ := h.made
  rw [hn, length_firstTemps]
  exact hle

namespace Runs

variable {c d e : Compilation} {log log' : List Moment}

theorem append (h : Runs c log d) (h' : Runs d log' e) : Runs c (log ++ log') e := by
  induction h with
  | done => exact h'
  | reached _ ih => exact .reached (ih h')
  | made hstep hmade _ ih => exact .made hstep hmade (ih h')
  | steps hsteps hmade _ ih => exact .steps hsteps hmade (ih h')

/-- Steps in which no temporary is made up may follow. -/
theorem tail (h : Runs c log d) (hsteps : Steps d e) (hmade : e.made = d.made) : Runs c log e := by
  have hrun := h.append (.steps hsteps hmade (.done e))
  rwa [List.append_nil] at hrun

/-- What can be gone to without making up temporaries is reached. -/
theorem arrive (h : Steps c d) (hmade : d.made = c.made) : Runs c [.reached d.current] d :=
  .steps h hmade (.reached (.done d))

theorem toSteps (h : Runs c log d) : Steps c d := by
  induction h with
  | done => exact .refl
  | reached _ ih => exact ih
  | made hstep _ _ ih => exact .head hstep ih
  | steps hsteps _ _ ih => exact hsteps.trans ih

/-- The machine keeps a list of the names that are made up on the way. -/
theorem made_eq (h : Runs c log d) : d.made = (namesMade log).reverse ++ c.made := by
  induction h with
  | done => rfl
  | reached _ ih => exact ih
  | @made c d e x log _ hmade _ ih =>
    have hnames : namesMade (.made x :: log) = x :: namesMade log := rfl
    rw [ih, hmade, hnames, List.reverse_cons, List.append_assoc, List.singleton_append]
  | steps _ hmade _ ih => rw [ih, hmade]

/-- A state on the way is that of a compilation which can be gone to. -/
theorem exists_steps (h : Runs c log d) {s : State} (hs : .reached s ∈ log) :
    ∃ e, Steps c e ∧ e.current = s := by
  induction h with
  | done => cases hs
  | @reached c d log _ ih =>
    rcases List.mem_cons.1 hs with heq | hmem
    · cases heq
      exact ⟨c, .refl, rfl⟩
    · exact ih hmem
  | made hstep _ _ ih =>
    rcases List.mem_cons.1 hs with heq | hmem
    · cases heq
    · obtain ⟨e, hsteps, he⟩ := ih hmem
      exact ⟨e, .head hstep hsteps, he⟩
  | steps hsteps _ _ ih =>
    obtain ⟨e, hsteps', he⟩ := ih hs
    exact ⟨e, hsteps.trans hsteps', he⟩

/-- What is made up on the way comes behind all that has been made up before. -/
theorem lt_of_made (h : Runs c log d) (hc : Sound c) {x : Name} (hx : .made x ∈ log) :
    ∃ n, c.made.length < n ∧ x = .temp n := by
  induction h with
  | done => cases hx
  | reached _ ih =>
    rcases List.mem_cons.1 hx with heq | hmem
    · cases heq
    · exact ih hc hmem
  | @made c d e y log hstep hmade _ ih =>
    have hd := sound_of_step hstep hc
    rcases List.mem_cons.1 hx with heq | hmem
    · cases heq
      obtain ⟨n, hn, -⟩ := hd.made
      refine ⟨n, ?_⟩
      have hlength := congrArg List.length (hmade.symm.trans hn)
      rw [length_firstTemps, List.length_cons] at hlength
      subst hlength
      exact ⟨Nat.lt_succ_self _, (List.cons.inj (hmade.symm.trans hn)).1⟩
    · obtain ⟨n, hlt, hn⟩ := ih hd hmem
      rw [hmade, List.length_cons] at hlt
      exact ⟨n, Nat.lt_of_succ_lt hlt, hn⟩
  | steps hsteps hmade _ ih =>
    obtain ⟨n, hlt, hn⟩ := ih (sound_of_steps hsteps hc) hx
    exact ⟨n, hmade ▸ hlt, hn⟩

/-- A temporary is in none of the scopes that were there before it was made up. -/
theorem pairwise_avoids (h : Runs c log d) (hc : Sound c) :
    log.Pairwise fun earlier later =>
      ∀ s x, earlier = .reached s → later = .made x → s.Avoids x := by
  induction h with
  | done => exact .nil
  | @reached c d log hrun ih =>
    refine List.pairwise_cons.2 ⟨?_, ih hc⟩
    rintro _ hmem _ x ⟨⟩ rfl
    obtain ⟨n, hlt, rfl⟩ := hrun.lt_of_made hc hmem
    exact (hc.scopes c.current List.mem_cons_self).avoids (Nat.lt_of_le_of_lt hc.temps_le hlt)
  | made hstep _ _ ih =>
    refine List.pairwise_cons.2 ⟨?_, ih (sound_of_step hstep hc)⟩
    rintro _ _ _ _ ⟨⟩
  | steps hsteps _ _ ih => exact ih (sound_of_steps hsteps hc)

/-- No two temporaries that are made up on the way are spelled alike. -/
theorem nodup_namesMade (h : Runs c log d) (hc : Sound c) :
    ((namesMade log).map Name.render).Nodup := by
  obtain ⟨n, hn, -⟩ := (sound_of_steps h.toSteps hc).made
  have hnodup := nodup_render_firstTemps n
  rw [← hn, h.made_eq, List.map_append, List.map_reverse] at hnodup
  exact (List.pairwise_reverse.1 (List.nodup_append.1 hnodup).1).imp Ne.symm

end Runs

/-! ## Every run is such a way -/

/-- The compilation in which a unit has come to this result. -/
def ofResult {ε α : Type} (waiting : List State) (made : List Name) :
    EStateM.Result ε State α → Compilation
  | .ok _ t => ⟨t, waiting, made, false⟩
  | .error _ t => ⟨t, waiting, made, true⟩

/-- What happens in this trace leads to where the step ends. -/
def Leads {α : Type} (m : Gen α) (s : State) (log : List Moment) : Prop :=
  ∀ waiting made, ∃ made',
    Runs ⟨s, waiting, made, false⟩ log (ofResult waiting made' (m s))

/-- What happens in this trace leads to where a unit takes over what another one contributes, or to
where it fails with that other one. -/
def LeadsInto (s : State) (log : List Moment) : Except CompileError Contribution → Prop
  | .ok unit => ∀ waiting made, ∃ made' t,
      unit = ⟨t.segments.decl, t.segments.code, t.scopes.root, t.shared⟩ ∧
        Runs ⟨s, waiting, made, false⟩ log ⟨s.adopt t, waiting, made', false⟩
  | .error _ => ∀ waiting made, ∃ made',
      Runs ⟨s, waiting, made, false⟩ log ⟨s, waiting, made', true⟩

end Compilation

namespace Gen

open Compilation

variable {α β : Type} {env : Env}

theorem steps_of_unit {s t : State} (h : Relation.ReflTransGen State.Step s t)
    (waiting : List State) (made : List Name) :
    Steps ⟨s, waiting, made, false⟩ ⟨t, waiting, made, false⟩ := by
  induction h with
  | refl => exact .refl
  | tail _ hstep ih => exact ih.tail (.unit waiting made hstep)

/-- A step of generation that does no more than a unit can do to its own state. -/
theorem leads_plain {m : Gen α} {s : State} (h : Relation.ReflTransGen State.Step s (after m s)) :
    Leads m s [.reached (after m s)] := by
  intro waiting made
  refine ⟨made, ?_⟩
  have hsteps := steps_of_unit h waiting made
  cases hm : m s with
  | ok a t =>
    rw [after_of_ok hm] at hsteps ⊢
    exact .arrive hsteps rfl
  | error e t =>
    rw [after_of_error hm] at hsteps ⊢
    exact .arrive (d := ⟨t, waiting, made, true⟩) (hsteps.tail (.fail t waiting made)) rfl

/-- A name is declared only if the user may choose it. -/
theorem steps_declareUser (loc : Nat) (x : String) (ty : ValueType) (a : α) (s : State) :
    Relation.ReflTransGen State.Step s (after (do
      checkUserName loc x
      declare x (.named (.user x) ty)
      return a) s) := by
  unfold checkUserName
  split
  next => exact .refl
  next hname => exact .single (.user s x ty (Bool.eq_false_iff.2 hname))

theorem steps_nameTarget (loc : Nat) (x : String) (ty : ValueType) (s : State) :
    Relation.ReflTransGen State.Step s (after (nameTarget loc x ty) s) := by
  unfold nameTarget after
  rw [bind_of_ok (lookup_apply x s)]
  cases s.scopes.lookup x with
  | none => exact steps_declareUser loc x ty (Target.var (.user x)) s
  | some v =>
    obtain ⟨storage, ty'⟩ := v
    cases storage with
    | named y => exact .refl
    | slot i => exact .refl

theorem leads_still {m : Gen α} {s : State} (h : after m s = s) :
    Leads m s [.reached (after m s)] := by
  refine leads_plain ?_
  rw [h]

theorem leads_temp (s : State) : Leads freshTemp s [.made s.freshTemp.1, .reached s.freshTemp.2] :=
  fun waiting made =>
    ⟨s.freshTemp.1 :: made, .made (.temp s waiting made) rfl (.arrive .refl rfl)⟩

/-- The process object is set up in a temporary, which is then recorded. -/
theorem setupTrace_process {s : State} (hlookup : s.scopes.lookup "process" = none)
    (hnew : s.shared.emitted.get? "process" = none) :
    setupTrace .standard "process" s =
      [.made s.freshTemp.1, .reached (setupProcess s).2, .reached s.withProcess] := by
  unfold setupTrace
  rw [hlookup, hnew, Registry.standard_get?, if_pos rfl]
  simp only [setupProcess_apply]
  rfl

theorem leads_process {s : State} (hlookup : s.scopes.lookup "process" = none)
    (hnew : s.shared.emitted.get? "process" = none) (loc : Nat) :
    Leads (resolve .standard loc "process") s
      (setupTrace .standard "process" s ++
        [.reached (after (resolve .standard loc "process") s)]) := by
  intro waiting made
  have hrun := resolve_of_new hlookup hnew loc
  rw [if_pos rfl] at hrun
  rw [setupTrace_process hlookup hnew, after_of_ok hrun, hrun, setupProcess_apply]
  refine ⟨s.freshTemp.1 :: made, .made (.temp s waiting made) rfl ?_⟩
  refine .steps (steps_emit s.freshTemp.2 waiting _ (processLines s.freshTemp.1)) rfl (.reached ?_)
  -- The temporary is the variable of the object from here on.
  have hget := Registry.standard_get? "process"
  rw [if_pos rfl] at hget
  refine .steps (.single (.record _ waiting _ hget hnew List.mem_cons_self)) rfl (.reached ?_)
  exact .arrive (.single (.unit waiting _ (.builtin _ "process" _ s.withProcess_emitted))) rfl

theorem leads_name (loc : Nat) (x : String) (s : State) :
    Leads (resolve .standard loc x) s
      (setupTrace .standard x s ++ [.reached (after (resolve .standard loc x) s)]) := by
  -- Only a builtin that is neither bound nor set up is set up here.
  cases hlookup : s.scopes.lookup x with
  | some v =>
    have hsetup : setupTrace .standard x s = [] := by rw [setupTrace, hlookup]
    rw [hsetup]
    exact leads_still (after_of_ok (resolve_of_lookup hlookup _ _))
  | none =>
    cases hemitted : s.shared.emitted.get? x with
    | some v =>
      have hsetup : setupTrace .standard x s = [] := by rw [setupTrace, hlookup, hemitted]
      rw [hsetup]
      refine leads_plain ?_
      rw [after_of_ok (resolve_of_emitted hlookup hemitted _ _)]
      exact .single (.builtin s x v hemitted)
    | none =>
      by_cases hname : x = "process"
      · subst hname
        exact leads_process hlookup hemitted loc
      · have hsetup : setupTrace .standard x s = [] := by
          rw [setupTrace, hlookup, hemitted, Registry.standard_get?, if_neg hname]
        have hrun := resolve_of_new hlookup hemitted loc
        rw [if_neg hname] at hrun
        rw [hsetup]
        exact leads_still (after_of_error hrun)

theorem leads_bind {m : Gen α} {f : α → Gen β} {s : State} {first : List Moment}
    {rest : α → State → List Moment} (hm : Leads m s first)
    (hf : ∀ a t, Leads (f a) t (rest a t)) :
    Leads (m >>= f) s (first ++ traceBehind rest (m s)) := by
  intro waiting made
  obtain ⟨made', hfirst⟩ := hm waiting made
  rw [bind_apply]
  cases hms : m s with
  | ok a t =>
    rw [hms] at hfirst
    obtain ⟨made'', hrest⟩ := hf a t waiting made'
    exact ⟨made'', hfirst.append hrest⟩
  | error e t =>
    rw [hms] at hfirst
    rw [traceBehind, List.append_nil]
    exact ⟨made', hfirst⟩

/-- The scope is closed whether the step succeeds or not. -/
theorem leads_scope {m : Gen α} {s : State} {log : List Moment}
    (hm : Leads m { s with scopes := s.scopes.enter } log) :
    Leads (inScope m) s (.reached { s with scopes := s.scopes.enter } :: log ++
      [.reached (after (inScope m) s)]) := by
  intro waiting made
  obtain ⟨made', hinside⟩ := hm waiting made
  refine ⟨made', .steps (.single (.unit waiting made (.enter s))) rfl (.reached ?_)⟩
  refine hinside.append ?_
  unfold after inScope
  cases m { s with scopes := s.scopes.enter } with
  | ok a t => exact .arrive (.single (.unit waiting made' (.leave t))) rfl
  | error e t =>
    have hunwind : Steps ⟨t, waiting, made', true⟩ _ := .single (.unwind t waiting made')
    exact .arrive hunwind rfl

/-- What happens by plan leads to where the step ends, if that is so of includes. -/
theorem Plan.leads (hstandard : env.registry = .standard) {inside : String → Shared → List Moment}
    (hunit : ∀ loc args s, Leads (lowerInclude env loc args) s
      (Plan.trace inside (.unit loc args : Plan env (lowerInclude env loc args)) s))
    {m : Gen α} (p : Plan env m) (s : State) : Leads m s (p.trace inside s) := by
  induction p generalizing s with
  | still h => exact leads_still (h s)
  | emitTo segment line => exact leads_plain (.single (.emit s segment line))
  | push o => exact leads_plain (.single (.stack s (o :: s.stack)))
  | dropTo depth =>
    exact leads_plain (.single (.stack s (s.stack.drop (s.stack.length - depth))))
  | label => exact leads_plain (.single (.label s))
  | temp => exact leads_temp s
  | name loc x =>
    rw [trace, hstandard]
    exact leads_name loc x s
  | target loc x ty => exact leads_plain (steps_nameTarget loc x ty s)
  | function loc x => exact leads_plain (steps_declareUser loc x .text (Name.user x) s)
  | @param x i ty hi => exact leads_plain (.single (.param s x i ty hi))
  | unit loc args => exact hunit loc args s
  | bind _ _ ihfirst ihrest => exact leads_bind (ihfirst s) ihrest
  | scope _ ih => exact leads_scope (ih _)

/-- While the unit at a path is written, the one that includes it waits. -/
theorem leadsInto_unit (setup : Setup) {inside : String → Shared → List Moment}
    (hnode : ∀ n s, Leads (statement (node env n)) s (env.trace inside n s)) (path : String)
    (s : State) :
    LeadsInto s (setup.unitTrace env inside path s.shared)
      (setup.includeUnit env path s.shared) := by
  unfold Setup.unitTrace
  cases hunit : setup.includeUnit env path s.shared with
  | ok unit =>
    obtain ⟨source, program, t, hsource, hread, hgen, rfl⟩ := Setup.includeUnit_eq_ok hunit
    intro waiting made
    obtain ⟨made', hinside⟩ := hnode program { shared := s.shared } (s :: waiting) made
    rw [hgen] at hinside
    have hrun := hinside.tail (.single (.finish s t waiting made')) rfl
    rw [hsource]
    dsimp only
    rw [hread]
    exact ⟨made', t, rfl, .steps (.single (.begin s waiting made)) rfl hrun⟩
  | error e =>
    intro waiting made
    -- If the file is missing or spells no program, nothing happens in it.
    have hfail : Compilation.Runs ⟨s, waiting, made, false⟩ [] _ :=
      .steps (.single (.fail s waiting made)) rfl (.done _)
    cases hsource : setup.files path with
    | error io => exact ⟨made, hfail⟩
    | ok source =>
      dsimp only
      cases hread : readUnit setup.folding source with
      | error e' => exact ⟨made, hfail⟩
      | ok program =>
        obtain ⟨fault, t, hgen⟩ := Setup.includeUnit_eq_error hunit hsource hread
        obtain ⟨made', hinside⟩ := hnode program { shared := s.shared } (s :: waiting) made
        rw [hgen] at hinside
        have hrun := hinside.tail (.single (.abandon s t waiting made')) rfl
        exact ⟨made', .steps (.single (.begin s waiting made)) rfl hrun⟩

/-- An include asks for the unit at a path, or fails at once. -/
theorem leads_include {inside : String → Shared → List Moment}
    (hinside : match env.includeUnit? with
      | none => ∀ path shared, inside path shared = []
      | some includeUnit => ∀ path s,
          LeadsInto s (inside path s.shared) (includeUnit path s.shared))
    (loc : Nat) (args : List Node) (s : State) :
    Leads (lowerInclude env loc args) s
      (Plan.trace inside (.unit loc args : Plan env (lowerInclude env loc args)) s) := by
  by_cases hargs : ∃ l path, args = [.string l path]
  · obtain ⟨l, path, rfl⟩ := hargs
    have hrun := lowerInclude_path env loc l path s
    rw [Plan.trace, includeTrace]
    cases hinclude : env.includeUnit? with
    | none =>
      rw [hinclude] at hinside hrun
      rw [hinside]
      exact leads_still (after_of_error hrun)
    | some includeUnit =>
      rw [hinclude] at hinside hrun
      dsimp only at hrun
      have hleads := hinside (Path.join env.base path) s
      intro waiting made
      cases hincluded : includeUnit (Path.join env.base path) s.shared with
      | error e =>
        rw [hincluded] at hleads hrun
        obtain ⟨made', hunit⟩ := hleads waiting made
        rw [after_of_error hrun, hrun]
        exact ⟨made', hunit.append (.arrive .refl rfl)⟩
      | ok unit =>
        rw [hincluded] at hleads hrun
        obtain ⟨made', t, rfl, hunit⟩ := hleads waiting made
        rw [after_of_ok hrun, hrun]
        refine ⟨made', hunit.append (.arrive (.single (.unit waiting made' ?_)) rfl)⟩
        exact .stack (s.adopt t) (.text [.chars "include"] :: s.stack)
  · obtain ⟨l, problem, herror⟩ := lowerInclude_wrong env loc fun l path h => hargs ⟨l, path, h⟩
    have hnothing : includeTrace inside env.base s.shared args = [] := by
      unfold includeTrace
      split
      next l path => exact absurd ⟨l, path, rfl⟩ hargs
      next => rfl
    rw [Plan.trace, hnothing]
    exact leads_still (after_of_error (herror s))

/-- What happens while a node is generated leads to where that ends, if that is so of includes. -/
theorem leads_statement (hstandard : env.registry = .standard)
    {inside : String → Shared → List Moment}
    (hunit : ∀ loc args s, Leads (lowerInclude env loc args) s
      (Plan.trace inside (.unit loc args : Plan env (lowerInclude env loc args)) s))
    (n : Node) (s : State) : Leads (statement (node env n)) s (env.trace inside n s) := by
  intro waiting made
  obtain ⟨made', hrun⟩ := (Plan.statement (.node env n)).leads hstandard hunit s waiting made
  exact ⟨made', .reached hrun⟩

end Gen

open Compilation in
/-- Every run, with all that happens in the units that it includes, is a way through a compilation. -/
theorem Setup.leads {setup : Setup} (hstandard : setup.registry = .standard) (depth : Nat)
    (base : String) (n : Node) (s : State) :
    Leads (Gen.statement (Gen.node (setup.env depth base) n)) s (setup.trace depth base n s) := by
  induction depth generalizing base n s with
  | zero => exact Gen.leads_statement hstandard (Gen.leads_include fun _ _ => rfl) n s
  | succ depth ih =>
    -- A unit that is included is one level below.
    have hinside : ∀ path s, LeadsInto s (setup.inside (depth + 1) base path s.shared) _ :=
      fun path => Gen.leadsInto_unit setup (ih (Path.directory base path)) path
    exact Gen.leads_statement hstandard (Gen.leads_include hinside) n s

/-! ## Temporaries and the user's variables -/

namespace Options

open Compilation

variable (options : Options) (files : String → Except IoError String) (source : String) (n : Node)

/-- All that happens while a node of the outermost unit is generated is a way through a
compilation. -/
theorem leads (s : State) :
    Leads (Gen.statement (Gen.node (options.env .standard files) n)) s (options.trace files n s) :=
  Setup.leads rfl options.limit options.base n s

/-- Every state that a compilation goes through is one that can come about. -/
theorem reached_of_mem_trace {t : State} (ht : .reached t ∈ options.trace files n {}) :
    ∃ c : Compilation, c.Reached ∧ c.current = t := by
  obtain ⟨made, hrun⟩ := options.leads files n {} [] []
  exact hrun.exists_steps ht

theorem wellScoped_of_mem_trace {s t : State} (hs : s.WellScoped)
    (ht : .reached t ∈ options.trace files n s) : t.WellScoped := by
  obtain ⟨made, hrun⟩ := options.leads files n s [] (firstTemps s.temps)
  obtain ⟨e, hsteps, rfl⟩ := hrun.exists_steps ht
  exact (sound_of_steps hsteps (sound_of_wellScoped hs)).scopes e.current List.mem_cons_self

/-- The state that generation leaves, whether or not it succeeds, is reached. -/
theorem after_mem_trace (s : State) :
    .reached (Gen.after (Gen.statement (Gen.node (options.env .standard files) n)) s) ∈
      options.trace files n s :=
  List.mem_cons_of_mem _ (Gen.Plan.after_mem_trace _ _ s)

theorem wellScoped_session (earlier : List Node) {s : State} (hs : s.WellScoped) :
    (session (options.env .standard files) source id earlier s).2.WellScoped := by
  induction earlier generalizing s with
  | nil => exact hs
  | cons n earlier ih =>
    have hafter := options.wellScoped_of_mem_trace files n hs (options.after_mem_trace files n s)
    unfold session generate
    cases hgen : Gen.statement (Gen.node (options.env .standard files) n) s with
    | ok a t =>
      rw [Gen.after_of_ok hgen] at hafter
      simp only [id, hgen]
      exact ih hafter
    | error e t =>
      rw [Gen.after_of_error hgen] at hafter
      simp only [id, hgen]
      exact ih hafter

/-- As many temporaries are made up as are counted. -/
theorem temps_of_generate {s t : State} (hs : s.WellScoped)
    (h : Gen.statement (Gen.node (options.env .standard files) n) s = .ok () t) :
    t.temps = s.temps + (namesMade (options.trace files n s)).length := by
  obtain ⟨made, hrun⟩ := options.leads files n s [] (firstTemps s.temps)
  rw [h] at hrun
  obtain ⟨m, hm, -, hcounted⟩ := (sound_of_steps hrun.toSteps (sound_of_wellScoped hs)).made
  have hlength := congrArg List.length (hm.symm.trans hrun.made_eq)
  rw [length_firstTemps, List.length_append, List.length_reverse, length_firstTemps,
    hcounted rfl] at hlength
  exact hlength.trans (Nat.add_comm _ _)

end Options

-- A parameter may be spelled like a temporary. It is not a variable, and counts for nothing.
example :
    let files := fun _ => Except.ok "q = [process];"
    let program : Node := .program 0
      [.function 0 (some "f") ["__1"] [.ret 9 (.array 16 [.identifier 17 "__1"])],
       .call 30 (.identifier 30 "include") [.string 38 "lib.bc"], .array 50 []]
    namesMade (Options.trace {} files program {}) = [.temp 1, .temp 2, .temp 3, .temp 4] := by
  decide +kernel

end BatchCompiler
