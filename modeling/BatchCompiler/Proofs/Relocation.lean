/-
# BatchCompiler.Proofs.Relocation -- generated code can be placed anywhere

Generation counts temporaries and labels, and asks the counters for nothing but the next number. So
the runs of a node from all the sites where it may be placed go side by side: they take the same
branches, succeed or fail alike, and write lines that one template spells.

A family of states is steady if its members differ in numbering and in the lines before the stretch
alone. Each step of generation takes steady families to steady families (`Runs`), at the price of
counting on. What has been made up by then bounds the holes of the templates, so a family that is used
again after further steps has to be taken along (`mono`).
-/

import BatchCompiler.Proofs.Contract
import BatchCompiler.Proofs.Stack
import BatchCompiler.Proofs.Template

namespace BatchCompiler

/-! ## Families of scopes -/

/-- The same scopes are open at every site, and each has steady bindings. -/
structure ScopeChain.Steady (used : Counters) (c : Site → ScopeChain) : Prop where
  root : Bindings.Steady used fun site => (c site).root
  nested : Each (Bindings.Steady used) fun site => (c site).nested

namespace ScopeChain.Steady

variable {used later : Counters} {c : Site → ScopeChain} {v : Site → Variable}

theorem mono (h : ScopeChain.Steady used c) (hle : used.Le later) : ScopeChain.Steady later c where
  root := h.root.mono hle
  nested := h.nested.mono fun _ hb => hb.mono hle

/-- Scopes that are the same at every site. -/
theorem const (chain : ScopeChain) : ScopeChain.Steady used fun _ => chain where
  root := .const chain.root
  nested := by
    refine ⟨chain.nested.map fun scope _ => scope, ?_, ?_⟩
    · intro y hy
      obtain ⟨scope, -, rfl⟩ := List.mem_map.1 hy
      exact .const scope
    · intro site
      simp [Function.comp_def]

theorem enter (h : ScopeChain.Steady used c) : ScopeChain.Steady used fun site => (c site).enter where
  root := h.root
  nested := .cons (.const []) h.nested

theorem leave (h : ScopeChain.Steady used c) : ScopeChain.Steady used fun site => (c site).leave where
  root := h.root
  nested := by
    have hdrop := h.nested.drop 1
    simp only [List.drop_one] at hdrop
    exact hdrop

theorem declare (h : ScopeChain.Steady used c) (name : String) (hv : Variable.Steady used v) :
    ScopeChain.Steady used fun site => (c site).declare name (v site) := by
  rcases h.nested.cases with hnil | ⟨scope, outer, hscope, houter, hcons⟩
  · have hdeclare : ∀ site, (c site).declare name (v site) =
        { c site with root := (c site).root.set name (v site) } := by
      intro site
      simp [ScopeChain.declare, hnil]
    simp only [hdeclare]
    exact ⟨h.root.set name hv, h.nested⟩
  · have hdeclare : ∀ site, (c site).declare name (v site) =
        { c site with nested := (scope site).set name (v site) :: outer site } := by
      intro site
      simp [ScopeChain.declare, hcons]
    simp only [hdeclare]
    exact ⟨h.root, .cons (hscope.set name hv) houter⟩

theorem declareAll (h : ScopeChain.Steady used c) {b : Site → Bindings}
    (hb : Bindings.Steady used b) : ScopeChain.Steady used fun site => (c site).declareAll (b site) := by
  obtain ⟨entries, hentries, heq⟩ := hb
  simp only [heq]
  clear heq
  induction entries generalizing c with
  | nil => exact h
  | cons entry rest ih =>
    refine ih (h.declare entry.1 (hentries entry List.mem_cons_self)) ?_
    intro other hother
    exact hentries other (List.mem_cons_of_mem _ hother)

/-- A name is bound at no site, or at every site to a steady variable. -/
theorem lookup (h : ScopeChain.Steady used c) (name : String) :
    (∀ site, (c site).lookup name = none) ∨
      ∃ v, Variable.Steady used v ∧ ∀ site, (c site).lookup name = some (v site) := by
  obtain ⟨scopes, hscopes, heq⟩ := h.nested
  simp only [ScopeChain.lookup, heq]
  clear heq
  induction scopes with
  | nil =>
    simp only [List.map_nil, List.nil_append, List.findSome?_cons, List.findSome?_nil]
    rcases h.root.get? name with hnone | ⟨v, hv, hsome⟩
    · exact .inl fun site => by rw [hnone]
    · exact .inr ⟨v, hv, fun site => by rw [hsome]⟩
  | cons scope scopes ih =>
    simp only [List.map_cons, List.cons_append, List.findSome?_cons]
    rcases (hscopes scope List.mem_cons_self).get? name with hnone | ⟨v, hv, hsome⟩
    · simp only [hnone]
      exact ih fun other hother => hscopes other (List.mem_cons_of_mem _ hother)
    · exact .inr ⟨v, hv, fun site => by rw [hsome]⟩

end ScopeChain.Steady

/-! ## Families of states -/

/-- Behind the old lines come lines that templates spell. -/
def Appends (used : Counters) (old new : Site → List Line) : Prop :=
  ∃ templates : List Template, (∀ t ∈ templates, t.Within used) ∧
    ∀ site, (new site).map Line.render =
      (old site).map Line.render ++ templates.map (·.fill site.counters)

namespace Appends

variable {used later : Counters} {old new lines : Site → List Line}

theorem refl (old : Site → List Line) : Appends used old old := ⟨[], nofun, fun _ => by simp⟩

theorem mono (h : Appends used old new) (hle : used.Le later) : Appends later old new := by
  obtain ⟨templates, hwithin, hrender⟩ := h
  exact ⟨templates, fun t ht => (hwithin t ht).mono hle, hrender⟩

theorem append (h : Appends used old new) (hlines : Appends used (fun _ => []) lines) :
    Appends used old fun site => new site ++ lines site := by
  obtain ⟨ts, htsWithin, htsRender⟩ := h
  obtain ⟨us, husWithin, husRender⟩ := hlines
  refine ⟨ts ++ us, ?_, ?_⟩
  · intro t ht
    rcases List.mem_append.1 ht with ht | ht
    · exact htsWithin t ht
    · exact husWithin t ht
  · intro site
    simp [htsRender, husRender]

/-- Lines that are uniform one by one. -/
theorem of_each (h : Each (fun line => Uniform used fun site => (line site).render) lines) :
    Appends used (fun _ => []) lines := by
  obtain ⟨ys, hys, heq⟩ := h
  simp only [Appends, heq]
  clear heq
  induction ys with
  | nil => exact ⟨[], nofun, fun _ => rfl⟩
  | cons y ys ih =>
    obtain ⟨t, htWithin, htFill⟩ := hys y List.mem_cons_self
    obtain ⟨ts, htsWithin, htsRender⟩ := ih fun z hz => hys z (List.mem_cons_of_mem _ hz)
    refine ⟨t :: ts, ?_, ?_⟩
    · intro u hu
      rcases List.mem_cons.1 hu with rfl | hu
      · exact htWithin
      · exact htsWithin u hu
    · intro site
      simpa [htFill] using htsRender site

end Appends

/-- As many temporaries and labels have been made up at every site, and the same builtins set up. -/
structure Shared.Steady (used : Counters) (shared : Site → Shared) : Prop where
  counters (site : Site) : (shared site).counters = site.counters.add used
  emitted : Bindings.Steady used fun site => (shared site).emitted

theorem Shared.Steady.start (emitted : Bindings) :
    Shared.Steady {} fun site => { counters := site.counters, emitted } where
  counters := fun _ => rfl
  emitted := .const emitted

/-- What units contribute differs in numbering alone. -/
structure Contribution.Steady (used : Counters) (unit : Site → Contribution) : Prop where
  decl : Appends used (fun _ => []) fun site => (unit site).decl
  code : Appends used (fun _ => []) fun site => (unit site).code
  exports : Bindings.Steady used fun site => (unit site).exports
  shared : Shared.Steady used fun site => (unit site).shared

/-- The states differ in numbering and in the lines from before alone. -/
structure State.Steady (before : Site → Segments) (used : Counters) (s : Site → State) : Prop where
  init : Appends used (fun site => (before site).init) fun site => (s site).segments.init
  decl : Appends used (fun site => (before site).decl) fun site => (s site).segments.decl
  code : Appends used (fun site => (before site).code) fun site => (s site).segments.code
  scopes : ScopeChain.Steady used fun site => (s site).scopes
  stack : Each (Operand.Steady used) fun site => (s site).stack
  shared : Shared.Steady used fun site => (s site).shared

namespace State.Steady

variable {before : Site → Segments} {used later : Counters} {s : Site → State}

theorem emitTo (h : State.Steady before used s) (segment : Segment) {line : Site → Line}
    (hline : Uniform used fun site => (line site).render) :
    State.Steady before used fun site => (s site).emitTo segment (line site) := by
  have hlines : Appends used (fun _ => []) fun site => [line site] := .of_each (.cons hline .nil)
  cases segment with
  | init => exact { h with init := h.init.append hlines }
  | decl => exact { h with decl := h.decl.append hlines }
  | code => exact { h with code := h.code.append hlines }

theorem declare (h : State.Steady before used s) (name : String) {v : Site → Variable}
    (hv : Variable.Steady used v) :
    State.Steady before used fun site => (s site).declare name (v site) :=
  { h with scopes := h.scopes.declare name hv }

/-- Counting on changes nothing else. -/
theorem countOn (h : State.Steady before used s) (hle : used.Le later) :
    State.Steady before later fun site =>
      { s site with shared := { (s site).shared with counters := site.counters.add later } } where
  init := h.init.mono hle
  decl := h.decl.mono hle
  code := h.code.mono hle
  scopes := h.scopes.mono hle
  stack := h.stack.mono fun _ ho => ho.mono hle
  shared := { counters := fun _ => rfl, emitted := h.shared.emitted.mono hle }

theorem freshTemp (h : State.Steady before used s) :
    Uniform used.nextTemp (fun site => (s site).freshTemp.1.render) ∧
      State.Steady before used.nextTemp fun site => (s site).freshTemp.2 := by
  simp only [State.freshTemp, h.shared.counters]
  exact ⟨.temp, h.countOn used.le_nextTemp⟩

theorem freshLabel (h : State.Steady before used s) :
    Uniform used.nextLabel (fun site => (s site).freshLabel.1.render) ∧
      State.Steady before used.nextLabel fun site => (s site).freshLabel.2 := by
  simp only [State.freshLabel, h.shared.counters]
  exact ⟨.loopLabel, h.countOn used.le_nextLabel⟩

/-- Setting up the process object makes up one temporary. -/
theorem withProcess (h : State.Steady before used s) :
    Variable.Steady used.nextTemp (fun site => .named (s site).freshTemp.1 .text) ∧
      State.Steady before used.nextTemp fun site => (s site).withProcess := by
  obtain ⟨hx, hfresh⟩ := h.freshTemp
  have hlines : Appends used.nextTemp (fun _ => []) fun site => processLines (s site).freshTemp.1 :=
    .of_each (.cons hx.handle (.cons (.const _) (.cons hx.exitHandle (.cons hx.behindExit.gotoBare
      (.cons hx.exit.label (.cons (.const _) (.cons hx.behindExit.label (.cons (.const _)
        (.cons hx.exitCode .nil)))))))))
  exact ⟨.named .text hx,
    { hfresh with
      decl := hfresh.decl.append hlines
      shared := ⟨hfresh.shared.counters, hfresh.shared.emitted.set "process" (.named .text hx)⟩ }⟩

theorem including (h : State.Steady before used s) (hle : used.Le later)
    {unit : Site → Contribution} (hunit : Contribution.Steady later unit) :
    State.Steady before later fun site => (s site).including (unit site) where
  init := h.init.mono hle
  decl := (h.decl.mono hle).append hunit.decl
  code := (h.code.mono hle).append hunit.code
  scopes := (h.scopes.mono hle).declareAll hunit.exports
  stack := .cons (.text (.const _)) (h.stack.mono fun _ ho => ho.mono hle)
  shared := hunit.shared

end State.Steady

/-- From what is shared before it, a unit comes to the same at every site. -/
def UnitRuns (includeUnit : Shared → Except CompileError Contribution) : Prop :=
  ∀ {used : Counters} {shared : Site → Shared}, Shared.Steady used shared →
    (∃ e, ∀ site, includeUnit (shared site) = .error e) ∨
      ∃ later unit, used.Le later ∧ (∀ site, includeUnit (shared site) = .ok (unit site)) ∧
        Contribution.Steady later unit

/-! ## Runs at every site -/

/-- The steps go alike at every site. From steady states, of which `used` has been made up, they all
succeed, with results of the given kind, or all fail in the same way; and they leave steady states. -/
def Runs {α : Type} (used : Counters) (P : Counters → (Site → α) → Prop) (m : Site → Gen α) : Prop :=
  ∀ (before : Site → Segments) (s : Site → State), State.Steady before used s →
    ∃ later, used.Le later ∧
      ((∃ a t, (∀ site, m site (s site) = .ok (a site) (t site)) ∧ P later a ∧
          State.Steady before later t) ∨
        ∃ e t, (∀ site, m site (s site) = .error e (t site)) ∧ State.Steady before later t)

/-- Nothing is said about the results. -/
def Anything {α : Type} : Counters → (Site → α) → Prop := fun _ _ => True

/-- The name is spelled by a template. -/
def UniformName (used : Counters) (x : Site → Name) : Prop :=
  Uniform used fun site => (x site).render

/-- The target is spelled by a template. -/
def UniformTarget (used : Counters) (target : Site → Target) : Prop :=
  Uniform used fun site => (target site).render

/-- There are as many operands at every site, each of them steady. -/
def SteadyOperands (used : Counters) (os : Site → List Operand) : Prop :=
  Each (Operand.Steady used) os

/-- The step goes alike at every site, whatever has been made up. -/
def Relocatable (m : Gen Unit) : Prop := ∀ used, Runs used Anything fun _ => m

theorem Relocatable.run {m : Gen Unit} (h : Relocatable m) {before : Site → Segments}
    {used : Counters} {s : Site → State} (hs : State.Steady before used s) :
    ∃ later, used.Le later ∧
      ((∃ t, (∀ site, m (s site) = .ok () (t site)) ∧ State.Steady before later t) ∨
        ∃ e t, (∀ site, m (s site) = .error e (t site)) ∧ State.Steady before later t) := by
  obtain ⟨later, hle, ⟨_, t, hok, -, ht⟩ | herror⟩ := h used before s hs
  · exact ⟨later, hle, .inl ⟨t, hok, ht⟩⟩
  · exact ⟨later, hle, .inr herror⟩

namespace Runs

open Gen

variable {α β : Type} {used : Counters} {P : Counters → (Site → α) → Prop}
  {Q : Counters → (Site → β) → Prop}

/-! ### Sequences -/

theorem bind {m : Site → Gen α} {f : Site → α → Gen β} (hm : Runs used P m)
    (hf : ∀ {later a}, used.Le later → P later a → Runs later Q fun site => f site (a site)) :
    Runs used Q fun site => m site >>= f site := by
  intro before s hs
  obtain ⟨later, hle, ⟨a, t, hok, ha, ht⟩ | ⟨e, t, herror, ht⟩⟩ := hm before s hs
  -- The first step succeeds at every site, so the second one starts from steady states again.
  · obtain ⟨latest, hle', hrun⟩ := hf hle ha before t ht
    refine ⟨latest, hle.trans hle', ?_⟩
    have hbind : ∀ site, (m site >>= f site) (s site) = f site (a site) (t site) :=
      fun site => bind_of_ok (hok site)
    simp only [hbind]
    exact hrun
  · refine ⟨later, hle, .inr ⟨e, t, ?_, ht⟩⟩
    intro site
    show (m site >>= f site) (s site) = _
    rw [bind_apply, herror]

/-- A step that always succeeds and counts no further. -/
theorem of_ok {m : Site → Gen α} {value : Site → State → α} {next : Site → State → State}
    (hm : ∀ site s, m site s = .ok (value site s) (next site s))
    (h : ∀ before s, State.Steady before used s → P used (fun site => value site (s site)) ∧
      State.Steady before used fun site => next site (s site)) : Runs used P m := by
  intro before s hs
  obtain ⟨hvalue, hnext⟩ := h before s hs
  exact ⟨used, .refl used, .inl ⟨_, _, fun site => hm site (s site), hvalue, hnext⟩⟩

theorem pure {a : Site → α} (ha : P used a) : Runs used P fun site => (Pure.pure (a site) : Gen α) :=
  of_ok (fun _ _ => rfl) fun _ _ hs => ⟨ha, hs⟩

theorem fail (loc : Nat) (cause : Cause) : Runs used P fun _ => (Gen.fail loc cause : Gen α) :=
  fun _ s hs => ⟨used, .refl used, .inr ⟨_, s, fun _ => rfl, hs⟩⟩

/-! ### Primitive steps -/

theorem emitTo (segment : Segment) {line : Site → Line}
    (h : Uniform used fun site => (line site).render) :
    Runs used Anything fun site => Gen.emitTo segment (line site) :=
  of_ok (fun site => emitTo_apply segment (line site)) fun _ _ hs => ⟨trivial, hs.emitTo segment h⟩

theorem emit {line : Site → Line} (h : Uniform used fun site => (line site).render) :
    Runs used Anything fun site => Gen.emit (line site) :=
  emitTo .code h

theorem emitAll {lines : Site → List Line}
    (h : Each (fun line => Uniform used fun site => (line site).render) lines) :
    Runs used Anything fun site => Gen.emitAll (lines site) :=
  of_ok (fun site => emitAll_apply (lines site)) fun _ _ hs =>
    ⟨trivial, { hs with code := hs.code.append (.of_each h) }⟩

theorem freshTemp : Runs used UniformName fun _ => Gen.freshTemp := by
  intro before s hs
  obtain ⟨hx, hnext⟩ := hs.freshTemp
  exact ⟨_, used.le_nextTemp, .inl ⟨_, _, fun site => freshTemp_apply (s site), hx, hnext⟩⟩

theorem freshLabel :
    Runs used (fun later (l : Site → Label) => Uniform later fun site => (l site).render)
      fun _ => Gen.freshLabel := by
  intro before s hs
  obtain ⟨hl, hnext⟩ := hs.freshLabel
  exact ⟨_, used.le_nextLabel, .inl ⟨_, _, fun site => freshLabel_apply (s site), hl, hnext⟩⟩

theorem declare (name : String) {v : Site → Variable} (hv : Variable.Steady used v) :
    Runs used Anything fun site => Gen.declare name (v site) :=
  of_ok (fun site => declare_apply name (v site)) fun _ _ hs => ⟨trivial, hs.declare name hv⟩

theorem push {o : Site → Operand} (ho : Operand.Steady used o) :
    Runs used Anything fun site => Gen.push (o site) :=
  of_ok (fun site => push_apply (o site)) fun _ _ hs =>
    ⟨trivial, { hs with stack := .cons ho hs.stack }⟩

theorem pushVar {x : Site → Name} (hx : UniformName used x) (ty : ValueType) :
    Runs used Anything fun site => Gen.pushVar (x site) ty :=
  push (.var (.named ty hx))

theorem checkUserName (loc : Nat) (name : String) :
    Runs used Anything fun _ => Gen.checkUserName loc name := by
  unfold Gen.checkUserName
  split
  · exact fail _ _
  · exact pure trivial

theorem inScope {m : Site → Gen α} (h : Runs used P m) :
    Runs used P fun site => Gen.inScope (m site) := by
  intro before s hs
  have henter : State.Steady before used fun site => { s site with scopes := (s site).scopes.enter } :=
    { hs with scopes := hs.scopes.enter }
  obtain ⟨later, hle, ⟨a, t, hok, ha, ht⟩ | ⟨e, t, herror, ht⟩⟩ := h before _ henter
  · refine ⟨later, hle, .inl ⟨a, fun site => { t site with scopes := (t site).scopes.leave }, ?_, ha,
      { ht with scopes := ht.scopes.leave }⟩⟩
    intro site
    simp only [Gen.inScope, hok]
  · refine ⟨later, hle, .inr ⟨e, fun site => { t site with scopes := (t site).scopes.leave }, ?_,
      { ht with scopes := ht.scopes.leave }⟩⟩
    intro site
    simp only [Gen.inScope, herror]

theorem deref {o : Site → Operand} (ho : Operand.Steady used o) :
    Runs used Operand.Steady fun site => Gen.deref (o site) := by
  cases ho with
  | reference hplace =>
    refine bind freshTemp fun hle hx => ?_
    refine bind (emit (hx.fetch (hplace.mono hle))) fun hle' _ => ?_
    exact pure (.var (.named .text (hx.mono hle')))
  | integer value => exact pure (.integer value)
  | text ht => exact pure (.text ht)
  | var hv => exact pure (.var hv)

/-! ### Parts -/

theorem statement {m : Gen Unit} (h : Relocatable m) :
    Runs used Anything fun _ => Gen.statement m := by
  intro before s hs
  obtain ⟨n, hn⟩ := hs.stack.length_eq
  simp only [statement_apply]
  obtain ⟨later, hle, ⟨t, hok, ht⟩ | ⟨e, t, herror, ht⟩⟩ := h.run hs
  · obtain ⟨k, hk⟩ := ht.stack.length_eq
    simp only [hok, State.dropTo, hn, hk]
    exact ⟨later, hle, .inl ⟨_, _, fun _ => rfl, trivial, { ht with stack := ht.stack.drop (k - n) }⟩⟩
  · simp only [herror]
    exact ⟨later, hle, .inr ⟨e, t, fun _ => rfl, ht⟩⟩

theorem eval {p : Part} (h : Relocatable p.gen) :
    Runs used Operand.Steady fun _ => Gen.eval p := by
  intro before s hs
  obtain ⟨n, hn⟩ := hs.stack.length_eq
  simp only [eval_apply]
  obtain ⟨later, hle, ⟨t, hok, ht⟩ | ⟨e, t, herror, ht⟩⟩ := h.run hs
  · obtain ⟨k, hk⟩ := ht.stack.length_eq
    have hdrop : State.Steady before later fun site => (t site).dropTo n := by
      simp only [State.dropTo, hk]
      exact { ht with stack := ht.stack.drop (k - n) }
    have habove : Each (Operand.Steady later) fun site => (t site).above n := by
      simp only [State.above, hk]
      exact ht.stack.take (k - n)
    simp only [hok, hn]
    -- As many operands have been pushed at every site, so there is one everywhere or nowhere.
    rcases habove.cases with hnil | ⟨o, os, ho, -, hcons⟩
    · simp only [hnil]
      exact ⟨later, hle, .inr ⟨_, _, fun _ => rfl, hdrop⟩⟩
    · simp only [hcons]
      exact ⟨later, hle, .inl ⟨o, _, fun _ => rfl, ho, hdrop⟩⟩
  · simp only [herror]
    exact ⟨later, hle, .inr ⟨e, t, fun _ => rfl, ht⟩⟩

theorem evalDeref {p : Part} (h : Relocatable p.gen) :
    Runs used Operand.Steady fun _ => Gen.evalDeref p :=
  bind (eval h) fun _ ho => deref ho

theorem block {ps : List Part} (h : ∀ p ∈ ps, Relocatable p.gen) :
    Runs used Anything fun _ => Gen.block ps := by
  induction ps generalizing used with
  | nil => exact pure trivial
  | cons p ps ih =>
    refine bind (statement (h p List.mem_cons_self)) fun _ _ => ih ?_
    intro q hq
    exact h q (List.mem_cons_of_mem _ hq)

theorem evalAll {ps : List Part} (h : ∀ p ∈ ps, Relocatable p.gen) :
    Runs used SteadyOperands fun _ => Gen.evalAll ps := by
  induction ps generalizing used with
  | nil => exact pure Each.nil
  | cons p ps ih =>
    refine bind (eval (h p List.mem_cons_self)) fun _ ho => ?_
    refine bind (ih fun q hq => h q (List.mem_cons_of_mem _ hq)) fun hle hos => ?_
    exact pure (Each.cons (ho.mono hle) hos)

theorem derefAll {os : Site → List Operand} (h : SteadyOperands used os) :
    Runs used SteadyOperands fun site => Gen.derefAll (os site) := by
  obtain ⟨ys, hys, heq⟩ := h
  simp only [heq]
  clear heq
  induction ys generalizing used with
  | nil => exact pure Each.nil
  | cons y ys ih =>
    refine bind (ih fun z hz => hys z (List.mem_cons_of_mem _ hz)) fun hle hrest => ?_
    refine bind (deref ((hys y List.mem_cons_self).mono hle)) fun hle' ho => ?_
    exact pure (Each.cons ho (hrest.mono fun _ hz => hz.mono hle'))

/-! ### Operators -/

variable {a b : Part}

theorem sum {o p : Site → Operand} (ho : Operand.Steady used o) (hp : Operand.Steady used p) :
    Runs used Anything fun site => lowerSum (o site) (p site) := by
  obtain ⟨i, hi⟩ := ho.isInteger_eq
  obtain ⟨j, hj⟩ := hp.isInteger_eq
  obtain ⟨tyo, htyo⟩ := ho.valueType_eq
  obtain ⟨typ, htyp⟩ := hp.valueType_eq
  simp only [lowerSum, hi, hj, htyo, htyp]
  refine bind freshTemp fun hle hx => ?_
  have ho' := (ho.mono hle).splice
  have hp' := (hp.mono hle).splice
  split
  · exact bind (emit (.compute hx (.binary .add ho' hp'))) fun hle' _ => pushVar (hx.mono hle') _
  · exact bind (emit (.assign hx (ho'.text hp'))) fun hle' _ => pushVar (hx.mono hle') _

theorem arithmetic (op : BinaryOp) {o p : Site → Operand} (ho : Operand.Steady used o)
    (hp : Operand.Steady used p) :
    Runs used Anything fun site => lowerArithmetic op (o site) (p site) := by
  obtain ⟨tyo, htyo⟩ := ho.valueType_eq
  obtain ⟨typ, htyp⟩ := hp.valueType_eq
  simp only [lowerArithmetic, htyo, htyp]
  refine bind freshTemp fun hle hx => ?_
  refine bind (emit (.compute hx (.binary op (ho.mono hle).splice (hp.mono hle).splice))) ?_
  exact fun hle' _ => pushVar (hx.mono hle') _

theorem comparands (op : BinaryOp) (ha : Relocatable a.gen) (hb : Relocatable b.gen) :
    Runs used
      (fun later (sides : Site → Operand × Operand × Name) =>
        Operand.Steady later (fun site => (sides site).1) ∧
          Operand.Steady later (fun site => (sides site).2.1) ∧
          UniformName later fun site => (sides site).2.2)
      fun _ => Gen.comparands op a b := by
  unfold Gen.comparands
  split
  · refine bind (eval hb) fun _ hp => bind (eval ha) fun h₁ ho => bind freshTemp fun h₂ hx => ?_
    refine bind (deref (ho.mono h₂)) fun h₃ ho' => ?_
    refine bind (deref (hp.mono ((h₁.trans h₂).trans h₃))) fun h₄ hp' => ?_
    exact pure ⟨ho'.mono h₄, hp', hx.mono (h₃.trans h₄)⟩
  · refine bind (eval ha) fun _ ho => bind (eval hb) fun h₁ hp => bind freshTemp fun h₂ hx => ?_
    refine bind (deref (hp.mono h₂)) fun h₃ hp' => ?_
    refine bind (deref (ho.mono ((h₁.trans h₂).trans h₃))) fun h₄ ho' => ?_
    exact pure ⟨ho', hp'.mono h₄, hx.mono (h₃.trans h₄)⟩

theorem binary (op : BinaryOp) (ha : Relocatable a.gen) (hb : Relocatable b.gen) :
    Runs used Anything fun _ => lowerBinary op a b := by
  unfold lowerBinary
  split
  · refine bind (comparands op ha hb) fun _ hsides => ?_
    obtain ⟨ho, hp, hx⟩ := hsides
    refine bind (emit (.compare hx op ho.splice hp.splice)) fun hle _ => ?_
    exact pushVar (hx.mono hle) _
  · refine bind (eval ha) fun _ ho => bind (eval hb) fun h₁ hp => ?_
    refine bind (deref hp) fun h₂ hp' => bind (deref (ho.mono (h₁.trans h₂))) fun h₃ ho' => ?_
    split
    · exact sum ho' (hp'.mono h₃)
    · exact arithmetic op ho' (hp'.mono h₃)

theorem conjunction (ha : Relocatable a.gen) (hb : Relocatable b.gen) :
    Runs used Anything fun _ => lowerAnd a b := by
  refine bind (evalDeref ha) fun _ ho => bind (emit ho.splice.openIf) fun _ _ => ?_
  exact bind (statement hb) fun _ _ => emit (.const _)

theorem disjunction (ha : Relocatable a.gen) (hb : Relocatable b.gen) :
    Runs used Anything fun _ => lowerOr a b := by
  refine bind freshTemp fun _ hx => bind (evalDeref ha) fun h₁ ho => ?_
  have hx₁ := hx.mono h₁
  refine bind (emitAll (.cons (hx₁.flag false) (.cons ho.splice.openIf (.cons (hx₁.flag true)
    (.cons (.const _) .nil))))) fun h₂ _ => ?_
  refine bind (evalDeref hb) fun h₃ hp => ?_
  have hx₃ := hx₁.mono (h₂.trans h₃)
  refine bind (emitAll (.cons hp.splice.openIf (.cons (hx₃.flag true) (.cons (.const _)
    (.cons (.const _) .nil))))) fun h₄ _ => ?_
  exact pushVar (hx₃.mono h₄) _

/-! ### Control -/

variable {c : Part}

theorem branch {thenBody elseBody : List Part} (hc : Relocatable c.gen)
    (ht : ∀ p ∈ thenBody, Relocatable p.gen) (he : ∀ p ∈ elseBody, Relocatable p.gen) :
    Runs used Anything fun _ => lowerBranch c thenBody elseBody := by
  refine bind (evalDeref hc) fun _ ho => bind (emit ho.splice.openIf) fun _ _ => ?_
  refine bind (block ht) fun _ _ => ?_
  split
  · exact emit (.const _)
  · exact bind (emit (.const _)) fun _ _ => bind (block he) fun _ _ => emit (.const _)

theorem conditional (hc : Relocatable c.gen) (ha : Relocatable a.gen) (hb : Relocatable b.gen) :
    Runs used Anything fun _ => lowerTernary c a b := by
  refine bind (evalDeref hc) fun _ hq => bind freshTemp fun h₁ hx => ?_
  refine bind (emit (hq.mono h₁).splice.openIf) fun h₂ _ => bind (evalDeref ha) fun h₃ ho => ?_
  have hx₃ := hx.mono (h₂.trans h₃)
  refine bind (emit (.assign hx₃ ho.splice)) fun h₄ _ => bind (emit (.const _)) fun h₅ _ => ?_
  refine bind (evalDeref hb) fun h₆ hp => ?_
  have h₄₆ := (h₄.trans h₅).trans h₆
  have hx₆ := hx₃.mono h₄₆
  obtain ⟨i, hi⟩ := ho.isInteger_eq
  obtain ⟨j, hj⟩ := hp.isInteger_eq
  simp only [hi, hj]
  refine bind (emit (.assign hx₆ hp.splice)) fun h₇ _ => bind (emit (.const _)) fun h₈ _ => ?_
  exact pushVar (hx₆.mono (h₇.trans h₈)) _

theorem loop {body : List Part} (hc : Relocatable c.gen) (hb : ∀ p ∈ body, Relocatable p.gen) :
    Runs used Anything fun _ => lowerLoop c body := by
  refine bind freshLabel fun _ hl => bind (emit hl.label) fun h₁ _ => ?_
  refine bind (evalDeref hc) fun h₂ ho => bind (emit ho.splice.openIf) fun h₃ _ => ?_
  refine bind (block hb) fun h₄ _ => ?_
  have hl₄ := hl.mono (((h₁.trans h₂).trans h₃).trans h₄)
  exact bind (emit hl₄.goto) fun _ _ => emit (.const _)

/-! ### Routines -/

theorem functionName (loc : Nat) (name : Option String) :
    Runs used UniformName fun _ => Gen.functionName loc name := by
  cases name with
  | none => exact freshTemp
  | some name =>
    refine bind (checkUserName loc name) fun _ _ => ?_
    refine bind (declare name (.const _)) fun _ _ => ?_
    exact pure (Uniform.const name)

theorem declareParams (first : Nat) (params : List String) :
    Runs used Anything fun _ => Gen.declareParams first params := by
  induction params generalizing first used with
  | nil => exact pure trivial
  | cons param rest ih => exact bind (declare param (.const _)) fun _ _ => ih (first + 1)

theorem function (loc : Nat) (name : Option String) (params : List String) {body : List Part}
    (hb : ∀ p ∈ body, Relocatable p.gen) :
    Runs used Anything fun _ => lowerFunction loc name params body := by
  refine bind (functionName loc name) fun _ hf => bind (emitTo .decl hf.handle) fun h₁ _ => ?_
  have hf₁ := hf.mono h₁
  refine bind (emitAll (.cons hf₁.behind.goto (.cons (.label hf₁) (.cons (.const _) .nil))))
    fun h₂ _ => ?_
  refine bind (inScope (bind (declareParams 2 params) fun _ _ => block hb)) fun h₃ _ => ?_
  have hf₃ := hf₁.mono (h₂.trans h₃)
  split
  · exact bind (emit hf₃.behind.label) fun h₄ _ => push (.text (hf₃.mono h₄).name)
  · refine bind (emitAll (.cons (.const _) (.cons (.const _) .nil))) fun h₄ _ => ?_
    have hf₄ := hf₃.mono h₄
    exact bind (emit hf₄.behind.label) fun h₅ _ => push (.text (hf₄.mono h₅).name)

theorem call {args : List Part} (ha : Relocatable a.gen) (hargs : ∀ p ∈ args, Relocatable p.gen) :
    Runs used Anything fun _ => lowerCall a args := by
  refine bind (evalDeref ha) fun _ ho => bind (evalAll hargs) fun h₁ hos => ?_
  refine bind (derefAll hos) fun h₂ hos' => bind freshTemp fun h₃ hx => ?_
  have hcallee := (ho.mono ((h₁.trans h₂).trans h₃)).splice
  refine bind (emit (.call hcallee hx (hos'.mono fun _ hz => hz.mono h₃))) fun h₄ _ => ?_
  exact pushVar (hx.mono h₄) _

theorem ret (ha : Relocatable a.gen) : Runs used Anything fun _ => lowerReturn a := by
  refine bind (evalDeref ha) fun _ ho => ?_
  obtain ⟨i, hi⟩ := ho.isInteger_eq
  simp only [hi]
  exact emitAll (.cons (.const _) (.cons (.setResult i ho.spliceNow) (.cons (.const _)
    (.cons (.const _) .nil))))

/-! ### Assignments -/

theorem lookup (name : String) :
    Runs used
      (fun later (found : Site → Option Variable) => (∀ site, found site = none) ∨
        ∃ v, Variable.Steady later v ∧ ∀ site, found site = some (v site))
      fun _ => Gen.lookup name :=
  of_ok (fun _ => lookup_apply name) fun _ _ hs => ⟨hs.scopes.lookup name, hs⟩

theorem nameTarget (loc : Nat) (name : String) (ty : ValueType) :
    Runs used UniformTarget fun _ => Gen.nameTarget loc name ty := by
  refine bind (lookup name) fun _ hfound => ?_
  rcases hfound with hnone | ⟨v, hv, hsome⟩
  · simp only [hnone]
    refine bind (checkUserName loc name) fun _ _ => ?_
    refine bind (declare name (.const _)) fun _ _ => ?_
    exact pure (Uniform.const name)
  · simp only [hsome]
    cases hv with
    | named ty' hx => exact pure hx
    | slot index ty' => exact fail _ _

theorem assign (ha : Relocatable a.gen) (hb : Relocatable b.gen) :
    Runs used Anything fun _ => lowerAssign a b := by
  refine bind (evalDeref hb) fun {later v} _ hv => ?_
  obtain ⟨ty, hty⟩ := hv.valueType_eq
  -- Whatever the target, the value is stored and left as the operand.
  have hstored : ∀ {latest} {place : Site → Target}, later.Le latest → UniformTarget latest place →
      Runs latest Anything fun site => (do
        Gen.emit (assignLine (place site) (v site))
        Gen.push (v site)) := by
    intro latest place hle hplace
    have hline := hplace.assignLine (hv.mono hle)
    exact bind (emit hline) fun hle' _ => push (hv.mono (hle.trans hle'))
  simp only [hty]
  split
  · exact bind (nameTarget _ _ ty) hstored
  · refine bind (eval ha) fun hle ho => ?_
    refine bind (pure (P := UniformTarget) ho.splice) fun hle' hplace => ?_
    exact hstored (hle.trans hle') hplace
  · exact bind (fail _ _) hstored

theorem stepTarget (n : Node) {o : Site → Operand} (ho : Operand.Steady used o) :
    Runs used UniformTarget fun site => Gen.stepTarget n (o site) := by
  cases ho with
  | reference hplace => exact pure hplace
  | var hv =>
    cases hv with
    | named ty hx => exact pure hx
    | slot index ty => cases n <;> exact fail _ _
  | integer value => exact fail _ _
  | text ht => exact fail _ _

theorem step (op : StepOp) (ha : Relocatable a.gen) :
    Runs used Anything fun _ => lowerStep op a := by
  refine bind (eval ha) fun _ ho => bind (stepTarget a.node ho) fun h₁ hplace => ?_
  refine bind (deref (ho.mono h₁)) fun h₂ hcurrent => bind freshTemp fun h₃ hx => ?_
  have hcurrent₃ := (hcurrent.mono h₃).splice
  refine bind (emit (.compute hx hcurrent₃)) fun h₄ _ => ?_
  have hplace₄ := hplace.mono ((h₂.trans h₃).trans h₄)
  refine bind (emit (.compute hplace₄ (.step op (hcurrent₃.mono h₄)))) fun h₅ _ => ?_
  exact pushVar (hx.mono (h₄.trans h₅)) _

/-! ### Arrays -/

theorem elements {handle : Site → Name} (hx : UniformName used handle) (first : Nat)
    {ps : List Part} (h : ∀ p ∈ ps, Relocatable p.gen) :
    Runs used Anything fun site => lowerElements (handle site) first ps := by
  induction ps generalizing first used with
  | nil => exact pure trivial
  | cons p ps ih =>
    refine bind (evalDeref (h p List.mem_cons_self)) fun h₁ ho => ?_
    refine bind (emit (.assign ((hx.mono h₁).element first) ho.splice)) fun h₂ _ => ?_
    exact ih (hx.mono (h₁.trans h₂)) (first + 1) fun q hq => h q (List.mem_cons_of_mem _ hq)

theorem array {ps : List Part} (h : ∀ p ∈ ps, Relocatable p.gen) :
    Runs used Anything fun _ => lowerArray ps := by
  refine bind freshTemp fun _ hx => bind (emit (.assign hx hx.name)) fun h₁ _ => ?_
  refine bind (elements (hx.mono h₁) 0 h) fun h₂ _ => ?_
  have hx₂ := hx.mono (h₁.trans h₂)
  exact bind (emit (.assign hx₂.size (.const _))) fun h₃ _ => pushVar (hx₂.mono h₃) _

theorem index (ha : Relocatable a.gen) (hb : Relocatable b.gen) :
    Runs used Anything fun _ => lowerIndex a b := by
  refine bind (eval ha) fun _ ho => bind (evalDeref hb) fun h₁ hp => ?_
  refine bind (deref (ho.mono h₁)) fun h₂ ho' => ?_
  exact push (.reference (ho'.splice.text ((Uniform.const ".").append (hp.mono h₂).splice)))

theorem program {body : List Part} (hb : ∀ p ∈ body, Relocatable p.gen) :
    Runs used Anything fun _ => lowerProgram body :=
  bind (emitTo .init (.const _)) fun _ _ => bind (emitTo .init (.const _)) fun _ _ => block hb

/-! ### Names and includes -/

theorem resolve (loc : Nat) (name : String) :
    Runs used Variable.Steady fun _ => Gen.resolve .standard loc name := by
  intro before s hs
  rcases hs.scopes.lookup name with hnone | ⟨v, hv, hsome⟩
  · rcases hs.shared.emitted.get? name with hnew | ⟨v, hv, hemitted⟩
    · have hrun := fun site => resolve_of_new (hnone site) (hnew site) loc
      by_cases hname : name = "process"
      · obtain ⟨hv, hprocess⟩ := hs.withProcess
        simp only [if_pos hname] at hrun
        exact ⟨_, used.le_nextTemp, .inl ⟨_, _, hrun, hv, hprocess.declare name hv⟩⟩
      · simp only [if_neg hname] at hrun
        exact ⟨used, .refl used, .inr ⟨_, s, hrun, hs⟩⟩
    · have hrun := fun site => resolve_of_emitted (hnone site) (hemitted site) .standard loc
      exact ⟨used, .refl used, .inl ⟨v, _, hrun, hv, hs.declare name hv⟩⟩
  · have hrun := fun site => resolve_of_lookup (hsome site) .standard loc
    exact ⟨used, .refl used, .inl ⟨v, s, hrun, hv, hs⟩⟩

theorem includes {env : Env} (h : ∀ includeUnit, env.includeUnit? = some includeUnit →
      ∀ path, UnitRuns (includeUnit path)) (loc : Nat) (args : List Node) :
    Runs used Anything fun _ => lowerInclude env loc args := by
  intro before s hs
  by_cases hargs : ∃ l path, args = [.string l path]
  · obtain ⟨l, path, rfl⟩ := hargs
    simp only [lowerInclude_path]
    cases hunit : env.includeUnit? with
    | none => exact ⟨used, .refl used, .inr ⟨_, s, fun _ => rfl, hs⟩⟩
    | some includeUnit =>
      dsimp only
      rcases h includeUnit hunit (Path.join env.base path) hs.shared with
        ⟨e, herror⟩ | ⟨later, unit, hle, hok, hsteady⟩
      -- A unit that fails gives nothing back, so the includer has counted no further.
      · simp only [herror]
        exact ⟨used, .refl used, .inr ⟨_, s, fun _ => rfl, hs⟩⟩
      · simp only [hok]
        exact ⟨later, hle, .inl ⟨_, _, fun _ => rfl, trivial, hs.including hle hsteady⟩⟩
  · obtain ⟨l, problem, hwrong⟩ := lowerInclude_wrong env loc fun l path h => hargs ⟨l, path, h⟩
    exact ⟨used, .refl used, .inr ⟨_, s, fun site => hwrong (s site), hs⟩⟩

end Runs

/-! ## Nodes -/

/-- Within one unit, every node goes alike at every site if its includes do. -/
theorem Relocatable.node {env : Env} (hregistry : env.registry = .standard)
    (hinclude : ∀ includeUnit, env.includeUnit? = some includeUnit →
      ∀ path, UnitRuns (includeUnit path)) (n : Node) : Relocatable (Gen.node env n) := by
  have hparts : ∀ {ns : List Node}, (∀ n ∈ ns, Relocatable (Gen.node env n)) →
      ∀ p ∈ Gen.parts env ns, Relocatable p.gen := by
    intro ns h p hp
    rw [Gen.parts_eq_map] at hp
    obtain ⟨n, hn, rfl⟩ := List.mem_map.1 hp
    exact h n hn
  induction n using Node.induction with
  | program l body ih => exact fun _ => .program (hparts ih)
  | integer l v => exact fun _ => .push (.integer v)
  | string l v => exact fun _ => .push (.text (.const _))
  | identifier l x =>
    intro used
    show Runs used Anything fun _ => Gen.resolve env.registry l x >>= fun v => Gen.push (.var v)
    rw [hregistry]
    exact .bind (.resolve l x) fun _ hv => .push (.var hv)
  | binary l op a b iha ihb => exact fun _ => .binary op iha ihb
  | and l a b iha ihb => exact fun _ => .conjunction iha ihb
  | or l a b iha ihb => exact fun _ => .disjunction iha ihb
  | assign l t v iht ihv => exact fun _ => .assign iht ihv
  | branch l c t e ihc iht ihe => exact fun _ => .branch ihc (hparts iht) (hparts ihe)
  | ternary l c t e ihc iht ihe => exact fun _ => .conditional ihc iht ihe
  | loop l c body ihc ih => exact fun _ => .loop ihc (hparts ih)
  | function l x ps body ih => exact fun _ => .function l x ps (hparts ih)
  | call l f args ihf ih =>
    intro used
    show Runs used Anything fun _ => if Gen.isInclude f then _ else _
    split
    · exact .includes hinclude l args
    · exact .call ihf (hparts ih)
  | ret l v ihv => exact fun _ => .ret ihv
  | step l op leading t iht => exact fun _ => .step op iht
  | array l es ih => exact fun _ => .array (hparts ih)
  | index l b i ihb ihi => exact fun _ => .index ihb ihi

/-! ## Units -/

/-- A unit comes to the same at every site if its program does. -/
theorem Setup.unitRuns (setup : Setup) {env : Env} (hnode : ∀ n, Relocatable (Gen.node env n))
    (path : String) : UnitRuns (setup.includeUnit env path) := by
  intro used shared hshared
  unfold Setup.includeUnit Setup.contribution
  cases setup.files path with
  | error io => exact .inl ⟨_, fun _ => rfl⟩
  | ok source =>
    dsimp only
    cases readUnit setup.folding source with
    | error e => exact .inl ⟨_, fun _ => rfl⟩
    | ok program =>
      -- A unit has no lines before it, whatever lines the includer has.
      have hstart : State.Steady (fun _ => {}) used fun site => { shared := shared site } :=
        ⟨.refl _, .refl _, .refl _, .const {}, .nil, hshared⟩
      have hstatement : Relocatable (Gen.statement (Gen.node env program)) :=
        fun _ => .statement (hnode program)
      obtain ⟨later, hle, ⟨t, hok, ht⟩ | ⟨fault, t, herror, -⟩⟩ := hstatement.run hstart
      · right
        simp only [bind, Except.bind, generate, hok]
        exact ⟨later, fun site => ⟨_, _, _, (t site).shared⟩, hle, fun _ => rfl, ht.decl, ht.code,
          ht.scopes.root, ht.shared⟩
      · left
        simp only [bind, Except.bind, generate, herror]
        exact ⟨_, fun _ => rfl⟩

/-- Every node of every unit goes alike at every site. -/
theorem Setup.relocatable_node {setup : Setup} (hregistry : setup.registry = .standard)
    (depth : Nat) (base : String) (n : Node) : Relocatable (Gen.node (setup.env depth base) n) := by
  induction depth generalizing base n with
  | zero =>
    refine .node hregistry ?_ n
    intro includeUnit hunit
    cases hunit
  | succ depth ih =>
    refine .node hregistry ?_ n
    intro includeUnit hunit path
    cases hunit
    exact setup.unitRuns (ih _) path

/-! ## Blueprints -/

/-- What a stretch of code is made of, wherever it is placed. -/
structure Blueprint where
  /-- How many temporaries and labels it makes up. -/
  used : Counters
  init : List Template
  decl : List Template
  code : List Template
  within : ∀ t ∈ init ++ decl ++ code, t.Within used

/-- Between the two states a stretch of code with this blueprint has been written. -/
structure Blueprint.Written (b : Blueprint) (s t : State) : Prop where
  counters : t.shared.counters = s.shared.counters.add b.used
  init : t.segments.init.map Line.render =
    s.segments.init.map Line.render ++ b.init.map (·.fill s.shared.counters)
  decl : t.segments.decl.map Line.render =
    s.segments.decl.map Line.render ++ b.decl.map (·.fill s.shared.counters)
  code : t.segments.code.map Line.render =
    s.segments.code.map Line.render ++ b.code.map (·.fill s.shared.counters)

/-- Steady states have one blueprint for what has been written since the start. -/
theorem State.Steady.blueprint {used : Counters} {t : Site → State}
    (h : State.Steady Site.lines used t) :
    ∃ b : Blueprint, ∀ (site : Site) (s : State), s.segments = site.lines →
      s.shared.counters = site.counters → b.Written s (t site) := by
  obtain ⟨init, hinitWithin, hinit⟩ := h.init
  obtain ⟨decl, hdeclWithin, hdecl⟩ := h.decl
  obtain ⟨code, hcodeWithin, hcode⟩ := h.code
  refine ⟨⟨used, init, decl, code, ?_⟩, ?_⟩
  · intro template htemplate
    simp only [List.mem_append] at htemplate
    rcases htemplate with (hmem | hmem) | hmem
    · exact hinitWithin template hmem
    · exact hdeclWithin template hmem
    · exact hcodeWithin template hmem
  · intro site s hsegments hcounters
    constructor
    · rw [hcounters]
      exact h.shared.counters site
    · rw [hsegments, hcounters]
      exact hinit site
    · rw [hsegments, hcounters]
      exact hdecl site
    · rw [hsegments, hcounters]
      exact hcode site

/-- The result of a run that comes to this outcome in the state `t`. -/
def resultIn (t : State) : Except Fault Unit → EStateM.Result Fault State Unit
  | .ok _ => .ok () t
  | .error e => .error e t

/-- Generated code is relocatable. For every node, and whatever scopes and builtins are there before it,
there are one outcome and one blueprint: wherever the numbering stands, and whatever lines and
operands are there, generating the node has that outcome and writes code of that blueprint, that is,
makes up as many temporaries and labels and adds the lines that the templates spell there. An
included unit likewise fails with one error, or contributes the lines of one blueprint, wherever the
numbering stands. -/
theorem generated_code_is_relocatable (files : String → Except IoError String) (folding : Bool)
    (limit depth : Nat) (base : String) :
    let setup : Setup := { registry := .standard, files, folding, limit }
    (∀ (n : Node) (scopes : ScopeChain) (emitted : Bindings),
      ∃ (outcome : Except Fault Unit) (b : Blueprint),
        ∀ (counters : Counters) (segments : Segments) (stack : List Operand),
          let s : State := { segments, scopes, stack, shared := { counters, emitted } }
          ∃ t, Gen.node (setup.env depth base) n s = resultIn t outcome ∧ b.Written s t) ∧
    ∀ (path : String) (emitted : Bindings),
      (∃ e, ∀ counters,
        setup.includeUnit (setup.env depth base) path { counters, emitted } = .error e) ∨
      ∃ b : Blueprint, ∀ counters, ∃ unit,
        setup.includeUnit (setup.env depth base) path { counters, emitted } = .ok unit ∧
        unit.shared.counters = counters.add b.used ∧
        unit.decl.map Line.render = b.decl.map (·.fill counters) ∧
        unit.code.map Line.render = b.code.map (·.fill counters) := by
  intro setup
  have hnode := @Setup.relocatable_node setup rfl depth base
  constructor
  · intro n scopes emitted
    have hstart : State.Steady Site.lines {} fun site =>
        { segments := site.lines, scopes, shared := { counters := site.counters, emitted } } :=
      ⟨.refl _, .refl _, .refl _, .const scopes, .nil, .start emitted⟩
    -- The operands that are there lie below those of the node, and stay as they are.
    have hkeeps : (setup.env depth base).registry.KeepsOffStack := by
      rw [setup.registry_env]
      exact Registry.standard_keepsOffStack
    have hframe := (node_adds_any hkeeps n).frame
    obtain ⟨used, -, ⟨t, hok, ht⟩ | ⟨e, t, herror, ht⟩⟩ := (hnode n).run hstart
    · obtain ⟨b, hb⟩ := ht.blueprint
      refine ⟨.ok (), b, ?_⟩
      intro counters segments stack s
      have hrun := hframe { segments, scopes, shared := { counters, emitted } } stack
      rw [hok ⟨counters, segments⟩] at hrun
      exact ⟨_, hrun, { hb ⟨counters, segments⟩ s rfl rfl with }⟩
    · obtain ⟨b, hb⟩ := ht.blueprint
      refine ⟨.error e, b, ?_⟩
      intro counters segments stack s
      have hrun := hframe { segments, scopes, shared := { counters, emitted } } stack
      rw [herror ⟨counters, segments⟩] at hrun
      exact ⟨_, hrun, { hb ⟨counters, segments⟩ s rfl rfl with }⟩
  · intro path emitted
    rcases setup.unitRuns hnode path (.start emitted) with ⟨e, herror⟩ | ⟨used, unit, -, hok, hunit⟩
    · exact .inl ⟨e, fun counters => herror ⟨counters, {}⟩⟩
    · right
      obtain ⟨decl, hdeclWithin, hdecl⟩ := hunit.decl
      obtain ⟨code, hcodeWithin, hcode⟩ := hunit.code
      refine ⟨⟨used, [], decl, code, ?_⟩, ?_⟩
      · intro template htemplate
        rcases List.mem_append.1 htemplate with hmem | hmem
        · exact hdeclWithin template hmem
        · exact hcodeWithin template hmem
      · intro counters
        exact ⟨_, hok ⟨counters, {}⟩, hunit.shared.counters ⟨counters, {}⟩, hdecl ⟨counters, {}⟩,
          hcode ⟨counters, {}⟩⟩

end BatchCompiler
