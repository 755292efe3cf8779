/-
# BatchCompiler.Proofs.Definition -- what the script reads, it has defined before

A line of code reads the variables in its texts. Where such a variable comes from differs: a name of
the user's is declared a step before the line that assigns it is written, a temporary is made up long
before it is written to, the handles of functions and builtins stand in another segment, and a builtin
that an outer unit has set up is not declared again. What holds all the time is that a variable which
may be read is defined by a line written so far, or belongs to a builtin that has been set up. A
compilation starts without builtins, so in the end the second case is one of the first.
-/

import BatchCompiler.Proofs.Discipline

namespace BatchCompiler

/-! ## What lines read -/

/-- The variable that the fragment is a read of. -/
def Fragment.read? : Fragment → Option Name
  | deferred x => some x
  | immediate x => some x
  | _ => none

/-- The variables that the text reads. -/
def Text.reads (text : Text) : List Name := text.filterMap Fragment.read?

/-- The variables that are read to find the target. -/
def Target.reads : Target → List Name
  | location place => place.reads
  | _ => []

/-- The variables that the formula reads. -/
def Formula.reads : Formula → List Name
  | value a => a.reads
  | binary _ a b => a.reads ++ b.reads
  | step _ a => a.reads

/-- The variables that the argument reads. -/
def Argument.reads : Argument → List Name
  | bare text => text.reads
  | quoted text => text.reads

/-- The variables that the line reads. -/
def Line.reads : Line → List Name
  | assign target value => target.reads ++ value.reads
  | compute target formula => target.reads ++ formula.reads
  | fetch _ place => place.reads
  | compare _ _ a b => a.reads ++ b.reads
  | openIf cond => cond.reads
  | call callee _ args => callee.reads ++ args.flatMap Argument.reads
  | setResult _ value => value.reads
  | _ => []

/-- The variables that are read where the operand is put on a line. -/
def Operand.reads (o : Operand) : List Name := o.splice.reads

@[simp] theorem Text.reads_append (a b : Text) : Text.reads (a ++ b) = a.reads ++ b.reads :=
  List.filterMap_append

/-- It makes no difference to what is read whether it is read at once. -/
theorem Operand.reads_spliceNow (o : Operand) : o.spliceNow.reads = o.reads := by
  cases o with
  | var v =>
    obtain ⟨storage, ty⟩ := v
    cases storage <;> rfl
  | _ => rfl

/-- What a line reads are the variables of which its fragments are reads. -/
theorem Line.reads_eq_filterMap (line : Line) :
    line.reads = line.fragments.filterMap Fragment.read? := by
  have htarget : ∀ target : Target,
      target.reads = target.fragments.filterMap Fragment.read? := by
    intro target
    cases target <;> rfl
  have hformula : ∀ formula : Formula,
      formula.reads = formula.fragments.filterMap Fragment.read? := by
    intro formula
    cases formula with
    | binary op a b => exact List.filterMap_append.symm
    | _ => rfl
  have hargs : ∀ args : List Argument,
      args.flatMap Argument.reads =
        (args.flatMap Argument.fragments).filterMap Fragment.read? := by
    intro args
    rw [List.filterMap_flatMap]
    congr 1
    funext arg
    cases arg <;> rfl
  cases line with
  | assign target value => simp [reads, fragments, htarget, Text.reads]
  | compute target formula => simp [reads, fragments, htarget, hformula]
  | compare x op a b => exact List.filterMap_append.symm
  | call callee x args => simp only [reads, fragments, hargs, List.filterMap_append, Text.reads]
  | _ => rfl

theorem Line.reads_assignLine (target : Target) (v : Operand) :
    (Gen.assignLine target v).reads = target.reads ++ v.reads := by
  unfold Gen.assignLine
  split <;> rfl

theorem Operand.mem_reads_of_target? {o : Operand} {place : Target} (h : o.target? = some place)
    {x : Name} (hx : x ∈ place.reads) : x ∈ o.reads := by
  cases place with
  | location text =>
    obtain ⟨f, hf, hread⟩ := List.mem_filterMap.1 hx
    exact List.mem_filterMap.2 ⟨f, Operand.mem_splice_of_target? h hf, hread⟩
  | _ => cases hx

/-- What a line reads is what the operands read of which it is made. -/
theorem Line.IsMadeOf.mem_reads {own : Name → Prop} {good : Operand → Prop} {line : Line}
    (h : line.IsMadeOf own good) {x : Name} (hx : x ∈ line.reads) : ∃ o, good o ∧ x ∈ o.reads := by
  rw [Line.reads_eq_filterMap] at hx
  obtain ⟨f, hf, hread⟩ := List.mem_filterMap.1 hx
  rcases h.of_mem_fragments hf with ⟨o, ho, hmem | hmem⟩ | ⟨y, rfl⟩ | ⟨n, rfl⟩
  · exact ⟨o, ho, List.mem_filterMap.2 ⟨f, hmem, hread⟩⟩
  · refine ⟨o, ho, ?_⟩
    rw [← Operand.reads_spliceNow]
    exact List.mem_filterMap.2 ⟨f, hmem, hread⟩
  · cases hread
  · cases hread

/-! ## Definitions -/

/-- One of the lines defines the variable. -/
def Defines (lines : List Line) (x : Name) : Prop := ∃ line ∈ lines, line.written? = some x

theorem Defines.of_subset {xs ys : List Line} {x : Name} (h : Defines xs x) (hsub : xs ⊆ ys) :
    Defines ys x := by
  obtain ⟨line, hline, hx⟩ := h
  exact ⟨line, hsub hline, hx⟩

/-- What a line reads is known beforehand or defined by the lines in front of it. -/
def Supports (known : Name → Prop) (lines : List Line) : Prop :=
  ∀ before line after, lines = before ++ line :: after → ∀ x ∈ line.reads,
    known x ∨ Defines before x

namespace Supports

variable {known known' : Name → Prop} {xs ys : List Line}

theorem nil : Supports known [] := by
  intro before line after h
  cases before <;> cases h

theorem singleton {line : Line} (h : ∀ x ∈ line.reads, known x) : Supports known [line] := by
  intro before other after hsplit x hx
  cases before with
  | nil =>
    cases hsplit
    exact .inl (h x hx)
  | cons first rest =>
    have hlength := congrArg List.length hsplit
    simp at hlength

/-- The lines behind may read what the lines in front define. -/
theorem append (hx : Supports known xs) (hy : Supports (fun x => known x ∨ Defines xs x) ys) :
    Supports known (xs ++ ys) := by
  intro before line after hsplit x hread
  rcases List.append_eq_append_iff.1 hsplit with ⟨middle, rfl, hys⟩ | ⟨middle, hxs, hrest⟩
  · rcases hy middle line after hys x hread with (hknown | hdefined) | hdefined
    · exact .inl hknown
    · exact .inr (hdefined.of_subset (List.subset_append_left _ _))
    · exact .inr (hdefined.of_subset (List.subset_append_right _ _))
  · cases middle with
    | nil =>
      obtain rfl : xs = before := by rw [hxs, List.append_nil]
      rcases hy [] line after hrest.symm x hread with (hknown | hdefined) | hdefined
      · exact .inl hknown
      · exact .inr hdefined
      · exact .inr (hdefined.of_subset (List.nil_subset _))
    | cons first rest =>
      cases hrest
      exact hx before line rest hxs x hread

theorem mono (h : Supports known xs) (hknown : ∀ x, known x → known' x) : Supports known' xs := by
  intro before line after hsplit x hx
  exact (h before line after hsplit x hx).imp (hknown x) id

end Supports

/-! ## States -/

namespace State

/-- The variable is declared in the unit, or belongs to a builtin that has been set up. -/
def Declares (s : State) (x : Name) : Prop :=
  Defines s.segments.decl x ∨ s.shared.IsHandle x

/-- The variable may be read by the next line. -/
def Knows (s : State) (x : Name) : Prop := s.Declares x ∨ Defines s.segments.code x

/-- Every line of code reads what has been defined, and every name in scope stands for what may be
read. -/
structure Closed (s : State) : Prop where
  lines : Supports s.Declares s.segments.code
  scopes {scope : Bindings} {k : String} {v : Variable} {x : Name} :
    scope ∈ s.scopes.opened → (k, v) ∈ scope → v.storage = .named x → s.Knows x

/-- The second state has the lines and builtins of the first one. A builtin that it has besides is
declared. -/
structure Precedes (s t : State) : Prop where
  decl : s.segments.decl <+: t.segments.decl
  code : s.segments.code <+: t.segments.code
  handle {x : Name} : s.shared.IsHandle x → t.shared.IsHandle x
  declared {x : Name} : t.shared.IsHandle x → s.shared.IsHandle x ∨ Defines t.segments.decl x

namespace Precedes

variable {s t u : State}

theorem refl (s : State) : s.Precedes s := ⟨List.prefix_rfl, List.prefix_rfl, id, .inl⟩

theorem trans (h : s.Precedes t) (h' : t.Precedes u) : s.Precedes u where
  decl := h.decl.trans h'.decl
  code := h.code.trans h'.code
  handle hx := h'.handle (h.handle hx)
  declared hx := by
    rcases h'.declared hx with hx | hx
    · exact (h.declared hx).imp id (Defines.of_subset · h'.decl.subset)
    · exact .inr hx

theorem declares (h : s.Precedes t) {x : Name} (hx : s.Declares x) : t.Declares x :=
  hx.imp (Defines.of_subset · h.decl.subset) h.handle

theorem knows (h : s.Precedes t) {x : Name} (hx : s.Knows x) : t.Knows x :=
  hx.imp h.declares (Defines.of_subset · h.code.subset)

theorem emitAll (s : State) (lines : List Line) : s.Precedes (s.emitAll lines) :=
  { refl s with code := List.prefix_append _ _ }

theorem emitDecl (s : State) (line : Line) : s.Precedes (s.emitTo .decl line) where
  decl := List.prefix_append _ _
  code := List.prefix_rfl
  handle := id
  declared := .inl

theorem withProcess (hnew : s.shared.emitted.get? "process" = none) :
    s.Precedes s.withProcess where
  decl := List.prefix_append _ _
  code := List.prefix_rfl
  handle := fun ⟨k, v, hk, hv⟩ => ⟨k, v, (extends_withProcess hnew).emitted hk, hv⟩
  declared := by
    rintro x ⟨k, v, hk, hv⟩
    have hk' : (s.shared.emitted.set "process" (.named s.freshTemp.1 .text)).get? k = some v := hk
    rw [Bindings.get?_set] at hk'
    split at hk'
    · -- The first of the lines that set up the process object declares its variable.
      cases hk'
      cases hv
      exact .inr ⟨.handle s.freshTemp.1, List.mem_append_right _ List.mem_cons_self, rfl⟩
    · exact .inl ⟨k, v, hk', hv⟩

theorem adopt (h : Precedes { shared := s.shared } t) : s.Precedes (s.adopt t) where
  decl := List.prefix_append _ _
  code := List.prefix_append _ _
  handle := h.handle
  declared hx := (h.declared hx).imp id (Defines.of_subset · (List.subset_append_right _ _))

end Precedes

namespace Closed

variable {s t : State}

theorem emitAll (h : s.Closed) (line : Line) (hreads : ∀ x ∈ line.reads, s.Knows x) :
    (s.emitAll [line]).Closed where
  lines := h.lines.append (.singleton hreads)
  scopes hscope hmem hx := (Precedes.emitAll s [line]).knows (h.scopes hscope hmem hx)

/-- A name may be bound to what may be read. -/
theorem declare (h : s.Closed) (k : String) {v : Variable}
    (hv : ∀ x, v.storage = .named x → s.Knows x) : (s.declare k v).Closed where
  lines := h.lines
  scopes hscope hmem hx := by
    rcases ScopeChain.mem_opened_declare hscope hmem with heq | ⟨other, hother, hmem'⟩
    · cases heq
      exact hv _ hx
    · exact h.scopes hother hmem' hx

theorem declareAll {bindings : Bindings} (h : s.Closed)
    (hb : ∀ k v x, (k, v) ∈ bindings → v.storage = .named x → s.Knows x) :
    { s with scopes := s.scopes.declareAll bindings }.Closed := by
  induction bindings generalizing s with
  | nil => exact h
  | cons entry rest ih =>
    refine ih (h.declare entry.1 fun x => hb entry.1 entry.2 x List.mem_cons_self) ?_
    exact fun k v x hmem => hb k v x (List.mem_cons_of_mem _ hmem)

theorem enter (h : s.Closed) : { s with scopes := s.scopes.enter }.Closed where
  lines := h.lines
  scopes hscope hmem hx := by
    rcases List.mem_cons.1 hscope with rfl | hscope
    · cases hmem
    · exact h.scopes hscope hmem hx

theorem leave (h : s.Closed) : { s with scopes := s.scopes.leave }.Closed where
  lines := h.lines
  scopes hscope hmem hx := by
    refine h.scopes ?_ hmem hx
    rcases List.mem_append.1 hscope with hnested | hroot
    · exact List.mem_append_left _ (List.mem_of_mem_tail hnested)
    · exact List.mem_append_right _ hroot

theorem declareSlots (h : s.Closed) (first : Nat) (params : List String) :
    { s with scopes := s.scopes.declareSlots first params }.Closed := by
  induction params generalizing s first with
  | nil => exact h
  | cons param rest ih => exact ih (h.declare param fun x hx => by cases hx) (first + 1)

/-- More may be declared. -/
theorem precede (h : s.Closed) (hst : s.Precedes t) (hcode : t.segments.code = s.segments.code)
    (hscopes : t.scopes = s.scopes) : t.Closed where
  lines := by
    rw [hcode]
    exact h.lines.mono fun x => hst.declares
  scopes hscope hmem hx := by
    rw [hscopes] at hscope
    exact hst.knows (h.scopes hscope hmem hx)

/-- The lines of an included unit read what that unit, or the unit around it, has defined. -/
theorem adopt (hs : s.Closed) (hst : s.Precedes (s.adopt t)) (ht : t.Closed) :
    (s.adopt t).Closed := by
  have hdeclares : ∀ x, t.Declares x → (s.adopt t).Declares x := fun x hx =>
    hx.imp (Defines.of_subset · (List.subset_append_right _ _)) id
  have hknows : ∀ x, t.Knows x → (s.adopt t).Knows x := fun x hx =>
    hx.imp (hdeclares x) (Defines.of_subset · (List.subset_append_right _ _))
  have hbefore : { s.adopt t with scopes := s.scopes }.Closed := by
    refine ⟨?_, fun hscope hmem hx => hst.knows (hs.scopes hscope hmem hx)⟩
    refine (hs.lines.mono fun x => hst.declares).append (ht.lines.mono fun x hx => ?_)
    exact .inl (hdeclares x hx)
  refine hbefore.declareAll fun k v x hmem hx => hknows x ?_
  exact ht.scopes (List.mem_append_right _ (List.mem_singleton.2 rfl)) hmem hx

end Closed

end State

/-! ## Generation -/

namespace Definition

open State Gen

/-- Operands may be put on a line if what they read may be read. -/
def discipline : Discipline Unit where
  inv _ := State.Closed
  own _ _ := True
  good _ s o := ∀ x ∈ o.reads, s.Knows x
  done _ _ s _ t := s.Precedes t ∧ t.Closed

theorem emit {s : State} (h : s.Closed) {line : Line} (hreads : ∀ x ∈ line.reads, s.Knows x)
    (ns : List Node) : discipline.done ns () s () (s.emitAll [line]) :=
  ⟨.emitAll s [line], h.emitAll line hreads⟩

/-- A variable may be read behind the line that defines it. -/
theorem good_written {s : State} {line : Line} {x : Name} (h : line.written? = some x)
    (hline : line ∈ s.segments.code) (ty : ValueType) : discipline.good () s (.var (.named x ty)) := by
  intro y hy
  obtain rfl := List.mem_singleton.1 hy
  exact .inr ⟨line, hline, h⟩

theorem read {s t : State} {loc : Nat} {k : String} {v : Variable} (hs : s.Closed)
    (h : resolve .standard loc k s = .ok v t) :
    (s.Precedes t ∧ t.Closed) ∧ discipline.good () t (.var v) := by
  have hgood : ∀ {u : State}, (∀ x, v.storage = .named x → u.Knows x) →
      discipline.good () u (.var v) := by
    intro u hknows x hx
    obtain ⟨storage, ty⟩ := v
    cases storage with
    | named y =>
      obtain rfl := List.mem_singleton.1 hx
      exact hknows x rfl
    | slot i => cases hx
  rcases resolve_eq_ok h with ⟨hv, rfl⟩ | ⟨-, hv, rfl⟩ | ⟨rfl, -, hnew, rfl, rfl⟩
  · obtain ⟨scope, hscope, hmem⟩ := ScopeChain.exists_mem_of_lookup hv
    exact ⟨⟨.refl _, hs⟩, hgood fun x => hs.scopes hscope hmem⟩
  · have hknows : ∀ x, v.storage = .named x → s.Knows x := fun x hx => .inl (.inr ⟨k, v, hv, hx⟩)
    exact ⟨⟨{ Precedes.refl s with }, hs.declare k hknows⟩, hgood hknows⟩
  · have hknows : ∀ x, (Variable.named s.freshTemp.1 .text).storage = .named x →
        s.withProcess.Knows x := fun x hx => .inl (.inr ⟨_, _, s.withProcess_emitted, hx⟩)
    have hprecedes := Precedes.withProcess hnew
    have hclosed := (hs.precede hprecedes rfl rfl).declare "process" hknows
    exact ⟨⟨{ hprecedes with }, hclosed⟩, hgood hknows⟩

/-- A name that is assigned to for the first time is defined by the line that assigns it. -/
theorem assignName {s t : State} {loc : Nat} {k : String} {v : Operand} {place : Target}
    (hs : s.Closed) (hv : discipline.good () s v)
    (h : nameTarget loc k v.valueType s = .ok place t) (ns : List Node) :
    discipline.done ns () s () (t.emitAll [assignLine place v]) := by
  rcases nameTarget_eq_ok h with ⟨-, -, rfl, rfl⟩ | ⟨w, x, -, -, rfl, rfl⟩
  · have hline : ∀ x ∈ (assignLine (.var (.user k)) v).reads, s.Knows x := by
      rw [Line.reads_assignLine]
      exact hv
    refine ⟨{ Precedes.emitAll s [_] with }, (hs.emitAll _ hline).declare k fun x hx => ?_⟩
    cases hx
    exact .inr ⟨_, List.mem_append_right _ List.mem_cons_self, Assignment.written?_assignLine_var _ _⟩
  · refine emit hs ?_ ns
    rw [Line.reads_assignLine]
    exact hv

theorem functionName_precedes {s t : State} {loc : Nat} {name : Option String} {f : Name}
    (hs : s.Closed) (h : functionName loc name s = .ok f t) :
    s.Precedes (t.emitTo .decl (.handle f)) ∧ (t.emitTo .decl (.handle f)).Closed := by
  have hprecedes : s.Precedes (s.emitTo .decl (.handle f)) := .emitDecl s _
  have hclosed := hs.precede hprecedes rfl rfl
  rcases functionName_eq_ok h with ⟨-, -, rfl⟩ | ⟨k, -, rfl, rfl⟩
  · exact ⟨{ hprecedes with }, ⟨hclosed.lines, hclosed.scopes⟩⟩
  · refine ⟨{ hprecedes with }, hclosed.declare k fun x hx => ?_⟩
    cases hx
    exact .inl (.inl ⟨_, List.mem_append_right _ List.mem_cons_self, rfl⟩)

theorem routine {s s' : State} {loc : Nat} {name : Option String} {f : Name} (params : List String)
    (hs : s.Closed) (h : functionName loc name s = .ok f s') :
    s.Precedes (s'.entering f params) ∧ (s'.entering f params).Closed := by
  obtain ⟨hprecedes, hclosed⟩ := functionName_precedes hs h
  let u := s'.emitTo .decl (.handle f)
  have hlines : (u.emitAll [.goto (.behind f), .label (.entry f), .enterFunction]).Closed := by
    have hfirst : (u.emitAll [.goto (.behind f)]).Closed := hclosed.emitAll _ nofun
    have hsecond := hfirst.emitAll (.label (.entry f)) nofun
    have hthird := hsecond.emitAll .enterFunction nofun
    rw [State.emitAll_emitAll, State.emitAll_emitAll] at hthird
    exact hthird
  exact ⟨{ hprecedes.trans (Precedes.emitAll u _) with }, hlines.enter.declareSlots 2 params⟩

theorem lawful : discipline.Lawful where
  refl hs := ⟨.refl _, hs.inv⟩
  trans h h' := ⟨h.1.trans h'.1, h'.2⟩
  inv_of_done _ h := h.2
  own_mono _ _ := trivial
  good_mono h hgood x hx := h.1.knows (hgood x hx)
  idle hs _ := ⟨.refl _, hs.inv⟩
  stack {_ s} _ hs := ⟨{ Precedes.refl s with }, ⟨hs.inv.lines, hs.inv.scopes⟩⟩
  temp {_ s} hs := ⟨⟨{ Precedes.refl s with }, ⟨hs.inv.lines, hs.inv.scopes⟩⟩, trivial⟩
  label {_ s} hs := ⟨{ Precedes.refl s with }, ⟨hs.inv.lines, hs.inv.scopes⟩⟩
  starting {_ s} _ hs := ⟨{ Precedes.refl s with }, ⟨hs.inv.lines, hs.inv.scopes⟩⟩
  emit {_ s line} hs hline := by
    refine ⟨emit hs.inv (fun x hx => ?_) [], fun x ty hx => ?_⟩
    · obtain ⟨o, ho, hmem⟩ := hline.mem_reads hx
      exact ho x hmem
    · exact good_written hx (List.mem_append_right _ List.mem_cons_self) ty
  number _ _ _ := nofun
  chars _ _ _ := nofun
  reference {_ s b i} hb hi x hx := by
    rw [Operand.reads, Operand.splice, Text.reads_append] at hx
    rcases List.mem_append.1 hx with hx | hx
    · exact hb x hx
    · exact hi x hx
  read hs h := ⟨(), read hs.inv h⟩
  assignName hs hv _ h := ⟨(), assignName hs.inv hv h _⟩
  assignPlace hs hv _ ho _ := by
    refine emit hs.inv (fun x hx => ?_) _
    rw [Line.reads_assignLine] at hx
    rcases List.mem_append.1 hx with hx | hx
    · exact ho x hx
    · exact hv x hx
  stepped {_ s} l op leading {n o current place y} hs _ ho hcurrent _ hplace _ := by
    have hsnapshot := hs.inv.emitAll (.compute (.var y) (.value current.splice)) hcurrent
    have hupdate : ∀ x ∈ (Line.compute place (.step op current.splice)).reads,
        (s.emitAll [.compute (.var y) (.value current.splice)]).Knows x := by
      intro x hx
      refine (Precedes.emitAll s _).knows ?_
      rcases List.mem_append.1 hx with hx | hx
      · exact ho x (Operand.mem_reads_of_target? hplace hx)
      · exact hcurrent x hx
    have hboth := hsnapshot.emitAll _ hupdate
    rw [State.emitAll_emitAll] at hboth
    refine ⟨⟨.emitAll s _, hboth⟩, fun ty => ?_⟩
    have hline : Line.compute (.var y) (.value current.splice) ∈ (s.emitAll
        [.compute (.var y) (.value current.splice), .compute place (.step op current.splice)]
        ).segments.code := List.mem_append_right _ List.mem_cons_self
    exact good_written rfl hline ty
  called {_ s l n args f values y} hs _ hf _ hvalues _ := by
    refine ⟨emit hs.inv (fun x hx => ?_) _, fun ty => ?_⟩
    · rw [Line.reads_eq_filterMap, Line.fragments_call, List.filterMap_append,
        List.filterMap_flatMap] at hx
      rcases List.mem_append.1 hx with hx | hx
      · exact hf x hx
      · obtain ⟨v, hv, hmem⟩ := List.mem_flatMap.1 hx
        exact hvalues v hv x hmem
    · exact good_written rfl (List.mem_append_right _ List.mem_cons_self) ty
  routine params _ hs h := by
    obtain ⟨hprecedes, hclosed⟩ := routine params hs.inv h
    refine ⟨(), hclosed, fun o ho x hx => hprecedes.knows (ho x hx), fun ns _ t hdone => ?_⟩
    exact ⟨(), ⟨{ hprecedes.trans hdone.1 with }, hdone.2.leave⟩, fun o ho => ho, nofun⟩
  included hs := by
    refine ⟨(), ⟨.nil, fun hscope hmem => ?_⟩, fun ns _ t hdone => ?_⟩
    · obtain rfl := List.mem_singleton.1 hscope
      cases hmem
    · exact ⟨(), hdone.1.adopt, hs.inv.adopt hdone.1.adopt hdone.2⟩

end Definition

/-! ## Whole compilations -/

/-- Every variable that a script reads has been defined before. Whatever the files and the options, a
variable in a text of a line of code is defined by a line of code in front of that line, or among the
declarations, which come before all code. -/
theorem reads_are_defined_before (files : String → Except IoError String) (options : Options)
    (source script : String) (hcompile : compileSource files options source = .ok script) :
    ∃ program t, readUnit options.folding source = .ok program ∧
      generate (options.env .standard files) source program {} = .ok () t ∧ script = t.script ∧
      ∀ before line after, t.segments.code = before ++ line :: after → ∀ x ∈ line.reads,
        ∃ earlier ∈ t.segments.decl ++ before, earlier.written? = some x := by
  obtain ⟨program, t, hread, hgenerate, hscript⟩ := compileSource_eq_ok hcompile
  refine ⟨program, t, hread, hgenerate, hscript, ?_⟩
  let setup : Setup :=
    { registry := .standard, files, folding := options.folding, limit := options.limit }
  have hnothing : ∀ x, ¬ ({} : State).shared.IsHandle x := by
    rintro x ⟨k, v, hk, -⟩
    cases hk
  have hstart : Definition.discipline.Holds () {} := by
    refine ⟨⟨State.WellScoped.initial, .nil, fun hscope hmem => ?_⟩, nofun⟩
    obtain rfl := List.mem_singleton.1 hscope
    cases hmem
  obtain ⟨_, ⟨hprecedes, hclosed⟩, -⟩ :=
    Definition.lawful.generate setup rfl hstart hgenerate
  intro before line after hsplit x hx
  rcases hclosed.lines before line after hsplit x hx with (hdecl | hhandle) | hcode
  · exact hdecl.of_subset (List.subset_append_left _ _)
  · -- All builtins have been set up, and so declared, in the course of this compilation.
    have hdecl := (hprecedes.declared hhandle).resolve_left (hnothing x)
    exact hdecl.of_subset (List.subset_append_left _ _)
  · exact hcode.of_subset (List.subset_append_right _ _)

/-- A file that uses a builtin which the unit around it has set up. -/
def definingFiles : String → Except IoError String
  | "./lib.bc" => .ok "total = [process, 2];"
  | _ => .error .notFound

/-- A source whose variables are defined in all the ways there are. -/
def definingSource : String :=
  "p = process; func f(a) \x7b include(\"lib.bc\"); return total[0] + a; \x7d " ++
    "x = f(p) ? 1 : (x = 2); x++; return x < p || func() \x7b \x7d;"

theorem defining_source_reads_defined :
    ∃ script program t, compileSource definingFiles {} definingSource = .ok script ∧
      generate (Options.env {} .standard definingFiles) definingSource program {} = .ok () t ∧
      ∀ before line after, t.segments.code = before ++ line :: after → ∀ x ∈ line.reads,
        ∃ earlier ∈ t.segments.decl ++ before, earlier.written? = some x := by
  obtain ⟨script, hcompile⟩ : ∃ script,
      compileSource definingFiles {} definingSource = .ok script :=
    exists_script (by decide +kernel)
  obtain ⟨program, t, -, hgenerate, -, hreads⟩ :=
    reads_are_defined_before definingFiles {} definingSource script hcompile
  exact ⟨script, program, t, hcompile, hgenerate, hreads⟩

end BatchCompiler
