/-
# BatchCompiler.Proofs.Template -- texts that depend on the numbering alone

Temporaries and labels are numbered as they are made up, so what a stretch of code is spelled like
depends on where the numbering stands when the stretch begins. A template is a text with holes for
the temporaries and labels that the stretch makes up itself, counted from its beginning.

A family has one member for each site where the stretch may be placed. A family of texts is uniform
if one template spells all its members. A family of variables, operands or bindings is steady if its
members differ in nothing but how names are spelled, and these are uniform.
-/

import BatchCompiler.Proofs.Action

namespace BatchCompiler

/-! ## Templates -/

/-- The counters after this many more temporaries and labels. -/
def Counters.add (counters used : Counters) : Counters :=
  { temps := counters.temps + used.temps, labels := counters.labels + used.labels }

/-- The counters after one more temporary. -/
def Counters.nextTemp (counters : Counters) : Counters :=
  { counters with temps := counters.temps + 1 }

/-- The counters after one more label. -/
def Counters.nextLabel (counters : Counters) : Counters :=
  { counters with labels := counters.labels + 1 }

theorem Counters.le_nextTemp (counters : Counters) : counters.Le counters.nextTemp :=
  ⟨Nat.le_succ _, Nat.le_refl _⟩

theorem Counters.le_nextLabel (counters : Counters) : counters.Le counters.nextLabel :=
  ⟨Nat.le_refl _, Nat.le_succ _⟩

/-- A piece of a template. -/
inductive Piece where
  | chars (text : String)
  /-- The temporary that is made up as the `i`-th one. -/
  | temp (i : Nat)
  /-- The loop label that is made up as the `j`-th one. -/
  | label (j : Nat)
  deriving DecidableEq, Repr

/-- The piece where the numbering stands at `counters` before the stretch. -/
def Piece.fill (counters : Counters) : Piece → String
  | chars text => text
  | temp i => "__" ++ toString (counters.temps + i)
  | label j => "lbl" ++ toString (counters.labels + j)

/-- The piece has no hole for more than is made up. -/
def Piece.Within (used : Counters) : Piece → Prop
  | chars _ => True
  | temp i => 1 ≤ i ∧ i ≤ used.temps
  | label j => 1 ≤ j ∧ j ≤ used.labels

/-- A text with holes for the temporaries and labels that a stretch of code makes up. -/
abbrev Template := List Piece

namespace Template

/-- The text where the numbering stands at `counters` before the stretch. -/
def fill (counters : Counters) : Template → String
  | [] => ""
  | p :: ps => p.fill counters ++ fill counters ps

/-- Every hole is for one of the temporaries and labels that are made up. -/
def Within (used : Counters) (t : Template) : Prop := ∀ p ∈ t, p.Within used

theorem fill_append (counters : Counters) (t u : Template) :
    fill counters (t ++ u) = t.fill counters ++ u.fill counters := by
  induction t with
  | nil => simp [fill]
  | cons p ps ih => simp [fill, ih, String.append_assoc]

theorem Within.mono {used later : Counters} {t : Template} (h : t.Within used)
    (hle : used.Le later) : t.Within later := by
  intro p hp
  cases p with
  | chars text => trivial
  | temp i => exact ⟨(h _ hp).1, Nat.le_trans (h _ hp).2 hle.temps⟩
  | label j => exact ⟨(h _ hp).1, Nat.le_trans (h _ hp).2 hle.labels⟩

end Template

/-! ## Uniform texts -/

/-- Where a stretch of code may be placed. -/
structure Site where
  /-- Where the numbering stands before it. -/
  counters : Counters
  /-- The lines before it. -/
  lines : Segments

/-- One template, whose holes are for what has been made up, spells the text at every site. -/
def Uniform (used : Counters) (f : Site → String) : Prop :=
  ∃ t : Template, t.Within used ∧ ∀ site, f site = t.fill site.counters

namespace Uniform

variable {used later : Counters} {f g : Site → String} {x y : Site → Name} {l : Site → Label}
  {a b : Site → Text} {target : Site → Target} {formula : Site → Formula}

theorem mono (h : Uniform used f) (hle : used.Le later) : Uniform later f := by
  obtain ⟨t, hwithin, hfill⟩ := h
  exact ⟨t, hwithin.mono hle, hfill⟩

theorem const (text : String) : Uniform used fun _ => text := by
  refine ⟨[.chars text], ?_, ?_⟩
  · intro p hp
    rw [List.mem_singleton.1 hp]
    trivial
  · intro site
    simp [Template.fill, Piece.fill]

theorem append (hf : Uniform used f) (hg : Uniform used g) :
    Uniform used fun site => f site ++ g site := by
  obtain ⟨t, htWithin, htFill⟩ := hf
  obtain ⟨u, huWithin, huFill⟩ := hg
  refine ⟨t ++ u, ?_, ?_⟩
  · intro p hp
    rcases List.mem_append.1 hp with hp | hp
    · exact htWithin p hp
    · exact huWithin p hp
  · intro site
    show f site ++ g site = _
    rw [Template.fill_append, htFill, huFill]

/-- The temporary that is made up next. -/
theorem temp : Uniform used.nextTemp fun site =>
    (Name.temp (site.counters.temps + used.temps + 1)).render := by
  refine ⟨[.temp (used.temps + 1)], ?_, ?_⟩
  · intro p hp
    rw [List.mem_singleton.1 hp]
    exact ⟨Nat.le_add_left _ _, Nat.le_refl _⟩
  · intro site
    simp [Template.fill, Piece.fill, Name.render, Nat.add_assoc]

/-- The loop label that is made up next. -/
theorem loopLabel : Uniform used.nextLabel fun site =>
    (Label.loop (site.counters.labels + used.labels + 1)).render := by
  refine ⟨[.label (used.labels + 1)], ?_, ?_⟩
  · intro p hp
    rw [List.mem_singleton.1 hp]
    exact ⟨Nat.le_add_left _ _, Nat.le_refl _⟩
  · intro site
    simp [Template.fill, Piece.fill, Label.render, Nat.add_assoc]

/-! ### Parts of lines -/

theorem text (ha : Uniform used fun site => (a site).render)
    (hb : Uniform used fun site => (b site).render) :
    Uniform used fun site => (a site ++ b site).render := by
  simp only [Text.render_append]
  exact ha.append hb

theorem name (hx : Uniform used fun site => (x site).render) :
    Uniform used fun site => Text.render [.name (x site)] :=
  hx.append (const "")

theorem deferred (hx : Uniform used fun site => (x site).render) :
    Uniform used fun site => Text.render [.deferred (x site)] :=
  (((const "!").append hx).append (const "!")).append (const "")

theorem immediate (hx : Uniform used fun site => (x site).render) :
    Uniform used fun site => Text.render [.immediate (x site)] :=
  (((const "%").append hx).append (const "%")).append (const "")

theorem exit (hx : Uniform used fun site => (x site).render) :
    Uniform used fun site => (Label.exit (x site)).render :=
  hx.append (const _)

theorem behindExit (hx : Uniform used fun site => (x site).render) :
    Uniform used fun site => (Label.behindExit (x site)).render :=
  hx.append (const _)

theorem behind (hx : Uniform used fun site => (x site).render) :
    Uniform used fun site => (Label.behind (x site)).render :=
  (const _).append hx

theorem element (hx : Uniform used fun site => (x site).render) (i : Nat) :
    Uniform used fun site => (Target.element (x site) i).render :=
  (hx.append (const _)).append (const _)

theorem size (hx : Uniform used fun site => (x site).render) :
    Uniform used fun site => (Target.size (x site)).render :=
  hx.append (const _)

theorem binary (op : BinaryOp) (ha : Uniform used fun site => (a site).render)
    (hb : Uniform used fun site => (b site).render) :
    Uniform used fun site => (Formula.binary op (a site) (b site)).render :=
  (ha.append (const _)).append hb

theorem step (op : StepOp) (ha : Uniform used fun site => (a site).render) :
    Uniform used fun site => (Formula.step op (a site)).render :=
  ha.append (const _)

/-! ### Lines -/

theorem handle (hx : Uniform used fun site => (x site).render) :
    Uniform used fun site => (Line.handle (x site)).render :=
  (((const _).append hx).append (const _)).append hx

theorem exitHandle (hx : Uniform used fun site => (x site).render) :
    Uniform used fun site => (Line.exitHandle (x site)).render :=
  (((const _).append hx.exit).append (const _)).append hx.exit

theorem exitCode (hx : Uniform used fun site => (x site).render) :
    Uniform used fun site => (Line.exitCode (x site)).render :=
  ((const _).append hx).append (const _)

theorem assign (htarget : Uniform used fun site => (target site).render)
    (ha : Uniform used fun site => (a site).render) :
    Uniform used fun site => (Line.assign (target site) (a site)).render :=
  ((((const _).append htarget).append (const _)).append ha).append (const _)

theorem compute (htarget : Uniform used fun site => (target site).render)
    (hformula : Uniform used fun site => (formula site).render) :
    Uniform used fun site => (Line.compute (target site) (formula site)).render :=
  ((((const _).append htarget).append (const _)).append hformula).append (const _)

theorem flag (hx : Uniform used fun site => (x site).render) (truth : Bool) :
    Uniform used fun site => (Line.flag (x site) truth).render :=
  (((const _).append hx).append (const _)).append (const _)

theorem fetch (hx : Uniform used fun site => (x site).render)
    (ha : Uniform used fun site => (a site).render) :
    Uniform used fun site => (Line.fetch (x site) (a site)).render :=
  ((((const _).append hx).append (const _)).append ha).append (const _)

theorem compare (hx : Uniform used fun site => (x site).render) (op : BinaryOp)
    (ha : Uniform used fun site => (a site).render)
    (hb : Uniform used fun site => (b site).render) :
    Uniform used fun site => (Line.compare (x site) op (a site) (b site)).render := by
  have hcondition := ((((const "if ").append ha).append (const " ")).append
    (const op.spelling)).append (const " ")
  exact (((((hcondition.append hb).append (const _)).append (hx.flag true)).append
    (const _)).append (hx.flag false)).append (const _)

theorem openIf (ha : Uniform used fun site => (a site).render) :
    Uniform used fun site => (Line.openIf (a site)).render :=
  ((const _).append ha).append (const _)

theorem label (hl : Uniform used fun site => (l site).render) :
    Uniform used fun site => (Line.label (l site)).render :=
  (const _).append hl

theorem goto (hl : Uniform used fun site => (l site).render) :
    Uniform used fun site => (Line.goto (l site)).render :=
  (const _).append hl

theorem gotoBare (hl : Uniform used fun site => (l site).render) :
    Uniform used fun site => (Line.gotoBare (l site)).render :=
  (const _).append hl

theorem setResult (isNumber : Bool) (ha : Uniform used fun site => (a site).render) :
    Uniform used fun site => (Line.setResult isNumber (a site)).render :=
  (((const _).append (const _)).append (const _)).append ha

end Uniform

/-! ## Families of lists -/

/-- The lists have the same length at every site, and their members at each place are a family of the
given kind. -/
def Each {α : Type} (P : (Site → α) → Prop) (xs : Site → List α) : Prop :=
  ∃ ys : List (Site → α), (∀ y ∈ ys, P y) ∧ ∀ site, xs site = ys.map (· site)

namespace Each

variable {α : Type} {P Q : (Site → α) → Prop} {x : Site → α} {xs : Site → List α}

theorem nil : Each P fun _ => [] := ⟨[], nofun, fun _ => rfl⟩

theorem cons (hx : P x) (hxs : Each P xs) : Each P fun site => x site :: xs site := by
  obtain ⟨ys, hys, heq⟩ := hxs
  refine ⟨x :: ys, ?_, ?_⟩
  · intro y hy
    rcases List.mem_cons.1 hy with rfl | hy
    · exact hx
    · exact hys y hy
  · intro site
    show x site :: xs site = _
    rw [heq]
    rfl

theorem mono (h : Each P xs) (hPQ : ∀ x, P x → Q x) : Each Q xs := by
  obtain ⟨ys, hys, heq⟩ := h
  exact ⟨ys, fun y hy => hPQ y (hys y hy), heq⟩

/-- The lists are empty at every site, or have a first member at every site. -/
theorem cases (h : Each P xs) :
    (∀ site, xs site = []) ∨
      ∃ y ys, P y ∧ Each P ys ∧ ∀ site, xs site = y site :: ys site := by
  obtain ⟨zs, hzs, heq⟩ := h
  cases zs with
  | nil => exact .inl heq
  | cons z zs =>
    refine .inr ⟨z, fun site => zs.map fun (y : Site → α) => y site, hzs z List.mem_cons_self,
      ⟨zs, ?_, fun _ => rfl⟩, fun site => heq site⟩
    intro y hy
    exact hzs y (List.mem_cons_of_mem _ hy)

theorem length_eq (h : Each P xs) : ∃ n, ∀ site, (xs site).length = n := by
  obtain ⟨ys, -, heq⟩ := h
  refine ⟨ys.length, ?_⟩
  intro site
  rw [heq, List.length_map]

theorem drop (h : Each P xs) (n : Nat) : Each P fun site => (xs site).drop n := by
  obtain ⟨ys, hys, heq⟩ := h
  refine ⟨ys.drop n, fun y hy => hys y (List.mem_of_mem_drop hy), ?_⟩
  intro site
  dsimp only
  rw [heq, List.map_drop]

theorem take (h : Each P xs) (n : Nat) : Each P fun site => (xs site).take n := by
  obtain ⟨ys, hys, heq⟩ := h
  refine ⟨ys.take n, fun y hy => hys y (List.mem_of_mem_take hy), ?_⟩
  intro site
  dsimp only
  rw [heq, List.map_take]

end Each

/-! ## Variables and operands -/

/-- The variable is of one type, and kept in the same argument or under a uniform name. -/
inductive Variable.Steady (used : Counters) : (Site → Variable) → Prop
  | named {x : Site → Name} (ty : ValueType) :
    Uniform used (fun site => (x site).render) → Steady used fun site => .named (x site) ty
  | slot (index : Nat) (ty : ValueType) : Steady used fun _ => .slot index ty

/-- The operand is of one kind and type, and what stands in for it on a line is uniform. -/
inductive Operand.Steady (used : Counters) : (Site → Operand) → Prop
  | integer (value : Int) : Steady used fun _ => .integer value
  | text {t : Site → Text} :
    Uniform used (fun site => (t site).render) → Steady used fun site => .text (t site)
  | reference {place : Site → Text} :
    Uniform used (fun site => (place site).render) → Steady used fun site => .reference (place site)
  | var {v : Site → Variable} : Variable.Steady used v → Steady used fun site => .var (v site)

namespace Variable.Steady

variable {used later : Counters} {v : Site → Variable}

theorem mono (h : Variable.Steady used v) (hle : used.Le later) : Variable.Steady later v := by
  cases h with
  | named ty hx => exact .named ty (hx.mono hle)
  | slot index ty => exact .slot index ty

/-- A variable that is the same at every site. -/
theorem const (v : Variable) : Variable.Steady used fun _ => v := by
  obtain ⟨storage, ty⟩ := v
  cases storage with
  | named x => exact .named ty (.const x.render)
  | slot index => exact .slot index ty

theorem read (h : Variable.Steady used v) : Uniform used fun site => Text.render [(v site).read] := by
  cases h with
  | named ty hx => exact hx.deferred
  | slot index ty => exact .const _

theorem readNow (h : Variable.Steady used v) :
    Uniform used fun site => Text.render [(v site).readNow] := by
  cases h with
  | named ty hx => exact hx.immediate
  | slot index ty => exact .const _

end Variable.Steady

namespace Operand.Steady

variable {used later : Counters} {o : Site → Operand} {os : Site → List Operand}

theorem mono (h : Operand.Steady used o) (hle : used.Le later) : Operand.Steady later o := by
  cases h with
  | integer value => exact .integer value
  | text ht => exact .text (ht.mono hle)
  | reference hplace => exact .reference (hplace.mono hle)
  | var hv => exact .var (hv.mono hle)

theorem splice (h : Operand.Steady used o) : Uniform used fun site => (o site).splice.render := by
  cases h with
  | integer value => exact .const _
  | text ht => exact ht
  | reference hplace => exact hplace
  | var hv => exact hv.read

theorem spliceNow (h : Operand.Steady used o) :
    Uniform used fun site => (o site).spliceNow.render := by
  cases h with
  | integer value => exact .const _
  | text ht => exact ht
  | reference hplace => exact hplace
  | var hv => exact hv.readNow

theorem valueType_eq (h : Operand.Steady used o) : ∃ ty, ∀ site, (o site).valueType = ty := by
  cases h with
  | integer value => exact ⟨_, fun _ => rfl⟩
  | text ht => exact ⟨_, fun _ => rfl⟩
  | reference hplace => exact ⟨_, fun _ => rfl⟩
  | var hv =>
    cases hv with
    | named ty hx => exact ⟨_, fun _ => rfl⟩
    | slot index ty => exact ⟨_, fun _ => rfl⟩

theorem isInteger_eq (h : Operand.Steady used o) : ∃ b, ∀ site, (o site).isInteger = b := by
  obtain ⟨ty, hty⟩ := h.valueType_eq
  refine ⟨decide (ty = .integer), ?_⟩
  intro site
  rw [Operand.isInteger, hty]

theorem argument (h : Operand.Steady used o) :
    Uniform used fun site => (Gen.argument (o site)).render := by
  obtain ⟨b, hb⟩ := h.isInteger_eq
  simp only [Gen.argument, hb]
  cases b with
  | true => exact h.splice
  | false => exact ((Uniform.const _).append h.splice).append (.const _)

/-- The arguments of a call, with blanks between them. -/
theorem arguments (h : Each (Operand.Steady used) os) :
    Uniform used fun site =>
      String.join (((os site).map Gen.argument).map fun a => " " ++ a.render) := by
  obtain ⟨ys, hys, heq⟩ := h
  simp only [heq, List.map_map]
  clear heq
  induction ys with
  | nil => exact .const _
  | cons y ys ih =>
    simp only [List.map_cons, String.join_cons]
    refine ((Uniform.const " ").append ?_).append (ih fun z hz => hys z (List.mem_cons_of_mem _ hz))
    exact (hys y List.mem_cons_self).argument

end Operand.Steady

/-- The line of a call. -/
theorem Uniform.call {used : Counters} {a : Site → Text} {x : Site → Name}
    {os : Site → List Operand} (ha : Uniform used fun site => (a site).render)
    (hx : Uniform used fun site => (x site).render) (hos : Each (Operand.Steady used) os) :
    Uniform used fun site =>
      (Line.call (a site) (x site) ((os site).map Gen.argument)).render :=
  ((((const _).append ha).append (const _)).append hx).append (Operand.Steady.arguments hos)

/-- The line that assigns an operand. -/
theorem Uniform.assignLine {used : Counters} {target : Site → Target} {o : Site → Operand}
    (htarget : Uniform used fun site => (target site).render) (ho : Operand.Steady used o) :
    Uniform used fun site => (Gen.assignLine (target site) (o site)).render := by
  obtain ⟨b, hb⟩ := ho.isInteger_eq
  simp only [Gen.assignLine, hb]
  cases b with
  | true => exact htarget.compute ho.splice
  | false => exact htarget.assign ho.splice

/-! ## Bindings -/

/-- The same names are bound at every site, each to a steady variable. -/
def Bindings.Steady (used : Counters) (b : Site → Bindings) : Prop :=
  ∃ entries : List (String × (Site → Variable)),
    (∀ entry ∈ entries, Variable.Steady used entry.2) ∧
      ∀ site, b site = entries.map fun entry => (entry.1, entry.2 site)

namespace Bindings.Steady

variable {used later : Counters} {b : Site → Bindings} {v : Site → Variable}

theorem mono (h : Bindings.Steady used b) (hle : used.Le later) : Bindings.Steady later b := by
  obtain ⟨entries, hentries, heq⟩ := h
  exact ⟨entries, fun entry hentry => (hentries entry hentry).mono hle, heq⟩

/-- Bindings that are the same at every site. -/
theorem const (bindings : Bindings) : Bindings.Steady used fun _ => bindings := by
  refine ⟨bindings.map fun entry => (entry.1, fun _ => entry.2), ?_, ?_⟩
  · intro entry hentry
    obtain ⟨original, -, rfl⟩ := List.mem_map.1 hentry
    exact .const original.2
  · intro site
    simp [Function.comp_def]

/-- A name is bound at no site, or at every site to a steady variable. -/
theorem get? (h : Bindings.Steady used b) (k : String) :
    (∀ site, (b site).get? k = none) ∨
      ∃ v, Variable.Steady used v ∧ ∀ site, (b site).get? k = some (v site) := by
  obtain ⟨entries, hentries, heq⟩ := h
  simp only [heq, Bindings.get?]
  clear heq
  induction entries with
  | nil => exact .inl fun _ => rfl
  | cons entry rest ih =>
    by_cases hk : k = entry.1
    · right
      refine ⟨entry.2, hentries entry List.mem_cons_self, ?_⟩
      intro site
      simp [hk]
    · simp only [List.map_cons, List.lookup_cons, beq_eq_false_iff_ne.2 hk]
      exact ih fun other hother => hentries other (List.mem_cons_of_mem _ hother)

theorem set (h : Bindings.Steady used b) (k : String) (hv : Variable.Steady used v) :
    Bindings.Steady used fun site => (b site).set k (v site) := by
  obtain ⟨entries, hentries, heq⟩ := h
  simp only [heq]
  clear heq
  induction entries with
  | nil =>
    refine ⟨[(k, v)], ?_, fun _ => rfl⟩
    intro entry hentry
    rw [List.mem_singleton.1 hentry]
    exact hv
  | cons entry rest ih =>
    have hrest : ∀ other ∈ rest, Variable.Steady used other.2 :=
      fun other hother => hentries other (List.mem_cons_of_mem _ hother)
    simp only [List.map_cons, Bindings.set]
    by_cases hk : entry.1 = k
    · simp only [if_pos hk]
      refine ⟨(k, v) :: rest, ?_, fun _ => rfl⟩
      intro other hother
      rcases List.mem_cons.1 hother with rfl | hother
      · exact hv
      · exact hrest other hother
    · simp only [if_neg hk]
      obtain ⟨others, hothers, heq⟩ := ih hrest
      refine ⟨entry :: others, ?_, ?_⟩
      · intro other hother
        rcases List.mem_cons.1 hother with rfl | hother
        · exact hentries _ List.mem_cons_self
        · exact hothers other hother
      · intro site
        exact congrArg (List.cons _) (heq site)

end Bindings.Steady

end BatchCompiler
