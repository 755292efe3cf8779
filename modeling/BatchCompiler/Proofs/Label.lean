/-
# BatchCompiler.Proofs.Label -- every jump has one place to go

Labels come from loops and functions, which number or name them, and from the process object. A
stretch of generation may define each label only as often as its share says: once for a number that
it has taken, and as often as it has functions of that name for a name. Shares of stretches that
follow each other add up, because numbers are handed on from unit to unit, so over a whole
compilation every label is defined at most once. That every jump has a place to go is kept construct
by construct: whatever jumps also defines where it jumps to.
-/

import BatchCompiler.Proofs.Contract
import BatchCompiler.Proofs.Spelling

namespace BatchCompiler

/-! ## Lines -/

/-- The label that the line defines. -/
def Line.label? : Line → Option Label
  | label l => some l
  | _ => none

/-- The label that the line jumps to. -/
def Line.jump? : Line → Option Label
  | goto l => some l
  | gotoBare l => some l
  | _ => none

/-- The line is one that the compiler can have written: labels keep to the reservation, and only the
process object jumps without a colon. -/
def Line.IsRegular : Line → Prop
  | label l => l.IsProper
  | goto l => l = .eof ∨ l.IsProper
  | gotoBare l => ∃ n, l = .behindExit (.temp n)
  | verbatim _ => False
  | _ => True

/-- The line neither defines a label nor jumps. -/
def Line.IsInert (line : Line) : Prop := line.IsRegular ∧ line.label? = none ∧ line.jump? = none

theorem Line.IsOrdinary.isInert {own : Name → Prop} {line : Line} (h : line.IsOrdinary own) :
    line.IsInert := by
  cases line <;> first | exact absurd h id | exact ⟨trivial, rfl, rfl⟩

theorem Line.isInert_of_isStore {segment : Segment} {line : Line}
    (h : line.isStore segment = true) : line.IsInert := by
  cases line <;> first | exact ⟨trivial, rfl, rfl⟩ | cases h

/-- The labels that the lines define. -/
def definedLabels (lines : List Line) : List Label := lines.filterMap Line.label?

@[simp] theorem definedLabels_append (xs ys : List Line) :
    definedLabels (xs ++ ys) = definedLabels xs ++ definedLabels ys :=
  List.filterMap_append

theorem mem_definedLabels {lines : List Line} {l : Label} :
    l ∈ definedLabels lines ↔ .label l ∈ lines := by
  unfold definedLabels
  rw [List.mem_filterMap]
  constructor
  · rintro ⟨line, hline, hl⟩
    cases line <;> cases hl
    exact hline
  · intro h
    exact ⟨.label l, h, rfl⟩

/-! ## Shares -/

/-- The name that a function has in the source. -/
def Node.functionName? : Node → Option String
  | function _ name _ _ => name
  | _ => none

/-- How often a function of this name is among the nodes. -/
def functionCount (ns : List Node) (name : String) : Nat :=
  (ns.filterMap Node.functionName?).count name

theorem functionCount_cons {n : Node} (h : n.functionName? = none) (ns : List Node) (f : String) :
    functionCount (n :: ns) f = functionCount ns f := by
  unfold functionCount
  rw [List.filterMap_cons_none h]

theorem Node.functionName?_of_not_special {n : Node} (h : n.isSpecial = false) :
    n.functionName? = none := by
  cases n <;> first | rfl | cases h

/-- One, if the number has been taken between the two. -/
def taken (lo hi n : Nat) : Nat := if lo < n ∧ n ≤ hi then 1 else 0

theorem taken_add {lo mid hi : Nat} (h : lo ≤ mid) (h' : mid ≤ hi) (n : Nat) :
    taken lo mid n + taken mid hi n = taken lo hi n := by
  unfold taken
  split <;> split <;> split <;> omega

theorem taken_succ (n : Nat) : taken n (n + 1) (n + 1) = 1 := by
  unfold taken
  rw [if_pos (by omega)]

/-- How often a stretch of generation may define a label, if it generates these nodes and counts from
`lo` to `hi`. -/
def share (ns : List Node) (lo hi : Counters) : Label → Nat
  | .loop n => taken lo.labels hi.labels n
  | .entry (.user f) => functionCount ns f
  | .behind (.user f) => functionCount ns f
  | .entry (.temp n) => taken lo.temps hi.temps n
  | .behind (.temp n) => taken lo.temps hi.temps n
  | .exit (.temp n) => taken lo.temps hi.temps n
  | .behindExit (.temp n) => taken lo.temps hi.temps n
  | _ => 0

theorem share_add (ms ns : List Node) {lo mid hi : Counters} (h : lo.Le mid) (h' : mid.Le hi)
    (l : Label) : share ms lo mid l + share ns mid hi l = share (ms ++ ns) lo hi l := by
  have hname : ∀ f, functionCount ms f + functionCount ns f = functionCount (ms ++ ns) f := by
    intro f
    unfold functionCount
    rw [List.filterMap_append, List.count_append]
  have htemp := taken_add h.temps h'.temps
  cases l with
  | loop n => exact taken_add h.labels h'.labels n
  | entry f => cases f with
    | user f => exact hname f
    | temp n => exact htemp n
  | behind f => cases f with
    | user f => exact hname f
    | temp n => exact htemp n
  | exit p => cases p with
    | user f => rfl
    | temp n => exact htemp n
  | behindExit p => cases p with
    | user f => rfl
    | temp n => exact htemp n
  | eof => rfl

/-- The share depends only on the names of the functions. -/
theorem share_congr {ms ns : List Node} (h : ∀ f, functionCount ms f = functionCount ns f)
    (lo hi : Counters) (l : Label) : share ms lo hi l = share ns lo hi l := by
  cases l with
  | entry f => cases f with
    | user f => exact h f
    | temp n => rfl
  | behind f => cases f with
    | user f => exact h f
    | temp n => rfl
  | loop n => rfl
  | exit p => cases p <;> rfl
  | behindExit p => cases p <;> rfl
  | eof => rfl

/-- Lines that define each label only as often as their share says and jump only to labels that they
define themselves, or to the end of the script. -/
structure Closed (ns : List Node) (lo hi : Counters) (lines : List Line) : Prop where
  regular : ∀ line ∈ lines, line.IsRegular
  defined : ∀ l, (definedLabels lines).count l ≤ share ns lo hi l
  resolved : ∀ line ∈ lines, ∀ l, line.jump? = some l → l = .eof ∨ .label l ∈ lines

namespace Closed

variable {ms ns : List Node} {lo mid hi : Counters} {xs ys : List Line}

theorem nil (ns : List Node) (lo hi : Counters) : Closed ns lo hi [] where
  regular := fun _ h => absurd h List.not_mem_nil
  defined := fun _ => Nat.zero_le _
  resolved := fun _ h => absurd h List.not_mem_nil

theorem of_inert {line : Line} (h : line.IsInert) (ns : List Node) (lo hi : Counters) :
    Closed ns lo hi [line] where
  regular := by
    intro other hother
    obtain rfl := List.mem_singleton.1 hother
    exact h.1
  defined := by
    intro l
    simp [definedLabels, h.2.1]
  resolved := by
    intro other hother l hl
    obtain rfl := List.mem_singleton.1 hother
    rw [h.2.2] at hl
    cases hl

/-- Lines that define different labels, for each of which there is a share. -/
theorem of_nodup (hdistinct : (definedLabels xs).Nodup)
    (hshare : ∀ l ∈ definedLabels xs, share ns lo hi l = 1)
    (hregular : ∀ line ∈ xs, line.IsRegular)
    (hresolved : ∀ line ∈ xs, ∀ l, line.jump? = some l → l = .eof ∨ .label l ∈ xs) :
    Closed ns lo hi xs where
  regular := hregular
  defined := by
    intro l
    by_cases hl : l ∈ definedLabels xs
    · rw [hshare l hl]
      exact List.nodup_iff_count.1 hdistinct l
    · rw [List.count_eq_zero.2 hl]
      exact Nat.zero_le _
  resolved := hresolved

theorem append (hx : Closed ms lo mid xs) (hy : Closed ns mid hi ys) (h : lo.Le mid)
    (h' : mid.Le hi) : Closed (ms ++ ns) lo hi (xs ++ ys) where
  regular := by
    intro line hline
    rcases List.mem_append.1 hline with hx' | hy'
    · exact hx.regular line hx'
    · exact hy.regular line hy'
  defined := by
    intro l
    rw [definedLabels_append, List.count_append, ← share_add ms ns h h']
    exact Nat.add_le_add (hx.defined l) (hy.defined l)
  resolved := by
    intro line hline l hl
    rcases List.mem_append.1 hline with hx' | hy'
    · exact (hx.resolved line hx' l hl).imp id (List.mem_append_left _)
    · exact (hy.resolved line hy' l hl).imp id (List.mem_append_right _)

theorem perm (h : Closed ns lo hi xs) (hp : xs.Perm ys) : Closed ns lo hi ys where
  regular := fun line hline => h.regular line (hp.mem_iff.2 hline)
  defined := by
    intro l
    have hcount : (definedLabels xs).count l = (definedLabels ys).count l :=
      (hp.filterMap Line.label?).count_eq l
    rw [← hcount]
    exact h.defined l
  resolved := fun line hline l hl =>
    (h.resolved line (hp.mem_iff.2 hline) l hl).imp id hp.mem_iff.1

theorem regrade (h : Closed ms lo hi xs) (hc : ∀ f, functionCount ms f = functionCount ns f) :
    Closed ns lo hi xs where
  regular := h.regular
  defined := fun l => share_congr hc lo hi l ▸ h.defined l
  resolved := h.resolved

end Closed

/-! ## States -/

namespace State

/-- The declarations and the code written so far. -/
def lines (s : State) : List Line := s.segments.decl ++ s.segments.code

/-- The start-up lines neither define labels nor jump. -/
def InertStart (s : State) : Prop := ∀ line ∈ s.segments.init, line.IsInert

theorem lines_emitTo (s : State) {segment : Segment} (h : segment ≠ .init) (line : Line) :
    (s.emitTo segment line).lines.Perm (s.lines ++ [line]) := by
  cases segment with
  | init => exact absurd rfl h
  | decl =>
    show ((s.segments.decl ++ [line]) ++ s.segments.code).Perm
      ((s.segments.decl ++ s.segments.code) ++ [line])
    rw [List.append_assoc, List.append_assoc]
    exact List.perm_append_comm.append_left _
  | code =>
    show (s.segments.decl ++ (s.segments.code ++ [line])).Perm
      ((s.segments.decl ++ s.segments.code) ++ [line])
    rw [List.append_assoc]

end State

/-- Generation from the first state to the second has written closed lines. -/
structure Closes (ns : List Node) (s t : State) : Prop where
  start : t.InertStart
  counters : s.shared.counters.Le t.shared.counters
  written : ∃ lines, t.lines.Perm (s.lines ++ lines) ∧
    Closed ns s.shared.counters t.shared.counters lines

namespace Closes

variable {ms ns : List Node} {s t u : State}

theorem refl (h : s.InertStart) : Closes [] s s where
  start := h
  counters := ⟨Nat.le_refl _, Nat.le_refl _⟩
  written := ⟨[], by rw [List.append_nil], .nil _ _ _⟩

/-- A construct whose own lines stand around those of its parts. -/
theorem bracket (htu : Closes ns t u) {before after : List Line}
    (hst : s.shared.counters.Le t.shared.counters)
    (hown : Closed ms s.shared.counters t.shared.counters (before ++ after))
    (hbefore : t.lines.Perm (s.lines ++ before)) {v : State} (hv : v.InertStart)
    (hafter : v.lines.Perm (u.lines ++ after))
    (hcounters : v.shared.counters = u.shared.counters) : Closes (ms ++ ns) s v where
  start := hv
  counters := by
    rw [hcounters]
    exact ⟨Nat.le_trans hst.temps htu.counters.temps, Nat.le_trans hst.labels htu.counters.labels⟩
  written := by
    obtain ⟨inside, hinside, hclosed⟩ := htu.written
    rw [hcounters]
    -- The own lines come first in the count, as if the construct had written them in one go.
    refine ⟨(before ++ after) ++ inside, ?_, hown.append hclosed hst htu.counters⟩
    calc v.lines
      _ |>.Perm (u.lines ++ after) := hafter
      _ |>.Perm (t.lines ++ inside ++ after) := hinside.append_right after
      _ |>.Perm (s.lines ++ before ++ inside ++ after) :=
        (hbefore.append_right inside).append_right after
      _ = s.lines ++ before ++ (inside ++ after) := List.append_assoc ..
      _ |>.Perm (s.lines ++ before ++ (after ++ inside)) := List.perm_append_comm.append_left _
      _ = s.lines ++ (before ++ after ++ inside) := by simp only [List.append_assoc]

theorem trans (hst : Closes ms s t) (htu : Closes ns t u) : Closes (ms ++ ns) s u := by
  obtain ⟨own, hown, hclosed⟩ := hst.written
  rw [← List.append_nil own] at hclosed
  exact htu.bracket hst.counters hclosed hown htu.start (by rw [List.append_nil]) rfl

theorem regrade (h : Closes ms s t) (hc : ∀ f, functionCount ms f = functionCount ns f) :
    Closes ns s t where
  start := h.start
  counters := h.counters
  written := by
    obtain ⟨lines, hlines, hclosed⟩ := h.written
    exact ⟨lines, hlines, hclosed.regrade hc⟩

/-- Numbers may be taken and not used. -/
theorem of_lines_eq (h : t.InertStart) (hcounters : s.shared.counters.Le t.shared.counters)
    (hlines : t.lines = s.lines) : Closes [] s t where
  start := h
  counters := hcounters
  written := ⟨[], by rw [hlines, List.append_nil], .nil _ _ _⟩

theorem emit (h : s.InertStart) (segment : Segment) {line : Line} (hline : line.IsInert) :
    Closes [] s (s.emitTo segment line) := by
  have hcounters : s.shared.counters.Le s.shared.counters := ⟨Nat.le_refl _, Nat.le_refl _⟩
  by_cases hsegment : segment = .init
  · subst hsegment
    refine of_lines_eq ?_ hcounters rfl
    intro other hother
    rcases List.mem_append.1 hother with hold | hnew
    · exact h other hold
    · obtain rfl := List.mem_singleton.1 hnew
      exact hline
  · refine ⟨?_, hcounters, [line], s.lines_emitTo hsegment line, .of_inert hline _ _ _⟩
    cases segment with
    | init => exact absurd rfl hsegment
    | decl => exact h
    | code => exact h

/-- A unit takes over the lines of another one that went on from the numbers of the unit. -/
theorem adopt (h : s.InertStart) (ht : Closes ns { shared := s.shared } t) :
    Closes ns s (s.adopt t) where
  start := h
  counters := ht.counters
  written := by
    obtain ⟨lines, hlines, hclosed⟩ := ht.written
    refine ⟨lines, ?_, hclosed⟩
    have hinside : t.lines.Perm lines := hlines
    calc (s.adopt t).lines
      _ = s.segments.decl ++ (t.segments.decl ++ (s.segments.code ++ t.segments.code)) :=
        List.append_assoc ..
      _ |>.Perm (s.segments.decl ++ (s.segments.code ++ (t.segments.decl ++ t.segments.code))) :=
        List.perm_append_comm_assoc .. |>.append_left _
      _ = s.lines ++ t.lines := (List.append_assoc ..).symm
      _ |>.Perm (s.lines ++ lines) := hinside.append_left _

end Closes

/-! ## Generation -/

namespace Labels

/-- Every stretch of generation that succeeds writes closed lines. -/
def contract : Contract where
  inv := State.InertStart
  fresh := fun _ => True
  done := Closes
  failed := fun _ _ => True

variable {α : Type} {ms ns : List Node} {m : Gen α} {s t : State}

theorem obeys_of_ok (h : ∀ s a t, s.InertStart → m s = .ok a t → Closes ns s t) :
    Obeys contract ns m :=
  .intro (fun s a t hs hm => ⟨h s a t hs hm, trivial⟩) fun _ _ _ _ _ => trivial

theorem closes_of_obeys (h : Obeys contract ns m) (hs : s.InertStart) {a : α}
    (hm : m s = .ok a t) : Closes ns s t :=
  (h.of_ok hs hm).1

theorem sequential : contract.Sequential where
  inv_of_done := fun _ h => h.start
  refl := Closes.refl
  trans := fun _ => Closes.trans
  perm := fun h hdone => hdone.regrade fun f => (h.filterMap _).count_eq f
  cons := by
    intro n ns s t hn hdone
    refine hdone.regrade fun f => ?_
    rw [functionCount_cons (Node.functionName?_of_not_special hn)]
  failed_refl := fun _ => trivial
  failed_trans := fun _ _ _ => trivial
  fresh := fun _ => trivial
  temp := fun h => .of_lines_eq h ⟨Nat.le_succ _, Nat.le_refl _⟩ rfl
  stack := fun _ h => .of_lines_eq h ⟨Nat.le_refl _, Nat.le_refl _⟩ rfl
  emit := fun segment _ h hline => .emit h segment hline.isInert
  label := fun h => .of_lines_eq h ⟨Nat.le_refl _, Nat.le_succ _⟩ rfl
  user := fun _ h _ => .of_lines_eq h ⟨Nat.le_refl _, Nat.le_refl _⟩ rfl
  param := fun _ _ _ h _ => .of_lines_eq h ⟨Nat.le_refl _, Nat.le_refl _⟩ rfl
  enter := id
  leave := fun _ h => ⟨h.start, h.counters, h.written⟩
  failed_leave := fun _ _ => trivial

theorem ignores_store : contract.Ignores Line.isStore :=
  fun _ segment _ hs hline => .emit hs segment (Line.isInert_of_isStore hline)

theorem lines_emitAll (s : State) (lines : List Line) :
    (s.emitAll lines).lines.Perm (s.lines ++ lines) := by
  show (s.segments.decl ++ (s.segments.code ++ lines)).Perm
    ((s.segments.decl ++ s.segments.code) ++ lines)
  rw [List.append_assoc]

theorem loop {cond : Part} {body : List Part} (hc : Obeys contract ms cond.gen)
    (hb : Obeys contract ns (Gen.block body)) :
    Obeys contract (ms ++ ns) (Gen.lowerLoop cond body) := by
  refine obeys_of_ok fun s a v hs hrun => ?_
  unfold Gen.lowerLoop at hrun
  rw [Gen.bind_of_ok (Gen.freshLabel_apply s), Gen.bind_of_ok (Gen.emit_apply _ _)] at hrun
  obtain ⟨c, t, hcond, hrun⟩ := Gen.bind_eq_ok_iff.1 hrun
  rw [Gen.bind_of_ok (Gen.emit_apply _ _)] at hrun
  obtain ⟨_, u, hbody, hrun⟩ := Gen.bind_eq_ok_iff.1 hrun
  rw [Gen.bind_of_ok (Gen.emit_apply _ _), Gen.emit_apply] at hrun
  cases hrun
  have hparts : Closes (ms ++ ns) (s.freshLabel.2.emitAll [.label s.freshLabel.1]) u := by
    have hcond' := closes_of_obeys (s := s.freshLabel.2.emitAll [.label s.freshLabel.1])
      (sequential.evalDeref hc) hs hcond
    have hopen : Closes [] t (t.emitAll [.openIf c.splice]) :=
      .emit hcond'.start .code ⟨trivial, rfl, rfl⟩
    exact hcond'.trans (hopen.trans (closes_of_obeys hb hopen.start hbody))
  -- The label in front of the parts is where the jump behind them goes.
  have hown : Closed [] s.shared.counters s.freshLabel.2.shared.counters
      ([.label s.freshLabel.1] ++ [.goto s.freshLabel.1, .close]) := by
    refine .of_nodup (List.pairwise_singleton _ _) ?_ ?_ ?_
    · intro l hl
      obtain rfl := List.mem_singleton.1 hl
      exact taken_succ s.labels
    · simp [Line.IsRegular, State.freshLabel, Label.IsProper]
    · simp [Line.jump?]
  rw [State.emitAll_emitAll]
  have hcounters : s.shared.counters.Le s.freshLabel.2.shared.counters :=
    ⟨Nat.le_refl _, Nat.le_succ _⟩
  exact hparts.bracket hcounters hown (lines_emitAll s.freshLabel.2 _) hparts.start
    (lines_emitAll u _) rfl

/-- A function has a share in two labels: those of its name, or those of a number that it takes. -/
theorem functionName_ok {loc : Nat} {name : Option String} {f : Name}
    (h : Gen.functionName loc name s = .ok f t) (params : List String) (body : List Node) :
    f.IsProper ∧ t.segments = s.segments ∧ s.shared.counters.Le t.shared.counters ∧
      ∀ l ∈ [Label.entry f, .behind f],
        share [.function loc name params body] s.shared.counters t.shared.counters l = 1 := by
  cases name with
  | none =>
    cases h
    refine ⟨trivial, rfl, ⟨Nat.le_succ _, Nat.le_refl _⟩, ?_⟩
    have htaken := taken_succ s.temps
    intro l hl
    rcases List.mem_cons.1 hl with rfl | hl
    · exact htaken
    · obtain rfl := List.mem_singleton.1 hl
      exact htaken
  | some name =>
    obtain ⟨_, s', hcheck, hdeclare⟩ := Gen.bind_eq_ok_iff.1 h
    obtain ⟨hname, rfl⟩ := Gen.checkUserName_eq_ok hcheck
    rw [Gen.bind_of_ok (Gen.declare_apply _ _ _)] at hdeclare
    cases hdeclare
    refine ⟨hname, rfl, ⟨Nat.le_refl _, Nat.le_refl _⟩, ?_⟩
    have hcount : functionCount [.function loc (some name) params body] name = 1 := by
      simp [functionCount, Node.functionName?]
    intro l hl
    rcases List.mem_cons.1 hl with rfl | hl
    · exact hcount
    · obtain rfl := List.mem_singleton.1 hl
      exact hcount

/-- The lines of a function in front of those of its body. -/
def functionHead (f : Name) : List Line :=
  [.handle f, .goto (.behind f), .label (.entry f), .enterFunction]

/-- The lines of a function around those of its body. -/
theorem closed_function {lo hi : Counters} {f : Name} (hf : f.IsProper)
    (hshare : ∀ l ∈ [Label.entry f, .behind f], share ns lo hi l = 1) :
    Closed ns lo hi (functionHead f ++ [.label (.behind f)]) := by
  have hlabels : definedLabels (functionHead f ++ [.label (.behind f)]) =
      [Label.entry f, .behind f] := rfl
  refine .of_nodup ?_ ?_ ?_ ?_
  · rw [hlabels]
    simp
  · rw [hlabels]
    exact hshare
  · simp [functionHead, Line.IsRegular, Label.IsProper, hf]
  · simp [functionHead, Line.jump?]

theorem function (loc : Nat) (name : Option String) (params : List String) (body : List Node)
    {ps : List Part} (hb : Obeys contract ns (Gen.block ps)) :
    Obeys contract (.function loc name params body :: ns) (Gen.lowerFunction loc name params ps) := by
  refine obeys_of_ok fun s a v hs hrun => ?_
  unfold Gen.lowerFunction at hrun
  obtain ⟨f, t, hname, hrun⟩ := Gen.bind_eq_ok_iff.1 hrun
  obtain ⟨hf, hsegments, hcounters, hshare⟩ := functionName_ok hname params body
  rw [Gen.bind_of_ok (Gen.emitTo_apply _ _ _), Gen.bind_of_ok (Gen.emitAll_apply _ _)] at hrun
  obtain ⟨_, u, hbody, hrun⟩ := Gen.bind_eq_ok_iff.1 hrun
  have hscope := sequential.inScope (sequential.andThen
    (sequential.declareParams (Nat.le_refl 2) params) fun _ _ => hb)
  let before : State := (t.emitTo .decl (.handle f)).emitAll
    [.goto (.behind f), .label (.entry f), .enterFunction]
  have hstart : before.InertStart := by
    show ∀ line ∈ t.segments.init, line.IsInert
    rw [hsegments]
    exact hs
  have hlines : before.lines.Perm (s.lines ++ functionHead f) := by
    have hhandle := t.lines_emitTo (by decide : Segment.decl ≠ .init) (.handle f)
    have hsame : t.lines = s.lines := by rw [State.lines, hsegments, State.lines]
    rw [hsame] at hhandle
    have hboth := (lines_emitAll _ _).trans (hhandle.append_right
      [.goto (.behind f), .label (.entry f), .enterFunction])
    rwa [List.append_assoc] at hboth
  have hinside : Closes ns before u := closes_of_obeys hscope hstart hbody
  -- A return at the end adds lines that neither define labels nor jump.
  obtain ⟨w, hw, hv⟩ : ∃ w, Closes ns before w ∧
      v = { w.emitAll [.label (.behind f)] with stack := .text [.name f] :: w.stack } := by
    split at hrun
    · cases hrun
      exact ⟨u, hinside, rfl⟩
    · rw [Gen.bind_of_ok (Gen.emitAll_apply _ _)] at hrun
      cases hrun
      have hend : Closes [] u (u.emitAll [.returnZero, .leaveFunction]) :=
        closes_of_obeys (sequential.emitLines (by simp [Line.IsOrdinary])) hinside.start
          (Gen.emitAll_apply _ _)
      have hwhole := hinside.trans hend
      rw [List.append_nil] at hwhole
      exact ⟨_, hwhole, rfl⟩
  subst hv
  exact hw.bracket hcounters (closed_function hf hshare) hlines hw.start (lines_emitAll w _) rfl

theorem process (hs : s.InertStart) : Closes [] s s.withProcess where
  start := hs
  counters := ⟨Nat.le_succ _, Nat.le_refl _⟩
  written := by
    have hlabels : definedLabels (processLines s.freshTemp.1) =
      [.exit s.freshTemp.1, .behindExit s.freshTemp.1] := rfl
    have htaken := taken_succ s.temps
    refine ⟨processLines s.freshTemp.1, ?_, .of_nodup ?_ ?_ ?_ ?_⟩
    · show ((s.segments.decl ++ processLines _) ++ s.segments.code).Perm
        ((s.segments.decl ++ s.segments.code) ++ processLines _)
      rw [List.append_assoc, List.append_assoc]
      exact List.perm_append_comm.append_left _
    · rw [hlabels]
      simp
    · rw [hlabels]
      intro l hl
      rcases List.mem_cons.1 hl with rfl | hl
      · exact htaken
      · obtain rfl := List.mem_singleton.1 hl
        exact htaken
    · simp [processLines, Line.IsRegular, Label.IsProper, State.freshTemp]
    · simp [processLines, Line.jump?]

theorem lawful {setup : Setup} (h : setup.registry = .standard) : contract.Lawful setup where
  toSequential := sequential
  standard := h
  bound := fun hs _ => .of_lines_eq hs ⟨Nat.le_refl _, Nat.le_refl _⟩ rfl
  process := fun hs _ => process hs
  loop := loop
  function := fun loc name params body _ _ => function loc name params body
  assign := by
    intro depth base loc target value ht hv
    refine Contract.Sequential.regrade (sequential.assign ignores_store ht hv) fun s t hdone => ?_
    exact Closes.regrade hdone fun f => (functionCount_cons rfl _ f).symm
  step := by
    intro depth base loc op leading target ht
    refine Contract.Sequential.regrade (sequential.step ignores_store op ht) fun s t hdone => ?_
    exact Closes.regrade hdone fun f => (functionCount_cons rfl _ f).symm
  inv_start := fun _ _ h => absurd h List.not_mem_nil
  adopt := Closes.adopt
  adopt_failed := fun _ _ => trivial

end Labels

/-! ## Lines as the shell sees them -/

/-- The first character of the line. -/
def Line.initial? : Line → Option Char
  | echoOff => some '@'
  | blank => none
  | fetch _ _ => some 'c'
  | compare _ _ _ _ => some 'i'
  | openIf _ => some 'i'
  | openElse => some ')'
  | close => some ')'
  | label _ => some ':'
  | goto _ => some 'g'
  | gotoBare _ => some 'g'
  | call _ _ _ => some 'c'
  | openReturn => some 'e'
  | returnZero => some 'e'
  | leaveFunction => some 'e'
  | verbatim text => text.toList.head?
  | _ => some 's'

theorem Line.head?_render (line : Line) : line.render.toList.head? = line.initial? := by
  unfold render initial?
  cases line <;> simp [flagCommand]

/-- The text of a line that defines a label. -/
def isLabelText (text : String) : Bool := text.toList.head? = some ':'

/-- A line that the compiler can have written looks like a label only if it defines one. -/
theorem Line.isLabelText_render {line : Line} (h : line.IsRegular) :
    isLabelText line.render = line.label?.isSome := by
  unfold isLabelText
  rw [line.head?_render]
  cases line with
  | verbatim text => exact absurd h id
  | _ => rfl

theorem filter_isLabelText {lines : List Line} (h : ∀ line ∈ lines, line.IsRegular) :
    (lines.map Line.render).filter isLabelText = (definedLabels lines).map (":" ++ ·.render) := by
  induction lines with
  | nil => rfl
  | cons line lines ih =>
    have hline := Line.isLabelText_render (h line List.mem_cons_self)
    have hrest := ih fun other hother => h other (List.mem_cons_of_mem _ hother)
    cases hl : line.label? with
    | none =>
      rw [hl] at hline
      simp only [definedLabels] at hrest ⊢
      rw [List.map_cons, List.filter_cons_of_neg (by simp [hline]), List.filterMap_cons_none hl, hrest]
    | some l =>
      rw [hl] at hline
      simp only [definedLabels] at hrest ⊢
      rw [List.map_cons, List.filter_cons_of_pos hline, List.filterMap_cons_some hl, hrest]
      cases line <;> cases hl
      rfl

/-- A text jumps to a target, which is not the end of the script. -/
def JumpsTo (text target : String) : Prop :=
  text = "goto :" ++ target ∧ target ≠ "eof" ∨
    text = "goto " ++ target ∧ target.toList.head? ≠ some ':'

/-- A line that the compiler can have written looks like a jump only if it is one. -/
theorem Line.jump?_of_jumpsTo {line : Line} (h : line.IsRegular) {target : String}
    (hjump : JumpsTo line.render target) :
    ∃ l, line.jump? = some l ∧ l ≠ .eof ∧ l.render = target := by
  have hfirst : line.initial? = some 'g' := by
    rw [← line.head?_render]
    rcases hjump with ⟨hrender, -⟩ | ⟨hrender, -⟩
    · rw [hrender]
      simp
    · rw [hrender]
      simp
  cases line with
  | goto l =>
    rcases hjump with ⟨hrender, hend⟩ | ⟨hrender, hcolon⟩
    · obtain rfl := (String.append_right_inj _).1 hrender
      refine ⟨l, rfl, ?_, rfl⟩
      rintro rfl
      exact hend rfl
    · have hsame : "goto :" ++ l.render = "goto " ++ target := hrender
      have hchars : ':' :: l.render.toList = target.toList := by
        simpa using congrArg String.toList hsame
      rw [← hchars] at hcolon
      exact absurd rfl hcolon
  | gotoBare l =>
    obtain ⟨n, rfl⟩ := h
    rcases hjump with ⟨hrender, -⟩ | ⟨hrender, -⟩
    · have hsame : "goto " ++ (Label.behindExit (.temp n)).render = "goto :" ++ target := hrender
      have hchars := congrArg String.toList hsame
      simp [Label.render, Name.render] at hchars
    · obtain rfl := (String.append_right_inj _).1 hrender
      refine ⟨_, rfl, ?_, rfl⟩
      intro heof
      cases heof
  | verbatim text => exact absurd h id
  | _ => cases hfirst

/-! ## Whole compilations -/

/-- The lines of the script, as the shell sees them. -/
def Segments.texts (segments : Segments) : List String :=
  (segments.init ++ segments.decl ++ segments.code).map Line.render

/-- No two lines of the declarations and the code define the same label, and every jump that does not
end the script has exactly one line to go to. -/
def Segments.HasUniqueTargets (segments : Segments) : Prop :=
  (((segments.decl ++ segments.code).map Line.render).filter isLabelText).Nodup ∧
  ∀ text ∈ segments.texts, ∀ target, JumpsTo text target →
    segments.texts.count (":" ++ target) = 1

/-- With functions of different names, every label is defined once. -/
theorem share_le_one {ns : List Node} (h : (ns.filterMap Node.functionName?).Nodup)
    (lo hi : Counters) (l : Label) : share ns lo hi l ≤ 1 := by
  have hname : ∀ f, functionCount ns f ≤ 1 := List.nodup_iff_count.1 h
  have htaken : ∀ lo hi n, taken lo hi n ≤ 1 := by
    intro lo hi n
    unfold taken
    split <;> omega
  unfold share
  split <;> first | exact hname _ | exact htaken _ _ _ | exact Nat.zero_le _

theorem nodup_labelTexts {ns : List Node} {lo hi : Counters} {lines : List Line}
    (hclosed : Closed ns lo hi lines) (h : (ns.filterMap Node.functionName?).Nodup) :
    ((lines.map Line.render).filter isLabelText).Nodup := by
  have hlabels : (definedLabels lines).Nodup := by
    rw [List.nodup_iff_count]
    intro l
    exact Nat.le_trans (hclosed.defined l) (share_le_one h lo hi l)
  rw [filter_isLabelText hclosed.regular]
  -- Different labels are spelled differently.
  refine List.pairwise_map.2 (hlabels.imp_of_mem ?_)
  intro k l hk hl hne heq
  have hproper : ∀ {l}, l ∈ definedLabels lines → l.IsProper :=
    fun hl => hclosed.regular _ (mem_definedLabels.1 hl)
  exact hne (Label.render_inj (hproper hk) (hproper hl) ((String.append_right_inj _).1 heq))

/-- Lines that are closed have one place for each jump to go. -/
theorem count_target {ns : List Node} {lo hi : Counters} {init lines : List Line}
    (hclosed : Closed ns lo hi lines) (hinit : ∀ line ∈ init, line.IsInert)
    (h : (ns.filterMap Node.functionName?).Nodup) {text target : String}
    (htext : text ∈ (init ++ lines).map Line.render) (hjump : JumpsTo text target) :
    ((init ++ lines).map Line.render).count (":" ++ target) = 1 := by
  have hcolon : isLabelText (":" ++ target) = true := by simp [isLabelText]
  obtain ⟨line, hline, rfl⟩ := List.mem_map.1 htext
  have hregular : ∀ line ∈ init ++ lines, line.IsRegular := by
    intro line hline
    rcases List.mem_append.1 hline with hline | hline
    · exact (hinit line hline).1
    · exact hclosed.regular line hline
  obtain ⟨l, hl, hend, rfl⟩ := Line.jump?_of_jumpsTo (hregular line hline) hjump
  -- The start-up lines neither jump nor define the label.
  have hwhere : line ∈ lines := by
    rcases List.mem_append.1 hline with hline | hline
    · rw [(hinit line hline).2.2] at hl
      cases hl
    · exact hline
  have hnone : (init.map Line.render).count (":" ++ l.render) = 0 := by
    rw [List.count_eq_zero, List.mem_map]
    rintro ⟨other, hother, hrender⟩
    have hlabel := Line.isLabelText_render (hinit other hother).1
    rw [hrender, hcolon, (hinit other hother).2.1] at hlabel
    cases hlabel
  have hone : (lines.map Line.render).count (":" ++ l.render) = 1 := by
    rw [← List.count_filter (p := isLabelText) hcolon, (nodup_labelTexts hclosed h).count, if_pos]
    rcases hclosed.resolved line hwhere l hl with heof | hlabel
    · exact absurd heof hend
    · exact List.mem_filter.2 ⟨List.mem_map.2 ⟨_, hlabel, rfl⟩, hcolon⟩
  rw [List.map_append, List.count_append, hnone, hone]

/-- Whatever state a compilation comes to, its lines are closed. -/
theorem closed_of_generate {files : String → Except IoError String} {options : Options}
    {source : String} {program : Node} {t : State}
    (hread : readUnit options.folding source = .ok program)
    (h : generate (options.env .standard files) source program {} = .ok () t) :
    t.InertStart ∧ ∃ lo hi, Closed (options.nodes files source) lo hi t.lines := by
  let setup : Setup :=
    { registry := .standard, files, folding := options.folding, limit := options.limit }
  have hnode : Obeys Labels.contract (setup.nodes options.limit options.base program)
      (Gen.node (options.env .standard files) program) :=
    (@Labels.lawful setup rfl).node options.limit options.base program
  have hstart : State.InertStart {} := fun line hline => absurd hline List.not_mem_nil
  have hcloses := Labels.closes_of_obeys (Labels.sequential.statement hnode) hstart
    (generate_eq_ok h)
  obtain ⟨lines, hlines, hclosed⟩ := hcloses.written
  have hnodes : options.nodes files source = setup.nodes options.limit options.base program := by
    unfold Options.nodes
    rw [hread]
  rw [hnodes]
  exact ⟨hcloses.start, _, _, hclosed.perm hlines.symm⟩

/-- Jump targets are unique and resolved over a whole compilation, if the functions of all its units
have different names. -/
theorem jumps_have_one_target (files : String → Except IoError String) (options : Options)
    (source script : String) (hcompile : compileSource files options source = .ok script)
    (hnames : ((options.nodes files source).filterMap Node.functionName?).Nodup) :
    ∃ program t, readUnit options.folding source = .ok program ∧
      generate (options.env .standard files) source program {} = .ok () t ∧ script = t.script ∧
      t.segments.HasUniqueTargets := by
  obtain ⟨program, t, hread, hgenerate, hscript⟩ := compileSource_eq_ok hcompile
  obtain ⟨hstart, lo, hi, hclosed⟩ := closed_of_generate hread hgenerate
  refine ⟨program, t, hread, hgenerate, hscript, nodup_labelTexts hclosed hnames, ?_⟩
  intro text htext target hjump
  unfold Segments.texts at htext ⊢
  rw [List.append_assoc] at htext ⊢
  exact count_target hclosed hstart hnames htext hjump

/-- A file that a source may include. -/
def sampleFiles : String → Except IoError String
  | "./lib.bc" => .ok "func g(a) \x7b while (a) \x7b g(a); \x7d return 0; \x7d"
  | _ => .error .notFound

/-- A source with labels of every kind, in two units. -/
def sampleSource : String :=
  "include(\"lib.bc\"); func f(x) \x7b return x; \x7d h = func(y) \x7b return y; \x7d; i = 3; " ++
    "while (i) \x7b i--; \x7d p = process; f(g(h(i)));"

theorem sample_jumps_have_one_target :
    ∃ script program t, compileSource sampleFiles {} sampleSource = .ok script ∧
      generate (Options.env {} .standard sampleFiles) sampleSource program {} = .ok () t ∧
      script = t.script ∧ t.segments.HasUniqueTargets := by
  have hsome : (compileSource sampleFiles {} sampleSource).toOption.isSome = true := by
    decide +kernel
  have hnames : ((Options.nodes {} sampleFiles sampleSource).filterMap Node.functionName?).Nodup := by
    decide +kernel
  cases hcompile : compileSource sampleFiles {} sampleSource with
  | error e =>
    rw [hcompile] at hsome
    cases hsome
  | ok script =>
    obtain ⟨program, t, -, hgenerate, hscript, htargets⟩ :=
      jumps_have_one_target sampleFiles {} sampleSource script hcompile hnames
    exact ⟨script, program, t, rfl, hgenerate, hscript, htargets⟩

end BatchCompiler
