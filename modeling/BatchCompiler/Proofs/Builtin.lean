/-
# BatchCompiler.Proofs.Builtin -- a builtin is set up once

The first use of a builtin writes the lines that set it up. Later uses find its variable in a scope,
or among what the units share if that scope has been closed since. To say which uses there were, a
program is generated with notes: each name that is looked up leaves a line among the declarations,
which says what the name was found to stand for. Without these lines it is generated as ever.

Both runs are compared step by step. What stands among the declarations is put together from one
stretch of generation after the other (`Account`), whether they belong to one unit or to several.
-/

import BatchCompiler.Proofs.Compilation
import BatchCompiler.Proofs.Coupling
import BatchCompiler.Proofs.Label
import BatchCompiler.Proofs.Nesting

namespace BatchCompiler

/-! ## Notes -/

/-- The line that notes what a name was found to stand for. It reads like an assignment of the
variable to the name. -/
def noteLine (x : String) (v : Variable) : Line := Gen.assignLine (.location [.chars x]) (.var v)

theorem noteLine_inj {x y : String} {v w : Variable} (h : noteLine x v = noteLine y w) :
    x = y ∧ v = w := by
  obtain ⟨storage, ty⟩ := v
  obtain ⟨storage', ty'⟩ := w
  cases ty <;> cases ty' <;> cases storage <;> cases storage' <;> cases h <;> exact ⟨rfl, rfl⟩

/-- The lines without the notes among them. The compiler itself declares nothing by an assignment. -/
def unnoted (lines : List Line) : List Line := lines.filter fun line => !line.isStore .decl

@[simp] theorem unnoted_append (xs ys : List Line) : unnoted (xs ++ ys) = unnoted xs ++ unnoted ys :=
  List.filter_append ..

theorem isStore_noteLine (x : String) (v : Variable) : (noteLine x v).isStore .decl = true := by
  unfold noteLine Gen.assignLine
  split <;> rfl

@[simp] theorem unnoted_noteLine (x : String) (v : Variable) : unnoted [noteLine x v] = [] :=
  List.filter_cons_of_neg (by simp [isStore_noteLine])

theorem isStore_processLines (p : Name) : ∀ line ∈ processLines p, line.isStore .decl = false := by
  simp [processLines, Line.isStore]

/-- The state without the notes that have been written. -/
def State.withoutNotes (u : State) : State :=
  { u with segments := { u.segments with decl := unnoted u.segments.decl } }

namespace Gen

/-- Notes what a name was found to stand for. -/
def note (x : String) (v : Variable) : Gen Unit := emitTo .decl (noteLine x v)

/-- What a name stands for, which is noted. -/
def resolveNoted (loc : Nat) (x : String) : Gen Variable := do
  let v ← resolve .standard loc x
  note x v
  return v

/-- What an assignment to a name assigns to. What the name is bound to is noted. -/
def targetNoted (loc : Nat) (x : String) (ty : ValueType) : Gen Target := do
  let place ← nameTarget loc x ty
  if let some v ← lookup x then note x v
  return place

/-- Generates a node with notes. -/
def noted (env : Env) : Node → Gen Unit :=
  walk { names := resolveNoted, targets := targetNoted, includes := lowerInclude env }

end Gen

/-- The surroundings of a unit in which the units that it includes are generated with notes. -/
def Setup.notedEnv (setup : Setup) : Nat → String → Env
  | 0, base => setup.env 0 base
  | depth + 1, base =>
    { setup.env (depth + 1) base with
      includeUnit? := some fun path =>
        setup.unit (Gen.noted (setup.notedEnv depth (Path.directory base path))) path }

/-! ## What is declared -/

/-- The variable that the process object is, once it has been set up. -/
def Shared.process? (shared : Shared) : Option Variable := shared.emitted.get? "process"

/-- The line declares the handle of a function. If that has no name of its own, it is named by a
temporary behind the first `lo`, and among the first `hi`. -/
inductive Line.IsHandle (lo hi : Nat) : Line → Prop where
  | user {x : String} : isReservedName x = false → IsHandle lo hi (.handle (.user x))
  | temp {n : Nat} : lo < n → n ≤ hi → IsHandle lo hi (.handle (.temp n))

theorem Line.IsHandle.mono {lo lo' hi hi' : Nat} {line : Line} (h : line.IsHandle lo hi)
    (hlo : lo' ≤ lo) (hhi : hi ≤ hi') : line.IsHandle lo' hi' := by
  cases h with
  | user hx => exact .user hx
  | temp hlt hle => exact .temp (Nat.lt_of_le_of_lt hlo hlt) (Nat.le_trans hle hhi)

theorem Line.IsHandle.isStore {lo hi : Nat} {line : Line} (h : line.IsHandle lo hi) :
    line.isStore .decl = false := by
  cases h <;> rfl

/-- The lines hold those of one process object in one stretch, and declare functions around it. -/
def HoldProcess (lo hi n : Nat) (lines : List Line) : Prop :=
  lo < n ∧ n ≤ hi ∧ ∃ before after, lines = before ++ processLines (.temp n) ++ after ∧
    ∀ line ∈ before ++ after, line.IsHandle lo hi ∧ line ≠ .handle (.temp n)

namespace HoldProcess

variable {lo mid hi n : Nat} {xs ys : List Line}

theorem after_handles (h : HoldProcess mid hi n ys) (hle : lo ≤ mid)
    (hxs : ∀ line ∈ xs, line.IsHandle lo mid) : HoldProcess lo hi n (xs ++ ys) := by
  obtain ⟨hlt, hn, before, after, rfl, haround⟩ := h
  refine ⟨Nat.lt_of_le_of_lt hle hlt, hn, xs ++ before, after, by simp, fun line hline => ?_⟩
  rw [List.append_assoc] at hline
  rcases List.mem_append.1 hline with hx | hy
  · refine ⟨(hxs line hx).mono (Nat.le_refl _) (by omega), ?_⟩
    rintro rfl
    obtain _ | ⟨-, hle'⟩ := hxs _ hx
    omega
  · exact ⟨(haround line hy).1.mono hle (Nat.le_refl _), (haround line hy).2⟩

theorem before_handles (h : HoldProcess lo mid n xs) (hle : mid ≤ hi)
    (hys : ∀ line ∈ ys, line.IsHandle mid hi) : HoldProcess lo hi n (xs ++ ys) := by
  obtain ⟨hlt, hn, before, after, rfl, haround⟩ := h
  refine ⟨hlt, Nat.le_trans hn hle, before, after ++ ys, by simp, fun line hline => ?_⟩
  rw [← List.append_assoc] at hline
  rcases List.mem_append.1 hline with hx | hy
  · exact ⟨(haround line hx).1.mono (Nat.le_refl _) hle, (haround line hx).2⟩
  · refine ⟨(hys line hy).mono (by omega) (Nat.le_refl _), ?_⟩
    rintro rfl
    obtain _ | ⟨hlt', -⟩ := hys _ hy
    omega

end HoldProcess

/-- What a stretch of generation with notes has written among the declarations, given what was shared
before and after. -/
structure Account (a b : Shared) (decl : List Line) : Prop where
  shared : a.Extends b
  /-- A name was found to stand for what it may be bound to. -/
  noted {x : String} {v : Variable} : noteLine x v ∈ decl → b.Admits x v
  /-- Only functions are declared while the process object is not set up. -/
  quiet : a.process? = b.process? →
    ∀ line ∈ unnoted decl, line.IsHandle a.counters.temps b.counters.temps
  /-- The process object is set up where a name was found to stand for it. -/
  setup {v : Variable} : a.process? = none → b.process? = some v → noteLine "process" v ∈ decl ∧
    ∃ n, v = .named (.temp n) .text ∧
      HoldProcess a.counters.temps b.counters.temps n (unnoted decl)

namespace Account

variable {a b c : Shared} {xs ys : List Line}

/-- One stretch after the other. -/
theorem trans (h : Account a b xs) (h' : Account b c ys) : Account a c (xs ++ ys) where
  shared := h.shared.trans h'.shared
  noted hmem := by
    rcases List.mem_append.1 hmem with hx | hy
    · exact (h.noted hx).mono h'.shared
    · exact h'.noted hy
  quiet hac := by
    -- What is set up stays so, and hence nothing has been set up in between.
    have hab : a.process? = b.process? := by
      cases ha : a.process? with
      | some v => exact (h.shared.emitted ha).symm
      | none =>
        cases hb : b.process? with
        | none => rfl
        | some v => exact (hac.symm.trans ha).symm.trans (h'.shared.emitted hb)
    rw [unnoted_append]
    intro line hline
    rcases List.mem_append.1 hline with hx | hy
    · exact (h.quiet hab line hx).mono (Nat.le_refl _) h'.shared.temps
    · exact (h'.quiet (hab.symm.trans hac) line hy).mono h.shared.temps (Nat.le_refl _)
  setup {v} hnone hsome := by
    rw [unnoted_append]
    cases hb : b.process? with
    | none =>
      obtain ⟨hnote, n, rfl, hholds⟩ := h'.setup hb hsome
      refine ⟨List.mem_append_right _ hnote, n, rfl, ?_⟩
      exact hholds.after_handles h.shared.temps (h.quiet (hnone.trans hb.symm))
    | some w =>
      obtain rfl : w = v := Option.some.inj ((h'.shared.emitted hb).symm.trans hsome)
      obtain ⟨hnote, n, rfl, hholds⟩ := h.setup hnone hb
      refine ⟨List.mem_append_left _ hnote, n, rfl, ?_⟩
      exact hholds.before_handles h'.shared.temps (h'.quiet (hb.trans hsome.symm))

/-- A stretch in which functions are declared, if anything. -/
theorem of_handles (h : a.Extends b) (hprocess : a.process? = b.process?)
    (hxs : ∀ line ∈ xs, line.IsHandle a.counters.temps b.counters.temps) : Account a b xs where
  shared := h
  noted hmem := by cases (isStore_noteLine _ _).symm.trans (hxs _ hmem).isStore
  quiet _ line hline := hxs line (List.mem_of_mem_filter hline)
  setup hnone hsome := by
    rw [← hprocess, hnone] at hsome
    cases hsome

/-- A stretch in which nothing is declared. -/
theorem silent (h : a.Extends b) (hprocess : a.process? = b.process?) : Account a b [] :=
  of_handles h hprocess nofun

theorem note {x : String} {v : Variable} (h : a.Admits x v) : Account a a [noteLine x v] where
  shared := .refl a
  noted hmem := by
    obtain ⟨rfl, rfl⟩ := noteLine_inj (List.mem_singleton.1 hmem)
    exact h
  quiet _ line hline := by
    rw [unnoted_noteLine] at hline
    cases hline
  setup hnone hsome := by
    rw [hnone] at hsome
    cases hsome

/-- The process object is set up, and this is noted. -/
theorem process {s : State} (hnew : s.shared.process? = none) :
    Account s.shared s.withProcess.shared
      (processLines s.freshTemp.1 ++ [noteLine "process" (.named s.freshTemp.1 .text)]) where
  shared := State.extends_withProcess hnew
  noted hmem := by
    rcases List.mem_append.1 hmem with hx | hy
    · cases (isStore_noteLine _ _).symm.trans (isStore_processLines _ _ hx)
    · obtain ⟨rfl, rfl⟩ := noteLine_inj (List.mem_singleton.1 hy)
      exact .inr (.inr ⟨s.withProcess_emitted, s.temps + 1, Nat.succ_pos _, Nat.le_refl _, rfl⟩)
  quiet hsame := by
    rw [hnew] at hsame
    cases hsame.trans s.withProcess_emitted
  setup _ hsome := by
    obtain rfl := Option.some.inj (s.withProcess_emitted.symm.trans hsome)
    refine ⟨List.mem_append_right _ (List.mem_singleton.2 rfl), s.temps + 1, rfl, Nat.lt_succ_self _,
      Nat.le_refl _, [], [], ?_, nofun⟩
    rw [unnoted_append, unnoted_noteLine]
    rfl

end Account

/-! ## Runs with and without notes -/

/-- The lines that are not notes are kept. -/
theorem State.withoutNotes_emitTo {line : Line} (h : line.isStore .decl = false) (u : State) :
    (u.emitTo .decl line).withoutNotes = u.withoutNotes.emitTo .decl line := by
  unfold withoutNotes emitTo Segments.add
  rw [unnoted_append, show unnoted [line] = [line] from List.filter_cons_of_pos (by simp [h])]

theorem State.withoutNotes_note (x : String) (v : Variable) (u : State) :
    (u.emitTo .decl (noteLine x v)).withoutNotes = u.withoutNotes := by
  unfold withoutNotes emitTo Segments.add
  rw [unnoted_append, unnoted_noteLine, List.append_nil]

theorem State.withoutNotes_withProcess (u : State) :
    u.withProcess.withoutNotes = u.withoutNotes.withProcess := by
  have hlines : unnoted (processLines u.freshTemp.1) = processLines u.freshTemp.1 := rfl
  unfold withoutNotes withProcess
  rw [unnoted_append, hlines]
  rfl

namespace Pairing

/-- The second state is the first one with notes, in a unit that started with what was shared at
first. -/
structure WithNotes (first : Shared) (s u : State) : Prop where
  same : SameButStack s u.withoutNotes
  scopes : s.WellScoped
  account : Account first s.shared u.segments.decl

namespace WithNotes

variable {first : Shared} {s t u u' : State}

theorem advance (h : WithNotes first s u) (hsame : SameButStack t u'.withoutNotes)
    (hscopes : t.WellScoped) {lines : List Line}
    (hdecl : u'.segments.decl = u.segments.decl ++ lines)
    (haccount : Account s.shared t.shared lines) : WithNotes first t u' where
  same := hsame
  scopes := hscopes
  account := by
    rw [hdecl]
    exact h.account.trans haccount

/-- What a unit does to its own state without declaring anything. -/
theorem step (h : WithNotes first s u) (hstep : s.Step t) (hsame : SameButStack t u'.withoutNotes)
    (hprocess : s.shared.process? = t.shared.process?)
    (hdecl : u'.segments.decl = u.segments.decl) : WithNotes first t u' := by
  obtain ⟨hscopes, hext, -⟩ := Compilation.scoped_of_step hstep h.scopes
  refine h.advance hsame hscopes ?_ (.silent hext hprocess)
  rw [hdecl, List.append_nil]

theorem shared_eq (h : WithNotes first s u) : u.shared = s.shared :=
  (h.same.congr State.shared fun _ => rfl).symm

theorem lookup_eq (h : WithNotes first s u) (x : String) :
    u.scopes.lookup x = s.scopes.lookup x :=
  (h.same.congr (·.scopes.lookup x) fun _ => rfl).symm

/-- What a scope binds a name to may be noted. -/
theorem note (h : WithNotes first s u) {x : String} {v : Variable}
    (hfound : s.scopes.lookup x = some v) : WithNotes first s (u.emitTo .decl (noteLine x v)) := by
  refine h.advance ?_ h.scopes rfl (.note (h.scopes.of_lookup hfound))
  rw [State.withoutNotes_note]
  exact h.same

/-- The process object is set up, bound and noted. -/
theorem process (h : WithNotes first s u) (hnew : s.shared.process? = none) :
    WithNotes first (s.withProcess.declare "process" (.named s.freshTemp.1 .text))
      ((u.withProcess.declare "process" (.named s.freshTemp.1 .text)).emitTo .decl
        (noteLine "process" (.named s.freshTemp.1 .text))) := by
  have hname : u.freshTemp.1 = s.freshTemp.1 := congrArg Name.temp (by rw [h.shared_eq])
  have hscopes := Compilation.scoped_of_step
    (.builtin _ "process" _ s.withProcess_emitted) (h.scopes.withProcess hnew)
  refine h.advance ?_ hscopes.1 ?_ (.process hnew)
  · rw [State.withoutNotes_note]
    show SameButStack _ (u.withProcess.withoutNotes.declare "process" _)
    rw [State.withoutNotes_withProcess]
    exact h.same.congr (fun u => (u.withProcess.declare "process" _).cleared) fun _ => rfl
  · show (u.segments.decl ++ processLines u.freshTemp.1) ++ _ = _
    rw [hname, List.append_assoc]

end WithNotes

/-- A run, and the same run with notes. -/
def noting (first : Shared) : Pairing where
  sameLines := True
  place := Eq
  construct := Eq
  name := Eq
  state := WithNotes first
  fault := Eq
  excused _ := False

theorem noting_lawful (first : Shared) : (noting first).Lawful where
  name_eq _ h := h
  user _ := rfl
  construct _ := rfl
  here cause h := congrArg (Fault.here · cause) h
  notAssignable {l l' c c'} hl hc := by
    obtain rfl : l = l' := hl
    obtain rfl : c = c' := hc
    rfl
  noValue {l l' c c'} hl hc := by
    obtain rfl : l = l' := hl
    obtain rfl : c = c' := hc
    rfl
  state_stack stack _ h := h.step (.stack _ stack) h.same rfl rfl
  state_lookup x h := found_of_eq (fun _ => rfl) (h.lookup_eq x).symm
  state_emit {s s' segment line line'} hsegment hline h := by
    obtain rfl : line = line' := hline trivial
    have hsame := h.same.congr (fun s => (s.emitTo segment line).cleared) fun _ => rfl
    cases segment with
    | init => exact h.step (.emit _ _ _) hsame rfl rfl
    | decl => exact absurd rfl hsegment
    | code => exact h.step (.emit _ _ _) hsame rfl rfl
  state_handleUser {s s' x} hx h := by
    refine h.advance ?_ h.scopes rfl (.of_handles (.refl _) rfl ?_)
    · rw [State.withoutNotes_emitTo rfl]
      exact h.same.congr (fun s => (s.emitTo .decl (.handle (.user x))).cleared) fun _ => rfl
    · intro line hline
      rw [List.mem_singleton.1 hline]
      exact .user hx
  state_handleTemp {s s'} h := by
    have hname : s'.freshTemp.1 = s.freshTemp.1 := congrArg Name.temp (by rw [h.shared_eq])
    rw [hname]
    refine h.advance ?_ h.scopes.freshTemp rfl (.of_handles s.extends_freshTemp rfl ?_)
    · rw [State.withoutNotes_emitTo rfl]
      exact h.same.congr (fun u => (u.freshTemp.2.emitTo .decl (.handle s.freshTemp.1)).cleared)
        fun _ => rfl
    · intro line hline
      rw [List.mem_singleton.1 hline]
      exact .temp (Nat.lt_succ_self _) (Nat.le_refl _)
  state_freshTemp {s s'} h := by
    have hname : s.freshTemp.1 = s'.freshTemp.1 := congrArg Name.temp (by rw [h.shared_eq])
    refine ⟨hname, h.advance ?_ h.scopes.freshTemp (List.append_nil _).symm
      (.silent s.extends_freshTemp rfl)⟩
    exact h.same.congr (·.freshTemp.2.cleared) fun _ => rfl
  state_freshLabel {s s'} h := by
    have hlabel : s.freshLabel.1 = s'.freshLabel.1 := congrArg Label.loop (by rw [h.shared_eq])
    refine ⟨fun _ => hlabel, h.step (.label _) ?_ rfl rfl⟩
    exact h.same.congr (·.freshLabel.2.cleared) fun _ => rfl
  state_declareUser {s s' x} ty hx h :=
    h.step (.user _ x ty hx) (h.same.congr (fun s => (s.declare x _).cleared) fun _ => rfl) rfl rfl
  state_declareSlot {s s' index} x hindex h :=
    h.step (.param _ x index .text hindex)
      (h.same.congr (fun s => (s.declare x _).cleared) fun _ => rfl) rfl rfl
  state_enter h :=
    h.step (.enter _)
      (h.same.congr (fun s => State.cleared { s with scopes := s.scopes.enter }) fun _ => rfl) rfl rfl
  state_leave h :=
    h.step (.leave _)
      (h.same.congr (fun s => State.cleared { s with scopes := s.scopes.leave }) fun _ => rfl) rfl rfl

end Pairing

/-! ## Names -/

namespace Gen

theorem resolveNoted_of_ok {l : Nat} {x : String} {v : Variable} {s t : State}
    (h : resolve .standard l x s = .ok v t) :
    resolveNoted l x s = .ok v (t.emitTo .decl (noteLine x v)) := by
  unfold resolveNoted
  rw [bind_of_ok h]
  rfl

theorem resolveNoted_of_error {l : Nat} {x : String} {e : Fault} {s t : State}
    (h : resolve .standard l x s = .error e t) : resolveNoted l x s = .error e t := by
  unfold resolveNoted
  rw [bind_apply, h]

end Gen

namespace Pairing

open Gen

variable {first : Shared}

/-- A name stands for the same with and without notes. -/
theorem resolve_noting (l : Nat) (x : String) :
    (noting first).Pairs (noting first).Variables (resolve .standard l x) (resolveNoted l x) := by
  intro s u hs
  have hends : ∀ {v : Variable} {t u' : State}, resolve .standard l x s = .ok v t →
      resolve .standard l x u = .ok v u' → t.stack = s.stack → u'.stack = u.stack →
      WithNotes first t (u'.emitTo .decl (noteLine x v)) →
      (noting first).Ends (Pushed (fun _ _ => False) (noting first).Variables s u)
        (resolve .standard l x s) (resolveNoted l x u) := by
    intro v t u' hrun hrun' hstack hstack' ht
    rw [hrun, resolveNoted_of_ok hrun']
    exact .ok ht ⟨.refl (fun _ => rfl) v, [], [], .nil, hstack, hstack'⟩
  cases hfound : s.scopes.lookup x with
  | some v =>
    have hfound' := (hs.lookup_eq x).trans hfound
    exact hends (resolve_of_lookup hfound _ _) (resolve_of_lookup hfound' _ _) rfl rfl
      (hs.note hfound)
  | none =>
    have hfound' := (hs.lookup_eq x).trans hfound
    cases hset : s.shared.emitted.get? x with
    | some v =>
      have hset' : u.shared.emitted.get? x = some v := by rw [hs.shared_eq, hset]
      have hbound : WithNotes first (s.declare x v) (u.declare x v) :=
        hs.step (.builtin _ x v hset) (hs.same.congr (fun s => (s.declare x v).cleared) fun _ => rfl)
          rfl rfl
      refine hends (resolve_of_emitted hfound hset _ _) (resolve_of_emitted hfound' hset' _ _) rfl rfl
        (hbound.note ?_)
      exact (ScopeChain.lookup_declare ..).trans (if_pos rfl)
    | none =>
      have hset' : u.shared.emitted.get? x = none := by rw [hs.shared_eq, hset]
      have hnew := resolve_of_new hfound hset l
      have hnew' := resolve_of_new hfound' hset' l
      by_cases hx : x = "process"
      · subst hx
        rw [if_pos rfl] at hnew hnew'
        have hname : u.freshTemp.1 = s.freshTemp.1 := congrArg Name.temp (by rw [hs.shared_eq])
        rw [hname] at hnew'
        exact hends hnew hnew' rfl rfl (hs.process hset)
      · rw [if_neg hx] at hnew hnew'
        rw [hnew, resolveNoted_of_error hnew']
        exact .error rfl

/-- A name is the same target with and without notes. -/
theorem nameTarget_noting (l : Nat) (x : String) (ty : ValueType) :
    (noting first).Pairs (noting first).Targets (nameTarget l x ty) (targetNoted l x ty) := by
  have hbind : nameTarget l x ty = nameTarget l x ty >>= pure := (bind_pure _).symm
  rw [hbind]
  refine .bind ((noting_lawful first).nameTarget rfl x ty) fun place place' hplace => ?_
  intro s u hs
  rw [bind_of_ok (lookup_apply x u), hs.lookup_eq x]
  cases hfound : s.scopes.lookup x with
  | none => exact .ok hs ⟨hplace, [], [], .nil, rfl, rfl⟩
  | some v => exact .ok (hs.note hfound) ⟨hplace, [], [], .nil, rfl, rfl⟩

end Pairing

/-! ## Units -/

open Gen Pairing

theorem Pairing.noting_wraps (first second : Shared) : (noting first).Wraps (noting second) where
  raised _ := rfl
  fault {f f'} path source h := by
    obtain rfl : f = f' := h
    rfl
  excused _ _ h := h.elim

/-- A unit starts without notes. -/
theorem Pairing.WithNotes.start {first : Shared} {s u : State} (h : WithNotes first s u) :
    WithNotes s.shared { shared := s.shared } { shared := u.shared } where
  same := h.same.congr (fun s => State.cleared { shared := s.shared }) fun _ => rfl
  scopes := h.scopes.start
  account := .silent (.refl _) rfl

/-- A unit takes over the notes of the units that it includes. -/
theorem Pairing.WithNotes.including {first : Shared} {s u t t' : State} (h : WithNotes first s u)
    (ht : WithNotes s.shared t t') :
    WithNotes first (s.including t.contribution) (u.including t'.contribution) := by
  have hscopes : (s.adopt t).WellScoped := h.scopes.adopt ht.scopes ht.account.shared
  refine h.advance ?_ hscopes rfl ht.account
  have hunit : t.contribution = t'.withoutNotes.contribution :=
    ht.same.congr State.contribution fun _ => rfl
  have hlines : (u.including t'.contribution).withoutNotes =
      u.withoutNotes.including t'.withoutNotes.contribution := by
    unfold State.withoutNotes State.including State.contribution Segments.splice
    rw [unnoted_append]
  rw [hlines, hunit]
  exact h.same.congr (fun s => (s.including _).cleared) fun _ => rfl

variable {setup : Setup} {first : Shared}

/-- Nodes are generated alike if their includes are. -/
theorem parts_noting (hstandard : setup.registry = .standard) {depth : Nat} {base : String}
    (hincludes : ∀ l args, (noting first).Yields false (lowerInclude (setup.env depth base) l args)
      (lowerInclude (setup.notedEnv depth base) l args)) (n : Node) :
    (noting first).Parts false ⟨n, node (setup.env depth base) n⟩
      ⟨n, noted (setup.notedEnv depth base) n⟩ := by
  rw [node_eq_walk, Env.hooks_eq_standard ((Setup.registry_env ..).trans hstandard)]
  refine (Coupling.same_lawful (noting_lawful first) (fun _ => rfl) (fun x hl => ?_)
    (fun x ty hl => ?_) hincludes).parts rfl
  · rw [hl]
    exact resolve_noting _ x
  · rw [hl]
    exact nameTarget_noting _ x ty

theorem Setup.base_notedEnv (setup : Setup) (depth : Nat) (base : String) :
    (setup.notedEnv depth base).base = base := by
  cases depth <;> rfl

/-- Notes change nothing else in any unit. -/
theorem node_noting (hstandard : setup.registry = .standard) (first : Shared) (depth : Nat)
    (base : String) (n : Node) :
    (noting first).Parts false ⟨n, node (setup.env depth base) n⟩
      ⟨n, noted (setup.notedEnv depth base) n⟩ := by
  have hplaces : ∀ args : List Node, List.Forall₂ (fun a a' : Node => a.loc = a'.loc) args args :=
    fun args => List.forall₂_same.2 fun _ _ => rfl
  induction depth generalizing first base n with
  | zero =>
    refine parts_noting hstandard (fun l args => ?_) n
    exact (noting_lawful first).includesTooDeep rfl rfl rfl rfl (hplaces args) rfl
  | succ depth ih =>
    refine parts_noting hstandard (fun l args => ?_) n
    refine (noting_lawful first).includes (setup.base_env (depth + 1) base)
      (setup.base_notedEnv (depth + 1) base) rfl rfl (fun path _ s u hs => ?_) rfl (hplaces args) rfl
    rw [Setup.includeUnit_eq_unit]
    refine Pairing.unit (noting_lawful first) (noting_wraps first s.shared) setup setup rfl
      (fun source _ => ?_) hs.start fun t t' => hs.including
    cases hread : readUnit setup.folding source with
    | error e => exact .inl ⟨e, hread, hread⟩
    | ok program =>
      have hprogram := ih s.shared (Path.directory base (Path.join base path)) program
      exact .inr ⟨program, program, hread, hread, (noting_lawful s.shared).statement hprogram.gen⟩

/-! ## Compilations -/

/-- The surroundings of the outermost unit, if all units are generated with notes. -/
def Options.notedEnv (options : Options) (files : String → Except IoError String) : Env :=
  (options.setup files).notedEnv options.limit options.base

/-- A compilation that succeeds does so with notes, and these tell what has been declared. -/
theorem noted_of_generate {files : String → Except IoError String} {options : Options}
    {source : String} {program : Node} {t : State}
    (h : generate (options.env .standard files) source program {} = .ok () t) :
    ∃ u, statement (noted (options.notedEnv files) program) {} = .ok () u ∧ u.withoutNotes = t ∧
      Account {} t.shared u.segments.decl := by
  have hparts : (noting {}).Parts false ⟨program, node (options.env .standard files) program⟩
      ⟨program, noted (options.notedEnv files) program⟩ :=
    node_noting rfl {} options.limit options.base program
  have hstart : WithNotes {} {} {} :=
    ⟨rfl, State.WellScoped.initial, .silent (.refl _) rfl⟩
  have hends := (noting_lawful {}).statement hparts.gen {} {} hstart
  rw [generate_eq_ok h] at hends
  generalize hrun : statement (noted (options.notedEnv files) program) {} = r at hends
  cases hends with
  | @ok _ _ _ u ht hstack =>
    obtain ⟨-, new, new', hnew, hstack, hstack'⟩ := hstack
    cases hnew with
    | cons hfalse _ => exact hfalse.elim
    | nil =>
      refine ⟨u, rfl, ?_, ht.account⟩
      have hclear : ∀ s : State, s.stack = [] → s.cleared = s := by
        rintro ⟨segments, scopes, stack, shared⟩ rfl
        rfl
      rw [← hclear t hstack, ← hclear u.withoutNotes hstack']
      exact ht.same.symm

/-! ## The declarations as the shell sees them -/

/-- The lines that set up the process object `p`, as the shell sees them. -/
def processTexts (p : Name) : List String := (processLines p).map Line.render

/-- The declarations set up the process object `p` between these lines. -/
def SetsUp (decl : List Line) (p : Name) (before after : List String) : Prop :=
  decl.map Line.render = before ++ processTexts p ++ after

/-- A line that has a first character is not empty. -/
theorem Line.render_eq_empty_iff (line : Line) : line.render = "" ↔ line.initial? = none := by
  rw [← line.head?_render, List.head?_eq_none_iff, String.toList_eq_nil_iff]

theorem Line.IsHandle.render_ne_empty {lo hi : Nat} {line : Line} (h : line.IsHandle lo hi) :
    line.render ≠ "" := by
  rw [Ne, line.render_eq_empty_iff]
  cases h <;> exact nofun

theorem empty_not_mem_handles {lo hi : Nat} {lines : List Line}
    (h : ∀ line ∈ lines, line.IsHandle lo hi) : "" ∉ lines.map Line.render := by
  intro hmem
  obtain ⟨line, hline, hempty⟩ := List.mem_map.1 hmem
  exact (h line hline).render_ne_empty hempty

/-- Two of the lines that set up a process object are empty. -/
theorem count_empty_processTexts (p : Name) : (processTexts p).count "" = 2 := by
  have hempty : ∀ line : Line, (line.render == "") = line.initial?.isNone := by
    intro line
    rw [Bool.eq_iff_iff, beq_iff_eq, line.render_eq_empty_iff, Option.isNone_iff_eq_none]
  unfold processTexts
  rw [List.count, List.countP_map, show (· == "") ∘ Line.render = _ from funext hempty]
  rfl

theorem idxOf_empty_processTexts (p : Name) (after : List String) :
    (processTexts p ++ after).idxOf "" = 1 := by
  have hhandle : (Line.handle p).render ≠ "" := by
    rw [Ne, Line.render_eq_empty_iff]
    exact nofun
  show ((Line.handle p).render :: "" :: _).idxOf "" = 1
  rw [List.idxOf_cons_ne _ hhandle, List.idxOf_cons_self]

theorem processTexts_inj {p p' : Name} (h : processTexts p = processTexts p') :
    p.render = p'.render := by
  have hcode : (Line.exitCode p).render = (Line.exitCode p').render :=
    Option.some.inj (congrArg List.getLast? h)
  exact (String.append_right_inj "set ").1 ((String.append_left_inj "[exitCode]=0").1 hcode)

/-- Among lines of which two at most are empty, the process object is set up in one place. -/
theorem SetsUp.unique {decl : List Line} {p p' : Name} {before after before' after' : List String}
    (hcount : (decl.map Line.render).count "" ≤ 2) (h : SetsUp decl p before after)
    (h' : SetsUp decl p' before' after') :
    before = before' ∧ after = after' ∧ processTexts p = processTexts p' := by
  have hempty : ∀ {p before after}, SetsUp decl p before after → "" ∉ before := by
    intro p before after h
    unfold SetsUp at h
    rw [h, List.count_append, List.count_append, count_empty_processTexts] at hcount
    exact List.count_eq_zero.1 (by omega)
  have hindex : ∀ {p before after}, SetsUp decl p before after →
      (decl.map Line.render).idxOf "" = before.length + 1 := by
    intro p before after h
    have hbefore := hempty h
    unfold SetsUp at h
    rw [h, List.append_assoc, List.idxOf_append_of_notMem hbefore, idxOf_empty_processTexts]
  have hlength : before.length = before'.length :=
    Nat.succ.inj ((hindex h).symm.trans (hindex h'))
  have htexts : before ++ (processTexts p ++ after) = before' ++ (processTexts p' ++ after') := by
    rw [← List.append_assoc, ← List.append_assoc]
    exact h.symm.trans h'
  obtain ⟨hbefore, hrest⟩ := List.append_inj htexts hlength
  obtain ⟨hprocess, hafter⟩ := List.append_inj hrest rfl
  exact ⟨hbefore, hafter, hprocess⟩

/-- A line that assigns a name to itself tells the name. -/
theorem selfAssignment_inj {x y : String} (h : "set " ++ x ++ "=" ++ x = "set " ++ y ++ "=" ++ y) :
    x = y := by
  have hchars : x.toList ++ '=' :: x.toList = y.toList ++ '=' :: y.toList := by
    simpa using congrArg String.toList h
  have hlength : x.toList.length = y.toList.length := by
    have hlengths := congrArg List.length hchars
    simp only [List.length_append, List.length_cons] at hlengths
    omega
  exact String.toList_inj.1 (List.append_inj hchars hlength).1

/-- The exit code of a process object is not declared like a function. -/
theorem handle_ne_exitCode {f : Name} (hf : f.IsProper) (n : Nat) :
    (Line.handle f).render ≠ (Line.exitCode (.temp n)).render := by
  intro (h : "set " ++ f.render ++ "=" ++ f.render = "set " ++ (Name.temp n).render ++ "[exitCode]=0")
  have hchars : f.render.toList ++ '=' :: f.render.toList =
      '_' :: '_' :: (Nat.toDigits 10 n ++ "[exitCode]=0".toList) := by
    simpa [Name.render] using congrArg String.toList h
  cases f with
  | user x =>
    -- The name would start with two underscores.
    have hx : isReservedName x = false := hf
    change x.toList ++ '=' :: x.toList = _ at hchars
    unfold isReservedName at hx
    generalize x.toList = chars at hx hchars
    rcases chars with _ | ⟨c, _ | ⟨d, cs⟩⟩
    · simp at hchars
    · simp at hchars
    · obtain ⟨rfl, hrest⟩ := List.cons.inj hchars
      obtain ⟨rfl, -⟩ := List.cons.inj hrest
      cases hx
  | temp m =>
    -- The number would be followed by two different characters.
    have hdigits : Nat.toDigits 10 m ++ '=' :: (Name.temp m).render.toList =
        Nat.toDigits 10 n ++ "[exitCode]=0".toList := by
      simpa [Name.render] using hchars
    have htail := congrArg (List.dropWhile Char.isDigit) hdigits
    rw [(span_digits_append m (by simp)).2, (span_digits_append n (by simp)).2] at htail
    simp at htail

/-- The handle of a function is not among the lines of a process object that has another name. -/
theorem Line.IsHandle.not_mem_processTexts {lo hi n : Nat} {line : Line} (h : line.IsHandle lo hi)
    (hne : line ≠ .handle (.temp n)) : line.render ∉ processTexts (.temp n) := by
  obtain ⟨f, hf, rfl⟩ : ∃ f : Name, f.IsProper ∧ line = .handle f := by
    cases h with
    | @user x hx => exact ⟨.user x, hx, rfl⟩
    | @temp m _ _ => exact ⟨.temp m, trivial, rfl⟩
  have hinitial : ∀ {other : Line}, (Line.handle f).render = other.render →
      other.initial? = some 's' := by
    intro other hrender
    rw [← other.head?_render, ← hrender, Line.head?_render]
    rfl
  intro hmem
  simp only [processTexts, processLines, List.map_cons, List.map_nil, List.mem_cons, List.not_mem_nil,
    or_false] at hmem
  rcases hmem with hline | hline | hline | hline | hline | hline | hline | hline | hline
  · exact hne (congrArg Line.handle (Name.render_inj hf trivial (selfAssignment_inj hline)))
  · cases hinitial hline
  · have hlabel : (Label.entry f).render = (Label.exit (.temp n)).render := selfAssignment_inj hline
    have hentry : (Label.entry f).IsProper := hf
    have hexit : (Label.exit (.temp n)).IsProper := trivial
    cases Label.render_inj hentry hexit hlabel
  · cases hinitial hline
  · cases hinitial hline
  · cases hinitial hline
  · cases hinitial hline
  · cases hinitial hline
  · exact handle_ne_exitCode hf n hline

/-! ## The process object in a compilation -/

/-- The variable is one of the compiler's own. No name stands for one of these but that of a
builtin. -/
def Variable.IsOwn (v : Variable) : Prop := ∃ n, v.storage = .named (.temp n)

/-- The variable is what the user has bound `process` to: that of the name, or an argument. -/
def Variable.IsUsersProcess (v : Variable) : Prop :=
  v.storage = .named (.user "process") ∨ ∃ i, v.storage = .slot i

/-- The declarations set the process object up as often as it is needed, if these are the variables
that `process` was found to stand for. -/
structure SetUpAsNeeded (decl : List Line) (found : Variable → Prop) : Prop where
  /-- There is one place at most where the lines of a process object stand, all in one stretch. -/
  once {p p' : Name} {before after before' after' : List String} :
    SetsUp decl p before after → SetsUp decl p' before' after' →
      p.render = p'.render ∧ before = before' ∧ after = after'
  /-- None of these lines stands anywhere else. -/
  apart {p : Name} {before after : List String} : SetsUp decl p before after →
    ∀ text ∈ before ++ after, text ∉ processTexts p
  /-- They stand there exactly if `process` was found to be one of the compiler's own somewhere. -/
  needed : (∃ p before after, SetsUp decl p before after) ↔ ∃ v, found v ∧ v.IsOwn
  /-- Wherever `process` was not found to be the user's, it is the variable that has been set up. -/
  same : ∃ p, ∀ v, found v →
    v.IsUsersProcess ∨ v = .named p .text ∧ ∃ before after, SetsUp decl p before after

namespace Account

variable {decl : List Line}

/-- What has been set up by the end stands among the declarations. -/
theorem setsUp (h : Account {} b decl) {v : Variable} (hv : b.process? = some v) :
    ∃ n before after, v = .named (.temp n) .text ∧ SetsUp (unnoted decl) (.temp n) before after ∧
      "" ∉ before ∧ "" ∉ after ∧ ∀ text ∈ before ++ after, text ∉ processTexts (.temp n) := by
  obtain ⟨-, n, rfl, -, -, before, after, hlines, haround⟩ := h.setup rfl hv
  refine ⟨n, before.map Line.render, after.map Line.render, rfl, ?_, ?_, ?_, ?_⟩
  · unfold SetsUp
    rw [hlines, List.map_append, List.map_append]
    rfl
  · exact empty_not_mem_handles fun line hline => (haround line (List.mem_append_left _ hline)).1
  · exact empty_not_mem_handles fun line hline => (haround line (List.mem_append_right _ hline)).1
  · intro text htext
    rw [← List.map_append] at htext
    obtain ⟨line, hline, rfl⟩ := List.mem_map.1 htext
    exact (haround line hline).1.not_mem_processTexts (haround line hline).2

/-- Nothing has been set up by the end unless it has been recorded. -/
theorem empty_not_mem (h : Account {} b decl) (hv : b.process? = none) :
    "" ∉ (unnoted decl).map Line.render :=
  empty_not_mem_handles (h.quiet hv.symm)

theorem count_empty_le (h : Account {} b decl) : ((unnoted decl).map Line.render).count "" ≤ 2 := by
  cases hv : b.process? with
  | none =>
    rw [List.count_eq_zero.2 (h.empty_not_mem hv)]
    omega
  | some v =>
    obtain ⟨n, before, after, -, hsets, hbefore, hafter, -⟩ := h.setsUp hv
    unfold SetsUp at hsets
    rw [hsets, List.count_append, List.count_append, count_empty_processTexts,
      List.count_eq_zero.2 hbefore, List.count_eq_zero.2 hafter]

/-- Where the process object is set up, it has been recorded, and its lines stand there alone. -/
theorem recorded (h : Account {} b decl) {p : Name} {before after : List String}
    (hsets : SetsUp (unnoted decl) p before after) :
    ∃ v, b.process? = some v ∧ ∀ text ∈ before ++ after, text ∉ processTexts p := by
  cases hv : b.process? with
  | none =>
    have hempty : "" ∈ processTexts p := by
      rw [← List.count_pos_iff, count_empty_processTexts]
      decide
    refine absurd ?_ (h.empty_not_mem hv)
    unfold SetsUp at hsets
    rw [hsets]
    exact List.mem_append_left _ (List.mem_append_right _ hempty)
  | some v =>
    obtain ⟨n, before', after', -, hsets', -, -, hapart⟩ := h.setsUp hv
    obtain ⟨rfl, rfl, htexts⟩ := hsets.unique h.count_empty_le hsets'
    rw [htexts]
    exact ⟨v, rfl, hapart⟩

/-- A name that was found to stand for one of the compiler's variables stands for the builtin. -/
theorem process_of_isOwn (h : Account a b decl) {v : Variable} (hnote : noteLine "process" v ∈ decl)
    (hv : v.IsOwn) : b.process? = some v := by
  obtain ⟨n, hn⟩ := hv
  obtain ⟨huser, -⟩ | ⟨i, hslot, -⟩ | ⟨hset, -⟩ := h.noted hnote
  · rw [hn] at huser
    cases huser
  · rw [hn] at hslot
    cases hslot
  · exact hset

theorem setUpAsNeeded (h : Account {} b decl) :
    SetUpAsNeeded (unnoted decl) fun v => noteLine "process" v ∈ decl where
  once hsets hsets' := by
    obtain ⟨hbefore, hafter, htexts⟩ := hsets.unique h.count_empty_le hsets'
    exact ⟨processTexts_inj htexts, hbefore, hafter⟩
  apart hsets := (h.recorded hsets).choose_spec.2
  needed := by
    constructor
    · rintro ⟨p, before, after, hsets⟩
      obtain ⟨v, hv, -⟩ := h.recorded hsets
      obtain ⟨hnote, n, rfl, -⟩ := h.setup rfl hv
      exact ⟨_, hnote, n, rfl⟩
    · rintro ⟨v, hnote, hv⟩
      obtain ⟨n, before, after, -, hsets, -⟩ := h.setsUp (h.process_of_isOwn hnote hv)
      exact ⟨_, before, after, hsets⟩
  same := by
    cases hv : b.process? with
    | none =>
      refine ⟨.temp 0, fun v hnote => .inl ?_⟩
      obtain ⟨huser, -⟩ | ⟨i, hslot, -⟩ | ⟨hset, -⟩ := h.noted hnote
      · exact .inl huser
      · exact .inr ⟨i, hslot⟩
      · cases hv.symm.trans hset
    | some w =>
      obtain ⟨n, before, after, rfl, hsets, -⟩ := h.setsUp hv
      refine ⟨.temp n, fun v hnote => ?_⟩
      obtain ⟨huser, -⟩ | ⟨i, hslot, -⟩ | ⟨hset, -⟩ := h.noted hnote
      · exact .inl (.inl huser)
      · exact .inl (.inr ⟨i, hslot⟩)
      · exact .inr ⟨Option.some.inj (hset.symm.trans hv), before, after, hsets⟩

end Account

/-- The process object is set up once in a compilation that succeeds, however many units and functions
use it and in whatever order, and is the same variable for all of them; it is not set up if nothing
uses it. Which uses there are is told by the notes: generated with notes, the program comes to a state
that differs in nothing else. -/
theorem process_set_up_once (files : String → Except IoError String) (options : Options)
    (source script : String) (h : compileSource files options source = .ok script) :
    ∃ program t u, readUnit options.folding source = .ok program ∧
      generate (options.env .standard files) source program {} = .ok () t ∧ script = t.script ∧
      statement (noted (options.notedEnv files) program) {} = .ok () u ∧ u.withoutNotes = t ∧
      SetUpAsNeeded t.segments.decl fun v => noteLine "process" v ∈ u.segments.decl := by
  obtain ⟨program, t, hread, hgenerate, hscript⟩ := compileSource_eq_ok h
  obtain ⟨u, hnoted, rfl, haccount⟩ := noted_of_generate hgenerate
  exact ⟨program, _, u, hread, hgenerate, hscript, hnoted, rfl, haccount.setUpAsNeeded⟩

/-- A file with a use of the process object and a parameter of that name. -/
def processTree : FileTree :=
  [(["a.bc"], .text "func g(process) \x7b return process; \x7d process;")]

/-- A function uses the process object first, then an included file, then the source itself. -/
theorem process_shared_by_units :
    let source := "func f() \x7b process; \x7d include(\"a.bc\"); process;"
    let script := "\n".intercalate ["@echo off", "setlocal enabledelayedexpansion", "set f=f",
      "set __1=__1", "", "set __1[exit]=__1[exit]", "goto __1[exit]_", ":__1[exit]", "goto :eof",
      ":__1[exit]_", "", "set __1[exitCode]=0", "set g=g", "goto :__after_f", ":f", "setlocal",
      "endlocal & (set %1=0)", "exit /b", ":__after_f", "goto :__after_g", ":g", "setlocal",
      "endlocal & (", "set %1=%~2", ")", "exit /b", ":__after_g", ""]
    compileSource processTree.read {} source = .ok script ∧
      ∃ program t u, readUnit true source = .ok program ∧
        generate (Options.env {} .standard processTree.read) source program {} = .ok () t ∧
        script = t.script ∧
        statement (noted (Options.notedEnv {} processTree.read) program) {} = .ok () u ∧
        u.withoutNotes = t ∧
        SetUpAsNeeded t.segments.decl fun v => noteLine "process" v ∈ u.segments.decl := by
  intro source script
  have hcompile : compileSource processTree.read {} source = .ok script := by decide +kernel
  exact ⟨hcompile, process_set_up_once processTree.read {} source script hcompile⟩

end BatchCompiler
