/-
# BatchCompiler.Proofs.Audit -- compilations with their books

An `Audit` is a compilation with its ledger and a log. `Audit.Step` lists what can happen to it; the
state goes on by the very steps of generation, and the ledger and the log follow. Every compilation
that succeeds can be audited, and the log then has an entry for each node that reads, assigns or binds
names, in the order of evaluation; whatever reference to an argument stands on a line of the script is
that of a read in the log (`exists_audit`). In every audit that can come about the ledger is true of
the scopes, and so is what the log says of the names that were read (`Audit.sound_of_reached`).
-/

import BatchCompiler.Proofs.Ledger

namespace BatchCompiler

open Gen

/-! ## Audits -/

/-- An entry of the log. -/
inductive Event where
  /-- A name is read and stands for this variable, which is bound so many scopes further out. -/
  | read (k : String) (v : Variable) (depth : Nat) (r : Record)
  | store (k : String) (line : Line)
  /-- The scope of a function with these parameters is closed. -/
  | function (params : List String)
  deriving DecidableEq, Repr

/-- The entry is one for this node. -/
def Event.isOf : Event → Node → Bool
  | read k _ _ _, .identifier _ k' => k = k'
  | store k _, .assign _ (.identifier _ k') _ => k = k'
  | function params, .function _ _ params' _ => params = params'
  | _, _ => false

theorem Event.eq_of_isOf_function {params : List String} {n : Node}
    (h : (Event.function params).isOf n) : ∃ l name body, n = .function l name params body := by
  cases n with
  | function l name params' body =>
    obtain rfl : params = params' := by simpa [isOf] using h
    exact ⟨l, name, body, rfl⟩
  | _ => cases h

/-- The node reads a name, assigns to one or binds parameters. -/
def Node.isLogged : Node → Bool
  | identifier _ _ | assign _ (identifier _ _) _ | function _ _ _ _ => true
  | _ => false

/-- The line sets a variable of the user's to a value. -/
def Line.setsUser : Line → Bool
  | assign (.var (.user _)) _ | compute (.var (.user _)) (.value _) => true
  | _ => false

/-- A compilation in progress, with its books. -/
structure Audit where
  state : State := {}
  ledger : Ledger := [{}]
  /-- The units that wait for the one that is being written, the innermost first. -/
  waiting : List (State × Ledger) := []
  log : List Event := []

namespace Audit

/-- What can happen in a compilation, and what the ledger and the log make of it. -/
inductive Step : Audit → Audit → Prop
  /-- Nothing happens to what names stand for, and no variable of the user's is set. -/
  | idle {s t : State} (ledger : Ledger) (waiting : List (State × Ledger)) (log : List Event)
      (lines : List Line) :
    t.scopes = s.scopes → t.shared.emitted = s.shared.emitted →
    t.segments.code = s.segments.code ++ lines → (∀ line ∈ lines, line.setsUser = false) →
      Step ⟨s, ledger, waiting, log⟩ ⟨t, ledger, waiting, log⟩
  | read {s t : State} (ledger : Ledger) (waiting : List (State × Ledger)) (log : List Event)
      {loc d : Nat} {k : String} {v : Variable} {r : Record} :
    resolve .standard loc k s = .ok v t → (ledger.read k).find? k = some (d, r) →
      Step ⟨s, ledger, waiting, log⟩ ⟨t, ledger.read k, waiting, log ++ [.read k v d r]⟩
  | store {s t : State} (ledger : Ledger) (waiting : List (State × Ledger)) (log : List Event)
      {loc : Nat} {k : String} {v : Operand} {place : Target} :
    nameTarget loc k v.valueType s = .ok place t →
      Step ⟨s, ledger, waiting, log⟩
        ⟨t.emitAll [assignLine place v], ledger.store k (assignLine place v), waiting,
          log ++ [.store k (assignLine place v)]⟩
  | enter {s t : State} (ledger : Ledger) (waiting : List (State × Ledger)) (log : List Event)
      {loc : Nat} {name : Option String} {f : Name} (params : List String) :
    functionName loc name s = .ok f t →
      Step ⟨s, ledger, waiting, log⟩
        ⟨t.entering f params, ledger.enter name params, waiting, log⟩
  | leave (s : State) (page : Page) {ledger : Ledger} (waiting : List (State × Ledger))
      (log : List Event) :
    ledger ≠ [] →
      Step ⟨s, page :: ledger, waiting, log⟩
        ⟨{ s with scopes := s.scopes.leave }, ledger, waiting, log ++ [.function page.params]⟩
  /-- An included unit begins. -/
  | begin (s : State) (ledger : Ledger) (waiting : List (State × Ledger)) (log : List Event) :
    Step ⟨s, ledger, waiting, log⟩ ⟨{ shared := s.shared }, [{}], (s, ledger) :: waiting, log⟩
  /-- An included unit ends, and the unit around it takes over what it contributes. -/
  | finish (s t : State) (ledger : Ledger) (root : Page) (waiting : List (State × Ledger))
      (log : List Event) :
    Step ⟨t, [root], (s, ledger) :: waiting, log⟩ ⟨s.adopt t, ledger.adopt root, waiting, log⟩

/-- Any number of steps. -/
abbrev Steps : Audit → Audit → Prop := Relation.ReflTransGen Step

/-- The audit is one that can come about. -/
def Reached (c : Audit) : Prop := Steps {} c

end Audit

/-! ## References to arguments -/

/-- A read of the argument with this number is in the log. -/
def HasRead (log : List Event) (i : Nat) : Prop :=
  ∃ k v d r, .read k v d r ∈ log ∧ v.storage = .slot i

theorem HasRead.mono {log log' : List Event} {i : Nat} (h : HasRead log i) (hsub : log ⊆ log') :
    HasRead log' i := by
  obtain ⟨k, v, d, r, hmem, hv⟩ := h
  exact ⟨k, v, d, r, hsub hmem, hv⟩

/-- Each reference to an argument in the text is that of a read in the log. -/
def Text.IsCoveredBy (log : List Event) (text : List Fragment) : Prop :=
  ∀ i, .argument i ∈ text → HasRead log i

/-- Each reference to an argument on the lines is that of a read in the log. -/
def Covers (log : List Event) (lines : List Line) : Prop :=
  ∀ line ∈ lines, Text.IsCoveredBy log line.fragments

theorem Text.IsCoveredBy.append {log : List Event} {a b : List Fragment}
    (ha : Text.IsCoveredBy log a) (hb : Text.IsCoveredBy log b) : Text.IsCoveredBy log (a ++ b) := by
  intro i hi
  rcases List.mem_append.1 hi with hi | hi
  · exact ha i hi
  · exact hb i hi

theorem Covers.mono {log log' : List Event} {lines : List Line} (h : Covers log lines)
    (hsub : log ⊆ log') : Covers log' lines :=
  fun line hline i hi => (h line hline i hi).mono hsub

theorem Covers.append {log : List Event} {xs ys : List Line} (hx : Covers log xs)
    (hy : Covers log ys) : Covers log (xs ++ ys) := by
  intro line hline
  rcases List.mem_append.1 hline with hmem | hmem
  · exact hx line hmem
  · exact hy line hmem

/-- Whether the operand is read at once makes no difference to the arguments it refers to. -/
theorem Operand.argument_mem_spliceNow {o : Operand} {i : Nat}
    (h : .argument i ∈ o.spliceNow) : .argument i ∈ o.splice := by
  cases o with
  | var v =>
    obtain ⟨storage, ty⟩ := v
    cases storage with
    | named x => cases List.mem_singleton.1 h
    | slot j => exact h
  | _ => exact h

/-- The references on a line are those of the operands of which it is made. -/
theorem Line.IsMadeOf.isCovered {own : Name → Prop} {log : List Event} {line : Line}
    (h : line.IsMadeOf own fun o => Text.IsCoveredBy log o.splice) :
    Text.IsCoveredBy log line.fragments := by
  intro i hi
  rcases h.of_mem_fragments hi with ⟨o, ho, hmem | hmem⟩ | ⟨x, hx⟩ | ⟨n, hn⟩
  · exact ho i hmem
  · exact ho i (o.argument_mem_spliceNow hmem)
  · cases hx
  · cases hn

/-! ## Generation takes steps -/

/-- What an audit keeps beside the state. -/
structure Books where
  ledger : Ledger := [{}]
  waiting : List (State × Ledger) := []
  log : List Event := []

/-- The audit with these books in this state. -/
def Books.at (b : Books) (s : State) : Audit := ⟨s, b.ledger, b.waiting, b.log⟩

namespace Audit

/-- The code that the units have written, as it is put together in the end. -/
def code (c : Audit) : List Line :=
  (c.waiting.reverse.flatMap fun unit => unit.1.segments.code) ++ c.state.segments.code

/-- Generation takes steps from one state to the other with the same functions open and the same units
waiting, and logs what the nodes do. -/
structure Follows (ns : List Node) (b : Books) (s : State) (b' : Books) (t : State) : Prop where
  opened : b'.ledger.opened = b.ledger.opened
  waiting : b'.waiting = b.waiting
  steps : Steps (b.at s) (b'.at t)
  log : ∃ events, b'.log = b.log ++ events ∧
    List.Forall₂ (·.isOf ·) events (ns.filter Node.isLogged)
  covers : Covers b'.log (b'.at t).code

/-- Operands may be put on a line if what they refer to has been read. -/
def discipline : Discipline Books where
  inv b s := b.ledger ≠ [] ∧ Covers b.log (b.at s).code
  own _ x := ∃ n, x = .temp n
  good b _ o := Text.IsCoveredBy b.log o.splice
  done := Follows

namespace Follows

variable {b b' b'' : Books} {s t u : State} {ms ns : List Node}

theorem log_subset (h : Follows ns b s b' t) : b.log ⊆ b'.log := by
  obtain ⟨events, hlog, -⟩ := h.log
  rw [hlog]
  exact List.subset_append_left _ _

theorem ledger_ne_nil (h : Follows ns b s b' t) (hb : b.ledger ≠ []) : b'.ledger ≠ [] := by
  intro hnil
  have hopened := h.opened
  rw [hnil] at hopened
  exact hb (List.map_eq_nil_iff.1 hopened.symm)

/-- Lines are written in which no variable of the user's is set, and nothing else happens. -/
theorem idle (hs : discipline.inv b s) (lines : List Line) (hscopes : t.scopes = s.scopes)
    (hemitted : t.shared.emitted = s.shared.emitted)
    (hcode : t.segments.code = s.segments.code ++ lines)
    (hlines : ∀ line ∈ lines, line.setsUser = false) (hcovers : Covers b.log lines)
    (hns : ns.filter Node.isLogged = []) : Follows ns b s b t where
  opened := rfl
  waiting := rfl
  steps := .single (.idle b.ledger b.waiting b.log lines hscopes hemitted hcode hlines)
  log := ⟨[], (List.append_nil _).symm, by rw [hns]; exact .nil⟩
  covers := by
    have hall := hs.2.append hcovers
    unfold code at hall ⊢
    rw [List.append_assoc] at hall
    show Covers b.log (_ ++ t.segments.code)
    rw [hcode]
    exact hall

theorem refl (hs : discipline.inv b s) (hscopes : t.scopes = s.scopes)
    (hemitted : t.shared.emitted = s.shared.emitted) (hcode : t.segments.code = s.segments.code)
    (hns : ns.filter Node.isLogged = []) : Follows ns b s b t :=
  .idle hs [] hscopes hemitted (hcode.trans (List.append_nil _).symm) nofun nofun hns

theorem trans (h : Follows ms b s b' t) (h' : Follows ns b' t b'' u) :
    Follows (ms ++ ns) b s b'' u where
  opened := h'.opened.trans h.opened
  waiting := h'.waiting.trans h.waiting
  steps := h.steps.trans h'.steps
  log := by
    obtain ⟨xs, hxs, hx⟩ := h.log
    obtain ⟨ys, hys, hy⟩ := h'.log
    refine ⟨xs ++ ys, by rw [hys, hxs, List.append_assoc], ?_⟩
    rw [List.filter_append]
    exact List.rel_append hx hy
  covers := h'.covers

/-- One line is written, in which no variable of the user's is set. -/
theorem line (hs : discipline.inv b s) {line : Line} (hset : line.setsUser = false)
    (hcovers : Text.IsCoveredBy b.log line.fragments) (hns : ns.filter Node.isLogged = []) :
    Follows ns b s b (s.emitAll [line]) :=
  .idle hs [line] rfl rfl rfl (List.forall_mem_singleton.2 hset)
    (List.forall_mem_singleton.2 hcovers) hns

/-- What has been written is covered still when more has been logged. -/
theorem covers_of_code (hs : discipline.inv b s) {lines : List Line}
    (hcode : t.segments.code = s.segments.code ++ lines) (hwaiting : b'.waiting = b.waiting)
    (hsub : b.log ⊆ b'.log) (hlines : Covers b'.log lines) : Covers b'.log (b'.at t).code := by
  have hall := (hs.2.mono hsub).append hlines
  unfold code at hall ⊢
  rw [List.append_assoc] at hall
  show Covers b'.log ((b'.waiting.reverse.flatMap _) ++ t.segments.code)
  rw [hwaiting, hcode]
  exact hall

/-- A name is read, and this is logged. -/
theorem read {loc : Nat} {k : String} {v : Variable} (hs : discipline.inv b s)
    (h : resolve .standard loc k s = .ok v t) :
    ∃ b', Follows [.identifier loc k] b s b' t ∧ Text.IsCoveredBy b'.log (Operand.var v).splice := by
  obtain ⟨d, r, hfound⟩ := Ledger.exists_find?_read hs.1 k
  refine ⟨⟨b.ledger.read k, b.waiting, b.log ++ [Event.read k v d r]⟩, ⟨b.ledger.opened_read, rfl,
    .single (.read b.ledger b.waiting b.log h hfound),
    ⟨[.read k v d r], rfl, .cons (by simp [Event.isOf]) .nil⟩, ?_⟩, ?_⟩
  · have hcode : t.segments.code = s.segments.code := by
      rcases resolve_eq_ok h with ⟨-, rfl⟩ | ⟨-, -, rfl⟩ | ⟨-, -, -, -, rfl⟩ <;> rfl
    exact covers_of_code hs (hcode.trans (List.append_nil _).symm) rfl
      (List.subset_append_left _ _) nofun
  · intro i hi
    refine ⟨k, v, d, r, List.mem_append_right _ List.mem_cons_self, ?_⟩
    obtain ⟨storage, ty⟩ := v
    cases storage with
    | named x => cases List.mem_singleton.1 hi
    | slot j =>
      cases List.mem_singleton.1 hi
      rfl

theorem store {l loc : Nat} {k : String} {n : Node} {v : Operand} {place : Target}
    (hs : discipline.inv b s) (hv : Text.IsCoveredBy b.log v.splice)
    (h : nameTarget loc k v.valueType s = .ok place t) :
    ∃ b', Follows [.assign l (.identifier loc k) n] b s b' (t.emitAll [assignLine place v]) := by
  refine ⟨⟨b.ledger.store k (assignLine place v), b.waiting,
      b.log ++ [Event.store k (assignLine place v)]⟩, b.ledger.opened_store _, rfl,
    .single (.store b.ledger b.waiting b.log h),
    ⟨[.store k (assignLine place v)], rfl, .cons (by simp [Event.isOf]) .nil⟩, ?_⟩
  have hplace : place.fragments = [] ∧ t.segments.code = s.segments.code := by
    rcases nameTarget_eq_ok h with ⟨-, -, rfl, rfl⟩ | ⟨w, x, -, -, rfl, rfl⟩ <;> exact ⟨rfl, rfl⟩
  have hcode : (t.emitAll [assignLine place v]).segments.code =
      s.segments.code ++ [assignLine place v] := by
    show t.segments.code ++ _ = _
    rw [hplace.2]
  have hline : Covers b.log [assignLine place v] := by
    refine List.forall_mem_singleton.2 ?_
    rw [Line.fragments_assignLine, hplace.1]
    exact hv
  exact covers_of_code hs hcode rfl (List.subset_append_left _ _)
    (hline.mono (List.subset_append_left _ _))

/-- The scope of a function is entered, gone through and left. -/
theorem routine {s' : State} {loc : Nat} {name : Option String} {f : Name} {params : List String}
    (body : List Node) (hs : discipline.inv b s) (hname : functionName loc name s = .ok f s') :
    ∃ b₁, discipline.inv b₁ (s'.entering f params) ∧ b₁.log = b.log ∧
      ∀ ns b₂ t, Follows ns b₁ (s'.entering f params) b₂ t → ∃ b₃, b₃.log ⊇ b₂.log ∧
        Follows (ns ++ [.function loc name params body]) b s b₃
          { t with scopes := t.scopes.leave } := by
  have hcode : s'.segments.code = s.segments.code := by
    rcases functionName_eq_ok hname with ⟨-, -, rfl⟩ | ⟨k, -, -, rfl⟩ <;> rfl
  have hentered : b.ledger.enter name params ≠ [] := by
    intro hnil
    have hopened := b.ledger.opened_enter name params
    rw [hnil] at hopened
    cases hopened
  have hlines : Covers b.log [.goto (.behind f), .label (.entry f), .enterFunction] := by
    intro line hline i hi
    simp only [List.mem_cons, List.not_mem_nil, or_false] at hline
    rcases hline with rfl | rfl | rfl <;> cases hi
  refine ⟨⟨b.ledger.enter name params, b.waiting, b.log⟩, ⟨hentered, ?_⟩, rfl, ?_⟩
  · refine covers_of_code (t := s'.entering f params) hs ?_ rfl (List.Subset.refl _) hlines
    rw [← hcode]
    rfl
  · rintro ns ⟨ledger, waiting, log⟩ t h
    have hopened := h.opened
    rw [Ledger.opened_enter] at hopened
    -- What is on top is the page of this function.
    obtain ⟨page, outer, rfl, rfl, houter⟩ := List.map_eq_cons_iff.1 hopened
    obtain rfl : waiting = b.waiting := h.waiting
    have hne : outer ≠ [] := by
      rintro rfl
      exact hs.1 (List.map_eq_nil_iff.1 houter.symm)
    refine ⟨⟨outer, b.waiting, log ++ [.function page.params]⟩, List.subset_append_left _ _,
      houter, rfl, ?_, ?_, h.covers.mono (List.subset_append_left _ _)⟩
    · exact (Relation.ReflTransGen.head (.enter b.ledger b.waiting b.log page.params hname)
        h.steps).tail (.leave t page b.waiting _ hne)
    · obtain ⟨events, hlog, hevents⟩ := h.log
      obtain rfl : log = b.log ++ events := hlog
      refine ⟨events ++ [.function page.params], List.append_assoc _ _ _, ?_⟩
      rw [List.filter_append]
      exact List.rel_append hevents (.cons (by simp [Event.isOf]) .nil)

/-- While an included unit is written, the unit around it waits. -/
theorem included (hs : discipline.inv b s) :
    ∃ b₁, discipline.inv b₁ { shared := s.shared } ∧
      ∀ ns b₂ t, Follows ns b₁ { shared := s.shared } b₂ t → ∃ b₃, Follows ns b s b₃ (s.adopt t) := by
  have hcode : (Books.at ⟨[{}], (s, b.ledger) :: b.waiting, b.log⟩ { shared := s.shared }).code =
      (b.at s).code := by
    simp [Books.at, code]
  refine ⟨⟨[{}], (s, b.ledger) :: b.waiting, b.log⟩, ⟨List.cons_ne_nil _ _, ?_⟩, ?_⟩
  · rw [hcode]
    exact hs.2
  · rintro ns ⟨ledger, waiting, log⟩ t h
    obtain ⟨root, rest, rfl, -, hrest⟩ := List.map_eq_cons_iff.1 h.opened
    obtain rfl := List.map_eq_nil_iff.1 hrest
    obtain rfl : waiting = (s, b.ledger) :: b.waiting := h.waiting
    refine ⟨⟨b.ledger.adopt root, b.waiting, log⟩, Ledger.opened_adopt b.ledger root, rfl, ?_,
      h.log, ?_⟩
    · exact (Relation.ReflTransGen.head (.begin s b.ledger b.waiting b.log) h.steps).tail
        (.finish s t b.ledger root b.waiting _)
    · have hcovers := h.covers
      simpa [Books.at, code, State.adopt, Segments.splice] using hcovers

end Follows

theorem setsUser_of_isMadeOf {good : Operand → Prop} {line : Line}
    (h : line.IsMadeOf (fun x => ∃ n, x = .temp n) good) : line.setsUser = false := by
  cases h with
  | text hx _ _ | value hx _ | handle hx | binary _ hx _ _ =>
    obtain ⟨n, rfl⟩ := hx
    rfl
  | _ => rfl

theorem lawful : discipline.Lawful where
  refl hs := .refl hs.inv rfl rfl rfl rfl
  trans := Follows.trans
  inv_of_done hs h := ⟨h.ledger_ne_nil hs.inv.1, h.covers⟩
  own_mono _ h := h
  good_mono h ho i hi := (ho i hi).mono h.log_subset
  idle {_ s n} hs hn := by
    refine .refl hs.inv rfl rfl rfl ?_
    cases n <;> first | rfl | cases hn
  stack _ hs := .refl hs.inv rfl rfl rfl rfl
  temp {_ s} hs := ⟨.refl hs.inv rfl rfl rfl rfl, s.temps + 1, rfl⟩
  label hs := .refl hs.inv rfl rfl rfl rfl
  starting _ hs := .refl hs.inv rfl rfl rfl rfl
  emit {_ s line} hs hline := by
    refine ⟨.line hs.inv (setsUser_of_isMadeOf hline) hline.isCovered rfl, fun x ty _ i hi => ?_⟩
    cases List.mem_singleton.1 hi
  number _ _ _ i hi := by cases List.mem_singleton.1 hi
  chars _ _ _ i hi := by cases List.mem_singleton.1 hi
  reference {_ _ p q} hp hq := by
    refine hp.append fun i hi => hq i ?_
    simpa using hi
  read hs h := Follows.read hs.inv h
  assignName hs hv _ h := Follows.store hs.inv hv h
  assignPlace {_ s l loc p i n v o} hs hv _ ho _ := by
    refine .line hs.inv ?_ ?_ rfl
    · unfold assignLine
      split <;> rfl
    · rw [Line.fragments_assignLine]
      exact ho.append hv
  stepped {_ s} l op leading {n o current place x} hs hx ho hcurrent _ hplace _ := by
    refine ⟨.idle hs.inv _ rfl rfl rfl ?_ ?_ rfl, fun _ i hi => ?_⟩
    · obtain ⟨m, rfl⟩ := hx
      simp [Line.setsUser]
    · refine List.forall_mem_cons.2 ⟨hcurrent, List.forall_mem_singleton.2 ?_⟩
      have hfragments : Text.IsCoveredBy _ place.fragments := fun i hi =>
        ho i (Operand.mem_splice_of_target? hplace hi)
      exact hfragments.append hcurrent
    · cases List.mem_singleton.1 hi
  called {_ s l n args f values x} hs _ hf _ hvalues _ := by
    refine ⟨.line hs.inv rfl ?_ rfl, fun _ i hi => ?_⟩
    · rw [Line.fragments_call]
      refine hf.append fun i hi => ?_
      obtain ⟨v, hv, hmem⟩ := List.mem_flatMap.1 hi
      exact hvalues v hv i hmem
    · cases List.mem_singleton.1 hi
  routine params body hs h := by
    obtain ⟨b₁, hinv, hlog, hleave⟩ := Follows.routine body hs.inv h
    refine ⟨b₁, hinv, fun o ho i hi => hlog ▸ ho i hi, fun ns b₂ t hdone => ?_⟩
    obtain ⟨b₃, hsub, hall⟩ := hleave ns b₂ t hdone
    refine ⟨b₃, hall, fun o ho i hi => (ho i hi).mono hsub, fun i hi => ?_⟩
    cases List.mem_singleton.1 hi
  included hs := Follows.included hs.inv

end Audit

/-! ## What every step keeps -/

/-- The line that an entry of the log is about. -/
def Event.line? : Event → Option Line
  | store _ line => some line
  | _ => none

namespace Audit

/-- The parameters are those of a function whose scope is open or has been closed, or those of a root
scope, which has none. -/
inductive Knows (c : Audit) (params : List String) : Prop
  | root : params = [] → Knows c params
  | current : params ∈ c.ledger.opened → Knows c params
  | waiting {unit : State × Ledger} :
    unit ∈ c.waiting → params ∈ Ledger.opened unit.2 → Knows c params
  | closed : .function params ∈ c.log → Knows c params

/-- The ledgers describe the scopes, the log has each line that sets a variable of the user's, in the
order of the code, and what it says of a name that was read was true at that time. -/
structure Sound (c : Audit) : Prop where
  current : c.ledger.Describes c.state.scopes
  waiting : ∀ unit ∈ c.waiting, Ledger.Describes unit.2 unit.1.scopes
  texts : c.state.shared.HoldsTexts
  code : c.code.filter Line.setsUser = (c.log.filterMap Event.line?).filter Line.setsUser
  reads {k : String} {v : Variable} {d : Nat} {r : Record} :
    .read k v d r ∈ c.log → ∃ params, r.Describes params k v ∧ c.Knows params

theorem sound_start : Sound {} where
  current := .start
  waiting := nofun
  texts := nofun
  code := rfl
  reads := nofun

theorem Knows.step {c d : Audit} (h : Step c d) (hc : c.Sound) {params : List String}
    (hparams : c.Knows params) : d.Knows params := by
  -- Only leaving a scope and ending a unit close a page.
  have hlog : ∀ {event}, event ∈ c.log → event ∈ d.log := by
    intro event hevent
    cases h with
    | read | store | leave => exact List.mem_append_left _ hevent
    | idle | enter | begin | finish => exact hevent
  cases hparams with
  | root hnone => exact .root hnone
  | closed hclosed => exact .closed (hlog hclosed)
  | current hopen =>
    cases h with
    | idle => exact .current hopen
    | read | store => exact .current (by simpa using hopen)
    | enter ledger waiting log ps _ =>
      refine .current ?_
      rw [Ledger.opened_enter]
      exact List.mem_cons_of_mem _ hopen
    | leave s page waiting log _ =>
      rcases List.mem_cons.1 hopen with rfl | hopen
      · exact .closed (List.mem_append_right _ List.mem_cons_self)
      · exact .current hopen
    | begin => exact .waiting List.mem_cons_self hopen
    | finish s t ledger root waiting log =>
      obtain rfl : params = root.params := List.mem_singleton.1 hopen
      exact .root (by simpa using hc.current.root)
  | waiting hunit hopen =>
    cases h with
    | idle | read | store | enter | leave => exact .waiting hunit hopen
    | begin => exact .waiting (List.mem_cons_of_mem _ hunit) hopen
    | finish s t ledger root waiting log =>
      rcases List.mem_cons.1 hunit with rfl | hunit
      · exact .current (by simpa using hopen)
      · exact .waiting hunit hopen

/-- Only a line that is logged sets a variable of the user's. -/
theorem code_of_step {c d : Audit} (h : Step c d)
    (hc : c.code.filter Line.setsUser = (c.log.filterMap Event.line?).filter Line.setsUser) :
    d.code.filter Line.setsUser = (d.log.filterMap Event.line?).filter Line.setsUser := by
  unfold code at hc ⊢
  cases h with
  | idle ledger waiting log lines _ _ hcode hlines =>
    have hnone : lines.filter Line.setsUser = [] := by simpa using hlines
    rw [hcode, ← List.append_assoc, List.filter_append, hnone, List.append_nil]
    exact hc
  | @read s t ledger waiting log loc d k v r hrun _ =>
    have hcode : t.segments.code = s.segments.code := by
      rcases resolve_eq_ok hrun with ⟨-, rfl⟩ | ⟨-, -, rfl⟩ | ⟨-, -, -, -, rfl⟩ <;> rfl
    simpa [hcode, List.filterMap_cons, Event.line?] using hc
  | @store s t ledger waiting log loc k v place hrun =>
    have hcode : t.segments.code = s.segments.code := by
      rcases nameTarget_eq_ok hrun with ⟨-, -, -, rfl⟩ | ⟨w, x, -, -, -, rfl⟩ <;> rfl
    simp only [State.emitAll, hcode, ← List.append_assoc, List.filter_append, hc,
      List.filterMap_append]
    rfl
  | @enter s t ledger waiting log loc name f params hrun =>
    have hcode : t.segments.code = s.segments.code := by
      rcases functionName_eq_ok hrun with ⟨-, -, rfl⟩ | ⟨k, -, -, rfl⟩ <;> rfl
    have hentered : (t.entering f params).segments.code =
        s.segments.code ++ [.goto (.behind f), .label (.entry f), .enterFunction] := by
      rw [← hcode]
      rfl
    rw [hentered, ← List.append_assoc, List.filter_append]
    simpa [Line.setsUser] using hc
  | leave s page waiting log _ => simpa [List.filterMap_cons, Event.line?] using hc
  | begin s ledger waiting log => simpa using hc
  | finish s t ledger root waiting log =>
    simpa [State.adopt, Segments.splice] using hc

theorem texts_of_step {c d : Audit} (h : Step c d) (hc : c.Sound) :
    d.state.shared.HoldsTexts := by
  cases h with
  | idle ledger waiting log lines _ hemitted _ _ =>
    unfold Shared.HoldsTexts
    rw [hemitted]
    exact hc.texts
  | read ledger waiting log hrun _ => exact (hc.current.read hc.texts hrun).2.2
  | store ledger waiting log hrun =>
    rcases nameTarget_eq_ok hrun with ⟨-, -, -, rfl⟩ | ⟨w, x, -, -, -, rfl⟩ <;> exact hc.texts
  | enter ledger waiting log params hrun =>
    rcases functionName_eq_ok hrun with ⟨-, -, rfl⟩ | ⟨k, -, -, rfl⟩ <;> exact hc.texts
  | leave s page waiting log _ => exact hc.texts
  | begin s ledger waiting log => exact hc.texts
  | finish s t ledger root waiting log => exact hc.texts

/-- What is logged of a name that is read is true. -/
theorem reads_of_step {c d : Audit} (h : Step c d) (hc : c.Sound) {k : String} {v : Variable}
    {depth : Nat} {r : Record} (hmem : .read k v depth r ∈ d.log)
    (hnew : .read k v depth r ∉ c.log) : ∃ params, r.Describes params k v ∧ d.Knows params := by
  cases h with
  | read ledger waiting log hrun hfound =>
    rcases List.mem_append.1 hmem with hold | hlast
    · exact absurd hold hnew
    · cases List.mem_singleton.1 hlast
      obtain ⟨hread, hlookup, -⟩ := hc.current.read hc.texts hrun
      obtain ⟨_, _, params, hfound', hparams, hr, -⟩ := hread.exists_find? hlookup
      cases hfound.symm.trans hfound'
      exact ⟨params, hr, .current hparams⟩
  | idle | enter | begin | finish => exact absurd hmem hnew
  | store | leave =>
    rcases List.mem_append.1 hmem with hold | hlast
    · exact absurd hold hnew
    · cases List.mem_singleton.1 hlast

theorem sound_of_step {c d : Audit} (h : Step c d) (hc : c.Sound) : d.Sound where
  current := by
    cases h with
    | idle ledger waiting log lines hscopes _ _ _ => exact hscopes ▸ hc.current
    | read ledger waiting log hrun _ => exact (hc.current.read hc.texts hrun).1
    | @store s t ledger waiting log loc k v place hrun =>
      show Ledger.Describes _ t.scopes
      exact hc.current.store hrun
    | enter ledger waiting log params hrun => exact hc.current.entering params hrun
    | leave s page waiting log hne => exact hc.current.leave hne
    | begin s ledger waiting log => exact .start
    | finish s t ledger root waiting log =>
      exact (hc.waiting _ List.mem_cons_self).adopt hc.current.root_of_singleton
  waiting := by
    cases h with
    | begin s ledger waiting log => exact List.forall_mem_cons.2 ⟨hc.current, hc.waiting⟩
    | finish s t ledger root waiting log => exact (List.forall_mem_cons.1 hc.waiting).2
    | _ => exact hc.waiting
  texts := texts_of_step h hc
  code := code_of_step h hc.code
  reads {k v depth r} hmem := by
    by_cases hold : .read k v depth r ∈ c.log
    · obtain ⟨params, hr, hparams⟩ := hc.reads hold
      exact ⟨params, hr, hparams.step h hc⟩
    · exact reads_of_step h hc hmem hold

/-- The ledger and the log are true in every audit that can come about. -/
theorem sound_of_reached {c : Audit} (h : Reached c) : c.Sound := by
  induction h with
  | refl => exact sound_start
  | tail _ hstep ih => exact sound_of_step hstep ih

end Audit

/-! ## Whole compilations -/

/-- The state in which the compilation of a source ends, if it succeeds. -/
def Options.state? (options : Options) (files : String → Except IoError String) (source : String) :
    Option State := do
  let program ← (readUnit options.folding source).toOption
  match generate (options.env .standard files) source program {} with
  | .error _ _ => none
  | .ok _ s => some s

theorem Options.state?_eq_some {options : Options} {files : String → Except IoError String}
    {source : String} {t : State} (h : options.state? files source = some t) :
    ∃ program, readUnit options.folding source = .ok program ∧
      generate (options.env .standard files) source program {} = .ok () t ∧
      compileSource files options source = .ok t.script := by
  unfold state? at h
  unfold compileSource
  cases hread : readUnit options.folding source with
  | error e => simp [hread, Except.toOption] at h
  | ok program =>
    cases hgenerate : generate (options.env .standard files) source program {} with
    | error e u => simp [hread, hgenerate, Except.toOption] at h
    | ok _ u =>
      obtain rfl : u = t := by simpa [hread, hgenerate, Except.toOption] using h
      exact ⟨program, rfl, hgenerate, by simp [bind, Except.bind, hgenerate, pure, Except.pure]⟩

/-- The audit is one of the compilation of this source to this script, from its beginning to its
end. -/
structure Audit.IsOf (c : Audit) (files : String → Except IoError String) (options : Options)
    (source script : String) : Prop where
  reached : c.Reached
  generated : ∃ program, readUnit options.folding source = .ok program ∧
    generate (options.env .standard files) source program {} = .ok () c.state
  script : script = c.state.script
  /-- All units that were included have ended, and the scopes of all functions are closed. -/
  ended : c.waiting = [] ∧ c.ledger.opened = [[]]
  /-- The log has an entry for each node that reads a name, assigns to one or binds parameters. -/
  log : List.Forall₂ (·.isOf ·) c.log ((options.evaluation files source).filter Node.isLogged)

/-- Every compilation that succeeds can be audited, and whatever reference to an argument stands on a
line of code is that of a read in the log. -/
theorem exists_audit {files : String → Except IoError String} {options : Options}
    {source script : String} (hcompile : compileSource files options source = .ok script) :
    ∃ c : Audit, c.IsOf files options source script ∧ Covers c.log c.state.segments.code := by
  obtain ⟨program, t, hread, hgenerate, hscript⟩ := compileSource_eq_ok hcompile
  let setup : Setup :=
    { registry := .standard, files, folding := options.folding, limit := options.limit }
  have hstart : Audit.discipline.Holds {} {} :=
    ⟨⟨State.WellScoped.initial, List.cons_ne_nil _ _, nofun⟩, nofun⟩
  obtain ⟨⟨ledger, waiting, log⟩, hfollows, -⟩ := Audit.lawful.generate setup rfl hstart hgenerate
  obtain rfl : waiting = [] := hfollows.waiting
  obtain ⟨events, hlog, hevents⟩ := hfollows.log
  obtain rfl : log = events := hlog
  refine ⟨⟨t, ledger, [], log⟩, ⟨hfollows.steps, ⟨program, hread, hgenerate⟩, hscript,
    ⟨rfl, hfollows.opened⟩, ?_⟩, hfollows.covers⟩
  have hnodes : options.evaluation files source =
      setup.evaluation options.limit options.base program := by
    simp [Options.evaluation, hread, setup]
  rw [hnodes]
  exact hevents

namespace Audit.IsOf

variable {c : Audit} {files : String → Except IoError String} {options : Options}
  {source script : String}

/-- The lines that set variables of the user's are those that are logged. -/
theorem stored (h : c.IsOf files options source script) :
    c.state.segments.code.filter Line.setsUser =
      (c.log.filterMap Event.line?).filter Line.setsUser := by
  have hcode := (sound_of_reached h.reached).code
  unfold Audit.code at hcode
  rw [h.ended.1] at hcode
  exact hcode

/-- Each entry of the log is one for a node of the program. -/
theorem exists_node (h : c.IsOf files options source script) {event : Event}
    (hmem : event ∈ c.log) : ∃ n ∈ options.evaluation files source, event.isOf n := by
  have hlog := h.log
  suffices hfilter : ∃ n ∈ (options.evaluation files source).filter Node.isLogged, event.isOf n by
    obtain ⟨n, hn, hof⟩ := hfilter
    exact ⟨n, List.mem_of_mem_filter hn, hof⟩
  generalize (options.evaluation files source).filter Node.isLogged = nodes at hlog
  generalize c.log = log at hlog hmem
  induction hlog with
  | nil => cases hmem
  | cons hfirst _ ih =>
    rcases List.mem_cons.1 hmem with rfl | hrest
    · exact ⟨_, List.mem_cons_self, hfirst⟩
    · obtain ⟨n, hn, hof⟩ := ih hrest
      exact ⟨n, List.mem_cons_of_mem _ hn, hof⟩

/-- A name that is read stands for a variable that its record describes. The parameters of its scope
are those of a function of the program. -/
theorem read (h : c.IsOf files options source script) {k : String} {v : Variable} {d : Nat}
    {r : Record} (hmem : .read k v d r ∈ c.log) :
    ∃ params, r.Describes params k v ∧ (params = [] ∨
      ∃ l name body, Node.function l name params body ∈ options.evaluation files source) := by
  obtain ⟨params, hr, hparams⟩ := (sound_of_reached h.reached).reads hmem
  refine ⟨params, hr, ?_⟩
  cases hparams with
  | root hnone => exact .inl hnone
  | current hopen =>
    rw [h.ended.2] at hopen
    exact .inl (List.mem_singleton.1 hopen)
  | waiting hunit _ =>
    rw [h.ended.1] at hunit
    cases hunit
  | closed hclosed =>
    obtain ⟨n, hn, hof⟩ := h.exists_node hclosed
    obtain ⟨l, name, body, rfl⟩ := Event.eq_of_isOf_function hof
    exact .inr ⟨l, name, body, hn⟩

end Audit.IsOf

end BatchCompiler
