/-
# BatchCompiler.Proofs.Ledger -- where the variables of the language come from

Scopes say what a name stands for, but not how it came to stand for it: which parameter of which
function it is, or which lines have assigned to it. A `Ledger` keeps this beside the scopes, a page
for each scope and a record for each binding, and follows what generation does to the scopes by rules
of its own. `Ledger.Describes` says that it is true of the scopes: it has a record for each binding,
and the record fits the variable. Reading a name, assigning to one, entering a function, leaving it
and taking over the names of another unit keep it so.
-/

import Mathlib.Data.List.Forall2
import BatchCompiler.Proofs.Discipline

namespace BatchCompiler

open Gen

/-! ## Records -/

/-- How a binding came about. -/
inductive Origin where
  /-- The parameter at this place among those of a function. -/
  | parameter (params : List String) (index : Nat)
  | function
  | builtin
  /-- The name was assigned to, by this line, while no scope bound it. -/
  | assignment (line : Line)
  deriving DecidableEq, Repr

/-- What has happened to a binding. -/
structure Record where
  origin : Origin
  /-- The lines that have assigned to the variable since it was bound. -/
  later : List Line := []
  deriving DecidableEq, Repr

/-- All the lines that have assigned to the variable. -/
def Record.lines (r : Record) : List Line :=
  match r.origin with
  | .assignment line => line :: r.later
  | _ => r.later

/-- The records of a scope, in the order of its bindings. -/
abbrev Records := List (String × Record)

/-- The records with that of one name replaced, or added. -/
def Records.set (k : String) (r : Record) : Records → Records
  | [] => [(k, r)]
  | (other, q) :: rest => if other = k then (k, r) :: rest else (other, q) :: set k r rest

/-! ## Ledgers -/

/-- What is recorded of a scope. -/
structure Page where
  /-- The parameters of the function whose scope this is. The root scope has none. -/
  params : List String := []
  records : Records := []
  deriving DecidableEq, Repr

def Page.set (k : String) (r : Record) (page : Page) : Page :=
  { page with records := page.records.set k r }

/-- A page for each open scope, the innermost first. -/
abbrev Ledger := List Page

namespace Ledger

/-- The record of a name in the innermost scope that binds it, and how many scopes further out that
scope is. -/
def find? (k : String) : Ledger → Option (Nat × Record)
  | [] => none
  | page :: outer =>
    match page.records.lookup k with
    | some r => some (0, r)
    | none => (find? k outer).map fun (d, r) => (d + 1, r)

/-- A name is bound in the innermost scope. -/
def bind (k : String) (r : Record) (ledger : Ledger) : Ledger := ledger.modify 0 (Page.set k r)

/-- A name is read. Where no scope binds it, it is bound to a builtin. -/
def read (k : String) (ledger : Ledger) : Ledger :=
  if (ledger.find? k).isSome then ledger else ledger.bind k { origin := .builtin }

/-- A line assigns to a name. Where no scope binds it, this binds it. -/
def store (k : String) (line : Line) (ledger : Ledger) : Ledger :=
  match ledger.find? k with
  | none => ledger.bind k { origin := .assignment line }
  | some (d, r) => ledger.modify d (Page.set k { r with later := r.later ++ [line] })

/-- The parameters are bound, from the one at this place on. -/
def bindParams (params : List String) : Nat → List String → Ledger → Ledger
  | _, [], ledger => ledger
  | i, k :: rest, ledger =>
    bindParams params (i + 1) rest (ledger.bind k { origin := .parameter params i })

/-- A function is bound to its name, if it has one, and the scope of its body is opened. -/
def enter (name : Option String) (params : List String) (ledger : Ledger) : Ledger :=
  bindParams params 0 params
    ({ params } :: name.elim ledger fun k => ledger.bind k { origin := .function })

/-- The names of another unit's root scope are taken over. -/
def adopt (ledger : Ledger) (root : Page) : Ledger :=
  root.records.foldl (fun ledger (k, r) => ledger.bind k r) ledger

end Ledger

/-! ## Open scopes -/

namespace Ledger

variable {ledger : Ledger} {k : String}

/-- The parameters of the functions whose scopes are open. -/
abbrev opened (ledger : Ledger) : List (List String) := ledger.map Page.params

theorem opened_modify (d : Nat) (r : Record) (ledger : Ledger) :
    opened (ledger.modify d (Page.set k r)) = ledger.opened := by
  induction ledger generalizing d with
  | nil => simp
  | cons page outer ih =>
    cases d with
    | zero => simp [Page.set]
    | succ d => simpa using ih d

@[simp] theorem opened_bind (r : Record) (ledger : Ledger) :
    opened (ledger.bind k r) = ledger.opened := opened_modify 0 r ledger

@[simp] theorem opened_read (ledger : Ledger) : opened (ledger.read k) = ledger.opened := by
  unfold read
  split
  · rfl
  · exact opened_bind _ _

@[simp] theorem opened_store (line : Line) (ledger : Ledger) :
    opened (ledger.store k line) = ledger.opened := by
  unfold store
  split
  · exact opened_bind _ _
  · exact opened_modify _ _ _

@[simp] theorem opened_bindParams (params : List String) (i : Nat) (rest : List String)
    (ledger : Ledger) : opened (bindParams params i rest ledger) = ledger.opened := by
  induction rest generalizing i ledger with
  | nil => rfl
  | cons k rest ih => simp only [bindParams, ih, opened_bind]

@[simp] theorem opened_enter (name : Option String) (params : List String) (ledger : Ledger) :
    opened (ledger.enter name params) = params :: ledger.opened := by
  unfold enter
  rw [opened_bindParams, opened, List.map_cons]
  cases name with
  | none => rfl
  | some k => simp only [Option.elim, opened_bind]

@[simp] theorem opened_adopt (ledger : Ledger) (root : Page) :
    opened (ledger.adopt root) = ledger.opened := by
  unfold adopt
  induction root.records generalizing ledger with
  | nil => rfl
  | cons entry rest ih => rw [List.foldl_cons, ih, opened_bind]

theorem lookup_set (k : String) (r : Record) (records : Records) :
    (records.set k r).lookup k = some r := by
  induction records with
  | nil => simp [Records.set]
  | cons entry rest ih =>
    obtain ⟨other, q⟩ := entry
    unfold Records.set
    split
    · simp
    next h => simpa [List.lookup_cons, beq_eq_false_iff_ne.2 (Ne.symm h)] using ih

/-- A name that has been read has a record. -/
theorem exists_find?_read (hledger : ledger ≠ []) (k : String) :
    ∃ d r, (ledger.read k).find? k = some (d, r) := by
  unfold read
  split
  next h =>
    obtain ⟨⟨d, r⟩, hfound⟩ := Option.isSome_iff_exists.1 h
    exact ⟨d, r, hfound⟩
  · obtain ⟨page, outer, rfl⟩ := List.exists_cons_of_ne_nil hledger
    exact ⟨0, { origin := .builtin }, by simp [bind, find?, Page.set, lookup_set]⟩

end Ledger

/-! ## What the ledger says of the scopes -/

/-- A binding that came about so binds the name to this variable. -/
inductive Origin.Declares (params : List String) (k : String) : Origin → Variable → Prop
  | parameter {i : Nat} : params[i]? = some k →
    Declares params k (.parameter params i) (.slot (i + 2) .text)
  | function : Declares params k .function (.named (.user k) .text)
  | builtin (x : Name) : Declares params k .builtin (.named x .text)
  /-- The variable has the type of the value that was assigned first. -/
  | assignment (o : Operand) :
    Declares params k (.assignment (assignLine (.var (.user k)) o)) (.named (.user k) o.valueType)

/-- The record is that of a name bound to this variable, in a scope with these parameters. -/
structure Record.Describes (params : List String) (k : String) (r : Record) (v : Variable) : Prop where
  origin : r.origin.Declares params k v
  later : ∀ line ∈ r.later, ∃ x o, v.storage = .named x ∧ line = assignLine (.var x) o

/-- The records are those of a scope with these parameters, one by one. -/
abbrev Records.Describe (params : List String) (records : Records) (scope : Bindings) : Prop :=
  List.Forall₂ (fun (entry : String × Record) (binding : String × Variable) =>
    entry.1 = binding.1 ∧ entry.2.Describes params binding.1 binding.2) records scope

/-- The record of a name in a root scope, which has no parameters, is one for any scope. -/
theorem Record.Describes.of_root {k : String} {r : Record} {v : Variable} (h : r.Describes [] k v)
    (params : List String) : r.Describes params k v := by
  refine ⟨?_, h.later⟩
  obtain ⟨horigin, -⟩ := h
  generalize r.origin = origin at horigin
  cases horigin with
  | parameter hi => simp at hi
  | function => exact .function
  | builtin x => exact .builtin x
  | assignment o => exact .assignment o

namespace Records.Describe

variable {params : List String} {records : Records} {scope : Bindings} {k : String} {r : Record}
  {v : Variable}

theorem set (h : records.Describe params scope) (hr : r.Describes params k v) :
    (records.set k r).Describe params (scope.set k v) := by
  induction h with
  | nil => exact .cons ⟨rfl, hr⟩ .nil
  | @cons entry binding _ _ hfirst hrest ih =>
    obtain ⟨x, q⟩ := entry
    obtain ⟨y, w⟩ := binding
    obtain ⟨rfl : x = y, hq⟩ := hfirst
    simp only [Records.set, Bindings.set]
    split
    · exact .cons ⟨rfl, hr⟩ hrest
    · exact .cons ⟨rfl, hq⟩ ih

/-- A name has a record exactly if it is bound, and the record may be replaced by another one for the
same variable. -/
theorem lookup (h : records.Describe params scope) (k : String) :
    (records.lookup k = none ∧ scope.get? k = none) ∨
    ∃ r v, records.lookup k = some r ∧ scope.get? k = some v ∧ r.Describes params k v ∧
      ∀ q : Record, q.Describes params k v → (records.set k q).Describe params scope := by
  induction h with
  | nil => exact .inl ⟨rfl, rfl⟩
  | @cons entry binding records scope hfirst hrest ih =>
    obtain ⟨x, q⟩ := entry
    obtain ⟨y, w⟩ := binding
    obtain ⟨rfl : x = y, hq⟩ := hfirst
    simp only [Records.set, Bindings.get?, List.lookup_cons] at ih ⊢
    by_cases hx : x = k
    · subst hx
      simp only [beq_self_eq_true, if_true]
      exact .inr ⟨q, w, rfl, rfl, hq, fun q' hq' => .cons ⟨rfl, hq'⟩ hrest⟩
    · simp only [beq_eq_false_iff_ne.2 (Ne.symm hx), if_neg hx]
      refine ih.imp_right ?_
      rintro ⟨r, v, hlookup, hget, hr, hset⟩
      exact ⟨r, v, hlookup, hget, hr, fun q' hq' => .cons ⟨rfl, hq⟩ (hset q' hq')⟩

end Records.Describe

/-- The page is that of the scope. -/
abbrev Page.Describes (page : Page) (scope : Bindings) : Prop :=
  page.records.Describe page.params scope

/-- The pages are those of the open scopes, and the last one is that of the root scope. -/
structure Ledger.Describes (ledger : Ledger) (scopes : ScopeChain) : Prop where
  pages : List.Forall₂ Page.Describes ledger scopes.opened
  root : ledger.opened.getLast? = some []

theorem ScopeChain.opened_declare (chain : ScopeChain) (k : String) (v : Variable) :
    (chain.declare k v).opened = chain.opened.modify 0 (Bindings.set k v) := by
  obtain ⟨root, nested⟩ := chain
  cases nested <;> simp [opened, declare]

theorem ScopeChain.opened_leave {chain : ScopeChain} {first second : Bindings} {rest : List Bindings}
    (h : chain.opened = first :: second :: rest) : chain.leave.opened = second :: rest := by
  obtain ⟨root, nested⟩ := chain
  cases nested with
  | nil => simp [opened] at h
  | cons scope outer =>
    simp only [opened, List.cons_append, List.cons.injEq] at h
    exact h.2

/-- All builtins that have been set up are texts that are kept under a name. -/
def Shared.HoldsTexts (shared : Shared) : Prop :=
  ∀ k v, shared.emitted.get? k = some v → ∃ x, v = .named x .text

namespace Ledger.Describes

variable {ledger : Ledger} {scopes : ScopeChain} {k : String} {r : Record} {v : Variable}

theorem start : Ledger.Describes [{}] {} := ⟨.cons .nil .nil, rfl⟩

/-- A name has a record on one of the pages exactly if one of the scopes binds it. -/
theorem find?_cases {opened : List Bindings} (h : List.Forall₂ Page.Describes ledger opened)
    (k : String) :
    (ledger.find? k = none ∧ opened.findSome? (·.get? k) = none) ∨
    ∃ d r v params, ledger.find? k = some (d, r) ∧ opened.findSome? (·.get? k) = some v ∧
      params ∈ ledger.opened ∧ r.Describes params k v ∧
      ∀ q : Record, q.Describes params k v →
        List.Forall₂ Page.Describes (ledger.modify d (Page.set k q)) opened := by
  induction h with
  | nil => exact .inl ⟨rfl, rfl⟩
  | @cons page scope outer opened hpage houter ih =>
    rw [Ledger.find?, List.findSome?_cons]
    rcases hpage.lookup k with ⟨hlookup, hget⟩ | ⟨r, v, hlookup, hget, hr, hset⟩
    · simp only [hlookup, hget]
      rcases ih with ⟨hnone, hnone'⟩ | ⟨d, r, v, params, hfound, hfound', hparams, hr, hmodify⟩
      · exact .inl ⟨by simp [hnone], hnone'⟩
      · refine .inr ⟨d + 1, r, v, params, by simp [hfound], hfound',
          List.mem_cons_of_mem _ hparams, hr, fun q hq => ?_⟩
        rw [List.modify_succ_cons]
        exact .cons hpage (hmodify q hq)
    · simp only [hlookup, hget]
      refine .inr ⟨0, r, v, page.params, rfl, rfl, List.mem_cons_self, hr, fun q hq => ?_⟩
      rw [List.modify_zero_cons]
      exact .cons (hset q hq) houter

theorem find?_eq_none (h : ledger.Describes scopes) (hnone : scopes.lookup k = none) :
    ledger.find? k = none := by
  rcases find?_cases h.pages k with ⟨hfound, -⟩ | ⟨_, _, _, _, -, hsome, -⟩
  · exact hfound
  · cases hnone.symm.trans hsome

/-- The record of a name is on the page of the scope that binds it, and may be replaced there by
another one for the same variable. -/
theorem exists_find? (h : ledger.Describes scopes) (hv : scopes.lookup k = some v) :
    ∃ d r params, ledger.find? k = some (d, r) ∧ params ∈ ledger.opened ∧ r.Describes params k v ∧
      ∀ q : Record, q.Describes params k v →
        Ledger.Describes (ledger.modify d (Page.set k q)) scopes := by
  rcases find?_cases h.pages k with ⟨-, hnone⟩ | ⟨d, r, w, params, hfound, hw, hparams, hr, hmodify⟩
  · cases hv.symm.trans hnone
  · obtain rfl : v = w := Option.some.inj (hv.symm.trans hw)
    refine ⟨d, r, params, hfound, hparams, hr, fun q hq => ⟨hmodify q hq, ?_⟩⟩
    rw [opened_modify]
    exact h.root

/-- A page alone is that of the root scope. -/
theorem root_of_singleton {page : Page} (h : Ledger.Describes [page] scopes) :
    page.records.Describe [] scopes.root := by
  obtain ⟨hpages, hroot⟩ := h
  obtain ⟨root, nested⟩ := scopes
  have hparams : page.params = [] := by simpa using hroot
  have hlength := hpages.length_eq
  obtain rfl : nested = [] := by simpa [ScopeChain.opened] using hlength
  obtain ⟨hpage, -⟩ := List.forall₂_cons.1 hpages
  exact hparams ▸ hpage

theorem bind (h : ledger.Describes scopes)
    (hr : ∀ params ∈ ledger.opened.head?, r.Describes params k v) :
    Ledger.Describes (ledger.bind k r) (scopes.declare k v) := by
  obtain ⟨hpages, hroot⟩ := h
  constructor
  · rw [ScopeChain.opened_declare]
    unfold Ledger.bind
    generalize scopes.opened = opened at hpages
    cases hpages with
    | nil => exact .nil
    | cons hpage houter => exact .cons (hpage.set (hr _ rfl)) houter
  · rw [opened_bind]
    exact hroot

theorem enter (h : ledger.Describes scopes) (params : List String) :
    Ledger.Describes ({ params } :: ledger) scopes.enter where
  pages := .cons .nil h.pages
  root := by
    show (params :: ledger.opened).getLast? = _
    rw [List.getLast?_cons, h.root]
    rfl

theorem leave {page : Page} (h : Ledger.Describes (page :: ledger) scopes) (hne : ledger ≠ []) :
    ledger.Describes scopes.leave := by
  obtain ⟨second, outer, rfl⟩ := List.exists_cons_of_ne_nil hne
  obtain ⟨hpages, hroot⟩ := h
  generalize hopened : scopes.opened = opened at hpages
  obtain _ | ⟨-, hrest⟩ := hpages
  constructor
  · cases hrest with
    | cons hsecond houter =>
      rw [ScopeChain.opened_leave hopened]
      exact .cons hsecond houter
  · simpa using hroot

theorem bindParams {params : List String} (h : ledger.Describes scopes)
    (hhead : ledger.opened.head? = some params) {i : Nat} {rest : List String}
    (hrest : params.drop i = rest) :
    Ledger.Describes (Ledger.bindParams params i rest ledger) (scopes.declareSlots (i + 2) rest) := by
  induction rest generalizing ledger scopes i with
  | nil => exact h
  | cons k rest ih =>
    have hk : params[i]? = some k := by
      rw [← List.head?_drop, hrest]
      rfl
    refine ih (i := i + 1) (h.bind fun ps hps => ?_) ?_ ?_
    · rw [hhead] at hps
      obtain rfl : params = ps := by simpa using hps
      exact ⟨.parameter hk, nofun⟩
    · rw [opened_bind]
      exact hhead
    · rw [← List.drop_drop, hrest]
      rfl

theorem adopt {root : Page} {exports : Bindings} (h : ledger.Describes scopes)
    (hroot : root.records.Describe [] exports) :
    Ledger.Describes (ledger.adopt root) (scopes.declareAll exports) := by
  unfold Ledger.adopt ScopeChain.declareAll
  generalize root.records = records at hroot
  induction hroot generalizing ledger scopes with
  | nil => exact h
  | @cons entry binding _ _ hfirst _ ih =>
    obtain ⟨k, r⟩ := entry
    obtain ⟨k', v⟩ := binding
    obtain ⟨rfl : k = k', hr⟩ := hfirst
    exact ih (h.bind fun params _ => hr.of_root params)

/-- After a name has been read, it stands for a variable that its record describes. -/
theorem read {s t : State} {loc : Nat} (h : ledger.Describes s.scopes) (hs : s.shared.HoldsTexts)
    (hrun : resolve .standard loc k s = .ok v t) :
    Ledger.Describes (ledger.read k) t.scopes ∧ t.scopes.lookup k = some v ∧
      t.shared.HoldsTexts := by
  -- Where no scope binds the name, reading it binds it to a builtin.
  have hnew : ∀ x, s.scopes.lookup k = none →
      Ledger.Describes (ledger.read k) (s.scopes.declare k (.named x .text)) := by
    intro x hnone
    unfold Ledger.read
    rw [h.find?_eq_none hnone]
    exact h.bind fun _ _ => ⟨.builtin x, nofun⟩
  rcases resolve_eq_ok hrun with ⟨hv, rfl⟩ | ⟨hnone, hv, rfl⟩ | ⟨rfl, hnone, -, rfl, rfl⟩
  · obtain ⟨d, r, params, hfound, -⟩ := h.exists_find? hv
    have hread : ledger.read k = ledger := by simp [Ledger.read, hfound]
    rw [hread]
    exact ⟨h, hv, hs⟩
  · obtain ⟨x, rfl⟩ := hs k _ hv
    refine ⟨hnew x hnone, ?_, hs⟩
    exact (s.scopes.lookup_declare k k _).trans (if_pos rfl)
  · refine ⟨hnew _ hnone, (s.scopes.lookup_declare _ _ _).trans (if_pos rfl), ?_⟩
    intro k w hw
    have hset : (s.shared.emitted.set "process" (.named s.freshTemp.1 .text)).get? k = some w := hw
    rw [Bindings.get?_set] at hset
    split at hset
    · exact ⟨_, (Option.some.inj hset).symm⟩
    · exact hs k w hset

/-- A line that assigns to a name is recorded with the variable that the name stands for. -/
theorem store {s t : State} {loc : Nat} {o : Operand} {place : Target}
    (h : ledger.Describes s.scopes) (hrun : nameTarget loc k o.valueType s = .ok place t) :
    Ledger.Describes (ledger.store k (assignLine place o)) t.scopes := by
  unfold Ledger.store
  rcases nameTarget_eq_ok hrun with ⟨hnone, -, rfl, rfl⟩ | ⟨w, x, hw, hx, rfl, rfl⟩
  · rw [h.find?_eq_none hnone]
    exact h.bind fun _ _ => ⟨.assignment o, nofun⟩
  · obtain ⟨d, r, params, hfound, -, hr, hmodify⟩ := h.exists_find? hw
    rw [hfound]
    refine hmodify _ ⟨hr.origin, fun line hline => ?_⟩
    rcases List.mem_append.1 hline with hline | hline
    · exact hr.later line hline
    · obtain rfl := List.mem_singleton.1 hline
      exact ⟨x, o, hx, rfl⟩

theorem entering {s t : State} {loc : Nat} {name : Option String} {f : Name} (params : List String)
    (h : ledger.Describes s.scopes) (hrun : functionName loc name s = .ok f t) :
    Ledger.Describes (ledger.enter name params) (t.entering f params).scopes := by
  rcases functionName_eq_ok hrun with ⟨rfl, -, rfl⟩ | ⟨k, rfl, -, rfl⟩
  · exact (h.enter params).bindParams rfl rfl
  · have hbound : Ledger.Describes (ledger.bind k { origin := .function })
        (s.scopes.declare k (.named (.user k) .text)) := h.bind fun _ _ => ⟨.function, nofun⟩
    exact (hbound.enter params).bindParams rfl rfl

end Ledger.Describes

end BatchCompiler
