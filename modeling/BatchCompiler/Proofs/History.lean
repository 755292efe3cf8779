/-
# BatchCompiler.Proofs.History -- what a chain of scopes keeps of its history

A chain of scopes is the result of steps that open a scope, close one or declare a name. What it has
to hold can be read off the steps alone. A scope that was opened by some step is open as long as no
more scopes have been closed than opened since (`IsOpen`), a declaration belongs to the scope that
was innermost when it was made (`DeclaredAt`), and a later declaration of the name in that scope takes
its place (`Latest`). Scopes are told apart by the position of the step that opened them, so a scope
is inside of another one exactly if its position is greater.

The chain is followed step by step, each added behind the history. Its scopes are those that are
open, in this order, and each holds the latest declarations made in it (`Describes`). What is kept
to know which scope a step closes is that as many scopes have been opened and not closed since a
scope was opened as there are scopes inside of it (`Opened.inside_eq`).
-/

import Mathlib.Order.Bounds.Basic
import Mathlib.Order.ConditionallyCompleteLattice.Basic
import Mathlib.Order.Lattice.Nat
import Mathlib.Order.WithBot
import BatchCompiler.Proofs.Isolation

namespace BatchCompiler

/-! ## Histories -/

/-- What is done to a chain of scopes. -/
inductive ScopeStep where
  | enter
  | leave
  | declare (name : String) (v : Variable)
  deriving DecidableEq, Repr

/-- The chain after the step. -/
def ScopeStep.run (chain : ScopeChain) : ScopeStep → ScopeChain
  | enter => chain.enter
  | leave => chain.leave
  | declare name v => chain.declare name v

/-- The steps that were taken, the first one first. -/
abbrev ScopeHistory := List ScopeStep

/-- The chain after the steps. -/
def ScopeChain.after (chain : ScopeChain) (h : ScopeHistory) : ScopeChain :=
  h.foldl ScopeStep.run chain

theorem ScopeChain.after_append (chain : ScopeChain) (h h' : ScopeHistory) :
    chain.after (h ++ h') = (chain.after h).after h' := List.foldl_append

namespace ScopeHistory

/-- At no point have more scopes been closed than opened, so what was open before still is. -/
def KeepsOpen (h : ScopeHistory) : Prop := ∀ p ∈ h.inits, p.count .leave ≤ p.count .enter

instance : DecidablePred KeepsOpen := fun h =>
  inferInstanceAs (Decidable (∀ p ∈ h.inits, p.count .leave ≤ p.count .enter))

/-- The scope is open after the history. It is known by the position of the step that opened it, and
the root, which is always open, by `⊥`. -/
def IsOpen (h : ScopeHistory) (s : WithBot ℕ) : Prop :=
  ∀ i, s = .some i → h[i]? = some .enter ∧ KeepsOpen (h.drop (i + 1))

/-- The scope is the innermost one of those that are open. -/
def IsInnermost (h : ScopeHistory) (s : WithBot ℕ) : Prop := IsGreatest {t | IsOpen h t} s

/-- The step at the position declared the name in the scope. -/
def DeclaredAt (h : ScopeHistory) (s : WithBot ℕ) (name : String) (v : Variable) (j : ℕ) : Prop :=
  h[j]? = some (.declare name v) ∧ IsInnermost (h.take j) s

/-- The name was declared in the scope. -/
def Declares (h : ScopeHistory) (s : WithBot ℕ) (name : String) : Prop :=
  ∃ v j, DeclaredAt h s name v j

/-- The variable is that of the latest declaration of the name in the scope. -/
def Latest (h : ScopeHistory) (s : WithBot ℕ) (name : String) (v : Variable) : Prop :=
  ∃ j, DeclaredAt h s name v j ∧ ∀ k w, DeclaredAt h s name w k → k ≤ j

/-! ## Open scopes -/

theorem keepsOpen_nil : KeepsOpen [] := by decide

theorem KeepsOpen.count_le {h : ScopeHistory} (hopen : KeepsOpen h) :
    h.count .leave ≤ h.count .enter :=
  hopen h ((List.mem_inits h h).2 List.prefix_rfl)

theorem keepsOpen_concat {h : ScopeHistory} {step : ScopeStep} :
    KeepsOpen (h ++ [step]) ↔
      KeepsOpen h ∧ (step = .leave → h.count .leave < h.count .enter) := by
  have hsplit : KeepsOpen (h ++ [step]) ↔
      KeepsOpen h ∧ (h ++ [step]).count .leave ≤ (h ++ [step]).count .enter := by
    simp only [KeepsOpen, List.mem_inits, List.prefix_concat_iff]
    constructor
    · intro hp
      exact ⟨fun p hprefix => hp p (.inr hprefix), hp _ (.inl rfl)⟩
    · rintro ⟨hold, hlast⟩ p (rfl | hprefix)
      · exact hlast
      · exact hold p hprefix
  rw [hsplit, List.count_append, List.count_append]
  refine and_congr_right fun hopen => ?_
  have hle := hopen.count_le
  cases step with
  | enter => simpa using Nat.le_succ_of_le hle
  | leave => exact ⟨fun hlt _ => hlt, fun hlt => hlt rfl⟩
  | declare name v => simpa using hle

@[simp] theorem isOpen_bot (h : ScopeHistory) : IsOpen h ⊥ := by
  intro i hi
  cases hi

theorem isOpen_coe {h : ScopeHistory} {i : ℕ} :
    IsOpen h (.some i) ↔ h[i]? = some .enter ∧ KeepsOpen (h.drop (i + 1)) := by
  constructor
  · intro hopen
    exact hopen i rfl
  · rintro hopen j hj
    obtain rfl := WithBot.coe_injective hj
    exact hopen

theorem IsOpen.lt {h : ScopeHistory} {i : ℕ} (hopen : IsOpen h (.some i)) : i < h.length :=
  (List.getElem?_eq_some_iff.1 (isOpen_coe.1 hopen).1).1

/-- The root is the innermost scope as long as no other one is open. -/
theorem isInnermost_bot_iff {h : ScopeHistory} : IsInnermost h ⊥ ↔ ∀ i, ¬ IsOpen h (.some i) := by
  constructor
  · intro hbot i hi
    exact absurd (hbot.2 hi) (WithBot.not_coe_le_bot i)
  · intro hnone
    refine ⟨isOpen_bot h, ?_⟩
    intro t ht
    cases t with
    | bot => exact le_rfl
    | coe i => exact absurd ht (hnone i)

/-- How many more scopes were opened than closed behind the step at the position. -/
def inside (h : ScopeHistory) (i : ℕ) : ℕ :=
  (h.drop (i + 1)).count .enter - (h.drop (i + 1)).count .leave

/-- After one more step the scopes are open that were open before, less the innermost if that was
closed, and the one that was opened if one was. -/
theorem isOpen_concat {h : ScopeHistory} {step : ScopeStep} {i : ℕ} :
    IsOpen (h ++ [step]) (.some i) ↔
      (IsOpen h (.some i) ∧ (step = .leave → 0 < inside h i)) ∨ (step = .enter ∧ i = h.length) := by
  rw [isOpen_coe, isOpen_coe]
  rcases Nat.lt_trichotomy i h.length with hlt | rfl | hgt
  · have hsucc : i + 1 ≤ h.length := hlt
    rw [List.getElem?_append_left hlt, List.drop_append_of_le_length hsucc, keepsOpen_concat]
    have hpos : 0 < inside h i ↔
        (h.drop (i + 1)).count .leave < (h.drop (i + 1)).count .enter := Nat.sub_pos_iff_lt
    simp [hpos, Nat.ne_of_lt hlt, and_assoc]
  · have hdrop : (h ++ [step]).drop (h.length + 1) = [] := List.drop_eq_nil_of_le (by simp)
    simp [hdrop, keepsOpen_nil]
  · have hnone : (h ++ [step])[i]? = none := List.getElem?_eq_none (by simp; omega)
    have hnone' : h[i]? = none := List.getElem?_eq_none (Nat.le_of_lt hgt)
    simp [hnone, hnone', Nat.ne_of_gt hgt]

theorem inside_concat {h : ScopeHistory} {i : ℕ} (hopen : IsOpen h (.some i)) (step : ScopeStep) :
    inside (h ++ [step]) i = inside h i + [step].count .enter - [step].count .leave := by
  have hle := (isOpen_coe.1 hopen).2.count_le
  have hsucc : i + 1 ≤ h.length := hopen.lt
  rw [inside, inside, List.drop_append_of_le_length hsucc, List.count_append, List.count_append]
  omega

/-- These are the positions of the scopes that are open, the innermost first, without the root. -/
structure Opened (h : ScopeHistory) (positions : List ℕ) : Prop where
  isOpen_iff {i : ℕ} : IsOpen h (.some i) ↔ i ∈ positions
  sorted : positions.Pairwise (· > ·)
  inside_eq : positions.map (inside h) = List.range positions.length

namespace Opened

variable {h : ScopeHistory} {positions : List ℕ}

theorem start : Opened [] [] where
  isOpen_iff := by
    intro i
    simp [isOpen_coe]
  sorted := List.Pairwise.nil
  inside_eq := rfl

theorem enter (ho : Opened h positions) : Opened (h ++ [.enter]) (h.length :: positions) where
  isOpen_iff := by
    intro i
    rw [isOpen_concat, List.mem_cons, ← ho.isOpen_iff]
    simp [or_comm]
  sorted := List.pairwise_cons.2 ⟨fun _ hi => (ho.isOpen_iff.2 hi).lt, ho.sorted⟩
  inside_eq := by
    have hnew : inside (h ++ [.enter]) h.length = 0 := by simp [inside]
    have hold : positions.map (inside (h ++ [.enter])) =
        (positions.map (inside h)).map (· + 1) := by
      rw [List.map_map]
      exact List.map_congr_left fun i hi => inside_concat (ho.isOpen_iff.2 hi) .enter
    rw [List.map_cons, hnew, hold, ho.inside_eq, List.length_cons, List.range_succ_eq_map]

theorem declare (ho : Opened h positions) (name : String) (v : Variable) :
    Opened (h ++ [.declare name v]) positions where
  isOpen_iff := by
    intro i
    rw [isOpen_concat, ← ho.isOpen_iff]
    simp
  sorted := ho.sorted
  inside_eq := by
    rw [← ho.inside_eq]
    exact List.map_congr_left fun i hi => inside_concat (ho.isOpen_iff.2 hi) (.declare name v)

/-- The scope that is closed is the one with no scope inside of it. -/
theorem leave (ho : Opened h positions) : Opened (h ++ [.leave]) positions.tail := by
  cases positions with
  | nil =>
    refine ⟨?_, .nil, rfl⟩
    intro i
    rw [isOpen_concat, ho.isOpen_iff]
    simp
  | cons innermost outer =>
    have heq := ho.inside_eq
    rw [List.map_cons, List.length_cons, List.range_succ_eq_map, List.cons.injEq] at heq
    obtain ⟨hzero, hrest⟩ := heq
    have hpos : ∀ i ∈ outer, 0 < inside h i := by
      intro i hi
      have hmem : inside h i ∈ (List.range outer.length).map Nat.succ :=
        hrest ▸ List.mem_map_of_mem hi
      obtain ⟨n, -, hn⟩ := List.mem_map.1 hmem
      omega
    refine ⟨?_, (List.pairwise_cons.1 ho.sorted).2, ?_⟩
    · intro i
      rw [isOpen_concat, ho.isOpen_iff, List.mem_cons, List.tail_cons]
      constructor
      · rintro (⟨rfl | hi, hinside⟩ | ⟨hstep, -⟩)
        · exact absurd (hinside rfl) (by omega)
        · exact hi
        · cases hstep
      · intro hi
        exact .inl ⟨.inr hi, fun _ => hpos i hi⟩
    · have hold : outer.map (inside (h ++ [.leave])) = (outer.map (inside h)).map (· - 1) := by
        rw [List.map_map]
        refine List.map_congr_left fun i hi => inside_concat (ho.isOpen_iff.2 ?_) .leave
        exact List.mem_cons_of_mem _ hi
      rw [List.tail_cons, hold, hrest, List.map_map]
      exact List.map_id _

theorem isInnermost_nil (ho : Opened h []) : IsInnermost h ⊥ :=
  isInnermost_bot_iff.2 fun _ hi => List.not_mem_nil (ho.isOpen_iff.1 hi)

theorem isInnermost_cons {innermost : ℕ} {outer : List ℕ} (ho : Opened h (innermost :: outer)) :
    IsInnermost h (.some innermost) := by
  refine ⟨ho.isOpen_iff.2 List.mem_cons_self, ?_⟩
  intro t ht
  cases t with
  | bot => exact bot_le
  | coe i =>
    rcases List.mem_cons.1 (ho.isOpen_iff.1 ht) with rfl | hi
    · exact le_rfl
    · exact WithBot.coe_le_coe.2 (Nat.le_of_lt ((List.pairwise_cons.1 ho.sorted).1 i hi))

/-- The scopes that are open, the innermost first and the root last. -/
def scopes (positions : List ℕ) : List (WithBot ℕ) := positions.map .some ++ [⊥]

theorem mem_scopes (ho : Opened h positions) {t : WithBot ℕ} :
    t ∈ scopes positions ↔ IsOpen h t := by
  cases t with
  | bot => simp [scopes]
  | coe i => simp [scopes, ho.isOpen_iff]

theorem sorted_scopes (ho : Opened h positions) : (scopes positions).Pairwise (· > ·) := by
  refine List.pairwise_append.2 ⟨?_, List.pairwise_singleton _ _, ?_⟩
  · exact List.pairwise_map.2 (ho.sorted.imp WithBot.coe_lt_coe.2)
  · intro t ht u hu
    obtain ⟨i, -, rfl⟩ := List.mem_map.1 ht
    obtain rfl := List.mem_singleton.1 hu
    exact WithBot.bot_lt_coe i

end Opened

/-! ## Declarations -/

theorem DeclaredAt.lt {h : ScopeHistory} {s : WithBot ℕ} {name : String} {v : Variable} {j : ℕ}
    (hd : DeclaredAt h s name v j) : j < h.length :=
  (List.getElem?_eq_some_iff.1 hd.1).1

/-- Nothing is declared in a scope before it is opened. -/
theorem DeclaredAt.opened_lt {h : ScopeHistory} {i : ℕ} {name : String} {v : Variable} {j : ℕ}
    (hd : DeclaredAt h (.some i) name v j) : i < j := by
  have hopen : IsOpen (h.take j) (.some i) := hd.2.1
  exact lt_of_lt_of_le hopen.lt (List.length_take_le j h)

theorem declaredAt_concat {h : ScopeHistory} {step : ScopeStep} {s : WithBot ℕ} {name : String}
    {v : Variable} {j : ℕ} :
    DeclaredAt (h ++ [step]) s name v j ↔
      DeclaredAt h s name v j ∨ (step = .declare name v ∧ j = h.length ∧ IsInnermost h s) := by
  unfold DeclaredAt
  rcases Nat.lt_trichotomy j h.length with hlt | rfl | hgt
  · rw [List.getElem?_append_left hlt, List.take_append_of_le_length (Nat.le_of_lt hlt)]
    simp [Nat.ne_of_lt hlt]
  · simp
  · have hnone : (h ++ [step])[j]? = none := List.getElem?_eq_none (by simp; omega)
    have hnone' : h[j]? = none := List.getElem?_eq_none (Nat.le_of_lt hgt)
    simp [hnone, hnone', Nat.ne_of_gt hgt]

/-- A step that does not declare the name in the scope leaves the latest declaration as it is. -/
theorem latest_concat {h : ScopeHistory} {step : ScopeStep} {s : WithBot ℕ} {name : String}
    (hstep : ∀ v, step = .declare name v → ¬ IsInnermost h s) {v : Variable} :
    Latest (h ++ [step]) s name v ↔ Latest h s name v := by
  have hdeclared : ∀ w k, DeclaredAt (h ++ [step]) s name w k ↔ DeclaredAt h s name w k := by
    intro w k
    rw [declaredAt_concat, or_iff_left]
    rintro ⟨hw, -, hinnermost⟩
    exact hstep w hw hinnermost
  simp only [Latest, hdeclared]

/-- A declaration in the innermost scope is the latest one there. -/
theorem latest_declare {h : ScopeHistory} {s : WithBot ℕ} {name : String} {v w : Variable}
    (hs : IsInnermost h s) : Latest (h ++ [.declare name v]) s name w ↔ w = v := by
  have hnow : DeclaredAt (h ++ [.declare name v]) s name v h.length :=
    declaredAt_concat.2 (.inr ⟨rfl, rfl, hs⟩)
  constructor
  · rintro ⟨j, hj, hlast⟩
    rcases declaredAt_concat.1 hj with hold | ⟨heq, -, -⟩
    · exact absurd hold.lt (Nat.not_lt.2 (hlast _ _ hnow))
    · cases heq
      rfl
  · rintro rfl
    exact ⟨h.length, hnow, fun k u hk => Nat.lt_succ_iff.1 (by simpa using hk.lt)⟩

/-- One of the declarations of a name in a scope is the latest. -/
theorem exists_latest {h : ScopeHistory} {s : WithBot ℕ} {name : String} :
    (∃ v, Latest h s name v) ↔ Declares h s name := by
  constructor
  · rintro ⟨v, j, hj, -⟩
    exact ⟨v, j, hj⟩
  · rintro ⟨v, j, hj⟩
    let declarations : Set ℕ := {k | ∃ w, DeclaredAt h s name w k}
    have hbounded : BddAbove declarations := by
      refine ⟨h.length, ?_⟩
      rintro k ⟨w, hk⟩
      exact Nat.le_of_lt hk.lt
    obtain ⟨w, hw⟩ := Nat.sSup_mem (s := declarations) ⟨j, v, hj⟩ hbounded
    exact ⟨w, _, hw, fun k u hk => le_csSup hbounded ⟨u, hk⟩⟩

/-! ## What the scopes hold -/

/-- The bindings are the latest declarations in the scope. -/
def Holds (h : ScopeHistory) (s : WithBot ℕ) (scope : Bindings) : Prop :=
  ∀ name v, scope.get? name = some v ↔ Latest h s name v

namespace Holds

variable {h : ScopeHistory} {s : WithBot ℕ} {scope : Bindings}

/-- Nothing has been declared in a scope that has just been opened. -/
theorem fresh (h : ScopeHistory) : Holds (h ++ [.enter]) (.some h.length) [] := by
  intro name v
  constructor
  · intro hget
    cases hget
  · rintro ⟨j, hj, -⟩
    have hlast : j < h.length + 1 := by simpa using hj.lt
    exact absurd hj.opened_lt (Nat.not_lt.2 (Nat.lt_succ_iff.1 hlast))

theorem concat (hs : Holds h s scope) {step : ScopeStep}
    (hstep : ∀ name v, step = .declare name v → ¬ IsInnermost h s) :
    Holds (h ++ [step]) s scope := by
  intro name v
  rw [latest_concat (hstep name), hs name v]

theorem declare (hs : Holds h s scope) (hinnermost : IsInnermost h s) (name : String)
    (v : Variable) : Holds (h ++ [.declare name v]) s (scope.set name v) := by
  intro other w
  rw [Bindings.get?_set]
  split
  next heq =>
    subst heq
    rw [latest_declare hinnermost, Option.some.injEq, eq_comm]
  next hne =>
    have hother : ∀ u, ScopeStep.declare name v = .declare other u → ¬ IsInnermost h s := by
      rintro u heq
      cases heq
      exact absurd rfl hne
    rw [latest_concat hother, hs other w]

theorem get?_eq_none (hs : Holds h s scope) (name : String) :
    scope.get? name = none ↔ ¬ Declares h s name := by
  rw [← exists_latest, Option.eq_none_iff_forall_ne_some, not_exists]
  exact forall_congr' fun v => not_congr (hs name v)

end Holds

/-- The scopes of the chain are the open ones, and hold the latest declarations, each name once. -/
structure Describes (h : ScopeHistory) (positions : List ℕ) (chain : ScopeChain) : Prop where
  opened : Opened h positions
  nested : List.Forall₂ (fun i scope => Holds h (.some i) scope) positions chain.nested
  root : Holds h ⊥ chain.root
  distinct : chain.Distinct

namespace Describes

variable {h : ScopeHistory} {positions : List ℕ} {chain : ScopeChain}

theorem start : Describes [] [] {} where
  opened := .start
  nested := .nil
  root := by
    intro name v
    constructor
    · intro hget
      cases hget
    · rintro ⟨j, hj, -⟩
      cases hj.1
  distinct := ScopeChain.distinct_start

theorem enter (hd : Describes h positions chain) :
    Describes (h ++ [.enter]) (h.length :: positions) chain.enter where
  opened := hd.opened.enter
  nested := .cons (.fresh h) (hd.nested.imp fun _ _ hs => hs.concat (by rintro _ _ ⟨⟩))
  root := hd.root.concat (by rintro _ _ ⟨⟩)
  distinct := hd.distinct.enter

theorem leave (hd : Describes h positions chain) :
    Describes (h ++ [.leave]) positions.tail chain.leave where
  opened := hd.opened.leave
  nested := by
    obtain ⟨root, nested⟩ := chain
    have hnested : List.Forall₂ (fun i scope => Holds (h ++ [.leave]) (.some i) scope) positions
        nested := hd.nested.imp fun _ _ hs => hs.concat (by rintro _ _ ⟨⟩)
    cases hnested with
    | nil => exact .nil
    | cons _ houter => exact houter
  root := hd.root.concat (by rintro _ _ ⟨⟩)
  distinct := hd.distinct.leave

/-- A declaration goes to the innermost scope, and the scopes around it hold what they held. -/
theorem declare (hd : Describes h positions chain) (name : String) (v : Variable) :
    Describes (h ++ [.declare name v]) positions (chain.declare name v) := by
  obtain ⟨hopened, hnested, hroot, hdistinct⟩ := hd
  have hopened' := hopened.declare name v
  have hdistinct' := hdistinct.declare name v
  obtain ⟨root, nested⟩ := chain
  cases nested with
  | nil =>
    cases hnested
    exact ⟨hopened', .nil, hroot.declare hopened.isInnermost_nil name v, hdistinct'⟩
  | cons scope scopes =>
    cases hnested with
    | @cons innermost _ outer _ hscope houter =>
      have hinnermost := hopened.isInnermost_cons
      have hlt := (List.pairwise_cons.1 hopened.sorted).1
      refine ⟨hopened', .cons (hscope.declare hinnermost name v) ?_, ?_, hdistinct'⟩
      · refine ((List.forall₂_and_left _ _).2 ⟨hlt, houter⟩).imp ?_
        rintro i scope ⟨hi, hs⟩
        refine hs.concat fun _ _ _ hi' => ?_
        have heq : i = innermost := WithBot.coe_injective (hi'.unique hinnermost)
        omega
      · refine hroot.concat fun _ _ _ hbot => ?_
        cases hbot.unique hinnermost

theorem holds (hd : Describes h positions chain) :
    List.Forall₂ (Holds h) (Opened.scopes positions) chain.opened :=
  List.rel_append (List.forall₂_map_left_iff.2 hd.nested) (.cons hd.root .nil)

/-- There is nothing to close but the root, which stays. -/
theorem leave_eq (hd : Describes h positions chain) (hroot : IsInnermost h ⊥) :
    chain.leave = chain := by
  obtain ⟨root, nested⟩ := chain
  have hnested := hd.nested
  cases nested with
  | nil => rfl
  | cons scope scopes =>
    cases hnested with
    | @cons i =>
      have hopen : IsOpen h (.some i) := hd.opened.isOpen_iff.2 List.mem_cons_self
      exact absurd hopen (isInnermost_bot_iff.1 hroot i)

end Describes

/-- Every history leaves a chain that holds its latest declarations. -/
theorem exists_describes (h : ScopeHistory) :
    ∃ positions, Describes h positions (ScopeChain.after {} h) := by
  induction h using List.reverseRecOn with
  | nil => exact ⟨[], .start⟩
  | append_singleton h step ih =>
    obtain ⟨positions, hd⟩ := ih
    rw [ScopeChain.after_append]
    cases step with
    | enter => exact ⟨_, hd.enter⟩
    | leave => exact ⟨_, hd.leave⟩
    | declare name v => exact ⟨_, hd.declare name v⟩

/-! ## Looking up -/

section Lookup

variable {h : ScopeHistory} {ids : List (WithBot ℕ)} {scopes : List Bindings}

/-- The scopes are searched from the innermost one outwards, so that what is found comes from the
innermost scope that declared the name. -/
theorem findSome?_eq_some_iff (hscopes : List.Forall₂ (Holds h) ids scopes)
    (hsorted : ids.Pairwise (· > ·)) (name : String) (v : Variable) :
    scopes.findSome? (·.get? name) = some v ↔
      ∃ s, IsGreatest {t | t ∈ ids ∧ Declares h t name} s ∧ Latest h s name v := by
  induction hscopes with
  | nil => simp [IsGreatest]
  | @cons s scope ids scopes hs _ ih =>
    obtain ⟨hinner, hsorted'⟩ := List.pairwise_cons.1 hsorted
    rw [List.findSome?_cons]
    cases hget : scope.get? name with
    | none =>
      -- The scope is passed over, and is not one of those that declared the name.
      have hnot := (hs.get?_eq_none name).1 hget
      have hsame : {t | t ∈ s :: ids ∧ Declares h t name} = {t | t ∈ ids ∧ Declares h t name} := by
        refine Set.ext fun t => ⟨?_, fun ht => ⟨List.mem_cons_of_mem _ ht.1, ht.2⟩⟩
        rintro ⟨ht, hdeclares⟩
        rcases List.mem_cons.1 ht with rfl | ht
        · exact absurd hdeclares hnot
        · exact ⟨ht, hdeclares⟩
      rw [hsame]
      exact ih hsorted'
    | some w =>
      have hlatest := (hs name w).1 hget
      have hgreatest : IsGreatest {t | t ∈ s :: ids ∧ Declares h t name} s := by
        refine ⟨⟨List.mem_cons_self, exists_latest.1 ⟨w, hlatest⟩⟩, ?_⟩
        rintro t ⟨ht, -⟩
        rcases List.mem_cons.1 ht with rfl | ht
        · exact le_rfl
        · exact le_of_lt (hinner t ht)
      constructor
      · intro heq
        cases heq
        exact ⟨s, hgreatest, hlatest⟩
      · rintro ⟨t, ht, hv⟩
        obtain rfl := ht.unique hgreatest
        rw [← (hs name v).2 hv, hget]

theorem findSome?_eq_none_iff (hscopes : List.Forall₂ (Holds h) ids scopes) (name : String) :
    scopes.findSome? (·.get? name) = none ↔ ∀ t ∈ ids, ¬ Declares h t name := by
  induction hscopes with
  | nil => simp
  | cons hs _ ih =>
    rw [List.findSome?_eq_none_iff, List.forall_mem_cons, List.forall_mem_cons,
      ← List.findSome?_eq_none_iff, ih, hs.get?_eq_none name]

end Lookup

theorem lookup_after_eq_some_iff (h : ScopeHistory) (name : String) (v : Variable) :
    (ScopeChain.after {} h).lookup name = some v ↔
      ∃ s, IsGreatest {t | IsOpen h t ∧ Declares h t name} s ∧ Latest h s name v := by
  obtain ⟨positions, hd⟩ := exists_describes h
  simp only [← hd.opened.mem_scopes]
  exact findSome?_eq_some_iff hd.holds hd.opened.sorted_scopes name v

theorem lookup_after_eq_none_iff (h : ScopeHistory) (name : String) :
    (ScopeChain.after {} h).lookup name = none ↔ ∀ t, IsOpen h t → ¬ Declares h t name := by
  obtain ⟨positions, hd⟩ := exists_describes h
  simp only [← hd.opened.mem_scopes]
  exact findSome?_eq_none_iff hd.holds name

theorem distinct_root_after (h : ScopeHistory) : (ScopeChain.after {} h).root.Distinct := by
  obtain ⟨positions, hd⟩ := exists_describes h
  exact hd.distinct _ (List.mem_append_right _ (List.mem_singleton.2 rfl))

theorem mem_root_after_iff (h : ScopeHistory) (name : String) (v : Variable) :
    (name, v) ∈ (ScopeChain.after {} h).root ↔ Latest h ⊥ name v := by
  obtain ⟨positions, hd⟩ := exists_describes h
  rw [← Bindings.get?_eq_some_iff (distinct_root_after h), hd.root name v]

/-! ## Scopes within scopes -/

/-- Steps that close no more scopes than they open and than there are in `inner` do not get to the
scopes further out. -/
theorem after_inside (h : ScopeHistory) (root : Bindings) (outer : List Bindings)
    (scope : Bindings) (inner : List Bindings)
    (hopen : ∀ p, p <+: h → p.count .leave ≤ p.count .enter + inner.length) :
    ∃ scope' inner',
      ScopeChain.after ⟨root, scope :: (inner ++ outer)⟩ h = ⟨root, scope' :: (inner' ++ outer)⟩ ∧
      inner'.length + h.count .leave = inner.length + h.count .enter := by
  induction h generalizing scope inner with
  | nil => exact ⟨scope, inner, rfl, rfl⟩
  | cons step h ih =>
    have hbehind (p : ScopeHistory) (hp : p <+: h) :
        (step :: p).count .leave ≤ (step :: p).count .enter + inner.length :=
      hopen (step :: p) (List.cons_prefix_cons.2 ⟨rfl, hp⟩)
    cases step with
    | enter =>
      obtain ⟨scope', inner', hafter, hlength⟩ := ih [] (scope :: inner) (by
        intro p hp
        have hle := hbehind p hp
        rw [List.count_cons_self, List.count_cons_of_ne (by decide)] at hle
        rw [List.length_cons]
        omega)
      refine ⟨scope', inner', hafter, ?_⟩
      rw [List.length_cons] at hlength
      rw [List.count_cons_self, List.count_cons_of_ne (by decide)]
      omega
    | leave =>
      have hone := hbehind [] List.nil_prefix
      cases inner with
      | nil => exact absurd hone (by decide)
      | cons next inner =>
        obtain ⟨scope', inner', hafter, hlength⟩ := ih next inner (by
          intro p hp
          have hle := hbehind p hp
          rw [List.count_cons_self, List.count_cons_of_ne (by decide), List.length_cons] at hle
          omega)
        refine ⟨scope', inner', hafter, ?_⟩
        rw [List.count_cons_self, List.count_cons_of_ne (by decide), List.length_cons]
        omega
    | declare name v =>
      have hcount (p : ScopeHistory) :
          (ScopeStep.declare name v :: p).count .leave = p.count .leave ∧
          (ScopeStep.declare name v :: p).count .enter = p.count .enter :=
        ⟨List.count_cons_of_ne (by simp), List.count_cons_of_ne (by simp)⟩
      simp only [hcount] at hbehind ⊢
      exact ih (scope.set name v) inner hbehind

/-- What was done inside of a scope is gone when the scope has been closed. -/
theorem after_enclosed (chain : ScopeChain) {h : ScopeHistory} (hopen : KeepsOpen h)
    (hclosed : h.count .enter = h.count .leave) :
    chain.after (.enter :: h ++ [.leave]) = chain := by
  obtain ⟨root, nested⟩ := chain
  obtain ⟨scope, inner, hafter, hlength⟩ := after_inside h root nested [] [] fun p hp =>
    hopen p ((List.mem_inits p h).2 hp)
  have hnone : inner = [] := List.eq_nil_of_length_eq_zero (by
    rw [List.length_nil] at hlength
    omega)
  subst hnone
  calc ScopeChain.after ⟨root, nested⟩ (.enter :: h ++ [.leave])
      = (ScopeChain.after ⟨root, [] :: nested⟩ h).leave := ScopeChain.after_append _ _ _
    _ = ScopeChain.leave ⟨root, scope :: nested⟩ := congrArg _ hafter
    _ = ⟨root, nested⟩ := rfl

end ScopeHistory

/-! ## Lexical scoping -/

open ScopeHistory

/-- **The chain implements lexical scoping.** After any history a name stands for the variable of its
latest declaration in the innermost of the open scopes that declared it, and for none if no open
scope did. The root has the latest declarations that were made while it was the innermost scope, each
name once. A step that closes a scope while the root is the innermost one changes nothing, and what
is done inside of a scope leaves no trace on the chain when the scope has been closed. -/
theorem chain_implements_lexical_scoping :
    (∀ (h : ScopeHistory) (name : String),
      (∀ v, (ScopeChain.after {} h).lookup name = some v ↔
        ∃ s, IsGreatest {t | IsOpen h t ∧ Declares h t name} s ∧ Latest h s name v) ∧
      ((ScopeChain.after {} h).lookup name = none ↔ ∀ t, IsOpen h t → ¬ Declares h t name)) ∧
    (∀ h : ScopeHistory,
      (ScopeChain.after {} h).root.Distinct ∧
      ∀ name v, (name, v) ∈ (ScopeChain.after {} h).root ↔ Latest h ⊥ name v) ∧
    (∀ h : ScopeHistory, IsInnermost h ⊥ →
      ScopeChain.after {} (h ++ [.leave]) = ScopeChain.after {} h) ∧
    ∀ (chain : ScopeChain) (h : ScopeHistory), KeepsOpen h → h.count .enter = h.count .leave →
      chain.after (.enter :: h ++ [.leave]) = chain := by
  refine ⟨?_, ?_, ?_, fun chain h => after_enclosed chain⟩
  · intro h name
    exact ⟨lookup_after_eq_some_iff h name, lookup_after_eq_none_iff h name⟩
  · intro h
    exact ⟨distinct_root_after h, mem_root_after_iff h⟩
  · intro h hroot
    obtain ⟨positions, hd⟩ := exists_describes h
    rw [ScopeChain.after_append]
    exact hd.leave_eq hroot

/-- A name is declared anew in a scope and in a scope in that one, which is closed again. There is
nothing to close before, and nothing is left behind. -/
theorem shadowing_ends_with_scope :
    let outer : ScopeHistory := [.leave, .declare "x" (.named (.user "x") .integer)]
    let inner : ScopeHistory :=
      [.declare "x" (.slot 2 .text), .enter, .declare "x" (.slot 3 .text), .leave]
    IsInnermost [] ⊥ ∧ ScopeChain.after {} [.leave] = {} ∧
      KeepsOpen inner ∧ inner.count .enter = inner.count .leave ∧
      (ScopeChain.after {} outer).after (.enter :: inner ++ [.leave]) = ScopeChain.after {} outer ∧
      ∃ s, IsGreatest {t | IsOpen (outer ++ .enter :: inner) t ∧
          Declares (outer ++ .enter :: inner) t "x"} s ∧
        Latest (outer ++ .enter :: inner) s "x" (.slot 2 .text) := by
  intro outer inner
  obtain ⟨hlookup, -, hleave, hclosed⟩ := chain_implements_lexical_scoping
  have hroot : IsInnermost [] ⊥ := Opened.start.isInnermost_nil
  have hopen : KeepsOpen inner := by decide
  have hcount : inner.count .enter = inner.count .leave := by decide
  have hfound : (ScopeChain.after {} (outer ++ .enter :: inner)).lookup "x" =
      some (.slot 2 .text) := by decide
  exact ⟨hroot, hleave [] hroot, hopen, hcount, hclosed _ inner hopen hcount,
    ((hlookup _ "x").1 _).1 hfound⟩

end BatchCompiler
