/-
# BatchCompiler.Proofs.Effect -- effects happen once, and in the order of evaluation

Calls, assignments and steps are what a program does beyond computing values. Each becomes lines of
its own: a call, a line that sets the target, or two lines that keep the value from before and change
the target. Between them stand the lines that compute values into temporaries and the lines that steer
the script. `Performs` tells them apart and says that the former are those of the nodes of a list, one
by one and in this order, each made of the values of the children of its node.

A line that sets a temporary is one of the latter, with one exception: the process object is kept in a
temporary, and its name can be assigned to. So a temporary counts as the compiler's own only as long as
no builtin is kept in it. It stays so, because a builtin is kept in a temporary that is made up for it.
-/

import BatchCompiler.Proofs.Discipline

namespace BatchCompiler

/-! ## Effects of nodes and lines -/

/-- The node calls, assigns or steps. -/
def Node.isEffect (n : Node) : Bool := n.construct ∈ [.call, .assign, .step]

/-- The variable is a temporary that has been made up, and no builtin is kept in it. -/
def Shared.Owns (shared : Shared) (x : Name) : Prop :=
  ∃ n, x = .temp n ∧ n ≤ shared.counters.temps ∧ ¬ shared.IsHandle x

/-- The line is neither a call nor sets anything but a temporary of the compiler's own, to a value that
is computed, compared or put together, or an element of an array that is being made. -/
def Line.IsQuiet (shared : Shared) : Line → Prop
  | assign (.var x) _ => shared.Owns x
  | assign (.location _) _ => False
  | compute (.var x) (.binary _ _ _) => shared.Owns x
  | compute _ _ => False
  | flag x _ => shared.Owns x
  | fetch x _ => shared.Owns x
  | compare x _ _ _ => shared.Owns x
  | call _ _ _ => False
  | handle _ | exitHandle _ | exitCode _ | verbatim _ => False
  | _ => True

/-- The target is where an operand is kept that evaluating the node may leave: for a name, the
variable that the name stands for, and for an element, its place. -/
def Target.IsOf (shared : Shared) (n : Node) (place : Target) : Prop :=
  ∃ o : Operand, o.IsLeftBy 0 shared n ∧ o.target? = some place

/-- The argument passes the value of the node: a number as it is, anything else between quotes. -/
def Argument.Passes (shared : Shared) (n : Node) : Argument → Prop
  | bare text => ∃ v : Operand, v.IsReadBy 0 shared n ∧ v.isInteger = true ∧ text = v.splice
  | quoted text => ∃ v : Operand, v.IsReadBy 0 shared n ∧ v.isInteger = false ∧ text = v.splice

/-- The lines have the effects of the nodes, each once and one after the other, and no others. -/
inductive Performs (shared : Shared) : List Line → List Node → Prop where
  | nil : Performs shared [] []
  | quiet {line : Line} {lines : List Line} {ns : List Node} :
    line.IsQuiet shared → Performs shared lines ns → Performs shared (line :: lines) ns
  /-- What is called is the value of the callee, the arguments pass the values of the arguments of the
  node, in their order, and the result is left in a temporary. -/
  | call {l : Nat} {callee : Node} {args : List Node} {f : Operand} {x : Name}
      {values : List Argument} {lines : List Line} {ns : List Node} :
    f.IsReadBy 0 shared callee → shared.Owns x → List.Forall₂ (Argument.Passes shared) args values →
      Performs shared lines ns →
      Performs shared (.call f.splice x values :: lines) (.call l callee args :: ns)
  /-- The target is set to the value, which is not known to be a number. -/
  | assign {l : Nat} {target value : Node} {place : Target} {v : Operand} {lines : List Line}
      {ns : List Node} :
    place.IsOf shared target → v.IsReadBy 0 shared value → v.isInteger = false →
      Performs shared lines ns →
      Performs shared (.assign place v.splice :: lines) (.assign l target value :: ns)
  /-- The target is set to the value, which is known to be a number. -/
  | assignNumber {l : Nat} {target value : Node} {place : Target} {v : Operand} {lines : List Line}
      {ns : List Node} :
    place.IsOf shared target → v.IsReadBy 0 shared value → v.isInteger = true →
      Performs shared lines ns →
      Performs shared (.compute place (.value v.splice) :: lines) (.assign l target value :: ns)
  /-- The value from before is kept in a temporary, and the next line changes the target, which is
  where that value is kept. -/
  | step {l : Nat} {op : StepOp} {leading : Bool} {target : Node} {x : Name} {o current : Operand}
      {place : Target} {lines : List Line} {ns : List Node} :
    shared.Owns x → o.IsLeftBy 0 shared target → o.target? = some place →
      current.IsValueOf 0 shared o → Performs shared lines ns →
      Performs shared
        (.compute (.var x) (.value current.splice) :: .compute place (.step op current.splice) ::
          lines)
        (.step l op leading target :: ns)

/-! ## Stretches of generation -/

/-- The second has all the numbers and builtins of the first. A builtin that it has besides is kept in
a temporary made up since. -/
structure Shared.Precedes (first second : Shared) : Prop extends first.Extends second where
  handle {x : Name} : second.IsHandle x →
    first.IsHandle x ∨ ∃ n, x = .temp n ∧ first.counters.temps < n

namespace Shared.Precedes

variable {a b c : Shared}

theorem refl (shared : Shared) : shared.Precedes shared := ⟨.refl shared, .inl⟩

theorem trans (hab : a.Precedes b) (hbc : b.Precedes c) : a.Precedes c where
  toExtends := hab.toExtends.trans hbc.toExtends
  handle hx := by
    rcases hbc.handle hx with hx | ⟨n, rfl, hn⟩
    · exact hab.handle hx
    · exact .inr ⟨n, rfl, Nat.lt_of_le_of_lt hab.temps hn⟩

/-- A temporary of the compiler's own stays one. -/
theorem owns (h : a.Precedes b) {x : Name} (hx : a.Owns x) : b.Owns x := by
  obtain ⟨n, rfl, hn, hhandle⟩ := hx
  refine ⟨n, rfl, Nat.le_trans hn h.temps, fun hb => ?_⟩
  rcases h.handle hb with ha | ⟨m, hm, hlt⟩
  · exact hhandle ha
  · cases hm
    omega

theorem isQuiet (h : a.Precedes b) {line : Line} (hline : line.IsQuiet a) : line.IsQuiet b := by
  cases line with
  | assign target value =>
    cases target with
    | var x => exact h.owns hline
    | location place => exact hline
    | element x i => trivial
    | size x => trivial
  | compute target formula =>
    cases target with
    | var x =>
      cases formula with
      | binary op a b => exact h.owns hline
      | value a => exact hline
      | step op a => exact hline
    | _ => exact hline
  | flag x truth => exact h.owns hline
  | fetch x place => exact h.owns hline
  | compare x op a b => exact h.owns hline
  | call f x args => exact hline
  | handle x => exact hline
  | exitHandle p => exact hline
  | exitCode p => exact hline
  | verbatim text => exact hline
  | _ => trivial

theorem isOf (h : a.Precedes b) {n : Node} {place : Target} (hplace : place.IsOf a n) :
    place.IsOf b n := by
  obtain ⟨o, ho, htarget⟩ := hplace
  exact ⟨o, ho.mono (Nat.le_refl _) h.toExtends, htarget⟩

theorem isReadBy (h : a.Precedes b) {n : Node} {v : Operand} (hv : v.IsReadBy 0 a n) :
    v.IsReadBy 0 b n :=
  hv.mono (Nat.le_refl _) h.toExtends

theorem passes (h : a.Precedes b) {n : Node} {arg : Argument} (harg : arg.Passes a n) :
    arg.Passes b n := by
  cases arg with
  | bare text =>
    obtain ⟨v, hv, hinteger, htext⟩ := harg
    exact ⟨v, h.isReadBy hv, hinteger, htext⟩
  | quoted text =>
    obtain ⟨v, hv, hinteger, htext⟩ := harg
    exact ⟨v, h.isReadBy hv, hinteger, htext⟩

end Shared.Precedes

namespace Performs

variable {shared later : Shared} {xs ys : List Line} {ms ns : List Node}

theorem append (hx : Performs shared xs ms) (hy : Performs shared ys ns) :
    Performs shared (xs ++ ys) (ms ++ ns) := by
  induction hx with
  | nil => exact hy
  | quiet hline _ ih => exact .quiet hline ih
  | call hf hx hargs _ ih => exact .call hf hx hargs ih
  | assign hplace hv hinteger _ ih => exact .assign hplace hv hinteger ih
  | assignNumber hplace hv hinteger _ ih => exact .assignNumber hplace hv hinteger ih
  | step hx ho hplace hvalue _ ih => exact .step hx ho hplace hvalue ih

theorem mono (h : Performs shared xs ns) (hlater : shared.Precedes later) :
    Performs later xs ns := by
  induction h with
  | nil => exact .nil
  | quiet hline _ ih => exact .quiet (hlater.isQuiet hline) ih
  | call hf hx hargs _ ih =>
    exact .call (hlater.isReadBy hf) (hlater.owns hx) (hargs.imp fun _ _ => hlater.passes) ih
  | assign hplace hv hinteger _ ih =>
    exact .assign (hlater.isOf hplace) (hlater.isReadBy hv) hinteger ih
  | assignNumber hplace hv hinteger _ ih =>
    exact .assignNumber (hlater.isOf hplace) (hlater.isReadBy hv) hinteger ih
  | step hx ho hplace hvalue _ ih =>
    exact .step (hlater.owns hx) (ho.mono (Nat.le_refl _) hlater.toExtends) hplace
      (hvalue.mono (Nat.le_refl _) hlater.toExtends) ih

end Performs

/-- From the first state to the second, the code grows by lines that have the effects of the nodes. -/
structure Effects (ns : List Node) (s t : State) : Prop where
  shared : s.shared.Precedes t.shared
  written : ∃ lines, t.segments.code = s.segments.code ++ lines ∧
    Performs t.shared lines (ns.filter Node.isEffect)

namespace Effects

variable {ms ns : List Node} {s t u : State}

theorem trans (hst : Effects ms s t) (htu : Effects ns t u) : Effects (ms ++ ns) s u where
  shared := hst.shared.trans htu.shared
  written := by
    obtain ⟨xs, hxs, hx⟩ := hst.written
    obtain ⟨ys, hys, hy⟩ := htu.written
    refine ⟨xs ++ ys, by rw [hys, hxs, List.append_assoc], ?_⟩
    rw [List.filter_append]
    exact (hx.mono htu.shared).append hy

/-- Nothing happens where no code is written. -/
theorem of_code_eq (hshared : s.shared.Precedes t.shared)
    (hcode : t.segments.code = s.segments.code) (hns : ns.filter Node.isEffect = []) :
    Effects ns s t where
  shared := hshared
  written := ⟨[], by rw [hcode, List.append_nil], by rw [hns]; exact .nil⟩

theorem emitAll {lines : List Line} (h : Performs s.shared lines (ns.filter Node.isEffect)) :
    Effects ns s (s.emitAll lines) :=
  ⟨.refl _, lines, rfl, h⟩

end Effects

/-! ## Generation -/

namespace Effect

open Gen

/-- Constructs write to temporaries of the compiler's own. -/
def discipline : Discipline Unit where
  inv _ _ := True
  own s := s.shared.Owns
  good _ _ _ := True
  done ns _ s _ t := Effects ns s t

theorem isQuiet_of_isMadeOf {shared : Shared} {good : Operand → Prop} {line : Line}
    (h : line.IsMadeOf shared.Owns good) : line.IsQuiet shared := by
  cases h <;> first | assumption | trivial

theorem precedes_freshTemp (s : State) : s.shared.Precedes s.freshTemp.2.shared :=
  ⟨s.extends_freshTemp, .inl⟩

/-- A builtin is kept in a temporary with a number that has been counted. -/
theorem owns_freshTemp {s : State} (hs : s.WellScoped) :
    s.freshTemp.2.shared.Owns s.freshTemp.1 := by
  refine ⟨s.temps + 1, rfl, Nat.le_refl _, ?_⟩
  rintro ⟨k, v, hk, hv⟩
  obtain ⟨-, n, -, hle, hn⟩ := hs.builtin (Bindings.mem_of_get? hk)
  rw [hn] at hv
  cases hv
  omega

theorem precedes_withProcess {s : State} (hnew : s.shared.emitted.get? "process" = none) :
    s.shared.Precedes s.withProcess.shared where
  toExtends := State.extends_withProcess hnew
  handle := by
    rintro x ⟨k, v, hk, hv⟩
    have hk' : (s.shared.emitted.set "process" (.named s.freshTemp.1 .text)).get? k = some v := hk
    rw [Bindings.get?_set] at hk'
    split at hk'
    · cases hk'
      cases hv
      exact .inr ⟨s.temps + 1, rfl, Nat.lt_succ_self _⟩
    · exact .inl ⟨k, v, hk', hv⟩

theorem read {s t : State} {loc : Nat} {k : String} {v : Variable}
    (h : resolve .standard loc k s = .ok v t) : Effects [.identifier loc k] s t := by
  rcases resolve_eq_ok h with ⟨-, rfl⟩ | ⟨-, -, rfl⟩ | ⟨rfl, -, hnew, -, rfl⟩
  · exact .of_code_eq (.refl _) rfl rfl
  · exact .of_code_eq (.refl _) rfl rfl
  · exact .of_code_eq (precedes_withProcess hnew) rfl rfl

/-- The line of an assignment sets the target to the value, as a number or not. -/
theorem performs_assignLine {shared : Shared} {l : Nat} {target value : Node} {place : Target}
    {v : Operand} (hplace : place.IsOf shared target) (hv : v.IsReadBy 0 shared value) :
    Performs shared [assignLine place v] [.assign l target value] := by
  unfold assignLine
  split
  next hinteger => exact .assignNumber hplace hv hinteger .nil
  next hinteger => exact .assign hplace hv (Bool.eq_false_iff.2 hinteger) .nil

theorem passes_argument {shared : Shared} {n : Node} {v : Operand} (hv : v.IsReadBy 0 shared n) :
    (argument v).Passes shared n := by
  unfold argument
  split
  next hinteger => exact ⟨v, hv, hinteger, rfl⟩
  next hinteger => exact ⟨v, hv, Bool.eq_false_iff.2 hinteger, rfl⟩

/-- The variable that is assigned to is the one that the name stands for. -/
theorem assignName {s t : State} (l : Nat) {loc : Nat} {k : String} (n : Node) {v : Operand}
    {place : Target} (hs : s.WellScoped) (hv : v.IsReadBy 0 s.shared n)
    (h : nameTarget loc k v.valueType s = .ok place t) :
    Effects [.assign l (.identifier loc k) n] s (t.emitAll [assignLine place v]) := by
  have hline : ∀ w : Variable, s.shared.Admits k w → ∀ x, w.storage = .named x → place = .var x →
      Performs s.shared [assignLine place v] [.assign l (.identifier loc k) n] := by
    intro w hw x hx hplace
    refine performs_assignLine ⟨.var w, ⟨w, rfl, hw⟩, ?_⟩ hv
    simp [Operand.target?, Variable.target?, hx, hplace]
  rcases nameTarget_eq_ok h with ⟨-, hname, hplace, rfl⟩ | ⟨w, x, hw, hx, hplace, rfl⟩
  · exact ⟨.refl _, _, rfl, hline (.named (.user k) .text) (.inl ⟨rfl, hname⟩) _ rfl hplace⟩
  · exact ⟨.refl _, _, rfl, hline w (hs.of_lookup hw) x hx hplace⟩

theorem functionName_precedes {s t : State} {loc : Nat} {name : Option String} {f : Name}
    (h : functionName loc name s = .ok f t) :
    s.shared.Precedes t.shared ∧ t.segments.code = s.segments.code := by
  rcases functionName_eq_ok h with ⟨-, -, rfl⟩ | ⟨k, -, -, rfl⟩
  · exact ⟨precedes_freshTemp s, rfl⟩
  · exact ⟨.refl _, rfl⟩

theorem entering {s s' : State} {loc : Nat} {name : Option String} {f : Name}
    (params : List String) (h : functionName loc name s = .ok f s') :
    Effects [] s (s'.entering f params) := by
  obtain ⟨hshared, hcode⟩ := functionName_precedes h
  refine ⟨hshared, [.goto (.behind f), .label (.entry f), .enterFunction], ?_, ?_⟩
  · rw [← hcode]
    rfl
  · exact .quiet trivial (.quiet trivial (.quiet trivial .nil))

theorem lawful : discipline.Lawful where
  refl _ := .of_code_eq (.refl _) rfl rfl
  trans := Effects.trans
  inv_of_done _ _ := trivial
  own_mono h := h.shared.owns
  good_mono _ _ := trivial
  idle {_ s n} _ hn := by
    refine .of_code_eq (.refl _) rfl ?_
    cases n <;> first | rfl | cases hn
  stack _ _ := .of_code_eq (.refl _) rfl rfl
  temp {_ s} hs := ⟨.of_code_eq (precedes_freshTemp s) rfl rfl, owns_freshTemp hs.scopes⟩
  label {_ s} _ := .of_code_eq ⟨⟨Nat.le_refl _, id⟩, .inl⟩ rfl rfl
  starting _ _ := .of_code_eq (.refl _) rfl rfl
  emit _ hline := ⟨.emitAll (.quiet (isQuiet_of_isMadeOf hline) .nil), fun _ _ _ => trivial⟩
  number _ _ _ := trivial
  chars _ _ _ := trivial
  reference _ _ := trivial
  read _ h := ⟨(), read h, trivial⟩
  assignName hs _ hv h := ⟨(), assignName _ _ hs.scopes hv h⟩
  assignPlace {_ s l loc b i n v o} _ _ hv _ hleft := by
    have hplace : Target.IsOf s.shared (.index loc b i) (.location o.splice) := by
      obtain ⟨p, q, rfl, hp, hq⟩ := hleft
      exact ⟨_, ⟨p, q, rfl, hp, hq⟩, rfl⟩
    exact .emitAll (performs_assignLine hplace hv)
  stepped _ _ _ _ _ _ _ _ _ hx _ _ hleft htarget hvalue :=
    ⟨.emitAll (.step hx hleft htarget hvalue .nil), fun _ => trivial⟩
  called {_ s l n args f values x} _ hx _ hf _ hvalues := by
    refine ⟨.emitAll (.call hf hx ?_ .nil), fun _ => trivial⟩
    exact List.forall₂_map_right_iff.2 (hvalues.imp fun _ _ => passes_argument)
  routine {_ s s' loc name f} params body _ h := by
    refine ⟨(), trivial, fun _ _ => trivial, fun ns _ t hdone => ⟨(), ?_, fun _ _ => trivial, trivial⟩⟩
    have hinside : Effects ns s t := (entering params h).trans hdone
    have hleave : Effects [.function loc name params body] t { t with scopes := t.scopes.leave } :=
      .of_code_eq (.refl _) rfl rfl
    exact hinside.trans hleave
  included {_ s} _ := by
    refine ⟨(), trivial, fun ns _ t hdone => ⟨(), ?_⟩⟩
    obtain ⟨lines, hlines, hperforms⟩ := hdone.written
    refine ⟨hdone.shared, lines, ?_, hperforms⟩
    show s.segments.code ++ t.segments.code = _
    rw [hlines]
    rfl

/-- Generating a node has the effects of the nodes that it goes through. -/
theorem of_generate {setup : Setup} (hstandard : setup.registry = .standard) {depth : Nat}
    {base source : String} {n : Node} {s t : State} (hs : s.WellScoped)
    (h : generate (setup.env depth base) source n s = .ok () t) :
    Effects (setup.evaluation depth base n) s t := by
  have hstart : discipline.Holds () s := ⟨⟨hs, trivial⟩, fun _ _ => trivial⟩
  obtain ⟨_, hdone, -⟩ := lawful.generate setup hstandard hstart h
  exact hdone

end Effect

/-! ## Whole programs -/

/-- A comparison whose operands have effects, behind an assignment. -/
def comparingProgram : Node :=
  .program 0 [.assign 2 (.identifier 0 "y") (.integer 4 1),
    .binary 9 .lt (.step 7 .inc false (.identifier 6 "y"))
      (.assign 14 (.identifier 12 "x") (.identifier 16 "y"))]

end BatchCompiler
