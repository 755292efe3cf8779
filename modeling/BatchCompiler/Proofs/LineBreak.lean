/-
# BatchCompiler.Proofs.LineBreak -- line breaks on the lines of the script

A line of the script is one line of its text only if no line break stands on it. Names, numbers and
what the compiler writes itself have none, but the characters of a string literal are put on a line
as they are, with a caret in front: a line break in a literal breaks the line.

Which literals get onto a line is a matter of the tree. An operand that a node leaves behind may
carry literals (`Node.left`); they are written when a construct around it splices the operand into a
line, and are lost when the node is a statement (`Node.written`). `lines_unbroken_iff` says that a
line is broken exactly if a literal that is written has a line break.
-/

import BatchCompiler.Proofs.Audit
import BatchCompiler.Proofs.Naming
import BatchCompiler.Proofs.Nesting

namespace BatchCompiler

/-! ## Line breaks -/

/-- A line feed or a carriage return. -/
def isBreak (c : Char) : Bool := c = '\n' || c = '\r'

/-- The text has a line break. -/
def hasBreak (text : String) : Bool := text.toList.any isBreak

@[simp] theorem hasBreak_append (s t : String) :
    hasBreak (s ++ t) = (hasBreak s || hasBreak t) := by
  simp [hasBreak]

theorem hasBreak_eq_false_of_class {p : Char → Bool} (hp : p '\n' = false ∧ p '\r' = false)
    {text : String} (h : ∀ c ∈ text.toList, p c = true) : hasBreak text = false := by
  rw [hasBreak, List.any_eq_false]
  intro c hc hbreak
  have hpc := h c hc
  rcases Bool.or_eq_true_iff.1 hbreak with heq | heq
  · rw [of_decide_eq_true heq, hp.1] at hpc
    cases hpc
  · rw [of_decide_eq_true heq, hp.2] at hpc
    cases hpc

theorem hasBreak_nat (n : Nat) : hasBreak (toString n) = false :=
  hasBreak_eq_false_of_class (p := Char.isDigit) (by decide) fun c hc =>
    isDigit_of_mem_digits (by simpa using hc)

@[simp] theorem hasBreak_int (v : Int) : hasBreak v.repr = false := by
  cases v with
  | ofNat n => exact hasBreak_nat n
  | negSucc n =>
    show hasBreak ("-" ++ toString (n + 1)) = false
    rw [hasBreak_append, hasBreak_nat]
    decide

@[simp] theorem hasBreak_temp (n : Nat) : hasBreak (Name.temp n).render = false := by
  rw [Name.render, hasBreak_append, hasBreak_nat]
  decide

theorem isWordPart_of_isWordStart {c : Char} (h : isWordStart c = true) : isWordPart c = true := by
  rw [isWordStart, Bool.or_eq_true] at h
  rw [isWordPart, Char.isAlphanum, Bool.or_eq_true, Bool.or_eq_true]
  exact h.imp_left .inl

theorem hasBreak_identifier {x : String} (h : isIdentifier x = true) : hasBreak x = false := by
  rw [isIdentifier, Bool.and_eq_true] at h
  refine hasBreak_eq_false_of_class (p := isWordPart) (by decide) ?_
  cases hx : x.toList with
  | nil => exact fun c hc => absurd hc List.not_mem_nil
  | cons c cs =>
    rw [hx, isWord, Bool.and_eq_true, List.all_eq_true] at h
    rw [List.forall_mem_cons]
    exact ⟨isWordPart_of_isWordStart h.1.1, h.1.2⟩

/-- Carets do not take line breaks away. -/
@[simp] theorem hasBreak_escape (s : String) : hasBreak (escape s) = hasBreak s := by
  rw [hasBreak, hasBreak, escape, String.toList_ofList, List.any_flatMap]
  congr 1
  funext c
  unfold escapeChar
  split
  next h =>
    subst h
    decide
  next =>
    split
    · simp
    · simp [isBreak]

/-! ## Lines -/

/-- The parts of a line that differ from line to line. -/
def Line.pieces : Line → List String
  | handle x => [x.render]
  | exitHandle p => [p.render]
  | exitCode p => [p.render]
  | assign target value => [target.render, value.render]
  | compute target formula => [target.render, formula.render]
  | flag x _ => [x.render]
  | fetch x place => [x.render, place.render]
  | compare x _ a b => [x.render, a.render, b.render]
  | openIf cond => [cond.render]
  | label l => [l.render]
  | goto l => [l.render]
  | gotoBare l => [l.render]
  | call callee result args => callee.render :: result.render :: args.map Argument.render
  | setResult _ value => [value.render]
  | verbatim text => [text]
  | _ => []

theorem hasBreak_flagCommand (x : Name) (truth : Bool) :
    hasBreak (Line.flagCommand x truth) = hasBreak x.render := by
  cases truth <;> simp [Line.flagCommand, hasBreak, isBreak]

theorem hasBreak_spelling (op : BinaryOp) : hasBreak op.spelling = false := by
  cases op <;> decide

theorem hasBreak_stepSpelling (op : StepOp) : hasBreak op.spelling = false := by
  cases op <;> decide

/-- The fixed parts of a line have no line breaks. -/
theorem Line.hasBreak_render (line : Line) : hasBreak line.render = line.pieces.any hasBreak := by
  cases line with
  | exitHandle p => simp [render, pieces, Label.render, hasBreak, isBreak]
  | flag x truth => simp [render, pieces, hasBreak_flagCommand]
  | compare x op a b =>
    simp only [render, pieces, hasBreak_append, hasBreak_flagCommand, hasBreak_spelling,
      List.any_cons, List.any_nil]
    simp [hasBreak, isBreak, Bool.or_comm]
  | call f x args =>
    have hargs : hasBreak (String.join (args.map fun a => " " ++ a.render)) =
        (args.map Argument.render).any hasBreak := by
      induction args with
      | nil => decide
      | cons a args ih =>
        have hblank : hasBreak " " = false := by decide
        rw [List.map_cons, String.join_cons, hasBreak_append, hasBreak_append, hblank, ih]
        rfl
    simp only [render, pieces, hasBreak_append, hargs, List.any_cons]
    simp [hasBreak, isBreak, Bool.or_assoc]
  | setResult isNumber value => cases isNumber <;> simp [render, pieces, hasBreak, isBreak]
  | _ => simp [render, pieces, hasBreak, isBreak]

/-! ## Literals of a tree -/

namespace Node

/-- The node is an element, whose value is read from its place before it is used. -/
def isElement (n : Node) : Bool := n.construct = .index

/-- The literals in the operand that the node leaves. -/
def left : Node → List String
  | string _ s => [s]
  | assign _ _ v => if v.isElement then [] else v.left
  | index _ b i => (if b.isElement then [] else b.left) ++ (if i.isElement then [] else i.left)
  | _ => []

/-- The literals in the place from which the value of the node is read, if it is an element. -/
def fetched (n : Node) : List String := if n.isElement then n.left else []

/-- The literals that an include with these arguments stands for. -/
def ofInclude (included : String → List String) : List Node → List String
  | [string _ path] => included path
  | _ => []

mutual

/-- The literals that generating the node puts on lines. -/
def written (included : String → List String) : Node → List String
  | program _ body => writtenAll included body
  | integer .. => []
  | string .. => []
  | identifier .. => []
  | binary _ _ a b => written included a ++ a.left ++ (written included b ++ b.left)
  | and _ a b => written included a ++ a.left ++ written included b
  | or _ a b => written included a ++ a.left ++ (written included b ++ b.left)
  | assign _ t v => written included v ++ v.left ++ (written included t ++ t.left)
  | branch _ c t e =>
    written included c ++ c.left ++ (writtenAll included t ++ writtenAll included e)
  | ternary _ c t e =>
    written included c ++ c.left ++
      (written included t ++ t.left ++ (written included e ++ e.left))
  | loop _ c body => written included c ++ c.left ++ writtenAll included body
  | function _ _ _ body => writtenAll included body
  | call _ f args =>
    if Gen.isInclude f then ofInclude included args
    else written included f ++ f.left ++ (writtenAll included args ++ args.flatMap left)
  | ret _ v => written included v ++ v.left
  | step _ _ _ t => written included t ++ t.left
  | array _ es => writtenAll included es ++ es.flatMap left
  | index _ b i => written included b ++ b.fetched ++ (written included i ++ i.fetched)

/-- The literals that generating the nodes puts on lines. -/
def writtenAll (included : String → List String) : List Node → List String
  | [] => []
  | n :: ns => written included n ++ writtenAll included ns

end

end Node

/-- The program that the file at a path spells, if it spells one. -/
def Setup.program? (setup : Setup) (path : String) : Option Node := do
  let source ← (setup.files path).toOption
  (readUnit setup.folding source).toOption

/-- The literals that generating a node puts on lines, those of the included units with them. -/
def Setup.written (setup : Setup) : Nat → String → Node → List String
  | 0, _ => Node.written fun _ => []
  | depth + 1, base => Node.written fun path =>
    ((setup.program? (Path.join base path)).map
      (setup.written depth (Path.directory base (Path.join base path)))).getD []

/-! ## States -/

/-- The variable is spelled without a line break. -/
def Variable.Whole (v : Variable) : Prop := hasBreak v.read.render = false

/-- What names stand for and the lines that start the script have no line breaks. -/
structure State.Whole (s : State) : Prop where
  scope {k : String} {v : Variable} {scope : Bindings} :
    scope ∈ s.scopes.opened → (k, v) ∈ scope → v.Whole
  emitted {k : String} {v : Variable} : (k, v) ∈ s.shared.emitted → v.Whole
  init {line : Line} : line ∈ s.segments.init → hasBreak line.render = false

/-- Among the declarations and the code is a line with a line break. -/
def State.hasBreak (s : State) : Bool :=
  (s.segments.decl ++ s.segments.code).any fun line => BatchCompiler.hasBreak line.render

theorem Variable.whole_named {x : Name} (h : hasBreak x.render = false) (ty : ValueType) :
    (Variable.named x ty).Whole := by
  have hmark : hasBreak "!" = false := by decide
  simp [Variable.Whole, Variable.named, Variable.read, Fragment.render, h, hmark]

theorem Variable.whole_slot (index : Nat) (ty : ValueType) : (Variable.slot index ty).Whole := by
  show hasBreak ("%~" ++ toString index) = false
  rw [hasBreak_append, hasBreak_nat]
  decide

theorem Variable.Whole.target {v : Variable} (h : v.Whole) {x : Name} (hx : v.target? = some x) :
    hasBreak x.render = false := by
  obtain ⟨storage, ty⟩ := v
  cases storage with
  | slot index => cases hx
  | named y =>
    cases hx
    simp only [Variable.Whole, Variable.read, Fragment.render, hasBreak_append,
      Bool.or_eq_false_iff] at h
    exact h.1.2

theorem Variable.hasBreak_readNow (v : Variable) :
    hasBreak v.readNow.render = hasBreak v.read.render := by
  obtain ⟨storage, ty⟩ := v
  cases storage with
  | slot index => rfl
  | named x =>
    have hmarks : hasBreak "!" = false ∧ hasBreak "%" = false := by decide
    simp [Variable.readNow, Variable.read, Fragment.render, hmarks]

namespace State.Whole

variable {s : State}

theorem declare (h : s.Whole) {v : Variable} (hv : v.Whole) (name : String) :
    (s.declare name v).Whole where
  scope hscope hmem := by
    rcases ScopeChain.mem_opened_declare hscope hmem with heq | ⟨other, hother, hmem⟩
    · cases heq
      exact hv
    · exact h.scope hother hmem
  emitted := h.emitted
  init := h.init

theorem declareAll (h : s.Whole) {bindings : Bindings} (hv : ∀ entry ∈ bindings, entry.2.Whole) :
    { s with scopes := s.scopes.declareAll bindings }.Whole := by
  induction bindings generalizing s with
  | nil => exact h
  | cons entry bindings ih =>
    rw [List.forall_mem_cons] at hv
    exact ih (h.declare hv.1 entry.1) hv.2

theorem withProcess (h : s.Whole) : s.withProcess.Whole where
  scope := h.scope
  emitted hmem := by
    rcases Bindings.mem_of_mem_set hmem with heq | hmem
    · cases heq
      exact Variable.whole_named (hasBreak_temp _) _
    · exact h.emitted hmem
  init := h.init

theorem lookup (h : s.Whole) {name : String} {v : Variable}
    (hv : s.scopes.lookup name = some v) : v.Whole := by
  obtain ⟨scope, hscope, hmem⟩ := ScopeChain.exists_mem_of_lookup hv
  exact h.scope hscope hmem

end State.Whole

theorem State.whole_start (shared : Shared) (h : ∀ entry ∈ shared.emitted, entry.2.Whole) :
    State.Whole { shared } where
  scope hscope hmem := by
    obtain rfl := List.mem_singleton.1 hscope
    exact absurd hmem List.not_mem_nil
  emitted hmem := h _ hmem
  init hmem := absurd hmem List.not_mem_nil

theorem State.hasBreak_emitAll (s : State) (lines : List Line) :
    (s.emitAll lines).hasBreak =
      (s.hasBreak || lines.any fun line => BatchCompiler.hasBreak line.render) := by
  simp [State.hasBreak, State.emitAll, Bool.or_assoc]

theorem State.hasBreak_withProcess (s : State) : s.withProcess.hasBreak = s.hasBreak := by
  have hlines : (processLines s.freshTemp.1).any (fun line => BatchCompiler.hasBreak line.render) =
      false := by
    have hmarks : BatchCompiler.hasBreak "[exit]" = false ∧ BatchCompiler.hasBreak "[exit]_" = false ∧
        BatchCompiler.hasBreak "eof" = false := by decide
    simp [processLines, Line.hasBreak_render, Line.pieces, Label.render, State.freshTemp, hmarks]
  simp [State.hasBreak, State.withProcess, hlines]

/-! ## Steps -/

open Gen

variable {α β : Type} {b c k r c' k' r' : Bool} {Q : α → State → Prop} {R : β → State → Prop}
  {P : Operand → Prop}

/-- The step writes a broken line exactly if `b` holds, and comes to what `Q` says. -/
def Breaks (b : Bool) (Q : α → State → Prop) (m : Gen α) : Prop :=
  ∀ s a t, s.Whole → m s = .ok a t → t.Whole ∧ t.hasBreak = (s.hasBreak || b) ∧ Q a t

/-- The operand pushed last is as `P` says. -/
def TopIs (P : Operand → Prop) (_ : Unit) (t : State) : Prop :=
  ∃ o rest, t.stack = o :: rest ∧ P o

/-- The step writes a broken line exactly if `b` holds, and pushes such an operand last or none. -/
def Generates (b : Bool) (P : Operand → Prop) (m : Gen Unit) : Prop :=
  Breaks b (TopIs P) m ∨ Breaks b (fun _ _ => True) m ∧ Shrinks m

/-- Whether the operand is a place, and whether it has a line break. -/
def Operand.Carries (element broken : Bool) (o : Operand) : Prop :=
  o.isReference = element ∧ hasBreak o.splice.render = broken

theorem Operand.Carries.hasBreak_spliceNow {o : Operand} (h : o.Carries r k) :
    hasBreak o.spliceNow.render = k := by
  rw [← h.2]
  cases o with
  | var v => simp [Operand.spliceNow, Operand.splice, v.hasBreak_readNow]
  | _ => rfl

theorem Operand.carries_var {v : Variable} (h : v.Whole) : (Operand.var v).Carries false false := by
  refine ⟨rfl, ?_⟩
  have hread : hasBreak v.read.render = false := h
  simpa [Operand.splice] using hread

/-- Generating the node puts its literals on lines and leaves those of its operand. -/
def Tracked (env : Env) (included : String → List String) (n : Node) : Prop :=
  Generates ((n.written included).any hasBreak) (Operand.Carries n.isElement (n.left.any hasBreak))
    (Part.mk n (node env n)).gen

namespace Breaks

theorem congr {m : Gen α} (h : Breaks b Q m) (hb : b = c) : Breaks c Q m := hb ▸ h

theorem bind {m : Gen α} {f : α → Gen β} (hm : Breaks b Q m)
    (hf : ∀ a u, Q a u → Breaks c R (f a)) : Breaks (b || c) R (m >>= f) := by
  intro s x t hs hrun
  obtain ⟨a, u, hmu, hrest⟩ := bind_eq_ok_iff.1 hrun
  obtain ⟨hu, hbreak, ha⟩ := hm s a u hs hmu
  obtain ⟨ht, hbreak', hx⟩ := hf a u ha u x t hu hrest
  exact ⟨ht, by rw [hbreak', hbreak, Bool.or_assoc], hx⟩

/-- A step in front that writes nothing broken. -/
theorem quietly {m : Gen α} {f : α → Gen β} (hm : Breaks false Q m)
    (hf : ∀ a u, Q a u → Breaks c R (f a)) : Breaks c R (m >>= f) :=
  (hm.bind hf).congr (Bool.false_or c)

/-- A step behind that writes nothing broken. -/
theorem andQuiet {m : Gen α} {f : α → Gen β} (hm : Breaks b Q m)
    (hf : ∀ a u, Q a u → Breaks false R (f a)) : Breaks b R (m >>= f) :=
  (hm.bind hf).congr (Bool.or_false b)

/-- A step that leaves the lines alone. -/
theorem of_lines {m : Gen α} (h : ∀ s a t, s.Whole → m s = .ok a t →
    t.Whole ∧ t.hasBreak = s.hasBreak ∧ Q a t) : Breaks false Q m := by
  intro s a t hs hrun
  obtain ⟨ht, hbreak, ha⟩ := h s a t hs hrun
  exact ⟨ht, by rw [hbreak, Bool.or_false], ha⟩

/-! ### Primitive steps -/

theorem pure {a : α} {S : α → Prop} (h : S a) : Breaks false (fun a _ => S a) (Pure.pure a) := by
  refine of_lines fun s x t hs hrun => ?_
  cases hrun
  exact ⟨hs, rfl, h⟩

theorem fail (loc : Nat) (cause : Cause) : Breaks b Q (Gen.fail loc cause) := by
  intro s a t _ hrun
  cases hrun

theorem freshTemp : Breaks false (fun x _ => hasBreak x.render = false) Gen.freshTemp := by
  refine of_lines fun s x t hs hrun => ?_
  cases hrun
  exact ⟨⟨hs.scope, hs.emitted, hs.init⟩, rfl, hasBreak_temp _⟩

theorem freshLabel : Breaks false (fun l _ => hasBreak l.render = false) Gen.freshLabel := by
  refine of_lines fun s x t hs hrun => ?_
  cases hrun
  refine ⟨⟨hs.scope, hs.emitted, hs.init⟩, rfl, ?_⟩
  show hasBreak ("lbl" ++ toString (s.labels + 1)) = false
  rw [hasBreak_append, hasBreak_nat]
  decide

theorem push {o : Operand} (h : P o) : Breaks false (TopIs P) (Gen.push o) := by
  refine of_lines fun s x t hs hrun => ?_
  cases hrun
  exact ⟨⟨hs.scope, hs.emitted, hs.init⟩, rfl, o, s.stack, rfl, h⟩

theorem pushVar {x : Name} (h : hasBreak x.render = false) (ty : ValueType) :
    Breaks false (TopIs (Operand.Carries false false)) (Gen.pushVar x ty) :=
  push (Operand.carries_var (Variable.whole_named h ty))

theorem declare (name : String) {v : Variable} (hv : v.Whole) :
    Breaks false (fun _ _ => True) (Gen.declare name v) := by
  refine of_lines fun s x t hs hrun => ?_
  cases hrun
  exact ⟨hs.declare hv name, rfl, trivial⟩

theorem checkUserName (loc : Nat) (name : String) :
    Breaks false (fun _ _ => True) (Gen.checkUserName loc name) := by
  refine of_lines fun s x t hs hrun => ?_
  obtain ⟨-, rfl⟩ := checkUserName_eq_ok hrun
  exact ⟨hs, rfl, trivial⟩

theorem emitAll {lines : List Line} (h : lines.any (fun line => hasBreak line.render) = b) :
    Breaks b (fun _ _ => True) (Gen.emitAll lines) := by
  intro s a t hs hrun
  rw [emitAll_apply] at hrun
  cases hrun
  exact ⟨⟨hs.scope, hs.emitted, hs.init⟩, by rw [State.hasBreak_emitAll, h], trivial⟩

theorem emit {line : Line} (h : hasBreak line.render = b) :
    Breaks b (fun _ _ => True) (Gen.emit line) := by
  intro s a t hs hrun
  cases hrun
  refine ⟨⟨hs.scope, hs.emitted, hs.init⟩, ?_, trivial⟩
  show (s.emitAll [line]).hasBreak = _
  rw [State.hasBreak_emitAll]
  simp [h]

theorem emitDecl {line : Line} (h : hasBreak line.render = false) :
    Breaks false (fun _ _ => True) (emitTo .decl line) := by
  refine of_lines fun s a t hs hrun => ?_
  cases hrun
  refine ⟨⟨hs.scope, hs.emitted, hs.init⟩, ?_, trivial⟩
  simp [State.hasBreak, State.emitTo, Segments.add, h]

theorem emitInit {line : Line} (h : hasBreak line.render = false) :
    Breaks false (fun _ _ => True) (emitTo .init line) := by
  refine of_lines fun s a t hs hrun => ?_
  cases hrun
  refine ⟨⟨hs.scope, hs.emitted, fun hmem => ?_⟩, rfl, trivial⟩
  rcases List.mem_append.1 hmem with hmem | hmem
  · exact hs.init hmem
  · obtain rfl := List.mem_singleton.1 hmem
    exact h

theorem inScope {m : Gen α} (h : Breaks b (fun _ _ => True) m) :
    Breaks b (fun _ _ => True) (Gen.inScope m) := by
  intro s a t hs hrun
  unfold Gen.inScope at hrun
  split at hrun
  next a' u hm =>
    cases hrun
    have hentered : State.Whole { s with scopes := s.scopes.enter } := by
      refine ⟨fun hscope hmem => ?_, hs.emitted, hs.init⟩
      rcases List.mem_cons.1 hscope with rfl | hscope
      · exact absurd hmem List.not_mem_nil
      · exact hs.scope hscope hmem
    obtain ⟨hu, hbreak, -⟩ := h _ _ _ hentered hm
    refine ⟨⟨fun hscope hmem => hu.scope ?_ hmem, hu.emitted, hu.init⟩, hbreak, trivial⟩
    rcases List.mem_append.1 hscope with hscope | hscope
    · exact List.mem_append_left _ (List.mem_of_mem_tail hscope)
    · exact List.mem_append_right _ hscope
  next => cases hrun

theorem resolve (loc : Nat) (name : String) :
    Breaks false (fun v _ => v.Whole) (Gen.resolve .standard loc name) := by
  refine of_lines fun s v t hs hrun => ?_
  rcases resolve_cases loc name s with ⟨w, hw, heq⟩ | ⟨w, -, hw, heq⟩ | ⟨-, -, -, heq⟩ | heq
  · rw [heq] at hrun
    cases hrun
    exact ⟨hs, rfl, hs.lookup hw⟩
  · rw [heq] at hrun
    cases hrun
    have hwhole := hs.emitted (Bindings.mem_of_get? hw)
    exact ⟨hs.declare hwhole name, rfl, hwhole⟩
  · rw [heq] at hrun
    cases hrun
    have hwhole : (Variable.named s.freshTemp.1 .text).Whole :=
      Variable.whole_named (hasBreak_temp _) _
    exact ⟨hs.withProcess.declare hwhole name, s.hasBreak_withProcess, hwhole⟩
  · rw [heq] at hrun
    cases hrun

/-! ### Parts -/

/-- What a part leaves behind is no longer of interest once it is a statement. -/
theorem statement {m : Gen Unit} (h : Generates b P m) :
    Breaks b (fun _ _ => True) (Gen.statement m) := by
  intro s a t hs hrun
  rw [statement_apply] at hrun
  split at hrun
  next _ u hm =>
    cases hrun
    have hlines : u.Whole ∧ u.hasBreak = (s.hasBreak || b) := by
      rcases h with hpushes | ⟨hbreaks, -⟩
      · obtain ⟨hu, hbreak, -⟩ := hpushes s _ u hs hm
        exact ⟨hu, hbreak⟩
      · obtain ⟨hu, hbreak, -⟩ := hbreaks s _ u hs hm
        exact ⟨hu, hbreak⟩
    exact ⟨⟨hlines.1.scope, hlines.1.emitted, hlines.1.init⟩, hlines.2, trivial⟩
  next => cases hrun

theorem eval {p : Part} (h : Generates b P p.gen) : Breaks b (fun o _ => P o) (Gen.eval p) := by
  intro s o t hs hrun
  obtain ⟨u, rest, hgen, hstack, hlength, rfl⟩ := eval_eq_ok hrun
  rcases h with hpushes | ⟨-, hshrinks⟩
  · obtain ⟨hu, hbreak, o', rest', hstack', ho⟩ := hpushes s _ u hs hgen
    rw [hstack] at hstack'
    cases hstack'
    exact ⟨⟨hu.scope, hu.emitted, hu.init⟩, hbreak, ho⟩
  · have hle := hshrinks s () u hgen
    omega

/-- Reading a place puts it on a line and leaves a variable. -/
theorem deref {o : Operand} (h : o.Carries r k) :
    Breaks (r && k) (fun v _ => v.Carries false (!r && k)) (Gen.deref o) := by
  obtain ⟨hr, hk⟩ := h
  cases o with
  | reference place =>
    cases hr
    have hplace : hasBreak place.render = k := hk
    refine quietly freshTemp fun x _ hx => ?_
    refine andQuiet (emit ?_) fun _ _ _ => pure (Operand.carries_var (Variable.whole_named hx _))
    simp [Line.hasBreak_render, Line.pieces, Operand.isReference, hx, hplace]
  | integer value =>
    cases hr
    exact pure ⟨rfl, hk⟩
  | text text =>
    cases hr
    exact pure ⟨rfl, hk⟩
  | var v =>
    cases hr
    exact pure ⟨rfl, hk⟩

theorem evalDeref {p : Part} (h : Generates c (Operand.Carries r k) p.gen) :
    Breaks (c || r && k) (fun v _ => v.Carries false (!r && k)) (Gen.evalDeref p) :=
  (eval h).bind fun _ _ ho => deref ho

/-- A part whose value is put on a line by what follows: all that it carries is written, in its
place or in its value. -/
theorem spend {p : Part} {f : Operand → Gen β} (h : Generates c (Operand.Carries r k) p.gen)
    (hf : ∀ o v, o.Carries false v → Breaks (v || b) R (f o)) :
    Breaks (c || k || b) R (Gen.evalDeref p >>= f) := by
  refine ((evalDeref h).bind fun o _ ho => hf o _ ho).congr ?_
  cases r <;> simp [Bool.or_assoc]

/-! ### Constructs -/

variable {lhs rhs : Part}

theorem sum {x y : Operand} (hx : x.Carries false k) (hy : y.Carries false k') :
    Breaks (k || k') (TopIs (Operand.Carries false false)) (lowerSum x y) := by
  refine quietly freshTemp fun t _ ht => ?_
  show Breaks _ _ (if _ then _ else _)
  split
  · refine andQuiet (emit ?_) fun _ _ _ => pushVar ht _
    simp [Line.hasBreak_render, Line.pieces, Target.render, Formula.render, hasBreak_spelling, ht,
      hx.2, hy.2]
  · refine andQuiet (emit ?_) fun _ _ _ => pushVar ht _
    simp [Line.hasBreak_render, Line.pieces, Target.render, ht, hx.2, hy.2]

theorem arithmetic (op : BinaryOp) {x y : Operand} (hx : x.Carries false k)
    (hy : y.Carries false k') :
    Breaks (k || k') (TopIs (Operand.Carries false false)) (lowerArithmetic op x y) := by
  refine quietly freshTemp fun t _ ht => andQuiet (emit ?_) fun _ _ _ => pushVar ht _
  simp [Line.hasBreak_render, Line.pieces, Target.render, Formula.render, hasBreak_spelling, ht,
    hx.2, hy.2]

theorem comparands (op : BinaryOp) (ha : Generates c (Operand.Carries r k) lhs.gen)
    (hb : Generates c' (Operand.Carries r' k') rhs.gen) :
    Breaks (c || c' || (r && k || r' && k')) (fun x _ => x.1.Carries false (!r && k) ∧
      x.2.1.Carries false (!r' && k') ∧ hasBreak x.2.2.render = false)
      (Gen.comparands op lhs rhs) := by
  unfold Gen.comparands
  split
  · refine congr (b := c' || (c || (r && k || r' && k'))) ?_ (by ac_rfl)
    refine bind (eval hb) fun y _ hy => bind (eval ha) fun x _ hx => ?_
    refine quietly freshTemp fun t _ ht => bind (deref hx) fun x' _ hx' => ?_
    exact andQuiet (deref hy) fun y' _ hy' => pure ⟨hx', hy', ht⟩
  · refine congr (b := c || (c' || (r' && k' || r && k))) ?_ (by ac_rfl)
    refine bind (eval ha) fun x _ hx => bind (eval hb) fun y _ hy => ?_
    refine quietly freshTemp fun t _ ht => bind (deref hy) fun y' _ hy' => ?_
    exact andQuiet (deref hx) fun x' _ hx' => pure ⟨hx', hy', ht⟩

theorem binary (op : BinaryOp) (ha : Generates c (Operand.Carries r k) lhs.gen)
    (hb : Generates c' (Operand.Carries r' k') rhs.gen) :
    Breaks (c || k || (c' || k')) (TopIs (Operand.Carries false false))
      (lowerBinary op lhs rhs) := by
  -- A place is put on the line that reads it, and any other operand on the line of the operator.
  have hall : (c || (c' || (r' && k' || (r && k || (!r && k || !r' && k'))))) =
      (c || k || (c' || k')) := by
    cases r <;> cases r' <;> simp [Bool.or_comm, Bool.or_left_comm]
  unfold lowerBinary
  split
  · refine congr (b := c || c' || (r && k || r' && k') || (!r && k || !r' && k')) ?_ ?_
    · refine bind (comparands op ha hb) fun x _ hx => andQuiet (emit ?_) fun _ _ _ =>
        pushVar hx.2.2 _
      simp [Line.hasBreak_render, Line.pieces, hx.2.2, hx.1.2, hx.2.1.2]
    · rw [← hall]
      ac_rfl
  · refine congr ?_ hall
    refine bind (eval ha) fun x _ hx => bind (eval hb) fun y _ hy => ?_
    refine bind (deref hy) fun y' _ hy' => bind (deref hx) fun x' _ hx' => ?_
    show Breaks _ _ (if _ then _ else _)
    split
    · exact sum hx' hy'
    · exact arithmetic op hx' hy'

theorem conjunction (ha : Generates c (Operand.Carries r k) lhs.gen) (hb : Generates c' P rhs.gen) :
    Breaks (c || k || c') (fun _ _ => True) (lowerAnd lhs rhs) := by
  refine spend ha fun o v ho => bind (emit ?_) fun _ _ _ => ?_
  · simp [Line.hasBreak_render, Line.pieces, ho.2]
  · exact andQuiet (statement hb) fun _ _ _ => emit rfl

theorem disjunction (ha : Generates c (Operand.Carries r k) lhs.gen)
    (hb : Generates c' (Operand.Carries r' k') rhs.gen) :
    Breaks (c || k || (c' || k')) (TopIs (Operand.Carries false false)) (lowerOr lhs rhs) := by
  refine congr (b := c || k || (c' || k' || false)) ?_ (by rw [Bool.or_false])
  refine quietly freshTemp fun t _ ht => spend ha fun x v hx => bind (emitAll ?_) fun _ _ _ => ?_
  · simp [Line.hasBreak_render, Line.pieces, ht, hx.2]
  refine spend hb fun y w hy => bind (emitAll ?_) fun _ _ _ => pushVar ht _
  simp [Line.hasBreak_render, Line.pieces, ht, hy.2]

theorem conditional {cond : Part} {c'' k'' r'' : Bool}
    (hc : Generates c (Operand.Carries r k) cond.gen)
    (ha : Generates c' (Operand.Carries r' k') lhs.gen)
    (hb : Generates c'' (Operand.Carries r'' k'') rhs.gen) :
    Breaks (c || k || (c' || k' || (c'' || k''))) (TopIs (Operand.Carries false false))
      (lowerTernary cond lhs rhs) := by
  refine congr (b := c || k || (c' || k' || (c'' || k'' || false))) ?_ (by rw [Bool.or_false])
  refine spend hc fun z v hz => quietly freshTemp fun t _ ht => bind (emit ?_) fun _ _ _ => ?_
  · simp [Line.hasBreak_render, Line.pieces, hz.2]
  refine spend ha fun x w hx => bind (emit ?_) fun _ _ _ => quietly (emit rfl) fun _ _ _ => ?_
  · simp [Line.hasBreak_render, Line.pieces, Target.render, ht, hx.2]
  refine spend hb fun y w' hy => bind (emit ?_) fun _ _ _ => quietly (emit rfl) fun _ _ _ =>
    pushVar ht _
  simp [Line.hasBreak_render, Line.pieces, Target.render, ht, hy.2]

theorem ret {value : Part} (h : Generates c (Operand.Carries r k) value.gen) :
    Breaks (c || k) (fun _ _ => True) (lowerReturn value) := by
  refine congr (b := c || k || false) (spend h fun o v ho => ?_) (Bool.or_false _)
  refine congr (emitAll rfl) ?_
  simp [Line.hasBreak_render, Line.pieces, ho.hasBreak_spliceNow]

theorem nameTarget (loc : Nat) {name : String} (h : hasBreak name = false) (ty : ValueType) :
    Breaks false (fun place _ => hasBreak place.render = false) (Gen.nameTarget loc name ty) := by
  refine of_lines fun s place t hs hrun => ?_
  rcases nameTarget_eq_ok hrun with ⟨-, -, rfl, rfl⟩ | ⟨v, x, hv, hx, rfl, rfl⟩
  · exact ⟨hs.declare (Variable.whole_named (x := .user name) h ty) name, rfl, h⟩
  · exact ⟨hs, rfl, (hs.lookup hv).target (by rw [Variable.target?, hx])⟩

/-- A name that is assigned to carries no literals, an element those of its place. -/
theorem assign {target value : Part} (hv : Generates c (Operand.Carries r k) value.gen)
    (ht : Generates c' (Operand.Carries r' k') target.gen)
    (hname : ∀ loc name, target.node = .identifier loc name →
      hasBreak name = false ∧ c' = false ∧ k' = false) :
    Breaks (c || k || (c' || k')) (TopIs (Operand.Carries false (!r && k)))
      (lowerAssign target value) := by
  have hall : (c || r && k || (c' || (k' || !r && k))) = (c || k || (c' || k')) := by
    cases r <;> simp [Bool.or_comm, Bool.or_left_comm]
  have hline : ∀ {place : Target} {o : Operand}, hasBreak place.render = k' →
      o.Carries false (!r && k) → hasBreak (assignLine place o).render = (k' || !r && k) := by
    intro place o hplace ho
    unfold assignLine
    split <;> simp [Line.hasBreak_render, Line.pieces, Formula.render, hplace, ho.2]
  refine congr (bind (evalDeref hv) fun o _ ho => ?_) hall
  obtain ⟨node, gen⟩ := target
  cases node with
  | identifier loc name =>
    obtain ⟨hwhole, rfl, rfl⟩ := hname loc name rfl
    refine quietly (nameTarget loc hwhole _) fun place _ hplace => ?_
    exact andQuiet (emit (hline hplace ho)) fun _ _ _ => push ho
  | index loc base index =>
    refine bind (eval ht) fun p _ hp => ?_
    have hplace : hasBreak (Target.location p.splice).render = k' := hp.2
    show Breaks _ _ (Gen.emit (assignLine (.location p.splice) o) >>= fun _ => Gen.push o)
    exact andQuiet (emit (hline hplace ho)) fun _ _ _ => push ho
  | _ => exact fun s a t _ hrun => by cases hrun

theorem stepTarget (n : Node) {o : Operand} (h : o.Carries r k) :
    Breaks false (fun place _ => hasBreak place.render = k) (Gen.stepTarget n o) := by
  refine of_lines fun s place t hs hrun => ?_
  obtain ⟨rfl, ⟨text, rfl, rfl⟩ | ⟨v, x, rfl, hx, rfl⟩⟩ := stepTarget_eq_ok hrun
  · exact ⟨hs, rfl, h.2⟩
  · refine ⟨hs, rfl, ?_⟩
    have hmark : hasBreak "!" = false := by decide
    have hk := h.2
    show hasBreak x.render = k
    simpa [Operand.splice, Variable.read, hx, Fragment.render, hmark] using hk

theorem step (op : StepOp) {target : Part} (h : Generates c (Operand.Carries r k) target.gen) :
    Breaks (c || k) (TopIs (Operand.Carries false false)) (lowerStep op target) := by
  refine congr (b := c || (r && k || (!r && k || (k || !r && k)))) ?_ (by cases r <;> simp)
  refine bind (eval h) fun o _ ho => quietly (stepTarget _ ho) fun place _ hplace => ?_
  refine bind (deref ho) fun v _ hv => quietly freshTemp fun t _ ht => bind (emit ?_) fun _ _ _ => ?_
  · simp [Line.hasBreak_render, Line.pieces, Target.render, Formula.render, ht, hv.2]
  refine andQuiet (emit ?_) fun _ _ _ => pushVar ht _
  simp [Line.hasBreak_render, Line.pieces, Formula.render, hasBreak_stepSpelling, hplace, hv.2]

theorem index (ha : Generates c (Operand.Carries r k) lhs.gen)
    (hb : Generates c' (Operand.Carries r' k') rhs.gen) :
    Breaks (c || r && k || (c' || r' && k'))
      (TopIs (Operand.Carries true (!r && k || !r' && k'))) (lowerIndex lhs rhs) := by
  refine congr (b := c || (c' || r' && k' || r && k)) ?_ (by ac_rfl)
  refine bind (eval ha) fun x _ hx => bind (evalDeref hb) fun y _ hy => ?_
  refine andQuiet (deref hx) fun x' _ hx' => push ⟨rfl, ?_⟩
  have hdot : hasBreak (Fragment.chars ".").render = false := by decide
  show hasBreak (x'.splice ++ .chars "." :: y.splice).render = _
  rw [Text.render_append, Text.render_cons, hasBreak_append, hasBreak_append, hdot, hx'.2, hy.2,
    Bool.false_or]

/-! ### Constructs with lists of parts -/

variable {env : Env} {included : String → List String} {ns : List Node}

theorem block (h : ∀ n ∈ ns, Tracked env included n) :
    Breaks ((Node.writtenAll included ns).any hasBreak) (fun _ _ => True)
      (Gen.block (parts env ns)) := by
  induction ns with
  | nil => exact pure trivial
  | cons n ns ih =>
    rw [List.forall_mem_cons] at h
    rw [Node.writtenAll, List.any_append]
    exact bind (statement h.1) fun _ _ _ => ih h.2

theorem evalAll (h : ∀ n ∈ ns, Tracked env included n) :
    Breaks ((Node.writtenAll included ns).any hasBreak)
      (fun os _ => List.Forall₂ (fun n o => Operand.Carries n.isElement (n.left.any hasBreak) o) ns os)
      (Gen.evalAll (parts env ns)) := by
  induction ns with
  | nil => exact pure .nil
  | cons n ns ih =>
    rw [List.forall_mem_cons] at h
    rw [Node.writtenAll, List.any_append]
    refine bind (eval h.1) fun o _ ho => andQuiet (ih h.2) fun os _ hos => ?_
    exact pure (.cons ho hos)

theorem derefAll {os : List Operand}
    (h : List.Forall₂ (fun n o => Operand.Carries n.isElement (n.left.any hasBreak) o) ns os) :
    Breaks (ns.any fun n => n.isElement && n.left.any hasBreak)
      (fun vs _ => (vs.any fun v => hasBreak v.splice.render) =
        ns.any fun n => !n.isElement && n.left.any hasBreak)
      (Gen.derefAll os) := by
  induction h with
  | nil => exact pure rfl
  | @cons n o ns os ho _ ih =>
    rw [List.any_cons, Bool.or_comm]
    refine bind ih fun vs _ hvs => andQuiet (deref ho) fun v _ hv => pure ?_
    rw [List.any_cons, List.any_cons, hv.2, hvs]

theorem hasBreak_argument (o : Operand) :
    hasBreak (argument o).render = hasBreak o.splice.render := by
  have hquote : hasBreak "\"" = false := by decide
  unfold argument
  split <;> simp [Argument.render, hquote]

/-- The literals that a list of operands carries are in places or in values. -/
theorem any_left (ns : List Node) :
    ((ns.any fun n => n.isElement && n.left.any hasBreak) ||
      ns.any fun n => !n.isElement && n.left.any hasBreak) = (ns.flatMap Node.left).any hasBreak := by
  induction ns with
  | nil => rfl
  | cons n ns ih =>
    rw [List.flatMap_cons, List.any_append, ← ih]
    cases hn : n.isElement <;> simp [hn, Bool.or_left_comm, Bool.or_assoc]

theorem call {callee : Part} (hf : Generates c (Operand.Carries r k) callee.gen)
    (h : ∀ n ∈ ns, Tracked env included n) :
    Breaks (c || k || ((Node.writtenAll included ns).any hasBreak ||
      (ns.flatMap Node.left).any hasBreak)) (TopIs (Operand.Carries false false))
      (lowerCall callee (parts env ns)) := by
  refine spend hf fun f v hv => ?_
  rw [← any_left]
  refine congr ?_ (Bool.or_left_comm _ _ _)
  refine bind (evalAll h) fun os _ hos => ?_
  refine congr ?_ (Bool.or_left_comm _ _ _)
  refine bind (derefAll hos) fun vs _ hvs => quietly freshTemp fun t _ ht => ?_
  refine andQuiet (emit ?_) fun _ _ _ => pushVar ht _
  simp only [Line.hasBreak_render, Line.pieces, List.any_cons, hv.2, ht, List.any_map, ← hvs,
    Function.comp_def, hasBreak_argument, Bool.false_or]

theorem elements {handle : Name} (hhandle : hasBreak handle.render = false) (first : Nat)
    (h : ∀ n ∈ ns, Tracked env included n) :
    Breaks ((Node.writtenAll included ns).any hasBreak || (ns.flatMap Node.left).any hasBreak)
      (fun _ _ => True) (lowerElements handle first (parts env ns)) := by
  induction ns generalizing first with
  | nil => exact pure trivial
  | cons n ns ih =>
    rw [List.forall_mem_cons] at h
    refine congr (spend h.1 fun o v ho => bind (emit ?_) fun _ _ _ => ih (first + 1) h.2) ?_
    · have hdot : hasBreak "." = false := by decide
      simp only [Line.hasBreak_render, Line.pieces, Target.render, List.any_cons, List.any_nil,
        hasBreak_append, hasBreak_nat, hhandle, hdot, ho.2, Bool.or_false, Bool.false_or]
    · rw [Node.writtenAll, List.flatMap_cons, List.any_append, List.any_append]
      ac_rfl

theorem array (h : ∀ n ∈ ns, Tracked env included n) :
    Breaks ((Node.writtenAll included ns).any hasBreak || (ns.flatMap Node.left).any hasBreak)
      (TopIs (Operand.Carries false false)) (lowerArray (parts env ns)) := by
  refine quietly freshTemp fun t _ ht => quietly (emit ?_) fun _ _ _ => ?_
  · simp [Line.hasBreak_render, Line.pieces, Target.render, Fragment.render, ht]
  refine andQuiet (elements ht 0 h) fun _ _ _ => quietly (emit ?_) fun _ _ _ => pushVar ht _
  have hlength : hasBreak ".length" = false := by decide
  simp [Line.hasBreak_render, Line.pieces, Target.render, Fragment.render, ht, hlength]

theorem branch {ms : List Node} {cond : Part} (hc : Generates c (Operand.Carries r k) cond.gen)
    (ht : ∀ n ∈ ns, Tracked env included n) (he : ∀ n ∈ ms, Tracked env included n) :
    Breaks (c || k || ((Node.writtenAll included ns).any hasBreak ||
      (Node.writtenAll included ms).any hasBreak)) (fun _ _ => True)
      (lowerBranch cond (parts env ns) (parts env ms)) := by
  refine spend hc fun o v ho => bind (emit ?_) fun _ _ _ => bind (block ht) fun _ _ _ => ?_
  · simp [Line.hasBreak_render, Line.pieces, ho.2]
  cases ms with
  | nil => exact emit rfl
  | cons m ms =>
    exact quietly (emit rfl) fun _ _ _ => andQuiet (block he) fun _ _ _ => emit rfl

theorem loop {cond : Part} (hc : Generates c (Operand.Carries r k) cond.gen)
    (h : ∀ n ∈ ns, Tracked env included n) :
    Breaks (c || k || (Node.writtenAll included ns).any hasBreak) (fun _ _ => True)
      (lowerLoop cond (parts env ns)) := by
  refine quietly freshLabel fun l _ hl => quietly (emit ?_) fun _ _ _ => ?_
  · simp [Line.hasBreak_render, Line.pieces, hl]
  refine spend hc fun o v ho => bind (emit ?_) fun _ _ _ => andQuiet (block h) fun _ _ _ => ?_
  · simp [Line.hasBreak_render, Line.pieces, ho.2]
  refine quietly (emit ?_) fun _ _ _ => emit rfl
  simp [Line.hasBreak_render, Line.pieces, hl]

theorem functionName (loc : Nat) {name : Option String} (h : ∀ x ∈ name, hasBreak x = false) :
    Breaks false (fun f _ => hasBreak f.render = false) (Gen.functionName loc name) := by
  cases name with
  | none => exact freshTemp
  | some x =>
    have hx : hasBreak (Name.user x).render = false := h x rfl
    exact quietly (checkUserName loc x) fun _ _ _ =>
      quietly (declare x (Variable.whole_named hx _)) fun _ _ _ => pure hx

theorem declareParams (first : Nat) (params : List String) :
    Breaks false (fun _ _ => True) (Gen.declareParams first params) := by
  induction params generalizing first with
  | nil => exact pure trivial
  | cons param params ih =>
    exact quietly (declare param (Variable.whole_slot first _)) fun _ _ _ => ih (first + 1)

theorem function (loc : Nat) {name : Option String} (hname : ∀ x ∈ name, hasBreak x = false)
    (params : List String) (h : ∀ n ∈ ns, Tracked env included n) :
    Breaks ((Node.writtenAll included ns).any hasBreak) (TopIs (Operand.Carries false false))
      (lowerFunction loc name params (parts env ns)) := by
  have hafter : hasBreak "__after_" = false := by decide
  refine quietly (functionName loc hname) fun f _ hf => quietly (emitDecl ?_) fun _ _ _ => ?_
  · simp [Line.hasBreak_render, Line.pieces, hf]
  refine quietly (emitAll ?_) fun _ _ _ => ?_
  · simp [Line.hasBreak_render, Line.pieces, Label.render, hf, hafter]
  refine andQuiet (inScope (quietly (declareParams 2 params) fun _ _ _ => block h)) fun _ _ _ => ?_
  have hlast : Breaks false (TopIs (Operand.Carries false false)) (do
      Gen.emit (.label (.behind f))
      Gen.push (.text [.name f])) := by
    refine quietly (emit ?_) fun _ _ _ => push ⟨rfl, ?_⟩
    · simp [Line.hasBreak_render, Line.pieces, Label.render, hf, hafter]
    · simp [Operand.splice, Fragment.render, hf]
  split
  · exact hlast
  · exact quietly (emitAll rfl) fun _ _ _ => hlast

theorem program (h : ∀ n ∈ ns, Tracked env included n) :
    Breaks ((Node.writtenAll included ns).any hasBreak) (fun _ _ => True)
      (lowerProgram (parts env ns)) :=
  quietly (emitInit (by decide)) fun _ _ _ => quietly (emitInit (by decide)) fun _ _ _ => block h

end Breaks

/-! ## Units -/

theorem any_fetched (n : Node) :
    n.fetched.any hasBreak = (n.isElement && n.left.any hasBreak) := by
  unfold Node.fetched
  cases n.isElement <;> simp

theorem any_left_assign (l : Nat) (t v : Node) :
    (Node.assign l t v).left.any hasBreak = (!v.isElement && v.left.any hasBreak) := by
  rw [Node.left]
  cases v.isElement <;> simp

theorem any_left_index (l : Nat) (b i : Node) :
    (Node.index l b i).left.any hasBreak =
      (!b.isElement && b.left.any hasBreak || !i.isElement && i.left.any hasBreak) := by
  rw [Node.left, List.any_append]
  cases b.isElement <;> cases i.isElement <;> simp

/-- Within one unit, the literals of every node are tracked if those of its includes are. -/
theorem tracked_unit {env : Env} {included : String → List String}
    (hregistry : env.registry = .standard)
    (hinclude : ∀ loc args, Breaks ((Node.ofInclude included args).any hasBreak)
      (TopIs (Operand.Carries false false)) (lowerInclude env loc args)) (n : Node)
    (hnames : ∀ x ∈ n.names, isIdentifier x = true) : Tracked env included n := by
  have hall : ∀ {ns : List Node},
      (∀ n ∈ ns, (∀ x ∈ n.names, isIdentifier x = true) → Tracked env included n) →
      (∀ x ∈ Node.namesAll ns, isIdentifier x = true) → ∀ n ∈ ns, Tracked env included n :=
    fun ih hns n hn => ih n hn fun x hx => hns x (Node.mem_namesAll.2 ⟨n, hn, hx⟩)
  induction n using Node.induction with
  | program l body ih => exact .inr ⟨Breaks.program (hall ih hnames), .program _⟩
  | integer l v =>
    refine .inl (Breaks.push ⟨rfl, ?_⟩)
    simp [Operand.splice, Fragment.render, Node.left]
  | string l v =>
    refine .inl (Breaks.push ⟨rfl, ?_⟩)
    simp [Operand.splice, Fragment.render, Node.left]
  | identifier l x =>
    refine .inl ?_
    show Breaks _ _ (do push (.var (← Gen.resolve env.registry l x)))
    rw [hregistry]
    exact Breaks.quietly (Breaks.resolve l x) fun v _ hv => Breaks.push (Operand.carries_var hv)
  | binary l op a b iha ihb =>
    simp only [Node.names, List.mem_append, or_imp, forall_and] at hnames
    refine .inl ((Breaks.binary op (iha hnames.1) (ihb hnames.2)).congr ?_)
    simp only [Node.written, List.any_append]
  | and l a b iha ihb =>
    simp only [Node.names, List.mem_append, or_imp, forall_and] at hnames
    refine .inr ⟨(Breaks.conjunction (iha hnames.1) (ihb hnames.2)).congr ?_, .conjunction _ _⟩
    simp only [Node.written, List.any_append]
  | or l a b iha ihb =>
    simp only [Node.names, List.mem_append, or_imp, forall_and] at hnames
    refine .inl ((Breaks.disjunction (iha hnames.1) (ihb hnames.2)).congr ?_)
    simp only [Node.written, List.any_append]
  | assign l t v iht ihv =>
    simp only [Node.names, List.mem_append, or_imp, forall_and] at hnames
    refine .inl ?_
    rw [any_left_assign]
    refine (Breaks.assign (ihv hnames.2) (iht hnames.1) ?_).congr ?_
    · rintro loc name rfl
      exact ⟨hasBreak_identifier (hnames.1 name List.mem_cons_self), rfl, rfl⟩
    · simp only [Node.written, List.any_append]
  | branch l c t e ihc iht ihe =>
    simp only [Node.names, List.mem_append, or_imp, forall_and] at hnames
    obtain ⟨⟨hc, ht⟩, he⟩ := hnames
    refine .inr ⟨(Breaks.branch (ihc hc) (hall iht ht) (hall ihe he)).congr ?_, .branch _ _ _⟩
    simp only [Node.written, List.any_append]
  | ternary l c t e ihc iht ihe =>
    simp only [Node.names, List.mem_append, or_imp, forall_and] at hnames
    obtain ⟨⟨hc, ht⟩, he⟩ := hnames
    refine .inl ((Breaks.conditional (ihc hc) (iht ht) (ihe he)).congr ?_)
    simp only [Node.written, List.any_append]
  | loop l c body ihc ih =>
    simp only [Node.names, List.mem_append, or_imp, forall_and] at hnames
    refine .inr ⟨(Breaks.loop (ihc hnames.1) (hall ih hnames.2)).congr ?_, .loop _ _⟩
    simp only [Node.written, List.any_append]
  | function l x ps body ih =>
    simp only [Node.names, List.mem_append, or_imp, forall_and, Option.mem_toList] at hnames
    obtain ⟨⟨hx, -⟩, hbody⟩ := hnames
    exact .inl (Breaks.function l (fun y hy => hasBreak_identifier (hx y hy)) ps (hall ih hbody))
  | call l f args ihf ih =>
    simp only [Node.names, List.mem_append, or_imp, forall_and] at hnames
    refine .inl ?_
    rw [Node.written]
    show Breaks _ _ (if isInclude f then _ else _)
    split
    · exact hinclude l args
    · refine (Breaks.call (ihf hnames.1) (hall ih hnames.2)).congr ?_
      simp only [List.any_append]
  | ret l v ihv =>
    refine .inr ⟨(Breaks.ret (ihv hnames)).congr ?_, .ret _⟩
    simp only [Node.written, List.any_append]
  | step l op leading t iht =>
    refine .inl ((Breaks.step op (iht hnames)).congr ?_)
    simp only [Node.written, List.any_append]
  | array l es ih =>
    refine .inl ((Breaks.array (hall ih hnames)).congr ?_)
    simp only [Node.written, List.any_append]
  | index l b i ihb ihi =>
    simp only [Node.names, List.mem_append, or_imp, forall_and] at hnames
    refine .inl ?_
    rw [any_left_index]
    refine (Breaks.index (ihb hnames.1) (ihi hnames.2)).congr ?_
    simp only [Node.written, List.any_append, any_fetched]

theorem State.hasBreak_including (s t : State) :
    (s.including ⟨t.segments.decl, t.segments.code, t.scopes.root, t.shared⟩).hasBreak =
      (s.hasBreak || t.hasBreak) := by
  simp only [State.hasBreak, State.including, Segments.splice, List.any_append]
  ac_rfl

/-- An include puts on lines what the included unit does. -/
theorem breaks_include {setup : Setup} {depth : Nat} {base path : String} {s u : State}
    (hnode : ∀ program : Node, (∀ x ∈ program.names, isIdentifier x = true) →
      Generates ((setup.written depth (Path.directory base path) program).any hasBreak)
        (Operand.Carries program.isElement (program.left.any hasBreak))
        (node (setup.env depth (Path.directory base path)) program))
    (hs : s.Whole) {unit : Contribution}
    (hunit : setup.includeUnit (setup.env depth (Path.directory base path)) path s.shared = .ok unit)
    (hu : u = s.including unit) :
    u.Whole ∧ u.hasBreak = (s.hasBreak ||
      (((setup.program? path).map (setup.written depth (Path.directory base path))).getD []).any
        hasBreak) := by
  obtain ⟨source, program, t, hsource, hread, hrun, rfl⟩ := Setup.includeUnit_eq_ok hunit
  have hprogram : setup.program? path = some program := by
    simp [Setup.program?, hsource, hread, Except.toOption]
  have hstart : State.Whole { shared := s.shared } :=
    State.whole_start s.shared fun entry hentry => hs.emitted hentry
  obtain ⟨ht, hbreak, -⟩ :=
    Breaks.statement (hnode program (isIdentifier_of_readUnit hread)) _ _ _ hstart hrun
  have hfresh : State.hasBreak { shared := s.shared } = false := rfl
  subst hu
  refine ⟨?_, ?_⟩
  · have hdeclared : State.Whole { s with scopes := s.scopes.declareAll t.scopes.root } :=
      hs.declareAll fun entry hentry =>
        ht.scope (List.mem_append_right _ (List.mem_singleton.2 rfl)) hentry
    exact ⟨hdeclared.scope, ht.emitted, hs.init⟩
  · rw [State.hasBreak_including, hbreak, hfresh, Bool.false_or, hprogram]
    rfl

/-- Generating a node puts its literals and those of the units it includes on lines. -/
theorem generates_node {setup : Setup} (hstandard : setup.registry = .standard) (depth : Nat)
    (base : String) (n : Node) (hnames : ∀ x ∈ n.names, isIdentifier x = true) :
    Generates ((setup.written depth base n).any hasBreak)
      (Operand.Carries n.isElement (n.left.any hasBreak)) (node (setup.env depth base) n) := by
  induction depth generalizing base n with
  | zero =>
    refine tracked_unit ((setup.registry_env 0 base).trans hstandard) (fun loc args => ?_) n hnames
    unfold lowerInclude
    split <;> exact Breaks.fail _ _
  | succ depth ih =>
    refine tracked_unit ((setup.registry_env (depth + 1) base).trans hstandard)
      (fun loc args => ?_) n hnames
    by_cases hargs : ∃ l path, args = [.string l path]
    · obtain ⟨l, path, rfl⟩ := hargs
      intro s a u hs hrun
      rw [lowerInclude_path] at hrun
      cases hunit : setup.includeUnit
          (setup.env depth (Path.directory base (Path.join base path))) (Path.join base path)
          s.shared with
      | error e =>
        simp only [Setup.env, hunit] at hrun
        cases hrun
      | ok unit =>
        simp only [Setup.env, hunit] at hrun
        cases hrun
        obtain ⟨hwhole, hbreak⟩ := breaks_include (ih _) hs hunit rfl
        exact ⟨hwhole, hbreak, .text [.chars "include"], s.stack, rfl, rfl, by decide⟩
    · obtain ⟨l, problem, hwrong⟩ := lowerInclude_wrong (setup.env (depth + 1) base) loc
        fun l path heq => hargs ⟨l, path, heq⟩
      intro s a u _ hrun
      rw [hwrong] at hrun
      cases hrun

/-! ## Physical lines -/

/-- All the lines, in the order of the script. -/
def Segments.lines (segments : Segments) : List Line :=
  segments.init ++ segments.decl ++ segments.code

/-- The lines of a segment as they stand in the script, where an empty segment is an empty line. -/
def Segments.shown (lines : List Line) : List String :=
  if lines.isEmpty then [""] else lines.map Line.render

theorem Segments.shown_ne_nil (lines : List Line) : shown lines ≠ [] := by
  cases lines <;> simp [shown]

theorem Segments.toList_joinLines (lines : List Line) :
    (joinLines lines).toList = ['\n'].intercalate ((shown lines).map String.toList) := by
  cases lines with
  | nil => decide
  | cons line lines =>
    rw [joinLines, String.toList_intercalate]
    rfl

theorem not_mem_of_hasBreak {text : String} (h : hasBreak text = false) : '\n' ∉ text.toList := by
  intro hmem
  rw [hasBreak, List.any_eq_false] at h
  exact h _ hmem (by decide)

/-- A segment without broken lines is cut into its lines. -/
theorem Segments.splitOn_joinLines {lines : List Line}
    (h : ∀ line ∈ lines, hasBreak line.render = false) :
    (joinLines lines).toList.splitOn '\n' = (shown lines).map String.toList := by
  rw [toList_joinLines, List.splitOn_intercalate]
  · intro text htext
    obtain ⟨shownLine, hshown, rfl⟩ := List.mem_map.1 htext
    refine not_mem_of_hasBreak ?_
    unfold shown at hshown
    split at hshown
    · rw [List.mem_singleton.1 hshown]
      decide
    · obtain ⟨line, hline, rfl⟩ := List.mem_map.1 hshown
      exact h line hline
  · simp [shown_ne_nil]

/-- A script without broken lines is cut into its lines. The last line ends in a line feed, behind
which nothing follows. -/
theorem Segments.splitOn_assemble {segments : Segments}
    (h : ∀ line ∈ segments.lines, hasBreak line.render = false) :
    (segments.assemble.toList.splitOn '\n').map String.ofList =
      shown segments.init ++ shown segments.decl ++ shown segments.code ++ [""] := by
  simp only [lines, List.forall_mem_append] at h
  obtain ⟨⟨hinit, hdecl⟩, hcode⟩ := h
  have hcut : segments.assemble.toList.splitOn '\n' =
      (shown segments.init).map String.toList ++ ((shown segments.decl).map String.toList ++
        ((shown segments.code).map String.toList ++ [[]])) := by
    rw [← splitOn_joinLines hinit, ← splitOn_joinLines hdecl, ← splitOn_joinLines hcode,
      ← List.splitOn_nil '\n', ← List.splitOn_append_cons_self, ← List.splitOn_append_cons_self,
      ← List.splitOn_append_cons_self]
    simp [assemble]
  rw [hcut]
  simp [Function.comp_def]

/-! ## Whole compilations -/

/-- **A line of the script is broken exactly if a literal that is written has a line break.** If none
is, cutting the script at its line feeds gives its lines, segment by segment. -/
theorem lines_unbroken_iff (files : String → Except IoError String) (options : Options)
    (source script : String) (hcompile : compileSource files options source = .ok script) :
    ∃ program t, readUnit options.folding source = .ok program ∧
      generate (options.env .standard files) source program {} = .ok () t ∧ script = t.script ∧
      ((∀ line ∈ t.segments.lines, hasBreak line.render = false) ↔
        ∀ literal ∈ (options.setup files).written options.limit options.base program,
          hasBreak literal = false) ∧
      ((∀ line ∈ t.segments.lines, hasBreak line.render = false) →
        (script.toList.splitOn '\n').map String.ofList =
          Segments.shown t.segments.init ++ Segments.shown t.segments.decl ++
            Segments.shown t.segments.code ++ [""]) := by
  obtain ⟨program, t, hread, hgenerate, hscript⟩ := compileSource_eq_ok hcompile
  have hnode := @generates_node (options.setup files) rfl options.limit options.base program
    (isIdentifier_of_readUnit hread)
  obtain ⟨ht, hbreak, -⟩ := Breaks.statement hnode {} () t
    (State.whole_start {} fun entry hentry => absurd hentry List.not_mem_nil)
    (generate_eq_ok hgenerate)
  have hfresh : State.hasBreak {} = false := rfl
  rw [hfresh, Bool.false_or] at hbreak
  refine ⟨program, t, hread, hgenerate, hscript, ?_, fun hlines => ?_⟩
  · have hinit : ∀ line ∈ t.segments.init, hasBreak line.render = false := fun line => ht.init
    have hrest : (∀ line ∈ t.segments.lines, hasBreak line.render = false) ↔ t.hasBreak = false := by
      simp only [Segments.lines, State.hasBreak, List.append_assoc, List.any_eq_false,
        Bool.not_eq_true]
      rw [List.forall_mem_append]
      exact and_iff_right hinit
    rw [hrest, hbreak, List.any_eq_false]
    simp only [Bool.not_eq_true]
  · rw [hscript]
    exact Segments.splitOn_assemble hlines

/-- A source with a literal that has a line break, and that no line is made of. -/
def unbrokenSource : String := "x = \"a!b\"; \"c\\nd\";"

/-- The script of `unbrokenSource` is cut into its lines. -/
theorem unbrokenSource_lines :
    ∃ script, compileSource (fun _ => .error .notFound) {} unbrokenSource = .ok script ∧
      ∃ t : State, script = t.script ∧
        (∀ line ∈ t.segments.lines, hasBreak line.render = false) ∧
        (script.toList.splitOn '\n').map String.ofList =
          Segments.shown t.segments.init ++ Segments.shown t.segments.decl ++
            Segments.shown t.segments.code ++ [""] := by
  obtain ⟨script, hcompile⟩ :
      ∃ script, compileSource (fun _ => .error .notFound) {} unbrokenSource = .ok script :=
    exists_script (by decide +kernel)
  obtain ⟨program, t, hread, -, hscript, hiff, hsplit⟩ :=
    lines_unbroken_iff _ {} unbrokenSource script hcompile
  have hwritten : ((readUnit true unbrokenSource).toOption.all fun program =>
      ((Options.setup {} fun _ => .error .notFound).written 64 "." program).all
        fun literal => !hasBreak literal) = true := by
    decide +kernel
  have hlines := hiff.2 (by simpa [hread, Except.toOption] using hwritten)
  exact ⟨script, hcompile, t, hscript, hlines, hsplit hlines⟩

/-- A source that assigns a literal with a line break. -/
def brokenSource : String := "x = \"a\\nb\";"

/-- The state in which the compilation of `brokenSource` ends. -/
def brokenState : State :=
  { segments :=
      { init := [.echoOff, .deferExpansion]
        code := [.assign (.var (.user "x")) [.chars "a^\nb"]] }
    scopes := { root := [("x", .named (.user "x") .text)] } }

theorem state?_brokenSource :
    Options.state? {} (fun _ => .error .notFound) brokenSource = some brokenState := by
  decide +kernel

/-- In the script of `brokenSource` one line is two: the literal is put on it with its line feed. -/
theorem literal_breaks_line :
    ∃ program t, readUnit true brokenSource = .ok program ∧
      generate (Options.env {} .standard fun _ => .error .notFound) brokenSource program {} =
        .ok () t ∧
      compileSource (fun _ => .error .notFound) {} brokenSource = .ok t.script ∧
      (∃ line ∈ t.segments.code, '\n' ∈ line.render.toList) ∧
      (t.script.toList.splitOn '\n').map String.ofList ≠
        Segments.shown t.segments.init ++ Segments.shown t.segments.decl ++
          Segments.shown t.segments.code ++ [""] := by
  obtain ⟨program, hread, hgenerate, hcompile⟩ := Options.state?_eq_some state?_brokenSource
  refine ⟨program, brokenState, hread, hgenerate, hcompile, ?_, by decide⟩
  exact ⟨_, List.mem_singleton.2 rfl, by decide⟩

end BatchCompiler
