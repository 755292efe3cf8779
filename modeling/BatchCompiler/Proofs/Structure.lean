/-
# BatchCompiler.Proofs.Structure -- blocks in the script are properly nested

The lines that open and close blocks, the labels and the jumps come from different places of the
generator, one line at a time, and texts of the user stand between them. Seen as a word over lines,
the code is nevertheless always a word of a small grammar (`Structured`): conditionals, loops,
returns and functions, each around blocks of its own, and lines that have no part in this.

`Writes` says of a step of generation what language its lines are a word of. Languages multiply when
steps follow each other, so each construct is its grammar rule. The one way in which a text could
break this is a line that ends in a text of the user; such a text never looks like the end of a line
that opens a block, because parentheses in it are escaped and names have none.
-/

import Mathlib.Computability.Language
import Mathlib.Order.CompletePartialOrder
import BatchCompiler.Proofs.Label
import BatchCompiler.Proofs.Naming

namespace BatchCompiler

/-! ## The grammar -/

/-- The text ends as a line does that opens a block. -/
def endsOpen (text : String) : Bool := [' ', '('] <:+ text.toList

/-- A line that neither opens nor closes a block, defines no label and does not jump. -/
def isSimple (text : String) : Bool :=
  text ≠ ")" ∧ text ≠ ") else (" ∧ ¬ endsOpen text ∧ text.toList.head? ≠ some ':' ∧
    ¬ "goto ".toList <+: text.toList

/-- Lines that make up a block: one construct after the other. -/
inductive Structured : List String → Prop where
  | nil : Structured []
  | append {xs ys : List String} : Structured xs → Structured ys → Structured (xs ++ ys)
  | simple {line : String} : isSimple line = true → Structured [line]
  | branch (c : String) {body : List String} :
    Structured body → Structured (["if " ++ c ++ " neq 0 ("] ++ body ++ [")"])
  | branches (c : String) {body other : List String} : Structured body → Structured other →
    Structured (["if " ++ c ++ " neq 0 ("] ++ body ++ [") else ("] ++ other ++ [")"])
  | loop (l c : String) {test body : List String} : Structured test → Structured body →
    Structured ([":" ++ l] ++ test ++ ["if " ++ c ++ " neq 0 ("] ++ body ++ ["goto :" ++ l, ")"])
  | ret {line : String} : isSimple line = true → "set ".toList <+: line.toList →
    Structured ["endlocal & (", line, ")", "exit /b"]
  /-- A function. Control comes to its first line only by a call and leaves behind its last. -/
  | function (f : String) {body : List String} :
    Structured body → body.getLast? = some "exit /b" →
    Structured (["goto :__after_" ++ f, ":" ++ f, "setlocal"] ++ body ++ [":__after_" ++ f])

/-! ## Texts that end lines -/

theorem endsOpen_iff {text : String} :
    endsOpen text = true ↔ ['(', ' '] <+: text.toList.reverse := by
  rw [endsOpen, decide_eq_true_iff, ← List.reverse_prefix]
  rfl

/-- Behind an equals sign, only the text itself can end as a line does that opens a block. -/
theorem endsOpen_behind_equals (front text : String) :
    endsOpen (front ++ "=" ++ text) = endsOpen text := by
  rw [Bool.eq_iff_iff, endsOpen_iff, endsOpen_iff]
  simp only [String.toList_append, List.reverse_append]
  cases text.toList.reverse with
  | nil => simp
  | cons b front =>
    cases front with
    | nil => simp
    | cons a front => simp

/-- An escaped text does not end as a line does that opens a block. -/
theorem endsOpen_escape (s : String) : endsOpen (escape s) = false := by
  rw [Bool.eq_false_iff, Ne, endsOpen_iff, escape, String.toList_ofList]
  rcases List.eq_nil_or_concat' s.toList with hs | ⟨front, c, hs⟩
  · simp [hs]
  · rw [hs, List.flatMap_append, List.reverse_append, List.flatMap_singleton, escapeChar]
    -- The last character is plain, or a caret stands in front of it.
    split
    · simp
    · split
      next hplain =>
        have hc : '(' ≠ c := by
          rintro rfl
          exact absurd hplain (by decide)
        simp [hc]
      next => simp

/-- The text has a last character, which does not open anything. -/
def endsShut (text : String) : Bool := text.toList.getLast?.any (· ≠ '(')

theorem endsOpen_of_endsShut {text : String} (h : endsShut text = true) :
    endsOpen text = false := by
  obtain ⟨c, hlast, hc⟩ := (Option.any_eq_true _ _).1 h
  obtain ⟨front, hfront⟩ := List.getLast?_eq_some_iff.1 hlast
  rw [Bool.eq_false_iff, Ne, endsOpen_iff, hfront]
  have hne : '(' ≠ c := fun heq => by simp [← heq] at hc
  simp [hne]

theorem endsShut_append (front : String) {text : String} (h : endsShut text = true) :
    endsShut (front ++ text) = true := by
  obtain ⟨c, hlast, hc⟩ := (Option.any_eq_true _ _).1 h
  rw [endsShut, String.toList_append, List.getLast?_append, hlast]
  exact hc

theorem endsShut_of_all {text : String} (hne : text.toList ≠ [])
    (h : ∀ c ∈ text.toList, c ≠ '(') : endsShut text = true := by
  rw [endsShut, List.getLast?_eq_some_getLast hne, Option.any_some]
  exact decide_eq_true (h _ (List.getLast_mem hne))

theorem endsShut_toString (n : Nat) : endsShut (toString n) = true := by
  refine endsShut_of_all ?_ ?_
  · simp
  · intro c hc heq
    have hdigit : c.isDigit = true := isDigit_of_mem_digits (by simpa using hc)
    rw [heq] at hdigit
    cases hdigit

theorem endsShut_int (v : Int) : endsShut (toString v) = true := by
  cases v with
  | ofNat n => exact endsShut_toString n
  | negSucc n => exact endsShut_append "-" (endsShut_toString (n + 1))

theorem endsShut_temp (n : Nat) : endsShut (Name.temp n).render = true :=
  endsShut_append "__" (endsShut_toString n)

theorem endsShut_identifier {x : String} (h : isIdentifier x = true) : endsShut x = true := by
  have hpart : isWordPart '(' = false := by decide
  have hstart : isWordStart '(' = false := by decide
  rw [isIdentifier, Bool.and_eq_true] at h
  cases hx : x.toList with
  | nil =>
    rw [hx] at h
    cases h.1
  | cons c cs =>
    rw [hx, isWord, Bool.and_eq_true, List.all_eq_true] at h
    refine endsShut_of_all (by simp [hx]) ?_
    rw [hx]
    rintro d hd rfl
    rcases List.mem_cons.1 hd with rfl | hd
    · exact absurd h.1.1 (by simp [hstart])
    · exact absurd (h.1.2 _ hd) (by simp [hpart])

/-! ## Simple lines -/

theorem isSimple_render {line : Line} {c : Char} (hfirst : line.initial? = some c)
    (hc : c ∉ [')', ':', 'g']) (hlast : endsOpen line.render = false) :
    isSimple line.render = true := by
  have hhead : line.render.toList.head? = some c := line.head?_render.trans hfirst
  have hne : ∀ text : String, text.toList.head? = some ')' → line.render ≠ text := by
    intro text htext heq
    rw [heq, htext] at hhead
    cases hhead
    simp at hc
  have hcolon : line.render.toList.head? ≠ some ':' := by
    intro heq
    rw [heq] at hhead
    cases hhead
    simp at hc
  have hgoto : ¬ ['g', 'o', 't', 'o', ' '] <+: line.render.toList := by
    rintro ⟨rest, hrest⟩
    rw [← hrest] at hhead
    cases hhead
    simp at hc
  simp [isSimple, hne ")" rfl, hne ") else (" rfl, hlast, hcolon, hgoto]

theorem isSimple_of_endsShut {line : Line} {c : Char} (hfirst : line.initial? = some c)
    (hc : c ∉ [')', ':', 'g']) (hlast : endsShut line.render = true) :
    isSimple line.render = true :=
  isSimple_render hfirst hc (endsOpen_of_endsShut hlast)

theorem isSimple_assign (target : Target) (value : Text) :
    isSimple (Line.assign target value).render = true :=
  isSimple_of_endsShut rfl (by decide) (endsShut_append _ rfl)

theorem isSimple_compute (target : Target) (formula : Formula) :
    isSimple (Line.compute target formula).render = true :=
  isSimple_of_endsShut rfl (by decide) (endsShut_append _ rfl)

theorem isSimple_assignLine (target : Target) (value : Operand) :
    isSimple (Gen.assignLine target value).render = true := by
  unfold Gen.assignLine
  split
  · exact isSimple_compute _ _
  · exact isSimple_assign _ _

theorem isSimple_fetch (x : Name) (place : Text) : isSimple (Line.fetch x place).render = true :=
  isSimple_of_endsShut rfl (by decide) (endsShut_append _ rfl)

theorem isSimple_compare (x : Name) (op : BinaryOp) (a b : Text) :
    isSimple (Line.compare x op a b).render = true :=
  isSimple_of_endsShut rfl (by decide) (endsShut_append _ rfl)

theorem isSimple_flag (x : Name) (truth : Bool) : isSimple (Line.flag x truth).render = true := by
  refine isSimple_of_endsShut rfl (by decide) (endsShut_append _ ?_)
  cases truth <;> rfl

theorem isSimple_returnZero : isSimple Line.returnZero.render = true := by decide

theorem isSimple_leaveFunction : isSimple Line.leaveFunction.render = true := by decide

/-! ## Operands -/

/-- The operand can stand at the end of a line. -/
def Operand.IsTame : Operand → Prop
  | .text t => endsOpen t.render = false
  | _ => True

/-- The operand can stand at the end of a line, and its value has been read. -/
def Operand.IsReady (o : Operand) : Prop := o.isReference = false ∧ o.IsTame

theorem endsShut_read (v : Variable) : endsShut v.read.render = true := by
  obtain ⟨storage, ty⟩ := v
  cases storage with
  | named x => exact endsShut_append _ rfl
  | slot i => exact endsShut_append _ (endsShut_toString i)

theorem endsShut_readNow (v : Variable) : endsShut v.readNow.render = true := by
  obtain ⟨storage, ty⟩ := v
  cases storage with
  | named x => exact endsShut_append _ rfl
  | slot i => exact endsShut_append _ (endsShut_toString i)

theorem Operand.IsReady.endsOpen_spliceNow {o : Operand} (h : o.IsReady) :
    endsOpen o.spliceNow.render = false := by
  cases o with
  | integer v =>
    refine endsOpen_of_endsShut ?_
    simpa [spliceNow, splice, Fragment.render] using endsShut_int v
  | text t => exact h.2
  | reference place => cases h.1
  | var v =>
    refine endsOpen_of_endsShut ?_
    simpa [spliceNow] using endsShut_readNow v

theorem isSimple_setResult {o : Operand} (h : o.IsReady) (isNumber : Bool) :
    isSimple (Line.setResult isNumber o.spliceNow).render = true := by
  refine isSimple_render rfl (by decide) ?_
  have hequals : " %1=" = " %1" ++ "=" := by decide
  show endsOpen ("set" ++ (if isNumber then " /a" else "") ++ " %1=" ++ o.spliceNow.render) = false
  rw [hequals, ← String.append_assoc, endsOpen_behind_equals]
  exact h.endsOpen_spliceNow

theorem endsShut_argument (o : Operand) : endsShut (Gen.argument o).render = true := by
  unfold Gen.argument
  split
  next hinteger =>
    cases o with
    | integer v => simpa [Argument.render, Operand.splice, Fragment.render] using endsShut_int v
    | text t => cases hinteger
    | reference place => cases hinteger
    | var v => simpa [Argument.render, Operand.splice] using endsShut_read v
  next => exact endsShut_append _ rfl

theorem isSimple_call (callee : Text) (n : Nat) (values : List Operand) :
    isSimple (Line.call callee (.temp n) (values.map Gen.argument)).render = true := by
  refine isSimple_of_endsShut rfl (by decide) ?_
  unfold Line.render
  rcases List.eq_nil_or_concat' values with rfl | ⟨front, v, rfl⟩
  · simpa using endsShut_append _ (endsShut_temp n)
  · refine endsShut_append _ ?_
    rw [List.map_append, List.map_append, String.join_append]
    refine endsShut_append _ ?_
    simpa using endsShut_append " " (endsShut_argument v)

/-! ## What steps of generation write -/

/-- No operand on the stack ends as a line does that opens a block. -/
def State.Tame (s : State) : Prop := ∀ o ∈ s.stack, o.IsTame

/-- The step, if it succeeds, writes lines that are a word of the language, keeps the stack tame and
gives a result as `Q` says. -/
def Writes {α : Type} (L : Language String) (Q : α → Prop) (m : Gen α) : Prop :=
  ∀ s a t, s.Tame → m s = .ok a t → t.Tame ∧ Q a ∧
    ∃ lines, t.segments.code = s.segments.code ++ lines ∧ lines.map Line.render ∈ L

/-- The blocks of the grammar. -/
def blocks : Language String := {lines | Structured lines}

/-- The blocks of the grammar that leave a function. -/
def leaving : Language String := {lines | Structured lines ∧ lines.getLast? = some "exit /b"}

/-- The lines that open a conditional block. -/
def opening : Language String := {lines | ∃ c, lines = ["if " ++ c ++ " neq 0 ("]}

/-- The step writes a block. -/
abbrev WritesBlock {α : Type} (m : Gen α) : Prop := Writes blocks (fun _ => True) m

theorem one_le_blocks : 1 ≤ blocks := by
  rintro lines rfl
  exact .nil

theorem blocks_mul_blocks : blocks * blocks ≤ blocks := by
  rintro _ ⟨xs, hxs, ys, hys, rfl⟩
  exact .append hxs hys

theorem leaving_le_blocks : leaving ≤ blocks := fun _ h => h.1

theorem blocks_mul_leaving : blocks * leaving ≤ leaving := by
  rintro _ ⟨xs, hxs, ys, ⟨hys, hlast⟩, rfl⟩
  refine ⟨.append hxs hys, ?_⟩
  show (xs ++ ys).getLast? = some "exit /b"
  rw [List.getLast?_append, hlast]
  rfl

namespace Writes

open Gen

variable {α β : Type} {L M : Language String} {Q : α → Prop} {R : β → Prop} {m : Gen α}
  {f : α → Gen β}

theorem mono (h : Writes L Q m) (hle : L ≤ M) : Writes M Q m := by
  intro s a t hs hm
  obtain ⟨ht, ha, lines, hlines, hmem⟩ := h s a t hs hm
  exact ⟨ht, ha, lines, hlines, hle hmem⟩

/-- The lines of two steps follow each other. -/
theorem bind (hm : Writes L Q m) (hf : ∀ a, Q a → Writes M R (f a)) : Writes (L * M) R (m >>= f) := by
  intro s b u hs hrun
  obtain ⟨a, t, hmt, hfu⟩ := bind_eq_ok_iff.1 hrun
  obtain ⟨ht, ha, xs, hxs, hL⟩ := hm s a t hs hmt
  obtain ⟨hu, hb, ys, hys, hM⟩ := hf a ha t b u ht hfu
  refine ⟨hu, hb, xs ++ ys, by rw [hys, hxs, List.append_assoc], ?_⟩
  rw [List.map_append]
  exact Language.append_mem_mul hL hM

/-- A step that writes nothing comes first. -/
theorem quietly (hm : Writes 1 Q m) (hf : ∀ a, Q a → Writes M R (f a)) : Writes M R (m >>= f) := by
  rw [← one_mul M]
  exact bind hm hf

/-- A step that writes a block comes first. -/
theorem andThen (hm : Writes blocks Q m) (hf : ∀ a, Q a → Writes blocks R (f a)) :
    Writes blocks R (m >>= f) :=
  (bind hm hf).mono blocks_mul_blocks

/-- A step that writes nothing comes last. -/
theorem bindQuiet (hm : Writes L Q m) (hf : ∀ a, Q a → Writes 1 R (f a)) : Writes L R (m >>= f) := by
  rw [← mul_one L]
  exact bind hm hf

/-! ### Primitive steps -/

theorem of_code_eq (h : ∀ s a t, s.Tame → m s = .ok a t →
    t.Tame ∧ Q a ∧ t.segments.code = s.segments.code) : Writes 1 Q m := by
  intro s a t hs hm
  obtain ⟨ht, ha, hcode⟩ := h s a t hs hm
  exact ⟨ht, ha, [], by rw [hcode, List.append_nil], rfl⟩

theorem pure {a : α} (h : Q a) : Writes 1 Q (Pure.pure a) := by
  refine of_code_eq fun s b t hs hrun => ?_
  cases hrun
  exact ⟨hs, h, rfl⟩

theorem fail (loc : Nat) (cause : Cause) : Writes L Q (Gen.fail loc cause) := by
  intro s a t _ hrun
  cases hrun

theorem freshTemp : Writes 1 (fun x => ∃ n, x = .temp n) Gen.freshTemp := by
  refine of_code_eq fun s x t hs hrun => ?_
  cases hrun
  exact ⟨hs, ⟨_, rfl⟩, rfl⟩

theorem freshLabel : Writes 1 (fun _ => True) Gen.freshLabel := by
  refine of_code_eq fun s l t hs hrun => ?_
  cases hrun
  exact ⟨hs, trivial, rfl⟩

theorem declare (name : String) (v : Variable) : Writes 1 (fun _ => True) (Gen.declare name v) := by
  refine of_code_eq fun s u t hs hrun => ?_
  cases hrun
  exact ⟨hs, trivial, rfl⟩

theorem push {o : Operand} (h : o.IsTame) : Writes 1 (fun _ => True) (Gen.push o) := by
  refine of_code_eq fun s u t hs hrun => ?_
  cases hrun
  refine ⟨?_, trivial, rfl⟩
  intro o' ho'
  rcases List.mem_cons.1 ho' with rfl | ho'
  · exact h
  · exact hs o' ho'

theorem pushVar (x : Name) (ty : ValueType) : Writes 1 (fun _ => True) (Gen.pushVar x ty) :=
  push trivial

theorem dropTo (depth : Nat) : Writes 1 (fun _ => True) (Gen.dropTo depth) := by
  refine of_code_eq fun s u t hs hrun => ?_
  cases hrun
  exact ⟨fun o ho => hs o (List.mem_of_mem_drop ho), trivial, rfl⟩

theorem declaration (line : Line) : Writes 1 (fun _ => True) (emitTo .decl line) := by
  refine of_code_eq fun s u t hs hrun => ?_
  cases hrun
  exact ⟨hs, trivial, rfl⟩

theorem checkUserName (loc : Nat) (name : String) :
    Writes 1 (fun _ => True) (Gen.checkUserName loc name) := by
  refine of_code_eq fun s u t hs hrun => ?_
  obtain ⟨-, rfl⟩ := checkUserName_eq_ok hrun
  exact ⟨hs, trivial, rfl⟩

theorem emitAll {lines : List Line} (h : lines.map Line.render ∈ L) :
    Writes L (fun _ => True) (Gen.emitAll lines) := by
  intro s u t hs hrun
  rw [emitAll_apply] at hrun
  cases hrun
  exact ⟨hs, trivial, lines, rfl, h⟩

theorem emit {line : Line} (h : [line.render] ∈ L) : Writes L (fun _ => True) (Gen.emit line) := by
  intro s u t hs hrun
  cases hrun
  exact ⟨hs, trivial, [line], rfl, h⟩

theorem emitLine (line : Line) : Writes {[line.render]} (fun _ => True) (Gen.emit line) := emit rfl

theorem emitSimple {line : Line} (h : isSimple line.render = true) :
    WritesBlock (Gen.emit line) :=
  emit (.simple h)

theorem openIf (c : Text) : Writes opening (fun _ => True) (Gen.emit (.openIf c)) :=
  emit ⟨c.render, rfl⟩

theorem inScope (h : Writes L Q m) : Writes L Q (Gen.inScope m) := by
  intro s a t hs hrun
  unfold Gen.inScope at hrun
  split at hrun
  next u hm =>
    cases hrun
    exact h { s with scopes := s.scopes.enter } a u hs hm
  next => cases hrun

/-! ### Parts -/

theorem statement {m : Gen Unit} (h : Writes L (fun _ => True) m) :
    Writes L (fun _ => True) (Gen.statement m) := by
  have hget : Writes 1 (fun _ => True) (get : Gen State) :=
    of_code_eq fun s a t hs hrun => by
      cases hrun
      exact ⟨hs, trivial, rfl⟩
  exact quietly hget fun s _ => bindQuiet h fun _ _ => dropTo _

theorem eval {p : Part} (h : Writes L (fun _ => True) p.gen) :
    Writes L Operand.IsTame (Gen.eval p) := by
  intro s o u hs hrun
  obtain ⟨t, rest, hgen, hstack, -, rfl⟩ := eval_eq_ok hrun
  obtain ⟨ht, -, hlines⟩ := h s () t hs hgen
  refine ⟨fun o' ho' => ht o' (List.mem_of_mem_drop ho'), ht o ?_, hlines⟩
  rw [hstack]
  exact List.mem_cons_self

theorem deref {o : Operand} (h : o.IsTame) : Writes blocks Operand.IsReady (Gen.deref o) := by
  cases o with
  | reference place =>
    refine quietly freshTemp fun t _ => ?_
    exact bindQuiet (emitSimple (isSimple_fetch t place)) fun _ _ => pure ⟨rfl, trivial⟩
  | integer v => exact (pure ⟨rfl, trivial⟩).mono one_le_blocks
  | text t => exact (pure ⟨rfl, h⟩).mono one_le_blocks
  | var v => exact (pure ⟨rfl, trivial⟩).mono one_le_blocks

theorem evalDeref {p : Part} (h : WritesBlock p.gen) :
    Writes blocks Operand.IsReady (Gen.evalDeref p) :=
  andThen (eval h) fun _ => deref

theorem block {ps : List Part} (h : ∀ p ∈ ps, WritesBlock p.gen) :
    WritesBlock (Gen.block ps) := by
  induction ps with
  | nil => exact (pure trivial).mono one_le_blocks
  | cons p ps ih =>
    refine andThen (statement (h p List.mem_cons_self)) fun _ _ => ?_
    exact ih fun q hq => h q (List.mem_cons_of_mem p hq)

/-- A block whose last part leaves the function. -/
theorem blockLeaving {ps : List Part} {p : Part}
    (h : ∀ q ∈ ps, WritesBlock q.gen) (hp : Writes leaving (fun _ => True) p.gen) :
    Writes leaving (fun _ => True) (Gen.block (ps ++ [p])) := by
  induction ps with
  | nil => exact bindQuiet (statement hp) fun _ _ => pure trivial
  | cons q ps ih =>
    refine (bind (statement (h q List.mem_cons_self)) fun _ _ => ?_).mono blocks_mul_leaving
    exact ih fun q' hq' => h q' (List.mem_cons_of_mem q hq')

theorem evalAll {ps : List Part} (h : ∀ p ∈ ps, WritesBlock p.gen) :
    Writes blocks (fun os => ∀ o ∈ os, o.IsTame) (Gen.evalAll ps) := by
  induction ps with
  | nil => exact (pure fun o ho => absurd ho List.not_mem_nil).mono one_le_blocks
  | cons p ps ih =>
    refine andThen (eval (h p List.mem_cons_self)) fun o ho => ?_
    refine bindQuiet (ih fun q hq => h q (List.mem_cons_of_mem p hq)) fun os hos => pure ?_
    intro o' ho'
    rcases List.mem_cons.1 ho' with rfl | ho'
    · exact ho
    · exact hos o' ho'

theorem derefAll {os : List Operand} (h : ∀ o ∈ os, o.IsTame) :
    WritesBlock (Gen.derefAll os) := by
  induction os with
  | nil => exact (pure trivial).mono one_le_blocks
  | cons o os ih =>
    refine andThen (ih fun o' ho' => h o' (List.mem_cons_of_mem o ho')) fun _ _ => ?_
    exact bindQuiet (deref (h o List.mem_cons_self)) fun _ _ => pure trivial

/-! ### Operators -/

theorem sum (a b : Operand) : WritesBlock (lowerSum a b) := by
  refine quietly freshTemp fun t _ => ?_
  dsimp only
  split
  · exact bindQuiet (emitSimple (isSimple_compute _ _)) fun _ _ => pushVar t _
  · exact bindQuiet (emitSimple (isSimple_assign _ _)) fun _ _ => pushVar t _

theorem arithmetic (op : BinaryOp) (a b : Operand) :
    WritesBlock (lowerArithmetic op a b) := by
  refine quietly freshTemp fun t _ => ?_
  exact bindQuiet (emitSimple (isSimple_compute _ _)) fun _ _ => pushVar t _

theorem comparands (op : BinaryOp) {lhs rhs : Part} (ha : WritesBlock lhs.gen)
    (hb : WritesBlock rhs.gen) :
    WritesBlock (Gen.comparands op lhs rhs) := by
  unfold Gen.comparands
  split
  · refine andThen (eval hb) fun b hb => andThen (eval ha) fun a ha => ?_
    refine quietly freshTemp fun t _ => ?_
    exact andThen (deref ha) fun _ _ => bindQuiet (deref hb) fun _ _ => pure trivial
  · refine andThen (eval ha) fun a ha => andThen (eval hb) fun b hb => ?_
    refine quietly freshTemp fun t _ => ?_
    exact andThen (deref hb) fun _ _ => bindQuiet (deref ha) fun _ _ => pure trivial

theorem binary (op : BinaryOp) {lhs rhs : Part} (ha : WritesBlock lhs.gen)
    (hb : WritesBlock rhs.gen) :
    WritesBlock (lowerBinary op lhs rhs) := by
  unfold lowerBinary
  split
  · refine andThen (comparands op ha hb) fun abt _ => ?_
    exact bindQuiet (emitSimple (isSimple_compare _ _ _ _)) fun _ _ => pushVar _ _
  · refine andThen (eval ha) fun a ha => andThen (eval hb) fun b hb => ?_
    refine andThen (deref hb) fun b _ => andThen (deref ha) fun a _ => ?_
    split
    · exact sum a b
    · exact arithmetic op a b

/-- What stands between the lines that open and close a conditional block is a block. -/
theorem opening_mul_close : opening * (blocks * {[")"]}) ≤ blocks := by
  rintro _ ⟨_, ⟨c, rfl⟩, _, ⟨body, hbody, _, rfl, rfl⟩, rfl⟩
  exact .branch c hbody

theorem opening_mul_else : opening * (blocks * ({[") else ("]} * (blocks * {[")"]}))) ≤ blocks := by
  rintro _ ⟨_, ⟨c, rfl⟩, _, ⟨body, hbody, _, ⟨_, rfl, _, ⟨other, hother, _, rfl, rfl⟩, rfl⟩, rfl⟩,
    rfl⟩
  show Structured _
  simpa only [List.append_assoc] using Structured.branches c hbody hother

theorem conjunction {lhs rhs : Part} (ha : WritesBlock lhs.gen)
    (hb : WritesBlock rhs.gen) :
    WritesBlock (lowerAnd lhs rhs) := by
  refine andThen (evalDeref ha) fun c _ => ?_
  refine (bind (openIf _) fun _ _ => ?_).mono opening_mul_close
  exact bind (statement hb) fun _ _ => emitLine _

theorem disjunction {lhs rhs : Part} (ha : WritesBlock lhs.gen)
    (hb : WritesBlock rhs.gen) :
    WritesBlock (lowerOr lhs rhs) := by
  refine quietly freshTemp fun t _ => ?_
  refine andThen (evalDeref ha) fun c _ => ?_
  have htrue : Structured [(Line.flag t true).render] := .simple (isSimple_flag t true)
  have hfalse : Structured [(Line.flag t false).render] := .simple (isSimple_flag t false)
  have hfront : Writes {[Line.flag t false, .openIf c.splice, .flag t true, .openElse].map
      Line.render} (fun _ => True) (Gen.emitAll _) := emitAll rfl
  -- The second operand is evaluated in the block that is left open, and tested there.
  have hwhole : {[Line.flag t false, .openIf c.splice, .flag t true, .openElse].map Line.render} *
      (blocks * (blocks * {[")"]})) ≤ blocks := by
    rintro _ ⟨_, rfl, _, ⟨other, hother, _, ⟨last, hlast, _, rfl, rfl⟩, rfl⟩, rfl⟩
    have hlines := hfalse.append (.branches c.splice.render htrue (hother.append hlast))
    simp only [List.append_assoc] at hlines
    exact hlines
  refine (bind hfront fun _ _ => bind (evalDeref hb) fun o _ => ?_).mono hwhole
  refine bindQuiet (emitAll ?_) fun _ _ => pushVar t _
  exact Language.append_mem_mul (Structured.branch o.splice.render htrue) rfl

/-! ### Conditionals and loops -/

theorem branch {cond : Part} {thenBody elseBody : List Part}
    (hc : WritesBlock cond.gen)
    (ht : ∀ p ∈ thenBody, WritesBlock p.gen)
    (he : ∀ p ∈ elseBody, WritesBlock p.gen) :
    WritesBlock (lowerBranch cond thenBody elseBody) := by
  refine andThen (evalDeref hc) fun c _ => ?_
  cases helse : elseBody.isEmpty with
  | true =>
    refine (bind (openIf _) fun _ _ => ?_).mono opening_mul_close
    refine bind (block ht) fun _ _ => ?_
    exact emitLine _
  | false =>
    refine (bind (openIf _) fun _ _ => ?_).mono opening_mul_else
    refine bind (block ht) fun _ _ => ?_
    refine bind (emitLine _) fun _ _ => ?_
    exact bind (block he) fun _ _ => emitLine _

theorem conditional {cond thenValue elseValue : Part}
    (hc : WritesBlock cond.gen)
    (ht : WritesBlock thenValue.gen)
    (he : WritesBlock elseValue.gen) :
    WritesBlock (lowerTernary cond thenValue elseValue) := by
  refine andThen (evalDeref hc) fun c _ => ?_
  refine quietly freshTemp fun t _ => ?_
  have hwhole : opening * (blocks * (blocks * ({[") else ("]} * (blocks * (blocks * {[")"]}))))) ≤
      blocks := by
    rintro _ ⟨_, ⟨c, rfl⟩, _, ⟨x, hx, _, ⟨x', hx', _, ⟨_, rfl, _, ⟨y, hy, _, ⟨y', hy', _, rfl, rfl⟩,
      rfl⟩, rfl⟩, rfl⟩, rfl⟩, rfl⟩
    have hlines := Structured.branches c (hx.append hx') (hy.append hy')
    simp only [List.append_assoc] at hlines
    exact hlines
  refine (bind (openIf _) fun _ _ => bind (evalDeref ht) fun a _ => ?_).mono hwhole
  refine bind (emitSimple (isSimple_assign _ _)) fun _ _ => bind (emitLine _) fun _ _ => ?_
  refine bind (evalDeref he) fun b _ => bind (emitSimple (isSimple_assign _ _)) fun _ _ => ?_
  exact bindQuiet (emitLine _) fun _ _ => pushVar t _

theorem loop {cond : Part} {body : List Part} (hc : WritesBlock cond.gen)
    (hb : ∀ p ∈ body, WritesBlock p.gen) :
    WritesBlock (lowerLoop cond body) := by
  refine quietly freshLabel fun l _ => ?_
  -- Each round evaluates the condition again, so its lines stand between the label and the test.
  have hwhole : {[":" ++ l.render]} * (blocks * (opening * (blocks * ({["goto :" ++ l.render]} *
      {[")"]})))) ≤ blocks := by
    rintro _ ⟨_, rfl, _, ⟨test, htest, _, ⟨_, ⟨c, rfl⟩, _, ⟨body, hbody, _, ⟨_, rfl, _, rfl, rfl⟩,
      rfl⟩, rfl⟩, rfl⟩, rfl⟩
    have hlines := Structured.loop l.render c htest hbody
    simp only [List.append_assoc] at hlines
    exact hlines
  refine (bind (emitLine _) fun _ _ => bind (evalDeref hc) fun c _ => ?_).mono hwhole
  refine bind (openIf _) fun _ _ => bind (block hb) fun _ _ => ?_
  exact bind (emitLine _) fun _ _ => emitLine _

/-! ### Functions, calls and returns -/

theorem ret {value : Part} (hv : WritesBlock value.gen) :
    Writes leaving (fun _ => True) (lowerReturn value) := by
  refine (bind (evalDeref hv) fun v hready => ?_).mono blocks_mul_leaving
  refine emitAll ⟨.ret (isSimple_setResult hready v.isInteger) ?_, rfl⟩
  unfold Line.render
  cases v.isInteger <;> simp

theorem functionName (loc : Nat) {name : Option String} (h : ∀ x ∈ name, isIdentifier x = true) :
    Writes 1 (fun f : Name => endsShut f.render = true) (Gen.functionName loc name) := by
  cases name with
  | some x =>
    refine quietly (checkUserName loc x) fun _ _ => quietly (declare x _) fun _ _ => ?_
    exact pure (endsShut_identifier (h x rfl))
  | none =>
    intro s f t hs hrun
    obtain ⟨ht, ⟨n, rfl⟩, hlines⟩ := freshTemp s f t hs hrun
    exact ⟨ht, endsShut_temp n, hlines⟩

theorem declareParams (first : Nat) (params : List String) :
    Writes 1 (fun _ => True) (Gen.declareParams first params) := by
  induction params generalizing first with
  | nil => exact pure trivial
  | cons x params ih => exact quietly (declare x _) fun _ _ => ih (first + 1)

theorem function (loc : Nat) {name : Option String} (params : List String) {body : List Part}
    (hname : ∀ x ∈ name, isIdentifier x = true)
    (hb : ∀ p ∈ body, WritesBlock p.gen)
    (hret : ∀ p ∈ body, p.node.isReturn = true → Writes leaving (fun _ => True) p.gen) :
    WritesBlock (lowerFunction loc name params body) := by
  refine quietly (functionName loc hname) fun f hf => ?_
  refine quietly (declaration _) fun _ _ => ?_
  have hfront : Writes {[Line.goto (.behind f), .label (.entry f), .enterFunction].map Line.render}
      (fun _ => True) (Gen.emitAll _) := emitAll rfl
  have hwhole : {[Line.goto (.behind f), .label (.entry f), .enterFunction].map Line.render} *
      (leaving * {[":__after_" ++ f.render]}) ≤ blocks := by
    rintro _ ⟨_, rfl, _, ⟨inside, ⟨hinside, hlast⟩, _, rfl, rfl⟩, rfl⟩
    have hlines := Structured.function f.render hinside hlast
    simp only [List.append_assoc] at hlines
    exact hlines
  refine (bind hfront fun _ _ => ?_).mono hwhole
  have hend : Writes {[":__after_" ++ f.render]} (fun _ => True)
      (Gen.emit (.label (.behind f)) >>= fun _ => Gen.push (.text [.name f])) := by
    refine bindQuiet (emitLine _) fun _ _ => push ?_
    simpa [Operand.IsTame, Fragment.render] using endsOpen_of_endsShut hf
  cases hlast : body.getLast?.any (·.node.isReturn) with
  | true =>
    -- The return at the end is what leaves the function.
    obtain ⟨p, hp, hreturn⟩ := (Option.any_eq_true _ _).1 hlast
    obtain ⟨front, rfl⟩ := List.getLast?_eq_some_iff.1 hp
    have hblock := blockLeaving (fun q hq => hb q (List.mem_append_left _ hq))
      (hret p (List.mem_append_right _ List.mem_cons_self) hreturn)
    exact bind (inScope (quietly (declareParams 2 params) fun _ _ => hblock)) fun _ _ => hend
  | false =>
    -- Nothing in the body is sure to leave the function, so two lines behind it do.
    have hzero : Writes leaving (fun _ => True) (Gen.emitAll [.returnZero, .leaveFunction]) :=
      emitAll ⟨(Structured.simple isSimple_returnZero).append (.simple isSimple_leaveFunction), rfl⟩
    have hle : blocks * (leaving * {[":__after_" ++ f.render]}) ≤
        leaving * {[":__after_" ++ f.render]} := by
      rw [← mul_assoc]
      exact mul_le_mul' blocks_mul_leaving le_rfl
    refine (bind (inScope (quietly (declareParams 2 params) fun _ _ => block hb)) fun _ _ => ?_).mono hle
    exact bind hzero fun _ _ => hend

theorem call {callee : Part} {args : List Part} (hf : WritesBlock callee.gen)
    (ha : ∀ p ∈ args, WritesBlock p.gen) :
    WritesBlock (lowerCall callee args) := by
  refine andThen (evalDeref hf) fun f _ => andThen (evalAll ha) fun os hos => ?_
  refine andThen (derefAll hos) fun values _ => quietly freshTemp fun t ht => ?_
  obtain ⟨n, rfl⟩ := ht
  exact bindQuiet (emitSimple (isSimple_call f.splice n values)) fun _ _ => pushVar _ _

/-! ### Assignments and steps -/

theorem nameTarget (loc : Nat) (name : String) (ty : ValueType) :
    Writes 1 (fun _ => True) (Gen.nameTarget loc name ty) := by
  refine of_code_eq fun s place t hs hrun => ?_
  rcases nameTarget_eq_ok hrun with ⟨-, -, -, rfl⟩ | ⟨v, x, -, -, -, rfl⟩
  · exact ⟨hs, trivial, rfl⟩
  · exact ⟨hs, trivial, rfl⟩

theorem assign {target value : Part} (ht : WritesBlock target.gen)
    (hv : WritesBlock value.gen) :
    WritesBlock (lowerAssign target value) := by
  refine andThen (evalDeref hv) fun v hready => ?_
  have hrest : ∀ place : Target, WritesBlock
      (Gen.emit (assignLine place v) >>= fun _ => Gen.push v) := fun place =>
    bindQuiet (emitSimple (isSimple_assignLine place v)) fun _ _ => push hready.2
  split
  · exact quietly (nameTarget _ _ _) fun place _ => hrest place
  · refine andThen (eval ht) fun o _ => ?_
    exact quietly (pure (Q := fun _ => True) trivial) fun place _ => hrest place
  · exact andThen (fail (Q := fun _ => True) _ _) fun place _ => hrest place

theorem stepTarget (n : Node) (o : Operand) : Writes 1 (fun _ => True) (Gen.stepTarget n o) := by
  refine of_code_eq fun s place t hs hrun => ?_
  obtain ⟨rfl, -⟩ := stepTarget_eq_ok hrun
  exact ⟨hs, trivial, rfl⟩

theorem step (op : StepOp) {target : Part} (ht : WritesBlock target.gen) :
    WritesBlock (lowerStep op target) := by
  refine andThen (eval ht) fun o ho => quietly (stepTarget _ o) fun place _ => ?_
  refine andThen (deref ho) fun current _ => quietly freshTemp fun t _ => ?_
  refine andThen (emitSimple (isSimple_compute _ _)) fun _ _ => ?_
  exact bindQuiet (emitSimple (isSimple_compute _ _)) fun _ _ => pushVar t _

/-! ### Arrays -/

theorem elements (handle : Name) (first : Nat) {ps : List Part}
    (h : ∀ p ∈ ps, WritesBlock p.gen) :
    WritesBlock (lowerElements handle first ps) := by
  induction ps generalizing first with
  | nil => exact (pure trivial).mono one_le_blocks
  | cons p ps ih =>
    refine andThen (evalDeref (h p List.mem_cons_self)) fun v _ => ?_
    refine andThen (emitSimple (isSimple_assign _ _)) fun _ _ => ?_
    exact ih (first + 1) fun q hq => h q (List.mem_cons_of_mem p hq)

theorem array {ps : List Part} (h : ∀ p ∈ ps, WritesBlock p.gen) :
    WritesBlock (lowerArray ps) := by
  refine quietly freshTemp fun t _ => ?_
  refine andThen (emitSimple (isSimple_assign _ _)) fun _ _ => andThen (elements t 0 h) fun _ _ => ?_
  exact bindQuiet (emitSimple (isSimple_assign _ _)) fun _ _ => pushVar t _

theorem index {base index : Part} (hb : WritesBlock base.gen)
    (hi : WritesBlock index.gen) :
    WritesBlock (lowerIndex base index) := by
  refine andThen (eval hb) fun b hb => andThen (evalDeref hi) fun i _ => ?_
  exact bindQuiet (deref hb) fun b _ => push trivial

/-! ### Names and programs -/

theorem resolve (loc : Nat) (name : String) :
    Writes 1 (fun _ => True) (Gen.resolve .standard loc name) := by
  refine of_code_eq fun s v t hs hrun => ?_
  rcases resolve_cases loc name s with ⟨v', -, h⟩ | ⟨v', -, -, h⟩ | ⟨-, -, -, h⟩ | h
  · rw [h] at hrun
    cases hrun
    exact ⟨hs, trivial, rfl⟩
  · rw [h] at hrun
    cases hrun
    exact ⟨hs, trivial, rfl⟩
  · rw [h] at hrun
    cases hrun
    exact ⟨hs, trivial, rfl⟩
  · rw [h] at hrun
    cases hrun

theorem program {body : List Part} (h : ∀ p ∈ body, WritesBlock p.gen) :
    WritesBlock (lowerProgram body) := by
  have hstart : ∀ line : Line, Writes 1 (fun _ => True) (emitTo .init line) := by
    refine fun line => of_code_eq fun s u t hs hrun => ?_
    cases hrun
    exact ⟨hs, trivial, rfl⟩
  exact quietly (hstart _) fun _ _ => quietly (hstart _) fun _ _ => block h

/-! ### Units -/

/-- What a node writes: a block, and one that leaves the function if the node is a return. -/
def language : Node → Language String
  | .ret .. => leaving
  | _ => blocks

theorem language_le_blocks (n : Node) : language n ≤ blocks := by
  cases n <;> first | exact leaving_le_blocks | exact le_rfl

theorem language_of_isReturn {n : Node} (h : n.isReturn = true) : language n = leaving := by
  cases n <;> first | rfl | cases h

/-- Within one unit, all nodes write blocks if its includes do. -/
theorem unit {env : Env} (hregistry : env.registry = .standard)
    (hinclude : ∀ loc args, WritesBlock (lowerInclude env loc args)) (n : Node)
    (hnames : ∀ x ∈ n.names, isIdentifier x = true) :
    Writes (language n) (fun _ => True) (Gen.node env n) := by
  have hparts : ∀ {ns : List Node}, (∀ n ∈ ns, (∀ x ∈ n.names, isIdentifier x = true) →
      Writes (language n) (fun _ => True) (Gen.node env n)) →
      (∀ x ∈ Node.namesAll ns, isIdentifier x = true) →
      ∀ p ∈ parts env ns, Writes (language p.node) (fun _ => True) p.gen := by
    intro ns ih hns p hp
    rw [parts_eq_map] at hp
    obtain ⟨n, hn, rfl⟩ := List.mem_map.1 hp
    exact ih n hn fun x hx => hns x (Node.mem_namesAll.2 ⟨n, hn, hx⟩)
  have hblock : ∀ {ns : List Node},
      (∀ p ∈ parts env ns, Writes (language p.node) (fun _ => True) p.gen) →
      ∀ p ∈ parts env ns, WritesBlock p.gen :=
    fun h p hp => (h p hp).mono (language_le_blocks p.node)
  have hone : ∀ {n : Node}, Writes (language n) (fun _ => True) (Gen.node env n) →
      WritesBlock (Gen.node env n) := fun h => h.mono (language_le_blocks _)
  induction n using Node.induction with
  | program l body ih => exact program (hblock (hparts ih hnames))
  | integer l v => exact (push (o := .integer v) trivial).mono one_le_blocks
  | string l v =>
    refine (push ?_).mono one_le_blocks
    simpa [Operand.IsTame, Fragment.render] using endsOpen_escape v
  | identifier l x =>
    have hresolve : Writes 1 (fun _ => True) (Gen.resolve env.registry l x) := by
      rw [hregistry]
      exact resolve l x
    exact (quietly hresolve fun v _ => push (o := .var v) trivial).mono one_le_blocks
  | ret l v ihv => exact ret (hone (ihv hnames))
  | step l op leading t iht => exact step op (hone (iht hnames))
  | array l es ih => exact array (hblock (hparts ih hnames))
  | binary l op a b iha ihb =>
    simp only [Node.names, List.mem_append, or_imp, forall_and] at hnames
    exact binary op (hone (iha hnames.1)) (hone (ihb hnames.2))
  | and l a b iha ihb =>
    simp only [Node.names, List.mem_append, or_imp, forall_and] at hnames
    exact conjunction (hone (iha hnames.1)) (hone (ihb hnames.2))
  | or l a b iha ihb =>
    simp only [Node.names, List.mem_append, or_imp, forall_and] at hnames
    exact disjunction (hone (iha hnames.1)) (hone (ihb hnames.2))
  | assign l t v iht ihv =>
    simp only [Node.names, List.mem_append, or_imp, forall_and] at hnames
    exact assign (hone (iht hnames.1)) (hone (ihv hnames.2))
  | branch l c t e ihc iht ihe =>
    simp only [Node.names, List.mem_append, or_imp, forall_and] at hnames
    obtain ⟨⟨hc, ht⟩, he⟩ := hnames
    exact branch (hone (ihc hc)) (hblock (hparts iht ht)) (hblock (hparts ihe he))
  | ternary l c t e ihc iht ihe =>
    simp only [Node.names, List.mem_append, or_imp, forall_and] at hnames
    obtain ⟨⟨hc, ht⟩, he⟩ := hnames
    exact conditional (hone (ihc hc)) (hone (iht ht)) (hone (ihe he))
  | loop l c body ihc ih =>
    simp only [Node.names, List.mem_append, or_imp, forall_and] at hnames
    exact loop (hone (ihc hnames.1)) (hblock (hparts ih hnames.2))
  | function l x ps body ih =>
    simp only [Node.names, List.mem_append, or_imp, forall_and, Option.mem_toList] at hnames
    obtain ⟨⟨hx, -⟩, hbody⟩ := hnames
    have hps := hparts ih hbody
    refine function l ps hx (hblock hps) fun p hp hreturn => ?_
    rw [← language_of_isReturn hreturn]
    exact hps p hp
  | call l f args ihf ih =>
    simp only [Node.names, List.mem_append, or_imp, forall_and] at hnames
    show Writes blocks _ (if isInclude f then _ else _)
    split
    · exact hinclude l args
    · exact call (hone (ihf hnames.1)) (hblock (hparts ih hnames.2))
  | index l b i ihb ihi =>
    simp only [Node.names, List.mem_append, or_imp, forall_and] at hnames
    exact index (hone (ihb hnames.1)) (hone (ihi hnames.2))

/-- The lines of a unit that is included are a block. -/
theorem includeUnit {setup : Setup} {env : Env} {path : String} {shared : Shared}
    {unit : Contribution}
    (hnode : ∀ n : Node, (∀ x ∈ n.names, isIdentifier x = true) → WritesBlock (Gen.node env n))
    (h : setup.includeUnit env path shared = .ok unit) : unit.code.map Line.render ∈ blocks := by
  obtain ⟨source, program, t, -, hread, hgen, rfl⟩ := Setup.includeUnit_eq_ok h
  have hprogram := statement (hnode program (isIdentifier_of_readUnit hread))
  obtain ⟨-, -, lines, hlines, hmem⟩ :=
    hprogram { shared } () t (fun o ho => absurd ho List.not_mem_nil) hgen
  have hcode : t.segments.code = lines := hlines
  rw [hcode]
  exact hmem

/-- Every node in every unit of a compilation writes a block. -/
theorem node {setup : Setup} (hstandard : setup.registry = .standard) (depth : Nat) (base : String)
    (n : Node) (hnames : ∀ x ∈ n.names, isIdentifier x = true) :
    WritesBlock (Gen.node (setup.env depth base) n) := by
  induction depth generalizing base n with
  | zero =>
    refine (unit ((setup.registry_env 0 base).trans hstandard) ?_ n hnames).mono
      (language_le_blocks n)
    intro loc args
    unfold lowerInclude
    split <;> exact fail _ _
  | succ depth ih =>
    refine (unit ((setup.registry_env (depth + 1) base).trans hstandard) ?_ n hnames).mono
      (language_le_blocks n)
    intro loc args
    unfold lowerInclude
    split
    next l path =>
      intro s u t hs hrun
      simp only [Setup.env] at hrun
      rw [bind_of_ok (get_apply s)] at hrun
      cases hunit : setup.includeUnit
          (setup.env depth (Path.directory base (Path.join base path))) (Path.join base path)
          s.shared with
      | error e =>
        rw [hunit] at hrun
        cases hrun
      | ok contribution =>
        rw [hunit] at hrun
        cases hrun
        have hcode := includeUnit (ih (Path.directory base (Path.join base path))) hunit
        refine ⟨?_, trivial, contribution.code, rfl, hcode⟩
        intro o ho
        rcases List.mem_cons.1 ho with rfl | ho
        · exact rfl
        · exact hs o ho
    next => exact fail _ _
    next => exact fail _ _

end Writes

/-! ## Whole compilations -/

/-- The code of every script is properly nested, whatever its units and texts are. -/
theorem code_is_structured (files : String → Except IoError String) (options : Options)
    (source script : String) (hcompile : compileSource files options source = .ok script) :
    ∃ program t, readUnit options.folding source = .ok program ∧
      generate (options.env .standard files) source program {} = .ok () t ∧ script = t.script ∧
      Structured (t.segments.code.map Line.render) := by
  obtain ⟨program, t, hread, hgenerate, hscript⟩ := compileSource_eq_ok hcompile
  refine ⟨program, t, hread, hgenerate, hscript, ?_⟩
  let setup : Setup :=
    { registry := .standard, files, folding := options.folding, limit := options.limit }
  have hnode := Writes.statement (@Writes.node setup rfl options.limit options.base program
    (isIdentifier_of_readUnit hread))
  obtain ⟨-, -, lines, hlines, hmem⟩ :=
    hnode {} () t (fun o ho => absurd ho List.not_mem_nil) (generate_eq_ok hgenerate)
  have hcode : t.segments.code = lines := hlines
  rw [hcode]
  exact hmem

/-- A file with a function that ends in a return. -/
def nestingFiles : String → Except IoError String
  | "./lib.bc" => .ok "func g(a) \x7b return a ? \" (\" : 0; \x7d"
  | _ => .error .notFound

/-- A source in which constructs nest in operands and texts look like the ends of lines. -/
def nestingSource : String :=
  "include(\"lib.bc\"); x = \"a (\"; while (g(func() \x7b x = \")\"; \x7d)) \x7b " ++
    "if (x || 1) x = 0; else x && g(x); \x7d"

theorem nesting_code_is_structured :
    ∃ script program t, compileSource nestingFiles {} nestingSource = .ok script ∧
      generate (Options.env {} .standard nestingFiles) nestingSource program {} = .ok () t ∧
      script = t.script ∧ Structured (t.segments.code.map Line.render) := by
  have hsome : (compileSource nestingFiles {} nestingSource).toOption.isSome = true := by
    decide +kernel
  cases hcompile : compileSource nestingFiles {} nestingSource with
  | error e =>
    rw [hcompile] at hsome
    cases hsome
  | ok script =>
    obtain ⟨program, t, -, hgenerate, hscript, hstructured⟩ :=
      code_is_structured nestingFiles {} nestingSource script hcompile
    exact ⟨script, program, t, rfl, hgenerate, hscript, hstructured⟩

end BatchCompiler
