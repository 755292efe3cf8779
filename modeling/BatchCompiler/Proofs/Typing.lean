/-
# BatchCompiler.Proofs.Typing -- when a variable's type is true of its values

A variable has a type, which decides whether a value that is read from it is computed with or put
together as a text. It gets the type of the value that is assigned first, and keeps it: an assignment
to a name that is bound already looks at the variable only for its name. So a variable that is taken
for a number may have been set to a text since.

`integer_reads_sound_iff` says exactly when the type is true: of the lines that have set the variable
so far, the first one is of the arithmetic form, and the others are if no text was assigned later.
`text_read_as_number` is a source in which one was.
-/

import BatchCompiler.Proofs.Audit

namespace BatchCompiler

open Gen

/-! ## Lines that set a variable -/

/-- The line sets the variable to the value of a formula. -/
def Line.SetsNumber (x : Name) (line : Line) : Prop := ∃ a, line = .compute (.var x) (.value a)

/-- The line sets the variable to a text. -/
def Line.SetsText (x : Name) (line : Line) : Prop := ∃ a, line = .assign (.var x) a

theorem Line.SetsNumber.not_setsText {x : Name} {line : Line} (h : line.SetsNumber x) :
    ¬ line.SetsText x := by
  rintro ⟨b, hb⟩
  obtain ⟨a, rfl⟩ := h
  cases hb

/-- An assignment is of the arithmetic form exactly if the value is known to be a number. -/
theorem assignLine_cases (x : Name) (o : Operand) :
    (o.valueType = .integer ∧ (assignLine (.var x) o).SetsNumber x) ∨
    (o.valueType = .text ∧ (assignLine (.var x) o).SetsText x) := by
  unfold assignLine Operand.isInteger
  cases h : o.valueType with
  | integer => exact .inl ⟨rfl, _, rfl⟩
  | text => exact .inr ⟨rfl, _, rfl⟩

namespace Record.Describes

variable {params : List String} {k : String} {r : Record} {v : Variable} {x : Name}

/-- All lines that are recorded set the variable. -/
theorem sets (h : r.Describes params k v) (hx : v.storage = .named x) :
    ∀ line ∈ r.lines, line.SetsNumber x ∨ line.SetsText x := by
  have hassign : ∀ o, (assignLine (.var x) o).SetsNumber x ∨ (assignLine (.var x) o).SetsText x :=
    fun o => (assignLine_cases x o).imp And.right And.right
  have hlater : ∀ line ∈ r.later, line.SetsNumber x ∨ line.SetsText x := by
    intro line hline
    obtain ⟨y, o, hy, rfl⟩ := h.later line hline
    obtain rfl : y = x := by simpa [hx] using hy.symm
    exact hassign o
  obtain ⟨origin, later⟩ := r
  obtain ⟨horigin, -⟩ := h
  cases horigin with
  | assignment o =>
    obtain rfl : Name.user k = x := by simpa [Variable.named] using hx
    exact List.forall_mem_cons.2 ⟨hassign o, hlater⟩
  | parameter | function | builtin => exact hlater

/-- A variable is taken for a number exactly if the name was bound by an assignment of the arithmetic
form. -/
theorem integer_iff (h : r.Describes params k v) (hx : v.storage = .named x) :
    v.ty = .integer ↔ ∃ line, r.origin = .assignment line ∧ line.SetsNumber x := by
  obtain ⟨origin, later⟩ := r
  obtain ⟨horigin, -⟩ := h
  cases horigin with
  | assignment o =>
    obtain rfl : Name.user k = x := by simpa [Variable.named] using hx
    simp only [Origin.assignment.injEq, exists_eq_left']
    show o.valueType = .integer ↔ _
    rcases assignLine_cases (.user k) o with ⟨hty, hline⟩ | ⟨hty, hline⟩
    · exact iff_of_true hty hline
    · refine iff_of_false (by simp [hty]) fun hnumber => hnumber.not_setsText hline
  | parameter | function | builtin => simp [Variable.named, Variable.slot]

/-- The lines that have set a number are of the arithmetic form exactly if no text was assigned
after the first one. -/
theorem numbers_iff (h : r.Describes params k v) (hx : v.storage = .named x)
    (hty : v.ty = .integer) :
    (∀ line ∈ r.lines, line.SetsNumber x) ↔ ∀ line ∈ r.later, ¬ line.SetsText x := by
  have hsets := h.sets hx
  obtain ⟨first, horigin, hfirst⟩ := (h.integer_iff hx).1 hty
  have hlines : r.lines = first :: r.later := by simp [Record.lines, horigin]
  rw [hlines, List.forall_mem_cons] at hsets ⊢
  constructor
  · rintro ⟨-, hlater⟩ line hline
    exact (hlater line hline).not_setsText
  · intro hlater
    exact ⟨hfirst, fun line hline => (hsets.2 line hline).resolve_right (hlater line hline)⟩

end Record.Describes

/-! ## Whole compilations -/

/-- The type of a variable is true of it exactly as long as no text is assigned to a variable that was
first set to a number. Every compilation that succeeds can be audited, the lines that set variables of
the user's are then those of the log, and wherever a name stands for a named variable, all lines that
have set this binding so far set that variable, it is taken for a number exactly if the first of them
is of the arithmetic form, and then all of them are exactly if none of the later ones sets a text. -/
theorem integer_reads_sound_iff (files : String → Except IoError String) (options : Options)
    (source script : String) (hcompile : compileSource files options source = .ok script) :
    (∃ c : Audit, c.IsOf files options source script) ∧
    ∀ c : Audit, c.IsOf files options source script →
      c.state.segments.code.filter Line.setsUser =
        (c.log.filterMap Event.line?).filter Line.setsUser ∧
      ∀ k v d r x, .read k v d r ∈ c.log → v.storage = .named x →
        (∀ line ∈ r.lines, line.SetsNumber x ∨ line.SetsText x) ∧
        (v.ty = .integer ↔ ∃ line, r.origin = .assignment line ∧ line.SetsNumber x) ∧
        (v.ty = .integer →
          ((∀ line ∈ r.lines, line.SetsNumber x) ↔ ∀ line ∈ r.later, ¬ line.SetsText x)) := by
  refine ⟨(exists_audit hcompile).imp fun _ hc => hc.1, fun c hc => ⟨hc.stored, ?_⟩⟩
  intro k v d r x hread hx
  obtain ⟨params, hr, -⟩ := hc.read hread
  exact ⟨hr.sets hx, hr.integer_iff hx, hr.numbers_iff hx⟩

/-- A file that binds a name to a number. -/
def countingFiles : String → Except IoError String
  | "./lib.bc" => .ok "n = 0;"
  | _ => .error .notFound

/-- A source that goes on counting in a function, and also sets a variable to a text. -/
def countingSource : String :=
  "include(\"lib.bc\"); func f(s) \x7b n = n + 2; m = s; m = n; return m; \x7d n = n * f(\"a\"); n;"

theorem counting_source_reads_sound_iff :
    ∃ (script : String) (c : Audit),
      compileSource countingFiles {} countingSource = .ok script ∧
      c.IsOf countingFiles {} countingSource script ∧
      ∀ k v d r x, .read k v d r ∈ c.log → v.storage = .named x →
        (v.ty = .integer ↔ ∃ line, r.origin = .assignment line ∧ line.SetsNumber x) ∧
        (v.ty = .integer →
          ((∀ line ∈ r.lines, line.SetsNumber x) ↔ ∀ line ∈ r.later, ¬ line.SetsText x)) := by
  obtain ⟨script, hcompile⟩ : ∃ script,
      compileSource countingFiles {} countingSource = .ok script :=
    exists_script (by decide +kernel)
  obtain ⟨⟨c, hc⟩, hsound⟩ :=
    integer_reads_sound_iff countingFiles {} countingSource script hcompile
  refine ⟨script, c, hcompile, hc, fun k v d r x hread hx => ?_⟩
  exact ((hsound c hc).2 k v d r x hread hx).2

/-- A source that sets a variable to a number, then to a text, and returns it. -/
def retypingSource : String := "x = 1; x = \"a\"; return x;"

/-- The state in which the compilation of `retypingSource` ends. -/
def retypingState : State :=
  { segments :=
      { init := [.echoOff, .deferExpansion]
        code := [.compute (.var (.user "x")) (.value [.number 1]),
          .assign (.var (.user "x")) [.chars "a"], .openReturn,
          .setResult true [.immediate (.user "x")], .close, .leaveFunction] }
    scopes := { root := [("x", .named (.user "x") .integer)] } }

theorem state?_retypingSource :
    Options.state? {} (fun _ => .error .notFound) retypingSource = some retypingState := by
  decide +kernel

/-- What has happened to `x` when it is returned. -/
def retypingRecord : Record :=
  { origin := .assignment (.compute (.var (.user "x")) (.value [.number 1]))
    later := [.assign (.var (.user "x")) [.chars "a"]] }

/-- The audit of `retypingSource`. -/
def retypingAudit : Audit :=
  { state := retypingState
    ledger := [{ records := [("x", retypingRecord)] }]
    log := [.store "x" (.compute (.var (.user "x")) (.value [.number 1])),
      .store "x" (.assign (.var (.user "x")) [.chars "a"]),
      .read "x" (.named (.user "x") .integer) 0 retypingRecord] }

theorem retypingAudit_isOf :
    retypingAudit.IsOf (fun _ => .error .notFound) {} retypingSource retypingState.script := by
  obtain ⟨program, hread, hgenerate, -⟩ := Options.state?_eq_some state?_retypingSource
  refine ⟨?_, ⟨program, hread, hgenerate⟩, rfl, ⟨rfl, rfl⟩, by decide +kernel⟩
  let number : Operand := .integer 1
  let text : Operand := .text [.chars "a"]
  let declared : State := State.declare "x" (.named (.user "x") .integer) {}
  -- The variable is set to a number, which binds the name, then to a text, and then it is read.
  have hfirst : nameTarget 0 "x" number.valueType {} = .ok (.var (.user "x")) declared := rfl
  have hsecond : nameTarget 7 "x" text.valueType (declared.emitAll [assignLine _ number]) =
      .ok (.var (.user "x")) (declared.emitAll [assignLine (.var (.user "x")) number]) := rfl
  have hthird : resolve .standard 23 "x" ((declared.emitAll _).emitAll [assignLine _ text]) =
      .ok (.named (.user "x") .integer) ((declared.emitAll [assignLine (.var (.user "x")) number]
        ).emitAll [assignLine (.var (.user "x")) text]) := rfl
  have hstored := (Relation.ReflTransGen.single (Audit.Step.store [{}] [] [] hfirst)).tail
    (.store _ _ _ hsecond)
  refine (hstored.tail (.read _ _ _ hthird rfl)).tail ?_
  exact .idle _ _ _ [.openReturn, .setResult true [.immediate (.user "x")], .close, .leaveFunction]
    rfl rfl rfl (by decide)

/-- In `retypingSource` the type of `x` is not true of it: `x` has been set to a text when it is
returned, and is returned as a number. -/
theorem text_read_as_number :
    ∃ (script : String) (c : Audit),
      compileSource (fun _ => .error .notFound) {} retypingSource = .ok script ∧
      c.IsOf (fun _ => .error .notFound) {} retypingSource script ∧
      ∃ k v d r x, .read k v d r ∈ c.log ∧ v.storage = .named x ∧ v.ty = .integer ∧
        (∃ line ∈ r.lines, line.SetsText x) ∧
        .setResult true [.immediate x] ∈ c.state.segments.code := by
  obtain ⟨-, -, -, hcompile⟩ := Options.state?_eq_some state?_retypingSource
  have htext : Line.assign (.var (.user "x")) [.chars "a"] ∈ retypingRecord.lines :=
    List.mem_cons_of_mem _ List.mem_cons_self
  refine ⟨_, retypingAudit, hcompile, retypingAudit_isOf, "x", .named (.user "x") .integer, 0,
    retypingRecord, .user "x", ?_, rfl, rfl, ⟨_, htext, _, rfl⟩, ?_⟩
  · exact List.mem_cons_of_mem _ (List.mem_cons_of_mem _ List.mem_cons_self)
  · decide

end BatchCompiler
