/-
# BatchCompiler.Proofs.Shell -- running the lines that compute numbers

The part of the shell that lowered expressions of integers need: lines that compute, lines that
assign, comparisons, and conditional blocks that nest. Variables hold integers and are known by
their spelling; a line sees them as they are when it runs. A line outside of this part, or an operand
that is neither a number nor a read of a variable, stops the shell.

The shell goes through the lines one by one. For every open block it remembers whether the lines of
this branch run and whether those of the next one will, so a branch that is not taken is passed over
line by line.
-/

import BatchCompiler.Script.Line

namespace BatchCompiler

/-! ## Variables and operands -/

/-- The values of the variables, by spelling. -/
abbrev Vars := String → Int

/-- The variables with one of them changed. -/
def Vars.set (vars : Vars) (x : Name) (v : Int) : Vars :=
  fun name => if name = x.render then v else vars name

@[simp] theorem Vars.set_render (vars : Vars) (x : Name) (v : Int) :
    vars.set x v x.render = v := by
  simp [Vars.set]

theorem Vars.set_of_ne (vars : Vars) {x : Name} (v : Int) {name : String} (h : name ≠ x.render) :
    vars.set x v name = vars name := by
  simp [Vars.set, h]

/-- The value of an operand: a number, or what a variable holds now. -/
def Text.value? (vars : Vars) : Text → Option Int
  | [.number k] => some k
  | [.deferred x] => some (vars x.render)
  | _ => none

/-- A truth value as a number. -/
def truthValue (truth : Bool) : Int := if truth then 1 else 0

/-- The comparison holds between two integers. -/
def BinaryOp.holds : BinaryOp → Int → Int → Bool
  | eq, a, b => a = b
  | ne, a, b => a ≠ b
  | lt, a, b => a < b
  | le, a, b => a ≤ b
  | gt, a, b => a > b
  | ge, a, b => a ≥ b
  | _, _, _ => false

/-! ## Running -/

/-- What the operators that compute stand for. -/
abbrev Arithmetic := BinaryOp → Int → Int → Int

/-- What a line by itself does to the variables. -/
def Line.effect? (ops : Arithmetic) (vars : Vars) : Line → Option Vars
  | compute (.var x) (.binary op a b) => do
    let v ← a.value? vars
    let w ← b.value? vars
    return vars.set x (ops op v w)
  | compute (.var x) (.value a) => return vars.set x (← a.value? vars)
  | assign (.var x) a => return vars.set x (← a.value? vars)
  | flag x truth => return vars.set x (truthValue truth)
  | compare x op a b => do
    let v ← a.value? vars
    let w ← b.value? vars
    return vars.set x (truthValue (op.holds v w))
  | _ => none

/-- An open block: whether the lines of this branch run, and whether those of the next one will. -/
structure Block where
  now : Bool
  next : Bool
  deriving DecidableEq, Repr

/-- Where the shell stands. -/
structure Shell where
  vars : Vars
  /-- The open blocks, the innermost first. -/
  blocks : List Block := []

namespace Shell

/-- The line at hand runs. -/
def runs (blocks : List Block) : Bool := blocks.head?.all (·.now)

/-- Goes past one line. -/
def step? (ops : Arithmetic) (shell : Shell) : Line → Option Shell
  | .openIf cond =>
    if runs shell.blocks then do
      let v ← cond.value? shell.vars
      return { shell with blocks := ⟨v ≠ 0, v = 0⟩ :: shell.blocks }
    else some { shell with blocks := ⟨false, false⟩ :: shell.blocks }
  | .openElse =>
    match shell.blocks with
    | block :: blocks => some { shell with blocks := ⟨block.next, false⟩ :: blocks }
    | [] => none
  | .close =>
    match shell.blocks with
    | _ :: blocks => some { shell with blocks }
    | [] => none
  | line =>
    if runs shell.blocks then (line.effect? ops shell.vars).map fun vars => { shell with vars }
    else some shell

/-- Goes past lines, one after the other. -/
def run? (ops : Arithmetic) : List Line → Shell → Option Shell
  | [], shell => some shell
  | line :: lines, shell => (shell.step? ops line).bind (run? ops lines)

theorem run?_append (ops : Arithmetic) (lines more : List Line) (shell : Shell) :
    run? ops (lines ++ more) shell = (run? ops lines shell).bind (run? ops more) := by
  induction lines generalizing shell with
  | nil => rfl
  | cons line lines ih =>
    simp only [List.cons_append, run?]
    cases shell.step? ops line with
    | none => rfl
    | some next => exact ih next

end Shell

/-- The variables after all of the lines have been run and every block has been closed. -/
def execute? (ops : Arithmetic) (lines : List Line) (vars : Vars) : Option Vars :=
  match Shell.run? ops lines { vars } with
  | some ⟨vars, []⟩ => some vars
  | _ => none

/-! ## Code in its surroundings -/

/-- Whatever blocks it stands in, the code is passed over without effect if they do not run. -/
def Skips (lines : List Line) : Prop :=
  ∀ ops vars blocks, Shell.runs blocks = false →
    Shell.run? ops lines ⟨vars, blocks⟩ = some ⟨vars, blocks⟩

/-- Whatever blocks it stands in, the code changes the variables so if they run. -/
def Executes (ops : Arithmetic) (lines : List Line) (vars vars' : Vars) : Prop :=
  ∀ blocks, Shell.runs blocks = true → Shell.run? ops lines ⟨vars, blocks⟩ = some ⟨vars', blocks⟩

theorem Executes.execute? {ops : Arithmetic} {lines : List Line} {vars vars' : Vars}
    (h : Executes ops lines vars vars') : execute? ops lines vars = some vars' := by
  unfold BatchCompiler.execute?
  rw [h [] rfl]

theorem Skips.nil : Skips [] := fun _ _ _ _ => rfl

theorem Executes.nil (ops : Arithmetic) (vars : Vars) : Executes ops [] vars vars := fun _ _ => rfl

theorem Skips.append {lines more : List Line} (h : Skips lines) (h' : Skips more) :
    Skips (lines ++ more) := by
  intro ops vars blocks hb
  rw [Shell.run?_append, h ops vars blocks hb]
  exact h' ops vars blocks hb

theorem Executes.append {ops : Arithmetic} {lines more : List Line} {u v w : Vars}
    (h : Executes ops lines u v) (h' : Executes ops more v w) :
    Executes ops (lines ++ more) u w := by
  intro blocks hb
  rw [Shell.run?_append, h blocks hb]
  exact h' blocks hb

/-- The line stands by itself: it neither opens nor closes a block. -/
def Line.isCommand : Line → Bool
  | openIf _ => false
  | openElse => false
  | close => false
  | _ => true

theorem Shell.step?_command {line : Line} (h : line.isCommand = true) (ops : Arithmetic)
    (shell : Shell) :
    shell.step? ops line =
      if runs shell.blocks then (line.effect? ops shell.vars).map fun vars => { shell with vars }
      else some shell := by
  cases line <;> first | rfl | exact absurd h Bool.false_ne_true

theorem Skips.command {line : Line} (h : line.isCommand = true) : Skips [line] := by
  intro ops vars blocks hb
  simp [Shell.run?, Shell.step?_command h, hb]

theorem Executes.command {ops : Arithmetic} {line : Line} {vars vars' : Vars}
    (h : line.isCommand = true) (heffect : line.effect? ops vars = some vars') :
    Executes ops [line] vars vars' := by
  intro blocks hb
  simp [Shell.run?, Shell.step?_command h, hb, heffect]

/-! ## Conditional blocks -/

/-- Lines that run if the condition is not zero. -/
def ifLines (cond : Text) (lines : List Line) : List Line :=
  .openIf cond :: lines ++ [.close]

/-- Lines that run if the condition is not zero, and others that run if it is. -/
def ifElseLines (cond : Text) (lines others : List Line) : List Line :=
  .openIf cond :: lines ++ .openElse :: others ++ [.close]

theorem Skips.branch {cond : Text} {lines : List Line} (h : Skips lines) :
    Skips (ifLines cond lines) := by
  intro ops vars blocks hb
  simp only [ifLines, List.cons_append, Shell.run?, Shell.step?, hb, Bool.false_eq_true, if_false,
    Option.bind_some, Shell.run?_append]
  rw [h ops vars _ rfl]
  rfl

theorem Skips.branches {cond : Text} {lines others : List Line} (h : Skips lines)
    (h' : Skips others) : Skips (ifElseLines cond lines others) := by
  intro ops vars blocks hb
  simp only [ifElseLines, List.cons_append, List.append_assoc, Shell.run?, Shell.step?, hb,
    Bool.false_eq_true, if_false, Option.bind_some, Shell.run?_append]
  rw [h ops vars _ rfl]
  simp only [Option.bind_some, Shell.run?, Shell.step?, Shell.run?_append]
  rw [h' ops vars _ rfl]
  rfl

/-- The first branch runs if the condition is not zero; the other one is passed over. -/
theorem Executes.branches_first {ops : Arithmetic} {cond : Text} {lines others : List Line}
    {vars vars' : Vars} {v : Int} (hcond : cond.value? vars = some v) (hv : v ≠ 0)
    (h : Executes ops lines vars vars') (h' : Skips others) :
    Executes ops (ifElseLines cond lines others) vars vars' := by
  intro blocks hb
  simp only [ifElseLines, List.cons_append, List.append_assoc, Shell.run?, Shell.step?, hb, if_true,
    hcond, Option.bind_some, Shell.run?_append, Option.bind_eq_bind, Option.pure_def]
  rw [h _ (by simp [Shell.runs, hv])]
  simp only [Option.bind_some, Shell.run?, Shell.step?, Shell.run?_append]
  rw [h' ops vars' _ (by simp [Shell.runs, hv])]
  rfl

/-- The second branch runs if the condition is zero; the first one is passed over. -/
theorem Executes.branches_second {ops : Arithmetic} {cond : Text} {lines others : List Line}
    {vars vars' : Vars} (hcond : cond.value? vars = some 0) (h : Skips lines)
    (h' : Executes ops others vars vars') :
    Executes ops (ifElseLines cond lines others) vars vars' := by
  intro blocks hb
  simp only [ifElseLines, List.cons_append, List.append_assoc, Shell.run?, Shell.step?, hb, if_true,
    hcond, Option.bind_some, Shell.run?_append, Option.bind_eq_bind, Option.pure_def]
  rw [h ops vars _ (by simp [Shell.runs])]
  simp only [Option.bind_some, Shell.run?, Shell.step?, Shell.run?_append]
  rw [h' _ (by simp [Shell.runs])]
  rfl

/-- A block without a second branch. -/
theorem Executes.branch {ops : Arithmetic} {cond : Text} {lines : List Line}
    {vars vars' : Vars} {v : Int} (hcond : cond.value? vars = some v)
    (h : v ≠ 0 → Executes ops lines vars vars') (h' : v = 0 → Skips lines ∧ vars' = vars) :
    Executes ops (ifLines cond lines) vars vars' := by
  intro blocks hb
  simp only [ifLines, List.cons_append, Shell.run?, Shell.step?, hb, if_true, hcond,
    Option.bind_some, Shell.run?_append, Option.bind_eq_bind, Option.pure_def]
  by_cases hv : v = 0
  · obtain ⟨hskip, rfl⟩ := h' hv
    rw [hskip ops vars' _ (by simp [Shell.runs, hv])]
    rfl
  · rw [h hv _ (by simp [Shell.runs, hv])]
    rfl

end BatchCompiler
