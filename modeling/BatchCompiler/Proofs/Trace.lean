/-
# BatchCompiler.Proofs.Trace -- what happens while a program is generated

A run of generation gives the state in which it ends, and nothing of what it has been through. Here
each step is taken apart into the primitive steps that it is put together from (`Gen.Plan`), and its
trace is read off the run, primitive by primitive: the states that are reached, inside functions and
in included units too, and the temporaries that are made up. A plan has the step in its type, so it
cannot take apart any other step than the one that runs.
-/

import BatchCompiler.Compile
import BatchCompiler.Proofs.Action

namespace BatchCompiler

/-- What happens in a run. -/
inductive Moment where
  /-- The unit that is being written comes to a state. -/
  | reached (s : State)
  /-- A temporary is made up, and this is its name. -/
  | made (x : Name)

/-- The name, if that is what the moment is about. -/
def Moment.name? : Moment → Option Name
  | reached _ => none
  | made x => some x

/-- The names of the temporaries that have been made up, in that order. -/
def namesMade (log : List Moment) : List Name := log.filterMap Moment.name?

namespace Gen

variable {α β : Type} {env : Env}

/-- The state in which a step ends, whether or not it succeeds. -/
def after (m : Gen α) (s : State) : State :=
  match m s with
  | .ok _ t => t
  | .error _ t => t

theorem after_of_ok {m : Gen α} {s t : State} {a : α} (h : m s = .ok a t) : after m s = t := by
  unfold after
  rw [h]

theorem after_of_error {m : Gen α} {s t : State} {e : Fault} (h : m s = .error e t) :
    after m s = t := by
  unfold after
  rw [h]

theorem after_stepTarget (n : Node) (o : Operand) (s : State) : after (stepTarget n o) s = s := by
  cases o with
  | var v =>
    obtain ⟨storage, ty⟩ := v
    cases storage with
    | named x => rfl
    | slot i => cases n <;> rfl
  | _ => rfl

/-! ## Plans -/

/-- How a step is put together from primitive ones. -/
inductive Plan (env : Env) : {α : Type} → Gen α → Type 1
  /-- A step that leaves the state as it is. -/
  | still {α : Type} {m : Gen α} : (∀ s, after m s = s) → Plan env m
  | emitTo (segment : Segment) (line : Line) : Plan env (emitTo segment line)
  | push (o : Operand) : Plan env (push o)
  | dropTo (depth : Nat) : Plan env (dropTo depth)
  | label : Plan env freshLabel
  | temp : Plan env freshTemp
  /-- The variable that a name stands for. A builtin may be set up here. -/
  | name (loc : Nat) (x : String) : Plan env (resolve env.registry loc x)
  /-- What an assignment to a name assigns to. The name may be declared here. -/
  | target (loc : Nat) (x : String) (ty : ValueType) : Plan env (nameTarget loc x ty)
  /-- The name of a function, which is declared here. -/
  | function (loc : Nat) (x : String) : Plan env (functionName loc (some x))
  /-- A parameter is bound to an argument behind the one for the result. -/
  | param (x : String) {i : Nat} (ty : ValueType) : 2 ≤ i → Plan env (declare x (.slot i ty))
  | unit (loc : Nat) (args : List Node) : Plan env (lowerInclude env loc args)
  | bind {α β : Type} {m : Gen α} {f : α → Gen β} :
    Plan env m → ((a : α) → Plan env (f a)) → Plan env (m >>= f)
  | scope {α : Type} {m : Gen α} : Plan env m → Plan env (inScope m)

/-! ## Traces -/

/-- What happens before a name is declared, if it is that of a builtin which has yet to be set up. The
variable that the setup gives is a temporary, and is recorded. -/
def setupTrace (registry : Registry) (x : String) (s : State) : List Moment :=
  match s.scopes.lookup x, s.shared.emitted.get? x, registry.get? x with
  | none, none, some builtin =>
    let (v, t) := builtin.setup s
    v.target?.toList.map .made ++ [.reached t, .reached (t.record x { v with ty := builtin.ty })]
  | _, _, _ => []

/-- What happens in the unit that an include includes, if it is one. -/
def includeTrace (inside : String → Shared → List Moment) (base : String) (shared : Shared) :
    List Node → List Moment
  | [.string _ path] => inside (Path.join base path) shared
  | _ => []

/-- What happens behind a step, which goes on only if the step succeeds. -/
def traceBehind (rest : α → State → List Moment) : EStateM.Result Fault State α → List Moment
  | .ok a t => rest a t
  | .error _ _ => []

/-- What happens while a step is run in a state. The traces of the units at the paths that it may
include are given by the surroundings. -/
def Plan.trace (inside : String → Shared → List Moment) {α : Type} {m : Gen α} :
    Plan env m → State → List Moment
  | @still _ _ m _, s => [.reached (after m s)]
  | .emitTo segment line, s => [.reached (after (Gen.emitTo segment line) s)]
  | .push o, s => [.reached (after (Gen.push o) s)]
  | .dropTo depth, s => [.reached (after (Gen.dropTo depth) s)]
  | .label, s => [.reached (after freshLabel s)]
  | .temp, s =>
    match freshTemp s with
    | .ok x t => [.made x, .reached t]
    | .error _ t => [.reached t]
  | .name loc x, s =>
    setupTrace env.registry x s ++ [.reached (after (resolve env.registry loc x) s)]
  | .target loc x ty, s => [.reached (after (nameTarget loc x ty) s)]
  | .function loc x, s => [.reached (after (functionName loc (some x)) s)]
  | @param _ x i ty _, s => [.reached (after (declare x (.slot i ty)) s)]
  | .unit loc args, s =>
    includeTrace inside env.base s.shared args ++ [.reached (after (lowerInclude env loc args) s)]
  | @bind _ _ _ m _ first rest, s =>
    first.trace inside s ++ traceBehind (fun a t => (rest a).trace inside t) (m s)
  | @scope _ _ m body, s =>
    let entered := { s with scopes := s.scopes.enter }
    .reached entered :: body.trace inside entered ++ [.reached (after (inScope m) s)]

/-! ## Plans of the lowerings -/

namespace Plan

/-- A plan for each part of a construct. -/
inductive All (env : Env) : List Part → Type 1
  | nil : All env []
  | cons {p : Part} {parts : List Part} : Plan env p.gen → All env parts → All env (p :: parts)

def pure (a : α) : Plan env (Pure.pure a : Gen α) := .still fun _ => rfl

def fail (loc : Nat) (cause : Cause) : Plan env (Gen.fail loc cause : Gen α) := .still fun _ => rfl

def get : Plan env (MonadState.get : Gen State) := .still fun _ => rfl

/-- A choice between two steps goes one way or the other. -/
def choice {c : Prop} [decision : Decidable c] {m m' : Gen α} (p : Plan env m) (q : Plan env m') :
    Plan env (if c then m else m') :=
  match decision with
  | .isTrue _ => p
  | .isFalse _ => q

def emit (line : Line) : Plan env (Gen.emit line) := .emitTo .code line

def emitAll : (lines : List Line) → Plan env (Gen.emitAll lines)
  | [] => pure _
  | line :: lines => .bind (emit line) fun _ => emitAll lines

def pushVar (x : Name) (ty : ValueType) : Plan env (Gen.pushVar x ty) := .push _

def deref : (o : Operand) → Plan env (Gen.deref o)
  | .reference _ => .bind .temp fun _ => .bind (emit _) fun _ => pure _
  | .integer _ => pure _
  | .text _ => pure _
  | .var _ => pure _

def statement {m : Gen Unit} (p : Plan env m) : Plan env (Gen.statement m) :=
  .bind get fun _ => .bind p fun _ => .dropTo _

def block {parts : List Part} : All env parts → Plan env (Gen.block parts)
  | .nil => pure _
  | .cons p rest => .bind (statement p) fun _ => block rest

def eval {p : Part} (plan : Plan env p.gen) : Plan env (Gen.eval p) :=
  .bind get fun _ => .bind plan fun _ => .bind get fun t => .bind (.dropTo _) fun _ =>
    match t.stack with
    | [] => fail _ _
    | _ :: _ => choice (pure _) (fail _ _)

def evalDeref {p : Part} (plan : Plan env p.gen) : Plan env (Gen.evalDeref p) :=
  .bind (eval plan) fun o => deref o

def evalAll {parts : List Part} : All env parts → Plan env (Gen.evalAll parts)
  | .nil => pure _
  | .cons p rest => .bind (eval p) fun _ => .bind (evalAll rest) fun _ => pure _

def derefAll : (os : List Operand) → Plan env (Gen.derefAll os)
  | [] => pure _
  | o :: rest => .bind (derefAll rest) fun _ => .bind (deref o) fun _ => pure _

def sum (a b : Operand) : Plan env (lowerSum a b) :=
  .bind .temp fun _ =>
    choice (.bind (emit _) fun _ => pushVar _ _) (.bind (emit _) fun _ => pushVar _ _)

def arithmetic (op : BinaryOp) (a b : Operand) : Plan env (lowerArithmetic op a b) :=
  .bind .temp fun _ => .bind (emit _) fun _ => pushVar _ _

variable {lhs rhs : Part}

def comparands (op : BinaryOp) (a : Plan env lhs.gen) (b : Plan env rhs.gen) :
    Plan env (Gen.comparands op lhs rhs) :=
  choice
    (.bind (eval b) fun y => .bind (eval a) fun x => .bind .temp fun _ =>
      .bind (deref x) fun _ => .bind (deref y) fun _ => pure _)
    (.bind (eval a) fun x => .bind (eval b) fun y => .bind .temp fun _ =>
      .bind (deref y) fun _ => .bind (deref x) fun _ => pure _)

def comparison (op : BinaryOp) (a : Plan env lhs.gen) (b : Plan env rhs.gen) :
    Plan env (lowerComparison op lhs rhs) :=
  .bind (comparands op a b) fun (_, _, _) => .bind (emit _) fun _ => pushVar _ _

def binary (op : BinaryOp) (a : Plan env lhs.gen) (b : Plan env rhs.gen) :
    Plan env (lowerBinary op lhs rhs) :=
  choice (comparison op a b) <|
    .bind (eval a) fun x => .bind (eval b) fun y => .bind (deref y) fun y => .bind (deref x) fun x =>
      choice (sum x y) (arithmetic op x y)

def and (a : Plan env lhs.gen) (b : Plan env rhs.gen) : Plan env (lowerAnd lhs rhs) :=
  .bind (evalDeref a) fun _ => .bind (emit _) fun _ => .bind (statement b) fun _ => emit _

def or (a : Plan env lhs.gen) (b : Plan env rhs.gen) : Plan env (lowerOr lhs rhs) :=
  .bind .temp fun _ => .bind (evalDeref a) fun _ => .bind (emitAll _) fun _ =>
    .bind (evalDeref b) fun _ => .bind (emitAll _) fun _ => pushVar _ _

/-- What an assignment does once it is known what is assigned, and to what. -/
def store (place : Target) (v : Operand) :
    Plan env (do Gen.emit (assignLine place v); Gen.push v) :=
  .bind (emit _) fun _ => .push _

/-- Only a name or an element of an array can be assigned to. -/
def assign {value : Part} {gen : Gen Unit} (v : Plan env value.gen) (t : Plan env gen) :
    (target : Node) → Plan env (lowerAssign ⟨target, gen⟩ value)
  | .identifier .. =>
    .bind (evalDeref v) fun v => .bind (.target _ _ _) fun place => store place v
  | .index .. =>
    .bind (evalDeref v) fun v => .bind (eval t) fun _ => .bind (pure _) fun place => store place v
  | .program .. | .integer .. | .string .. | .binary .. | .and .. | .or .. | .assign .. | .branch ..
  | .ternary .. | .loop .. | .function .. | .call .. | .ret .. | .step .. | .array .. =>
    .bind (evalDeref v) fun v => .bind (fail _ _) fun place => store place v

def step (op : StepOp) {target : Part} (t : Plan env target.gen) : Plan env (lowerStep op target) :=
  .bind (eval t) fun _ => .bind (.still (after_stepTarget _ _)) fun _ => .bind (deref _) fun _ =>
    .bind .temp fun _ => .bind (emit _) fun _ => .bind (emit _) fun _ => pushVar _ _

def elements (handle : Name) :
    (first : Nat) → {parts : List Part} → All env parts → Plan env (lowerElements handle first parts)
  | _, _, .nil => pure _
  | first, _, .cons p rest =>
    .bind (evalDeref p) fun _ => .bind (emit _) fun _ => elements handle (first + 1) rest

def array {parts : List Part} (all : All env parts) : Plan env (lowerArray parts) :=
  .bind .temp fun _ => .bind (emit _) fun _ => .bind (elements _ 0 all) fun _ =>
    .bind (emit _) fun _ => pushVar _ _

def index {base index : Part} (b : Plan env base.gen) (i : Plan env index.gen) :
    Plan env (lowerIndex base index) :=
  .bind (eval b) fun b => .bind (evalDeref i) fun _ => .bind (deref b) fun _ => .push _

def branch {cond : Part} {thenBody elseBody : List Part} (c : Plan env cond.gen)
    (t : All env thenBody) (e : All env elseBody) : Plan env (lowerBranch cond thenBody elseBody) :=
  .bind (evalDeref c) fun _ => .bind (emit _) fun _ => .bind (block t) fun _ =>
    choice (emit _) (.bind (emit _) fun _ => .bind (block e) fun _ => emit _)

def ternary {cond thenValue elseValue : Part} (c : Plan env cond.gen) (t : Plan env thenValue.gen)
    (e : Plan env elseValue.gen) : Plan env (lowerTernary cond thenValue elseValue) :=
  .bind (evalDeref c) fun _ => .bind .temp fun _ => .bind (emit _) fun _ =>
    .bind (evalDeref t) fun _ => .bind (emit _) fun _ => .bind (emit _) fun _ =>
      .bind (evalDeref e) fun _ => .bind (emit _) fun _ => .bind (emit _) fun _ => pushVar _ _

def loop {cond : Part} {body : List Part} (c : Plan env cond.gen) (all : All env body) :
    Plan env (lowerLoop cond body) :=
  .bind .label fun _ => .bind (emit _) fun _ => .bind (evalDeref c) fun _ =>
    .bind (emit _) fun _ => .bind (block all) fun _ => .bind (emit _) fun _ => emit _

def functionName (loc : Nat) : (x : Option String) → Plan env (Gen.functionName loc x)
  | some x => .function loc x
  | none => .temp

def params {first : Nat} (h : 2 ≤ first) : (ps : List String) → Plan env (declareParams first ps)
  | [] => pure _
  | p :: rest => .bind (.param p .text h) fun _ => params (Nat.le_succ_of_le h) rest

def lowerFunction (loc : Nat) (x : Option String) (ps : List String) {body : List Part}
    (all : All env body) : Plan env (Gen.lowerFunction loc x ps body) :=
  .bind (functionName loc x) fun _ => .bind (.emitTo _ _) fun _ => .bind (emitAll _) fun _ =>
    .bind (.scope (.bind (params (Nat.le_refl 2) ps) fun _ => block all)) fun _ =>
      choice (.bind (emit _) fun _ => .push _)
        (.bind (emitAll _) fun _ => .bind (emit _) fun _ => .push _)

def call {callee : Part} {args : List Part} (f : Plan env callee.gen) (all : All env args) :
    Plan env (lowerCall callee args) :=
  .bind (evalDeref f) fun _ => .bind (evalAll all) fun _ => .bind (derefAll _) fun _ =>
    .bind .temp fun _ => .bind (emit _) fun _ => pushVar _ _

def ret {value : Part} (v : Plan env value.gen) : Plan env (lowerReturn value) :=
  .bind (evalDeref v) fun _ => emitAll _

def program {body : List Part} (all : All env body) : Plan env (lowerProgram body) :=
  .bind (.emitTo _ _) fun _ => .bind (.emitTo _ _) fun _ => block all

/-! ## Plans of nodes -/

mutual

/-- The plan for a node. -/
def node (env : Env) : (n : Node) → Plan env (Gen.node env n)
  | .program _ body => program (parts env body)
  | .integer .. => .push _
  | .string .. => .push _
  | .identifier .. => .bind (.name _ _) fun _ => .push _
  | .binary _ op a b => binary op (node env a) (node env b)
  | .and _ a b => and (node env a) (node env b)
  | .or _ a b => or (node env a) (node env b)
  | .assign _ t v => assign (node env v) (node env t) t
  | .branch _ c t e => branch (node env c) (parts env t) (parts env e)
  | .ternary _ c t e => ternary (node env c) (node env t) (node env e)
  | .loop _ c body => loop (node env c) (parts env body)
  | .function _ _ _ body => lowerFunction _ _ _ (parts env body)
  | .call _ f args => choice (.unit _ _) (call (node env f) (parts env args))
  | .ret _ v => ret (node env v)
  | .step _ op _ t => step op (node env t)
  | .array _ elements => array (parts env elements)
  | .index _ b i => index (node env b) (node env i)

/-- The plans for the nodes of a list. -/
def parts (env : Env) : (ns : List Node) → All env (Gen.parts env ns)
  | [] => .nil
  | n :: ns => .cons (node env n) (parts env ns)

end

/-! ## States in a trace -/

variable {m : Gen α} {f : α → Gen β} {first : Plan env m} {rest : (a : α) → Plan env (f a)}
  {inside : String → Shared → List Moment} {s t : State} {a : α} {moment : Moment}

theorem mem_trace_first (h : moment ∈ first.trace inside s) :
    moment ∈ (first.bind rest).trace inside s :=
  List.mem_append_left _ h

theorem mem_trace_rest (hm : m s = .ok a t) (h : moment ∈ (rest a).trace inside t) :
    moment ∈ (first.bind rest).trace inside s := by
  rw [trace, hm]
  exact List.mem_append_right _ h

/-- The state in which a step ends is reached, whether or not it succeeds. -/
theorem after_mem_trace (p : Plan env m) (inside : String → Shared → List Moment) (s : State) :
    .reached (after m s) ∈ p.trace inside s := by
  induction p generalizing s with
  | temp => exact List.mem_cons_of_mem _ (List.mem_singleton.2 rfl)
  | name loc x => exact List.mem_append_right _ (List.mem_singleton.2 rfl)
  | unit loc args => exact List.mem_append_right _ (List.mem_singleton.2 rfl)
  | scope body ih => exact List.mem_append_right _ (List.mem_singleton.2 rfl)
  | @bind _ _ m f first rest ihfirst ihrest =>
    cases hm : m s with
    | ok a t =>
      have hafter : after (m >>= f) s = after (f a) t := by
        unfold after
        rw [bind_of_ok hm]
      rw [hafter]
      exact mem_trace_rest hm (ihrest a t)
    | error e t =>
      have hafter : after (m >>= f) s = t := by
        unfold after
        rw [bind_apply, hm]
      rw [hafter, ← after_of_error hm]
      exact mem_trace_first (ihfirst s)
  | _ => exact List.mem_singleton.2 rfl

/-- The state in which the body of a function is begun is reached. -/
theorem entering_mem_trace {loc : Nat} {x : Option String} {g : Name}
    (h : Gen.functionName loc x s = .ok g t) (ps : List String) (body : List Node)
    (inside : String → Shared → List Moment) :
    .reached (t.entering g ps) ∈ (node env (.function loc x ps body)).trace inside s := by
  refine mem_trace_rest h (mem_trace_rest rfl (mem_trace_rest (emitAll_apply _ _) ?_))
  refine mem_trace_first (List.mem_append_left _ (List.mem_cons_of_mem _ (mem_trace_first ?_)))
  have hparams := (params (Nat.le_refl 2) ps : Plan env _).after_mem_trace inside
    { (t.emitTo .decl (.handle g)).emitAll [.goto (.behind g), .label (.entry g), .enterFunction] with
      scopes := t.scopes.enter }
  rwa [after_of_ok (declareParams_apply _ _ _)] at hparams

end Plan

end Gen

/-! ## Traces of units -/

/-- What happens while a node is generated for its effects, from the state in which that begins. -/
def Env.trace (env : Env) (inside : String → Shared → List Moment) (n : Node) (s : State) :
    List Moment :=
  .reached s :: (Gen.Plan.statement (.node env n)).trace inside s

namespace Setup

/-- What happens in the unit at a path, which is generated in these surroundings. -/
def unitTrace (setup : Setup) (env : Env) (inside : String → Shared → List Moment) (path : String)
    (shared : Shared) : List Moment :=
  match setup.files path with
  | .error _ => []
  | .ok source =>
    match readUnit setup.folding source with
    | .error _ => []
    | .ok program => env.trace inside program { shared }

/-- What happens in the units that a unit with the surroundings `setup.env depth base` includes. -/
def inside (setup : Setup) : Nat → String → String → Shared → List Moment
  | 0, _ => fun _ _ => []
  | depth + 1, base => fun path =>
    setup.unitTrace (setup.env depth (Path.directory base path))
      (setup.inside depth (Path.directory base path)) path

/-- What happens while a node is generated, in its unit and in the units that it includes. -/
def trace (setup : Setup) (depth : Nat) (base : String) (n : Node) (s : State) : List Moment :=
  (setup.env depth base).trace (setup.inside depth base) n s

end Setup

/-- What happens while a node of the outermost unit is generated. -/
def Options.trace (options : Options) (files : String → Except IoError String) (n : Node)
    (s : State) : List Moment :=
  Setup.trace { registry := .standard, files, folding := options.folding, limit := options.limit }
    options.limit options.base n s

end BatchCompiler
