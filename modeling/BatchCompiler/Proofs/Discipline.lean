/-
# BatchCompiler.Proofs.Discipline -- runs that succeed, in the order of evaluation

Generation goes through the nodes of a tree in one order: what a node is evaluated from comes before
the node, from left to right, except that `<` takes its right operand first and an assignment its
value before its target. `Node.evaluation` lists the nodes in that order.

A `Discipline` says what holds of the states between the steps of generation, which operands may be
put on a line and which temporaries a construct may write to, and what holds between two states when
the nodes of a list have been gone through from one to the other. It may keep books beside the states,
in which names that are read, assigned to and bound are entered. Where it composes and holds of the
lines that each construct writes, it holds of every run that succeeds, in the order of evaluation, in
all the units (`Discipline.Lawful.node`). Other than a `Contract` it says nothing about failures, but
it knows the operands on the stack and the order of the nodes.
-/

import BatchCompiler.Proofs.Overwrite

namespace BatchCompiler

/-! ## The order of evaluation -/

namespace Node

mutual

/-- The nodes that are gone through for a node, the node itself last. A name that is assigned to is
not evaluated, and an include stands for the nodes that are included. -/
def evaluation (included : String → List Node) : Node → List Node
  | program l body => evaluationAll included body ++ [program l body]
  | integer l v => [integer l v]
  | string l v => [string l v]
  | identifier l x => [identifier l x]
  | binary l op a b =>
    (if op = .lt then evaluation included b ++ evaluation included a
      else evaluation included a ++ evaluation included b) ++ [binary l op a b]
  | and l a b => evaluation included a ++ evaluation included b ++ [and l a b]
  | or l a b => evaluation included a ++ evaluation included b ++ [or l a b]
  | assign l t v =>
    evaluation included v ++
      ((if t.construct = .identifier then [] else evaluation included t) ++ [assign l t v])
  | branch l c t e =>
    evaluation included c ++ (evaluationAll included t ++ evaluationAll included e) ++
      [branch l c t e]
  | ternary l c t e =>
    evaluation included c ++ (evaluation included t ++ evaluation included e) ++ [ternary l c t e]
  | loop l c body => evaluation included c ++ evaluationAll included body ++ [loop l c body]
  | function l x ps body => evaluationAll included body ++ [function l x ps body]
  | call l f args =>
    if Gen.isInclude f then ofArguments included args
    else evaluation included f ++ (evaluationAll included args ++ [call l f args])
  | ret l v => evaluation included v ++ [ret l v]
  | step l op leading t => evaluation included t ++ [step l op leading t]
  | array l es => evaluationAll included es ++ [array l es]
  | index l b i => evaluation included b ++ evaluation included i ++ [index l b i]

/-- The nodes that are gone through for a list of nodes, one after the other. -/
def evaluationAll (included : String → List Node) : List Node → List Node
  | [] => []
  | n :: ns => evaluation included n ++ evaluationAll included ns

end

theorem evaluationAll_eq_flatMap (included : String → List Node) (ns : List Node) :
    evaluationAll included ns = ns.flatMap (evaluation included) := by
  induction ns with
  | nil => rfl
  | cons n ns ih => simp [evaluationAll, ih]

/-- The node does nothing by itself to what names stand for or hold. -/
def isIdle (n : Node) : Bool := n.construct ∉ [.identifier, .assign, .function, .call, .step]

end Node

/-- The nodes that are gone through for a node in all the units, in the surroundings that `Setup.env`
gives. -/
def Setup.evaluation (setup : Setup) : Nat → String → Node → List Node
  | 0, _ => Node.evaluation fun _ => []
  | depth + 1, base => Node.evaluation fun path =>
    setup.unitNodes (setup.evaluation depth (Path.directory base (Path.join base path)))
      (Path.join base path)

/-- All the nodes that the compilation of a source goes through, in all the units. -/
def Options.evaluation (options : Options) (files : String → Except IoError String)
    (source : String) : List Node :=
  match readUnit options.folding source with
  | .error _ => []
  | .ok program =>
    Setup.evaluation
      { registry := .standard, files, folding := options.folding, limit := options.limit }
      options.limit options.base program

/-! ## Lines -/

/-- The line is one of those that a construct writes for its own value or to steer the script. It
writes to a temporary of its own and is made of operands that may be put on a line. -/
inductive Line.IsMadeOf (own : Name → Prop) (good : Operand → Prop) : Line → Prop where
  | text {x : Name} {a b : Operand} : own x → good a → good b →
    IsMadeOf own good (.assign (.var x) (a.splice ++ b.splice))
  | value {x : Name} {a : Operand} : own x → good a → IsMadeOf own good (.assign (.var x) a.splice)
  | handle {x : Name} : own x → IsMadeOf own good (.assign (.var x) [.name x])
  | element {x : Name} (i : Nat) {a : Operand} : own x → good a →
    IsMadeOf own good (.assign (.element x i) a.splice)
  | size {x : Name} (n : Nat) : own x → IsMadeOf own good (.assign (.size x) [.number n])
  | binary {x : Name} (op : BinaryOp) {a b : Operand} : own x → good a → good b →
    IsMadeOf own good (.compute (.var x) (.binary op a.splice b.splice))
  | compare {x : Name} (op : BinaryOp) {a b : Operand} : own x → good a → good b →
    IsMadeOf own good (.compare x op a.splice b.splice)
  | flag {x : Name} (truth : Bool) : own x → IsMadeOf own good (.flag x truth)
  | fetch {x : Name} {place : Text} : own x → good (.reference place) →
    IsMadeOf own good (.fetch x place)
  | openIf {a : Operand} : good a → IsMadeOf own good (.openIf a.splice)
  | setResult {a : Operand} : good a → IsMadeOf own good (.setResult a.isInteger a.spliceNow)
  | openElse : IsMadeOf own good .openElse
  | close : IsMadeOf own good .close
  | openReturn : IsMadeOf own good .openReturn
  | returnZero : IsMadeOf own good .returnZero
  | leaveFunction : IsMadeOf own good .leaveFunction
  | label (l : Label) : IsMadeOf own good (.label l)
  | goto (l : Label) : IsMadeOf own good (.goto l)

theorem Line.IsMadeOf.mono {own own' : Name → Prop} {good good' : Operand → Prop} {line : Line}
    (h : line.IsMadeOf own good) (hown : ∀ x, own x → own' x) (hgood : ∀ o, good o → good' o) :
    line.IsMadeOf own' good' := by
  cases h with
  | text hx ha hb => exact .text (hown _ hx) (hgood _ ha) (hgood _ hb)
  | value hx ha => exact .value (hown _ hx) (hgood _ ha)
  | handle hx => exact .handle (hown _ hx)
  | element i hx ha => exact .element i (hown _ hx) (hgood _ ha)
  | size n hx => exact .size n (hown _ hx)
  | binary op hx ha hb => exact .binary op (hown _ hx) (hgood _ ha) (hgood _ hb)
  | compare op hx ha hb => exact .compare op (hown _ hx) (hgood _ ha) (hgood _ hb)
  | flag truth hx => exact .flag truth (hown _ hx)
  | fetch hx hplace => exact .fetch (hown _ hx) (hgood _ hplace)
  | openIf ha => exact .openIf (hgood _ ha)
  | setResult ha => exact .setResult (hgood _ ha)
  | openElse => exact .openElse
  | close => exact .close
  | openReturn => exact .openReturn
  | returnZero => exact .returnZero
  | leaveFunction => exact .leaveFunction
  | label l => exact .label l
  | goto l => exact .goto l

/-! ## Fragments on lines -/

/-- The fragments that say where the target is. -/
def Target.fragments : Target → List Fragment
  | location place => place
  | _ => []

/-- The fragments of the formula. -/
def Formula.fragments : Formula → List Fragment
  | value a => a
  | binary _ a b => a ++ b
  | step _ a => a

/-- The fragments of the argument. -/
def Argument.fragments : Argument → List Fragment
  | bare text => text
  | quoted text => text

/-- The fragments of the texts on the line. -/
def Line.fragments : Line → List Fragment
  | assign target value => target.fragments ++ value
  | compute target formula => target.fragments ++ formula.fragments
  | fetch _ place => place
  | compare _ _ a b => a ++ b
  | openIf cond => cond
  | call callee _ args => callee ++ args.flatMap Argument.fragments
  | setResult _ value => value
  | _ => []

theorem Line.fragments_assignLine (target : Target) (v : Operand) :
    (Gen.assignLine target v).fragments = target.fragments ++ v.splice := by
  unfold Gen.assignLine
  split <;> rfl

theorem Line.fragments_call (f : Operand) (x : Name) (values : List Operand) :
    (Line.call f.splice x (values.map Gen.argument)).fragments =
      f.splice ++ values.flatMap Operand.splice := by
  have hargument : ∀ v : Operand, (Gen.argument v).fragments = v.splice := by
    intro v
    unfold Gen.argument
    split <;> rfl
  simp only [Line.fragments, List.flatMap_map, hargument]

theorem Operand.mem_splice_of_target? {o : Operand} {place : Target} (h : o.target? = some place)
    {f : Fragment} (hf : f ∈ place.fragments) : f ∈ o.splice := by
  cases o with
  | reference text =>
    cases h
    exact hf
  | var v =>
    obtain ⟨y, -, rfl⟩ := Option.map_eq_some_iff.1 h
    cases hf
  | integer value => cases h
  | text text => cases h

/-- The fragments on a line are those of the operands of which it is made, or of the name or number
that it assigns. -/
theorem Line.IsMadeOf.of_mem_fragments {own : Name → Prop} {good : Operand → Prop} {line : Line}
    (h : line.IsMadeOf own good) {f : Fragment} (hf : f ∈ line.fragments) :
    (∃ o, good o ∧ (f ∈ o.splice ∨ f ∈ o.spliceNow)) ∨ (∃ x, f = .name x) ∨ ∃ n, f = .number n := by
  have hpair : ∀ {a b : Operand}, good a → good b → f ∈ a.splice ++ b.splice →
      ∃ o, good o ∧ (f ∈ o.splice ∨ f ∈ o.spliceNow) := by
    intro a b ha hb hmem
    rcases List.mem_append.1 hmem with hmem | hmem
    · exact ⟨a, ha, .inl hmem⟩
    · exact ⟨b, hb, .inl hmem⟩
  cases h with
  | text hown ha hb => exact .inl (hpair ha hb hf)
  | value hown ha => exact .inl ⟨_, ha, .inl hf⟩
  | handle hown => exact .inr (.inl ⟨_, List.mem_singleton.1 hf⟩)
  | element i hown ha => exact .inl ⟨_, ha, .inl hf⟩
  | size n hown => exact .inr (.inr ⟨_, List.mem_singleton.1 hf⟩)
  | binary op hown ha hb => exact .inl (hpair ha hb hf)
  | compare op hown ha hb => exact .inl (hpair ha hb hf)
  | fetch hown hplace => exact .inl ⟨_, hplace, .inl hf⟩
  | openIf ha => exact .inl ⟨_, ha, .inl hf⟩
  | setResult ha => exact .inl ⟨_, ha, .inr hf⟩
  | _ => cases hf

/-! ## Disciplines -/

/-- What is to hold of the runs of generation that succeed, with books of type `G` beside the
states. -/
structure Discipline (G : Type) where
  /-- What holds of the states between steps. -/
  inv : G → State → Prop
  /-- The temporary is one that the construct which made it up may write to. -/
  own : State → Name → Prop
  /-- The operand may be put on a line. -/
  good : G → State → Operand → Prop
  /-- What holds between the books and states before and after these nodes have been gone through. -/
  done : List Node → G → State → G → State → Prop

namespace Discipline

variable {G : Type}

/-- The scopes are as they should be, and what the discipline asks for holds. -/
structure Valid (D : Discipline G) (g : G) (s : State) : Prop where
  scopes : s.WellScoped
  inv : D.inv g s

/-- All operands on the stack may be put on a line, too. -/
structure Holds (D : Discipline G) (g : G) (s : State) : Prop extends D.Valid g s where
  stack : ∀ o ∈ s.stack, D.good g s o

/-- The step, if it succeeds in this state, goes through these nodes, and its result is as `Q`
says. -/
def Runs {α : Type} (D : Discipline G) (g : G) (s : State) (ns : List Node)
    (Q : α → G → State → Prop) (m : Gen α) : Prop :=
  D.Holds g s → ∀ a t, m s = .ok a t → ∃ g', D.done ns g s g' t ∧ D.Holds g' t ∧ Q a g' t

/-- The step, if it succeeds in this state, goes through these nodes. -/
abbrev Goes {α : Type} (D : Discipline G) (g : G) (s : State) (ns : List Node) (m : Gen α) : Prop :=
  D.Runs g s ns (fun _ _ _ => True) m

open Gen in
/-- The discipline composes and holds of what each construct does by itself. -/
structure Lawful (D : Discipline G) : Prop where
  refl {g : G} {s : State} : D.Valid g s → D.done [] g s g s
  trans {ms ns : List Node} {g g' g'' : G} {s t u : State} :
    D.done ms g s g' t → D.done ns g' t g'' u → D.done (ms ++ ns) g s g'' u
  inv_of_done {ns : List Node} {g g' : G} {s t : State} :
    D.Valid g s → D.done ns g s g' t → D.inv g' t
  own_mono {ns : List Node} {g g' : G} {s t : State} {x : Name} :
    D.done ns g s g' t → D.own s x → D.own t x
  good_mono {ns : List Node} {g g' : G} {s t : State} {o : Operand} :
    D.done ns g s g' t → D.good g s o → D.good g' t o
  idle {g : G} {s : State} {n : Node} : D.Valid g s → n.isIdle = true → D.done [n] g s g s
  stack {g : G} {s : State} (stack : List Operand) : D.Valid g s → D.done [] g s g { s with stack }
  temp {g : G} {s : State} : D.Valid g s →
    D.done [] g s g s.freshTemp.2 ∧ D.own s.freshTemp.2 s.freshTemp.1
  label {g : G} {s : State} : D.Valid g s → D.done [] g s g s.freshLabel.2
  starting {g : G} {s : State} (line : Line) : D.Valid g s → D.done [] g s g (s.emitTo .init line)
  emit {g : G} {s : State} {line : Line} : D.Valid g s → line.IsMadeOf (D.own s) (D.good g s) →
    D.done [] g s g (s.emitAll [line]) ∧
      ∀ x ty, line.written? = some x → D.good g (s.emitAll [line]) (.var (.named x ty))
  number (g : G) (s : State) (v : Int) : D.good g s (.integer v)
  chars (g : G) (s : State) (text : String) : D.good g s (.text [.chars text])
  reference {g : G} {s : State} {b i : Operand} : D.good g s b → D.good g s i →
    D.good g s (.reference (b.splice ++ .chars "." :: i.splice))
  read {g : G} {s t : State} {loc : Nat} {k : String} {v : Variable} : D.Valid g s →
    resolve .standard loc k s = .ok v t →
      ∃ g', D.done [.identifier loc k] g s g' t ∧ D.good g' t (.var v)
  /-- A name is assigned to. -/
  assignName {g : G} {s t : State} {l loc : Nat} {k : String} {n : Node} {v : Operand}
      {place : Target} :
    D.Valid g s → D.good g s v → v.IsReadBy 0 s.shared n →
    nameTarget loc k v.valueType s = .ok place t →
      ∃ g', D.done [.assign l (.identifier loc k) n] g s g' (t.emitAll [assignLine place v])
  /-- An element of an array is assigned to. -/
  assignPlace {g : G} {s : State} {l loc : Nat} {b i n : Node} {v o : Operand} :
    D.Valid g s → D.good g s v → v.IsReadBy 0 s.shared n → D.good g s o →
    o.IsLeftBy 0 s.shared (.index loc b i) →
      D.done [.assign l (.index loc b i) n] g s g (s.emitAll [assignLine (.location o.splice) v])
  /-- A variable or a place is stepped, and the value from before is kept. -/
  stepped {g : G} {s : State} (l : Nat) (op : StepOp) (leading : Bool) {n : Node}
      {o current : Operand} {place : Target} {x : Name} :
    D.Valid g s → D.own s x → D.good g s o → D.good g s current → o.IsLeftBy 0 s.shared n →
    o.target? = some place → current.IsValueOf 0 s.shared o →
    let t := s.emitAll
      [.compute (.var x) (.value current.splice), .compute place (.step op current.splice)]
    D.done [.step l op leading n] g s g t ∧ ∀ ty, D.good g t (.var (.named x ty))
  /-- A routine is called with the values of the arguments, in their order. -/
  called {g : G} {s : State} {l : Nat} {n : Node} {args : List Node} {f : Operand}
      {values : List Operand} {x : Name} :
    D.Valid g s → D.own s x → D.good g s f → f.IsReadBy 0 s.shared n →
    (∀ v ∈ values, D.good g s v) → List.Forall₂ (Operand.IsReadBy 0 s.shared) args values →
    let t := s.emitAll [.call f.splice x (values.map argument)]
    D.done [.call l n args] g s g t ∧ ∀ ty, D.good g t (.var (.named x ty))
  /-- The body of a function is gone through in a scope of its own. -/
  routine {g : G} {s s' : State} {loc : Nat} {name : Option String} {f : Name}
      (params : List String) (body : List Node) :
    D.Valid g s → functionName loc name s = .ok f s' → ∃ g₁,
    D.inv g₁ (s'.entering f params) ∧
    (∀ o, D.good g s o → D.good g₁ (s'.entering f params) o) ∧
      ∀ ns g₂ t, D.done ns g₁ (s'.entering f params) g₂ t → ∃ g₃,
        D.done (ns ++ [.function loc name params body]) g s g₃
            { t with scopes := t.scopes.leave } ∧
          (∀ o, D.good g₂ t o → D.good g₃ { t with scopes := t.scopes.leave } o) ∧
          D.good g₃ { t with scopes := t.scopes.leave } (.text [.name f])
  /-- An included unit starts from what is shared, and what it does is done by the unit around it. -/
  included {g : G} {s : State} : D.Valid g s → ∃ g₁, D.inv g₁ { shared := s.shared } ∧
    ∀ ns g₂ t, D.done ns g₁ { shared := s.shared } g₂ t → ∃ g₃, D.done ns g s g₃ (s.adopt t)

namespace Lawful

open Gen

variable {D : Discipline G} {α β : Type} {g g' : G} {s t u : State} {ls ms ns : List Node}
  {m : Gen α} {f : α → Gen β} {Q : α → G → State → Prop} {R : β → G → State → Prop}

/-! ## Sequences -/

theorem bind (hD : D.Lawful) (hm : D.Runs g s ms Q m)
    (hf : ∀ a g' t, D.done ms g s g' t → Q a g' t → D.Runs g' t ns R (f a)) :
    D.Runs g s (ms ++ ns) R (m >>= f) := by
  intro hs b u hrun
  obtain ⟨a, t, hmt, hfu⟩ := bind_eq_ok_iff.1 hrun
  obtain ⟨g', hst, ht, ha⟩ := hm hs a t hmt
  obtain ⟨g'', htu, hu, hb⟩ := hf a g' t hst ha ht b u hfu
  exact ⟨g'', hD.trans hst htu, hu, hb⟩

/-- A step that goes through no node comes first. -/
theorem andThen (hD : D.Lawful) (hm : D.Runs g s [] Q m)
    (hf : ∀ a g' t, D.done [] g s g' t → Q a g' t → D.Runs g' t ns R (f a)) :
    D.Runs g s ns R (m >>= f) :=
  hD.bind hm hf

/-- A step that goes through no node comes last. -/
theorem bindLast (hD : D.Lawful) (hm : D.Runs g s ms Q m)
    (hf : ∀ a g' t, D.done ms g s g' t → Q a g' t → D.Runs g' t [] R (f a)) :
    D.Runs g s ms R (m >>= f) := by
  have h := hD.bind hm hf
  rwa [List.append_nil] at h

theorem weaken (h : D.Runs g s ns Q m) {Q' : α → G → State → Prop}
    (hQ : ∀ a g' t, Q a g' t → Q' a g' t) : D.Runs g s ns Q' m := by
  intro hs a t hrun
  obtain ⟨g', hdone, ht, ha⟩ := h hs a t hrun
  exact ⟨g', hdone, ht, hQ a g' t ha⟩

/-- The node itself comes behind what it is evaluated from. -/
theorem closing (hD : D.Lawful) {n : Node} (hn : n.isIdle = true) (h : D.Runs g s ns Q m) :
    D.Runs g s (ns ++ [n]) Q m := by
  intro hs a t hrun
  obtain ⟨g', hdone, ht, ha⟩ := h hs a t hrun
  exact ⟨g', hD.trans hdone (hD.idle ht.toValid hn), ht, ha⟩

/-! ## Primitive steps -/

/-- The operands on the stack are as good as before where the stack is left as it was found. -/
theorem holds_of_done (hD : D.Lawful) (hs : D.Holds g s) (hdone : D.done ns g s g' t)
    (ht : t.WellScoped) (hstack : t.stack = s.stack) : D.Holds g' t where
  scopes := ht
  inv := hD.inv_of_done hs.toValid hdone
  stack := by
    rw [hstack]
    exact fun o ho => hD.good_mono hdone (hs.stack o ho)

theorem restack (hD : D.Lawful) (hs : D.Holds g s) {stack : List Operand}
    (hstack : ∀ o ∈ stack, D.good g s o) :
    D.done [] g s g { s with stack } ∧ D.Holds g { s with stack } := by
  have hdone := hD.stack stack hs.toValid
  exact ⟨hdone, ⟨hs.scopes, hD.inv_of_done hs.toValid hdone⟩,
    fun o ho => hD.good_mono hdone (hstack o ho)⟩

/-- Operands may be dropped. -/
theorem dropTo (hD : D.Lawful) (hs : D.Holds g s) (depth : Nat) :
    D.done [] g s g (s.dropTo depth) ∧ D.Holds g (s.dropTo depth) :=
  hD.restack hs fun o ho => hs.stack o (List.mem_of_mem_drop ho)

theorem pure (hD : D.Lawful) {a : α} (h : Q a g s) : D.Runs g s [] Q (Pure.pure a) := by
  intro hs b t hrun
  cases hrun
  exact ⟨g, hD.refl hs.toValid, hs, h⟩

theorem fail (loc : Nat) (cause : Cause) : D.Runs g s ns Q (Gen.fail loc cause) := by
  intro hs a t hrun
  cases hrun

theorem freshTemp (hD : D.Lawful) : D.Runs g s [] (fun x _ t => D.own t x) Gen.freshTemp := by
  intro hs x t hrun
  cases hrun
  obtain ⟨hdone, hx⟩ := hD.temp hs.toValid
  exact ⟨g, hdone, hD.holds_of_done hs hdone hs.scopes.freshTemp rfl, hx⟩

theorem freshLabel (hD : D.Lawful) : D.Goes g s [] Gen.freshLabel := by
  intro hs l t hrun
  cases hrun
  have hdone := hD.label hs.toValid
  have hscopes := (Compilation.scoped_of_step (.label s) hs.scopes).1
  exact ⟨g, hdone, hD.holds_of_done hs hdone hscopes rfl, trivial⟩

theorem starts (hD : D.Lawful) (line : Line) : D.Goes g s [] (Gen.emitTo .init line) := by
  intro hs a t hrun
  cases hrun
  have hdone := hD.starting line hs.toValid
  exact ⟨g, hdone, hD.holds_of_done hs hdone hs.scopes rfl, trivial⟩

/-- What the lines write may be put on later lines. -/
theorem emitAll (hD : D.Lawful) {lines : List Line}
    (h : ∀ line ∈ lines, line.IsMadeOf (D.own s) (D.good g s)) :
    D.Runs g s [] (fun _ g' t => ∀ line ∈ lines, ∀ x ty, line.written? = some x →
      D.good g' t (.var (.named x ty))) (Gen.emitAll lines) := by
  induction lines generalizing s with
  | nil => exact hD.pure nofun
  | cons line lines ih =>
    obtain ⟨hline, hlines⟩ := List.forall_mem_cons.1 h
    intro hs a t hrun
    obtain ⟨hdone, hwritten⟩ := hD.emit hs.toValid hline
    have hnext : D.Holds g (s.emitAll [line]) := hD.holds_of_done hs hdone hs.scopes rfl
    have hmade : ∀ other ∈ lines,
        other.IsMadeOf (D.own (s.emitAll [line])) (D.good g (s.emitAll [line])) :=
      fun other hother =>
        (hlines other hother).mono (fun _ => hD.own_mono hdone) fun _ => hD.good_mono hdone
    obtain ⟨g', hrest, ht, hothers⟩ := ih hmade hnext a t hrun
    refine ⟨g', hD.trans hdone hrest, ht, List.forall_mem_cons.2 ⟨?_, hothers⟩⟩
    exact fun x ty hx => hD.good_mono hrest (hwritten x ty hx)

theorem emitLine (hD : D.Lawful) {line : Line} (h : line.IsMadeOf (D.own s) (D.good g s)) :
    D.Runs g s []
      (fun _ g' t => ∀ x ty, line.written? = some x → D.good g' t (.var (.named x ty)))
      (Gen.emit line) := by
  have hline := hD.emitAll (List.forall_mem_singleton.2 h)
  exact weaken hline fun _ _ _ hall => hall line List.mem_cons_self

theorem push (hD : D.Lawful) {o : Operand} (h : D.good g s o) : D.Goes g s [] (Gen.push o) := by
  intro hs a t hrun
  cases hrun
  obtain ⟨hdone, ht⟩ := hD.restack hs (List.forall_mem_cons.2 ⟨h, hs.stack⟩)
  exact ⟨g, hdone, ht, trivial⟩

/-- A line that leaves a value in a temporary, which becomes the operand. -/
theorem leave (hD : D.Lawful) {line : Line} {x : Name} (h : line.IsMadeOf (D.own s) (D.good g s))
    (hx : line.written? = some x) (ty : ValueType) :
    D.Goes g s [] (Gen.emit line >>= fun _ => Gen.pushVar x ty) :=
  hD.andThen (hD.emitLine h) fun _ _ _ _ hwritten => hD.push (hwritten x ty hx)

theorem deref (hD : D.Lawful) {o : Operand} (h : D.good g s o) :
    D.Runs g s [] (fun o g' t => D.good g' t o) (Gen.deref o) := by
  cases o with
  | reference place =>
    refine hD.andThen hD.freshTemp fun x g₁ s₁ h₁ hx => ?_
    have hline := hD.emitLine (.fetch hx (hD.good_mono h₁ h))
    exact hD.andThen hline fun _ g₂ s₂ _ hwritten => hD.pure (hwritten x .text rfl)
  | integer v => exact hD.pure h
  | text text => exact hD.pure h
  | var v => exact hD.pure h

theorem derefAll (hD : D.Lawful) {os : List Operand} (h : ∀ o ∈ os, D.good g s o) :
    D.Runs g s [] (fun values g' t => ∀ v ∈ values, D.good g' t v) (Gen.derefAll os) := by
  induction os with
  | nil => exact hD.pure nofun
  | cons o os ih =>
    obtain ⟨ho, hos⟩ := List.forall_mem_cons.1 h
    refine hD.andThen (ih hos) fun values g₁ s₁ h₁ hvalues => ?_
    refine hD.andThen (hD.deref (hD.good_mono h₁ ho)) fun v g₂ s₂ h₂ hv => hD.pure ?_
    exact List.forall_mem_cons.2 ⟨hv, fun w hw => hD.good_mono h₂ (hvalues w hw)⟩

/-! ## Parts -/

theorem statement (hD : D.Lawful) {m : Gen Unit} (hm : D.Goes g s ns m) :
    D.Goes g s ns (Gen.statement m) := by
  intro hs a u hrun
  rw [statement_apply] at hrun
  split at hrun
  next t hmt =>
    cases hrun
    obtain ⟨g', hdone, ht, -⟩ := hm hs _ t hmt
    obtain ⟨hdrop, hu⟩ := hD.dropTo ht s.stack.length
    have hboth := hD.trans hdone hdrop
    rw [List.append_nil] at hboth
    exact ⟨g', hboth, hu, trivial⟩
  next => cases hrun

theorem eval (hD : D.Lawful) {p : Part} (hp : D.Goes g s ns p.gen) :
    D.Runs g s ns (fun o g' t => D.good g' t o) (Gen.eval p) := by
  intro hs o u hrun
  obtain ⟨t, rest, hgen, hstack, -, rfl⟩ := eval_eq_ok hrun
  obtain ⟨g', hdone, ht, -⟩ := hp hs () t hgen
  obtain ⟨hdrop, hu⟩ := hD.dropTo ht s.stack.length
  have ho : D.good g' t o := ht.stack o (by rw [hstack]; exact List.mem_cons_self)
  have hboth := hD.trans hdone hdrop
  rw [List.append_nil] at hboth
  exact ⟨g', hboth, hu, hD.good_mono hdrop ho⟩

theorem evalDeref (hD : D.Lawful) {p : Part} (hp : D.Goes g s ns p.gen) :
    D.Runs g s ns (fun o g' t => D.good g' t o) (Gen.evalDeref p) :=
  hD.bindLast (hD.eval hp) fun _ _ _ _ ho => hD.deref ho

section Lists

variable {env : Env} {order : Node → List Node}

theorem block (hD : D.Lawful) {body : List Node}
    (h : ∀ n ∈ body, ∀ g s, D.Goes g s (order n) (node env n)) (g : G) (s : State) :
    D.Goes g s (body.flatMap order) (Gen.block (parts env body)) := by
  induction body generalizing g s with
  | nil => exact hD.pure trivial
  | cons n body ih =>
    obtain ⟨hn, hbody⟩ := List.forall_mem_cons.1 h
    exact hD.bind (hD.statement (hn g s)) fun _ g₁ s₁ _ _ => ih hbody g₁ s₁

theorem evalAll (hD : D.Lawful) {args : List Node}
    (h : ∀ n ∈ args, ∀ g s, D.Goes g s (order n) (node env n)) (g : G) (s : State) :
    D.Runs g s (args.flatMap order) (fun os g' t => ∀ o ∈ os, D.good g' t o)
      (Gen.evalAll (parts env args)) := by
  induction args generalizing g s with
  | nil => exact hD.pure nofun
  | cons n args ih =>
    obtain ⟨hn, hargs⟩ := List.forall_mem_cons.1 h
    refine hD.bind (hD.eval (hn g s)) fun o g₁ s₁ _ ho => ?_
    refine hD.bindLast (ih hargs g₁ s₁) fun os g₂ s₂ h₂ hos => hD.pure ?_
    exact List.forall_mem_cons.2 ⟨hD.good_mono h₂ ho, hos⟩

theorem elements (hD : D.Lawful) {es : List Node}
    (h : ∀ n ∈ es, ∀ g s, D.Goes g s (order n) (node env n)) {x : Name} (hx : D.own s x)
    (first : Nat) : D.Goes g s (es.flatMap order) (lowerElements x first (parts env es)) := by
  induction es generalizing g s first with
  | nil => exact hD.pure trivial
  | cons n es ih =>
    obtain ⟨hn, hes⟩ := List.forall_mem_cons.1 h
    refine hD.bind (hD.evalDeref (hn g s)) fun v g₁ s₁ h₁ hv => ?_
    have hx₁ := hD.own_mono h₁ hx
    refine hD.andThen (hD.emitLine (.element first hx₁ hv)) fun _ g₂ s₂ h₂ _ => ?_
    exact ih hes (hD.own_mono h₂ hx₁) (first + 1)

theorem array (hD : D.Lawful) {es : List Node}
    (h : ∀ n ∈ es, ∀ g s, D.Goes g s (order n) (node env n)) (g : G) (s : State) :
    D.Goes g s (es.flatMap order) (lowerArray (parts env es)) := by
  refine hD.andThen hD.freshTemp fun x g₁ s₁ _ hx => ?_
  refine hD.andThen (hD.emitLine (.handle hx)) fun _ g₂ s₂ h₂ hwritten => ?_
  have hx₂ := hD.own_mono h₂ hx
  refine hD.bindLast (hD.elements h hx₂ 0) fun _ g₃ s₃ h₃ _ => ?_
  refine hD.andThen (hD.emitLine (.size _ (hD.own_mono h₃ hx₂))) fun _ g₄ s₄ h₄ _ => ?_
  exact hD.push (hD.good_mono h₄ (hD.good_mono h₃ (hwritten x .text rfl)))

end Lists

/-! ## Operators -/

section Constructs

variable {a b c : Part}

theorem sum (hD : D.Lawful) {o p : Operand} (ho : D.good g s o) (hp : D.good g s p) :
    D.Goes g s [] (lowerSum o p) := by
  refine hD.andThen hD.freshTemp fun x g₁ s₁ h₁ hx => ?_
  have ho' := hD.good_mono h₁ ho
  have hp' := hD.good_mono h₁ hp
  show D.Goes g₁ s₁ [] (if _ then _ else _)
  split
  · exact hD.leave (.binary .add hx ho' hp') rfl _
  · exact hD.leave (.text hx ho' hp') rfl _

theorem arithmetic (hD : D.Lawful) (op : BinaryOp) {o p : Operand} (ho : D.good g s o)
    (hp : D.good g s p) : D.Goes g s [] (lowerArithmetic op o p) := by
  refine hD.andThen hD.freshTemp fun x g₁ s₁ h₁ hx => ?_
  exact hD.leave (.binary op hx (hD.good_mono h₁ ho) (hD.good_mono h₁ hp)) rfl _

/-- What is gone through for two operands, given which of them comes first. -/
theorem comparands (hD : D.Lawful) (op : BinaryOp) (ha : ∀ g s, D.Goes g s ms a.gen)
    (hb : ∀ g s, D.Goes g s ns b.gen) (g : G) (s : State) :
    D.Runs g s (if op = .lt then ns ++ ms else ms ++ ns)
      (fun sides g' t => D.good g' t sides.1 ∧ D.good g' t sides.2.1 ∧ D.own t sides.2.2)
      (Gen.comparands op a b) := by
  unfold Gen.comparands
  split
  · refine hD.bind (hD.eval (hb g s)) fun p g₁ s₁ _ hp => ?_
    refine hD.bindLast (hD.eval (ha g₁ s₁)) fun o g₂ s₂ h₂ ho => ?_
    refine hD.andThen hD.freshTemp fun x g₃ s₃ h₃ hx => ?_
    refine hD.andThen (hD.deref (hD.good_mono h₃ ho)) fun o' g₄ s₄ h₄ ho' => ?_
    have hp' := hD.good_mono h₄ (hD.good_mono h₃ (hD.good_mono h₂ hp))
    refine hD.andThen (hD.deref hp') fun p' g₅ s₅ h₅ hp'' => hD.pure ?_
    exact ⟨hD.good_mono h₅ ho', hp'', hD.own_mono h₅ (hD.own_mono h₄ hx)⟩
  · refine hD.bind (hD.eval (ha g s)) fun o g₁ s₁ _ ho => ?_
    refine hD.bindLast (hD.eval (hb g₁ s₁)) fun p g₂ s₂ h₂ hp => ?_
    refine hD.andThen hD.freshTemp fun x g₃ s₃ h₃ hx => ?_
    refine hD.andThen (hD.deref (hD.good_mono h₃ hp)) fun p' g₄ s₄ h₄ hp' => ?_
    have ho' := hD.good_mono h₄ (hD.good_mono h₃ (hD.good_mono h₂ ho))
    refine hD.andThen (hD.deref ho') fun o' g₅ s₅ h₅ ho'' => hD.pure ?_
    exact ⟨ho'', hD.good_mono h₅ hp', hD.own_mono h₅ (hD.own_mono h₄ hx)⟩

theorem binary (hD : D.Lawful) (op : BinaryOp) (ha : ∀ g s, D.Goes g s ms a.gen)
    (hb : ∀ g s, D.Goes g s ns b.gen) (g : G) (s : State) :
    D.Goes g s (if op = .lt then ns ++ ms else ms ++ ns) (lowerBinary op a b) := by
  unfold lowerBinary
  by_cases hop : op.isComparison = true
  · rw [if_pos hop]
    refine hD.bindLast (hD.comparands op ha hb g s) fun sides g₁ s₁ _ ⟨ho, hp, hx⟩ => ?_
    exact hD.leave (.compare op hx ho hp) rfl _
  · have hlt : op ≠ .lt := by
      rintro rfl
      exact hop rfl
    rw [if_neg hop, if_neg hlt]
    refine hD.bind (hD.eval (ha g s)) fun o g₁ s₁ _ ho => ?_
    refine hD.bindLast (hD.eval (hb g₁ s₁)) fun p g₂ s₂ h₂ hp => ?_
    refine hD.andThen (hD.deref hp) fun p' g₃ s₃ h₃ hp' => ?_
    refine hD.andThen (hD.deref (hD.good_mono h₃ (hD.good_mono h₂ ho))) fun o' g₄ s₄ h₄ ho' => ?_
    have hp'' := hD.good_mono h₄ hp'
    show D.Goes g₄ s₄ [] (if _ then _ else _)
    split
    · exact hD.sum ho' hp''
    · exact hD.arithmetic op ho' hp''

theorem conjunction (hD : D.Lawful) (ha : ∀ g s, D.Goes g s ms a.gen)
    (hb : ∀ g s, D.Goes g s ns b.gen) (g : G) (s : State) : D.Goes g s (ms ++ ns) (lowerAnd a b) := by
  refine hD.bind (hD.evalDeref (ha g s)) fun o g₁ s₁ _ ho => ?_
  refine hD.andThen (hD.emitLine (.openIf ho)) fun _ g₂ s₂ _ _ => ?_
  refine hD.bindLast (hD.statement (hb g₂ s₂)) fun _ g₃ s₃ _ _ => ?_
  exact weaken (hD.emitLine .close) fun _ _ _ _ => trivial

theorem disjunction (hD : D.Lawful) (ha : ∀ g s, D.Goes g s ms a.gen)
    (hb : ∀ g s, D.Goes g s ns b.gen) (g : G) (s : State) : D.Goes g s (ms ++ ns) (lowerOr a b) := by
  refine hD.andThen hD.freshTemp fun x g₁ s₁ _ hx => ?_
  refine hD.bind (hD.evalDeref (ha g₁ s₁)) fun o g₂ s₂ h₂ ho => ?_
  have hx₂ := hD.own_mono h₂ hx
  refine hD.andThen (hD.emitAll ?_) fun _ g₃ s₃ h₃ hwritten => ?_
  · simp only [List.forall_mem_cons]
    exact ⟨.flag _ hx₂, .openIf ho, .flag _ hx₂, .openElse, nofun⟩
  have hread := hwritten _ List.mem_cons_self x .integer rfl
  refine hD.bindLast (hD.evalDeref (hb g₃ s₃)) fun p g₄ s₄ h₄ hp => ?_
  have hx₄ := hD.own_mono h₄ (hD.own_mono h₃ hx₂)
  refine hD.andThen (hD.emitAll ?_) fun _ g₅ s₅ h₅ _ => ?_
  · simp only [List.forall_mem_cons]
    exact ⟨.openIf hp, .flag _ hx₄, .close, .close, nofun⟩
  exact hD.push (hD.good_mono h₅ (hD.good_mono h₄ hread))

/-! ## Conditionals and loops -/

theorem branch (hD : D.Lawful) {thenBody elseBody : List Part}
    (hc : ∀ g s, D.Goes g s ls c.gen) (ht : ∀ g s, D.Goes g s ms (Gen.block thenBody))
    (he : ∀ g s, D.Goes g s ns (Gen.block elseBody))
    (hempty : elseBody = [] → ns = []) (g : G) (s : State) :
    D.Goes g s (ls ++ (ms ++ ns)) (lowerBranch c thenBody elseBody) := by
  have hclose : ∀ g s, D.Goes g s [] (Gen.emit .close) := fun g s =>
    weaken (hD.emitLine .close) fun _ _ _ _ => trivial
  refine hD.bind (hD.evalDeref (hc g s)) fun o g₁ s₁ _ ho => ?_
  refine hD.andThen (hD.emitLine (.openIf ho)) fun _ g₂ s₂ _ _ => ?_
  refine hD.bind (ht g₂ s₂) fun _ g₃ s₃ _ _ => ?_
  -- Without a second branch the block is closed at once.
  cases elseBody with
  | nil =>
    rw [hempty rfl]
    exact hclose g₃ s₃
  | cons p rest =>
    refine hD.andThen (hD.emitLine .openElse) fun _ g₄ s₄ _ _ => ?_
    exact hD.bindLast (he g₄ s₄) fun _ g₅ s₅ _ _ => hclose g₅ s₅

theorem conditional (hD : D.Lawful) (hc : ∀ g s, D.Goes g s ls c.gen)
    (ha : ∀ g s, D.Goes g s ms a.gen) (hb : ∀ g s, D.Goes g s ns b.gen) (g : G) (s : State) :
    D.Goes g s (ls ++ (ms ++ ns)) (lowerTernary c a b) := by
  refine hD.bind (hD.evalDeref (hc g s)) fun o g₁ s₁ _ ho => ?_
  refine hD.andThen hD.freshTemp fun x g₂ s₂ h₂ hx => ?_
  refine hD.andThen (hD.emitLine (.openIf (hD.good_mono h₂ ho))) fun _ g₃ s₃ h₃ _ => ?_
  refine hD.bind (hD.evalDeref (ha g₃ s₃)) fun v g₄ s₄ h₄ hv => ?_
  have hx₄ := hD.own_mono h₄ (hD.own_mono h₃ hx)
  refine hD.andThen (hD.emitLine (.value hx₄ hv)) fun _ g₅ s₅ h₅ _ => ?_
  refine hD.andThen (hD.emitLine .openElse) fun _ g₆ s₆ h₆ _ => ?_
  refine hD.bindLast (hD.evalDeref (hb g₆ s₆)) fun w g₇ s₇ h₇ hw => ?_
  have hx₇ := hD.own_mono h₇ (hD.own_mono h₆ (hD.own_mono h₅ hx₄))
  refine hD.andThen (hD.emitLine (.value hx₇ hw)) fun _ g₈ s₈ _ hwritten => ?_
  refine hD.andThen (hD.emitLine .close) fun _ g₉ s₉ h₉ _ => ?_
  exact hD.push (hD.good_mono h₉ (hwritten x _ rfl))

theorem loop (hD : D.Lawful) {body : List Part} (hc : ∀ g s, D.Goes g s ms c.gen)
    (hb : ∀ g s, D.Goes g s ns (Gen.block body)) (g : G) (s : State) :
    D.Goes g s (ms ++ ns) (lowerLoop c body) := by
  refine hD.andThen hD.freshLabel fun l g₁ s₁ _ _ => ?_
  refine hD.andThen (hD.emitLine (.label l)) fun _ g₂ s₂ _ _ => ?_
  refine hD.bind (hD.evalDeref (hc g₂ s₂)) fun o g₃ s₃ _ ho => ?_
  refine hD.andThen (hD.emitLine (.openIf ho)) fun _ g₄ s₄ _ _ => ?_
  refine hD.bindLast (hb g₄ s₄) fun _ g₅ s₅ _ _ => ?_
  refine hD.andThen (hD.emitLine (.goto l)) fun _ g₆ s₆ _ _ => ?_
  exact weaken (hD.emitLine .close) fun _ _ _ _ => trivial

/-! ## Functions, calls and returns -/

theorem function (hD : D.Lawful) (loc : Nat) (name : Option String) (params : List String)
    (nodes : List Node) {body : List Part} (hb : ∀ g s, D.Goes g s ns (Gen.block body)) (g : G)
    (s : State) :
    D.Goes g s (ns ++ [.function loc name params nodes]) (lowerFunction loc name params body) := by
  intro hs a u hrun
  obtain ⟨f, s', hname, hrun⟩ := bind_eq_ok_iff.1 hrun
  obtain ⟨g₁, hinv, hgood, hleave⟩ := hD.routine params nodes hs.toValid hname
  have hentered : D.Holds g₁ (s'.entering f params) := by
    obtain ⟨hscopes, -⟩ := Compilation.scoped_of_obeys
      (Compilation.sequential.functionName loc name) hs.scopes hname
    refine ⟨⟨hscopes.enter.declareSlots (Nat.le_refl 2) params, hinv⟩, fun o ho => hgood o ?_⟩
    have hstack : s'.stack = s.stack := by
      rcases functionName_eq_ok hname with ⟨-, -, rfl⟩ | ⟨k, -, -, rfl⟩ <;> rfl
    exact hs.stack o (hstack ▸ ho)
  rw [bind_of_ok (emitTo_apply _ _ _), bind_of_ok (emitAll_apply _ _)] at hrun
  obtain ⟨_, t', hinside, hrun⟩ := bind_eq_ok_iff.1 hrun
  unfold Gen.inScope at hinside
  split at hinside
  next t hbody =>
    cases hinside
    rw [bind_of_ok (declareParams_apply _ _ _)] at hbody
    obtain ⟨g₂, hdone, ht, -⟩ := hb _ _ hentered _ t hbody
    obtain ⟨g₃, hleft, hgood', hvalue⟩ := hleave ns g₂ t hdone
    have ht' : D.Holds g₃ { t with scopes := t.scopes.leave } :=
      ⟨⟨ht.scopes.leave, hD.inv_of_done hs.toValid hleft⟩, fun o ho => hgood' o (ht.stack o ho)⟩
    have hlast : ∀ g v, D.good g v (.text [.name f]) →
        D.Goes g v [] (Gen.emit (.label (.behind f)) >>= fun _ => Gen.push (.text [.name f])) :=
      fun g v hv =>
        hD.andThen (hD.emitLine (.label _)) fun _ _ w hvw _ => hD.push (hD.good_mono hvw hv)
    -- A body that does not end with a return gets one.
    have hend : D.Goes g₃ { t with scopes := t.scopes.leave } [] (do
        unless body.getLast?.any (·.node.isReturn) do Gen.emitAll [.returnZero, .leaveFunction]
        Gen.emit (.label (.behind f))
        Gen.push (.text [.name f])) := by
      split
      · exact hlast _ _ hvalue
      · refine hD.andThen (hD.emitAll ?_) fun _ g₄ v htv _ => hlast g₄ v (hD.good_mono htv hvalue)
        simp only [List.forall_mem_cons]
        exact ⟨.returnZero, .leaveFunction, nofun⟩
    obtain ⟨g₄, hrest, hu, -⟩ := hend ht' a u hrun
    have hboth := hD.trans hleft hrest
    rw [List.append_nil] at hboth
    exact ⟨g₄, hboth, hu, trivial⟩
  next => cases hinside

theorem call (hD : D.Lawful) {setup : Setup} (hstandard : setup.registry = .standard) (depth : Nat)
    (base : String) (l : Nat) {n : Node} {order : Node → List Node} {args : List Node}
    (hn : ∀ g s, D.Goes g s ms (node (setup.env depth base) n))
    (hargs : ∀ m ∈ args, ∀ g s, D.Goes g s (order m) (node (setup.env depth base) m)) (g : G)
    (s : State) :
    D.Goes g s (ms ++ (args.flatMap order ++ [.call l n args]))
      (lowerCall ⟨n, node (setup.env depth base) n⟩ (parts (setup.env depth base) args)) := by
  have hnode := (Compilation.lawful hstandard).node depth base
  intro hs a u hrun
  obtain ⟨f, s₁, os, s₂, values, s₃, hcallee, hoperands, hderef, rfl⟩ := lowerCall_eq_ok hrun
  obtain ⟨g₁, h₁, hs₁, hf⟩ := hD.evalDeref (hn g s) hs f s₁ hcallee
  obtain ⟨g₂, h₂, hs₂, hos⟩ := hD.evalAll hargs g₁ s₁ hs₁ os s₂ hoperands
  obtain ⟨g₃, h₃, hs₃, hvalues⟩ := hD.derefAll hos hs₂ values s₃ hderef
  obtain ⟨g₄, h₄, hs₄, hx⟩ := hD.freshTemp hs₃ _ _ (freshTemp_apply s₃)
  -- What the operands are is known from the nodes that have left them.
  obtain ⟨-, hext₂⟩ := Compilation.scoped_of_obeys
    (Compilation.sequential.evalAll fun m _ => hnode m) hs₁.scopes hoperands
  obtain ⟨-, hext₃⟩ := Compilation.scoped_of_obeys
    (Compilation.sequential.derefAll os) hs₂.scopes hderef
  have hext := hext₃.trans s₃.extends_freshTemp
  have hreadCallee := (evalDeref_isReadBy hstandard depth base hs.scopes hcallee).mono
    (Nat.zero_le _) (hext₂.trans hext)
  have hleft := evalAll_isLeftBy hstandard depth base hs₁.scopes hoperands
  have hread := derefAll_isValueOf (Nat.zero_le _) hs₂.scopes hderef
  have hreadArgs : List.Forall₂ (Operand.IsReadBy 0 s₃.freshTemp.2.shared) args values :=
    isReadBy_of_forall₂ (hleft.imp fun _ _ ho => ho.mono (Nat.zero_le _) hext)
      (hread.imp fun _ _ hv => hv.mono (Nat.le_refl _) s₃.extends_freshTemp)
  have hf₄ := hD.good_mono h₄ (hD.good_mono h₃ (hD.good_mono h₂ hf))
  obtain ⟨hcall, hkept⟩ := hD.called (l := l) hs₄.toValid hx hf₄ hreadCallee
    (fun v hv => hD.good_mono h₄ (hvalues v hv)) hreadArgs
  have hnext := hD.holds_of_done hs₄ hcall hs₄.scopes rfl
  obtain ⟨hpush, hu⟩ := hD.restack hnext (List.forall_mem_cons.2 ⟨hkept .text, hnext.stack⟩)
  have hall := hD.trans h₁ (hD.trans h₂ (hD.trans h₃ (hD.trans h₄ (hD.trans hcall hpush))))
  exact ⟨g₄, hall, hu, trivial⟩

theorem ret (hD : D.Lawful) (ha : ∀ g s, D.Goes g s ms a.gen) (g : G) (s : State) :
    D.Goes g s ms (lowerReturn a) := by
  refine hD.bindLast (hD.evalDeref (ha g s)) fun v g₁ s₁ _ hv =>
    weaken (hD.emitAll ?_) fun _ _ _ _ => trivial
  simp only [List.forall_mem_cons]
  exact ⟨.openReturn, .setResult hv, .close, .leaveFunction, nofun⟩

/-! ## Assignments, steps and places -/

/-- A target that is a name is not evaluated. -/
theorem assign (hD : D.Lawful) {setup : Setup} (hstandard : setup.registry = .standard) (depth : Nat)
    (base : String) (l : Nat) {target value : Node}
    (ht : ∀ g s, D.Goes g s ms (node (setup.env depth base) target))
    (hv : ∀ g s, D.Goes g s ns (node (setup.env depth base) value)) (g : G) (s : State) :
    D.Goes g s
      (ns ++ ((if target.construct = .identifier then [] else ms) ++ [.assign l target value]))
      (lowerAssign ⟨target, node (setup.env depth base) target⟩
        ⟨value, node (setup.env depth base) value⟩) := by
  intro hs a u hrun
  obtain ⟨v, s₁, place, s₂, hvalue, hplace, rfl⟩ := lowerAssign_eq_ok hrun
  obtain ⟨g₁, hdone₁, hs₁, hgood⟩ := hD.evalDeref (hv g s) hs v s₁ hvalue
  have hread := (evalDeref_isReadBy hstandard depth base hs.scopes hvalue).mono (Nat.zero_le _)
    (.refl _)
  have hstored : ∃ g₂, D.Holds g₂ (s₂.emitAll [assignLine place v]) ∧
      D.done ((if target.construct = .identifier then [] else ms) ++ [.assign l target value])
        g₁ s₁ g₂ (s₂.emitAll [assignLine place v]) := by
    rcases hplace with ⟨loc, k, hnode, hplace⟩ | ⟨loc, b, i, o, hnode, hplace, rfl⟩
    · obtain rfl : target = .identifier loc k := hnode
      obtain ⟨g₂, hdone⟩ := hD.assignName (l := l) hs₁.toValid hgood hread hplace
      obtain ⟨hscopes, -⟩ := Compilation.scoped_of_obeys
        (Compilation.sequential.nameTarget loc k v.valueType) hs₁.scopes hplace
      refine ⟨g₂, hD.holds_of_done hs₁ hdone hscopes ?_, hdone⟩
      rcases nameTarget_eq_ok hplace with ⟨-, -, -, rfl⟩ | ⟨w, x, -, -, -, rfl⟩
      · rfl
      · rfl
    · obtain rfl : target = .index loc b i := hnode
      obtain ⟨g₂, hdone, hs₂, ho⟩ := hD.eval (ht g₁ s₁) hs₁ o s₂ hplace
      have hleft := eval_isLeftBy hstandard depth base hs₁.scopes hplace
      obtain ⟨-, hext⟩ := Compilation.scoped_of_obeys (Compilation.sequential.eval
        ((Compilation.lawful hstandard).node depth base _)) hs₁.scopes hplace
      have hline : D.done [.assign l (.index loc b i) value] g₂ s₂ g₂ (s₂.emitAll _) :=
        hD.assignPlace hs₂.toValid (hD.good_mono hdone hgood) (hread.mono (Nat.zero_le _) hext) ho
          (hleft.mono (Nat.zero_le _) (.refl _))
      exact ⟨g₂, hD.holds_of_done hs₂ hline hs₂.scopes rfl, hD.trans hdone hline⟩
  obtain ⟨g₂, hstate, hdone₂⟩ := hstored
  have hgood₂ := hD.good_mono hdone₂ hgood
  obtain ⟨hpush, hu⟩ := hD.restack hstate (List.forall_mem_cons.2 ⟨hgood₂, hstate.stack⟩)
  have hall := hD.trans (hD.trans hdone₁ hdone₂) hpush
  rw [List.append_nil] at hall
  exact ⟨g₂, hall, hu, trivial⟩

theorem step (hD : D.Lawful) {setup : Setup} (hstandard : setup.registry = .standard) (depth : Nat)
    (base : String) (l : Nat) (op : StepOp) (leading : Bool) {target : Node}
    (ht : ∀ g s, D.Goes g s ns (node (setup.env depth base) target)) (g : G) (s : State) :
    D.Goes g s (ns ++ [.step l op leading target])
      (lowerStep op ⟨target, node (setup.env depth base) target⟩) := by
  intro hs a u hrun
  obtain ⟨o, s₁, place, current, s₂, heval, hplace, hderef, rfl⟩ := lowerStep_eq_ok hrun
  have htarget : o.target? = some place := by
    rcases hplace with ⟨text, rfl, rfl⟩ | ⟨v, y, rfl, hv, rfl⟩
    · rfl
    · simp [Operand.target?, Variable.target?, hv]
  obtain ⟨g₁, hdone₁, hs₁, ho⟩ := hD.eval (ht g s) hs o s₁ heval
  obtain ⟨g₂, hdone₂, hs₂, hcurrent⟩ := hD.deref ho hs₁ current s₂ hderef
  obtain ⟨g₃, hdone₃, hs₃, hx⟩ := hD.freshTemp hs₂ _ _ (freshTemp_apply s₂)
  obtain ⟨-, hext⟩ := Compilation.scoped_of_obeys (Compilation.sequential.deref o) hs₁.scopes hderef
  have hleft := (eval_isLeftBy hstandard depth base hs.scopes heval).mono (Nat.zero_le _)
    (hext.trans s₂.extends_freshTemp)
  have hvalue := (isValueOf_of_deref (Nat.zero_le _) hderef).mono (Nat.zero_le _)
    s₂.extends_freshTemp
  obtain ⟨hdone₄, hkept⟩ := hD.stepped l op leading hs₃.toValid hx
    (hD.good_mono hdone₃ (hD.good_mono hdone₂ ho)) (hD.good_mono hdone₃ hcurrent) hleft htarget
    hvalue
  have hs₄ := hD.holds_of_done hs₃ hdone₄ hs₃.scopes rfl
  obtain ⟨hpush, hu⟩ := hD.restack hs₄ (List.forall_mem_cons.2 ⟨hkept .integer, hs₄.stack⟩)
  rw [State.emitAll_emitAll]
  have hall := hD.trans hdone₁ (hD.trans hdone₂ (hD.trans hdone₃ (hD.trans hdone₄ hpush)))
  exact ⟨g₃, hall, hu, trivial⟩

theorem index (hD : D.Lawful) (ha : ∀ g s, D.Goes g s ms a.gen)
    (hb : ∀ g s, D.Goes g s ns b.gen) (g : G) (s : State) :
    D.Goes g s (ms ++ ns) (lowerIndex a b) := by
  refine hD.bind (hD.eval (ha g s)) fun o g₁ s₁ _ ho => ?_
  refine hD.bindLast (hD.evalDeref (hb g₁ s₁)) fun i g₂ s₂ h₂ hi => ?_
  refine hD.andThen (hD.deref (hD.good_mono h₂ ho)) fun o' g₃ s₃ h₃ ho' => ?_
  exact hD.push (hD.reference ho' (hD.good_mono h₃ hi))

/-! ## Names and programs -/

theorem identifier (hD : D.Lawful) (loc : Nat) (k : String) (g : G) (s : State) :
    D.Goes g s [.identifier loc k] (do Gen.push (.var (← Gen.resolve .standard loc k))) := by
  intro hs a u hrun
  obtain ⟨v, t, hresolve, hpush⟩ := bind_eq_ok_iff.1 hrun
  obtain ⟨g', hdone, hv⟩ := hD.read hs.toValid hresolve
  have ht : D.Holds g' t := by
    have hlawful : Compilation.contract.Lawful
        { registry := .standard, files := fun _ => .error .notFound, folding := true, limit := 0 } :=
      Compilation.lawful rfl
    obtain ⟨hscopes, -⟩ := Compilation.scoped_of_obeys (hlawful.resolve loc k) hs.scopes hresolve
    refine hD.holds_of_done hs hdone hscopes ?_
    rcases resolve_eq_ok hresolve with ⟨-, rfl⟩ | ⟨-, -, rfl⟩ | ⟨-, -, -, -, rfl⟩ <;> rfl
  obtain ⟨g'', hlast, hu, -⟩ := hD.push hv ht a u hpush
  exact ⟨g'', hD.trans hdone hlast, hu, trivial⟩

theorem program (hD : D.Lawful) {body : List Part} (h : ∀ g s, D.Goes g s ns (Gen.block body))
    (g : G) (s : State) : D.Goes g s ns (lowerProgram body) := by
  refine hD.andThen (hD.starts .echoOff) fun _ g₁ s₁ _ _ => ?_
  exact hD.andThen (hD.starts .deferExpansion) fun _ g₂ s₂ _ _ => h g₂ s₂

end Constructs

/-! ## Units -/

/-- Within one unit, a discipline that holds of its includes holds of all its nodes. -/
theorem unit (hD : D.Lawful) {setup : Setup} (hstandard : setup.registry = .standard) (depth : Nat)
    (base : String) {included : String → List Node}
    (hinclude : ∀ loc args g s, D.Goes g s (Node.ofArguments included args)
      (lowerInclude (setup.env depth base) loc args)) (n : Node) (g : G) (s : State) :
    D.Goes g s (n.evaluation included) (node (setup.env depth base) n) := by
  induction n using Node.induction generalizing g s with
  | program l body ih =>
    rw [Node.evaluation, Node.evaluationAll_eq_flatMap]
    exact hD.closing rfl (hD.program (hD.block ih) g s)
  | integer l v => exact hD.closing rfl (hD.push (hD.number g s v))
  | string l v => exact hD.closing rfl (hD.push (hD.chars g s _))
  | identifier l x =>
    show D.Goes g s _ (do Gen.push (.var (← Gen.resolve (setup.env depth base).registry l x)))
    rw [setup.registry_env, hstandard]
    exact hD.identifier l x g s
  | binary l op a b iha ihb => exact hD.closing rfl (hD.binary op iha ihb g s)
  | and l a b iha ihb => exact hD.closing rfl (hD.conjunction iha ihb g s)
  | or l a b iha ihb => exact hD.closing rfl (hD.disjunction iha ihb g s)
  | assign l t v iht ihv => exact hD.assign hstandard depth base l iht ihv g s
  | branch l c t e ihc iht ihe =>
    rw [Node.evaluation, Node.evaluationAll_eq_flatMap, Node.evaluationAll_eq_flatMap]
    refine hD.closing rfl (hD.branch ihc (hD.block iht) (hD.block ihe) ?_ g s)
    intro he
    cases e with
    | nil => rfl
    | cons n ns => cases he
  | ternary l c t e ihc iht ihe => exact hD.closing rfl (hD.conditional ihc iht ihe g s)
  | loop l c body ihc ih =>
    rw [Node.evaluation, Node.evaluationAll_eq_flatMap]
    exact hD.closing rfl (hD.loop ihc (hD.block ih) g s)
  | function l x ps body ih =>
    rw [Node.evaluation, Node.evaluationAll_eq_flatMap]
    exact hD.function l x ps body (hD.block ih) g s
  | call l f args ihf ih =>
    rw [Node.evaluation, Node.evaluationAll_eq_flatMap]
    show D.Goes g s (if isInclude f then _ else _) (if isInclude f then _ else _)
    split
    · exact hinclude l args g s
    · exact hD.call hstandard depth base l ihf ih g s
  | ret l v ihv => exact hD.closing rfl (hD.ret ihv g s)
  | step l op leading t iht => exact hD.step hstandard depth base l op leading iht g s
  | array l es ih =>
    rw [Node.evaluation, Node.evaluationAll_eq_flatMap]
    exact hD.closing rfl (hD.array ih g s)
  | index l b i ihb ihi => exact hD.closing rfl (hD.index ihb ihi g s)

/-- What an included unit goes through is gone through by the unit around it. -/
theorem includes (hD : D.Lawful) {setup : Setup} (hstandard : setup.registry = .standard)
    {depth : Nat} {base : String} {order : Node → List Node}
    (hnode : ∀ n g s, D.Goes g s (order n) (node (setup.env depth base) n)) {path : String}
    {unit : Contribution} (hs : D.Holds g s)
    (h : setup.includeUnit (setup.env depth base) path s.shared = .ok unit) :
    ∃ g', D.done (setup.unitNodes order path) g s g' (s.including unit) ∧
      D.Holds g' (s.including unit) := by
  obtain ⟨source, program, t, hsource, hread, hgen, rfl⟩ := Setup.includeUnit_eq_ok h
  obtain ⟨g₁, hbegin, hend⟩ := hD.included hs.toValid
  have hstart : D.Holds g₁ { shared := s.shared } := ⟨⟨hs.scopes.start, hbegin⟩, nofun⟩
  obtain ⟨g₂, hinside, -, -⟩ := hD.statement (hnode program g₁ _) hstart () t hgen
  obtain ⟨g₃, hadopt⟩ := hend _ g₂ t hinside
  have hobeys := Compilation.sequential.statement
    ((Compilation.lawful hstandard).node depth base program)
  obtain ⟨hscopes, hext⟩ := Compilation.scoped_of_obeys hobeys hstart.scopes hgen
  have ht : D.Holds g₃ (s.adopt t) :=
    hD.holds_of_done hs hadopt (State.WellScoped.adopt hs.scopes hscopes hext) rfl
  obtain ⟨hpush, hu⟩ := hD.restack ht (List.forall_mem_cons.2 ⟨hD.chars _ _ "include", ht.stack⟩)
  have hboth := hD.trans hadopt hpush
  rw [List.append_nil] at hboth
  have hnodes : setup.unitNodes order path = order program := by
    simp [Setup.unitNodes, hsource, hread]
  rw [hnodes]
  exact ⟨g₃, hboth, hu⟩

/-- A discipline that holds of what each construct does by itself holds of every run that succeeds, of
every node in every unit. -/
theorem node (hD : D.Lawful) {setup : Setup} (hstandard : setup.registry = .standard) (depth : Nat)
    (base : String) (n : Node) (g : G) (s : State) :
    D.Goes g s (setup.evaluation depth base n) (Gen.node (setup.env depth base) n) := by
  -- An include succeeds only with one literal path, and then the level below decides.
  have hwrong : ∀ (env : Env) (included : String → List Node) (loc : Nat) (args : List Node)
      (g : G) (s : State), (∀ l path, args ≠ [.string l path]) →
        D.Goes g s (Node.ofArguments included args) (lowerInclude env loc args) := by
    intro env included loc args g s hargs hs a t hrun
    obtain ⟨l, problem, herror⟩ := lowerInclude_wrong env loc hargs
    rw [herror] at hrun
    cases hrun
  induction depth generalizing base n g s with
  | zero =>
    refine hD.unit hstandard 0 base ?_ n g s
    intro loc args g s
    by_cases hargs : ∃ l path, args = [.string l path]
    · obtain ⟨l, path, rfl⟩ := hargs
      exact fail _ _
    · exact hwrong _ _ loc args g s fun l path h => hargs ⟨l, path, h⟩
  | succ depth ih =>
    refine hD.unit hstandard (depth + 1) base ?_ n g s
    intro loc args g s
    by_cases hargs : ∃ l path, args = [.string l path]
    · obtain ⟨l, path, rfl⟩ := hargs
      intro hs a t hrun
      rw [lowerInclude_path] at hrun
      dsimp only [Setup.env] at hrun
      cases hunit : setup.includeUnit
          (setup.env depth (Path.directory base (Path.join base path))) (Path.join base path)
          s.shared with
      | error e =>
        rw [hunit] at hrun
        cases hrun
      | ok unit =>
        rw [hunit] at hrun
        cases hrun
        obtain ⟨g', hdone, ht⟩ := hD.includes hstandard (ih _) hs hunit
        exact ⟨g', hdone, ht, trivial⟩
    · exact hwrong _ _ loc args g s fun l path h => hargs ⟨l, path, h⟩

/-- What holds of every run holds of whole programs. -/
theorem generate (hD : D.Lawful) (setup : Setup) (hstandard : setup.registry = .standard)
    {depth : Nat} {base source : String} {n : Node} (hs : D.Holds g s)
    (h : BatchCompiler.generate (setup.env depth base) source n s = .ok () t) :
    ∃ g', D.done (setup.evaluation depth base n) g s g' t ∧ D.Holds g' t := by
  obtain ⟨g', hdone, ht, -⟩ :=
    hD.statement (hD.node hstandard depth base n g s) hs () t (generate_eq_ok h)
  exact ⟨g', hdone, ht⟩

end Lawful

end Discipline

end BatchCompiler
