/-
# BatchCompiler.Proofs.Coupling -- two trees, two units and two compilations side by side

Generation is one walk over the tree. What a name stands for, what it is as a target, and what an
include does are the only things that the walk has from outside. `Gen.walk` takes these as
parameters, so two walks can differ in them. A `Coupling` says which nodes the two walks go through
side by side. Nodes that correspond are either copies of each other, with children that correspond,
or are dealt with by hand; then whatever is generated for them corresponds
(`Coupling.Lawful.parts`).

Includes start units of their own. Two units correspond if their programs do, whether or not the two
sides read the file in the same way (`Pairing.unit`).
-/

import BatchCompiler.Proofs.Isolation
import BatchCompiler.Proofs.Pairing

namespace BatchCompiler

/-! ## Walks -/

/-- What a walk has from outside. -/
structure Gen.Hooks where
  /-- What a name stands for. -/
  names : Nat → String → Gen Variable
  /-- What a name is as the target of a value of this type. -/
  targets : Nat → String → ValueType → Gen Target
  includes : Nat → List Node → Gen Unit

/-- What generation has from its surroundings. -/
def Env.hooks (env : Env) : Gen.Hooks where
  names := Gen.resolve env.registry
  targets := Gen.nameTarget
  includes := Gen.lowerInclude env

/-- Names as they are with the builtins of the language, and includes done in this way. -/
def Gen.Hooks.standard (includes : Nat → List Node → Gen Unit) : Gen.Hooks where
  names := Gen.resolve .standard
  targets := Gen.nameTarget
  includes := includes

theorem Env.hooks_eq_standard {env : Env} (h : env.registry = .standard) :
    env.hooks = .standard (Gen.lowerInclude env) := by
  unfold Env.hooks
  rw [h]
  rfl

namespace Gen

mutual

/-- Generates a node, with these steps from outside. -/
def walk (hooks : Hooks) : Node → Gen Unit
  | .program _ body => lowerProgram (walkAll hooks body)
  | .integer _ v => push (.integer v)
  | .string _ s => push (.text [.chars (escape s)])
  | .identifier loc name => do push (.var (← hooks.names loc name))
  | .binary _ op a b => lowerBinary op ⟨a, walk hooks a⟩ ⟨b, walk hooks b⟩
  | .and _ a b => lowerAnd ⟨a, walk hooks a⟩ ⟨b, walk hooks b⟩
  | .or _ a b => lowerOr ⟨a, walk hooks a⟩ ⟨b, walk hooks b⟩
  | .assign _ t v => assignVia hooks.targets ⟨t, walk hooks t⟩ ⟨v, walk hooks v⟩
  | .branch _ c t e => lowerBranch ⟨c, walk hooks c⟩ (walkAll hooks t) (walkAll hooks e)
  | .ternary _ c t e => lowerTernary ⟨c, walk hooks c⟩ ⟨t, walk hooks t⟩ ⟨e, walk hooks e⟩
  | .loop _ c body => lowerLoop ⟨c, walk hooks c⟩ (walkAll hooks body)
  | .function loc name params body => lowerFunction loc name params (walkAll hooks body)
  | .call loc f args =>
    if isInclude f then hooks.includes loc args
    else lowerCall ⟨f, walk hooks f⟩ (walkAll hooks args)
  | .ret _ v => lowerReturn ⟨v, walk hooks v⟩
  | .step _ op _ t => lowerStep op ⟨t, walk hooks t⟩
  | .array _ elements => lowerArray (walkAll hooks elements)
  | .index _ b i => lowerIndex ⟨b, walk hooks b⟩ ⟨i, walk hooks i⟩

/-- Nodes together with the steps that generate them. -/
def walkAll (hooks : Hooks) : List Node → List Part
  | [] => []
  | n :: ns => ⟨n, walk hooks n⟩ :: walkAll hooks ns

end

/-- Generation is a walk. -/
theorem node_eq_walk (env : Env) (n : Node) : node env n = walk env.hooks n := by
  have hall : ∀ ns : List Node, (∀ n ∈ ns, node env n = walk env.hooks n) →
      parts env ns = walkAll env.hooks ns := by
    intro ns h
    induction ns with
    | nil => rfl
    | cons n ns ih =>
      rw [parts, walkAll, h n List.mem_cons_self, ih fun m hm => h m (List.mem_cons_of_mem _ hm)]
  induction n using Node.induction with
  | program l body ih => rw [node, walk, hall body ih]
  | integer l v => rfl
  | string l v => rfl
  | identifier l x => rfl
  | binary l op a b iha ihb => rw [node, walk, iha, ihb]
  | and l a b iha ihb => rw [node, walk, iha, ihb]
  | or l a b iha ihb => rw [node, walk, iha, ihb]
  | assign l t v iht ihv =>
    rw [node, walk, iht, ihv]
    rfl
  | branch l c t e ihc iht ihe => rw [node, walk, ihc, hall t iht, hall e ihe]
  | ternary l c t e ihc iht ihe => rw [node, walk, ihc, iht, ihe]
  | loop l c body ihc ih => rw [node, walk, ihc, hall body ih]
  | function l x ps body ih => rw [node, walk, hall body ih]
  | call l f args ihf ih =>
    rw [node, walk, ihf, hall args ih]
    rfl
  | ret l v ih => rw [node, walk, ih]
  | step l op leading t ih => rw [node, walk, ih]
  | array l es ih => rw [node, walk, hall es ih]
  | index l b i ihb ihi => rw [node, walk, ihb, ihi]

end Gen

/-! ## Copies -/

/-- Nodes of one construct at corresponding places, whose children are related. -/
inductive Pairing.Copies (K : Pairing) (T : Node → Node → Prop) : Node → Node → Prop where
  | program {l l' : Nat} {body body' : List Node} : K.place l l' → List.Forall₂ T body body' →
    Copies K T (.program l body) (.program l' body')
  | integer {l l' : Nat} (v : Int) : K.place l l' → Copies K T (.integer l v) (.integer l' v)
  | string {l l' : Nat} (v : String) : K.place l l' → Copies K T (.string l v) (.string l' v)
  | identifier {l l' : Nat} (x : String) : K.place l l' →
    Copies K T (.identifier l x) (.identifier l' x)
  | binary {l l' : Nat} (op : BinaryOp) {a a' b b' : Node} : K.place l l' → T a a' → T b b' →
    Copies K T (.binary l op a b) (.binary l' op a' b')
  | and {l l' : Nat} {a a' b b' : Node} : K.place l l' → T a a' → T b b' →
    Copies K T (.and l a b) (.and l' a' b')
  | or {l l' : Nat} {a a' b b' : Node} : K.place l l' → T a a' → T b b' →
    Copies K T (.or l a b) (.or l' a' b')
  | assign {l l' : Nat} {t t' v v' : Node} : K.place l l' → T t t' → T v v' →
    Copies K T (.assign l t v) (.assign l' t' v')
  | branch {l l' : Nat} {c c' : Node} {t t' e e' : List Node} : K.place l l' → T c c' →
    List.Forall₂ T t t' → List.Forall₂ T e e' → Copies K T (.branch l c t e) (.branch l' c' t' e')
  | ternary {l l' : Nat} {c c' t t' e e' : Node} : K.place l l' → T c c' → T t t' → T e e' →
    Copies K T (.ternary l c t e) (.ternary l' c' t' e')
  | loop {l l' : Nat} {c c' : Node} {body body' : List Node} : K.place l l' → T c c' →
    List.Forall₂ T body body' → Copies K T (.loop l c body) (.loop l' c' body')
  | function {l l' : Nat} (name : Option String) (params : List String) {body body' : List Node} :
    K.place l l' → List.Forall₂ T body body' →
    Copies K T (.function l name params body) (.function l' name params body')
  | call {l l' : Nat} {f f' : Node} {args args' : List Node} : K.place l l' →
    Gen.isInclude f = false → T f f' → List.Forall₂ T args args' →
    Copies K T (.call l f args) (.call l' f' args')
  | ret {l l' : Nat} {v v' : Node} : K.place l l' → T v v' → Copies K T (.ret l v) (.ret l' v')
  | step {l l' : Nat} (op : StepOp) (leading : Bool) {t t' : Node} : K.place l l' → T t t' →
    Copies K T (.step l op leading t) (.step l' op leading t')
  | array {l l' : Nat} {es es' : List Node} : K.place l l' → List.Forall₂ T es es' →
    Copies K T (.array l es) (.array l' es')
  | index {l l' : Nat} {b b' i i' : Node} : K.place l l' → T b b' → T i i' →
    Copies K T (.index l b i) (.index l' b' i')

theorem Pairing.Copies.heads {K : Pairing} {T : Node → Node → Prop} {n n' : Node}
    (h : K.Copies T n n') (hK : K.Lawful) : K.Heads n n' := by
  cases h <;> exact ⟨‹_›, hK.construct _, rfl, rfl, rfl⟩

/-- A node that is not an include is copied by copying its children. -/
theorem Pairing.Copies.mapChildren {K : Pairing} {T : Node → Node → Prop} {f : Node → Node} {n : Node}
    (hplace : ∀ l, K.place l l) (hn : ∀ l callee args, n = .call l callee args →
      Gen.isInclude callee = false) (h : ∀ m ∈ n.children, T m (f m)) :
    K.Copies T n (n.mapChildren f) := by
  have hall : ∀ ns : List Node, (∀ m ∈ ns, m ∈ n.children) → List.Forall₂ T ns (ns.map f) := by
    intro ns hmem
    rw [List.forall₂_map_right_iff]
    exact List.forall₂_same.2 fun m hm => h m (hmem m hm)
  cases n with
  | program l body => exact .program (hplace l) (hall body fun _ => id)
  | integer l v => exact .integer v (hplace l)
  | string l v => exact .string v (hplace l)
  | identifier l x => exact .identifier x (hplace l)
  | binary l op a b => exact .binary op (hplace l) (h a (.head _)) (h b (.tail _ (.head _)))
  | and l a b => exact .and (hplace l) (h a (.head _)) (h b (.tail _ (.head _)))
  | or l a b => exact .or (hplace l) (h a (.head _)) (h b (.tail _ (.head _)))
  | assign l t v => exact .assign (hplace l) (h t (.head _)) (h v (.tail _ (.head _)))
  | branch l c t e =>
    refine .branch (hplace l) (h c (.head _)) (hall t fun m hm => ?_) (hall e fun m hm => ?_)
    · exact .tail _ (List.mem_append_left _ hm)
    · exact .tail _ (List.mem_append_right _ hm)
  | ternary l c t e =>
    exact .ternary (hplace l) (h c (.head _)) (h t (.tail _ (.head _)))
      (h e (.tail _ (.tail _ (.head _))))
  | loop l c body => exact .loop (hplace l) (h c (.head _)) (hall body fun _ => .tail _)
  | function l x ps body => exact .function x ps (hplace l) (hall body fun _ => id)
  | call l callee args =>
    exact .call (hplace l) (hn l callee args rfl) (h callee (.head _)) (hall args fun _ => .tail _)
  | ret l v => exact .ret (hplace l) (h v (.head _))
  | step l op leading t => exact .step op leading (hplace l) (h t (.head _))
  | array l es => exact .array (hplace l) (hall es fun _ => id)
  | index l b i => exact .index (hplace l) (h b (.head _)) (h i (.tail _ (.head _)))

/-- Whether a call is an include hangs on nothing but the name that its callee is. -/
theorem Gen.isInclude_eq (f : Node) : isInclude f = decide (f.name? = some "include") := by
  cases f <;> simp [isInclude, Node.name?]

/-! ## Trees side by side -/

/-- Two walks over trees whose nodes correspond. -/
structure Coupling (K : Pairing) where
  node : Node → Node → Prop
  /-- The operands for the node may differ in whether they can be written. -/
  loose : Node → Bool
  hooks : Gen.Hooks
  hooks' : Gen.Hooks

namespace Coupling

variable {K : Pairing}

/-- The node as a part of the first walk. -/
def left (C : Coupling K) (n : Node) : Part := ⟨n, Gen.walk C.hooks n⟩

/-- The node as a part of the second walk. -/
def right (C : Coupling K) (n : Node) : Part := ⟨n, Gen.walk C.hooks' n⟩

structure Lawful (C : Coupling K) : Prop where
  pairing : K.Lawful
  names {l l' : Nat} (x : String) : K.place l l' →
    K.Pairs K.Variables (C.hooks.names l x) (C.hooks'.names l' x)
  targets {l l' : Nat} (x : String) (ty : ValueType) : K.place l l' →
    K.Pairs K.Targets (C.hooks.targets l x ty) (C.hooks'.targets l' x ty)
  /-- Nodes that correspond are copies, or are dealt with by hand. -/
  cases {n n' : Node} : C.node n n' →
    K.Copies C.node n n' ∨ K.Parts (C.loose n) (C.left n) (C.right n')
  assign (l : Nat) (t v : Node) : C.loose (.assign l t v) = C.loose v
  /-- What is stepped is written. -/
  step {l : Nat} {op : StepOp} {leading : Bool} {t n' : Node} :
    C.node (.step l op leading t) n' → C.loose t = false

namespace Lawful

open Gen

variable {C : Coupling K}

/-- Nodes that correspond are generated alike. -/
theorem parts (hC : C.Lawful) {n n' : Node} (h : C.node n n') :
    K.Parts (C.loose n) (C.left n) (C.right n') := by
  have hK := hC.pairing
  induction n using Node.induction_children generalizing n' with
  | h n ih =>
    have hall : ∀ {ns ns' : List Node}, (∀ m ∈ ns, m ∈ n.children) → List.Forall₂ C.node ns ns' →
        K.AllParts (walkAll C.hooks ns) (walkAll C.hooks' ns') := by
      intro ns ns' hmem hns
      induction hns with
      | nil => exact .nil
      | cons hm _ ihns =>
        refine .cons ⟨_, ih _ (hmem _ List.mem_cons_self) hm⟩ (ihns fun m hm => ?_)
        exact hmem m (List.mem_cons_of_mem _ hm)
    obtain hcopy | hpart := hC.cases h
    · refine ⟨hcopy.heads hK, ?_⟩
      show K.Yields (C.loose n) (walk C.hooks n) (walk C.hooks' n')
      cases hcopy with
      | program hl hbody =>
        rw [walk, walk]
        exact .silent (hK.program (hall (fun _ => id) hbody))
      | integer v hl => exact hK.push (hK.operands (.integer v))
      | string v hl => exact hK.push (hK.operands (.text fun _ => rfl))
      | identifier x hl =>
        rw [walk, walk]
        exact .bind (hC.names x hl) fun v v' hv => hK.push (hK.operands (.var hv))
      | binary op hl ha hb =>
        rw [walk, walk]
        exact hK.binary op (ih _ (.head _) ha) (ih _ (.tail _ (.head _)) hb)
      | and hl ha hb =>
        rw [walk, walk]
        exact .silent (hK.conjunction (ih _ (.head _) ha) (ih _ (.tail _ (.head _)) hb))
      | or hl ha hb =>
        rw [walk, walk]
        exact hK.disjunction (ih _ (.head _) ha) (ih _ (.tail _ (.head _)) hb)
      | assign hl ht hv =>
        rw [walk, walk, hC.assign]
        exact hK.assign hC.targets (ih _ (.head _) ht) (ih _ (.tail _ (.head _)) hv)
      | branch hl hc ht he =>
        rw [walk, walk]
        refine .silent (hK.branch (ih _ (.head _) hc) (hall (fun m hm => ?_) ht)
          (hall (fun m hm => ?_) he))
        · exact .tail _ (List.mem_append_left _ hm)
        · exact .tail _ (List.mem_append_right _ hm)
      | ternary hl hc ht he =>
        rw [walk, walk]
        exact hK.conditional (ih _ (.head _) hc) (ih _ (.tail _ (.head _)) ht)
          (ih _ (.tail _ (.tail _ (.head _))) he)
      | loop hl hc hbody =>
        rw [walk, walk]
        exact .silent (hK.loop (ih _ (.head _) hc) (hall (fun _ => .tail _) hbody))
      | function name params hl hbody =>
        rw [walk, walk]
        exact hK.function hl name params (hall (fun _ => id) hbody)
      | @call _ _ f f' _ _ hl hf hcallee hargs =>
        have hpart := ih _ (.head _) hcallee
        have hname : f.name? = f'.name? := hpart.heads.name?
        have hf' : isInclude f' = false := by rw [← hf, isInclude_eq, isInclude_eq, hname]
        rw [walk, walk, if_neg (Bool.eq_false_iff.1 hf), if_neg (Bool.eq_false_iff.1 hf')]
        exact hK.call hpart (hall (fun _ => .tail _) hargs)
      | ret hl hv =>
        rw [walk, walk]
        exact .silent (hK.ret (ih _ (.head _) hv))
      | step op leading hl ht =>
        have htarget := ih _ (.head _) ht
        rw [hC.step h] at htarget
        rw [walk, walk]
        exact hK.step op htarget
      | array hl hes =>
        rw [walk, walk]
        exact hK.array (hall (fun _ => id) hes)
      | index hl hb hi =>
        rw [walk, walk]
        exact hK.index (ih _ (.head _) hb) (ih _ (.tail _ (.head _)) hi)
    · exact hpart

end Lawful

/-- Two walks over the same tree. -/
def same (K : Pairing) (hooks hooks' : Gen.Hooks) : Coupling K where
  node := Eq
  loose _ := false
  hooks := hooks
  hooks' := hooks'

/-- Two walks over the same tree correspond if what they have from outside does. -/
theorem same_lawful (hK : K.Lawful) (hplace : ∀ l, K.place l l) {hooks hooks' : Gen.Hooks}
    (hnames : ∀ {l l' : Nat} (x : String), K.place l l' →
      K.Pairs K.Variables (hooks.names l x) (hooks'.names l' x))
    (htargets : ∀ {l l' : Nat} (x : String) (ty : ValueType), K.place l l' →
      K.Pairs K.Targets (hooks.targets l x ty) (hooks'.targets l' x ty))
    (hincludes : ∀ l args, K.Yields false (hooks.includes l args) (hooks'.includes l args)) :
    (same K hooks hooks').Lawful where
  pairing := hK
  names := hnames
  targets := htargets
  cases {n n'} h := by
    obtain rfl : n = n' := h
    by_cases hcall : ∃ l f args, n = .call l f args ∧ Gen.isInclude f = true
    · obtain ⟨l, f, args, rfl, hf⟩ := hcall
      refine .inr ⟨⟨hplace l, hK.construct _, rfl, rfl, rfl⟩, ?_⟩
      show K.Yields false (Gen.walk hooks _) (Gen.walk hooks' _)
      rw [Gen.walk, Gen.walk, if_pos hf, if_pos hf]
      exact hincludes l args
    · have hcopy : K.Copies Eq n (n.mapChildren id) := by
        refine .mapChildren hplace (fun l f args hn => ?_) fun _ _ => rfl
        exact Bool.eq_false_iff.2 fun hf => hcall ⟨l, f, args, hn, hf⟩
      rw [Node.mapChildren_id] at hcopy
      exact .inl hcopy
  assign _ _ _ := rfl
  step _ := rfl

end Coupling

/-! ## Includes side by side -/

namespace Gen

/-- The path that an include with these arguments names, if they are as they should be. -/
def includePath? : List Node → Option String
  | [.string _ path] => some path
  | _ => none

/-- What is wrong with the arguments of an include that names no path, and where. -/
def includeProblem (loc : Nat) : List Node → Nat × IncludeProblem
  | [arg] => (arg.loc, .notALiteral)
  | args => (loc, .argumentCount args.length)

theorem lowerInclude_of_none {args : List Node} (h : includePath? args = none) (env : Env)
    (loc : Nat) :
    lowerInclude env loc args =
      fail (includeProblem loc args).1 (.includeArgument (includeProblem loc args).2) := by
  unfold lowerInclude
  split
  next => cases h
  next => rfl
  next hmany => rw [includeProblem.eq_2 _ _ hmany]

theorem includePath?_eq_some {args : List Node} {path : String} (h : includePath? args = some path) :
    ∃ l, args = [.string l path] := by
  unfold includePath? at h
  split at h
  next l _ =>
    cases h
    exact ⟨l, rfl⟩
  next => cases h

end Gen

/-- Includes that name no path are refused alike. -/
theorem Pairing.Lawful.refuseInclude {K : Pairing} (hK : K.Lawful) {L : Operand → Operand → Prop}
    {Q : Unit → Unit → Prop} {l l' : Nat} (hl : K.place l l') {args args' : List Node}
    (hargs : List.Forall₂ (fun a a' => K.place a.loc a'.loc) args args')
    (h : Gen.includePath? args = none) (h' : Gen.includePath? args' = none) (env env' : Env) :
    K.Runs L Q (Gen.lowerInclude env l args) (Gen.lowerInclude env' l' args') := by
  rw [Gen.lowerInclude_of_none h, Gen.lowerInclude_of_none h']
  have hproblem : K.place (Gen.includeProblem l args).1 (Gen.includeProblem l' args').1 ∧
      (Gen.includeProblem l args).2 = (Gen.includeProblem l' args').2 := by
    cases hargs with
    | nil => exact ⟨hl, rfl⟩
    | cons harg hrest =>
      cases hrest with
      | nil => exact ⟨harg, rfl⟩
      | cons _ htail => exact ⟨hl, by simp [Gen.includeProblem, htail.length_eq]⟩
  rw [hproblem.2]
  exact hK.failAt _ hproblem.1

/-- Generates the file at a path as a unit of its own, in this way. -/
def Setup.unit (setup : Setup) (gen : Node → Gen Unit) (path : String) (shared : Shared) :
    Except CompileError Contribution :=
  match setup.files path with
  | .error io => .error (.includeUnreadable path io)
  | .ok source =>
    match readUnit setup.folding source with
    | .error e => .error (.inInclude path e)
    | .ok program =>
      match Gen.statement (gen program) { shared } with
      | .error fault _ => .error (.inInclude path (fault.error source))
      | .ok _ t => .ok t.contribution

theorem Setup.includeUnit_eq_unit (setup : Setup) (env : Env) (path : String) (shared : Shared) :
    setup.includeUnit env path shared = setup.unit (Gen.node env) path shared := by
  unfold Setup.includeUnit Setup.unit Setup.contribution generate
  cases setup.files path with
  | error io => rfl
  | ok source =>
    dsimp only
    cases readUnit setup.folding source with
    | error e => rfl
    | ok program =>
      simp only [bind, Except.bind]
      cases Gen.statement (Gen.node env program) { shared } <;> rfl

/-- A compilation reads its source, generates the program and puts the script together. -/
theorem compileSource_eq (files : String → Except IoError String) (options : Options)
    (source : String) :
    compileSource files options source =
      match readUnit options.folding source with
      | .error e => .error e
      | .ok program =>
        match Gen.statement (Gen.node (options.env .standard files) program) {} with
        | .error fault _ => .error (fault.error source)
        | .ok _ t => .ok t.script := by
  unfold compileSource generate
  cases readUnit options.folding source with
  | error e => rfl
  | ok program =>
    simp only [bind, Except.bind]
    cases Gen.statement (Gen.node (options.env .standard files) program) {} <;> rfl

theorem Setup.base_env (setup : Setup) (depth : Nat) (base : String) :
    (setup.env depth base).base = base := by
  cases depth <;> rfl

namespace Pairing

/-- What units fail with corresponds in the unit around them. -/
structure Wraps (K inner : Pairing) : Prop where
  raised (e : CompileError) : K.fault (.raised e) (.raised e)
  fault {f f' : Fault} (path source : String) : inner.fault f f' →
    K.fault (.raised (.inInclude path (f.error source)))
      (.raised (.inInclude path (f'.error source)))
  excused {f : Fault} (path source : String) : inner.excused f →
    K.excused (.raised (.inInclude path (f.error source)))

/-- Both sides read the source in vain and for the same reason, or read programs that are generated
alike. -/
def Reads (K : Pairing) (setup setup' : Setup) (gen gen' : Node → Gen Unit) (source : String) :
    Prop :=
  (∃ e, readUnit setup.folding source = .error e ∧ readUnit setup'.folding source = .error e) ∨
  ∃ program program', readUnit setup.folding source = .ok program ∧
    readUnit setup'.folding source = .ok program' ∧
    K.Does (Gen.statement (gen program)) (Gen.statement (gen' program'))

/-- What an include makes of the unit that it has compiled. -/
def included (unit : Except CompileError Contribution) (s : State) :
    EStateM.Result Fault State Unit :=
  match unit with
  | .error e => .error (.raised e) s
  | .ok unit => .ok () (s.including unit)

/-- Includes of units that correspond correspond. -/
theorem unit {K inner : Pairing} (hK : K.Lawful) (hwraps : K.Wraps inner) (setup setup' : Setup)
    (hfiles : setup'.files = setup.files) {gen gen' : Node → Gen Unit} {path : String}
    (hreads : ∀ source, setup.files path = .ok source → inner.Reads setup setup' gen gen' source)
    {s s' : State} {loose : Bool}
    (hstart : inner.state { shared := s.shared } { shared := s'.shared })
    (hfinish : ∀ t t', inner.state t t' →
      K.state (s.including t.contribution) (s'.including t'.contribution)) :
    K.Ends (Pushed (K.Operands loose) (fun _ _ => True) s s')
      (included (setup.unit gen path s.shared) s)
      (included (setup'.unit gen' path s'.shared) s') := by
  unfold Setup.unit
  rw [hfiles]
  cases hsource : setup.files path with
  | error io => exact .error (hwraps.raised _)
  | ok source =>
    dsimp only
    obtain ⟨e, hread, hread'⟩ | ⟨program, program', hread, hread', hrun⟩ := hreads source hsource
    · rw [hread, hread']
      exact .error (hwraps.raised _)
    · rw [hread, hread']
      dsimp only
      have hends := hrun _ _ hstart
      generalize Gen.statement (gen program) { shared := s.shared } = r at hends
      generalize Gen.statement (gen' program') { shared := s'.shared } = r' at hends
      cases hends with
      | ok ht _ =>
        refine .ok (hfinish _ _ ht) ⟨trivial, [_], [_], .cons (hK.operands ?_) .nil, rfl, rfl⟩
        exact .text fun _ => rfl
      | error hfault => exact .error (hwraps.fault path source hfault)
      | excused hexcused => exact .excused (hwraps.excused path source hexcused)

/-- Includes in surroundings that allow no further level. -/
theorem Lawful.includesTooDeep {K : Pairing} (hK : K.Lawful) {env env' : Env}
    (henv : env.includeUnit? = none) (henv' : env'.includeUnit? = none)
    (hlimit : env.limit = env'.limit) {loose : Bool} {args args' : List Node} {l l' : Nat}
    (hl : K.place l l') (hargs : List.Forall₂ (fun a a' => K.place a.loc a'.loc) args args')
    (hpath : Gen.includePath? args' = Gen.includePath? args) :
    K.Yields loose (Gen.lowerInclude env l args) (Gen.lowerInclude env' l' args') := by
  cases h : Gen.includePath? args with
  | none => exact hK.refuseInclude hl hargs h (hpath.trans h) env env'
  | some path =>
    obtain ⟨k, rfl⟩ := Gen.includePath?_eq_some h
    obtain ⟨k', rfl⟩ := Gen.includePath?_eq_some (hpath.trans h)
    intro s s' hs
    rw [Gen.lowerInclude_path, Gen.lowerInclude_path, henv, henv', hlimit]
    exact .error (hK.here _ hl)

/-- Includes in surroundings that give units which correspond. -/
theorem Lawful.includes {K : Pairing} (hK : K.Lawful) {env env' : Env} {base : String}
    (hbase : env.base = base) (hbase' : env'.base = base)
    {units units' : String → Shared → Except CompileError Contribution}
    (henv : env.includeUnit? = some units) (henv' : env'.includeUnit? = some units')
    {loose : Bool} {args args' : List Node}
    (hunits : ∀ path, Gen.includePath? args = some path → ∀ s s', K.state s s' →
      K.Ends (Pushed (K.Operands loose) (fun _ _ => True) s s')
        (included (units (Path.join base path) s.shared) s)
        (included (units' (Path.join base path) s'.shared) s'))
    {l l' : Nat} (hl : K.place l l')
    (hargs : List.Forall₂ (fun a a' => K.place a.loc a'.loc) args args')
    (hpath : Gen.includePath? args' = Gen.includePath? args) :
    K.Yields loose (Gen.lowerInclude env l args) (Gen.lowerInclude env' l' args') := by
  cases h : Gen.includePath? args with
  | none => exact hK.refuseInclude hl hargs h (hpath.trans h) env env'
  | some path =>
    obtain ⟨k, rfl⟩ := Gen.includePath?_eq_some h
    obtain ⟨k', rfl⟩ := Gen.includePath?_eq_some (hpath.trans h)
    intro s s' hs
    rw [Gen.lowerInclude_path, Gen.lowerInclude_path, henv, henv', hbase,
      hbase']
    exact hunits path h s s' hs

/-! ## Names side by side -/

theorem Variables.refl {K : Pairing} (hK : ∀ x, K.name x x) (v : Variable) : K.Variables v v := by
  obtain ⟨storage, ty⟩ := v
  cases storage with
  | named x => exact ⟨.named (hK x), rfl⟩
  | slot index => exact ⟨.slot index, rfl⟩

/-- The same variable, or none, is found on both sides. -/
theorem found_of_eq {K : Pairing} (hK : ∀ x, K.name x x) {found found' : Option Variable}
    (h : found = found') : Option.Rel K.Variables found found' := by
  subst h
  cases found with
  | none => exact .none
  | some v => exact .some (.refl hK v)

/-- Builtins of the language are set up and bound alike on both sides. -/
structure Resolves (K : Pairing) : Prop where
  emitted {s s' : State} (x : String) : K.state s s' →
    Option.Rel K.Variables (s.shared.emitted.get? x) (s'.shared.emitted.get? x)
  declare {s s' : State} {x : String} {v v' : Variable} : K.state s s' →
    s.shared.emitted.get? x = some v → s'.shared.emitted.get? x = some v' → K.Variables v v' →
      K.state (s.declare x v) (s'.declare x v')
  process {s s' : State} : K.state s s' → s.shared.emitted.get? "process" = none →
    s'.shared.emitted.get? "process" = none → K.state s.withProcess s'.withProcess

theorem Lawful.resolve {K : Pairing} (hK : K.Lawful) (hnames : K.Resolves) {l l' : Nat}
    (hl : K.place l l') (x : String) :
    K.Pairs K.Variables (Gen.resolve .standard l x) (Gen.resolve .standard l' x) := by
  intro s s' hs
  have hlookup := hK.state_lookup x hs
  have hemitted := hnames.emitted x hs
  generalize hfound : s.scopes.lookup x = found at hlookup
  generalize hfound' : s'.scopes.lookup x = found' at hlookup
  generalize hset : s.shared.emitted.get? x = set at hemitted
  generalize hset' : s'.shared.emitted.get? x = set' at hemitted
  cases hlookup with
  | some hv =>
    rw [Gen.resolve_of_lookup hfound, Gen.resolve_of_lookup hfound']
    exact .ok hs ⟨hv, [], [], .nil, rfl, rfl⟩
  | none =>
    cases hemitted with
    | some hv =>
      rw [Gen.resolve_of_emitted hfound hset, Gen.resolve_of_emitted hfound' hset']
      exact .ok (hnames.declare hs hset hset' hv) ⟨hv, [], [], .nil, rfl, rfl⟩
    | none =>
      rw [Gen.resolve_of_new hfound hset, Gen.resolve_of_new hfound' hset']
      split
      next hx =>
        subst hx
        have hv : K.Variables (.named s.freshTemp.1 .text) (.named s'.freshTemp.1 .text) :=
          ⟨.named (hK.state_freshTemp hs).1, rfl⟩
        refine .ok ?_ ⟨hv, [], [], .nil, rfl, rfl⟩
        exact hnames.declare (hnames.process hs hset hset') s.withProcess_emitted
          s'.withProcess_emitted hv
      next => exact .error (hK.here _ hl)

/-! ## Runs that write the same -/

/-- States that differ in their operands at most. -/
def SameButStack (s s' : State) : Prop := s.cleared = s'.cleared

theorem SameButStack.congr {α : Type} {s s' : State} (h : SameButStack s s') (f : State → α)
    (hf : ∀ s, f s.cleared = f s) : f s = f s' := by
  have hcleared : s.cleared = s'.cleared := h
  rw [← hf s, hcleared, hf s']

/-- Two runs that are the same but for where things stand and what they fail with. -/
def identical (place : Nat → Nat → Prop) (fault : Fault → Fault → Prop) (excused : Fault → Prop) :
    Pairing where
  sameLines := True
  place := place
  construct := Eq
  name := Eq
  state := SameButStack
  fault := fault
  excused := excused

variable {place : Nat → Nat → Prop} {fault : Fault → Fault → Prop} {excused : Fault → Prop}

theorem identical_lawful
    (here : ∀ l l' cause, place l l' → fault (.here l cause) (.here l' cause)) :
    (identical place fault excused).Lawful where
  name_eq _ h := h
  user _ := rfl
  construct _ := rfl
  here cause h := here _ _ cause h
  notAssignable hl hc := hc ▸ here _ _ _ hl
  noValue hl hc := hc ▸ here _ _ _ hl
  state_stack _ _ h := h
  state_lookup x h := found_of_eq (fun _ => rfl) (h.congr (·.scopes.lookup x) fun _ => rfl)
  state_emit hsegment hline h := by
    rw [hline trivial]
    exact h.congr (·.emitTo _ _ |>.cleared) fun _ => rfl
  state_handleUser _ h := h.congr (·.emitTo _ _ |>.cleared) fun _ => rfl
  state_handleTemp h :=
    h.congr (fun s => (s.freshTemp.2.emitTo .decl (.handle s.freshTemp.1)).cleared) fun _ => rfl
  state_freshTemp h :=
    ⟨h.congr (·.freshTemp.1) fun _ => rfl, h.congr (·.freshTemp.2.cleared) fun _ => rfl⟩
  state_freshLabel h :=
    ⟨fun _ => h.congr (·.freshLabel.1) fun _ => rfl, h.congr (·.freshLabel.2.cleared) fun _ => rfl⟩
  state_declareUser ty _ h := h.congr (·.declare _ _ |>.cleared) fun _ => rfl
  state_declareSlot x _ h := h.congr (·.declare _ _ |>.cleared) fun _ => rfl
  state_enter h :=
    h.congr (fun s => State.cleared { s with scopes := s.scopes.enter }) fun _ => rfl
  state_leave h :=
    h.congr (fun s => State.cleared { s with scopes := s.scopes.leave }) fun _ => rfl

theorem identical_resolves : (identical place fault excused).Resolves where
  emitted x h := found_of_eq (fun _ => rfl) (h.congr (·.shared.emitted.get? x) fun _ => rfl)
  declare {s s' x v v'} h hset hset' _ := by
    have hv : s.shared.emitted.get? x = s'.shared.emitted.get? x :=
      h.congr (·.shared.emitted.get? x) fun _ => rfl
    obtain rfl : v = v' := Option.some.inj (hset.symm.trans (hv.trans hset'))
    exact h.congr (·.declare _ _ |>.cleared) fun _ => rfl
  process h _ _ := h.congr (·.withProcess.cleared) fun _ => rfl

end Pairing

end BatchCompiler
