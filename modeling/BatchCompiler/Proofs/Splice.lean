/-
# BatchCompiler.Proofs.Splice -- all the nodes of a compilation

A compilation generates the nodes of its source and, at every include, those of another file. The
nodes of all the units together are a list that is given by the files alone: `Setup.nodes` follows
the recursion of `Setup.env` over the levels of includes that are still allowed, and within a unit
the recursion of the generator over the tree.
-/

import BatchCompiler.Compile

namespace BatchCompiler

namespace Node

/-! ## Induction over trees -/

/-- Induction over a tree, with one hypothesis for each member of a list of children. -/
theorem induction {motive : Node → Prop}
    (program : ∀ l body, (∀ n ∈ body, motive n) → motive (.program l body))
    (integer : ∀ l v, motive (.integer l v))
    (string : ∀ l v, motive (.string l v))
    (identifier : ∀ l x, motive (.identifier l x))
    (binary : ∀ l op a b, motive a → motive b → motive (.binary l op a b))
    (and : ∀ l a b, motive a → motive b → motive (.and l a b))
    (or : ∀ l a b, motive a → motive b → motive (.or l a b))
    (assign : ∀ l t v, motive t → motive v → motive (.assign l t v))
    (branch : ∀ l c t e, motive c → (∀ n ∈ t, motive n) → (∀ n ∈ e, motive n) →
      motive (.branch l c t e))
    (ternary : ∀ l c t e, motive c → motive t → motive e → motive (.ternary l c t e))
    (loop : ∀ l c body, motive c → (∀ n ∈ body, motive n) → motive (.loop l c body))
    (function : ∀ l x ps body, (∀ n ∈ body, motive n) → motive (.function l x ps body))
    (call : ∀ l f args, motive f → (∀ n ∈ args, motive n) → motive (.call l f args))
    (ret : ∀ l v, motive v → motive (.ret l v))
    (step : ∀ l op leading t, motive t → motive (.step l op leading t))
    (array : ∀ l es, (∀ n ∈ es, motive n) → motive (.array l es))
    (index : ∀ l b i, motive b → motive i → motive (.index l b i)) (n : Node) : motive n :=
  @Node.rec motive (fun ns => ∀ n ∈ ns, motive n) program integer string identifier binary and or
    assign branch ternary loop function call ret step array index
    (fun _ h => absurd h List.not_mem_nil)
    (fun _ _ hn hns _ h => (List.mem_cons.1 h).elim (fun he => he ▸ hn) (hns _)) n

/-! ## Children -/

/-- The direct children of a node. -/
def children : Node → List Node
  | .program _ body => body
  | .integer .. | .string .. | .identifier .. => []
  | .binary _ _ a b | .and _ a b | .or _ a b | .assign _ a b | .index _ a b => [a, b]
  | .branch _ c t e => c :: (t ++ e)
  | .ternary _ c t e => [c, t, e]
  | .loop _ c body => c :: body
  | .function _ _ _ body => body
  | .call _ f args => f :: args
  | .ret _ v => [v]
  | .step _ _ _ t => [t]
  | .array _ es => es

theorem children_mapChildren (f : Node → Node) (n : Node) :
    (n.mapChildren f).children = n.children.map f := by
  cases n <;> simp [mapChildren, children]

/-- What becomes of a node depends on what becomes of its children. -/
theorem mapChildren_congr {f g : Node → Node} {n : Node} (h : ∀ m ∈ n.children, f m = g m) :
    n.mapChildren f = n.mapChildren g := by
  cases n <;> simp_all [mapChildren, children]

theorem mapChildren_id (n : Node) : n.mapChildren id = n := by
  cases n <;> simp [mapChildren]

/-- Induction over a tree, with one hypothesis for all the children. -/
theorem induction_children {motive : Node → Prop}
    (h : ∀ n, (∀ m ∈ n.children, motive m) → motive n) (n : Node) : motive n := by
  have hpair : ∀ {a b : Node}, motive a → motive b → ∀ m ∈ [a, b], motive m := by
    intro a b ha hb
    exact List.forall_mem_cons.2 ⟨ha, List.forall_mem_singleton.2 hb⟩
  induction n using Node.induction with
  | program l body ih => exact h _ ih
  | integer l v => exact h _ nofun
  | string l v => exact h _ nofun
  | identifier l x => exact h _ nofun
  | binary l op a b iha ihb => exact h _ (hpair iha ihb)
  | and l a b iha ihb => exact h _ (hpair iha ihb)
  | or l a b iha ihb => exact h _ (hpair iha ihb)
  | assign l t v iht ihv => exact h _ (hpair iht ihv)
  | branch l c t e ihc iht ihe =>
    exact h _ (List.forall_mem_cons.2 ⟨ihc, List.forall_mem_append.2 ⟨iht, ihe⟩⟩)
  | ternary l c t e ihc iht ihe => exact h _ (List.forall_mem_cons.2 ⟨ihc, hpair iht ihe⟩)
  | loop l c body ihc ih => exact h _ (List.forall_mem_cons.2 ⟨ihc, ih⟩)
  | function l x ps body ih => exact h _ ih
  | call l f args ihf ih => exact h _ (List.forall_mem_cons.2 ⟨ihf, ih⟩)
  | ret l v ih => exact h _ (List.forall_mem_singleton.2 ih)
  | step l op leading t ih => exact h _ (List.forall_mem_singleton.2 ih)
  | array l es ih => exact h _ ih
  | index l b i ihb ihi => exact h _ (hpair ihb ihi)

/-! ## Nodes of a unit -/

/-- The nodes that an include with these arguments stands for. -/
def ofArguments (included : String → List Node) : List Node → List Node
  | [string _ path] => included path
  | _ => []

mutual

/-- The node and the nodes below it. An include has below it the nodes that are included. -/
def spliced (included : String → List Node) : Node → List Node
  | program l body => program l body :: splicedAll included body
  | integer l v => [integer l v]
  | string l v => [string l v]
  | identifier l x => [identifier l x]
  | binary l op a b => binary l op a b :: (spliced included a ++ spliced included b)
  | and l a b => and l a b :: (spliced included a ++ spliced included b)
  | or l a b => or l a b :: (spliced included a ++ spliced included b)
  | assign l t v => assign l t v :: (spliced included t ++ spliced included v)
  | branch l c t e =>
    branch l c t e :: (spliced included c ++ splicedAll included t ++ splicedAll included e)
  | ternary l c t e =>
    ternary l c t e :: (spliced included c ++ spliced included t ++ spliced included e)
  | loop l c body => loop l c body :: (spliced included c ++ splicedAll included body)
  | function l x ps body => function l x ps body :: splicedAll included body
  | call l f args =>
    call l f args ::
      if Gen.isInclude f then ofArguments included args
      else spliced included f ++ splicedAll included args
  | ret l v => ret l v :: spliced included v
  | step l op leading t => step l op leading t :: spliced included t
  | array l es => array l es :: splicedAll included es
  | index l b i => index l b i :: (spliced included b ++ spliced included i)

/-- The nodes of a list and the nodes below them. -/
def splicedAll (included : String → List Node) : List Node → List Node
  | [] => []
  | n :: ns => spliced included n ++ splicedAll included ns

end

theorem splicedAll_eq_flatMap (included : String → List Node) (ns : List Node) :
    splicedAll included ns = ns.flatMap (spliced included) := by
  induction ns with
  | nil => rfl
  | cons n ns ih => simp [splicedAll, ih]

/-- Below a node that is not an include are the nodes below its children. -/
theorem spliced_eq_cons {n : Node}
    (h : ∀ l f args, n = .call l f args → Gen.isInclude f = false) (included : String → List Node) :
    n.spliced included = n :: n.children.flatMap (spliced included) := by
  cases n with
  | call l f args =>
    rw [spliced, if_neg (Bool.eq_false_iff.1 (h l f args rfl)), splicedAll_eq_flatMap]
    rfl
  | _ => simp [spliced, children, splicedAll_eq_flatMap]

theorem mem_spliced_self (included : String → List Node) (n : Node) : n ∈ n.spliced included := by
  cases n <;> simp [spliced]

theorem mem_spliced_of_child {n m x : Node} {included : String → List Node}
    (h : ∀ l f args, n = .call l f args → Gen.isInclude f = false) (hm : m ∈ n.children)
    (hx : x ∈ m.spliced included) : x ∈ n.spliced included := by
  rw [spliced_eq_cons h]
  exact .tail _ (List.mem_flatMap.2 ⟨m, hm, hx⟩)

end Node

/-! ## Nodes of a compilation -/

/-- The nodes of the unit at a path, if `nodes` gives those of its program. A file that cannot be
read or does not spell a program has none. -/
def Setup.unitNodes (setup : Setup) (nodes : Node → List Node) (path : String) : List Node :=
  match setup.files path with
  | .error _ => []
  | .ok source =>
    match readUnit setup.folding source with
    | .error _ => []
    | .ok program => nodes program

/-- The node and the nodes below it in all the units, in the surroundings that `Setup.env` gives. -/
def Setup.nodes (setup : Setup) : Nat → String → Node → List Node
  | 0, _ => Node.spliced fun _ => []
  | depth + 1, base => Node.spliced fun path =>
    setup.unitNodes (setup.nodes depth (Path.directory base (Path.join base path)))
      (Path.join base path)

/-- Below an include of a file that spells a program are the nodes of that program. -/
theorem Setup.nodes_include {setup : Setup} {f : Node} (hf : Gen.isInclude f = true)
    {base path source : String} (hsource : setup.files (Path.join base path) = .ok source)
    {program : Node} (hread : readUnit setup.folding source = .ok program) (depth l k : Nat) :
    setup.nodes (depth + 1) base (.call l f [.string k path]) =
      .call l f [.string k path] ::
        setup.nodes depth (Path.directory base (Path.join base path)) program := by
  rw [Setup.nodes, Node.spliced, if_pos hf, Node.ofArguments, Setup.unitNodes, hsource]
  dsimp only
  rw [hread]

theorem Setup.nodes_identifier (setup : Setup) (depth : Nat) (base : String) (l : Nat) (x : String) :
    setup.nodes depth base (.identifier l x) = [.identifier l x] := by
  cases depth <;> rfl

/-- All the nodes that the compilation of a source generates, in all the units. -/
def Options.nodes (options : Options) (files : String → Except IoError String) (source : String) :
    List Node :=
  match readUnit options.folding source with
  | .error _ => []
  | .ok program =>
    Setup.nodes { registry := .standard, files, folding := options.folding, limit := options.limit }
      options.limit options.base program

end BatchCompiler
