/-
# BatchCompiler.Proofs.Layout -- blanks and comments do not matter

Blanks and comments are gone once a source text has been split into tokens; all that is left of them
are the offsets at which tokens stand. Offsets go into the nodes of the tree and from there into
diagnostics, and nowhere else. So every program is generated like the same program with all offsets
erased, except for where its faults are, and two sources with the same tokens have the same erasure.
-/

import BatchCompiler.Proofs.Coupling
import BatchCompiler.Proofs.Separator

namespace BatchCompiler

/-! ## Reading -/

instance : DecidableRel Token.Same := fun t u =>
  inferInstanceAs (Decidable (u.kind = t.kind ∧ u.text = t.text ∧ u.value = t.value))

theorem found_of_same {ts us : List Token} (h : List.Forall₂ Token.Same ts us) :
    Token.found us.head? = Token.found ts.head? := by
  cases h with
  | nil => rfl
  | cons ht _ => simp only [List.head?_cons, Token.found, ht.1, ht.2.1]

/-- Failures that are alike but for their places say the same. -/
theorem error_of_placeless {e e' : ParseFailure} (he : Likeness.placeless.failure e e')
    {rest rest' : List Token} (hrest : List.Forall₂ Token.Same rest rest') (size size' : Nat) :
    (e'.error size' rest').found = (e.error size rest).found ∧
      (e'.error size' rest').problem = (e.error size rest).problem := by
  cases e with
  | atCursor problem =>
    cases e' with
    | atCursor problem' => exact ⟨found_of_same hrest, Eq.symm he⟩
    | behind loc' found' problem' => exact he.elim
  | behind loc found problem =>
    cases e' with
    | atCursor problem' => exact he.elim
    | behind loc' found' problem' => exact ⟨he.2.1.symm, he.2.2.symm⟩

/-- Tokens that differ only in their offsets spell programs that differ only in theirs, or are
refused for the same reason. -/
theorem parse_of_same {ts us : List Token} (h : List.Forall₂ Token.Same ts us) (size size' : Nat) :
    (∃ n m, parse size ts = .ok n ∧ parse size' us = .ok m ∧ m.erase = n.erase) ∨
    ∃ e e', parse size ts = .error e ∧ parse size' us = .error e' ∧ e'.found = e.found ∧
      e'.problem = e.problem := by
  have hrun := (alike_rules Likeness.placeless_lawful (Nat.le_refl ts.length)
    (Nat.le_of_eq h.length_eq)).statements ts us h (Nat.le_refl _)
  have hgrammar : ∀ vs : List Token, (rules vs.length).statements vs = grammar.statements vs :=
    fun _ => rfl
  rw [hgrammar, hgrammar] at hrun
  rw [parse, parse, Parser.outcome, Parser.outcome, program_apply, program_apply, Parser.bind_apply,
    Parser.bind_apply]
  cases hts : grammar.statements ts with
  | ok ns rest =>
    cases hus : grammar.statements us with
    | ok ms rest' =>
      rw [hts, hus] at hrun
      exact .inl ⟨_, _, rfl, rfl, congrArg (Node.program 0) (Likeness.placeless_nodes hrun.1)⟩
    | error e' rest' =>
      rw [hts, hus] at hrun
      exact hrun.elim
  | error e rest =>
    cases hus : grammar.statements us with
    | ok ms rest' =>
      rw [hts, hus] at hrun
      exact hrun.elim
    | error e' rest' =>
      rw [hts, hus] at hrun
      exact .inr ⟨_, _, rfl, rfl, error_of_placeless hrun.1 hrun.2.1 size size'⟩

/-- A source text whose tokens are known is read by parsing them. -/
theorem readUnit_of_tokens {source : String} {tokens : List Token}
    (h : tokenize source = .ok tokens) (folding : Bool) :
    readUnit folding source =
      match parse source.utf8ByteSize tokens with
      | .error e => .error (e.error source)
      | .ok program => .ok (program.optimize folding) := by
  unfold readUnit readTokens readProgram
  rw [h]
  show (parse source.utf8ByteSize tokens).mapError (·.error source) >>= _ = _
  cases parse source.utf8ByteSize tokens <;> rfl

namespace Node

theorem erase_foldedSum (l : Nat) (a b : Node) :
    (foldedSum l a b).erase = foldedSum 0 a.erase b.erase := by
  cases a with
  | integer la v =>
    cases b with
    | integer lb w =>
      simp only [foldedSum, erase]
      split <;> rfl
    | _ => rfl
  | string la v => cases b <;> rfl
  | _ => rfl

theorem erase_rewriteRoot (folding : Bool) (l : Nat) (op : BinaryOp) (a b : Node) :
    (rewriteRoot folding (binary l op a b)).erase =
      rewriteRoot folding (binary 0 op a.erase b.erase) := by
  cases folding with
  | false => rfl
  | true =>
    cases op with
    | add => exact erase_foldedSum l a b
    | _ => rfl

/-- The pass looks at no offset. -/
theorem erase_optimize (folding : Bool) (n : Node) :
    (n.optimize folding).erase = n.erase.optimize folding := by
  have hall : ∀ ns : List Node,
      (∀ n ∈ ns, (n.optimize folding).erase = n.erase.optimize folding) →
      eraseAll (optimizeAll folding ns) = optimizeAll folding (eraseAll ns) := by
    intro ns h
    simp only [eraseAll_eq_map, optimizeAll_eq_map, List.map_map]
    exact List.map_congr_left h
  induction n using Node.induction with
  | program l body ih => simp [optimize, erase, hall body ih]
  | integer l v => rfl
  | string l v => rfl
  | identifier l x => rfl
  | binary l op a b iha ihb =>
    rw [optimize, erase_rewriteRoot, erase, optimize, iha, ihb]
  | and l a b iha ihb => simp [optimize, erase, iha, ihb]
  | or l a b iha ihb => simp [optimize, erase, iha, ihb]
  | assign l t v iht ihv => simp [optimize, erase, iht, ihv]
  | branch l c t e ihc iht ihe => simp [optimize, erase, ihc, hall t iht, hall e ihe]
  | ternary l c t e ihc iht ihe => simp [optimize, erase, ihc, iht, ihe]
  | loop l c body ihc ih => simp [optimize, erase, ihc, hall body ih]
  | function l x ps body ih => simp [optimize, erase, hall body ih]
  | call l f args ihf ih => simp [optimize, erase, ihf, hall args ih]
  | ret l v ih => simp [optimize, erase, ih]
  | step l op leading t ih => simp [optimize, erase, ih]
  | array l es ih => simp [optimize, erase, hall es ih]
  | index l b i ihb ihi => simp [optimize, erase, ihb, ihi]

@[simp] theorem name?_erase (n : Node) : n.erase.name? = n.name? := by
  cases n <;> rfl

end Node

theorem Gen.includePath?_eraseAll (args : List Node) :
    includePath? (Node.eraseAll args) = includePath? args := by
  cases args with
  | nil => rfl
  | cons arg rest =>
    cases rest with
    | nil => cases arg <;> rfl
    | cons _ _ => cases arg <;> rfl

/-! ## Generation -/

/-- Faults that differ in where they are in their unit, at most. -/
inductive Fault.SameButPlace : Fault → Fault → Prop where
  | here (l l' : Nat) (cause : Cause) : SameButPlace (.here l cause) (.here l' cause)
  | raised (e : CompileError) : SameButPlace (.raised e) (.raised e)

/-- Two runs that are the same but for where things stand. -/
abbrev Pairing.layout : Pairing := .identical (fun _ _ => True) Fault.SameButPlace fun _ => False

theorem Pairing.layout_lawful : Pairing.layout.Lawful :=
  identical_lawful fun l l' cause _ => .here l l' cause

open Gen Pairing

/-- An include does not look at offsets. -/
theorem lowerInclude_layout (env : Env) (l l' : Nat) (args : List Node) :
    layout.Yields false (lowerInclude env l args) (lowerInclude env l' (Node.eraseAll args)) := by
  cases h : includePath? args with
  | none =>
    have hplaces : List.Forall₂ (fun a a' : Node => layout.place a.loc a'.loc) args
        (Node.eraseAll args) := by
      rw [Node.eraseAll_eq_map, List.forall₂_map_right_iff]
      exact List.forall₂_same.2 fun _ _ => trivial
    exact layout_lawful.refuseInclude trivial hplaces h ((includePath?_eraseAll args).trans h) _ _
  | some path =>
    obtain ⟨k, rfl⟩ := includePath?_eq_some h
    intro s s' hs
    have hshared : s.shared = s'.shared := hs.congr State.shared fun _ => rfl
    rw [lowerInclude_path, Node.eraseAll, Node.eraseAll, Node.erase, lowerInclude_path, hshared]
    cases env.includeUnit? with
    | none => exact .error (.here l l' _)
    | some units =>
      dsimp only
      cases units (Path.join env.base path) s'.shared with
      | error e => exact .error (.raised e)
      | ok unit =>
        refine .ok ?_ ⟨trivial, [_], [_], .cons (layout_lawful.operands (.text fun _ => rfl)) .nil,
          rfl, rfl⟩
        exact hs.congr (fun s => (s.including unit).cleared) fun _ => rfl

/-- A walk over a tree and the same walk over the tree without its offsets. -/
def Coupling.layout (env : Env) : Coupling Pairing.layout where
  node n n' := n' = n.erase
  loose _ := false
  hooks := .standard (lowerInclude env)
  hooks' := .standard (lowerInclude env)

theorem Coupling.layout_lawful (env : Env) : (Coupling.layout env).Lawful where
  pairing := Pairing.layout_lawful
  names x hl := Pairing.layout_lawful.resolve identical_resolves hl x
  targets x ty hl := Pairing.layout_lawful.nameTarget hl x ty
  cases {n n'} h := by
    obtain rfl : n' = n.erase := h
    have hall : ∀ ns : List Node,
        List.Forall₂ (Coupling.layout env).node ns (Node.eraseAll ns) := by
      intro ns
      rw [Node.eraseAll_eq_map, List.forall₂_map_right_iff]
      exact List.forall₂_same.2 fun _ _ => rfl
    cases n with
    | program l body => exact .inl (.program trivial (hall body))
    | integer l v => exact .inl (.integer v trivial)
    | string l v => exact .inl (.string v trivial)
    | identifier l x => exact .inl (.identifier x trivial)
    | binary l op a b => exact .inl (.binary op trivial rfl rfl)
    | and l a b => exact .inl (.and trivial rfl rfl)
    | or l a b => exact .inl (.or trivial rfl rfl)
    | assign l t v => exact .inl (.assign trivial rfl rfl)
    | branch l c t e => exact .inl (.branch trivial rfl (hall t) (hall e))
    | ternary l c t e => exact .inl (.ternary trivial rfl rfl rfl)
    | loop l c body => exact .inl (.loop trivial rfl (hall body))
    | function l x ps body => exact .inl (.function x ps trivial (hall body))
    | call l f args =>
      cases hf : isInclude f with
      | false => exact .inl (.call trivial hf rfl (hall args))
      | true =>
        have hf' : isInclude f.erase = true := by
          rw [← hf, isInclude_eq, isInclude_eq, Node.name?_erase]
        refine .inr ⟨⟨trivial, rfl, rfl, rfl, rfl⟩, ?_⟩
        show Pairing.layout.Yields false (walk _ (.call l f args))
          (walk _ (.call 0 f.erase (Node.eraseAll args)))
        rw [walk, walk, if_pos hf, if_pos hf']
        exact lowerInclude_layout env l 0 args
    | ret l v => exact .inl (.ret trivial rfl)
    | step l op leading t => exact .inl (.step op leading trivial rfl)
    | array l es => exact .inl (.array trivial (hall es))
    | index l b i => exact .inl (.index trivial rfl rfl)
  assign _ _ _ := rfl
  step _ := rfl

/-- Generation of a program and of the program without its offsets. -/
theorem generated_like_erased {env : Env} (hregistry : env.registry = .standard) (n : Node) :
    Pairing.layout.Ends (Pushed (fun _ _ => False) (fun _ _ => True) {} {})
      (statement (node env n) {}) (statement (node env n.erase) {}) := by
  have hparts := (Coupling.layout_lawful env).parts (n := n) rfl
  rw [node_eq_walk, node_eq_walk, Env.hooks_eq_standard hregistry]
  exact Pairing.layout_lawful.statement hparts.gen {} {} rfl

/-! ## Compilations -/

/-- Errors that differ in where a problem of the outermost unit is said to be, at most. -/
inductive CompileError.SameButPlace : CompileError → CompileError → Prop where
  | located (place place' : Location) (cause : Cause) :
    SameButPlace (.located place cause) (.located place' cause)
  | same (e : CompileError) : SameButPlace e e

theorem Fault.SameButPlace.error {fault erased fault' : Fault} (h : fault.SameButPlace erased)
    (h' : fault'.SameButPlace erased) (source source' : String) :
    (fault.error source).SameButPlace (fault'.error source') := by
  cases h with
  | here l l₀ cause =>
    cases h' with
    | here l' _ _ => exact .located _ _ cause
  | raised e =>
    cases h' with
    | raised _ => exact .same e

/-- Two programs that differ only in their offsets are generated alike. -/
theorem script_of_erase {env : Env} (hregistry : env.registry = .standard) {n m : Node}
    (h : m.erase = n.erase) (source source' : String) :
    (∃ t t', statement (node env n) {} = .ok () t ∧ statement (node env m) {} = .ok () t' ∧
      t'.script = t.script) ∨
    ∃ fault fault' t t', statement (node env n) {} = .error fault t ∧
      statement (node env m) {} = .error fault' t' ∧
      (fault.error source).SameButPlace (fault'.error source') := by
  have hn := generated_like_erased hregistry n
  have hm := generated_like_erased hregistry m
  rw [h] at hm
  generalize statement (node env n) {} = r at hn
  generalize statement (node env m) {} = r' at hm
  generalize statement (node env n.erase) {} = erased at hn hm
  cases hn with
  | excused hfalse => exact hfalse.elim
  | ok ht _ =>
    cases hm with
    | excused hfalse => exact hfalse.elim
    | ok ht' _ =>
      refine .inl ⟨_, _, rfl, rfl, ?_⟩
      have hscript := ht.congr State.script fun _ => rfl
      have hscript' := ht'.congr State.script fun _ => rfl
      exact hscript'.trans hscript.symm
  | error hfault =>
    cases hm with
    | excused hfalse => exact hfalse.elim
    | error hfault' => exact .inr ⟨_, _, _, _, rfl, rfl, hfault.error hfault' source source'⟩

/-- Layout and comments do not matter: two sources with the same tokens, wherever these stand, have
the same script, or fail alike in all but the place of a problem in the source itself. -/
theorem layout_does_not_matter (files : String → Except IoError String) (options : Options)
    {source source' : String} {tokens tokens' : List Token} (h : tokenize source = .ok tokens)
    (h' : tokenize source' = .ok tokens') (hsame : List.Forall₂ Token.Same tokens tokens') :
    (∃ script, compileSource files options source = .ok script ∧
      compileSource files options source' = .ok script) ∨
    ∃ e e', compileSource files options source = .error e ∧
      compileSource files options source' = .error e' ∧ e.SameButPlace e' := by
  rw [compileSource_eq, compileSource_eq, readUnit_of_tokens h, readUnit_of_tokens h']
  obtain ⟨n, m, hn, hm, herase⟩ | ⟨e, e', he, he', hfound, hproblem⟩ :=
    parse_of_same hsame source.utf8ByteSize source'.utf8ByteSize
  · have hregistry : (options.env .standard files).registry = .standard := Setup.registry_env _ _ _
    have hoptimize : (m.optimize options.folding).erase = (n.optimize options.folding).erase := by
      rw [Node.erase_optimize, Node.erase_optimize, herase]
    rw [hn, hm]
    dsimp only
    obtain ⟨t, t', hrun, hrun', hscript⟩ | ⟨fault, fault', t, t', hrun, hrun', hfault⟩ :=
      script_of_erase hregistry hoptimize source source'
    · rw [hrun, hrun']
      exact .inl ⟨t.script, rfl, congrArg Except.ok hscript⟩
    · rw [hrun, hrun']
      exact .inr ⟨_, _, rfl, rfl, hfault⟩
  · rw [he, he']
    refine .inr ⟨_, _, rfl, rfl, ?_⟩
    unfold ParseError.error
    rw [hfound, hproblem]
    exact .located _ _ _

/-- A function that reads a name which stands for nothing, once on one line and once on several, with
comments in between. -/
theorem commented_function_fails_alike :
    let source := "f = func(a) \x7b return a + z; \x7d;"
    let source' := "// adds\nf =\n  func ( a ) \x7b\n    return a /* z? */ + z;\n  \x7d\n;"
    ∃ tokens tokens', tokenize source = .ok tokens ∧ tokenize source' = .ok tokens' ∧
      List.Forall₂ Token.Same tokens tokens' ∧
      ∃ e e', compileSource (fun _ => .error .notFound) {} source = .error e ∧
        compileSource (fun _ => .error .notFound) {} source' = .error e' ∧ e.SameButPlace e' := by
  intro source source'
  have h : tokenize source = .ok ((tokenize source).toOption.getD []) := by decide +kernel
  have h' : tokenize source' = .ok ((tokenize source').toOption.getD []) := by decide +kernel
  have hsame : List.Forall₂ Token.Same ((tokenize source).toOption.getD [])
      ((tokenize source').toOption.getD []) := by decide +kernel
  refine ⟨_, _, h, h', hsame, ?_⟩
  have hfails : (compileSource (fun _ => .error .notFound) {} source).toOption = none := by
    decide +kernel
  obtain ⟨script, hscript, -⟩ | hfailure :=
    layout_does_not_matter (fun _ => .error .notFound) {} h h' hsame
  · rw [hscript] at hfails
    cases hfails
  · exact hfailure

end BatchCompiler
