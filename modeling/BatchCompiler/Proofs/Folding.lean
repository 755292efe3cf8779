/-
# BatchCompiler.Proofs.Folding -- which programs are accepted, with and without folding

Folding puts a literal where a sum of literals was. The lines that compute the sum are gone then, and
temporaries have other numbers, but the generator goes on as it would have, since all it asks of an
operand in most places is its type. There are two places where it asks for more. An include wants a
literal, which a sum is only after folding. A step wants something that can be written: the sum has
left a temporary, which can be, and the literal cannot. `Node.foldMatters` finds these places.

Away from them the two compilations are compared step by step: the scopes have the same shape
throughout, and both succeed or both fail alike.
-/

import BatchCompiler.Proofs.Coupling
import BatchCompiler.Proofs.Nesting
import BatchCompiler.Proofs.Reach

namespace BatchCompiler

/-! ## Sums that become literals -/

namespace Node

/-- The node is a literal. -/
def isLiteral (n : Node) : Bool := n.construct = .integer ∨ n.construct = .string

/-- The node is a sum of which folding makes a literal. -/
def foldsAway (n : Node) : Bool := n.construct = .binary && n.fold.isLiteral

/-- The node whose operand a node leaves. An assignment leaves that of its value. -/
def carrier : Node → Node
  | assign _ _ v => carrier v
  | n => n

/-- Folding changes what the generator makes of the node: it includes a sum of literals, or steps
one. -/
def foldMatters : Node → Bool
  | call _ f [arg] => Gen.isInclude f && arg.foldsAway && arg.fold.construct = .string
  | step _ _ _ t => t.carrier.foldsAway
  | _ => false

/-- The type of the literal that the node is. -/
def literalType (n : Node) : ValueType := if n.construct = .integer then .integer else .text

/-- Without folding the tree is rebuilt as it was. -/
theorem optimize_false (n : Node) : n.optimize false = n := by
  induction n using induction_children with
  | h n ih =>
    calc n.optimize false
        = n.mapChildren (optimize false) := optimize_eq false n
      _ = n.mapChildren id := mapChildren_congr ih
      _ = n := n.mapChildren_id

theorem foldedSum_cases (l : Nat) (a b : Node) :
    foldedSum l a b = binary l .add a b ∨
    (a.isLiteral = true ∧ b.isLiteral = true ∧ (foldedSum l a b).isLiteral = true ∧
      (foldedSum l a b).literalType = .join [a.literalType, b.literalType]) := by
  unfold foldedSum
  split
  · split
    · exact .inr ⟨rfl, rfl, rfl, rfl⟩
    · exact .inl rfl
  · exact .inr ⟨rfl, rfl, rfl, rfl⟩
  · exact .inr ⟨rfl, rfl, rfl, rfl⟩
  · exact .inr ⟨rfl, rfl, rfl, rfl⟩
  · exact .inl rfl

/-- Folding changes at most the children of a node, unless it makes a literal of the node. -/
theorem fold_cases (n : Node) :
    n.fold = n.mapChildren fold ∨
    ∃ l a b, n = .binary l .add a b ∧ a.fold.isLiteral = true ∧ b.fold.isLiteral = true ∧
      n.fold.isLiteral = true ∧
      n.fold.literalType = .join [a.fold.literalType, b.fold.literalType] := by
  rw [fold, optimize_eq]
  cases n with
  | binary l op a b =>
    cases op with
    | add =>
      obtain hsum | ⟨ha, hb, hsum, hty⟩ := foldedSum_cases l a.fold b.fold
      · exact .inl hsum
      · exact .inr ⟨l, a, b, rfl, ha, hb, hsum, hty⟩
    | _ => exact .inl rfl
  | _ => exact .inl rfl

theorem fold_of_not_foldsAway {n : Node} (h : n.foldsAway = false) : n.fold = n.mapChildren fold := by
  obtain hsame | ⟨l, a, b, rfl, -, -, hliteral, -⟩ := fold_cases n
  · exact hsame
  · simp [foldsAway, construct, hliteral] at h

end Node

namespace Gen

/-- From every state, the step goes to one with the same names in it, and leaves a value of this type
which has been read. -/
def LeavesValue (m : Gen Unit) (ty : ValueType) : Prop :=
  ∀ s, ∃ t o, m s = .ok () t ∧ t.stack = o :: s.stack ∧ t.scopes = s.scopes ∧
    t.shared.emitted = s.shared.emitted ∧ o.isReference = false ∧ o.valueType = ty

theorem leavesValue_sum {a b : Part} {ty ty' : ValueType} (ha : LeavesValue a.gen ty)
    (hb : LeavesValue b.gen ty') : LeavesValue (lowerBinary .add a b) (.join [ty, ty']) := by
  intro s
  obtain ⟨t, x, hrun, hstack, hscopes, hemitted, hx, rfl⟩ := ha s
  obtain ⟨u, y, hrun', hstack', hscopes', hemitted', hy, rfl⟩ := hb { t with stack := s.stack }
  show ∃ v o, (eval a >>= _) s = .ok () v ∧ _
  rw [bind_of_ok (eval_of_push hrun hstack), bind_of_ok (eval_of_push hrun' hstack'),
    bind_of_ok (deref_of_not_reference hy _), bind_of_ok (deref_of_not_reference hx _), if_pos rfl]
  unfold lowerSum
  rw [bind_of_ok (freshTemp_apply _)]
  split
  · exact ⟨_, _, rfl, rfl, hscopes'.trans hscopes, hemitted'.trans hemitted, rfl, rfl⟩
  · exact ⟨_, _, rfl, rfl, hscopes'.trans hscopes, hemitted'.trans hemitted, rfl, rfl⟩

/-- What folds to a literal leaves a value of its type. -/
theorem leavesValue_of_isLiteral {hooks : Hooks} {n : Node} (h : n.fold.isLiteral = true) :
    LeavesValue (walk hooks n) n.fold.literalType := by
  induction n using Node.induction with
  | integer l v => exact fun s => ⟨_, _, rfl, rfl, rfl, rfl, rfl, rfl⟩
  | string l v => exact fun s => ⟨_, _, rfl, rfl, rfl, rfl, rfl, rfl⟩
  | binary l op a b iha ihb =>
    obtain hsame | ⟨_, _, _, hn, ha, hb, -, hty⟩ := Node.fold_cases (.binary l op a b)
    · rw [hsame] at h
      cases h
    · cases hn
      rw [hty, walk]
      exact leavesValue_sum (iha ha) (ihb hb)
  | _ => cases h

end Gen

/-! ## States of the same shape -/

/-- Names of the same sort: the same name of the user, or two temporaries. -/
inductive Name.SameSort : Name → Name → Prop where
  | user (x : String) : SameSort (.user x) (.user x)
  | temp (number number' : Nat) : SameSort (.temp number) (.temp number')

/-- Variables of the same type that are kept in the same way. -/
inductive Variable.SameSort : Variable → Variable → Prop where
  | named {x x' : Name} (ty : ValueType) : x.SameSort x' → SameSort (.named x ty) (.named x' ty)
  | slot (index : Nat) (ty : ValueType) : SameSort (.slot index ty) (.slot index ty)

/-- Bindings of the same names, in the same order, to variables of the same sort. -/
def Bindings.SameShape (bindings bindings' : Bindings) : Prop :=
  List.Forall₂ (fun e e' => e.1 = e'.1 ∧ e.2.SameSort e'.2) bindings bindings'

namespace Bindings.SameShape

variable {bindings bindings' : Bindings}

theorem get? (h : bindings.SameShape bindings') (x : String) :
    Option.Rel Variable.SameSort (bindings.get? x) (bindings'.get? x) := by
  induction h with
  | nil => exact .none
  | @cons e e' rest rest' he _ ih =>
    obtain ⟨k, v⟩ := e
    obtain ⟨k', v'⟩ := e'
    obtain ⟨rfl, hv⟩ := he
    unfold Bindings.get? at ih ⊢
    rw [List.lookup_cons, List.lookup_cons]
    cases x == k with
    | true => exact .some hv
    | false => exact ih

theorem set (h : bindings.SameShape bindings') (x : String) {v v' : Variable} (hv : v.SameSort v') :
    (Bindings.set x v bindings).SameShape (Bindings.set x v' bindings') := by
  induction h with
  | nil => exact .cons ⟨rfl, hv⟩ .nil
  | @cons e e' rest rest' he hrest ih =>
    obtain ⟨k, w⟩ := e
    obtain ⟨k', w'⟩ := e'
    obtain ⟨rfl, hw⟩ := he
    unfold Bindings.set
    split
    · exact .cons ⟨rfl, hv⟩ hrest
    · exact .cons ⟨rfl, hw⟩ ih

end Bindings.SameShape

/-- Scopes with the same names in them, bound to variables of the same sort. -/
structure ScopeChain.SameShape (chain chain' : ScopeChain) : Prop where
  root : chain.root.SameShape chain'.root
  nested : List.Forall₂ Bindings.SameShape chain.nested chain'.nested

namespace ScopeChain.SameShape

variable {chain chain' : ScopeChain}

theorem lookup (h : chain.SameShape chain') (x : String) :
    Option.Rel Variable.SameSort (chain.lookup x) (chain'.lookup x) := by
  obtain ⟨root, nested⟩ := chain
  obtain ⟨root', nested'⟩ := chain'
  obtain ⟨hroot, hnested⟩ := h
  unfold ScopeChain.lookup
  dsimp only at hroot hnested ⊢
  induction hnested with
  | nil =>
    simp only [List.nil_append, List.findSome?_cons, List.findSome?_nil]
    have hfound := hroot.get? x
    generalize root.get? x = found at hfound
    generalize root'.get? x = found' at hfound
    cases hfound with
    | none => exact .none
    | some hv => exact .some hv
  | @cons scope scope' outer outer' hscope _ ih =>
    simp only [List.cons_append, List.findSome?_cons]
    have hfound := hscope.get? x
    generalize scope.get? x = found at hfound
    generalize scope'.get? x = found' at hfound
    cases hfound with
    | none => exact ih
    | some hv => exact .some hv

theorem declare (h : chain.SameShape chain') (x : String) {v v' : Variable} (hv : v.SameSort v') :
    (chain.declare x v).SameShape (chain'.declare x v') := by
  obtain ⟨root, nested⟩ := chain
  obtain ⟨root', nested'⟩ := chain'
  obtain ⟨hroot, hnested⟩ := h
  dsimp only at hroot hnested
  cases hnested with
  | nil => exact ⟨hroot.set x hv, .nil⟩
  | cons hscope houter => exact ⟨hroot, .cons (hscope.set x hv) houter⟩

theorem declareAll (h : chain.SameShape chain') {bindings bindings' : Bindings}
    (hbindings : bindings.SameShape bindings') :
    (chain.declareAll bindings).SameShape (chain'.declareAll bindings') := by
  induction hbindings generalizing chain chain' with
  | nil => exact h
  | @cons e e' rest rest' he _ ih =>
    obtain ⟨x, v⟩ := e
    obtain ⟨x', v'⟩ := e'
    obtain ⟨rfl, hv⟩ := he
    exact ih (h.declare x hv)

theorem enter (h : chain.SameShape chain') : chain.enter.SameShape chain'.enter :=
  ⟨h.root, .cons .nil h.nested⟩

theorem leave (h : chain.SameShape chain') : chain.leave.SameShape chain'.leave := by
  refine ⟨h.root, ?_⟩
  obtain ⟨root, nested⟩ := chain
  obtain ⟨root', nested'⟩ := chain'
  cases h.nested with
  | nil => exact .nil
  | cons _ houter => exact houter

end ScopeChain.SameShape

/-- States in which the same names stand for variables of the same sort. -/
structure State.SameShape (s s' : State) : Prop where
  scopes : s.scopes.SameShape s'.scopes
  emitted : s.shared.emitted.SameShape s'.shared.emitted

/-! ## Diagnostics -/

/-- What a diagnostic calls a node, and what it calls the node once that has been folded. -/
def Construct.FoldsTo (c c' : Construct) : Prop :=
  c = c' ∨ c = .binary ∧ (c' = .integer ∨ c' = .string)

/-- Causes that are the same but for what a sum of literals is called. -/
inductive Cause.Matches : Cause → Cause → Prop where
  | same (cause : Cause) : Matches cause cause
  | notAssignable {c c' : Construct} : c.FoldsTo c' →
    Matches (.notAssignable (.construct c)) (.notAssignable (.construct c'))
  | noValue {c c' : Construct} : c.FoldsTo c' → Matches (.noValue c) (.noValue c')

/-- Errors at the same place, with the same wrappers, whose causes match. -/
inductive CompileError.Matches : CompileError → CompileError → Prop where
  | located (location : Location) {cause cause' : Cause} : cause.Matches cause' →
    Matches (.located location cause) (.located location cause')
  | inInclude (path : String) {e e' : CompileError} : Matches e e' →
    Matches (.inInclude path e) (.inInclude path e')
  | same (e : CompileError) : Matches e e

/-- Faults at the same place whose causes match. -/
inductive Fault.Matches : Fault → Fault → Prop where
  | here (l : Nat) {cause cause' : Cause} : cause.Matches cause' →
    Matches (.here l cause) (.here l cause')
  | raised {e e' : CompileError} : e.Matches e' → Matches (.raised e) (.raised e')

theorem Fault.Matches.error {fault fault' : Fault} (h : fault.Matches fault') (source : String) :
    (fault.error source).Matches (fault'.error source) := by
  cases h with
  | here l hcause => exact .located _ hcause
  | raised herror => exact herror

/-! ## Runs with and without folding -/

namespace Pairing

/-- A run without folding and one with it. -/
def folding : Pairing where
  sameLines := False
  place := Eq
  construct := Construct.FoldsTo
  name := Name.SameSort
  state := State.SameShape
  fault := Fault.Matches
  excused _ := False

theorem folding_variables {v v' : Variable} : folding.Variables v v' ↔ v.SameSort v' := by
  constructor
  · intro h
    obtain ⟨storage, ty⟩ := v
    obtain ⟨storage', ty'⟩ := v'
    obtain ⟨hstorage, hty⟩ := h
    dsimp only at hstorage hty
    subst hty
    cases hstorage with
    | named hname => exact .named ty hname
    | slot index => exact .slot index ty
  · intro h
    cases h with
    | named ty hname => exact ⟨.named hname, rfl⟩
    | slot index ty => exact ⟨.slot index, rfl⟩

theorem folding_found {found found' : Option Variable}
    (h : Option.Rel Variable.SameSort found found') :
    Option.Rel folding.Variables found found' := by
  cases h with
  | none => exact .none
  | some hv => exact .some (folding_variables.2 hv)

theorem folding_lawful : folding.Lawful where
  name_eq := False.elim
  user x := .user x
  construct c := .inl rfl
  here {l l'} cause hl := by
    obtain rfl : l = l' := hl
    exact .here l (.same cause)
  notAssignable {l l' c c'} hl hc := by
    obtain rfl : l = l' := hl
    exact .here l (.notAssignable hc)
  noValue {l l' c c'} hl hc := by
    obtain rfl : l = l' := hl
    exact .here l (.noValue hc)
  state_stack _ _ h := ⟨h.scopes, h.emitted⟩
  state_lookup x h := folding_found (h.scopes.lookup x)
  state_emit _ _ h := ⟨h.scopes, h.emitted⟩
  state_handleUser _ h := ⟨h.scopes, h.emitted⟩
  state_handleTemp h := ⟨h.scopes, h.emitted⟩
  state_freshTemp h := ⟨.temp _ _, h.scopes, h.emitted⟩
  state_freshLabel h := ⟨False.elim, h.scopes, h.emitted⟩
  state_declareUser ty _ h := ⟨h.scopes.declare _ (.named ty (.user _)), h.emitted⟩
  state_declareSlot x _ h := ⟨h.scopes.declare x (.slot _ .text), h.emitted⟩
  state_enter h := ⟨h.scopes.enter, h.emitted⟩
  state_leave h := ⟨h.scopes.leave, h.emitted⟩

theorem folding_resolves : folding.Resolves where
  emitted x h := folding_found (h.emitted.get? x)
  declare h _ _ hv := ⟨h.scopes.declare _ (folding_variables.1 hv), h.emitted⟩
  process h _ _ := ⟨h.scopes, h.emitted.set "process" (.named .text (.temp _ _))⟩

theorem folding_wraps : folding.Wraps folding where
  raised e := .raised (.same e)
  fault path source h := .raised (.inInclude path (h.error source))
  excused _ _ := False.elim

end Pairing

namespace Node

theorem isLiteral_cases {n : Node} (h : n.isLiteral = true) :
    (∃ l v, n = .integer l v) ∨ ∃ l v, n = .string l v := by
  cases n with
  | integer l v => exact .inl ⟨l, v, rfl⟩
  | string l v => exact .inr ⟨l, v, rfl⟩
  | _ => cases h

@[simp] theorem loc_fold (n : Node) : n.fold.loc = n.loc := by
  rw [fold, optimize_eq, ← loc_mapChildren fold n]
  generalize n.mapChildren fold = m
  unfold rewriteRoot foldedSum
  split
  · split
    · split <;> rfl
    all_goals rfl
  · rfl

/-- Folding leaves alone all that the lowering around a node looks at, but for what a sum is
called. -/
theorem heads_fold (n : Node) : Pairing.folding.Heads n n.fold := by
  have hplace : Pairing.folding.place n.loc n.fold.loc := n.loc_fold.symm
  obtain hsame | ⟨l, a, b, rfl, -, -, hliteral, -⟩ := fold_cases n
  · rw [hsame] at hplace ⊢
    refine ⟨hplace, .inl (construct_mapChildren fold n).symm, ?_, ?_, ?_⟩
    · simp [isReturn]
    · simp [isAssignable]
    · cases n <;> rfl
  · obtain ⟨k, v, heq⟩ | ⟨k, v, heq⟩ := isLiteral_cases hliteral
    · rw [heq] at hplace ⊢
      exact ⟨hplace, .inr ⟨rfl, .inl rfl⟩, rfl, rfl, rfl⟩
    · rw [heq] at hplace ⊢
      exact ⟨hplace, .inr ⟨rfl, .inr rfl⟩, rfl, rfl, rfl⟩

end Node

namespace Pairing

open Gen

/-- A sum of literals and the literal that it is folded to are generated alike, except that only the
sum leaves something that can be written. -/
theorem folding_literal {hooks hooks' : Hooks} {n : Node} (h : n.fold.isLiteral = true) :
    folding.Yields true (walk hooks n) (walk hooks' n.fold) := by
  intro s s' hs
  obtain ⟨t, o, hrun, hstack, hscopes, hemitted, ho, hty⟩ := leavesValue_of_isLiteral h s
  have ht : folding.state t s' := ⟨hscopes ▸ hs.scopes, hemitted ▸ hs.emitted⟩
  rw [hrun]
  obtain ⟨k, v, heq⟩ | ⟨k, v, heq⟩ := Node.isLiteral_cases h
  · rw [heq] at hty ⊢
    refine .ok (folding_lawful.state_stack t.stack _ ht)
      ⟨trivial, [o], [_], .cons ?_ .nil, hstack, rfl⟩
    exact ⟨hty, ho, False.elim, nofun⟩
  · rw [heq] at hty ⊢
    refine .ok (folding_lawful.state_stack t.stack _ ht)
      ⟨trivial, [o], [_], .cons ?_ .nil, hstack, rfl⟩
    exact ⟨hty, ho, False.elim, nofun⟩

end Pairing

/-! ## Units -/

/-- A walk over a tree in which folding does not matter, and one over the folded tree. -/
def Coupling.folding (setup : Setup) (depth : Nat) (base : String) (env env' : Env) :
    Coupling Pairing.folding where
  node n n' := n' = n.fold ∧ ∀ m ∈ setup.nodes depth base n, m.foldMatters = false
  loose n := n.carrier.foldsAway
  hooks := .standard (Gen.lowerInclude env)
  hooks' := .standard (Gen.lowerInclude env')

open Gen Pairing

/-- The nodes of all the units below a node are those of one walk. -/
theorem Setup.nodes_eq_spliced (setup : Setup) (depth : Nat) (base : String) :
    ∃ included, setup.nodes depth base = Node.spliced included := by
  cases depth with
  | zero => exact ⟨_, rfl⟩
  | succ depth => exact ⟨_, rfl⟩

theorem includePath?_many (a b : Node) (rest : List Node) : includePath? (a :: b :: rest) = none := by
  cases a <;> rfl

/-- An include in which folding does not matter names the same path before and after. -/
theorem includePath?_optimizeAll {l : Nat} {f : Node} {args : List Node} (hf : isInclude f = true)
    (h : (Node.call l f args).foldMatters = false) :
    includePath? (Node.optimizeAll true args) = includePath? args := by
  cases args with
  | nil => rfl
  | cons arg rest =>
    cases rest with
    | cons second rest => rw [Node.optimizeAll, Node.optimizeAll, includePath?_many, includePath?_many]
    | nil =>
      show includePath? [arg.fold] = _
      obtain hsame | ⟨k, a, b, rfl, -, -, hliteral, -⟩ := Node.fold_cases arg
      · rw [hsame]
        cases arg <;> rfl
      · obtain ⟨k', v, heq⟩ | ⟨k', v, heq⟩ := Node.isLiteral_cases hliteral
        · rw [heq]
          rfl
        · simp [Node.foldMatters, Node.foldsAway, hf, heq, Node.construct, Node.isLiteral] at h

theorem Coupling.folding_lawful {setup : Setup} {depth : Nat} {base : String} {env env' : Env}
    (hincludes : ∀ l f args, isInclude f = true →
      (∀ m ∈ setup.nodes depth base (.call l f args), m.foldMatters = false) →
      Pairing.folding.Yields false (lowerInclude env l args)
        (lowerInclude env' l (Node.optimizeAll true args))) :
    (Coupling.folding setup depth base env env').Lawful where
  pairing := Pairing.folding_lawful
  names x hl := Pairing.folding_lawful.resolve folding_resolves hl x
  targets x ty hl := Pairing.folding_lawful.nameTarget hl x ty
  cases {n n'} h := by
    obtain ⟨rfl, hnodes⟩ := h
    obtain ⟨included, hspliced⟩ := setup.nodes_eq_spliced depth base
    by_cases hcall : ∃ l f args, n = .call l f args ∧ isInclude f = true
    · obtain ⟨l, f, args, rfl, hf⟩ := hcall
      refine .inr ⟨Node.heads_fold _, ?_⟩
      show Pairing.folding.Yields false (walk _ (.call l f args))
        (walk _ (.call l f.fold (Node.optimizeAll true args)))
      have hf' : isInclude f.fold = true := by
        rw [← hf, isInclude_eq, isInclude_eq, (Node.heads_fold f).name?]
      rw [walk, walk, if_pos hf, if_pos hf']
      exact hincludes l f args hf hnodes
    · have hordinary : ∀ l f args, n = .call l f args → isInclude f = false :=
        fun l f args hn => Bool.eq_false_iff.2 fun hf => hcall ⟨l, f, args, hn, hf⟩
      cases haway : n.foldsAway with
      | true =>
        obtain ⟨hconstruct, hliteral⟩ : n.construct = .binary ∧ n.fold.isLiteral = true := by
          simpa [Node.foldsAway] using haway
        refine .inr ⟨Node.heads_fold n, ?_⟩
        show Pairing.folding.Yields n.carrier.foldsAway _ _
        cases n with
        | binary l op a b =>
          have hcarrier : (Node.binary l op a b).carrier.foldsAway = true := haway
          rw [hcarrier]
          exact folding_literal hliteral
        | _ => cases hconstruct
      | false =>
        refine .inl ?_
        rw [Node.fold_of_not_foldsAway haway]
        refine .mapChildren (fun _ => rfl) hordinary fun m hm => ⟨rfl, fun x hx => ?_⟩
        rw [hspliced] at hx hnodes
        exact hnodes x (Node.mem_spliced_of_child hordinary hm hx)
  assign _ _ _ := rfl
  step {l op leading t n'} h := by
    obtain ⟨included, hspliced⟩ := setup.nodes_eq_spliced depth base
    have hstep := h.2 (.step l op leading t)
    rw [hspliced] at hstep
    exact hstep (Node.mem_spliced_self _ _)

/-- Folding changes nothing about whether a source text can be read. -/
theorem readUnit_folding (source : String) :
    (∃ e, readUnit false source = .error e ∧ readUnit true source = .error e) ∨
    ∃ program, readUnit false source = .ok program ∧ readUnit true source = .ok program.fold := by
  unfold readUnit
  cases readTokens source with
  | error e => exact .inl ⟨e, rfl, rfl⟩
  | ok tokens =>
    simp only [bind, Except.bind]
    cases readProgram source tokens with
    | error e => exact .inl ⟨e, rfl, rfl⟩
    | ok program => exact .inr ⟨program, congrArg Except.ok program.optimize_false, rfl⟩

variable {files : String → Except IoError String} {options : Options}

/-- Nodes are generated alike if their includes are. -/
theorem parts_folding {depth : Nat} {base : String}
    (hincludes : ∀ l f args, isInclude f = true →
      (∀ m ∈ ({ options with folding := false }.setup files).nodes depth base (.call l f args),
        m.foldMatters = false) →
      folding.Yields false
        (lowerInclude (({ options with folding := false }.setup files).env depth base) l args)
        (lowerInclude (({ options with folding := true }.setup files).env depth base) l
          (Node.optimizeAll true args)))
    {n : Node} (hnodes : ∀ m ∈ ({ options with folding := false }.setup files).nodes depth base n,
      m.foldMatters = false) :
    folding.Parts n.carrier.foldsAway
      ⟨n, node (({ options with folding := false }.setup files).env depth base) n⟩
      ⟨n.fold, node (({ options with folding := true }.setup files).env depth base) n.fold⟩ := by
  have hparts := (Coupling.folding_lawful hincludes).parts ⟨rfl, hnodes⟩
  rw [node_eq_walk, node_eq_walk, Env.hooks_eq_standard (Setup.registry_env ..),
    Env.hooks_eq_standard (Setup.registry_env ..)]
  exact hparts

/-- Nodes are generated alike with and without folding, if folding matters nowhere below them. -/
theorem node_folding (depth : Nat) (base : String) (n : Node)
    (hnodes : ∀ m ∈ ({ options with folding := false }.setup files).nodes depth base n,
      m.foldMatters = false) :
    folding.Parts n.carrier.foldsAway
      ⟨n, node (({ options with folding := false }.setup files).env depth base) n⟩
      ⟨n.fold, node (({ options with folding := true }.setup files).env depth base) n.fold⟩ := by
  have hplaces : ∀ args : List Node,
      List.Forall₂ (fun a a' => folding.place a.loc a'.loc) args (Node.optimizeAll true args) := by
    intro args
    rw [Node.optimizeAll_eq_map, List.forall₂_map_right_iff]
    exact List.forall₂_same.2 fun a _ => a.loc_fold.symm
  induction depth generalizing base n with
  | zero =>
    refine parts_folding (fun l f args hf hcall => ?_) hnodes
    have hpath := includePath?_optimizeAll hf (hcall _ (Node.mem_spliced_self _ _))
    exact folding_lawful.includesTooDeep rfl rfl rfl rfl (hplaces args) hpath
  | succ depth ih =>
    refine parts_folding (fun l f args hf hcall => ?_) hnodes
    have hpath := includePath?_optimizeAll hf (hcall _ (Node.mem_spliced_self _ _))
    have hbase := Setup.base_env ({ options with folding := false }.setup files) (depth + 1) base
    have hbase' := Setup.base_env ({ options with folding := true }.setup files) (depth + 1) base
    refine folding_lawful.includes hbase hbase' rfl rfl (fun path h s s' hs => ?_) rfl
      (hplaces args) hpath
    rw [Setup.includeUnit_eq_unit, Setup.includeUnit_eq_unit]
    refine Pairing.unit folding_lawful folding_wraps ({ options with folding := false }.setup files)
      ({ options with folding := true }.setup files) rfl (fun source hsource => ?_)
      ⟨⟨.nil, .nil⟩, hs.emitted⟩ fun t t' ht => ?_
    · obtain ⟨k, rfl⟩ := includePath?_eq_some h
      obtain ⟨e, hread, hread'⟩ | ⟨program, hread, hread'⟩ := readUnit_folding source
      · exact .inl ⟨e, hread, hread'⟩
      · have hprogram := ih (Path.directory base (Path.join base path)) program fun m hm => by
          refine hcall m ?_
          rw [Setup.nodes_include hf hsource hread]
          exact .tail _ hm
        exact .inr ⟨program, program.fold, hread, hread', folding_lawful.statement hprogram.gen⟩
    · exact ⟨hs.scopes.declareAll ht.scopes.root, ht.emitted⟩

/-! ## Compilations -/

/-- Both succeed, or both fail with errors that match. -/
inductive SameOutcome : Except CompileError String → Except CompileError String → Prop where
  | ok (script script' : String) : SameOutcome (.ok script) (.ok script')
  | error {e e' : CompileError} : e.Matches e' → SameOutcome (.error e) (.error e')

/-- If folding matters nowhere, the compilations with and without it both succeed or fail alike. -/
theorem compileSource_folding (source : String)
    (hnodes : ∀ n ∈ { options with folding := false }.nodes files source, n.foldMatters = false) :
    SameOutcome (compileSource files { options with folding := false } source)
      (compileSource files { options with folding := true } source) := by
  rw [compileSource_eq, compileSource_eq]
  unfold Options.nodes at hnodes
  obtain ⟨e, hread, hread'⟩ | ⟨program, hread, hread'⟩ := readUnit_folding source
  · rw [hread, hread']
    exact .error (.same e)
  · rw [hread] at hnodes
    rw [hread, hread']
    have hparts := node_folding options.limit options.base program hnodes
    have hends : folding.Ends (Pushed (fun _ _ => False) (fun _ _ => True) {} {})
        (statement (node ({ options with folding := false }.env .standard files) program) {})
        (statement (node ({ options with folding := true }.env .standard files) program.fold) {}) :=
      folding_lawful.statement hparts.gen {} {} ⟨⟨.nil, .nil⟩, .nil⟩
    dsimp only
    generalize statement (node ({ options with folding := false }.env .standard files) program) {} = r
      at hends
    generalize statement (node ({ options with folding := true }.env .standard files)
      program.fold) {} = r' at hends
    cases hends with
    | ok ht _ => exact .ok _ _
    | error hfault => exact .error (hfault.error source)
    | excused hfalse => exact hfalse.elim

/-! ## Where folding matters -/

namespace Node

theorem carrier_fold (n : Node) : n.fold.carrier = n.carrier.fold := by
  induction n using Node.induction with
  | assign l t v _ ih => exact ih
  | binary l op a b _ _ =>
    obtain hsame | ⟨_, _, _, -, -, -, hliteral, -⟩ := fold_cases (.binary l op a b)
    · rw [hsame]
      exact hsame.symm
    · obtain ⟨k, v, heq⟩ | ⟨k, v, heq⟩ := isLiteral_cases hliteral
      · rw [heq]
        exact heq.symm
      · rw [heq]
        exact heq.symm
  | _ => rfl

/-- Folding does not matter within a sum of literals. -/
theorem foldMatters_of_isLiteral {n : Node} (h : n.fold.isLiteral = true)
    (included : String → List Node) : ∀ m ∈ n.spliced included, m.foldMatters = false := by
  induction n using Node.induction with
  | integer l v => exact List.forall_mem_singleton.2 rfl
  | string l v => exact List.forall_mem_singleton.2 rfl
  | binary l op a b iha ihb =>
    obtain hsame | ⟨_, _, _, hn, ha, hb, -⟩ := fold_cases (.binary l op a b)
    · rw [hsame] at h
      cases h
    · cases hn
      exact List.forall_mem_cons.2 ⟨rfl, List.forall_mem_append.2 ⟨iha ha, ihb hb⟩⟩
  | _ => cases h

end Node

/-- What a literal leaves is neither a place nor a variable, also when it has been assigned. -/
theorem head_of_literal {env : Env} {n : Node} (h : n.carrier.isLiteral = true) {s t : State}
    (hrun : node env n s = .ok () t) :
    ∃ o rest, t.stack = o :: rest ∧ ((∃ v, o = .integer v) ∨ ∃ text, o = .text text) := by
  induction n using Node.induction generalizing s t with
  | integer l v =>
    cases hrun
    exact ⟨_, _, rfl, .inl ⟨v, rfl⟩⟩
  | string l v =>
    cases hrun
    exact ⟨_, _, rfl, .inr ⟨_, rfl⟩⟩
  | assign l target value _ ih =>
    rw [node] at hrun
    obtain ⟨v, s₁, place, s₂, hvalue, -, rfl⟩ := lowerAssign_eq_ok hrun
    obtain ⟨o, s₃, heval, hderef⟩ := bind_eq_ok_iff.1 hvalue
    obtain ⟨t', rest, hgen, hstack, -⟩ := eval_eq_ok heval
    obtain ⟨o', rest', hstack', hconstant⟩ := ih h hgen
    obtain rfl : o = o' := (List.cons.inj (hstack.symm.trans hstack')).1
    refine ⟨v, s₂.stack, rfl, ?_⟩
    obtain ⟨k, rfl⟩ | ⟨text, rfl⟩ := hconstant
    · cases hderef
      exact .inl ⟨k, rfl⟩
    · cases hderef
      exact .inr ⟨text, rfl⟩
  | _ => cases h

/-- A literal cannot be stepped. -/
theorem not_succeeds_step {env : Env} {t : Node} (h : t.carrier.isLiteral = true) (l : Nat)
    (op : StepOp) (leading : Bool) : ¬Succeeds (node env (.step l op leading t)) := by
  rintro ⟨s, u, s', hrun⟩
  rw [node] at hrun
  obtain ⟨o, s₁, place, current, s₂, heval, htarget, -⟩ := lowerStep_eq_ok hrun
  obtain ⟨t', rest, hgen, hstack, -⟩ := eval_eq_ok heval
  obtain ⟨o', rest', hstack', hconstant⟩ := head_of_literal h hgen
  obtain rfl : o = o' := (List.cons.inj (hstack.symm.trans hstack')).1
  obtain ⟨k, rfl⟩ | ⟨text, rfl⟩ := hconstant
  · obtain ⟨_, ho, -⟩ | ⟨_, _, ho, -⟩ := htarget
    · cases ho
    · cases ho
  · obtain ⟨_, ho, -⟩ | ⟨_, _, ho, -⟩ := htarget
    · cases ho
    · cases ho

theorem Node.name?_eq_some {n : Node} {x : String} (h : n.name? = some x) :
    ∃ l y, n = .identifier l y := by
  cases n with
  | identifier l y => exact ⟨l, y, rfl⟩
  | _ => cases h

theorem Node.ordinary_fold {n : Node}
    (h : ∀ l f args, n = .call l f args → isInclude f = false) :
    ∀ l f args, n.fold = .call l f args → isInclude f = false := by
  intro l f args hfold
  obtain hsame | ⟨_, _, _, -, -, -, hliteral, -⟩ := Node.fold_cases n
  · rw [hsame] at hfold
    cases n with
    | call k g parts =>
      cases hfold
      rw [isInclude_eq, ← (Node.heads_fold g).name?, ← isInclude_eq]
      exact h _ g parts rfl
    | _ => cases hfold
  · rw [hfold] at hliteral
    cases hliteral

/-- Folding does not matter in a node that is not an include and can be generated folded. -/
theorem foldMatters_of_succeeds {env : Env} {n : Node}
    (hn : ∀ l f args, n = .call l f args → isInclude f = false) (h : Succeeds (node env n.fold)) :
    n.foldMatters = false := by
  cases n with
  | step l op leading t =>
    refine Bool.eq_false_iff.2 fun (haway : t.carrier.foldsAway = true) => ?_
    have hliteral : t.fold.carrier.isLiteral = true := by
      rw [Node.carrier_fold]
      simp only [Node.foldsAway, Bool.and_eq_true] at haway
      exact haway.2
    exact not_succeeds_step hliteral l op leading h
  | call l f args =>
    unfold Node.foldMatters
    split
    next hcall =>
      cases hcall
      rw [hn l f _ rfl]
      rfl
    next hcall => cases hcall
    next => rfl
  | _ => rfl

/-- If a node can be generated both with and without folding, then folding matters nowhere below it,
in any unit. -/
theorem foldMatters_below (depth : Nat) (base : String) (n : Node)
    (h : Succeeds (node (({ options with folding := false }.setup files).env depth base) n))
    (h' : Succeeds (node (({ options with folding := true }.setup files).env depth base) n.fold)) :
    ∀ m ∈ ({ options with folding := false }.setup files).nodes depth base n,
      m.foldMatters = false := by
  induction depth using Nat.strongRecOn generalizing base n with
  | ind depth ihdepth =>
    induction n using Node.induction_children with
    | h n ih =>
      obtain ⟨included, hspliced⟩ :=
        ({ options with folding := false }.setup files).nodes_eq_spliced depth base
      by_cases hcall : ∃ l f args, n = .call l f args ∧ isInclude f = true
      · obtain ⟨l, f, args, rfl, hf⟩ := hcall
        have hf' : isInclude f.fold = true := by
          rw [← hf, isInclude_eq, isInclude_eq, (Node.heads_fold f).name?]
        obtain ⟨below, k, path, source, program, rfl, rfl, hsource, hread, hprogram⟩ := h.includes hf
        obtain ⟨_, _, _, source', program', hdepth, hargs, hsource', hread', hprogram'⟩ :=
          Succeeds.includes hf' h'
        obtain rfl := Nat.succ.inj hdepth
        cases hargs
        obtain rfl : source = source' := Except.ok.inj (hsource.symm.trans hsource')
        obtain ⟨e, hfailed, -⟩ | ⟨program₁, hread₁, hread₁'⟩ := readUnit_folding source
        · cases hfailed.symm.trans hread
        · obtain rfl : program₁ = program := Except.ok.inj (hread₁.symm.trans hread)
          obtain rfl : program₁.fold = program' := Except.ok.inj (hread₁'.symm.trans hread')
          rw [Setup.nodes_include hf hsource hread]
          refine List.forall_mem_cons.2
            ⟨by simp [Node.foldMatters, Node.foldsAway, Node.construct], ?_⟩
          exact ihdepth below (Nat.lt_succ_self below) _ program₁ hprogram hprogram'
      · have hordinary : ∀ l f args, n = .call l f args → isInclude f = false :=
          fun l f args hn => Bool.eq_false_iff.2 fun hf => hcall ⟨l, f, args, hn, hf⟩
        rw [hspliced] at ih ⊢
        cases haway : n.foldsAway with
        | true =>
          simp only [Node.foldsAway, Bool.and_eq_true] at haway
          exact Node.foldMatters_of_isLiteral haway.2 included
        | false =>
          rw [Node.spliced_eq_cons hordinary]
          refine List.forall_mem_cons.2 ⟨foldMatters_of_succeeds hordinary h', fun x hx => ?_⟩
          obtain ⟨m, hm, hx⟩ := List.mem_flatMap.1 hx
          have hidentifier : (∃ l y, m = .identifier l y) → x.foldMatters = false := by
            rintro ⟨l, y, rfl⟩
            rw [List.mem_singleton.1 hx]
            rfl
          have hm' : m.fold ∈ n.fold.children := by
            rw [Node.fold_of_not_foldsAway haway, Node.children_mapChildren]
            exact List.mem_map.2 ⟨m, hm, rfl⟩
          obtain hname | hchild := h.child hordinary hm
          · exact hidentifier hname
          obtain ⟨l, y, hname⟩ | hchild' := h'.child (Node.ordinary_fold hordinary) hm'
          · have hy : m.name? = some y := by
              rw [(Node.heads_fold m).name?, hname]
              rfl
            exact hidentifier (Node.name?_eq_some hy)
          · exact ih m hm hchild hchild' x hx

/-- If a source is accepted both with and without folding, then folding matters nowhere in it. -/
theorem foldMatters_of_accepted {source script script' : String}
    (h : compileSource files { options with folding := false } source = .ok script)
    (h' : compileSource files { options with folding := true } source = .ok script') :
    ∀ n ∈ { options with folding := false }.nodes files source, n.foldMatters = false := by
  obtain ⟨program, t, hread, hgenerate, -⟩ := compileSource_eq_ok h
  obtain ⟨program', t', hread', hgenerate', -⟩ := compileSource_eq_ok h'
  obtain ⟨e, hfailed, -⟩ | ⟨program₁, hread₁, hread₁'⟩ := readUnit_folding source
  · cases hfailed.symm.trans hread
  obtain rfl : program₁ = program := Except.ok.inj (hread₁.symm.trans hread)
  obtain rfl : program₁.fold = program' := Except.ok.inj (hread₁'.symm.trans hread')
  have hruns : Succeeds (statement (node _ program₁)) := ⟨_, _, _, generate_eq_ok hgenerate⟩
  have hruns' : Succeeds (statement (node _ program₁.fold)) := ⟨_, _, _, generate_eq_ok hgenerate'⟩
  unfold Options.nodes
  rw [hread]
  exact foldMatters_below options.limit options.base program₁ hruns.statement hruns'.statement

/-! ## The switch -/

/-- The switch does not change which sources are accepted, nor how the others are refused, if no node
of any unit includes or steps a sum of literals; and a source with such a node is refused under one
setting at least, so that it is accepted under both only if it has none. -/
theorem fold_switch_keeps_outcome (files : String → Except IoError String) (options : Options)
    (source : String) :
    let unfolded := compileSource files { options with folding := false } source
    let folded := compileSource files { options with folding := true } source
    let nodes := { options with folding := false }.nodes files source
    ((∀ n ∈ nodes, n.foldMatters = false) → SameOutcome unfolded folded) ∧
      ((∃ script, unfolded = .ok script) → (∃ script, folded = .ok script) →
        ∀ n ∈ nodes, n.foldMatters = false) := by
  intro unfolded folded nodes
  refine ⟨compileSource_folding source, ?_⟩
  rintro ⟨script, h⟩ ⟨script', h'⟩
  exact foldMatters_of_accepted h h'

/-- A file in which a sum of literals is stored in a variable, and the variable stepped. -/
def sumTree : FileTree := [(["a.bc"], .text "x = 1 + 2; x++;")]

/-- Sums in an included file and around its include are stored and joined, never stepped. -/
theorem stored_sums_accepted_alike :
    let source := "include(\"a.bc\"); y = \"n\" + 3 + x;"
    (∀ n ∈ Options.nodes { folding := false } sumTree.read source, n.foldMatters = false) ∧
      SameOutcome (compileSource sumTree.read { folding := false } source)
        (compileSource sumTree.read {} source) := by
  intro source
  have hnodes : ∀ n ∈ Options.nodes { folding := false } sumTree.read source,
      n.foldMatters = false := by
    decide +kernel
  exact ⟨hnodes, (fold_switch_keeps_outcome sumTree.read {} source).1 hnodes⟩

/-- Without folding, the temporary that holds a sum is stepped as if it were a variable of the source,
and with folding that step is refused. The path of an include may be a sum only with folding. -/
theorem fold_switch_changes_acceptance :
    (compileSource sumTree.read { folding := false } "++(2 + 3)").isOk = true ∧
    compileSource sumTree.read {} "++(2 + 3)" =
      .error (.located (Location.ofOffset "++(2 + 3)" 5) (.notAssignable (.construct .integer))) ∧
    compileSource sumTree.read { folding := false } "include(\"a.\" + \"bc\");" =
      .error (.located (Location.ofOffset "include(\"a.\" + \"bc\");" 13)
        (.includeArgument .notALiteral)) ∧
    (compileSource sumTree.read {} "include(\"a.\" + \"bc\");").isOk = true := by
  decide +kernel

end BatchCompiler
