/-
# BatchCompiler.Proofs.NormalForm -- what folding keeps, and how far it goes

Folding is one pass from the leaves up. Whatever nodes mean, as long as the meaning of a node hangs
on nothing but the node's shape and on what its children mean, and a sum of literals means the
literal that it is folded to, the pass keeps the meaning of every tree (`folding_keeps_meaning`). The
pass also leaves nothing behind: a sum of two literals that is still there has no literal for its
value, so a second pass finds nothing to do (`folding_reaches_normal_form`).

Both rest on one case analysis, `fold_inversion`. Either a node stays what it is, with its children
folded, or it is a sum whose operands have become literals, and it becomes the literal of their sum.
-/

import Mathlib
import BatchCompiler.Proofs.Folding

namespace BatchCompiler

/-! ## Nodes by shape and children -/

/-- What a node is, apart from where it stands and from its children. A branch says how many of its
children belong to the first body. -/
inductive Shape where
  | program
  | integer (value : Int)
  | string (value : String)
  | identifier (name : String)
  | binary (op : BinaryOp)
  | and
  | or
  | assign
  | branch (thenCount : Nat)
  | ternary
  | loop
  | function (name : Option String) (params : List String)
  | call
  | ret
  | step (op : StepOp) (leading : Bool)
  | array
  | index
  deriving DecidableEq, Repr

/-- The node of this shape with these children. A shape that takes another number of children gets
an empty program. -/
def Shape.build (loc : Nat) : Shape → List Node → Node
  | program, body => .program loc body
  | integer v, [] => .integer loc v
  | string s, [] => .string loc s
  | identifier x, [] => .identifier loc x
  | binary op, [a, b] => .binary loc op a b
  | and, [a, b] => .and loc a b
  | or, [a, b] => .or loc a b
  | assign, [t, v] => .assign loc t v
  | branch count, c :: rest => .branch loc c (rest.take count) (rest.drop count)
  | ternary, [c, t, e] => .ternary loc c t e
  | loop, c :: body => .loop loc c body
  | function x ps, body => .function loc x ps body
  | call, f :: args => .call loc f args
  | ret, [v] => .ret loc v
  | step op leading, [t] => .step loc op leading t
  | array, es => .array loc es
  | index, [b, i] => .index loc b i
  | _, _ => .program loc []

namespace Node

/-- The node's shape. -/
def shape : Node → Shape
  | program .. => .program
  | integer _ v => .integer v
  | string _ s => .string s
  | identifier _ x => .identifier x
  | binary _ op _ _ => .binary op
  | and .. => .and
  | or .. => .or
  | assign .. => .assign
  | branch _ _ t _ => .branch t.length
  | ternary .. => .ternary
  | loop .. => .loop
  | function _ x ps _ => .function x ps
  | call .. => .call
  | ret .. => .ret
  | step _ op leading _ => .step op leading
  | array .. => .array
  | index .. => .index

/-- Nothing else belongs to a node than its offset, its shape and its children. -/
theorem build_shape (n : Node) : n.shape.build n.loc n.children = n := by
  cases n <;> simp [shape, children, loc, Shape.build]

theorem eq_of_shape {n m : Node} (hloc : n.loc = m.loc) (hshape : n.shape = m.shape)
    (hchildren : n.children = m.children) : n = m := by
  rw [← build_shape n, ← build_shape m, hloc, hshape, hchildren]

@[simp] theorem shape_mapChildren (f : Node → Node) (n : Node) :
    (n.mapChildren f).shape = n.shape := by
  cases n <;> simp [mapChildren, shape]

theorem eq_binary_of_shape {n : Node} {op : BinaryOp} (h : n.shape = .binary op) :
    ∃ a b, n = .binary n.loc op a b := by
  cases n with
  | binary l op' a b =>
    cases h
    exact ⟨a, b, rfl⟩
  | _ => cases h

theorem sizeOf_lt_of_mem_children {n c : Node} (h : c ∈ n.children) : sizeOf c < sizeOf n := by
  have hlist : ∀ {ns : List Node}, c ∈ ns → sizeOf c < sizeOf ns := List.sizeOf_lt_of_mem
  cases n <;> simp only [children, List.mem_cons, List.mem_append, List.not_mem_nil, or_false] at h
  all_goals grind

/-! ## Recursion over a tree -/

variable {D : Type*}

/-- What a node means if `combine` gives the meaning of a node from its shape and from what its
children mean. -/
def interpret (combine : Shape → List D → D) (n : Node) : D :=
  combine n.shape (n.children.attach.map fun c => interpret combine c.1)
termination_by sizeOf n
decreasing_by exact sizeOf_lt_of_mem_children c.2

theorem interpret_eq (combine : Shape → List D → D) (n : Node) :
    n.interpret combine = combine n.shape (n.children.map (interpret combine)) := by
  rw [interpret]
  simp

/-- The number of nodes of a tree. -/
def size : Node → Nat := interpret fun _ sizes => 1 + sizes.sum

theorem size_eq (n : Node) : n.size = 1 + (n.children.map size).sum := interpret_eq _ n

/-- The node is in the tree. -/
inductive OccursIn (m : Node) : Node → Prop
  | here : OccursIn m m
  | inside {n c : Node} : c ∈ n.children → OccursIn m c → OccursIn m n

/-! ## What folding does to one node -/

/-- The literal at `loc` that the sum of two literals is. Two integers have one only if their sum is
an integer of the language. -/
inductive LiteralSum (loc : Nat) : Node → Node → Node → Prop
  | integers {la lb : Nat} {a b : Int} : fitsInteger (a + b) = true →
      LiteralSum loc (integer la a) (integer lb b) (integer loc (a + b))
  | integerString {la lb : Nat} (a : Int) (b : String) :
      LiteralSum loc (integer la a) (string lb b) (string loc (toString a ++ b))
  | stringInteger {la lb : Nat} (a : String) (b : Int) :
      LiteralSum loc (string la a) (integer lb b) (string loc (a ++ toString b))
  | strings {la lb : Nat} (a b : String) :
      LiteralSum loc (string la a) (string lb b) (string loc (a ++ b))

variable {l : Nat} {a b m n : Node}

theorem LiteralSum.isLiteral (h : LiteralSum l a b m) :
    a.isLiteral = true ∧ b.isLiteral = true ∧ m.isLiteral = true := by
  cases h <;> exact ⟨rfl, rfl, rfl⟩

/-- Two integer literals whose sum is no integer of the language. -/
def Overflows (a b : Node) : Prop :=
  ∃ la v lb w, a = .integer la v ∧ b = .integer lb w ∧ fitsInteger (v + w) = false

theorem LiteralSum.not_overflows (h : LiteralSum l a b m) : ¬ Overflows a b := by
  rintro ⟨la, v, lb, w, rfl, rfl, hlarge⟩
  cases h with
  | integers hfits =>
    rw [hlarge] at hfits
    cases hfits

theorem foldedSum_inversion (l : Nat) (a b : Node) :
    (foldedSum l a b = .binary l .add a b ∧
      (a.isLiteral = true → b.isLiteral = true → Overflows a b)) ∨
    LiteralSum l a b (foldedSum l a b) := by
  unfold foldedSum
  split
  next la v lb w =>
    split
    next hfits => exact .inr (.integers hfits)
    next hlarge => exact .inl ⟨rfl, fun _ _ => ⟨la, v, lb, w, rfl, rfl, by simpa using hlarge⟩⟩
  next la v lb w => exact .inr (.integerString v w)
  next la v lb w => exact .inr (.stringInteger v w)
  next la v lb w => exact .inr (.strings v w)
  next hints hintStr hstrInt hstrs =>
    refine .inl ⟨rfl, fun ha hb => ?_⟩
    obtain ⟨la, v, rfl⟩ | ⟨la, v, rfl⟩ := isLiteral_cases ha
    · obtain ⟨lb, w, rfl⟩ | ⟨lb, w, rfl⟩ := isLiteral_cases hb
      · exact absurd rfl (hints la v lb w rfl)
      · exact absurd rfl (hintStr la v lb w rfl)
    · obtain ⟨lb, w, rfl⟩ | ⟨lb, w, rfl⟩ := isLiteral_cases hb
      · exact absurd rfl (hstrInt la v lb w rfl)
      · exact absurd rfl (hstrs la v lb w rfl)

/-- The node stays what it is, with its children folded. -/
structure Kept (n : Node) : Prop where
  loc : n.fold.loc = n.loc
  shape : n.fold.shape = n.shape
  children : n.fold.children = n.children.map fold
  /-- If it is a sum of what has become literals, then these have no literal for their sum. -/
  overflows : ∀ l a b, n = .binary l .add a b → a.fold.isLiteral = true → b.fold.isLiteral = true →
    Overflows a.fold b.fold

theorem Kept.of_fold_eq (h : n.fold = n.mapChildren fold)
    (hsum : ∀ l a b, n = .binary l .add a b → a.fold.isLiteral = true → b.fold.isLiteral = true →
      Overflows a.fold b.fold) : Kept n where
  loc := by rw [h, loc_mapChildren]
  shape := by rw [h, shape_mapChildren]
  children := by rw [h, children_mapChildren]
  overflows := hsum

/-- A node is kept, or it is a sum whose operands have become literals and it becomes the literal of
their sum. -/
theorem fold_inversion (n : Node) :
    Kept n ∨ ∃ l a b, n = .binary l .add a b ∧ LiteralSum l a.fold b.fold n.fold := by
  by_cases hadd : ∃ l a b, n = .binary l .add a b
  · obtain ⟨l, a, b, rfl⟩ := hadd
    obtain ⟨hsame, hlarge⟩ | hsum := foldedSum_inversion l a.fold b.fold
    · refine .inl (.of_fold_eq hsame ?_)
      rintro _ _ _ ⟨⟩
      exact hlarge
    · exact .inr ⟨l, a, b, rfl, hsum⟩
  · refine .inl (.of_fold_eq ?_ fun l a b hn => absurd ⟨l, a, b, hn⟩ hadd)
    rw [fold, optimize_eq]
    unfold rewriteRoot
    split
    next l a b heq =>
      have hshape : n.shape = .binary .add := by rw [← shape_mapChildren fold, heq, shape]
      obtain ⟨a, b, hn⟩ := eq_binary_of_shape hshape
      exact absurd ⟨_, a, b, hn⟩ hadd
    next => rfl

/-! ## Meaning -/

/-- The tree `m` is the tree `n` with some sums of literals folded: every other node has kept its
offset, its shape and its children, which are folded in their turn. -/
inductive FoldsTo : Node → Node → Prop
  | kept {n m : Node} : m.loc = n.loc → m.shape = n.shape →
      List.Forall₂ FoldsTo n.children m.children → FoldsTo n m
  | folded {l : Nat} {a b a' b' m : Node} : FoldsTo a a' → FoldsTo b b' → LiteralSum l a' b' m →
      FoldsTo (.binary l .add a b) m

theorem foldsTo_fold (n : Node) : n.FoldsTo n.fold := by
  induction n using induction_children with
  | h n ih =>
    obtain hkept | ⟨l, a, b, rfl, hsum⟩ := fold_inversion n
    · refine .kept hkept.loc hkept.shape ?_
      rw [hkept.children, List.forall₂_map_right_iff]
      exact List.forall₂_same.2 ih
    · exact .folded (ih a (.head _)) (ih b (.tail _ (.head _))) hsum

end Node

/-- A semantics of nodes: what a node means is a function of its shape and of what its children
mean, the integers and the strings are among the meanings, and `+` is the sum of integers, where that
is an integer of the language, and puts the spellings of two literals together if one of them is a
string. -/
structure Semantics (D : Type*) where
  meaning : Node → D
  combine : Shape → List D → D
  meaning_eq : ∀ n, meaning n = combine n.shape (n.children.map meaning)
  integer : Int → D
  string : String → D
  combine_integer : ∀ v, combine (.integer v) [] = integer v
  combine_string : ∀ s, combine (.string s) [] = string s
  add_integers : ∀ a b, fitsInteger (a + b) = true →
    combine (.binary .add) [integer a, integer b] = integer (a + b)
  add_integer_string : ∀ a b,
    combine (.binary .add) [integer a, string b] = string (toString a ++ b)
  add_string_integer : ∀ a b,
    combine (.binary .add) [string a, integer b] = string (a ++ toString b)
  add_strings : ∀ a b, combine (.binary .add) [string a, string b] = string (a ++ b)

namespace Semantics

variable {D : Type*} (sem : Semantics D)

theorem meaning_integer (l : Nat) (v : Int) : sem.meaning (.integer l v) = sem.integer v :=
  (sem.meaning_eq _).trans (sem.combine_integer v)

theorem meaning_string (l : Nat) (s : String) : sem.meaning (.string l s) = sem.string s :=
  (sem.meaning_eq _).trans (sem.combine_string s)

/-- A sum of literals means the same as its literal. -/
theorem meaning_literalSum {l : Nat} {a b m : Node} (h : Node.LiteralSum l a b m) :
    sem.combine (.binary .add) [sem.meaning a, sem.meaning b] = sem.meaning m := by
  cases h with
  | integers hfits =>
    rw [meaning_integer, meaning_integer, meaning_integer, sem.add_integers _ _ hfits]
  | integerString a b =>
    rw [meaning_integer, meaning_string, meaning_string, sem.add_integer_string]
  | stringInteger a b =>
    rw [meaning_string, meaning_integer, meaning_string, sem.add_string_integer]
  | strings a b => rw [meaning_string, meaning_string, meaning_string, sem.add_strings]

theorem meaning_fold (n : Node) : sem.meaning n.fold = sem.meaning n := by
  induction n using Node.induction_children with
  | h n ih =>
    obtain hkept | ⟨l, a, b, rfl, hsum⟩ := n.fold_inversion
    · calc sem.meaning n.fold
          = sem.combine n.shape (n.children.map fun c => sem.meaning c.fold) := by
            rw [sem.meaning_eq, hkept.shape, hkept.children, List.map_map]
            rfl
        _ = sem.combine n.shape (n.children.map sem.meaning) := by
            rw [List.map_congr_left ih]
        _ = sem.meaning n := (sem.meaning_eq n).symm
    · calc sem.meaning (Node.fold (.binary l .add a b))
          = sem.combine (.binary .add) [sem.meaning a.fold, sem.meaning b.fold] :=
            (sem.meaning_literalSum hsum).symm
        _ = sem.combine (.binary .add) [sem.meaning a, sem.meaning b] := by
            rw [ih a (.head _), ih b (.tail _ (.head _))]
        _ = sem.meaning (.binary l .add a b) := (sem.meaning_eq (.binary l .add a b)).symm

end Semantics

/-- **Folding keeps the meaning of every tree**, in every semantics in which a sum of literals means
its literal. It changes nothing but such sums, and nothing at all if it is switched off. -/
theorem folding_keeps_meaning {D : Type*} (sem : Semantics D) (n : Node) :
    sem.meaning (n.optimize true) = sem.meaning n ∧ n.FoldsTo (n.optimize true) ∧
      n.optimize false = n :=
  ⟨sem.meaning_fold n, n.foldsTo_fold, n.optimize_false⟩

/-- A value that literals can have. -/
inductive Value where
  | number (v : Int)
  | text (s : String)
  deriving DecidableEq, Repr

/-- The value as a text. -/
def Value.spelling : Value → String
  | number v => toString v
  | text s => s

/-- The sum of two values, if there is one. -/
def Value.add? : Value → Value → Option Value
  | number a, number b => if fitsInteger (a + b) then some (.number (a + b)) else none
  | a, b => some (.text (a.spelling ++ b.spelling))

/-- The value of a node of this shape if its children have these values: sums and conditionals are
worked out, other nodes have no value. -/
def Value.combine? : Shape → List (Option Value) → Option Value
  | .integer v, [] => some (.number v)
  | .string s, [] => some (.text s)
  | .binary .add, [some a, some b] => a.add? b
  | .ternary, [some c, t, e] => if c = .number 0 then e else t
  | _, _ => none

/-- The value of an expression of literals, sums and conditionals. -/
def Semantics.evaluation : Semantics (Option Value) where
  meaning := Node.interpret Value.combine?
  combine := Value.combine?
  meaning_eq := Node.interpret_eq _
  integer v := some (.number v)
  string s := some (.text s)
  combine_integer _ := rfl
  combine_string _ := rfl
  add_integers _ _ hfits := if_pos hfits
  add_integer_string _ _ := rfl
  add_string_integer _ _ := rfl
  add_strings _ _ := rfl

/-- The expression `0 ? 1 : "a" + (2 + 3)`. -/
def foldedConditional : Node :=
  .ternary 0 (.integer 0 0) (.integer 0 1)
    (.binary 0 .add (.string 0 "a") (.binary 0 .add (.integer 0 2) (.integer 0 3)))

theorem evaluation_survives_folding :
    foldedConditional.optimize true =
      .ternary 0 (.integer 0 0) (.integer 0 1) (.string 0 "a5") ∧
    Semantics.evaluation.meaning (foldedConditional.optimize true) = some (.text "a5") ∧
    Semantics.evaluation.meaning foldedConditional = some (.text "a5") := by
  have hfold : foldedConditional.optimize true =
      .ternary 0 (.integer 0 0) (.integer 0 1) (.string 0 "a5") := by rfl
  have hvalue : Semantics.evaluation.meaning (foldedConditional.optimize true) =
      some (.text "a5") := by
    rw [hfold]
    simp [Semantics.evaluation, Node.interpret_eq, Node.shape, Node.children, Value.combine?]
  refine ⟨hfold, hvalue, ?_⟩
  rw [← (folding_keeps_meaning Semantics.evaluation foldedConditional).1, hvalue]

/-! ## The normal form -/

namespace Node

/-- Every sum of two literals in the tree is one of integers whose sum is no integer of the
language. -/
def IsNormal (n : Node) : Prop :=
  ∀ l a b, (binary l .add a b).OccursIn n → a.isLiteral = true → b.isLiteral = true →
    Overflows a b

theorem IsNormal.child {n c : Node} (h : n.IsNormal) (hc : c ∈ n.children) : c.IsNormal :=
  fun l a b hoccurs => h l a b (.inside hc hoccurs)

theorem children_of_isLiteral {n : Node} (h : n.isLiteral = true) : n.children = [] := by
  obtain ⟨l, v, rfl⟩ | ⟨l, v, rfl⟩ := isLiteral_cases h
  · rfl
  · rfl

theorem isNormal_of_isLiteral {n : Node} (h : n.isLiteral = true) : n.IsNormal := by
  intro l a b hoccurs
  cases hoccurs with
  | here => cases h
  | inside hc _ =>
    rw [children_of_isLiteral h] at hc
    cases hc

/-- What is folded is normal. -/
theorem isNormal_fold (n : Node) : n.fold.IsNormal := by
  induction n using induction_children with
  | h n ih =>
    obtain hkept | ⟨l, a, b, -, hsum⟩ := fold_inversion n
    · intro l a b hoccurs ha hb
      generalize hm : n.fold = m at hoccurs
      cases hoccurs with
      | here =>
        -- The sum that is left was a sum before, of nodes that have become `a` and `b`.
        have hshape : n.shape = .binary .add := by rw [← hkept.shape, hm, shape]
        obtain ⟨x, y, hn⟩ := eq_binary_of_shape hshape
        have hchildren := hkept.children
        rw [hm, hn] at hchildren
        obtain ⟨rfl, rfl⟩ : a = x.fold ∧ b = y.fold := by simpa [children] using hchildren
        exact hkept.overflows _ x y hn ha hb
      | inside hc hoccurs =>
        rw [← hm, hkept.children, List.mem_map] at hc
        obtain ⟨x, hx, rfl⟩ := hc
        exact ih x hx l a b hoccurs ha hb
    · exact isNormal_of_isLiteral hsum.isLiteral.2.2

/-- There is nothing to fold in what is normal. -/
theorem IsNormal.fold_eq {n : Node} (h : n.IsNormal) : n.fold = n := by
  induction n using induction_children with
  | h n ih =>
    obtain hkept | ⟨l, a, b, rfl, hsum⟩ := fold_inversion n
    · refine eq_of_shape hkept.loc hkept.shape ?_
      rw [hkept.children]
      exact (List.map_congr_left fun c hc => ih c hc (h.child hc)).trans n.children.map_id
    · have ha : a.fold = a := ih a (.head _) (h.child (.head _))
      have hb : b.fold = b := ih b (.tail _ (.head _)) (h.child (.tail _ (.head _)))
      rw [ha, hb] at hsum
      exact absurd (h l a b .here hsum.isLiteral.1 hsum.isLiteral.2.1) hsum.not_overflows

theorem one_le_size (n : Node) : 1 ≤ n.size := by
  rw [size_eq]
  omega

theorem size_fold_le (n : Node) : n.fold.size ≤ n.size := by
  induction n using induction_children with
  | h n ih =>
    obtain hkept | ⟨l, a, b, -, hsum⟩ := fold_inversion n
    · have hsizes : ((n.children.map fold).map size).sum ≤ (n.children.map size).sum := by
        rw [List.map_map]
        exact List.sum_le_sum ih
      rw [size_eq, size_eq n, hkept.children]
      omega
    · calc n.fold.size
          = 1 := by rw [size_eq, children_of_isLiteral hsum.isLiteral.2.2]; rfl
        _ ≤ n.size := n.one_le_size

end Node

/-- **One pass of folding reaches the normal form**: a sum of two literals that is left is one of
integers whose sum is no integer of the language. So a second pass changes nothing; and no pass adds
nodes. -/
theorem folding_reaches_normal_form (n : Node) :
    (∀ l a b, (Node.binary l .add a b).OccursIn (n.optimize true) →
      a.isLiteral = true → b.isLiteral = true →
        ∃ la v lb w, a = .integer la v ∧ b = .integer lb w ∧ fitsInteger (v + w) = false) ∧
    (n.optimize true).optimize true = n.optimize true ∧
    (n.optimize true).size ≤ n.size :=
  ⟨n.isNormal_fold, n.isNormal_fold.fold_eq, n.size_fold_le⟩

end BatchCompiler
