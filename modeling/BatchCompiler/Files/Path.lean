/-
# BatchCompiler.Files.Path -- paths, as they are written

A path is a text, and what is shown of it is what was written. Repeated slashes and dots inside it
are kept; they count only when the parent of a path is asked for.
-/

namespace BatchCompiler.Path

/-! ## Segments -/

/-- The pieces of a path between its slashes. -/
def segments : List Char → List (List Char)
  | [] => [[]]
  | c :: cs =>
    if c = '/' then [] :: segments cs
    else
      match segments cs with
      | [] => [[c]]
      | s :: rest => (c :: s) :: rest

/-- The pieces with slashes between them. -/
def unsegment : List (List Char) → List Char
  | [] => []
  | [s] => s
  | s :: rest => s ++ '/' :: unsegment rest

theorem segments_ne_nil (cs : List Char) : segments cs ≠ [] := by
  cases cs with
  | nil => simp [segments]
  | cons c cs =>
    rw [segments]
    split
    · simp
    · split <;> simp

/-- Cutting a path at its slashes loses nothing. -/
theorem unsegment_segments (cs : List Char) : unsegment (segments cs) = cs := by
  induction cs with
  | nil => rfl
  | cons c cs ih =>
    rw [segments]
    split
    next h =>
      subst h
      have hne := segments_ne_nil cs
      cases hs : segments cs with
      | nil => exact absurd hs hne
      | cons s rest => rw [hs] at ih; simp [unsegment, ih]
    next h =>
      split
      next hs => exact absurd hs (segments_ne_nil cs)
      next s rest hs =>
        rw [hs] at ih
        cases rest with
        | nil => simpa [unsegment] using ih
        | cons t rest => simpa [unsegment] using ih

/-- The piece names nothing: it is empty or a dot. -/
def isIdle (segment : List Char) : Bool := segment = [] ∨ segment = ['.']

/-- The pieces without the idle ones at the end. -/
def trimIdle (segments : List (List Char)) : List (List Char) :=
  (segments.reverse.dropWhile isIdle).reverse

/-- The pieces without the last one that names something and the idle ones around it. -/
def dropLastName (segments : List (List Char)) : List (List Char) :=
  trimIdle (trimIdle segments).dropLast

/-! ## Operations -/

/-- The path starts at the root of the file system. -/
def isAbsolute (path : String) : Bool := path.toList.head? = some '/'

/-- The path `path`, seen from the directory `base`. -/
def join (base path : String) : String :=
  if isAbsolute path ∨ base = "" then path
  else if base.toList.getLast? = some '/' then base ++ path
  else base ++ "/" ++ path

/-- The directory that holds what the path names. A path that names nothing has none. -/
def parent? (path : String) : Option String :=
  match segments path.toList with
  | [] :: body =>
    if trimIdle body = [] then none
    else some (String.ofList ('/' :: unsegment (dropLastName body)))
  | ['.'] :: body =>
    if trimIdle body = [] then some ""
    else some (String.ofList (unsegment (['.'] :: dropLastName body)))
  | body => some (String.ofList (unsegment (dropLastName body)))

/-- The directory against which a unit read from `path` resolves the paths in it. -/
def directory (base path : String) : String := (parent? path).getD base

end BatchCompiler.Path
