/-
# BatchCompiler.Files.Tree -- a working directory and the files in it

A tree holds entries under the names that lead to them from the working directory. A row of `..`
leads to a directory above it. Of the root of the file system nothing is known, and nothing is found
in it.
-/

import BatchCompiler.Files.IoError
import BatchCompiler.Files.Path

namespace BatchCompiler

/-- What a path can name. -/
inductive Entry where
  /-- A file that holds text. -/
  | text (contents : String)
  /-- A file whose bytes are no text. -/
  | binary
  | directory
  deriving DecidableEq, Repr

/-- The file with these bytes. -/
def Entry.ofBytes (bytes : ByteArray) : Entry :=
  match String.fromUTF8? bytes with
  | some contents => .text contents
  | none => .binary

/-- Entries, each under the names that lead to it. -/
abbrev FileTree := List (List String × Entry)

namespace FileTree

/-! ## Entries -/

/-- The names lead to the working directory or to one above it. -/
def isAbove (names : List String) : Bool := names.all (· = "..")

/-- The directory in which the one under these names lies. -/
def up (names : List String) : List String :=
  if isAbove names then names ++ [".."] else names.dropLast

/-- What the names lead to. -/
def get? (tree : FileTree) (names : List String) : Option Entry :=
  if isAbove names then some .directory else tree.lookup names

/-- The tree with an entry put under these names. -/
def put (names : List String) (entry : Entry) : FileTree → FileTree
  | [] => [(names, entry)]
  | (other, old) :: rest =>
    if other = names then (names, entry) :: rest else (other, old) :: put names entry rest

/-- What is put under some names is found there, and nothing else changes. -/
theorem get?_put (tree : FileTree) (names other : List String) (entry : Entry)
    (h : ¬ isAbove other) :
    (put names entry tree).get? other = if other = names then some entry else tree.get? other := by
  unfold get?
  rw [if_neg h, if_neg h]
  induction tree with
  | nil =>
    by_cases ho : other = names
    · simp [put, ho]
    · simp [put, List.lookup_cons, ho, beq_eq_false_iff_ne.2 ho]
  | cons first rest ih =>
    obtain ⟨x, old⟩ := first
    simp only [put]
    by_cases hx : x = names
    · subst hx
      by_cases ho : other = x
      · simp [ho]
      · simp [List.lookup_cons, ho, beq_eq_false_iff_ne.2 ho]
    · by_cases ho : other = x
      · subst ho
        simp [hx]
      · simp [hx, List.lookup_cons, beq_eq_false_iff_ne.2 ho, ih]

/-! ## Walking -/

/-- Where a walk along a path has come to. -/
inductive Place where
  | directory (names : List String)
  /-- A file, with its text if it holds text. -/
  | file (contents : Option String)
  /-- The root of the file system. -/
  | root
  deriving DecidableEq, Repr

/-- The greatest number of bytes in the name of an entry. -/
def maxNameSize : Nat := 255

/-- The greatest number of bytes in a path. -/
def maxPathSize : Nat := 4095

/-- One step of a walk. -/
def step (tree : FileTree) (place : Place) (segment : List Char) : Except IoError Place :=
  match place with
  | .file _ => .error .notADirectory
  | .root =>
    if Path.isIdle segment ∨ segment = ['.', '.'] then .ok .root
    else if (String.ofList segment).utf8ByteSize > maxNameSize then .error .nameTooLong
    else .error .notFound
  | .directory names =>
    if Path.isIdle segment then .ok place
    else if segment = ['.', '.'] then .ok (.directory (up names))
    else if (String.ofList segment).utf8ByteSize > maxNameSize then .error .nameTooLong
    else
      let below := names ++ [String.ofList segment]
      match tree.get? below with
      | some (.text contents) => .ok (.file (some contents))
      | some .binary => .ok (.file none)
      | some .directory => .ok (.directory below)
      | none => .error .notFound

/-- Where a row of steps leads. -/
def walk (tree : FileTree) : Place → List (List Char) → Except IoError Place
  | place, [] => .ok place
  | place, segment :: rest => do tree.walk (← tree.step place segment) rest

/-- Where a walk along the path starts. -/
def start (path : String) : Place := if Path.isAbsolute path then .root else .directory []

/-- Refuses a path that names nothing in any tree. -/
def checkPath (path : String) : Except IoError Unit :=
  if '\x00' ∈ path.toList then .error .nulInPath
  else if path = "" then .error .notFound
  else if path.utf8ByteSize > maxPathSize then .error .nameTooLong
  else .ok ()

/-- Where a row of steps leads when the directories that are missing on the way are made. -/
def makeDirectories (tree : FileTree) (place : Place) :
    List (List Char) → Except IoError (FileTree × Place)
  | [] => .ok (tree, place)
  | segment :: rest =>
    match place, tree.step place segment with
    | .directory names, .error .notFound =>
      let below := names ++ [String.ofList segment]
      makeDirectories (tree.put below .directory) (.directory below) rest
    | _, .error e => .error e
    | _, .ok next => makeDirectories tree next rest

/-! ## Filling, reading and writing -/

/-- The tree with an entry at the path, and with the directories on the way to it. -/
def insert (tree : FileTree) (path : String) (entry : Entry) : Except IoError FileTree := do
  let steps := Path.segments path.toList
  if entry = .directory then return (← tree.makeDirectories (start path) steps).1
  match ← tree.makeDirectories (start path) steps.dropLast, steps.getLast? with
  | (tree, .directory names), some last => return tree.put (names ++ [String.ofList last]) entry
  | _, _ => throw .notADirectory

/-- The text of the file at the path. -/
def read (tree : FileTree) (path : String) : Except IoError String := do
  checkPath path
  match ← tree.walk (start path) (Path.segments path.toList) with
  | .file (some contents) => return contents
  | .file none => throw .notText
  | _ => throw .isDirectory

/-- The tree with `text` written to the file at the path, which need not exist yet. What is written
to the root of the file system leaves the tree as it is. -/
def write (tree : FileTree) (path text : String) : Except IoError FileTree := do
  checkPath path
  let steps := Path.segments path.toList
  let named := (steps.reverse.dropWhile (· = [])).reverse
  match named.getLast? with
  | none => throw .isDirectory
  | some last =>
    let place ← tree.walk (start path) named.dropLast
    if let .file _ := place then throw .notADirectory
    if named.length < steps.length ∨ Path.isIdle last ∨ last = ['.', '.'] then throw .isDirectory
    if (String.ofList last).utf8ByteSize > maxNameSize then throw .nameTooLong
    match place with
    | .directory names =>
      let below := names ++ [String.ofList last]
      if tree.get? below = some .directory then throw .isDirectory
      return tree.put below (.text text)
    | _ => return tree

/-- The texts of `after` below the working directory that `before` does not have with the same
contents. -/
def changes (before after : FileTree) : List (String × String) :=
  after.filterMap fun (names, entry) =>
    match entry with
    | .text contents =>
      if names.head? = some ".." ∨ before.get? names = some entry then none
      else some ("/".intercalate names, contents)
    | _ => none

end FileTree

end BatchCompiler
