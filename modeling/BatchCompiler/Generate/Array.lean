/-
# BatchCompiler.Generate.Array -- arrays

An array is a handle: a temporary that holds its own name. Its elements and its size are kept in
variables whose names start with that name, so that an element is a place which the script works out
from the handle.
-/

import BatchCompiler.Generate.Part

namespace BatchCompiler.Gen

/-- Writes the elements of an array, from the one with this number on. -/
def lowerElements (handle : Name) (first : Nat) : List Part → Gen Unit
  | [] => return ()
  | element :: rest => do
    let v ← evalDeref element
    emit (.assign (.element handle first) v.splice)
    lowerElements handle (first + 1) rest

/-- An array. Its value is a handle under which its elements are kept. -/
def lowerArray (elements : List Part) : Gen Unit := do
  let h ← freshTemp
  emit (.assign (.var h) [.name h])
  lowerElements h 0 elements
  emit (.assign (.size h) [.number elements.length])
  pushVar h .text

/-- An element of an array: a place whose value has yet to be read. -/
def lowerIndex (base index : Part) : Gen Unit := do
  let b ← eval base
  let i ← evalDeref index
  let b ← deref b
  push (.reference (b.splice ++ .chars "." :: i.splice))

end BatchCompiler.Gen
