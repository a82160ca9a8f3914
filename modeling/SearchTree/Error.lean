/-
# `SearchTree.Error` — why an operation on a map answers without a result

Two causes belong to the caller: the key is there already, or it is not there.
The third, `broken`, belongs to the map itself.  Every step that relies on the
bookkeeping (an empty slot, a count that is not exhausted, a parent that must
exist) checks it and answers with the `Fault` it met.  Nothing is assumed in
silence, so "no fault ever arises" is a statement about the functions as they run.
-/

namespace SearchTree

/-- A step found the map other than its own bookkeeping says. -/
inductive Fault where
  /-- The map counts entries and has no root. -/
  | countWithoutRoot
  /-- The map counts no entries and has a root. -/
  | rootWithoutCount
  /-- An entry left a map that counts none. -/
  | countExhausted
  /-- A new leaf was hung on a side that is taken. -/
  | slotTaken
  /-- Subtrees were given to a node that has children. -/
  | notALeaf
  /-- No node has a child that matches. -/
  | noParent
  /-- Neither child of the parent matches. -/
  | noMatchingChild
  /-- The place to remove from holds no node. -/
  | emptySlot
  /-- The right subtree has no leftmost node. -/
  | noSuccessor
  /-- A node with two children was to be spliced out. -/
  | twoChildren
  /-- A child's copy was not there to be taken. -/
  | missingCopy
  /-- Copies were left over at the end. -/
  | strayCopies
  deriving DecidableEq, Repr

/-- Why an operation on a map answers without a result. -/
inductive Error where
  /-- The descent met the key that was to be inserted. -/
  | duplicateKey
  /-- The descent did not meet the key that was asked for. -/
  | keyNotFound
  /-- A step found the bookkeeping broken. -/
  | broken (fault : Fault)
  deriving DecidableEq, Repr

namespace Error

/-- The name under which an error is reported. -/
def name : Error → String
  | .duplicateKey => "DuplicateKey"
  | .keyNotFound => "KeyNotFound"
  | .broken _ => "Broken"

/-- One sentence for the user. -/
def message : Error → String
  | .duplicateKey => "key is already present in the tree"
  | .keyNotFound => "key is not present in the tree"
  | .broken _ => "the tree does not agree with its own bookkeeping"

end Error

end SearchTree
