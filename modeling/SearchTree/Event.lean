/-
# `SearchTree.Event` — what a map reports while it changes

One event for every insertion, accepted or not; one for a deletion that finds
nothing; two for a deletion that is carried out, the first before the node goes
and the second after.  Reading never reports anything.  The sizes in the events
are those after the change, so a log tells how large the map is.

A step that reports something comes with it (`Reported`), also when it then comes
to nothing.
-/
import SearchTree.Error

namespace SearchTree

/-- How many children the removed node had. -/
inductive RemovalCase where
  | leaf
  | oneChild
  | twoChildren
  deriving DecidableEq, Repr

/-- How loud an event is. -/
inductive Level where
  | trace
  | debug
  deriving DecidableEq, Repr

/-- A report of a change, or of one that was refused. -/
inductive Event where
  | insertedRoot (size : Nat)
  | insertedKey (size : Nat)
  | insertRejected (size : Nat)
  | deleteRejected (size : Nat)
  | removingNode (kind : RemovalCase)
  | deletedKey (size : Nat) (root : Bool)
  deriving DecidableEq, Repr

def Level.name : Level → String
  | .trace => "TRACE"
  | .debug => "DEBUG"

namespace RemovalCase

def name : RemovalCase → String
  | .leaf => "leaf"
  | .oneChild => "one_child"
  | .twoChildren => "two_children"

/-- The number of children that a case stands for. -/
def childCount : RemovalCase → Nat
  | .leaf => 0
  | .oneChild => 1
  | .twoChildren => 2

end RemovalCase

namespace Event

/-- What was refused is told louder than what was done. -/
def level : Event → Level
  | .insertRejected _ | .deleteRejected _ => .debug
  | _ => .trace

def message : Event → String
  | .insertedRoot _ => "inserted root"
  | .insertedKey _ => "inserted key"
  | .insertRejected _ => "insert rejected, key already present"
  | .deleteRejected _ => "delete rejected, key not present"
  | .removingNode _ => "removing node"
  | .deletedKey .. => "deleted key"

/-- The size that an event tells. -/
def size? : Event → Option Nat
  | .insertedRoot n | .insertedKey n | .insertRejected n | .deleteRejected n
  | .deletedKey n _ => some n
  | .removingNode _ => none

/-- By how much the change makes the map larger. -/
def growth : Event → Int
  | .insertedRoot _ | .insertedKey _ => 1
  | .deletedKey .. => -1
  | _ => 0

end Event

/-- What a step comes to, and what it reported until then. -/
structure Reported (α : Type) where
  answer : Except Error α
  events : List Event

namespace Reported

variable {α β : Type}

/-- A step that fails before it reports anything. -/
def failed (e : Error) : Reported α := ⟨.error e, []⟩

/-- The same step with something else made of what it comes to. -/
def map (f : α → β) (r : Reported α) : Reported β := ⟨r.answer.map f, r.events⟩

end Reported

end SearchTree
