/-
# `SearchTree.Tree.Parent` — which node is above a match

Nodes know nothing of their parents, so a parent is looked for among all nodes:
the tree is walked nodes first, left before right, and the first node one of
whose children matches is the answer.  The walk does not use the order, and so
it may find the parent of a match that no descent meets.
-/
import SearchTree.Tree.Search
import SearchTree.Tree.Traversal

namespace SearchTree

variable {κ ν : Type}

namespace Node

/-- Whether the child on a side is there and matches. -/
def matchesOn (n : Node κ ν) (side : Side) (q : Probe κ) : Bool :=
  match (n.subtree side).root? with
  | none => false
  | some c => (q c.key).isEq

/-- Whether a child matches; the node's own key is not asked. -/
def isParentOf (n : Node κ ν) (q : Probe κ) : Bool :=
  n.matchesOn .left q || n.matchesOn .right q

/-- The side of the matching child, the left one first. -/
def matchingSide? (n : Node κ ν) (q : Probe κ) : Option Side :=
  if n.matchesOn .left q then some .left
  else if n.matchesOn .right q then some .right
  else none

/-- A node is a parent of a match when there is a side to take. -/
theorem isParentOf_eq_isSome (n : Node κ ν) (q : Probe κ) :
    n.isParentOf q = (n.matchingSide? q).isSome := by
  unfold isParentOf matchingSide?
  cases n.matchesOn .left q <;> cases n.matchesOn .right q <;> rfl

end Node

namespace Tree

/-- The first node, nodes before their subtrees, that has a matching child; with its place. -/
def parentSite? (q : Probe κ) (t : Tree κ ν) : Option (Site κ ν) :=
  Cursor.find? (fun s => s.node.isParentOf q) (SiteWalk.ofTree t)

/-- The first node that has a matching child. -/
def parent? (q : Probe κ) (t : Tree κ ν) : Option (Node κ ν) :=
  (t.parentSite? q).map (·.node)

/-- The walk looks through the listing of all sites. -/
theorem parentSite?_eq (q : Probe κ) (t : Tree κ ν) :
    t.parentSite? q = t.sites.find? fun s => s.node.isParentOf q := by
  rw [parentSite?, Cursor.find?_eq, toList_sites]

end Tree

end SearchTree
