/-
# `SearchTree.Tree.Copy` — building a tree anew from its nodes

The copy is made in two rounds, each a loop with a stack, so that its depth does
not grow with that of the tree.  The first round lists the nodes, each before
its subtrees and the right subtree before the left.  Read backwards, that list
brings every node after both of its subtrees.  The second round reads it so and
keeps the finished copies on a stack: a node takes the copy of its right child
off the top, then that of its left child, and puts its own copy there.
-/
import SearchTree.Error
import SearchTree.Tree.Traversal

namespace SearchTree

variable {κ ν κ' ν' : Type}

namespace Tree

/-- The same shape with every entry renewed. -/
def mapEntries (f : κ → κ') (g : ν → ν') : Tree κ ν → Tree κ' ν'
  | .empty => .empty
  | .node l k v r => .node (l.mapEntries f g) (f k) (g v) (r.mapEntries f g)

/-! ## First round: the nodes, backwards -/

/-- A tree's root, as a stack of one or none. -/
def rootStack (t : Tree κ ν) : List (Node κ ν) :=
  match t.root? with
  | none => []
  | some n => [n]

theorem weight_rootStack (t : Tree κ ν) : weight (·.size) t.rootStack = t.size := by
  cases t <;> simp [rootStack, root?, Node.size, Node.toTree, size]

/-- Visits the pending nodes, right subtrees before left ones, and lists them last first. -/
def collectNodes : List (Node κ ν) → List (Node κ ν) → List (Node κ ν)
  | [], done => done
  | n :: pending, done =>
      collectNodes (n.right.rootStack ++ (n.left.rootStack ++ pending)) (n :: done)
termination_by pending => weight (·.size) pending
decreasing_by
  simp only [weight_append, weight_rootStack, weight_cons]
  simp only [Node.size, Node.toTree, size]
  omega

/-- The nodes of a tree, each after its left subtree and then its right subtree. -/
def nodesUpward (t : Tree κ ν) : List (Node κ ν) := collectNodes t.rootStack []

/-! ## Second round: the copies -/

/-- Gives a leaf its two subtrees. -/
def adopt : Tree κ ν → Tree κ ν → Tree κ ν → Except Error (Tree κ ν)
  | .node .empty k v .empty, l, r => .ok (.node l k v r)
  | _, _, _ => .error (.broken .notALeaf)

/-- Takes a child's copy off the stack, if the child exists. -/
def takeCopy (present : Bool) (built : List (Tree κ ν)) :
    Except Error (Tree κ ν × List (Tree κ ν)) :=
  if present then
    match built with
    | [] => .error (.broken .missingCopy)
    | t :: built => .ok (t, built)
  else .ok (.empty, built)

/-- Makes the copy of a node out of the copies of its children. -/
def buildNode (f : κ → κ') (g : ν → ν') (built : List (Tree κ' ν')) (n : Node κ ν) :
    Except Error (List (Tree κ' ν')) := do
  let (r, built) ← takeCopy n.hasRight built
  let (l, built) ← takeCopy n.hasLeft built
  let t ← adopt (leaf (f n.key) (g n.value)) l r
  return t :: built

/-- The one finished copy, or the empty tree if there was nothing to copy. -/
def onlyCopy : List (Tree κ ν) → Except Error (Tree κ ν)
  | [] => .ok .empty
  | [t] => .ok t
  | _ => .error (.broken .strayCopies)

/-- A tree built anew, with every key and every value renewed. -/
def copyWith (f : κ → κ') (g : ν → ν') (t : Tree κ ν) : Except Error (Tree κ' ν') := do
  onlyCopy (← t.nodesUpward.foldlM (buildNode f g) [])

end Tree

end SearchTree
