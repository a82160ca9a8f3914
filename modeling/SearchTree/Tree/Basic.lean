/-
# `SearchTree.Tree.Basic` — trees of entries, and the nodes they are made of

A tree is empty, or a node with an entry (a key and a value) between two
subtrees.  No order is built in: the comparison is an argument of the functions
that need one, and its laws are hypotheses of the theorems that need those.  So
a tree may be in any shape and any order, and what is said here holds of all.

`Node` is a tree that is not empty, seen from its root: what a look-up hands
out.  The two recursive listings `inorder` and `preorder` are the views in which
the other modules state what an operation does.
-/

namespace SearchTree

/-- A binary tree with an entry at every node. -/
inductive Tree (κ ν : Type) where
  | empty
  | node (left : Tree κ ν) (key : κ) (value : ν) (right : Tree κ ν)
  deriving DecidableEq, Repr

/-- A node of a tree: its entry and its two subtrees. -/
structure Node (κ ν : Type) where
  key : κ
  value : ν
  left : Tree κ ν
  right : Tree κ ν
  deriving DecidableEq, Repr

variable {κ ν : Type}

namespace Tree

instance : Inhabited (Tree κ ν) := ⟨.empty⟩

/-- The tree of one entry. -/
def leaf (key : κ) (value : ν) : Tree κ ν := .node .empty key value .empty

def isEmpty : Tree κ ν → Bool
  | .empty => true
  | .node .. => false

/-- The node at the top, if there is one. -/
def root? : Tree κ ν → Option (Node κ ν)
  | .empty => none
  | .node l k v r => some ⟨k, v, l, r⟩

/-- The number of nodes. -/
def size : Tree κ ν → Nat
  | .empty => 0
  | .node l _ _ r => l.size + 1 + r.size

/-- The number of nodes on a longest way down. -/
def height : Tree κ ν → Nat
  | .empty => 0
  | .node l _ _ r => max l.height r.height + 1

/-! ## Two listings of the entries -/

/-- The left subtree, then the node, then the right subtree. -/
def inorder : Tree κ ν → List (κ × ν)
  | .empty => []
  | .node l k v r => l.inorder ++ (k, v) :: r.inorder

/-- The node, then the left subtree, then the right subtree. -/
def preorder : Tree κ ν → List (κ × ν)
  | .empty => []
  | .node l k v r => (k, v) :: (l.preorder ++ r.preorder)

end Tree

namespace Node

/-- The tree of which this node is the root. -/
def toTree (n : Node κ ν) : Tree κ ν := .node n.left n.key n.value n.right

def entry (n : Node κ ν) : κ × ν := (n.key, n.value)

/-- The left child, if there is one. -/
def left? (n : Node κ ν) : Option (Node κ ν) := n.left.root?

/-- The right child, if there is one. -/
def right? (n : Node κ ν) : Option (Node κ ν) := n.right.root?

def hasLeft (n : Node κ ν) : Bool := !n.left.isEmpty

def hasRight (n : Node κ ν) : Bool := !n.right.isEmpty

def isLeaf (n : Node κ ν) : Bool := !n.hasLeft && !n.hasRight

/-- The number of children: none, one or two. -/
def childCount (n : Node κ ν) : Nat := n.hasLeft.toNat + n.hasRight.toNat

end Node

/-! ## Small facts -/

namespace Tree

@[simp] theorem isEmpty_iff {t : Tree κ ν} : t.isEmpty = true ↔ t = .empty := by
  cases t <;> simp [isEmpty]

@[simp] theorem isEmpty_eq_false_iff {t : Tree κ ν} : t.isEmpty = false ↔ t ≠ .empty := by
  cases t <;> simp [isEmpty]

theorem root?_eq_some_iff {t : Tree κ ν} {n : Node κ ν} : t.root? = some n ↔ t = n.toTree := by
  cases t with
  | empty => simp [root?, Node.toTree]
  | node l k v r =>
      cases n
      simp only [root?, Node.toTree, Option.some.injEq, Node.mk.injEq, Tree.node.injEq]
      constructor <;> (rintro ⟨rfl, rfl, rfl, rfl⟩; simp)

@[simp] theorem length_inorder (t : Tree κ ν) : t.inorder.length = t.size := by
  induction t with
  | empty => rfl
  | node l k v r ihl ihr => simp [inorder, size, ihl, ihr]; omega

@[simp] theorem length_preorder (t : Tree κ ν) : t.preorder.length = t.size := by
  induction t with
  | empty => rfl
  | node l k v r ihl ihr => simp [preorder, size, ihl, ihr]; omega

/-- Both listings hold the same entries, each as often. -/
theorem preorder_perm_inorder (t : Tree κ ν) : t.preorder.Perm t.inorder := by
  induction t with
  | empty => exact .nil
  | node l k v r ihl ihr =>
      exact ((ihl.append ihr).cons (k, v)).trans List.perm_middle.symm

@[simp] theorem size_eq_zero_iff {t : Tree κ ν} : t.size = 0 ↔ t = .empty := by
  cases t <;> simp [size]

end Tree

end SearchTree
