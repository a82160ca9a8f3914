/-
# `SearchTree.Tree.Traversal` — walking a tree with a stack

Two cursors.  A `SiteWalk` keeps the nodes still to be visited, each with its
place: visiting one puts its right child on the stack and then its left child,
so that the left subtree comes first.  An `InorderWalk` keeps the nodes whose
left subtree is dealt with or lies above them on the stack: handing one out puts
the left spine of its right subtree on the stack.

`toList_sites` says that a `SiteWalk` hands out the nodes of the recursive listing
`sites`; `toList_preorder` and `toList_inorder` that the entries come as in the
listings of `SearchTree.Tree.Basic`.
-/
import SearchTree.Cursor
import SearchTree.Tree.Position

namespace SearchTree

variable {κ ν : Type}

/-- A node together with its place. -/
structure Site (κ ν : Type) where
  /-- The sides from the root to the node, the last one first. -/
  trail : List Side
  node : Node κ ν
  deriving Repr

/-- The root of a subtree that hangs at the end of a trail, as a stack of one or none. -/
def Tree.rootSites (trail : List Side) (t : Tree κ ν) : List (Site κ ν) :=
  t.root?.toList.map (Site.mk trail)

namespace Site

def path (s : Site κ ν) : Path := s.trail.reverse

/-- The child on a side, as a stack of one or none. -/
def child (s : Site κ ν) (side : Side) : List (Site κ ν) :=
  (s.node.subtree side).rootSites (side :: s.trail)

end Site

/-- The number of nodes below and including a node. -/
def Node.size (n : Node κ ν) : Nat := n.toTree.size

/-! ## Nodes before their subtrees -/

/-- The nodes still to be visited, the next one first. -/
structure SiteWalk (κ ν : Type) where
  pending : List (Site κ ν)

namespace SiteWalk

def ofTree (t : Tree κ ν) : SiteWalk κ ν := ⟨t.rootSites []⟩

def next? (w : SiteWalk κ ν) : Option (Site κ ν × SiteWalk κ ν) :=
  match w.pending with
  | [] => none
  | s :: rest => some (s, ⟨s.child .left ++ (s.child .right ++ rest)⟩)

/-- The number of nodes in the subtrees still to be visited. -/
def remaining (w : SiteWalk κ ν) : Nat := weight (·.node.size) w.pending

theorem weight_child (s : Site κ ν) (side : Side) :
    weight (·.node.size) (s.child side) = (s.node.subtree side).size := by
  unfold Site.child
  cases s.node.subtree side with
  | empty => rfl
  | node l k v r => rfl

/-- A node that gives way to its children takes one node off the stack. -/
theorem weight_visit (s : Site κ ν) (rest : List (Site κ ν)) :
    weight (·.node.size) (s :: rest)
      = weight (·.node.size) (s.child .left ++ (s.child .right ++ rest)) + 1 := by
  simp only [weight_append, weight_child, weight_cons]
  simp only [Node.size, Node.toTree, Tree.size, Node.subtree]
  omega

theorem remaining_of_next {w w' : SiteWalk κ ν} {s : Site κ ν} (h : w.next? = some (s, w')) :
    w.remaining = w'.remaining + 1 := by
  obtain ⟨pending⟩ := w
  cases pending with
  | nil => simp [next?] at h
  | cons s₀ rest =>
      simp only [next?, Option.some.injEq, Prod.mk.injEq] at h
      obtain ⟨rfl, rfl⟩ := h
      exact weight_visit s₀ rest

instance : Cursor (SiteWalk κ ν) (Site κ ν) where
  next? := next?
  remaining := remaining
  remaining_lt h := by rw [remaining_of_next h]; exact Nat.lt_succ_self _

end SiteWalk

/-- The entries in the order in which a `SiteWalk` visits their nodes. -/
structure PreorderWalk (κ ν : Type) where
  nodes : SiteWalk κ ν

namespace PreorderWalk

def ofTree (t : Tree κ ν) : PreorderWalk κ ν := ⟨.ofTree t⟩

def next? (w : PreorderWalk κ ν) : Option ((κ × ν) × PreorderWalk κ ν) :=
  w.nodes.next?.map fun (s, nodes) => (s.node.entry, ⟨nodes⟩)

instance : Cursor (PreorderWalk κ ν) (κ × ν) where
  next? := next?
  remaining w := w.nodes.remaining
  remaining_lt {w _ _} h := by
    simp only [next?, Option.map_eq_some_iff, Prod.mk.injEq] at h
    obtain ⟨⟨s, nodes⟩, hn, _, rfl⟩ := h
    rw [SiteWalk.remaining_of_next hn]; exact Nat.lt_succ_self _

end PreorderWalk

/-! ## Nodes between their subtrees -/

/-- The nodes not yet handed out whose left subtree is dealt with or lies above them. -/
structure InorderWalk (κ ν : Type) where
  stack : List (Node κ ν)

namespace InorderWalk

/-- Puts a tree's root and all that lies to the left of it on the stack, the leftmost on top. -/
def pushSpine : Tree κ ν → List (Node κ ν) → List (Node κ ν)
  | .empty, stack => stack
  | .node l k v r, stack => pushSpine l (⟨k, v, l, r⟩ :: stack)

def ofTree (t : Tree κ ν) : InorderWalk κ ν := ⟨pushSpine t []⟩

def next? (w : InorderWalk κ ν) : Option ((κ × ν) × InorderWalk κ ν) :=
  match w.stack with
  | [] => none
  | n :: rest => some (n.entry, ⟨pushSpine n.right rest⟩)

/-- The number of nodes on the stack and in their right subtrees. -/
def remaining (w : InorderWalk κ ν) : Nat := weight (·.right.size + 1) w.stack

theorem weight_pushSpine (t : Tree κ ν) (stack : List (Node κ ν)) :
    weight (·.right.size + 1) (pushSpine t stack)
      = t.size + weight (·.right.size + 1) stack := by
  induction t generalizing stack with
  | empty => simp [pushSpine, Tree.size]
  | node l k v r ihl _ => simp [pushSpine, ihl, Tree.size]; omega

theorem remaining_of_next {w w' : InorderWalk κ ν} {e : κ × ν} (h : w.next? = some (e, w')) :
    w.remaining = w'.remaining + 1 := by
  obtain ⟨stack⟩ := w
  cases stack with
  | nil => simp [next?] at h
  | cons n rest =>
      simp only [next?, Option.some.injEq, Prod.mk.injEq] at h
      obtain ⟨rfl, rfl⟩ := h
      simp only [remaining, weight_pushSpine, weight_cons]
      omega

instance : Cursor (InorderWalk κ ν) (κ × ν) where
  next? := next?
  remaining := remaining
  remaining_lt h := by rw [remaining_of_next h]; exact Nat.lt_succ_self _

end InorderWalk

/-! ## What the walks hand out

Each statement is about an arbitrary stack: what is left is the listing of the
pending subtrees one after the other. -/

namespace Tree

/-- All nodes of a subtree that hangs at the end of a trail: each before its left and then its
right subtree, and with its place. -/
def sitesFrom (trail : List Side) : Tree κ ν → List (Site κ ν)
  | .empty => []
  | .node l k v r =>
      ⟨trail, ⟨k, v, l, r⟩⟩ :: (l.sitesFrom (.left :: trail) ++ r.sitesFrom (.right :: trail))

/-- All nodes of a tree with their places. -/
def sites (t : Tree κ ν) : List (Site κ ν) := t.sitesFrom []

theorem map_entry_sitesFrom (trail : List Side) (t : Tree κ ν) :
    (t.sitesFrom trail).map (·.node.entry) = t.preorder := by
  induction t generalizing trail with
  | empty => rfl
  | node l k v r ihl ihr =>
      rw [sitesFrom, List.map_cons, List.map_append, ihl, ihr]
      rfl

end Tree

/-- The nodes of the subtree at a site, with their places in the whole tree. -/
def Site.below (s : Site κ ν) : List (Site κ ν) := s.node.toTree.sitesFrom s.trail

theorem Tree.flatMap_below_rootSites (trail : List Side) (t : Tree κ ν) :
    (t.rootSites trail).flatMap Site.below = t.sitesFrom trail := by
  cases t with
  | empty => rfl
  | node l k v r => exact List.flatMap_singleton ..

theorem Site.below_eq (s : Site κ ν) :
    s.below = s :: ((s.child .left).flatMap Site.below ++ (s.child .right).flatMap Site.below) := by
  rw [child, child, Tree.flatMap_below_rootSites, Tree.flatMap_below_rootSites]
  rfl

theorem SiteWalk.toList_eq (w : SiteWalk κ ν) :
    Cursor.toList w = w.pending.flatMap Site.below := by
  fun_induction Cursor.toList w with
  | case1 w h =>
      obtain ⟨pending⟩ := w
      cases pending with
      | nil => rfl
      | cons s rest => simp [Cursor.next?, SiteWalk.next?] at h
  | case2 w s w' h ih =>
      obtain ⟨pending⟩ := w
      cases pending with
      | nil => simp [Cursor.next?, SiteWalk.next?] at h
      | cons s₀ rest =>
          simp only [Cursor.next?, SiteWalk.next?, Option.some.injEq, Prod.mk.injEq] at h
          obtain ⟨rfl, rfl⟩ := h
          rw [ih, List.flatMap_cons, Site.below_eq]
          simp only [List.flatMap_append, List.cons_append, List.append_assoc]

theorem Tree.toList_sites (t : Tree κ ν) : Cursor.toList (SiteWalk.ofTree t) = t.sites := by
  rw [SiteWalk.toList_eq]
  exact t.flatMap_below_rootSites []

theorem PreorderWalk.toList_eq (w : PreorderWalk κ ν) :
    Cursor.toList w = (Cursor.toList w.nodes).map (·.node.entry) := by
  fun_induction Cursor.toList w with
  | case1 w h =>
      have hn : Cursor.next? w.nodes = none := by
        simpa [Cursor.next?, PreorderWalk.next?] using h
      simp [Cursor.toList_of_end hn]
  | case2 w e w' h ih =>
      simp only [Cursor.next?, PreorderWalk.next?, Option.map_eq_some_iff, Prod.mk.injEq] at h
      obtain ⟨⟨s, nodes⟩, hn, rfl, rfl⟩ := h
      have hn' : Cursor.next? w.nodes = some (s, nodes) := hn
      simp [Cursor.toList_of_next hn', ih]

theorem Tree.toList_preorder (t : Tree κ ν) :
    Cursor.toList (PreorderWalk.ofTree t) = t.preorder := by
  rw [PreorderWalk.toList_eq, PreorderWalk.ofTree, Tree.toList_sites, Tree.sites,
    Tree.map_entry_sitesFrom]

/-- What a stack of spines still has to hand out. -/
def InorderWalk.listing (stack : List (Node κ ν)) : List (κ × ν) :=
  stack.flatMap fun n => n.entry :: n.right.inorder

@[simp] theorem InorderWalk.listing_cons (n : Node κ ν) (stack : List (Node κ ν)) :
    listing (n :: stack) = n.entry :: (n.right.inorder ++ listing stack) := by
  simp [listing]

theorem InorderWalk.listing_pushSpine (t : Tree κ ν) (stack : List (Node κ ν)) :
    listing (pushSpine t stack) = t.inorder ++ listing stack := by
  induction t generalizing stack with
  | empty => rfl
  | node l k v r ihl _ => simp [pushSpine, ihl, Tree.inorder, Node.entry]

theorem InorderWalk.toList_eq (w : InorderWalk κ ν) : Cursor.toList w = listing w.stack := by
  fun_induction Cursor.toList w with
  | case1 w h =>
      obtain ⟨stack⟩ := w
      cases stack with
      | nil => rfl
      | cons n rest => simp [Cursor.next?, InorderWalk.next?] at h
  | case2 w e w' h ih =>
      obtain ⟨stack⟩ := w
      cases stack with
      | nil => simp [Cursor.next?, InorderWalk.next?] at h
      | cons n rest =>
          simp only [Cursor.next?, InorderWalk.next?, Option.some.injEq, Prod.mk.injEq] at h
          obtain ⟨rfl, rfl⟩ := h
          rw [ih, listing_pushSpine, listing_cons]

theorem Tree.toList_inorder (t : Tree κ ν) :
    Cursor.toList (InorderWalk.ofTree t) = t.inorder := by
  rw [InorderWalk.toList_eq, InorderWalk.ofTree, InorderWalk.listing_pushSpine]
  simp [InorderWalk.listing]

end SearchTree
