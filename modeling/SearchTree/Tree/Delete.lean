/-
# `SearchTree.Tree.Delete` — taking one entry out of a tree

A deletion has three parts, each a function of its own.

* `target`: the place to remove from.  It is the root if the root matches, and
  otherwise the matching child of the node that a walk over the parents finds.
  The walk (`slotParent?`) is not that of a look-up but one of its own; the two
  always agree (`slotParent?_eq`).
* `removeRoot`: the subtree at that place loses its root.  With one child or
  none, that child (or nothing) takes the place of the node; with two, the node
  takes over the entry of its successor, the leftmost node of its right subtree,
  and the successor is spliced out instead.  Which case it is, is reported before
  anything goes.
* `delete`: asks first, by the descent, whether there is a match at all, and puts
  what `removeRoot` leaves back in its place.

The descent follows the order and the walk ignores it.  That the walk finds a
parent whenever the descent finds a match is not assumed here: each step that
could come back without a result has a `Fault` of its own.
-/
import SearchTree.Event
import SearchTree.Tree.Parent

namespace SearchTree

variable {κ ν : Type}

/-- What is left of a tree without its root. -/
structure Removal (κ ν : Type) where
  /-- The value that was at the root. -/
  value : ν
  rest : Tree κ ν

/-- A deletion that was carried out. -/
structure Deletion (κ ν : Type) where
  /-- The place of the removed node. -/
  position : Path
  value : ν
  tree : Tree κ ν

namespace Tree

/-! ## The subtree that loses a node -/

/-- What takes the place of the root: its only child, or nothing. -/
def spliceRoot : Tree κ ν → Except Error (Tree κ ν)
  | .empty => .error (.broken .emptySlot)
  | .node .empty _ _ r => .ok r
  | .node l _ _ .empty => .ok l
  | .node .. => .error (.broken .twoChildren)

/-- Takes out the leftmost node: its entry, and the tree without it. -/
def detachLeftmost : Tree κ ν → Except Error ((κ × ν) × Tree κ ν)
  | .empty => .error (.broken .noSuccessor)
  | .node l k v r =>
      if l.isEmpty then (spliceRoot (.node l k v r)).map fun rest => ((k, v), rest)
      else l.detachLeftmost.map fun (e, l') => (e, .node l' k v r)

/-- Takes the root's entry out of a tree, and reports the case before. -/
def removeRoot : Tree κ ν → Reported (Removal κ ν)
  | .empty => .failed (.broken .emptySlot)
  | .node l k v r =>
      let n : Node κ ν := ⟨k, v, l, r⟩
      if n.hasLeft && n.hasRight then
        ⟨r.detachLeftmost.map fun (e, r') => ⟨v, .node l e.1 e.2 r'⟩,
          [.removingNode .twoChildren]⟩
      else
        ⟨(spliceRoot (.node l k v r)).map fun rest => ⟨v, rest⟩,
          [.removingNode (if n.isLeaf then .leaf else .oneChild)]⟩

/-! ## The place to remove from -/

/-- Whether the root is there and matches. -/
def rootMatches (q : Probe κ) (t : Tree κ ν) : Bool :=
  match t.root? with
  | none => false
  | some n => (q n.key).isEq

/-- The first site, off a stack of sites still to be asked, that has a matching child.  One that
has none gives way to its children, the left one on top. -/
def slotParentOn? (q : Probe κ) : List (Site κ ν) → Option (Site κ ν)
  | [] => none
  | s :: rest =>
      if s.node.isParentOf q then some s
      else slotParentOn? q (s.child .left ++ (s.child .right ++ rest))
termination_by stack => weight (·.node.size) stack
decreasing_by
  rw [SiteWalk.weight_visit]
  exact Nat.lt_succ_self _

/-- The site below which a node is to be removed. -/
def slotParent? (q : Probe κ) (t : Tree κ ν) : Option (Site κ ν) :=
  slotParentOn? q (t.rootSites [])

/-- The place of the node to remove for a query. -/
def target (q : Probe κ) (t : Tree κ ν) : Except Error Path :=
  if t.rootMatches q then .ok []
  else
    match t.slotParent? q with
    | none => .error (.broken .noParent)
    | some s =>
        match s.node.matchingSide? q with
        | none => .error (.broken .noMatchingChild)
        | some side => .ok (s.path ++ [side])

/-- Takes the root out of the subtree at a place. -/
def removeAt (p : Path) (t : Tree κ ν) : Reported (Deletion κ ν) :=
  match t.subtree? p with
  | none => .failed (.broken .emptySlot)
  | some s => s.removeRoot.map fun r => ⟨p, r.value, t.replaceAt p r.rest⟩

/-- Removes the match of a query, if the descent meets one. -/
def delete (q : Probe κ) (t : Tree κ ν) : Reported (Deletion κ ν) :=
  if t.contains q then
    match t.target q with
    | .error e => .failed e
    | .ok p => t.removeAt p
  else .failed .keyNotFound

/-! ## The two walks over the parents -/

/-- On any stack, the walk of a deletion stops where that of a look-up does. -/
theorem slotParentOn?_eq (q : Probe κ) (stack : List (Site κ ν)) :
    slotParentOn? q stack = Cursor.find? (fun s => s.node.isParentOf q) (SiteWalk.mk stack) := by
  rw [Cursor.find?_eq]
  fun_induction slotParentOn? q stack with
  | case1 => simp [Cursor.toList_of_end (c := SiteWalk.mk []) rfl]
  | case2 s rest h =>
      rw [Cursor.toList_of_next (c := SiteWalk.mk (s :: rest)) rfl, List.find?_cons, h]
  | case3 s rest h ih =>
      -- What the cursor steps to is the stack on which the loop goes on.
      rw [Cursor.toList_of_next (c := SiteWalk.mk (s :: rest)) rfl, List.find?_cons, ih]
      simp [h]

theorem slotParent?_eq (q : Probe κ) (t : Tree κ ν) : t.slotParent? q = t.parentSite? q := by
  rw [slotParent?, slotParentOn?_eq]
  rfl

/-! ## What goes with the leftmost node -/

/-- A tree that is not empty gives up its first entry in order, and keeps the others. -/
theorem detachLeftmost_inorder {t : Tree κ ν} (h : t ≠ .empty) :
    ∃ e rest, t.detachLeftmost = .ok (e, rest) ∧ t.inorder = e :: rest.inorder := by
  induction t with
  | empty => exact absurd rfl h
  | node l k v r ihl _ =>
      by_cases hl : l = .empty
      · subst hl
        exact ⟨(k, v), r, rfl, rfl⟩
      · obtain ⟨e, l', hd, hi⟩ := ihl hl
        refine ⟨e, .node l' k v r, ?_, ?_⟩
        · simp [detachLeftmost, isEmpty_eq_false_iff.mpr hl, hd, Except.map]
        · simp [inorder, hi]

end Tree

end SearchTree
