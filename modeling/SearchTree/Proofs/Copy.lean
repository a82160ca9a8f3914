/-
# `SearchTree.Proofs.Copy` — a copy has the same tree

The first loop lists the nodes upward, each after its left and then its right
subtree, whatever is pending behind them (`collectNodes_rootStack`).  The second
loop, run over the nodes of a subtree, leaves the stack as it found it but for
that subtree's copy on top (`foldlM_buildNode`).  Both statements are about an
arbitrary rest of the stack, which is what makes the induction on the tree go
through; neither uses any order.
-/
import SearchTree.Tree.Copy

namespace SearchTree

variable {κ ν κ' ν' : Type}

namespace Tree

/-- The nodes of a tree, each after its left and then its right subtree. -/
def upward : Tree κ ν → List (Node κ ν)
  | .empty => []
  | .node l k v r => l.upward ++ (r.upward ++ [⟨k, v, l, r⟩])

/-- The first loop deals with a pending subtree before it goes on to what lies below it. -/
theorem collectNodes_rootStack (t : Tree κ ν) (pending done : List (Node κ ν)) :
    collectNodes (t.rootStack ++ pending) done = collectNodes pending (t.upward ++ done) := by
  induction t generalizing pending done with
  | empty => rfl
  | node l k v r ihl ihr =>
      show collectNodes (⟨k, v, l, r⟩ :: pending) done = _
      rw [collectNodes, ihr, ihl]
      simp [upward]

theorem nodesUpward_eq (t : Tree κ ν) : t.nodesUpward = t.upward := by
  have h := collectNodes_rootStack t [] []
  simpa [nodesUpward, collectNodes] using h

/-- A subtree's copy, as a stack of one or none. -/
def copyStack (f : κ → κ') (g : ν → ν') (t : Tree κ ν) : List (Tree κ' ν') :=
  if t.isEmpty then [] else [t.mapEntries f g]

/-- A child that exists has its copy on top, and one that does not takes nothing. -/
theorem takeCopy_copyStack (f : κ → κ') (g : ν → ν') (t : Tree κ ν)
    (built : List (Tree κ' ν')) :
    takeCopy (!t.isEmpty) (copyStack f g t ++ built) = .ok (t.mapEntries f g, built) := by
  cases t <;> rfl

/-- A node takes the copies of its children and puts its own in their place. -/
theorem buildNode_copyStack (f : κ → κ') (g : ν → ν') (n : Node κ ν) (built : List (Tree κ' ν')) :
    buildNode f g (copyStack f g n.right ++ (copyStack f g n.left ++ built)) n
      = .ok (n.toTree.mapEntries f g :: built) := by
  simp only [buildNode, Node.hasRight, Node.hasLeft, takeCopy_copyStack, bind, Except.bind]
  rfl

/-- The second loop puts a subtree's copy on top of what was built before. -/
theorem foldlM_buildNode (f : κ → κ') (g : ν → ν') (t : Tree κ ν) (built : List (Tree κ' ν')) :
    t.upward.foldlM (buildNode f g) built = .ok (copyStack f g t ++ built) := by
  induction t generalizing built with
  | empty => rfl
  | node l k v r ihl ihr =>
      rw [upward, List.foldlM_append, ihl]
      show (r.upward ++ [_]).foldlM (buildNode f g) (copyStack f g l ++ built) = _
      rw [List.foldlM_append, ihr]
      show [_].foldlM (buildNode f g) (copyStack f g r ++ (copyStack f g l ++ built)) = _
      rw [List.foldlM_cons, buildNode_copyStack f g ⟨k, v, l, r⟩]
      rfl

theorem copyWith_eq (f : κ → κ') (g : ν → ν') (t : Tree κ ν) :
    t.copyWith f g = .ok (t.mapEntries f g) := by
  rw [copyWith, nodesUpward_eq, foldlM_buildNode]
  cases t <;> rfl

theorem size_mapEntries (f : κ → κ') (g : ν → ν') (t : Tree κ ν) :
    (t.mapEntries f g).size = t.size := by
  induction t with
  | empty => rfl
  | node l k v r ihl ihr => rw [mapEntries, size, size, ihl, ihr]

/-- To renew every entry by itself changes nothing. -/
theorem mapEntries_eq_self {f : κ → κ} {g : ν → ν} {t : Tree κ ν}
    (h : ∀ e ∈ t.inorder, f e.1 = e.1 ∧ g e.2 = e.2) : t.mapEntries f g = t := by
  induction t with
  | empty => rfl
  | node l k v r ihl ihr =>
      simp only [inorder, List.forall_mem_append, List.forall_mem_cons] at h
      obtain ⟨hl, ⟨hk, hv⟩, hr⟩ := h
      rw [mapEntries, ihl hl, ihr hr, hk, hv]

@[simp] theorem mapEntries_id (t : Tree κ ν) : t.mapEntries id id = t :=
  mapEntries_eq_self fun _ _ => ⟨rfl, rfl⟩

end Tree

end SearchTree
