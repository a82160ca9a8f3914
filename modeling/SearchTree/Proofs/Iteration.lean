/-
# `SearchTree.Proofs.Iteration` — what a traversal answers, pull by pull

A cursor may be left and taken up again after any number of pulls (`Cursor.after`).
What it still has to hand out is then what it had, without as many elements from the
front.  So, of any cursor and its listing:

    a pull within the listing   answers the element of that number
    a pull beyond it            answers nothing, and so does every later one

For the two traversals the listing is known for an arbitrary stack: the pending
subtrees one after the other (`SiteWalk.toList_eq`), and each node on the stack with
its right subtree behind it (`InorderWalk.toList_eq`).  At the start the stack holds the
root, or its left spine, and so the listing is that of the recursion.

Different nodes may hold equal entries.  That each node has its turn once is therefore
said of the places (`Tree.Lists`), for the recursion that lists the nodes together with
their places.
-/
import SearchTree.Proofs.ParentWalk

namespace SearchTree

namespace Cursor

variable {γ α : Type} [Cursor γ α]

/-! ## A cursor after some pulls -/

/-- The cursor after so many pulls; at its end it stays as it is. -/
def after (c : γ) : Nat → γ
  | 0 => c
  | n + 1 =>
      match next? c with
      | none => c
      | some (_, c') => after c' n

/-- The answer of the pull that has `n` others before it. -/
def answer? (c : γ) (n : Nat) : Option α := (next? (after c n)).map (·.1)

theorem toList_after (c : γ) (n : Nat) : toList (after c n) = (toList c).drop n := by
  induction n generalizing c with
  | zero => rfl
  | succ n ih =>
      rw [after]
      split
      · next h => rw [toList_of_end h, List.drop_nil]
      · next a c' h => rw [ih, toList_of_next h, List.drop_succ_cons]

theorem map_fst_next? (c : γ) : (next? c).map (·.1) = (toList c).head? := by
  cases h : next? c with
  | none => rw [toList_of_end h]; rfl
  | some next =>
      obtain ⟨a, c'⟩ := next
      rw [toList_of_next h]
      rfl

theorem answer?_eq (c : γ) (n : Nat) : answer? c n = (toList c)[n]? := by
  rw [answer?, map_fst_next?, toList_after, List.head?_drop]

/-- As many pulls as there are elements, and any number of pulls beyond. -/
theorem pulls_beyond (c : γ) (n : Nat) :
    pulls c ((toList c).length + n) = (toList c).map some ++ List.replicate n none := by
  have hwithin : (List.range (toList c).length).map ((toList c)[·]?) = (toList c).map some := by
    apply List.ext_getElem
    · simp
    · intro i hi _
      rw [List.length_map, List.length_range] at hi
      simp [hi]
  have hbeyond : (List.range n).map (fun i => (toList c)[(toList c).length + i]?)
      = List.replicate n none := by
    have hnone : ∀ i, (toList c)[(toList c).length + i]? = none := by
      intro i
      exact List.getElem?_eq_none (Nat.le_add_right _ i)
    simp only [hnone, List.map_const', List.length_range]
  rw [pulls_eq, List.range_add, List.map_append, List.map_map, hwithin]
  exact congrArg _ hbeyond

/-- The pulls answer the elements of a list one by one, and then nothing, however often. -/
structure HandsOut (c : γ) (l : List α) : Prop where
  nth : ∀ n, answer? c n = l[n]?
  fused : ∀ n, pulls c (l.length + n) = l.map some ++ List.replicate n none

theorem handsOut_toList (c : γ) : HandsOut c (toList c) :=
  ⟨answer?_eq c, pulls_beyond c⟩

end Cursor

variable {κ ν : Type} {cmp : κ → κ → Ordering}

/-! ## Every node has its turn once -/

theorem Path.Before.ne {p p' : Path} (h : Before p p') : p ≠ p' := by
  induction h with
  | above d p => exact (List.cons_ne_nil d p).symm
  | beside p p' => simp
  | along d _ ih => simpa using ih

namespace Tree

/-- A list of the nodes of a tree, each once and with its place. -/
structure Lists (t : Tree κ ν) (sites : List (Site κ ν)) : Prop where
  distinct : (sites.map Site.path).Nodup
  covers : ∀ s, s ∈ sites ↔ t.nodeAt? s.path = some s.node

theorem Lists.of_perm {t : Tree κ ν} {sites sites' : List (Site κ ν)} (h : t.Lists sites)
    (hperm : sites.Perm sites') : t.Lists sites' where
  distinct := (hperm.map Site.path).nodup_iff.mp h.distinct
  covers s := hperm.mem_iff.symm.trans (h.covers s)

theorem lists_sites (t : Tree κ ν) : t.Lists t.sites where
  distinct := List.pairwise_map.mpr (t.pairwise_sites.imp Path.Before.ne)
  covers _ := mem_sites

/-- All nodes of a subtree that hangs at the end of a trail: each between its left and its right
subtree, and with its place. -/
def inorderSitesFrom (trail : List Side) : Tree κ ν → List (Site κ ν)
  | .empty => []
  | .node l k v r =>
      l.inorderSitesFrom (.left :: trail) ++
        ⟨trail, ⟨k, v, l, r⟩⟩ :: r.inorderSitesFrom (.right :: trail)

theorem map_entry_inorderSitesFrom (trail : List Side) (t : Tree κ ν) :
    (t.inorderSitesFrom trail).map (·.node.entry) = t.inorder := by
  induction t generalizing trail with
  | empty => rfl
  | node l k v r ihl ihr =>
      rw [inorderSitesFrom, List.map_append, List.map_cons, ihl, ihr]
      rfl

theorem inorderSitesFrom_perm (trail : List Side) (t : Tree κ ν) :
    (t.inorderSitesFrom trail).Perm (t.sitesFrom trail) := by
  induction t generalizing trail with
  | empty => exact .nil
  | node l k v r ihl ihr => exact List.perm_middle.trans (.cons _ ((ihl _).append (ihr _)))

end Tree

/-! ## The stacks of the two traversals -/

/-- The pending subtrees, after any number of pulls. -/
theorem PreorderWalk.pending_after (t : Tree κ ν) (n : Nat) :
    ((Cursor.after (PreorderWalk.ofTree t) n).nodes.pending.flatMap Site.below).map (·.node.entry)
      = t.preorder.drop n := by
  rw [← SiteWalk.toList_eq, ← PreorderWalk.toList_eq, Cursor.toList_after, Tree.toList_preorder]

theorem InorderWalk.listing_after (t : Tree κ ν) (n : Nat) :
    listing (Cursor.after (InorderWalk.ofTree t) n).stack = t.inorder.drop n := by
  rw [← InorderWalk.toList_eq, Cursor.toList_after, Tree.toList_inorder]

namespace Map

/-- Of every tree, whatever its shape: pull by pull the two traversals answer the recursive
listings, as many elements as there are nodes, and then nothing, however often they are asked.
After any number of pulls the stack stands for the rest of the listing.  Both listings have every
node once, so each is a rearrangement of the other. -/
theorem pulls_follow_recursion (m : Map κ ν cmp) :
    Cursor.HandsOut m.preorder m.tree.preorder ∧ Cursor.HandsOut m.inorder m.tree.inorder ∧
    (∀ n, ((Cursor.after m.preorder n).nodes.pending.flatMap Site.below).map (·.node.entry)
      = m.tree.preorder.drop n) ∧
    (∀ n, InorderWalk.listing (Cursor.after m.inorder n).stack = m.tree.inorder.drop n) ∧
    m.tree.preorder.length = m.tree.size ∧ m.tree.inorder.length = m.tree.size ∧
    (∃ sites, m.tree.Lists sites ∧ sites.map (·.node.entry) = m.tree.preorder) ∧
    (∃ sites, m.tree.Lists sites ∧ sites.map (·.node.entry) = m.tree.inorder) ∧
    m.tree.preorder.Perm m.tree.inorder := by
  have hpre := Cursor.handsOut_toList m.preorder
  have hin := Cursor.handsOut_toList m.inorder
  rw [preorder, Tree.toList_preorder] at hpre
  rw [inorder, Tree.toList_inorder] at hin
  refine ⟨hpre, hin, PreorderWalk.pending_after m.tree, InorderWalk.listing_after m.tree,
    m.tree.length_preorder, m.tree.length_inorder, ?_, ?_, m.tree.preorder_perm_inorder⟩
  · exact ⟨m.tree.sites, m.tree.lists_sites, Tree.map_entry_sitesFrom [] m.tree⟩
  · exact ⟨m.tree.inorderSitesFrom [],
      m.tree.lists_sites.of_perm (m.tree.inorderSitesFrom_perm []).symm,
      Tree.map_entry_inorderSitesFrom [] m.tree⟩

end Map

end SearchTree
