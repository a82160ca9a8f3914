/-
# `SearchTree.Proofs.Rebuild` — the nodes-first listing builds its tree again

In a tree in search order, let the entries be listed each before those of its
subtrees.  A map built out of this list, in its order, has the same tree: every
entry falls into the slot that it had.  So the list says all about the tree, and
two trees with one list are the same, however they came about.

The list of a node is its entry, then its left list, then its right list.

    root     the first entry finds the tree empty and becomes its root
    left     all keys of the left list lie before the root, so its insertions go on
             in the left subtree, which is empty at that time (`foldl_enter_left`)
    right    after that the same on the right (`foldl_enter_right`)

Insertions on one side do not see the other side.  So the induction is on the tree
alone, and each subtree is built out of its own list from an empty tree.
-/
import SearchTree.Proofs.Order

namespace SearchTree

variable {κ ι ν : Type} {cmp : κ → κ → Ordering}

namespace Tree

/-- Hangs an entry into the tree, unless the descent meets its key. -/
def enter (cmp : κ → κ → Ordering) (t : Tree κ ν) (e : κ × ν) : Tree κ ν :=
  match t.insert cmp e.1 e.2 with
  | .ok t' => t'
  | .error _ => t

/-! ## Insertions on one side -/

theorem enter_left {e : κ × ν} {k : κ} (h : cmp e.1 k = .lt) (v : ν) (l r : Tree κ ν) :
    (node l k v r).enter cmp e = node (l.enter cmp e) k v r := by
  rw [enter, enter, insert_node_lt h]
  cases l.insert cmp e.1 e.2 <;> rfl

theorem enter_right {e : κ × ν} {k : κ} (h : cmp e.1 k = .gt) (v : ν) (l r : Tree κ ν) :
    (node l k v r).enter cmp e = node l k v (r.enter cmp e) := by
  rw [enter, enter, insert_node_gt h]
  cases r.insert cmp e.1 e.2 <;> rfl

theorem foldl_enter_left {items : List (κ × ν)} {k : κ} (h : ∀ e ∈ items, cmp e.1 k = .lt)
    (v : ν) (l r : Tree κ ν) :
    items.foldl (enter cmp) (node l k v r) = node (items.foldl (enter cmp) l) k v r := by
  induction items generalizing l with
  | nil => rfl
  | cons e items ih =>
      obtain ⟨he, hitems⟩ := List.forall_mem_cons.mp h
      rw [List.foldl_cons, enter_left he, ih hitems, List.foldl_cons]

theorem foldl_enter_right {items : List (κ × ν)} {k : κ} (h : ∀ e ∈ items, cmp e.1 k = .gt)
    (v : ν) (l r : Tree κ ν) :
    items.foldl (enter cmp) (node l k v r) = node l k v (items.foldl (enter cmp) r) := by
  induction items generalizing r with
  | nil => rfl
  | cons e items ih =>
      obtain ⟨he, hitems⟩ := List.forall_mem_cons.mp h
      rw [List.foldl_cons, enter_right he, ih hitems, List.foldl_cons]

theorem Forall.of_mem_preorder {P : κ → Prop} {t : Tree κ ν} (h : t.Forall P) :
    ∀ e ∈ t.preorder, P e.1 := by
  intro e he
  exact forall_iff_mem_inorder.mp h e (t.preorder_perm_inorder.mem_iff.mp he)

/-- An ordered tree is built again out of its nodes-first listing. -/
theorem Ordered.foldl_enter_preorder [Std.OrientedCmp cmp] {t : Tree κ ν} (h : t.Ordered cmp) :
    t.preorder.foldl (enter cmp) empty = t := by
  induction t with
  | empty => rfl
  | node l k v r ihl ihr =>
      obtain ⟨hl, hlk, hkr, hr⟩ := h
      -- The order is needed for these two facts only: no entry of a subtree goes astray.
      have hbefore : ∀ e ∈ l.preorder, cmp e.1 k = .lt := hlk.of_mem_preorder
      have hafter : ∀ e ∈ r.preorder, cmp e.1 k = .gt := by
        intro e he
        exact Std.OrientedCmp.gt_of_lt (hkr.of_mem_preorder e he)
      calc (node l k v r).preorder.foldl (enter cmp) empty
          = (l.preorder ++ r.preorder).foldl (enter cmp) (node empty k v empty) := rfl
        _ = r.preorder.foldl (enter cmp) (node (l.preorder.foldl (enter cmp) empty) k v empty) := by
            rw [List.foldl_append, foldl_enter_left hbefore]
        _ = node l k v (r.preorder.foldl (enter cmp) empty) := by
            rw [ihl hl, foldl_enter_right hafter]
        _ = node l k v r := by rw [ihr hr]

end Tree

namespace Map

variable {m m' : Map κ ν cmp}

/-! ## Maps built out of a list -/

/-- With right sizes, a map is known by its tree. -/
theorem Counted.eq_of_tree_eq (hm : m.Counted) (hm' : m'.Counted) (h : m.tree = m'.tree) :
    m = m' := by
  obtain ⟨t, n⟩ := m
  obtain ⟨t', n'⟩ := m'
  obtain rfl : t = t' := h
  obtain rfl : n = n' := hm.trans hm'.symm
  rfl

theorem Counted.tree_insert (hm : m.Counted) (k : κ) (v : ν) :
    (m.insert k v).map.tree = m.tree.enter cmp (k, v) := by
  rw [hm.insert_eq, Tree.enter, Tree.insert_eq, contains]
  cases m.tree.contains (cmp k) <;> rfl

theorem Counted.tree_extend (hm : m.Counted) (items : List (κ × ν)) :
    (m.extend items).map.tree = items.foldl (Tree.enter cmp) m.tree := by
  induction items generalizing m with
  | nil => rfl
  | cons e items ih =>
      rw [hm.extend_cons, List.foldl_cons, ← hm.tree_insert, ← ih (hm.insert e.1 e.2)]
      rfl

theorem toList_preorder (m : Map κ ν cmp) : Cursor.toList m.preorder = m.tree.preorder :=
  Tree.toList_preorder m.tree

/-- The map of the nodes-first listing is the map that was listed. -/
theorem Sound.ofList_preorder [Std.OrientedCmp cmp] (hm : m.Sound) :
    (ofList (Cursor.toList m.preorder) : Outcome (Map κ ν cmp) _).map = m := by
  have hempty : (empty : Map κ ν cmp).Counted := counted_empty
  have hcounted : (ofList m.tree.preorder : Outcome (Map κ ν cmp) _).map.Counted :=
    (hempty.effect_extend cmp m.tree.preorder).2.counted hempty
  rw [toList_preorder]
  apply hcounted.eq_of_tree_eq hm.counted
  rw [ofList, hempty.tree_extend]
  exact hm.ordered.foldl_enter_preorder

/-- Collecting the entries of a map, each before those below it, gives the same tree and the same
size.  So two maps with one such listing are the same. -/
theorem rebuilt_from_preorder [Std.TransCmp cmp] {view : ι → Probe κ} (hm : Reachable view m) :
    (ofList (Cursor.toList m.preorder) : Outcome (Map κ ν cmp) _).reply = .ok () ∧
    (ofList (Cursor.toList m.preorder) : Outcome (Map κ ν cmp) _).map.tree = m.tree ∧
    (ofList (Cursor.toList m.preorder) : Outcome (Map κ ν cmp) _).map.size = m.size ∧
    ∀ {ι' : Type} (view' : ι' → Probe κ) (m' : Map κ ν cmp), Reachable view' m' →
      Cursor.toList m'.preorder = Cursor.toList m.preorder → m'.tree = m.tree := by
  have hsame := hm.sound.ofList_preorder
  refine ⟨?_, by rw [hsame], by rw [hsame], ?_⟩
  · exact (counted_empty.effect_extend cmp _).1
  · intro ι' view' m' hm' hlist
    rw [← hm'.sound.ofList_preorder, hlist, hsame]

/-- The entry of 5 has moved to the root.  Its own subtree has gone up, and the listing of the map
builds just this tree. -/
theorem rebuilt_from_preorder_after_delete :
    let m : Map Int String compare :=
      (empty.run compare [.insert 4 "a", .insert 2 "b", .insert 8 "c", .insert 5 "d",
        .insert 9 "e", .insert 7 "f", .insert 6 "g", .delete 4]).map
    let items : List (Int × String) :=
      [(5, "d"), (2, "b"), (8, "c"), (7, "f"), (6, "g"), (9, "e")]
    Std.TransCmp (compare : Int → Int → Ordering) ∧ Reachable compare m ∧
    Cursor.toList m.preorder = items ∧
    (ofList items : Outcome (Map Int String compare) _).map.tree = m.tree := by
  intro m items
  have hm : Reachable compare m := ⟨_, rfl⟩
  have hitems : Cursor.toList m.preorder = items := by decide +kernel
  refine ⟨inferInstance, hm, hitems, ?_⟩
  rw [← hitems]
  exact (rebuilt_from_preorder hm).2.1

end Map

end SearchTree
