/-
# `SearchTree.Proofs.Undo` — a deletion takes back an insertion

Let a key compare equal to itself and to no key of a map.  After it is inserted there
is one match of it in the whole tree, the new leaf (`eq_slot_of_match`).  So the
deletion has no choice: the descent finds that leaf (`search_hang_leaf_of_match`), and
whatever place the walk over the parents comes to is a place of a match, and hence
that of the leaf.  A leaf leaves nothing behind, and with its slot free again the tree
is the one that was there before.

No law of the comparison is used, and the tree may have any shape and any order.
-/
import SearchTree.Proofs.NewLeaf

namespace SearchTree

variable {κ ι ν : Type} {cmp : κ → κ → Ordering}

namespace Tree

variable {t : Tree κ ν} {p : Path} {q : Probe κ}

/-- Where nothing matches, the descent meets no match. -/
theorem not_contains_of_no_match (h : ∀ e ∈ t.inorder, q e.1 ≠ .eq) : t.contains q = false := by
  cases hs : t.search q with
  | none => rw [contains, hs]; rfl
  | some n => exact absurd (match_of_search hs) (h _ (mem_inorder_of_search hs))

/-- With a leaf hung into a tree without a match, every match is at the place of the leaf. -/
theorem eq_slot_of_match (hfree : t.subtree? p = some .empty) (h : ∀ e ∈ t.inorder, q e.1 ≠ .eq)
    {k : κ} {v : ν} {p' : Path} {n : Node κ ν}
    (hn : (t.replaceAt p (leaf k v)).nodeAt? p' = some n) (hq : q n.key = .eq) : p' = p := by
  by_cases hp : p' = p
  · exact hp
  · -- Anywhere else the node was there before, with the same key.
    have hsame := nodeAt?_hang_leaf hfree k v hp
    rw [hn, Option.map_some, eq_comm, Option.map_eq_some_iff] at hsame
    obtain ⟨n₀, hn₀, hentry⟩ := hsame
    have hmem : n.entry ∈ t.inorder := hentry ▸ mem_inorder_of_nodeAt? hn₀
    exact absurd hq (h n.entry hmem)

end Tree

namespace Map

variable {m : Map κ ν cmp}

theorem Counted.insert_of_no_match (hm : m.Counted) {k : κ}
    (h : ∀ e ∈ m.entries, cmp k e.1 ≠ .eq) (v : ν) : (m.insert k v).reply = .ok () := by
  rw [entries_eq] at h
  rw [hm.insert_eq, contains, Tree.not_contains_of_no_match h]
  rfl

/-- A deletion that can take out nothing but a leaf in the slot `p` leaves the slot free again. -/
theorem Counted.delete_of_only_match (hm : m.Counted) {q : Probe κ} {p : Path} {k : κ} {v : ν}
    (hc : m.contains q = true) (hleaf : m.nodeAt? p = some ⟨k, v, .empty, .empty⟩)
    (honly : ∀ p' n, m.nodeAt? p' = some n → q n.key = .eq → p' = p) :
    (m.delete q).reply = .ok v ∧
      (m.delete q).map = ⟨m.tree.replaceAt p .empty, m.size - 1⟩ := by
  obtain ⟨p', n, kind, -, hn, hq, -, -, hd⟩ := hm.delete_of_contains hc
  obtain rfl := honly p' n hn hq
  obtain rfl := Option.some.inj (hn.symm.trans hleaf)
  rw [hd]
  exact ⟨rfl, rfl⟩

/-- Let a key compare equal to itself and to no key of the map.  Then it can be inserted, and its
deletion answers with its value and leaves the very same map. -/
theorem delete_undoes_insert {view : ι → Probe κ} (hm : Reachable view m) {k : κ}
    (hself : cmp k k = .eq) (hnew : ∀ e ∈ m.entries, cmp k e.1 ≠ .eq) (v : ν) :
    let m' := (m.insert k v).map
    (m.insert k v).reply = .ok () ∧ (m'.delete (cmp k)).reply = .ok v ∧
      (m'.delete (cmp k)).map = m := by
  intro m'
  have hinsert : (m.insert k v).reply = .ok () := hm.counted.insert_of_no_match hnew v
  obtain ⟨hc, hm'⟩ := insert_of_ok hinsert
  have hfree := Tree.subtree?_reach_of_not_contains hc
  have hfound := Tree.search_hang_leaf_of_match hfree v rfl hself
  have htree : m'.tree = m.tree.replaceAt (m.tree.reach (cmp k)) (.leaf k v) :=
    congrArg Map.tree hm'
  rw [← htree] at hfound
  have hleaf : m'.nodeAt? (m.tree.reach (cmp k)) = some ⟨k, v, .empty, .empty⟩ := by
    rw [nodeAt?, ← hfound.1, Tree.nodeAt?_reach, hfound.2]
  have honly : ∀ p n, m'.nodeAt? p = some n → cmp k n.key = .eq → p = m.tree.reach (cmp k) := by
    intro p n hn
    rw [nodeAt?, htree] at hn
    rw [entries_eq] at hnew
    exact Tree.eq_slot_of_match hfree hnew hn
  obtain ⟨hreply, hmap⟩ := (hm.counted.insert k v).delete_of_only_match
    (contains_of_search hfound.2) hleaf honly
  refine ⟨hinsert, hreply, ?_⟩
  rw [hmap, htree, Tree.replaceAt_replaceAt, Tree.replaceAt_subtree? hfree, hm']
  rfl

/-- Hours of a dial, which goes round.  The deletion of 0 has moved 1 up to the root, and 4 is hung
below 3: it is after both, though it was before 0. -/
theorem delete_undoes_insert_hours :
    let m : Map Hour String compare :=
      (empty.run compare [.insert ⟨0⟩ "a", .insert ⟨3⟩ "b", .insert ⟨6⟩ "c", .insert ⟨5⟩ "d",
        .insert ⟨1⟩ "e", .delete ⟨0⟩]).map
    let m' := (m.insert ⟨4⟩ "f").map
    Reachable compare m ∧ compare (Hour.mk 4) ⟨4⟩ = .eq ∧
    (∀ e ∈ m.entries, compare (Hour.mk 4) e.1 ≠ .eq) ∧
    m.tree.reach (compare (Hour.mk 4)) = [.right, .right] ∧ (m.insert ⟨4⟩ "f").reply = .ok () ∧
    (m'.delete (compare (Hour.mk 4))).reply = .ok "f" ∧
    (m'.delete (compare (Hour.mk 4))).map = m := by
  intro m m'
  have hm : Reachable compare m := ⟨_, rfl⟩
  have hself : compare (Hour.mk 4) ⟨4⟩ = .eq := rfl
  have hnew : ∀ e ∈ m.entries, compare (Hour.mk 4) e.1 ≠ .eq := by
    rw [entries_eq]
    decide +kernel
  obtain ⟨hinsert, hreply, hsame⟩ := delete_undoes_insert hm hself hnew "f"
  exact ⟨hm, hself, hnew, by decide +kernel, hinsert, hreply, hsame⟩

end Map

end SearchTree
