/-
# `SearchTree.Proofs.NewLeaf` — an insertion adds a leaf and disturbs nothing

A leaf is hung where the descent for its key falls off.  What any other descent does
in the larger tree follows from one equation about the place where it ends, whatever
is hung into a free slot at `p` (`reach_replaceAt_of_free`):

    it ended elsewhere    it ends there still
    it ended at `p`       it goes on in what now hangs there

A descent that has found a node did not end in a free slot, so it finds that node
again.  One that has found nothing finds nothing, or ends at the new leaf.  The
comparison of the keys and that of the query may be anything.
-/
import SearchTree.Key
import SearchTree.Proofs.Conservation

namespace SearchTree

variable {κ ν : Type} {cmp : κ → κ → Ordering}

namespace Tree

variable {t : Tree κ ν} {p : Path}

/-! ## A free slot -/

/-- What is hung into a free slot is there. -/
theorem subtree?_replaceAt_of_free (h : t.subtree? p = some .empty) (s : Tree κ ν) :
    (t.replaceAt p s).subtree? p = some s :=
  subtree?_replaceAt_self s (by rw [h]; rfl)

/-- Nothing is at a free slot, and nothing below it. -/
theorem nodeAt?_below_free (h : t.subtree? p = some .empty) {p' : Path} (hp : p <+: p') :
    t.nodeAt? p' = none := by
  obtain ⟨below, rfl⟩ := hp
  exact (nodeAt?_append h below).trans (nodeAt?_empty below)

theorem nodeAt?_leaf_cons (k : κ) (v : ν) (d : Side) (p : Path) :
    (leaf k v).nodeAt? (d :: p) = none := by
  cases d <;> exact nodeAt?_empty p

/-- A leaf in a free slot is one node more, and every other node keeps its place and its entry. -/
theorem nodeAt?_hang_leaf (h : t.subtree? p = some .empty) (k : κ) (v : ν) {p' : Path}
    (hp : p' ≠ p) :
    ((t.replaceAt p (leaf k v)).nodeAt? p').map Node.entry = (t.nodeAt? p').map Node.entry := by
  by_cases hbelow : p <+: p'
  · obtain ⟨below, rfl⟩ := hbelow
    rw [nodeAt?_below_free h (List.prefix_append p below),
      nodeAt?_append (subtree?_replaceAt_of_free h _)]
    cases below with
    | nil => exact absurd (List.append_nil p) hp
    | cons d below => exact congrArg _ (nodeAt?_leaf_cons k v d below)
  · exact nodeAt?_replaceAt_of_not_prefix hbelow t _

/-! ## Descents in the larger tree -/

/-- A descent that ended in the slot goes on in what hangs there, and any other ends where it
ended. -/
theorem reach_replaceAt_of_free (h : t.subtree? p = some .empty) (s : Tree κ ν) (q : Probe κ) :
    (t.replaceAt p s).reach q = if t.reach q = p then p ++ s.reach q else t.reach q := by
  induction t generalizing p with
  | empty =>
      cases p with
      | nil => simp [reach]
      | cons d p => simp at h
  | node l k v r ihl ihr =>
      cases p with
      | nil => simp at h
      | cons d p =>
          cases d with
          | left =>
              rw [replaceAt, reach, reach]
              cases q k with
              | lt => simp [ihl h, apply_ite (List.cons Side.left)]
              | gt => simp
              | eq => simp
          | right =>
              rw [replaceAt, reach, reach]
              cases q k with
              | lt => simp
              | gt => simp [ihr h, apply_ite (List.cons Side.right)]
              | eq => simp

/-- A descent that has found a node did not end in a free slot. -/
theorem reach_ne_of_search (h : t.subtree? p = some .empty) {q : Probe κ} {n : Node κ ν}
    (hn : t.search q = some n) : t.reach q ≠ p := by
  rintro rfl
  rw [← nodeAt?_reach, nodeAt?_below_free h (List.prefix_refl _)] at hn
  exact nomatch hn

/-- What a descent into the slot finds is found in what hangs there. -/
theorem search_replaceAt_of_reach (h : t.subtree? p = some .empty) (s : Tree κ ν) {q : Probe κ}
    (hq : t.reach q = p) : (t.replaceAt p s).search q = s.search q := by
  rw [← nodeAt?_reach, reach_replaceAt_of_free h, if_pos hq,
    nodeAt?_append (subtree?_replaceAt_of_free h s), nodeAt?_reach]

/-- Any other descent ends at the same place and finds the same entry there, or nothing again. -/
theorem search_hang_leaf_of_reach_ne (h : t.subtree? p = some .empty) (k : κ) (v : ν)
    {q : Probe κ} (hq : t.reach q ≠ p) :
    (t.replaceAt p (leaf k v)).reach q = t.reach q ∧
      ((t.replaceAt p (leaf k v)).search q).map Node.entry = (t.search q).map Node.entry := by
  have hreach : (t.replaceAt p (leaf k v)).reach q = t.reach q := by
    rw [reach_replaceAt_of_free h, if_neg hq]
  refine ⟨hreach, ?_⟩
  rw [← nodeAt?_reach q (t.replaceAt p (leaf k v)), hreach, nodeAt?_hang_leaf h k v hq,
    nodeAt?_reach]

theorem search_leaf (k : κ) (v : ν) (q : Probe κ) :
    (leaf k v).search q = if q k = .eq then some ⟨k, v, .empty, .empty⟩ else none := by
  rw [leaf, search]
  cases q k <;> rfl

/-- A query that matches the new key and ended in the slot ends at the leaf. -/
theorem search_hang_leaf_of_match (h : t.subtree? p = some .empty) {k : κ} (v : ν) {q : Probe κ}
    (hp : t.reach q = p) (hk : q k = .eq) :
    (t.replaceAt p (leaf k v)).reach q = p ∧
      (t.replaceAt p (leaf k v)).search q = some ⟨k, v, .empty, .empty⟩ := by
  constructor
  · rw [reach_replaceAt_of_free h, if_pos hp, leaf, reach, hk]
    exact List.append_nil p
  · rw [search_replaceAt_of_reach h _ hp, search_leaf, if_pos hk]

/-- A descent that found nothing finds nothing again, or the new leaf. -/
theorem search_hang_leaf_of_search_none (h : t.subtree? p = some .empty) (k : κ) (v : ν)
    {q : Probe κ} (hq : t.search q = none) :
    (t.replaceAt p (leaf k v)).search q = none ∨
      (t.replaceAt p (leaf k v)).reach q = p ∧
        (t.replaceAt p (leaf k v)).search q = some ⟨k, v, .empty, .empty⟩ := by
  by_cases hp : t.reach q = p
  · by_cases hk : q k = .eq
    · exact .inr (search_hang_leaf_of_match h v hp hk)
    · left
      rw [search_replaceAt_of_reach h _ hp, search_leaf, if_neg hk]
  · have hsame := (search_hang_leaf_of_reach_ne h k v hp).2
    rw [hq] at hsame
    exact .inl (Option.map_eq_none_iff.mp hsame)

end Tree

namespace Map

variable {m : Map κ ν cmp}

/-- An insertion goes through only where the descent for its key falls off, and hangs a leaf
there. -/
theorem insert_of_ok {k : κ} {v : ν} (h : (m.insert k v).reply = .ok ()) :
    m.contains (cmp k) = false ∧
      (m.insert k v).map = ⟨m.tree.replaceAt (m.tree.reach (cmp k)) (.leaf k v), m.size + 1⟩ := by
  rw [contains]
  rw [insert, Tree.insert_eq] at h ⊢
  split at h
  · cases h
  · next hguard =>
      rw [if_neg hguard]
      cases hc : m.tree.contains (cmp k) with
      | true =>
          rw [hc] at h
          cases h
      | false => exact ⟨rfl, rfl⟩

/-- An insertion that succeeds adds one leaf, in the free slot where the descent for its key falls
off, and every other node keeps its place, its key and its value.  So a query that found a node
finds it again, and one that found nothing finds nothing or the new leaf.  A key that compares equal
to itself is found at once. -/
theorem insert_adds_leaf {k : κ} {v : ν} (h : (m.insert k v).reply = .ok ()) :
    let m' := (m.insert k v).map
    let p := m.tree.reach (cmp k)
    m.search (cmp k) = none ∧ m.tree.subtree? p = some .empty ∧
    m'.tree.subtree? p = some (.leaf k v) ∧ m'.size = m.size + 1 ∧
    (∀ p', p' ≠ p → (m'.nodeAt? p').map Node.entry = (m.nodeAt? p').map Node.entry) ∧
    (∀ (q : Probe κ) n, m.search q = some n →
      m'.tree.reach q = m.tree.reach q ∧ (m'.search q).map Node.entry = some n.entry) ∧
    (∀ q : Probe κ, m.search q = none → m'.search q = none ∨
      m'.tree.reach q = p ∧ m'.search q = some ⟨k, v, .empty, .empty⟩) ∧
    (cmp k k = .eq →
      m'.tree.reach (cmp k) = p ∧ m'.search (cmp k) = some ⟨k, v, .empty, .empty⟩) := by
  intro m' p
  obtain ⟨hc, hm'⟩ := insert_of_ok h
  have htree : m'.tree = m.tree.replaceAt p (.leaf k v) := congrArg Map.tree hm'
  have hfree : m.tree.subtree? p = some .empty := Tree.subtree?_reach_of_not_contains hc
  simp only [nodeAt?, search, htree]
  have hnone : m.tree.search (cmp k) = none := by simpa [contains, Tree.contains] using hc
  refine ⟨hnone, hfree, ?_, congrArg Map.size hm', ?_, ?_, ?_, ?_⟩
  · exact Tree.subtree?_replaceAt_of_free hfree _
  · intro p' hp'
    exact Tree.nodeAt?_hang_leaf hfree k v hp'
  · intro q n hn
    rw [← Option.map_some, ← hn]
    exact Tree.search_hang_leaf_of_reach_ne hfree k v (Tree.reach_ne_of_search hfree hn)
  · intro q hq
    exact Tree.search_hang_leaf_of_search_none hfree k v hq
  · intro hk
    exact Tree.search_hang_leaf_of_match hfree v rfl hk

/-- Hours of a dial: 3 is after 0, and 4 is after 3 and yet before 0.  A query by distance from zero
that matches the new leaf goes the other way and still finds nothing. -/
theorem insert_adds_leaf_hours :
    let m : Map Hour String compare :=
      (empty.run compare [.insert ⟨0⟩ "a", .insert ⟨3⟩ "b", .insert ⟨6⟩ "c"]).map
    let m' := (m.insert ⟨4⟩ "d").map
    let q : Probe Hour := fun a => compare 4 a.number.natAbs
    (m.insert ⟨4⟩ "d").reply = .ok () ∧ m.tree.reach (compare (Hour.mk 4)) = [.left, .left] ∧
    m'.tree.subtree? [.left, .left] = some (.leaf ⟨4⟩ "d") ∧
    (∀ p, p ≠ [.left, .left] → (m'.nodeAt? p).map Node.entry = (m.nodeAt? p).map Node.entry) ∧
    m.search q = none ∧ m'.search q = none ∧
    m'.search (compare (Hour.mk 4)) = some ⟨⟨4⟩, "d", .empty, .empty⟩ := by
  intro m m' q
  have h : (m.insert ⟨4⟩ "d").reply = .ok () := rfl
  have hreach : m.tree.reach (compare (Hour.mk 4)) = [.left, .left] := rfl
  obtain ⟨-, -, hleaf, -, hkept, -, -, hfound⟩ := insert_adds_leaf h
  exact ⟨h, hreach, hleaf, hkept, rfl, rfl, (hfound rfl).2⟩

end Map

end SearchTree
