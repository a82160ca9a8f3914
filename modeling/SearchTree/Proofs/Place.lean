/-
# `SearchTree.Proofs.Place` — what a write at a place does to a tree

A write at a place leaves the listing as it is on both sides of the subtree that
it replaces (`inorder_around`).  No order is needed for that, so every statement
about entries that come and go reduces to the subtree that is exchanged.

Two of the writers are then equations: an insertion hangs a leaf where the
descent falls off (`insert_eq`), and an overwriting puts a value where the
descent ends (`overwrite?_eq`).
-/
import SearchTree.Tree.Insert
import SearchTree.Tree.Search

namespace SearchTree

variable {κ ν : Type}

namespace Tree

/-! ## The node at a place -/

theorem nodeAt?_eq_some_iff {p : Path} {t : Tree κ ν} {n : Node κ ν} :
    t.nodeAt? p = some n ↔ t.subtree? p = some n.toTree := by
  simp only [nodeAt?, Option.bind_eq_some_iff, root?_eq_some_iff]
  constructor
  · rintro ⟨s, hs, rfl⟩
    exact hs
  · intro h
    exact ⟨_, h, rfl⟩

@[simp] theorem nodeAt?_nil (t : Tree κ ν) : t.nodeAt? [] = t.root? := by
  simp [nodeAt?]

@[simp] theorem nodeAt?_empty (p : Path) : (empty : Tree κ ν).nodeAt? p = none := by
  cases p <;> simp [nodeAt?, root?]

@[simp] theorem nodeAt?_left (l : Tree κ ν) (k : κ) (v : ν) (r : Tree κ ν) (p : Path) :
    (node l k v r).nodeAt? (.left :: p) = l.nodeAt? p := rfl

@[simp] theorem nodeAt?_right (l : Tree κ ν) (k : κ) (v : ν) (r : Tree κ ν) (p : Path) :
    (node l k v r).nodeAt? (.right :: p) = r.nodeAt? p := rfl

/-- What is below a place is what the subtree there has at the rest of the way. -/
theorem nodeAt?_append {p : Path} {t u : Tree κ ν} (h : t.subtree? p = some u) (below : Path) :
    t.nodeAt? (p ++ below) = u.nodeAt? below := by
  rw [nodeAt?, subtree?_append, h]
  rfl

/-- What is written over a node is there. -/
theorem subtree?_replaceAt_of_nodeAt? {p : Path} {t : Tree κ ν} {n : Node κ ν}
    (h : t.nodeAt? p = some n) (s : Tree κ ν) : (t.replaceAt p s).subtree? p = some s :=
  subtree?_replaceAt_self s (by rw [nodeAt?_eq_some_iff.mp h]; rfl)

/-! ## The listing around a place -/

/-- Some entries come before the subtree at a place and some after it, and a write there keeps
both. -/
theorem inorder_around {p : Path} {t u : Tree κ ν} (h : t.subtree? p = some u) :
    ∃ a b, t.inorder = a ++ u.inorder ++ b ∧
      ∀ s : Tree κ ν, (t.replaceAt p s).inorder = a ++ s.inorder ++ b := by
  induction p generalizing t with
  | nil =>
      obtain rfl : t = u := by simpa using h
      refine ⟨[], [], by simp, ?_⟩
      intro s
      simp
  | cons d p ih =>
      cases t with
      | empty => simp at h
      | node l k v r =>
          cases d with
          | left =>
              obtain ⟨a, b, hl, hs⟩ := ih (t := l) h
              refine ⟨a, b ++ (k, v) :: r.inorder, ?_, ?_⟩
              · simp [inorder, hl]
              · intro s
                simp [replaceAt, inorder, hs]
          | right =>
              obtain ⟨a, b, hr, hs⟩ := ih (t := r) h
              refine ⟨l.inorder ++ (k, v) :: a, b, ?_, ?_⟩
              · simp [inorder, hr]
              · intro s
                simp [replaceAt, inorder, hs]

/-- The node at a place has its entry between those of its two subtrees. -/
theorem inorder_around_node {p : Path} {t : Tree κ ν} {n : Node κ ν} (h : t.nodeAt? p = some n) :
    ∃ a b, t.inorder = a ++ n.left.inorder ++ n.entry :: (n.right.inorder ++ b) ∧
      ∀ s : Tree κ ν, (t.replaceAt p s).inorder = a ++ s.inorder ++ b := by
  obtain ⟨a, b, ht, hs⟩ := inorder_around (nodeAt?_eq_some_iff.mp h)
  refine ⟨a, b, ?_, hs⟩
  simp [ht, Node.toTree, inorder, Node.entry]

theorem mem_inorder_of_nodeAt? {p : Path} {t : Tree κ ν} {n : Node κ ν}
    (h : t.nodeAt? p = some n) : n.entry ∈ t.inorder := by
  obtain ⟨a, b, ht, -⟩ := inorder_around_node h
  simp [ht]

/-- Every entry of the listing is at some place. -/
theorem exists_nodeAt?_of_mem_inorder {t : Tree κ ν} {e : κ × ν} (h : e ∈ t.inorder) :
    ∃ p n, t.nodeAt? p = some n ∧ n.entry = e := by
  induction t with
  | empty => exact nomatch h
  | node l k v r ihl ihr =>
      simp only [inorder, List.mem_append, List.mem_cons] at h
      rcases h with h | rfl | h
      · obtain ⟨p, n, hn, he⟩ := ihl h
        exact ⟨.left :: p, n, hn, he⟩
      · exact ⟨[], ⟨k, v, l, r⟩, rfl, rfl⟩
      · obtain ⟨p, n, hn, he⟩ := ihr h
        exact ⟨.right :: p, n, hn, he⟩

/-! ## Writing where a descent ends -/

/-- What the descent answers is the node where it ends. -/
theorem nodeAt?_reach (q : Probe κ) (t : Tree κ ν) : t.nodeAt? (t.reach q) = t.search q := by
  rw [nodeAt?, subtree?_reach]
  cases t.search q <;> rfl

theorem subtree?_reach_of_not_contains {q : Probe κ} {t : Tree κ ν} (h : t.contains q = false) :
    t.subtree? (t.reach q) = some .empty := by
  have hs : t.search q = none := by simpa [contains] using h
  rw [subtree?_reach, hs]
  rfl

/-- The node found is in the tree. -/
theorem mem_inorder_of_search {q : Probe κ} {t : Tree κ ν} {n : Node κ ν}
    (h : t.search q = some n) : n.entry ∈ t.inorder :=
  mem_inorder_of_nodeAt? ((nodeAt?_reach q t).trans h)

theorem insert_eq (cmp : κ → κ → Ordering) (key : κ) (value : ν) (t : Tree κ ν) :
    t.insert cmp key value =
      if t.contains (cmp key) then .error .duplicateKey
      else .ok (t.replaceAt (t.reach (cmp key)) (leaf key value)) := by
  induction t with
  | empty => rfl
  | node l k v r ihl ihr =>
      cases h : cmp key k with
      | lt =>
          have hc : (node l k v r).contains (cmp key) = l.contains (cmp key) := by
            simp [contains, search, h]
          rw [insert_node_lt h, ihl, hc]
          simp only [reach, h, replaceAt]
          cases l.contains (cmp key) <;> rfl
      | gt =>
          have hc : (node l k v r).contains (cmp key) = r.contains (cmp key) := by
            simp [contains, search, h]
          rw [insert_node_gt h, ihr, hc]
          simp only [reach, h, replaceAt]
          cases r.contains (cmp key) <;> rfl
      | eq =>
          rw [insert_node_eq h]
          simp [contains, search, h]

/-- A new leaf is one more entry, between those that were there. -/
theorem inorder_hang_leaf {cmp : κ → κ → Ordering} {key : κ} {t : Tree κ ν}
    (h : t.contains (cmp key) = false) (value : ν) :
    ∃ a b, t.inorder = a ++ b ∧
      (t.replaceAt (t.reach (cmp key)) (leaf key value)).inorder = a ++ (key, value) :: b := by
  obtain ⟨a, b, ht, hs⟩ := inorder_around (subtree?_reach_of_not_contains h)
  refine ⟨a, b, by simpa [inorder] using ht, ?_⟩
  simp [hs, leaf, inorder]

/-- The node found keeps its place, its key and its subtrees. -/
theorem overwrite?_eq (q : Probe κ) (new : ν) (t : Tree κ ν) :
    t.overwrite? q new =
      (t.search q).map fun n =>
        (n.value, t.replaceAt (t.reach q) (.node n.left n.key new n.right)) := by
  induction t with
  | empty => rfl
  | node l k v r ihl ihr =>
      cases h : q k with
      | lt =>
          simp only [overwrite?, search, reach, h, ihl, replaceAt, Option.map_map]
          rfl
      | gt =>
          simp only [overwrite?, search, reach, h, ihr, replaceAt, Option.map_map]
          rfl
      | eq => simp [overwrite?, search, reach, h]

/-- A value written over another changes that one entry. -/
theorem inorder_overwrite {q : Probe κ} {t : Tree κ ν} {n : Node κ ν} (h : t.search q = some n)
    (new : ν) :
    ∃ a b, t.inorder = a ++ n.entry :: b ∧
      (t.replaceAt (t.reach q) (.node n.left n.key new n.right)).inorder
        = a ++ (n.key, new) :: b := by
  obtain ⟨a, b, ht, hs⟩ := inorder_around_node ((nodeAt?_reach q t).trans h)
  refine ⟨a ++ n.left.inorder, n.right.inorder ++ b, ht, ?_⟩
  simp [hs, inorder]

end Tree

end SearchTree
