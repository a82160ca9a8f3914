/-
# `SearchTree.Proofs.Order` — no command breaks the search order

For a lawful comparison the order of a tree is a property of its listing alone:
`Ordered` says of every node what `pairwise_inorder` says of the keys from left to
right, and `ordered_of_pairwise` is the way back.  So whatever takes entries out
of the listing, or changes values in it, keeps the order, and it does not matter
how the entries were chosen: a deletion or an overwriting may be led by any
query.  Only an insertion has to put its entry in the right place, and that is the
place where the descent by the tree's own comparison falls off.
-/
import SearchTree.Proofs.Conservation
import SearchTree.Tree.Ordered

namespace SearchTree

variable {κ ι ν : Type} {cmp : κ → κ → Ordering}

namespace Tree

/-! ## The order of a tree is that of its listing -/

theorem ordered_of_pairwise {t : Tree κ ν}
    (h : t.inorder.Pairwise fun e₁ e₂ => cmp e₁.1 e₂.1 = .lt) : t.Ordered cmp := by
  induction t with
  | empty => trivial
  | node l k v r ihl ihr =>
      rw [inorder, List.pairwise_append, List.pairwise_cons] at h
      obtain ⟨hl, ⟨hkr, hr⟩, hlr⟩ := h
      have hlk : ∀ e ∈ l.inorder, cmp e.1 k = .lt := by
        intro e he
        exact hlr e he (k, v) (List.mem_cons_self ..)
      exact ⟨ihl hl, forall_iff_mem_inorder.mpr hlk, forall_iff_mem_inorder.mpr hkr, ihr hr⟩

theorem ordered_iff_pairwise_keys [Std.TransCmp cmp] {t : Tree κ ν} :
    t.Ordered cmp ↔ (t.inorder.map Prod.fst).Pairwise fun k₁ k₂ => cmp k₁ k₂ = .lt := by
  rw [List.pairwise_map]
  exact ⟨Ordered.pairwise_inorder, ordered_of_pairwise⟩

/-- A tree whose keys are some of those of an ordered tree, in the same order, is ordered. -/
theorem Ordered.of_sublist [Std.TransCmp cmp] {t t' : Tree κ ν} (h : t.Ordered cmp)
    (hkeys : (t'.inorder.map Prod.fst).Sublist (t.inorder.map Prod.fst)) : t'.Ordered cmp :=
  ordered_iff_pairwise_keys.mpr ((ordered_iff_pairwise_keys.mp h).sublist hkeys)

/-- The subtree at every node of an ordered tree is ordered. -/
theorem Ordered.of_nodeAt? {t : Tree κ ν} (h : t.Ordered cmp) {p : Path} {n : Node κ ν}
    (hn : t.nodeAt? p = some n) : n.toTree.Ordered cmp := by
  induction p generalizing t with
  | nil =>
      rw [nodeAt?_nil, root?_eq_some_iff] at hn
      rwa [← hn]
  | cons d p ih =>
      cases t with
      | empty => simp at hn
      | node l k v r =>
          cases d with
          | left => exact ih h.1 hn
          | right => exact ih h.2.2.2 hn

/-! ## What a new leaf and another value do to the order -/

theorem Forall.replaceAt {P : κ → Prop} {t s : Tree κ ν} (ht : t.Forall P) (hs : s.Forall P)
    (p : Path) : (t.replaceAt p s).Forall P := by
  induction p generalizing t with
  | nil => simpa using hs
  | cons d p ih =>
      cases t with
      | empty => cases d <;> trivial
      | node l k v r =>
          cases d with
          | left => exact ⟨ih ht.1, ht.2⟩
          | right => exact ⟨ht.1, ht.2.1, ih ht.2.2⟩

/-- A leaf that hangs where the descent for its key falls off is in its place. -/
theorem Ordered.hang_leaf [Std.OrientedCmp cmp] {t : Tree κ ν} (h : t.Ordered cmp) {key : κ}
    (hc : t.contains (cmp key) = false) (value : ν) :
    (t.replaceAt (t.reach (cmp key)) (leaf key value)).Ordered cmp := by
  induction t with
  | empty => exact ⟨trivial, trivial, trivial, trivial⟩
  | node l k v r ihl ihr =>
      obtain ⟨hl, hlk, hkr, hr⟩ := h
      cases hcmp : cmp key k with
      | lt =>
          have hc' : l.contains (cmp key) = false := by
            simpa [contains, search, hcmp] using hc
          have hleaf : (leaf key value).Forall (cmp · k = .lt) := ⟨trivial, hcmp, trivial⟩
          simp only [reach, hcmp, Tree.replaceAt]
          exact ⟨ihl hl hc', hlk.replaceAt hleaf _, hkr, hr⟩
      | gt =>
          have hc' : r.contains (cmp key) = false := by
            simpa [contains, search, hcmp] using hc
          have hleaf : (leaf key value).Forall (cmp k · = .lt) :=
            ⟨trivial, Std.OrientedCmp.lt_of_gt hcmp, trivial⟩
          simp only [reach, hcmp, Tree.replaceAt]
          exact ⟨hl, hlk, hkr.replaceAt hleaf _, ihr hr hc'⟩
      | eq => simp [contains, search, hcmp] at hc

/-- Another value leaves the keys as they are. -/
theorem Ordered.overwrite [Std.TransCmp cmp] {t : Tree κ ν} (h : t.Ordered cmp) {q : Probe κ}
    {n : Node κ ν} (hn : t.search q = some n) (new : ν) :
    (t.replaceAt (t.reach q) (.node n.left n.key new n.right)).Ordered cmp := by
  obtain ⟨a, b, ht, ht'⟩ := inorder_overwrite hn new
  apply h.of_sublist
  rw [ht, ht', List.map_append, List.map_append]
  exact .refl _

end Tree

namespace Map

/-! ## The order along a history -/

/-- The kept size is right and the tree is in order. -/
structure Sound (m : Map κ ν cmp) : Prop where
  counted : m.Counted
  ordered : m.tree.Ordered cmp

theorem sound_empty : (empty : Map κ ν cmp).Sound := ⟨counted_empty, trivial⟩

section
variable [Std.TransCmp cmp] {m : Map κ ν cmp}

theorem Sound.insert (hm : m.Sound) (k : κ) (v : ν) : (m.insert k v).map.Sound := by
  refine ⟨hm.counted.insert k v, ?_⟩
  rw [hm.counted.insert_eq]
  cases h : m.contains (cmp k) with
  | true => exact hm.ordered
  | false => exact hm.ordered.hang_leaf h v

theorem Sound.delete (hm : m.Sound) (q : Probe κ) : (m.delete q).map.Sound := by
  refine ⟨hm.counted.delete q, hm.ordered.of_sublist ?_⟩
  rw [← entries_eq, ← entries_eq]
  exact (hm.counted.entries_delete_sublist q).map Prod.fst

theorem Sound.overwrite (hm : m.Sound) (q : Probe κ) (v : ν) : (m.overwrite q v).map.Sound := by
  refine ⟨(effect_overwrite m id q v).counted hm.counted, ?_⟩
  rw [overwrite_eq]
  cases h : m.search q with
  | none => exact hm.ordered
  | some n => exact hm.ordered.overwrite h v

theorem Sound.extend (hm : m.Sound) (items : List (κ × ν)) : (m.extend items).map.Sound := by
  induction items generalizing m with
  | nil => exact hm
  | cons e items ih =>
      rw [hm.counted.extend_cons]
      exact ih (hm.insert e.1 e.2)

theorem Sound.perform (hm : m.Sound) (view : ι → Probe κ) (c : Command κ ι ν) :
    (m.perform view c).map.Sound := by
  cases c with
  | insert k v => exact hm.insert k v
  | delete q => exact hm.delete (view q)
  | overwrite q v => exact hm.overwrite (view q) v
  | extend items => exact hm.extend items
  | clear => exact sound_empty
  | copy =>
      rw [Map.perform, recopy, copy_eq]
      exact hm
  | get | find | contains | search | size | isEmpty | entries => exact hm

theorem Reachable.sound {view : ι → Probe κ} (h : Reachable view m) : m.Sound :=
  h.induct sound_empty fun _ c hm => hm.perform view c

theorem Sound.pairwise_entries (hm : m.Sound) :
    m.entries.Pairwise fun e₁ e₂ => cmp e₁.1 e₂.1 = .lt := by
  rw [entries_eq]
  exact hm.ordered.pairwise_inorder

/-- Two places of the listing never hold keys that compare equal. -/
theorem Sound.entries_distinct (hm : m.Sound) {i j : Nat} (hi : i < m.entries.length)
    (hj : j < m.entries.length) (h : cmp m.entries[i].1 m.entries[j].1 = .eq) : i = j := by
  have hrise := List.pairwise_iff_getElem.mp hm.pairwise_entries
  rcases Nat.lt_trichotomy i j with hlt | heq | hgt
  · exact nomatch h.symm.trans (hrise i j hi hj hlt)
  · exact heq
  · exact nomatch (Std.OrientedCmp.eq_symm h).symm.trans (hrise j i hj hi hgt)

end

/-- Whatever the queries are, the tree of every reachable map stays in search order, its keys rise
from left to right, and no two of them compare equal. -/
theorem order_never_broken [Std.TransCmp cmp] (view : ι → Probe κ) {m : Map κ ν cmp}
    (hm : Reachable view m) :
    (∀ p n, m.nodeAt? p = some n →
      (∀ e ∈ n.left.inorder, cmp e.1 n.key = .lt) ∧
        ∀ e ∈ n.right.inorder, cmp e.1 n.key = .gt) ∧
    m.entries.Pairwise (fun e₁ e₂ => cmp e₁.1 e₂.1 = .lt) ∧
    ∀ (i j : Nat) (hi : i < m.entries.length) (hj : j < m.entries.length),
      cmp m.entries[i].1 m.entries[j].1 = .eq → i = j := by
  refine ⟨?_, hm.sound.pairwise_entries, ?_⟩
  · intro p n hn
    obtain ⟨-, hleft, hright, -⟩ := hm.sound.ordered.of_nodeAt? hn
    constructor
    · exact Tree.forall_iff_mem_inorder.mp hleft
    · intro e he
      exact Std.OrientedCmp.gt_of_lt (Tree.forall_iff_mem_inorder.mp hright e he)
  · intro i j hi hj h
    exact hm.sound.entries_distinct hi hj h

/-- Integers in their usual order, deleted by their distance from zero: the root has two children,
and the other match of the query is below its left child. -/
theorem order_never_broken_byMagnitude :
    let m : Map Int String compare :=
      (empty.run Probe.byMagnitude [.insert 4 "a", .insert (-4) "b", .insert 9 "c", .insert 6 "d",
        .insert (-9) "e", .overwrite 6 "f", .delete (-4)]).map
    Std.TransCmp (compare : Int → Int → Ordering) ∧ Reachable Probe.byMagnitude m ∧
    (∀ p n, m.nodeAt? p = some n →
      (∀ e ∈ n.left.inorder, compare e.1 n.key = .lt) ∧
        ∀ e ∈ n.right.inorder, compare e.1 n.key = .gt) ∧
    m.entries.Pairwise (fun e₁ e₂ => compare e₁.1 e₂.1 = .lt) ∧
    ∀ (i j : Nat) (hi : i < m.entries.length) (hj : j < m.entries.length),
      compare m.entries[i].1 m.entries[j].1 = .eq → i = j := by
  intro m
  exact ⟨inferInstance, ⟨_, rfl⟩, order_never_broken Probe.byMagnitude ⟨_, rfl⟩⟩

end Map

end SearchTree
