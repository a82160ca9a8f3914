/-
# `SearchTree.Tree.Ordered` — trees in search order

`Ordered cmp t` says of every node that all keys on its left lie before it and
all keys on its right after it: all keys of the subtrees, and not only those of
the children.  It is a property of a tree and not part of its type, because
look-ups, walks and deletions are defined for trees in any order.

`Probe.Monotone` is what a query has in common with the order when it may be
coarser: what lies after the query stays after it as the keys grow, and what
lies before it stays before it as they fall.
-/
import SearchTree.Tree.Search

namespace SearchTree

variable {κ ν : Type}

namespace Tree

/-- Every key of the tree has the property. -/
def Forall (P : κ → Prop) : Tree κ ν → Prop
  | .empty => True
  | .node l k _ r => l.Forall P ∧ P k ∧ r.Forall P

/-- At every node the left keys lie before its key, and the right keys after it. -/
def Ordered (cmp : κ → κ → Ordering) : Tree κ ν → Prop
  | .empty => True
  | .node l k _ r =>
      l.Ordered cmp ∧ l.Forall (cmp · k = .lt) ∧ r.Forall (cmp k · = .lt) ∧ r.Ordered cmp

theorem forall_iff_mem_inorder {P : κ → Prop} {t : Tree κ ν} :
    t.Forall P ↔ ∀ e ∈ t.inorder, P e.1 := by
  induction t with
  | empty => simp [Forall, inorder]
  | node l k v r ihl ihr =>
      simp only [Forall, inorder, ihl, ihr, List.mem_append, List.mem_cons]
      constructor
      · rintro ⟨hl, hk, hr⟩ e (he | rfl | he)
        · exact hl e he
        · exact hk
        · exact hr e he
      · intro h
        exact ⟨fun e he => h e (.inl he), h (k, v) (.inr (.inl rfl)),
          fun e he => h e (.inr (.inr he))⟩

/-- The keys of an ordered tree rise from left to right. -/
theorem Ordered.pairwise_inorder {cmp : κ → κ → Ordering} [Std.TransCmp cmp] {t : Tree κ ν}
    (h : t.Ordered cmp) : t.inorder.Pairwise fun e₁ e₂ => cmp e₁.1 e₂.1 = .lt := by
  induction t with
  | empty => exact .nil
  | node l k v r ihl ihr =>
      obtain ⟨hl, hlk, hkr, hr⟩ := h
      have hlk' := forall_iff_mem_inorder.mp hlk
      have hkr' := forall_iff_mem_inorder.mp hkr
      rw [inorder, List.pairwise_append]
      refine ⟨ihl hl, List.pairwise_cons.mpr ⟨hkr', ihr hr⟩, fun e₁ h₁ e₂ h₂ => ?_⟩
      rcases List.mem_cons.mp h₂ with rfl | h₂
      · exact hlk' e₁ h₁
      · exact Std.TransCmp.lt_trans (hlk' e₁ h₁) (hkr' e₂ h₂)

end Tree

/-- A query that goes along an order, though it may not tell all keys apart. -/
def Probe.Monotone (cmp : κ → κ → Ordering) (q : Probe κ) : Prop :=
  ∀ k₁ k₂, cmp k₁ k₂ = .lt → (q k₁ = .lt → q k₂ = .lt) ∧ (q k₂ = .gt → q k₁ = .gt)

/-- A query by key goes along the order of the keys. -/
theorem Probe.monotone_of_key {cmp : κ → κ → Ordering} [Std.TransCmp cmp] (key : κ) :
    Probe.Monotone cmp (cmp key) := by
  intro k₁ k₂ h
  constructor
  · exact fun h₁ => Std.TransCmp.lt_trans h₁ h
  · intro h₂
    exact Std.TransCmp.gt_trans h₂ (Std.OrientedCmp.gt_of_lt h)

end SearchTree
