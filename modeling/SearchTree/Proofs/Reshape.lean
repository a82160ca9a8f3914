/-
# `SearchTree.Proofs.Reshape` — the tree after a deletion, place by place

A deletion is told by two relations that know nothing of how it is carried out.

`Targeted q t p n`: the node `n` at the place `p` is the one that goes.

    root      the root, if it matches
    left      else the left child of the node that the walk over the parents finds,
              if it matches
    right     else the right child of that node

`Refilled n rest`: `rest` is what comes to the place of `n`.

    leaf          nothing, if there are no children
    leftOnly      the only subtree that there is
    rightOnly
    successor     with two children, a node with the entry of the leftmost node on the
                  right, between the left subtree as it was and the right subtree, in
                  which that leftmost node has given way to its own right subtree

Everything outside the subtree at `p` stays where it is, with its key and its value.
The tree may be in any order, and the query may follow any other.
-/
import SearchTree.Proofs.Conservation
import SearchTree.Proofs.ParentWalk

namespace SearchTree

variable {κ ν : Type} {cmp : κ → κ → Ordering}

/-- The node that a deletion takes out, and its place. -/
inductive Targeted (q : Probe κ) (t : Tree κ ν) : Path → Node κ ν → Prop where
  | root {n : Node κ ν} : t.root? = some n → q n.key = .eq → Targeted q t [] n
  | left {s : Site κ ν} {n : Node κ ν} : (∀ r, t.root? = some r → q r.key ≠ .eq) →
      t.parentSite? q = some s → s.node.left? = some n → q n.key = .eq →
      Targeted q t (s.path ++ [.left]) n
  | right {s : Site κ ν} {n : Node κ ν} : (∀ r, t.root? = some r → q r.key ≠ .eq) →
      t.parentSite? q = some s → (∀ c, s.node.left? = some c → q c.key ≠ .eq) →
      s.node.right? = some n → q n.key = .eq → Targeted q t (s.path ++ [.right]) n

/-- What comes to the place of a node that is taken out. -/
inductive Refilled : Node κ ν → Tree κ ν → Prop where
  | leaf {n : Node κ ν} : n.left = .empty → n.right = .empty → Refilled n .empty
  | leftOnly {n : Node κ ν} : n.left ≠ .empty → n.right = .empty → Refilled n n.left
  | rightOnly {n : Node κ ν} : n.left = .empty → n.right ≠ .empty → Refilled n n.right
  | successor {n s : Node κ ν} {d : Nat} : n.left ≠ .empty →
      n.right.nodeAt? (List.replicate d .left) = some s → s.left = .empty →
      Refilled n
        (.node n.left s.key s.value (n.right.replaceAt (List.replicate d .left) s.right))

/-! ## The target -/

namespace Node

/-- To ask the child on a side is to ask the root of the subtree there. -/
theorem matchesOn_eq_false_iff {n : Node κ ν} {side : Side} {q : Probe κ} :
    n.matchesOn side q = false ↔ ∀ c, (n.subtree side).root? = some c → q c.key ≠ .eq :=
  Tree.rootMatches_eq_false_iff

/-- The right child is taken only if the left one does not match. -/
theorem matchingSide?_eq_some_iff {n : Node κ ν} {q : Probe κ} {side : Side} :
    n.matchingSide? q = some side ↔
      n.matchesOn side q = true ∧ (side = .right → n.matchesOn .left q = false) := by
  unfold matchingSide?
  cases hl : n.matchesOn .left q <;> cases hr : n.matchesOn .right q <;> cases side <;>
    simp [hl, hr]

end Node

namespace Tree

theorem targeted_of_target {q : Probe κ} {t : Tree κ ν} {p : Path} {n : Node κ ν}
    (h : t.target q = .ok p) (hn : t.nodeAt? p = some n) : Targeted q t p n := by
  rw [target, slotParent?_eq] at h
  split at h
  · next hroot =>
      obtain rfl := Except.ok.inj h
      obtain ⟨r, hr, hmatch⟩ := rootMatches_iff.mp hroot
      obtain rfl : r = n := by simpa [hr] using hn
      exact .root hr hmatch
  · next hroot =>
      have hroot := rootMatches_eq_false_iff.mp (Bool.eq_false_iff.mpr hroot)
      -- A target was found, so the walk has a site and the site a side.
      split at h
      · cases h
      · next s hs =>
          split at h
          · cases h
          · next side hside =>
              obtain rfl := Except.ok.inj h
              obtain ⟨hmatches, hleft⟩ := Node.matchingSide?_eq_some_iff.mp hside
              obtain ⟨c, hc, hmatch⟩ := Node.matchesOn_iff.mp hmatches
              have hchild := nodeAt?_concat (parentSite?_first hs).1 side
              obtain rfl : c = n := by
                rw [hchild, hc] at hn
                exact Option.some.inj hn
              cases side with
              | left => exact .left hroot hs hc hmatch
              | right =>
                  exact .right hroot hs (Node.matchesOn_eq_false_iff.mp (hleft rfl)) hc hmatch

/-! ## What comes to its place -/

/-- The leftmost node is at the end of the way that goes left as long as it can. -/
theorem exists_leftmost {t : Tree κ ν} (h : t ≠ .empty) :
    ∃ d s, t.nodeAt? (List.replicate d .left) = some s ∧ s.left = .empty ∧
      t.leftmost? = some s.entry ∧
      t.dropLeftmost = t.replaceAt (List.replicate d .left) s.right := by
  induction t with
  | empty => exact absurd rfl h
  | node l k v r ihl _ =>
      by_cases hl : l = .empty
      · subst hl
        exact ⟨0, ⟨k, v, .empty, r⟩, rfl, rfl, rfl, rfl⟩
      · have hempty : l.isEmpty = false := isEmpty_eq_false_iff.mpr hl
        obtain ⟨d, s, hs, hleft, hentry, hdrop⟩ := ihl hl
        refine ⟨d + 1, s, hs, hleft, ?_, ?_⟩
        · simp [leftmost?, hempty, hentry]
        · simp [dropLeftmost, hempty, hdrop, List.replicate_succ, replaceAt]

theorem refilled_merged (n : Node κ ν) : Refilled n (merged n.left n.right) := by
  unfold merged
  by_cases hl : n.left = .empty
  · rw [if_pos (isEmpty_iff.mpr hl)]
    by_cases hr : n.right = .empty
    · rw [hr]
      exact .leaf hl hr
    · exact .rightOnly hl hr
  · rw [if_neg (by simpa using hl)]
    by_cases hr : n.right = .empty
    · rw [hr]
      exact .leftOnly hl hr
    · obtain ⟨d, s, hs, hleft, hentry, hdrop⟩ := exists_leftmost hr
      rw [hentry, hdrop]
      exact .successor hl hs hleft

end Tree

namespace Map

/-- Let the descent meet a match.  Then the deletion takes out the root if it matches, and else the
matching child, the left one first, of the node that the look-up of the parent finds before.  It
answers with the value there; what the node leaves behind comes to its place, and nothing else
moves. -/
theorem delete_refills_target {m : Map κ ν cmp} (hm : m.Counted) {q : Probe κ}
    (hc : m.contains q = true) :
    let m' := (m.delete q).map
    ∃ p n rest, Targeted q m.tree p n ∧ Refilled n rest ∧
      (∀ s, m.tree.parentSite? q = some s →
        m.parent? q = some s.node ∧ m.nodeAt? s.path = some s.node) ∧
      m.nodeAt? p = some n ∧ (m.delete q).reply = .ok n.value ∧
      m'.tree = m.tree.replaceAt p rest ∧ m'.tree.subtree? p = some rest ∧
      (∀ p', ¬ p <+: p' → (m'.nodeAt? p').map Node.entry = (m.nodeAt? p').map Node.entry) ∧
      m.size = m'.size + 1 := by
  intro m'
  obtain ⟨p, n, kind, hp, hn, -, -, hpos, hd⟩ := hm.delete_of_contains hc
  have htree : m'.tree = m.tree.replaceAt p (Tree.merged n.left n.right) := by
    simp only [m', hd]
  refine ⟨p, n, Tree.merged n.left n.right, Tree.targeted_of_target hp hn,
    Tree.refilled_merged n, ?_, hn, by rw [hd], htree, ?_, ?_, ?_⟩
  · intro s hs
    refine ⟨?_, (Tree.parentSite?_first hs).1⟩
    rw [parent?, Tree.parent?, hs, Option.map_some]
  · rw [htree]
    exact Tree.subtree?_replaceAt_self _ (by rw [Tree.nodeAt?_eq_some_iff.mp hn]; rfl)
  · intro p' hp'
    rw [nodeAt?, htree]
    exact Tree.nodeAt?_replaceAt_of_not_prefix hp' m.tree _
  · simp only [m', hd]
    exact (Nat.succ_pred_eq_of_pos hpos).symm

/-- Four keys of the thirties in a tree out of order.  The descent meets 35, but the walk comes
first to 37, on the right of the root.  Its place is taken by 38, from below 40, and 39 comes to the
place of 38. -/
theorem delete_refills_target_out_of_order :
    let l : Tree Int String := .node .empty 12 "a" (.leaf 35 "b")
    let m : Map Int String compare :=
      ⟨.node l 50 "c" (.node (.leaf 20 "d") 37 "e"
        (.node (.node .empty 38 "f" (.leaf 39 "g")) 40 "h" .empty)), 8⟩
    let q := Probe.byTens 31
    m.Counted ∧ m.contains q = true ∧ m.get? q = some "b" ∧ (m.delete q).reply.toOption = some "e" ∧
    (m.delete q).map.tree
      = .node l 50 "c" (.node (.leaf 20 "d") 38 "f" (.node (.leaf 39 "g") 40 "h" .empty)) ∧
    ∃ p n rest, Targeted q m.tree p n ∧ Refilled n rest ∧ m.nodeAt? p = some n ∧
      (m.delete q).reply = .ok n.value ∧ (m.delete q).map.tree = m.tree.replaceAt p rest := by
  intro l m q
  have hm : m.Counted := rfl
  have hc : m.contains q = true := rfl
  obtain ⟨p, n, rest, htarget, hrefill, -, hn, hreply, htree, -⟩ := delete_refills_target hm hc
  exact ⟨hm, hc, rfl, by decide +kernel, by decide +kernel, p, n, rest, htarget, hrefill, hn,
    hreply, htree⟩

end Map

end SearchTree
