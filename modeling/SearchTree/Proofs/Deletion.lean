/-
# `SearchTree.Proofs.Deletion` — which node a deletion takes out, and what it leaves

The two parts of a deletion, each as a recursion on the tree:

    the place    the root if it matches, else `matchBelow?`: a matching child,
                 the left one first, else the first match below the left child,
                 else the first match below the right child
    the rest     `merged l r`: nothing, the only subtree, or both subtrees under
                 the entry of the leftmost node on the right

`target_eq` and `removeAt_eq` say that the stack walk and the splices come to these,
and which case is reported on the way.  Together they give `delete_of_contains`: once
the descent meets a match, every later step goes through.  No law of the comparison
and no order of the tree is used; the place that is found need not be the one where
the descent ended.
-/
import SearchTree.Proofs.Place
import SearchTree.Tree.Delete

namespace SearchTree

variable {κ ν : Type}

namespace Tree

/-! ## The first match below the root -/

/-- The place of the first match below the root. -/
def matchBelow? (q : Probe κ) : Tree κ ν → Option Path
  | .empty => none
  | .node l _ _ r =>
      if l.rootMatches q then some [.left]
      else if r.rootMatches q then some [.right]
      else ((l.matchBelow? q).map (.left :: ·)).or ((r.matchBelow? q).map (.right :: ·))

theorem rootMatches_iff {q : Probe κ} {t : Tree κ ν} :
    t.rootMatches q = true ↔ ∃ n, t.root? = some n ∧ q n.key = .eq := by
  unfold rootMatches
  cases t.root? with
  | none => simp
  | some n => simp [Ordering.isEq_iff_eq_eq]

theorem rootMatches_eq_false_iff {q : Probe κ} {t : Tree κ ν} :
    t.rootMatches q = false ↔ ∀ n, t.root? = some n → q n.key ≠ .eq := by
  rw [← Bool.not_eq_true, rootMatches_iff]
  simp only [not_exists, not_and, ne_eq]

/-- A descent that ends at the top with a match has met the root. -/
theorem rootMatches_of_reach_nil {q : Probe κ} {t : Tree κ ν} {n : Node κ ν}
    (hs : t.search q = some n) (h : t.reach q = []) : t.rootMatches q = true := by
  have hat : t.nodeAt? (t.reach q) = some n := (nodeAt?_reach q t).trans hs
  rw [h, nodeAt?_nil] at hat
  exact rootMatches_iff.mpr ⟨n, hat, match_of_search hs⟩

/-- A root that matches is met at once. -/
theorem contains_of_rootMatches {q : Probe κ} {t : Tree κ ν} (h : t.rootMatches q = true) :
    t.contains q = true := by
  obtain ⟨n, hn, hm⟩ := rootMatches_iff.mp h
  rw [root?_eq_some_iff.mp hn]
  simp [Node.toTree, contains, search, hm]

end Tree

/-- The place of the matching child of a site. -/
def Site.matchPlace? (q : Probe κ) (s : Site κ ν) : Option Path :=
  (s.node.matchingSide? q).map fun side => s.path ++ [side]

theorem Site.isSome_matchPlace? (q : Probe κ) (s : Site κ ν) :
    (s.matchPlace? q).isSome = s.node.isParentOf q := by
  rw [matchPlace?, Option.isSome_map, Node.isParentOf_eq_isSome]

/-- The first parent of a match has the first place of a match. -/
theorem Site.find?_bind_matchPlace? (q : Probe κ) (sites : List (Site κ ν)) :
    (sites.find? fun s => s.node.isParentOf q).bind (Site.matchPlace? q)
      = sites.findSome? (Site.matchPlace? q) := by
  induction sites with
  | nil => rfl
  | cons s sites ih =>
      rw [List.find?_cons, List.findSome?_cons, ← Site.isSome_matchPlace?]
      cases h : s.matchPlace? q with
      | none => simpa [h] using ih
      | some p => simp [h]

namespace Tree

theorem findSome?_sitesFrom (q : Probe κ) (trail : List Side) (t : Tree κ ν) :
    (t.sitesFrom trail).findSome? (Site.matchPlace? q)
      = (t.matchBelow? q).map (trail.reverse ++ ·) := by
  induction t generalizing trail with
  | empty => rfl
  | node l k v r ihl ihr =>
      have hside : (Node.mk k v l r).matchingSide? q =
          if l.rootMatches q then some .left
          else if r.rootMatches q then some .right else none := rfl
      rw [sitesFrom, List.findSome?_cons, List.findSome?_append, ihl, ihr, matchBelow?,
        Site.matchPlace?, hside]
      cases l.rootMatches q with
      | true => simp [Site.path]
      | false =>
          cases r.rootMatches q with
          | true => simp [Site.path]
          | false =>
              cases l.matchBelow? q <;> cases r.matchBelow? q <;> simp

/-- The walk over the sites, and the side taken at the site it finds. -/
theorem bind_parentSite? (q : Probe κ) (t : Tree κ ν) :
    (t.parentSite? q).bind (Site.matchPlace? q) = t.matchBelow? q := by
  rw [parentSite?_eq, Site.find?_bind_matchPlace?, sites, findSome?_sitesFrom]
  simp

/-- The place of a deletion, by recursion on the tree. -/
theorem target_eq (q : Probe κ) (t : Tree κ ν) :
    t.target q =
      if t.rootMatches q then .ok []
      else
        match t.matchBelow? q with
        | none => .error (.broken .noParent)
        | some p => .ok p := by
  rw [target, slotParent?_eq]
  split
  · rfl
  · rw [← bind_parentSite?]
    cases hs : t.parentSite? q with
    | none => rfl
    | some s =>
        -- The walk stops at parents only, so there is a side to take.
        have hp : s.node.isParentOf q = true := by
          rw [parentSite?_eq] at hs
          simpa using List.find?_some hs
        rw [Node.isParentOf_eq_isSome] at hp
        obtain ⟨side, hside⟩ := Option.isSome_iff_exists.mp hp
        simp [Site.matchPlace?, hside]

/-! ## A match that the descent meets is found by the walk -/

theorem nodeAt?_of_matchBelow? {q : Probe κ} {t : Tree κ ν} {p : Path}
    (h : t.matchBelow? q = some p) : ∃ n, t.nodeAt? p = some n ∧ q n.key = .eq := by
  induction t generalizing p with
  | empty => exact nomatch h
  | node l k v r ihl ihr =>
      rw [matchBelow?] at h
      split at h
      · next hl =>
          obtain rfl := Option.some.inj h
          simpa using rootMatches_iff.mp hl
      · split at h
        · next hr =>
            obtain rfl := Option.some.inj h
            simpa using rootMatches_iff.mp hr
        · rcases Option.or_eq_some_iff.mp h with h | ⟨-, h⟩
          · obtain ⟨p, hp, rfl⟩ := Option.map_eq_some_iff.mp h
            exact ihl hp
          · obtain ⟨p, hp, rfl⟩ := Option.map_eq_some_iff.mp h
            exact ihr hp

/-- The walk leaves no node out: a match at any place below the root gives it something to find. -/
theorem isSome_matchBelow? {q : Probe κ} {t : Tree κ ν} {p : Path} {n : Node κ ν}
    (hn : t.nodeAt? p = some n) (hq : q n.key = .eq) (hp : p ≠ []) :
    (t.matchBelow? q).isSome = true := by
  induction t generalizing p with
  | empty => simp at hn
  | node l k v r ihl ihr =>
      rw [matchBelow?]
      split
      · rfl
      · next hl =>
          split
          · rfl
          · next hr =>
              match p, hp with
              | .left :: p, _ =>
                  have hne : p ≠ [] := by
                    rintro rfl
                    exact hl (rootMatches_iff.mpr ⟨n, by simpa using hn, hq⟩)
                  simp [ihl hn hne]
              | .right :: p, _ =>
                  have hne : p ≠ [] := by
                    rintro rfl
                    exact hr (rootMatches_iff.mpr ⟨n, by simpa using hn, hq⟩)
                  simp [ihr hn hne]

/-- If the descent meets a match, the deletion has a place to remove from, and a match is there. -/
theorem target_of_contains {q : Probe κ} {t : Tree κ ν} (h : t.contains q = true) :
    ∃ p n, t.target q = .ok p ∧ t.nodeAt? p = some n ∧ q n.key = .eq := by
  rw [target_eq]
  split
  · next hroot =>
      obtain ⟨n, hn, hq⟩ := rootMatches_iff.mp hroot
      exact ⟨[], n, rfl, by simpa using hn, hq⟩
  · next hroot =>
      obtain ⟨n, hn⟩ := Option.isSome_iff_exists.mp h
      have hreach : t.nodeAt? (t.reach q) = some n := (nodeAt?_reach q t).trans hn
      have hne : t.reach q ≠ [] := by
        intro hnil
        exact hroot (rootMatches_of_reach_nil hn hnil)
      obtain ⟨p, hp⟩ := Option.isSome_iff_exists.mp
        (isSome_matchBelow? hreach (match_of_search hn) hne)
      obtain ⟨n', hn', hq'⟩ := nodeAt?_of_matchBelow? hp
      exact ⟨p, n', by rw [hp], hn', hq'⟩

/-! ## What is left of a node's subtree -/

/-- The entry of the leftmost node. -/
def leftmost? : Tree κ ν → Option (κ × ν)
  | .empty => none
  | .node l k v _ => if l.isEmpty then some (k, v) else l.leftmost?

/-- The leftmost node replaced by its right subtree. -/
def dropLeftmost : Tree κ ν → Tree κ ν
  | .empty => .empty
  | .node l k v r => if l.isEmpty then r else .node l.dropLeftmost k v r

/-- What takes the place of a node between two subtrees. -/
def merged (l r : Tree κ ν) : Tree κ ν :=
  if l.isEmpty then r
  else
    match r.leftmost? with
    | none => l
    | some e => .node l e.1 e.2 r.dropLeftmost

theorem detachLeftmost_eq {t : Tree κ ν} (h : t ≠ .empty) :
    ∃ e, t.leftmost? = some e ∧ t.detachLeftmost = .ok (e, t.dropLeftmost) := by
  induction t with
  | empty => exact absurd rfl h
  | node l k v r ihl _ =>
      by_cases hl : l = .empty
      · subst hl
        exact ⟨(k, v), rfl, rfl⟩
      · obtain ⟨e, he, hd⟩ := ihl hl
        have hempty : l.isEmpty = false := isEmpty_eq_false_iff.mpr hl
        exact ⟨e, by simp [leftmost?, hempty, he],
          by simp [detachLeftmost, dropLeftmost, hempty, hd, Except.map]⟩

/-- The entry of the leftmost node comes first, and then those of the tree without it. -/
theorem inorder_eq_leftmost_cons {t : Tree κ ν} (h : t ≠ .empty) :
    ∃ e, t.leftmost? = some e ∧ t.inorder = e :: t.dropLeftmost.inorder := by
  obtain ⟨e, he, hd⟩ := detachLeftmost_eq h
  obtain ⟨e', rest, hd', hi⟩ := detachLeftmost_inorder h
  obtain ⟨rfl, rfl⟩ : e = e' ∧ t.dropLeftmost = rest := by
    simpa using hd.symm.trans hd'
  exact ⟨e, he, hi⟩

@[simp] theorem inorder_merged (l r : Tree κ ν) :
    (merged l r).inorder = l.inorder ++ r.inorder := by
  unfold merged
  by_cases hl : l = .empty
  · simp [hl, isEmpty, inorder]
  · rw [if_neg (by simpa using hl)]
    by_cases hr : r = .empty
    · simp [hr, leftmost?, inorder]
    · obtain ⟨e, he, hi⟩ := inorder_eq_leftmost_cons hr
      simp [he, inorder, hi]

/-- A node that is there can be removed: its case is reported, its value is the answer, and its
subtrees are merged. -/
theorem removeRoot_eq (n : Node κ ν) :
    ∃ kind : RemovalCase, kind.childCount = n.childCount ∧
      n.toTree.removeRoot = ⟨.ok ⟨n.value, merged n.left n.right⟩, [.removingNode kind]⟩ := by
  obtain ⟨k, v, l, r⟩ := n
  cases l with
  | empty =>
      cases r with
      | empty => exact ⟨.leaf, rfl, rfl⟩
      | node rl rk rv rr => exact ⟨.oneChild, rfl, rfl⟩
  | node ll lk lv lr =>
      cases r with
      | empty => exact ⟨.oneChild, rfl, rfl⟩
      | node rl rk rv rr =>
          obtain ⟨e, he, hd⟩ := detachLeftmost_eq (t := node rl rk rv rr) (by simp)
          refine ⟨.twoChildren, rfl, ?_⟩
          simp [Node.toTree, removeRoot, Node.hasLeft, Node.hasRight, isEmpty, hd, Except.map,
            merged, he]

theorem removeAt_eq {p : Path} {t : Tree κ ν} {n : Node κ ν} (h : t.nodeAt? p = some n) :
    ∃ kind : RemovalCase, kind.childCount = n.childCount ∧
      t.removeAt p
        = ⟨.ok ⟨p, n.value, t.replaceAt p (merged n.left n.right)⟩, [.removingNode kind]⟩ := by
  obtain ⟨kind, hkind, hr⟩ := removeRoot_eq n
  refine ⟨kind, hkind, ?_⟩
  rw [removeAt, nodeAt?_eq_some_iff.mp h]
  simp [hr, Reported.map, Except.map]

/-- A removal is one entry less, and the others stay in their order. -/
theorem inorder_removeAt {p : Path} {t : Tree κ ν} {n : Node κ ν} (h : t.nodeAt? p = some n) :
    ∃ a b, t.inorder = a ++ n.entry :: b ∧
      (t.replaceAt p (merged n.left n.right)).inorder = a ++ b := by
  obtain ⟨a, b, ht, hs⟩ := inorder_around_node h
  refine ⟨a ++ n.left.inorder, n.right.inorder ++ b, ht, ?_⟩
  simp [hs]

/-! ## The whole deletion -/

theorem delete_of_not_contains {q : Probe κ} {t : Tree κ ν} (h : t.contains q = false) :
    t.delete q = .failed .keyNotFound := by
  simp [delete, h]

theorem delete_of_contains {q : Probe κ} {t : Tree κ ν} (h : t.contains q = true) :
    ∃ p n kind, t.target q = .ok p ∧ t.nodeAt? p = some n ∧ q n.key = .eq ∧
      kind.childCount = n.childCount ∧
      t.delete q
        = ⟨.ok ⟨p, n.value, t.replaceAt p (merged n.left n.right)⟩, [.removingNode kind]⟩ := by
  obtain ⟨p, n, hp, hn, hq⟩ := target_of_contains h
  obtain ⟨kind, hkind, hr⟩ := removeAt_eq hn
  refine ⟨p, n, kind, hp, hn, hq, hkind, ?_⟩
  rw [delete, if_pos h, hp]
  exact hr

end Tree

end SearchTree
