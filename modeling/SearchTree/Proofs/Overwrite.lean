/-
# `SearchTree.Proofs.Overwrite` — another value at the node that a look-up finds

To overwrite is to go down as a look-up does and to write where it ends.  Of the tree
without its values (`keyTree`) this changes nothing at all, and it is by the keys alone
that a descent finds its way (`reach_keyTree`).  So, after a value is written,

    every descent      ends at the place where it ended before
    at the one place   it finds the new value, under the key that was there
    anywhere else      it finds what it found, or nothing as before

The tree may be in any order, and neither the query that writes nor one that reads
afterwards need follow it.
-/
import SearchTree.Key
import SearchTree.Proofs.Conservation

namespace SearchTree

variable {κ ν κ' ν' : Type} {cmp : κ → κ → Ordering}

/-- The node with another value. -/
def Node.withValue (n : Node κ ν) (new : ν) : Node κ ν := { n with value := new }

namespace Tree

/-! ## The tree without its values -/

/-- The keys alone, each at its place. -/
def keyTree (t : Tree κ ν) : Tree κ Unit := t.mapEntries id fun _ => ()

theorem reach_keyTree (q : Probe κ) (t : Tree κ ν) : t.keyTree.reach q = t.reach q := by
  induction t with
  | empty => rfl
  | node l k v r ihl ihr =>
      show reach q (.node l.keyTree k () r.keyTree) = _
      rw [reach, reach, ihl, ihr]

theorem subtree?_mapEntries (f : κ → κ') (g : ν → ν') (p : Path) (t : Tree κ ν) :
    (t.mapEntries f g).subtree? p = (t.subtree? p).map (mapEntries f g) := by
  induction p generalizing t with
  | nil => simp
  | cons d p ih =>
      cases t with
      | empty => simp [mapEntries]
      | node l k v r =>
          cases d with
          | left => exact ih l
          | right => exact ih r

theorem mapEntries_replaceAt (f : κ → κ') (g : ν → ν') (p : Path) (t s : Tree κ ν) :
    (t.replaceAt p s).mapEntries f g = (t.mapEntries f g).replaceAt p (s.mapEntries f g) := by
  induction p generalizing t with
  | nil => simp
  | cons d p ih =>
      cases t with
      | empty => rfl
      | node l k v r =>
          cases d with
          | left => simp [replaceAt, mapEntries, ih]
          | right => simp [replaceAt, mapEntries, ih]

/-! ## A value written at a place -/

variable {t : Tree κ ν} {p p' : Path} {n : Node κ ν}

theorem keyTree_write (h : t.nodeAt? p = some n) (new : ν) :
    (t.replaceAt p (n.withValue new).toTree).keyTree = t.keyTree := by
  have hkeys : t.keyTree.subtree? p = some (n.withValue new).toTree.keyTree := by
    rw [keyTree, subtree?_mapEntries, nodeAt?_eq_some_iff.mp h]
    rfl
  rw [keyTree, mapEntries_replaceAt]
  exact replaceAt_subtree? hkeys

theorem reach_write (h : t.nodeAt? p = some n) (new : ν) (q : Probe κ) :
    (t.replaceAt p (n.withValue new).toTree).reach q = t.reach q := by
  rw [← reach_keyTree, keyTree_write h, reach_keyTree]

theorem nodeAt?_write (h : t.nodeAt? p = some n) (new : ν) :
    (t.replaceAt p (n.withValue new).toTree).nodeAt? p = some (n.withValue new) :=
  nodeAt?_eq_some_iff.mpr (subtree?_replaceAt_of_nodeAt? h _)

/-- The subtrees of the node are as they were, so what is below it is not touched either. -/
theorem nodeAt?_write_of_ne (h : t.nodeAt? p = some n) (new : ν) (hp : p' ≠ p) :
    ((t.replaceAt p (n.withValue new).toTree).nodeAt? p').map Node.entry
      = (t.nodeAt? p').map Node.entry := by
  by_cases hbelow : p <+: p'
  · obtain ⟨below, rfl⟩ := hbelow
    rw [nodeAt?_append (subtree?_replaceAt_of_nodeAt? h _),
      nodeAt?_append (nodeAt?_eq_some_iff.mp h)]
    cases below with
    | nil => exact absurd (List.append_nil p) hp
    | cons d below => cases d <;> rfl
  · exact nodeAt?_replaceAt_of_not_prefix hbelow t _

/-- What a look-up answers afterwards. -/
theorem search_write (h : t.nodeAt? p = some n) (new : ν) (q : Probe κ) :
    ((t.replaceAt p (n.withValue new).toTree).search q).map Node.entry =
      if t.reach q = p then some (n.key, new) else (t.search q).map Node.entry := by
  rw [← nodeAt?_reach, reach_write h, ← nodeAt?_reach q t]
  split
  · next hq =>
      rw [hq, nodeAt?_write h]
      rfl
  · next hq => exact nodeAt?_write_of_ne h new hq

end Tree

namespace Map

theorem get?_eq_map_entry (q : Probe κ) (m : Map κ ν cmp) :
    m.get? q = ((m.search q).map Node.entry).map Prod.snd := by
  rw [get?, Option.map_map]
  rfl

/-- To write by a query answers with what the look-up by it finds.  If that is nothing, nothing
changes.  Else just the node that is found has another value: the size, the shape and all keys stay,
and so does the value at every other place.  Afterwards any query ends where it ended before, and
finds the new value if that was at the node, and else what it found. -/
theorem overwrite_touches_found (m : Map κ ν cmp) (q : Probe κ) (new : ν) :
    let m' := (m.overwrite q new).map
    (m.overwrite q new).reply = m.get? q ∧ (m.overwrite q new).events = [] ∧
    ((m.overwrite q new).reply = none ↔ m.search q = none) ∧
    (m.search q = none → m' = m) ∧
    ∀ n, m.search q = some n → ∃ p, m.tree.reach q = p ∧ m.nodeAt? p = some n ∧
      (m.overwrite q new).reply = some n.value ∧ m'.size = m.size ∧
      m'.tree.keyTree = m.tree.keyTree ∧ (m'.nodeAt? p).map Node.entry = some (n.key, new) ∧
      (∀ p', p' ≠ p → (m'.nodeAt? p').map Node.entry = (m.nodeAt? p').map Node.entry) ∧
      ∀ q' : Probe κ, m'.tree.reach q' = m.tree.reach q' ∧
        m'.get? q' = if m.tree.reach q' = p then some new else m.get? q' := by
  intro m'
  have heq := m.overwrite_eq q new
  cases hs : m.search q with
  | none =>
      rw [hs] at heq
      have hm' : m' = m := congrArg Outcome.map heq
      rw [get?, hs, heq]
      exact ⟨rfl, rfl, by simp, fun _ => hm', nofun⟩
  | some n =>
      rw [hs] at heq
      have hat : m.nodeAt? (m.tree.reach q) = some n := (Tree.nodeAt?_reach q m.tree).trans hs
      have hm' : m' = ⟨m.tree.replaceAt (m.tree.reach q) (n.withValue new).toTree, m.size⟩ :=
        congrArg Outcome.map heq
      rw [get?, hs, heq]
      refine ⟨rfl, rfl, by simp, nofun, ?_⟩
      rintro _ ⟨⟩
      refine ⟨_, rfl, hat, rfl, by rw [hm'], ?_, ?_, ?_, ?_⟩
      · rw [hm']
        exact Tree.keyTree_write hat new
      · rw [hm', nodeAt?, Tree.nodeAt?_write hat]
        rfl
      · intro p' hp'
        rw [hm']
        exact Tree.nodeAt?_write_of_ne hat new hp'
      · intro q'
        rw [get?_eq_map_entry, get?_eq_map_entry, hm']
        refine ⟨Tree.reach_write hat new q', ?_⟩
        rw [search, Tree.search_write hat new q', apply_ite (Option.map Prod.snd)]
        rfl

/-- By distance from zero, -3 and 3 both match, and only the one that is met first is written. -/
example :
    let m : Map Int String compare :=
      ⟨.node (.node .empty (-3) "a" .empty) 1 "b" (.node (.leaf 3 "c") 5 "d" .empty), 4⟩
    (m.overwrite (Probe.byMagnitude 3) "e").reply = some "c" ∧
      (m.overwrite (Probe.byMagnitude 3) "e").map.tree
        = .node (.node .empty (-3) "a" .empty) 1 "b" (.node (.leaf 3 "e") 5 "d" .empty) := by
  decide

end Map

end SearchTree
