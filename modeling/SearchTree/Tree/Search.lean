/-
# `SearchTree.Tree.Search` — the descent of a look-up

A query is nothing but its comparison with the stored keys (`Probe`): `lt` sends
the descent to the left, `gt` to the right, and `eq` ends it.  The order behind
a probe need not be the order in which the tree was built.  Several keys may
match, or none on the way down although some match elsewhere; the descent then
finds what it meets first, or nothing.

Beside `search` stand the place where the descent ends (`reach`) and the nodes
it compares on the way (`visited`).
-/
import SearchTree.Tree.Position

namespace SearchTree

/-- A query, as its comparison with each stored key: `lt` when it lies before the key. -/
abbrev Probe (κ : Type) := κ → Ordering

variable {κ ν : Type}

namespace Tree

/-- The first matching node on the way down. -/
def search (q : Probe κ) : Tree κ ν → Option (Node κ ν)
  | .empty => none
  | .node l k v r =>
      match q k with
      | .lt => l.search q
      | .gt => r.search q
      | .eq => some ⟨k, v, l, r⟩

/-- Whether the descent meets a match. -/
def contains (q : Probe κ) (t : Tree κ ν) : Bool := (t.search q).isSome

/-- The place where the descent ends: at its match, or in a free slot. -/
def reach (q : Probe κ) : Tree κ ν → Path
  | .empty => []
  | .node l k _ r =>
      match q k with
      | .lt => .left :: l.reach q
      | .gt => .right :: r.reach q
      | .eq => []

/-- The nodes that the descent compares, from the root down. -/
def visited (q : Probe κ) : Tree κ ν → List (Node κ ν)
  | .empty => []
  | .node l k v r =>
      ⟨k, v, l, r⟩ ::
        match q k with
        | .lt => l.visited q
        | .gt => r.visited q
        | .eq => []

/-- Writes a value at the first match on the way down; answers with the value that was there. -/
def overwrite? (q : Probe κ) (new : ν) : Tree κ ν → Option (ν × Tree κ ν)
  | .empty => none
  | .node l k v r =>
      match q k with
      | .lt => (l.overwrite? q new).map fun (old, l') => (old, .node l' k v r)
      | .gt => (r.overwrite? q new).map fun (old, r') => (old, .node l k v r')
      | .eq => some (v, .node l k new r)

/-! ## Where the descent ends -/

/-- What the descent answers is what lies where it ends. -/
theorem subtree?_reach (q : Probe κ) (t : Tree κ ν) :
    t.subtree? (t.reach q) = some (((t.search q).map Node.toTree).getD .empty) := by
  induction t with
  | empty => rfl
  | node l k v r ihl ihr =>
      simp only [reach, search]
      cases q k <;> simp [subtree?, ihl, ihr, Node.toTree]

/-- What the descent answers is the first match among the nodes that it compares. -/
theorem search_eq_find?_visited (q : Probe κ) (t : Tree κ ν) :
    t.search q = (t.visited q).find? fun n => (q n.key).isEq := by
  induction t with
  | empty => rfl
  | node l k v r ihl ihr =>
      rw [search, visited, List.find?_cons]
      cases q k with
      | lt => exact ihl
      | gt => exact ihr
      | eq => rfl

/-- The node found matches. -/
theorem match_of_search {q : Probe κ} {t : Tree κ ν} {n : Node κ ν}
    (h : t.search q = some n) : q n.key = .eq := by
  induction t with
  | empty => simp [search] at h
  | node l k v r ihl ihr =>
      rw [search] at h
      split at h
      · exact ihl h
      · exact ihr h
      · next hk => obtain rfl := Option.some.inj h; exact hk

end Tree

end SearchTree
