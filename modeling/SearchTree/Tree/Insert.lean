/-
# `SearchTree.Tree.Insert` — a new leaf where the descent falls off

The descent compares the new key with the node at hand, looks whether the side
it is sent to is free, and hangs the new leaf there if so.  A match on the way
ends it with `duplicateKey`.  No law of the comparison is used: whatever it
answers, the walk takes one step down for each answer.
-/
import SearchTree.Error
import SearchTree.Tree.Basic

namespace SearchTree

variable {κ ν : Type}

namespace Tree

/-- Hangs a subtree on the left of the root; that side must be free. -/
def hangLeft : Tree κ ν → Tree κ ν → Except Error (Tree κ ν)
  | .node .empty k v r, new => .ok (.node new k v r)
  | _, _ => .error (.broken .slotTaken)

/-- Hangs a subtree on the right of the root; that side must be free. -/
def hangRight : Tree κ ν → Tree κ ν → Except Error (Tree κ ν)
  | .node l k v .empty, new => .ok (.node l k v new)
  | _, _ => .error (.broken .slotTaken)

/-- Adds an entry as a new leaf, where the descent by `cmp` falls off. -/
def insert (cmp : κ → κ → Ordering) (key : κ) (value : ν) :
    Tree κ ν → Except Error (Tree κ ν)
  | .empty => .ok (leaf key value)
  | .node l k v r =>
      match cmp key k with
      | .lt =>
          if l.isEmpty then (node l k v r).hangLeft (leaf key value)
          else (l.insert cmp key value).map fun l' => .node l' k v r
      | .gt =>
          if r.isEmpty then (node l k v r).hangRight (leaf key value)
          else (r.insert cmp key value).map fun r' => .node l k v r'
      | .eq => .error .duplicateKey

/-! ## One equation per answer of the comparison

A side that is free and a side that is not come to the same: the leaf goes where
the descent falls off. -/

theorem insert_node_lt {cmp : κ → κ → Ordering} {key k : κ} (h : cmp key k = .lt)
    (value v : ν) (l r : Tree κ ν) :
    (node l k v r).insert cmp key value
      = (l.insert cmp key value).map fun l' => .node l' k v r := by
  cases l <;> simp [insert, h, isEmpty, hangLeft, Except.map]

theorem insert_node_gt {cmp : κ → κ → Ordering} {key k : κ} (h : cmp key k = .gt)
    (value v : ν) (l r : Tree κ ν) :
    (node l k v r).insert cmp key value
      = (r.insert cmp key value).map fun r' => .node l k v r' := by
  cases r <;> simp [insert, h, isEmpty, hangRight, Except.map]

theorem insert_node_eq {cmp : κ → κ → Ordering} {key k : κ} (h : cmp key k = .eq)
    (value v : ν) (l r : Tree κ ν) :
    (node l k v r).insert cmp key value = .error .duplicateKey := by
  simp [insert, h]

end Tree

end SearchTree
