/-
# `SearchTree.Tree.Position` — places in a tree

A place is the way to it: the list of sides taken from the root.  Such a way
leads to a subtree, to an empty slot below a node (the subtree is then `empty`),
or nowhere.  `subtree?` reads what is at a place and `replaceAt` writes there;
the lemmas say that a write is read back, that writing back what was read
changes nothing, and that a write elsewhere is not seen.
-/
import SearchTree.Tree.Basic

namespace SearchTree

/-- One of the two children. -/
inductive Side where
  | left
  | right
  deriving DecidableEq, Repr

/-- The sides to take from the root. -/
abbrev Path := List Side

variable {κ ν : Type}

namespace Node

/-- The subtree on a side. -/
def subtree (n : Node κ ν) : Side → Tree κ ν
  | .left => n.left
  | .right => n.right

end Node

namespace Tree

/-- What is at a place: a subtree, which is `empty` in a free slot, or nothing beyond one. -/
def subtree? : Path → Tree κ ν → Option (Tree κ ν)
  | [], t => some t
  | _ :: _, .empty => none
  | .left :: p, .node l _ _ _ => subtree? p l
  | .right :: p, .node _ _ _ r => subtree? p r

/-- The node at a place. -/
def nodeAt? (p : Path) (t : Tree κ ν) : Option (Node κ ν) :=
  (t.subtree? p).bind root?

/-- Puts a subtree in the place of another; a way that leads nowhere changes nothing. -/
def replaceAt : Tree κ ν → Path → Tree κ ν → Tree κ ν
  | _, [], s => s
  | .empty, _ :: _, _ => .empty
  | .node l k v r, .left :: p, s => .node (l.replaceAt p s) k v r
  | .node l k v r, .right :: p, s => .node l k v (r.replaceAt p s)

/-! ## Reading and writing at a place -/

@[simp] theorem subtree?_nil (t : Tree κ ν) : t.subtree? [] = some t := by
  cases t <;> rfl

@[simp] theorem replaceAt_nil (t s : Tree κ ν) : t.replaceAt [] s = s := by
  cases t <;> rfl

@[simp] theorem subtree?_empty_cons (s : Side) (p : Path) :
    (empty : Tree κ ν).subtree? (s :: p) = none := by
  cases s <;> rfl

theorem subtree?_append (p q : Path) (t : Tree κ ν) :
    t.subtree? (p ++ q) = (t.subtree? p).bind (subtree? q) := by
  induction p generalizing t with
  | nil => simp
  | cons s p ih =>
      cases t with
      | empty => simp
      | node l k v r => cases s <;> simp [subtree?, ih]

theorem subtree?_replaceAt_self {p : Path} {t : Tree κ ν} (s : Tree κ ν)
    (h : (t.subtree? p).isSome) : (t.replaceAt p s).subtree? p = some s := by
  induction p generalizing t with
  | nil => simp
  | cons d p ih =>
      cases t with
      | empty => simp at h
      | node l k v r =>
          cases d with
          | left => simpa [replaceAt, subtree?] using ih (t := l) (by simpa [subtree?] using h)
          | right => simpa [replaceAt, subtree?] using ih (t := r) (by simpa [subtree?] using h)

theorem replaceAt_subtree? {p : Path} {t s : Tree κ ν} (h : t.subtree? p = some s) :
    t.replaceAt p s = t := by
  induction p generalizing t with
  | nil => simpa using h.symm
  | cons d p ih =>
      cases t with
      | empty => simp at h
      | node l k v r =>
          cases d with
          | left => simp [replaceAt, ih (t := l) (by simpa [subtree?] using h)]
          | right => simp [replaceAt, ih (t := r) (by simpa [subtree?] using h)]

@[simp] theorem replaceAt_replaceAt (p : Path) (s s' t : Tree κ ν) :
    (t.replaceAt p s).replaceAt p s' = t.replaceAt p s' := by
  induction p generalizing t with
  | nil => simp
  | cons d p ih => cases t <;> cases d <;> simp [replaceAt, ih]

/-- A write is not seen at a place that lies neither at it nor below it: there is the same entry
there, or none as before. -/
theorem nodeAt?_replaceAt_of_not_prefix {p p' : Path} (h : ¬ p <+: p') (t s : Tree κ ν) :
    ((t.replaceAt p s).nodeAt? p').map Node.entry = (t.nodeAt? p').map Node.entry := by
  induction p generalizing t p' with
  | nil => exact absurd List.nil_prefix h
  | cons d p ih =>
      cases t with
      | empty => rfl
      | node l k v r =>
          cases p' with
          | nil => cases d <;> rfl
          | cons d' p' =>
              have hbelow : d = d' → ¬ p <+: p' := by
                rintro rfl hp
                exact h ((List.prefix_cons_inj d).mpr hp)
              cases d with
              | left =>
                  cases d' with
                  | left => exact ih (hbelow rfl) l
                  | right => rfl
              | right =>
                  cases d' with
                  | left => rfl
                  | right => exact ih (hbelow rfl) r

end Tree

end SearchTree
