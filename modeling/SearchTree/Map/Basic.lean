/-
# `SearchTree.Map.Basic` — a map from keys to values, and how it is read

A map is a tree together with the number of its entries, which is kept and not
counted anew.  That the number is right is not part of the type: it is a
statement about every map that the operations of `SearchTree.Map.Edit` can make.

The order of the keys is an argument of the type and decides where a key is
inserted.  Queries bring an order of their own (`Probe`).  Two maps are equal
when their sizes are and their entries agree pairwise in key order, whatever the
shapes of the two trees.
-/
import SearchTree.Tree.Parent
import SearchTree.Error

namespace SearchTree

/-- Entries in a search tree ordered by `cmp`, and their number. -/
structure Map (κ ν : Type) (cmp : κ → κ → Ordering) where
  tree : Tree κ ν
  size : Nat
  deriving DecidableEq, Repr

variable {κ ν : Type} {cmp : κ → κ → Ordering}

namespace Map

/-- The map without entries. -/
def empty : Map κ ν cmp := ⟨.empty, 0⟩

instance : EmptyCollection (Map κ ν cmp) := ⟨empty⟩

instance : Inhabited (Map κ ν cmp) := ⟨empty⟩

/-- Whether the map counts no entries; one that counts none has no root either. -/
def isEmpty (m : Map κ ν cmp) : Except Error Bool :=
  if m.size == 0 && !m.tree.isEmpty then .error (.broken .rootWithoutCount)
  else .ok (m.size == 0)

/-! ## Looking up -/

def search (q : Probe κ) (m : Map κ ν cmp) : Option (Node κ ν) := m.tree.search q

def contains (q : Probe κ) (m : Map κ ν cmp) : Bool := m.tree.contains q

/-- The value at the first match. -/
def get? (q : Probe κ) (m : Map κ ν cmp) : Option ν := (m.search q).map (·.value)

/-- The first match: the key as it is stored, and its value. -/
def find? (q : Probe κ) (m : Map κ ν cmp) : Option (κ × ν) := (m.search q).map (·.entry)

/-- The first node, nodes before their subtrees, that has a matching child. -/
def parent? (q : Probe κ) (m : Map κ ν cmp) : Option (Node κ ν) := m.tree.parent? q

/-- The parent of a match that must be there; the root has none. -/
def parentOf (q : Probe κ) (m : Map κ ν cmp) : Except Error (Option (Node κ ν)) :=
  if m.contains q then .ok (m.parent? q) else .error .keyNotFound

/-! ## Walking -/

def root? (m : Map κ ν cmp) : Option (Node κ ν) := m.tree.root?

/-- The node reached from the root by taking these sides. -/
def nodeAt? (p : Path) (m : Map κ ν cmp) : Option (Node κ ν) := m.tree.nodeAt? p

/-- All nodes, each before its left and then its right subtree. -/
def nodes (m : Map κ ν cmp) : List (Node κ ν) :=
  (Cursor.toList (SiteWalk.ofTree m.tree)).map (·.node)

/-- A cursor over the entries, each before those of its subtrees. -/
def preorder (m : Map κ ν cmp) : PreorderWalk κ ν := .ofTree m.tree

/-- A cursor over the entries in key order. -/
def inorder (m : Map κ ν cmp) : InorderWalk κ ν := .ofTree m.tree

/-- The entries in key order. -/
def entries (m : Map κ ν cmp) : List (κ × ν) := Cursor.toList m.inorder

/-! ## Comparing -/

/-- Equal sizes, and equal entries at equal places in key order. -/
protected def beq [BEq κ] [BEq ν] (m₁ m₂ : Map κ ν cmp) : Bool :=
  m₁.size == m₂.size &&
    (m₁.entries.zip m₂.entries).all fun (e₁, e₂) => e₁.1 == e₂.1 && e₁.2 == e₂.2

instance [BEq κ] [BEq ν] : BEq (Map κ ν cmp) := ⟨Map.beq⟩

end Map

end SearchTree
