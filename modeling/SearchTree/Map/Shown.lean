/-
# `SearchTree.Map.Shown` — how maps, nodes and errors are written

A map lists its entries in key order, each as key and value with a colon between
them.  A node shows its entry and of its children only their keys, so writing
one never walks its subtrees.
-/
import SearchTree.Map.Basic
import SearchTree.Text.Shown

namespace SearchTree

variable {κ ν : Type} [Shown κ] [Shown ν]

instance {cmp : κ → κ → Ordering} : Shown (Map κ ν cmp) where
  layout m :=
    .block "\x7b" "" "\x7d" (m.entries.map fun (k, v) => .labelled (layout k) (layout v))

instance : Shown (Node κ ν) where
  layout n :=
    .block "Node \x7b" " " "\x7d"
      [.labelled (.word "key") (layout n.key),
       .labelled (.word "value") (layout n.value),
       .labelled (.word "left") (layout (n.left?.map (·.key))),
       .labelled (.word "right") (layout (n.right?.map (·.key)))]

/-- An error as one case among all errors: the name of the case around that of the error. -/
instance : Shown Error where
  layout e := .wrapped e.name (.word e.name)

/-- Nodes that differ only below their children, or in the values there, are written alike. -/
theorem layout_node_eq {n n' : Node κ ν} (hentry : n.entry = n'.entry)
    (hleft : n.left?.map (·.key) = n'.left?.map (·.key))
    (hright : n.right?.map (·.key) = n'.right?.map (·.key)) : layout n = layout n' := by
  obtain ⟨hkey, hvalue⟩ := Prod.mk.inj hentry
  simp only [layout, hkey, hvalue, hleft, hright]

example : layout (⟨1, 2, .empty, .node (.leaf 4 7) 5 8 .empty⟩ : Node Int Int)
    = layout (⟨1, 2, .empty, .leaf 5 6⟩ : Node Int Int) := rfl

end SearchTree
