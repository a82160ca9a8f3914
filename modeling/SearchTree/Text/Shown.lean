/-
# `SearchTree.Text.Shown` — how keys and values are written

Numbers as they are, texts between quotes, pairs and lists in brackets, and an
optional value as `None` or `Some(…)`.
-/
import SearchTree.Text.Layout
import SearchTree.Text.Quoted

namespace SearchTree

/-- Values that have a layout. -/
class Shown (α : Type) where
  layout : α → Layout

export Shown (layout)

instance : Shown Int := ⟨fun n => .word (toString n)⟩

instance : Shown UInt8 := ⟨fun n => .word (toString n.toNat)⟩

instance : Shown String := ⟨fun s => .word (Text.quoted s)⟩

instance : Shown Unit := ⟨fun _ => .word "()"⟩

/-- A value in round brackets after a name. -/
def Layout.wrapped (name : String) (a : Layout) : Layout := .block (name ++ "(") "" ")" [a]

instance {α : Type} [Shown α] : Shown (Option α) where
  layout
    | none => .word "None"
    | some a => .wrapped "Some" (layout a)

instance {α β : Type} [Shown α] [Shown β] : Shown (α × β) where
  layout := fun (a, b) => .block "(" "" ")" [layout a, layout b]

instance {α : Type} [Shown α] : Shown (List α) where
  layout as := .block "[" "" "]" (as.map layout)

end SearchTree
