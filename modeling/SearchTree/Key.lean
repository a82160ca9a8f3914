/-
# `SearchTree.Key` — orders on keys, and queries that follow other orders

A query that looks at the keys through a function (`Probe.along`) compares what
the function makes of them: the ten a number falls in, its distance from zero, a
remainder.  Such an order may be coarser than that of the tree, or foreign to it.

Three kinds of keys carry an order other than the usual one of what they hold:
numbers in falling order, texts regardless of the case of `A` to `Z`, and the
hours of a seven-hour dial, which go round and so have no least one.
-/
import SearchTree.Text.Shown
import SearchTree.Tree.Search

namespace SearchTree

/-- The query that compares what `f` makes of the keys. -/
def Probe.along {κ β : Type} [Ord β] (f : κ → β) (key : κ) : Probe κ :=
  fun k => compare (f key) (f k)

/-! ## Numbers seen through a function -/

/-- Numbers by the ten that they fall in, rounding down. -/
def Probe.byTens : Int → Probe Int := .along (Int.fdiv · 10)

/-- Numbers by their distance from zero. -/
def Probe.byMagnitude : Int → Probe Int := .along Int.natAbs

/-- Numbers by what remains of them modulo five, counted from zero up. -/
def Probe.byResidue : Int → Probe Int := .along (Int.emod · 5)

/-! ## Pairs -/

/-- First by the number, then by the text. -/
def comparePair : Int × String → Int × String → Ordering :=
  compareLex (compareOn Prod.fst) (compareOn Prod.snd)

/-! ## Numbers in falling order -/

/-- A number that is ordered against the usual way. -/
structure Reversed where
  number : Int
  deriving DecidableEq, Repr

instance : Ord Reversed := ⟨fun a b => compare b.number a.number⟩

instance : Shown Reversed := ⟨fun a => .wrapped "Reverse" (layout a.number)⟩

/-! ## Texts regardless of case -/

/-- A text of which only the letters count, not the case of `A` to `Z`. -/
structure Caseless where
  text : String
  deriving Repr

namespace Caseless

/-- The text in small letters, `A` to `Z` only. -/
def folded (a : Caseless) : String := a.text.map Char.toLower

instance : Ord Caseless := ⟨fun a b => compare a.folded b.folded⟩

instance : BEq Caseless := ⟨fun a b => a.folded == b.folded⟩

instance : Shown Caseless := ⟨fun a => layout a.text⟩

end Caseless

/-! ## Hours of a dial -/

/-- A number of which only the hour counts, on a dial of seven. -/
structure Hour where
  number : Int
  deriving Repr

namespace Hour

/-- How many hours `a` is after `b`, going forward. -/
def after (a b : Hour) : Int := (a.number - b.number).emod 7

/-- Up to three hours after counts as later, and more as earlier. -/
instance : Ord Hour where
  compare a b := if a.after b = 0 then .eq else if a.after b ≤ 3 then .gt else .lt

instance : BEq Hour := ⟨fun a b => a.after b == 0⟩

instance : Shown Hour := ⟨fun a => layout a.number⟩

end Hour

end SearchTree
