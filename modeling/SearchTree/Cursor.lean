/-
# `SearchTree.Cursor` — pulling the elements of a traversal one by one

A cursor answers `next?` with an element and the cursor after it, or with
nothing at its end.  Every pull makes what remains smaller, so a cursor can be
run to its end (`toList`), searched (`find?`), and asked any number of times
(`pulls`), also beyond the end.

The traversals keep a list of what is pending.  What remains of them is the `weight`
of that list.
-/

namespace SearchTree

/-- The sum of the sizes of all elements of a list. -/
def weight {α : Type} (size : α → Nat) : List α → Nat
  | [] => 0
  | a :: l => size a + weight size l

@[simp] theorem weight_nil {α : Type} (size : α → Nat) : weight size [] = 0 := rfl

@[simp] theorem weight_cons {α : Type} (size : α → Nat) (a : α) (l : List α) :
    weight size (a :: l) = size a + weight size l := rfl

@[simp] theorem weight_append {α : Type} (size : α → Nat) (l l' : List α) :
    weight size (l ++ l') = weight size l + weight size l' := by
  induction l with
  | nil => simp
  | cons a l ih => rw [List.cons_append, weight_cons, weight_cons, ih, Nat.add_assoc]

/-- A state that hands out elements one by one and comes to an end. -/
class Cursor (γ : Type) (α : outParam Type) where
  /-- The next element and the state after it. -/
  next? : γ → Option (α × γ)
  /-- How many elements are left, at most. -/
  remaining : γ → Nat
  remaining_lt : ∀ {c : γ} {a : α} {c' : γ}, next? c = some (a, c') → remaining c' < remaining c

namespace Cursor

variable {γ α : Type} [Cursor γ α]

/-- All elements that are left. -/
def toList (c : γ) : List α :=
  match _h : next? c with
  | none => []
  | some (a, c') => a :: toList c'
termination_by remaining c
decreasing_by exact remaining_lt _h

/-- The first element that is left and passes the test. -/
def find? (p : α → Bool) (c : γ) : Option α :=
  match _h : next? c with
  | none => none
  | some (a, c') => if p a then some a else find? p c'
termination_by remaining c
decreasing_by exact remaining_lt _h

/-- The answers to `n` pulls; a cursor at its end stays there. -/
def pulls (c : γ) : Nat → List (Option α)
  | 0 => []
  | n + 1 =>
      match next? c with
      | none => none :: pulls c n
      | some (a, c') => some a :: pulls c' n

/-! ## The cursor and the list of what it hands out -/

theorem toList_of_end {c : γ} (h : next? c = none) : toList c = [] := by
  rw [toList]; split <;> simp_all

theorem toList_of_next {c c' : γ} {a : α} (h : next? c = some (a, c')) :
    toList c = a :: toList c' := by
  rw [toList]; split <;> simp_all

/-- Searching a cursor is searching the list. -/
theorem find?_eq (p : α → Bool) (c : γ) : find? p c = (toList c).find? p := by
  fun_induction find? p c with
  | case1 c h => simp [toList_of_end h]
  | case2 c a c' h hp => simp [toList_of_next h, hp]
  | case3 c a c' h hp ih => simp [toList_of_next h, hp, ih]

/-- The `i`-th pull answers the `i`-th element, and nothing beyond the last. -/
theorem pulls_eq (c : γ) (n : Nat) : pulls c n = (List.range n).map ((toList c)[·]?) := by
  induction n generalizing c with
  | zero => rfl
  | succ n ih =>
      rw [pulls, List.range_succ_eq_map]
      split
      · next h => simp [toList_of_end h, ih, Function.comp_def]
      · next a c' h => simp [toList_of_next h, ih, Function.comp_def]

end Cursor

end SearchTree
