/-
# `SearchTree.Proofs.Congruence` — equal maps cannot be told apart

Two equal maps are given the same commands in the same order.  Each command then
answers the same on both, and after each the maps are equal again.  "The same" is
`Reply.Alike`: where a stored key is part of the answer, the two keys compare equal
and need not be identical.

The trees of the two maps may have nothing in common.  What is a leaf in one may be
the root with two children in the other, so a command may go through quite
different steps on the two sides.  The proof does not follow these steps.  Both maps
answer as their ledgers do (`Represents.perform`), and the two ledgers agree entry by
entry.

    Ledger.perform_alike   one command on two ledgers that agree
    Map.Alike.perform      one command on two maps whose listings agree
    Map.Alike.run          a history

After a command the ledgers agree in an order of their own, which is not that of the
listings.  It is through the look-ups that agreement comes back to the listings
(`Alike.of_ledgers`), as these do not depend on any order.
-/
import SearchTree.Proofs.Contents

namespace SearchTree

variable {κ ι ν : Type} {cmp : κ → κ → Ordering}

/-- The same answer, but for which of two keys that compare equal is stored. -/
inductive Reply.Alike (cmp : κ → κ → Ordering) : Reply κ ν → Reply κ ν → Prop where
  | same (r : Reply κ ν) : Alike cmp r r
  | item {o₁ o₂ : Option (κ × ν)} : Option.Rel (Agree cmp Eq) o₁ o₂ →
      Alike cmp (.item o₁) (.item o₂)
  | listing {l₁ l₂ : List (κ × ν)} : List.Forall₂ (Agree cmp Eq) l₁ l₂ →
      Alike cmp (.listing l₁) (.listing l₂)

theorem Agree.refl [Std.ReflCmp cmp] (e : κ × ν) : Agree cmp Eq e e :=
  ⟨Std.ReflCmp.compare_self, rfl⟩

theorem Agree.hits_eq {e₁ e₂ : κ × ν} (h : Agree cmp Eq e₁ e₂) {q : Probe κ}
    (hq : q.Respects cmp) : q.hits e₁ = q.hits e₂ := by
  rw [Probe.hits, Probe.hits, hq _ _ h.1]

theorem Agree.value_eq {o₁ o₂ : Option (κ × ν)} (h : Option.Rel (Agree cmp Eq) o₁ o₂) :
    o₁.map (·.2) = o₂.map (·.2) := by
  cases h with
  | none => rfl
  | some he => exact congrArg some he.2

theorem Probe.respects_of_borrow {cmpQ : ι → ι → Ordering} [Std.TransCmp cmpQ] {borrow : κ → ι}
    (h : ∀ k₁ k₂, cmp k₁ k₂ = cmpQ (borrow k₁) (borrow k₂)) (key : ι) :
    Probe.Respects cmp fun k => cmpQ key (borrow k) := by
  intro k₁ k₂ heq
  rw [h] at heq
  exact Std.TransCmp.congr_right heq

/-! ## One command on two ledgers that agree -/

namespace Ledger

variable {l₁ l₂ : Ledger κ ν} {q : Probe κ}

theorem strike_agree (h : List.Forall₂ (Agree cmp Eq) l₁ l₂) (hq : q.Respects cmp) :
    List.Forall₂ (Agree cmp Eq) (l₁.strike q) (l₂.strike q) := by
  refine List.rel_filter ?_ h
  intro e₁ e₂ he
  simp only [he.hits_eq hq]

theorem rewrite_agree (h : List.Forall₂ (Agree cmp Eq) l₁ l₂) (hq : q.Respects cmp) (v : ν) :
    List.Forall₂ (Agree cmp Eq) (l₁.rewrite q v) (l₂.rewrite q v) := by
  refine List.rel_map ?_ h
  intro e₁ e₂ he
  simp only [he.hits_eq hq]
  split
  · exact ⟨he.1, rfl⟩
  · exact he

theorem enter_agree [Std.TransCmp cmp] (h : List.Forall₂ (Agree cmp Eq) l₁ l₂) (e : κ × ν) :
    (l₁.enter cmp e).1 = (l₂.enter cmp e).1 ∧
      List.Forall₂ (Agree cmp Eq) (l₁.enter cmp e).2 (l₂.enter cmp e).2 := by
  have hrel := rel_lookup_of_agree h (Probe.respects_key e.1)
  rw [enter, enter]
  generalize l₁.lookup (cmp e.1) = o₁ at hrel ⊢
  generalize l₂.lookup (cmp e.1) = o₂ at hrel ⊢
  cases hrel with
  | none => exact ⟨rfl, .cons (.refl e) h⟩
  | some _ => exact ⟨rfl, h⟩

theorem remove_agree (h : List.Forall₂ (Agree cmp Eq) l₁ l₂) (hq : q.Respects cmp) :
    (l₁.remove q).1 = (l₂.remove q).1 ∧
      List.Forall₂ (Agree cmp Eq) (l₁.remove q).2 (l₂.remove q).2 := by
  have hrel := rel_lookup_of_agree h hq
  have hstrike := strike_agree h hq
  rw [remove, remove]
  generalize l₁.lookup q = o₁ at hrel ⊢
  generalize l₂.lookup q = o₂ at hrel ⊢
  cases hrel with
  | none => exact ⟨rfl, h⟩
  | some he => exact ⟨congrArg Reply.removed he.2, hstrike⟩

theorem enterAll_agree [Std.TransCmp cmp] (h : List.Forall₂ (Agree cmp Eq) l₁ l₂)
    (items : List (κ × ν)) :
    List.Forall₂ (Agree cmp Eq) (l₁.enterAll cmp items) (l₂.enterAll cmp items) := by
  induction items generalizing l₁ l₂ with
  | nil => exact h
  | cons e items ih => exact ih (enter_agree h e).2

/-- Ledgers that agree, also when they are sorted, answer every command alike and still agree. -/
theorem perform_alike [Std.TransCmp cmp] {view : ι → Probe κ}
    (hview : ∀ q, (view q).Respects cmp) (h : List.Forall₂ (Agree cmp Eq) l₁ l₂)
    (hsorted : List.Forall₂ (Agree cmp Eq) (l₁.sorted cmp) (l₂.sorted cmp))
    (c : Command κ ι ν) :
    Reply.Alike cmp (l₁.perform cmp view c).1 (l₂.perform cmp view c).1 ∧
      List.Forall₂ (Agree cmp Eq) (l₁.perform cmp view c).2 (l₂.perform cmp view c).2 := by
  cases c with
  | insert k v =>
      obtain ⟨hreply, hrest⟩ := enter_agree h (k, v)
      refine ⟨?_, hrest⟩
      rw [perform, perform, hreply]
      exact .same _
  | delete q =>
      obtain ⟨hreply, hrest⟩ := remove_agree h (hview q)
      refine ⟨?_, hrest⟩
      rw [perform, perform, hreply]
      exact .same _
  | overwrite q v =>
      refine ⟨?_, rewrite_agree h (hview q) v⟩
      rw [perform, perform, Agree.value_eq (rel_lookup_of_agree h (hview q))]
      exact .same _
  | extend items => exact ⟨.same _, enterAll_agree h items⟩
  | clear => exact ⟨.same _, .nil⟩
  | copy => exact ⟨.same _, h⟩
  | get q =>
      refine ⟨?_, h⟩
      rw [perform, perform, Agree.value_eq (rel_lookup_of_agree h (hview q))]
      exact .same _
  | contains q =>
      refine ⟨?_, h⟩
      have hvalue := Agree.value_eq (rel_lookup_of_agree h (hview q))
      rw [perform, perform, ← Option.isSome_map, hvalue, Option.isSome_map]
      exact .same _
  | find q => exact ⟨.item (rel_lookup_of_agree h (hview q)), h⟩
  | search q => exact ⟨.item (rel_lookup_of_agree h (hview q)), h⟩
  | size =>
      refine ⟨?_, h⟩
      rw [perform, perform, h.length_eq]
      exact .same _
  | isEmpty =>
      refine ⟨?_, h⟩
      cases h with
      | nil => exact .same _
      | cons _ _ => exact .same _
  | entries => exact ⟨.listing hsorted, h⟩

end Ledger

namespace Map

variable {m₁ m₂ : Map κ ν cmp} {l₁ l₂ : Ledger κ ν}

/-! ## Two maps side by side -/

/-- Sound maps with listings that agree. -/
structure Alike (m₁ m₂ : Map κ ν cmp) : Prop where
  left : m₁.Sound
  right : m₂.Sound
  agree : List.Forall₂ (Agree cmp Eq) m₁.entries m₂.entries

theorem Sound.beq_iff_alike [BEq κ] [BEq ν] [LawfulBEq ν]
    (heq : ∀ k₁ k₂ : κ, (k₁ == k₂) = true ↔ cmp k₁ k₂ = .eq) (h₁ : m₁.Sound) (h₂ : m₂.Sound) :
    (m₁ == m₂) = true ↔ m₁.Alike m₂ := by
  rw [h₁.counted.beq_iff_agree heq h₂.counted]
  simp only [beq_iff_eq]
  constructor
  · intro h
    exact ⟨h₁, h₂, h⟩
  · intro h
    exact h.agree

section
variable [Std.TransCmp cmp]

/-- Maps that hold what agreeing ledgers hold are alike, whatever the order of the ledgers. -/
theorem Alike.of_ledgers (h₁ : m₁.Represents l₁) (h₂ : m₂.Represents l₂)
    (h : List.Forall₂ (Agree cmp Eq) l₁ l₂) : m₁.Alike m₂ := by
  refine ⟨h₁.sound, h₂.sound, (h₁.sound.agree_iff h₂.sound).mpr ?_⟩
  intro k
  have hkey : Probe.AsKey cmp (cmp k) := Probe.asKey_key k
  rw [h₁.get?_eq hkey, h₂.get?_eq hkey]
  exact Agree.rel_value (Ledger.rel_lookup_of_agree h (Probe.respects_key k))

theorem Alike.perform (h : m₁.Alike m₂) {view : ι → Probe κ} (hkey : ∀ q, (view q).AsKey cmp)
    (hview : ∀ q, (view q).Respects cmp) (c : Command κ ι ν) :
    Reply.Alike cmp (m₁.perform view c).reply.placeless (m₂.perform view c).reply.placeless ∧
      (m₁.perform view c).map.Alike (m₂.perform view c).map := by
  have hl₁ := h.left.represents_entries
  have hl₂ := h.right.represents_entries
  -- Each listing is taken as the ledger of its map, and it is in key order already.
  have hsorted : List.Forall₂ (Agree cmp Eq) (Ledger.sorted cmp m₁.entries)
      (Ledger.sorted cmp m₂.entries) := by
    rw [← hl₁.entries_eq_sorted, ← hl₂.entries_eq_sorted]
    exact h.agree
  obtain ⟨hreply₁, hrest₁⟩ := hl₁.perform hkey c
  obtain ⟨hreply₂, hrest₂⟩ := hl₂.perform hkey c
  obtain ⟨hreply, hrest⟩ := Ledger.perform_alike hview h.agree hsorted c
  rw [hreply₁, hreply₂]
  exact ⟨hreply, .of_ledgers hrest₁ hrest₂ hrest⟩

theorem Alike.run (h : m₁.Alike m₂) {view : ι → Probe κ} (hkey : ∀ q, (view q).AsKey cmp)
    (hview : ∀ q, (view q).Respects cmp) (cs : List (Command κ ι ν)) :
    List.Forall₂ (fun r₁ r₂ => Reply.Alike cmp r₁.placeless r₂.placeless)
        (m₁.run view cs).reply (m₂.run view cs).reply ∧
      (m₁.run view cs).map.Alike (m₂.run view cs).map := by
  induction cs generalizing m₁ m₂ with
  | nil => exact ⟨.nil, h⟩
  | cons c cs ih =>
      obtain ⟨hreply, hstep⟩ := h.perform hkey hview c
      obtain ⟨hreplies, hrest⟩ := ih hstep
      exact ⟨.cons hreply hreplies, hrest⟩

end

/-- Let the queries be compared as keys are.  Two equal maps answer every list of commands alike,
one answer for another, and are equal after each command. -/
theorem equal_maps_stay_equal [BEq κ] [BEq ν] [LawfulBEq ν]
    (heq : ∀ k₁ k₂ : κ, (k₁ == k₂) = true ↔ cmp k₁ k₂ = .eq)
    (cmpQ : ι → ι → Ordering) [Std.TransCmp cmpQ] (borrow : κ → ι)
    (hborrow : ∀ k₁ k₂, cmp k₁ k₂ = cmpQ (borrow k₁) (borrow k₂)) {ι₁ ι₂ : Type}
    {view₁ : ι₁ → Probe κ} {view₂ : ι₂ → Probe κ} (h₁ : Reachable view₁ m₁)
    (h₂ : Reachable view₂ m₂) (h : (m₁ == m₂) = true) (cs : List (Command κ ι ν)) :
    let view : ι → Probe κ := fun q k => cmpQ q (borrow k)
    List.Forall₂ (fun r₁ r₂ => Reply.Alike cmp r₁.placeless r₂.placeless)
        (m₁.run view cs).reply (m₂.run view cs).reply ∧
      ∀ n, ((m₁.run view (cs.take n)).map == (m₂.run view (cs.take n)).map) = true := by
  intro view
  have : Std.TransCmp cmp := transCmp_of_borrow hborrow
  have hkey : ∀ q, (view q).AsKey cmp := Probe.asKey_of_borrow hborrow
  have hview : ∀ q, (view q).Respects cmp := Probe.respects_of_borrow hborrow
  have halike : m₁.Alike m₂ := (h₁.sound.beq_iff_alike heq h₂.sound).mp h
  refine ⟨(halike.run hkey hview cs).1, ?_⟩
  intro n
  have hafter := (halike.run hkey hview (cs.take n)).2
  exact (hafter.left.beq_iff_alike heq hafter.right).mpr hafter

/-- Numbered keys, of which only the number counts.  The key 4 is at the root of the first map, with
two children, and a leaf of the second, where it has another text. -/
theorem equal_maps_stay_equal_numbered :
    let order : Int × String → Int × String → Ordering := fun k₁ k₂ => compare k₁.1 k₂.1
    let _ : BEq (Int × String) := ⟨fun k₁ k₂ => k₁.1 == k₂.1⟩
    let view : Int → Probe (Int × String) := fun q k => compare q k.1
    let m₁ : Map (Int × String) String order :=
      (empty.run view [.insert (4, "four") "a", .insert (2, "two") "b", .insert (7, "seven") "c",
        .insert (6, "six") "d"]).map
    let m₂ : Map (Int × String) String order :=
      (empty.run view [.insert (9, "nine") "e", .insert (2, "TWO") "b", .insert (6, "SIX") "d",
        .insert (7, "SEVEN") "c", .insert (4, "FOUR") "a", .delete 9]).map
    let cs : List (Command (Int × String) Int String) :=
      [.delete 4, .insert (6, "sechs") "f", .overwrite 6 "g", .get 6, .entries]
    (∀ k₁ k₂ : Int × String, (k₁ == k₂) = true ↔ order k₁ k₂ = .eq) ∧
    Std.TransCmp (compare : Int → Int → Ordering) ∧
    (∀ k₁ k₂, order k₁ k₂ = compare k₁.1 k₂.1) ∧
    Reachable view m₁ ∧ Reachable view m₂ ∧ (m₁ == m₂) = true ∧
    (m₁.search (view 4)).map (·.childCount) = some 2 ∧
    (m₂.search (view 4)).map (·.childCount) = some 0 ∧
    List.Forall₂ (fun r₁ r₂ => Reply.Alike order r₁.placeless r₂.placeless)
        (m₁.run view cs).reply (m₂.run view cs).reply ∧
      ∀ n, ((m₁.run view (cs.take n)).map == (m₂.run view (cs.take n)).map) = true := by
  intro order byNumber view m₁ m₂ cs
  have heq : ∀ k₁ k₂ : Int × String, (k₁ == k₂) = true ↔ order k₁ k₂ = .eq := by
    intro k₁ k₂
    show (k₁.1 == k₂.1) = true ↔ compare k₁.1 k₂.1 = .eq
    rw [beq_iff_eq, Std.compare_eq_iff_eq]
  have hborrow : ∀ k₁ k₂, order k₁ k₂ = compare k₁.1 k₂.1 := fun _ _ => rfl
  have hsame : (m₁ == m₂) = true := by decide +kernel
  have h₁ : Reachable view m₁ := ⟨_, rfl⟩
  have h₂ : Reachable view m₂ := ⟨_, rfl⟩
  exact ⟨heq, inferInstance, hborrow, h₁, h₂, hsame, by decide +kernel, by decide +kernel,
    equal_maps_stay_equal heq compare Prod.fst hborrow h₁ h₂ hsame cs⟩

end Map

end SearchTree
