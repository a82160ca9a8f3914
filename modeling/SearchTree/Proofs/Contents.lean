/-
# `SearchTree.Proofs.Contents` — two maps are equal when their contents are

The comparison of two maps looks at their kept sizes and then at their listings,
entry by entry, as far as the shorter one goes.  The statement about it knows
neither sizes nor listings:

    m₁ == m₂   ↔   for every key, both look-ups find nothing,
                   or both find a value, and the first value == the second

The way there has two steps.

* `Counted.beq_iff`: as the kept sizes are the lengths of the listings, nothing is
  cut off, and the comparison is `List.Forall₂` over the listings.
* `Ledger.forall₂_agree_iff`: two lists with rising keys agree place by place just
  when they agree key by key.  From right to left this is an induction on the first
  list.  Its first entry cannot come before that of the second list, for the
  second list would not have its key at all, and not after it either.

The equality of values may be any relation.  It need not hold of a value and
itself, so a map need not be equal to itself.
-/
import Mathlib.Data.List.Forall2
import SearchTree.Proofs.Ledger

namespace SearchTree

variable {κ ι ν : Type} {cmp : κ → κ → Ordering}

/-- The keys compare equal, and the values stand in a relation. -/
def Agree (cmp : κ → κ → Ordering) (S : ν → ν → Prop) (e₁ e₂ : κ × ν) : Prop :=
  cmp e₁.1 e₂.1 = .eq ∧ S e₁.2 e₂.2

/-- A query that gives the same answer to keys that compare equal. -/
def Probe.Respects (cmp : κ → κ → Ordering) (q : Probe κ) : Prop :=
  ∀ k₁ k₂, cmp k₁ k₂ = .eq → q k₁ = q k₂

theorem Probe.respects_key [Std.TransCmp cmp] (key : κ) : Probe.Respects cmp (cmp key) := by
  intro k₁ k₂ h
  exact Std.TransCmp.congr_right h

theorem Agree.rel_value {S : ν → ν → Prop} {o₁ o₂ : Option (κ × ν)}
    (h : Option.Rel (Agree cmp S) o₁ o₂) : Option.Rel S (o₁.map (·.2)) (o₂.map (·.2)) := by
  cases h with
  | none => exact .none
  | some h => exact .some h.2

namespace Ledger

variable {S : ν → ν → Prop} {l l₁ l₂ : Ledger κ ν} {e e₁ e₂ : κ × ν} {q : Probe κ}

/-! ## Look-ups in a list whose keys rise -/

theorem lookup_cons_of_hits (h : q e.1 = .eq) : lookup q (e :: l) = some e :=
  List.find?_cons_of_pos (Probe.hits_iff.mpr h)

theorem lookup_cons_of_not_hits (h : q e.1 ≠ .eq) : lookup q (e :: l) = lookup q l :=
  List.find?_cons_of_neg fun hhit => h (Probe.hits_iff.mp hhit)

theorem lookup_of_lt_all {k : κ} (h : ∀ e ∈ l, cmp k e.1 = .lt) : lookup (cmp k) l = none := by
  rw [lookup_eq_none]
  intro e he
  rw [← Bool.not_eq_true, Probe.hits_iff, h e he]
  exact nofun

/-- A key before the first one is not in a list whose keys rise. -/
theorem lookup_of_lt_head [Std.TransCmp cmp] {k : κ} (h : cmp k e.1 = .lt)
    (hl : ∀ e' ∈ l, cmp e.1 e'.1 = .lt) : lookup (cmp k) (e :: l) = none := by
  apply lookup_of_lt_all
  intro e' he'
  rcases List.mem_cons.mp he' with rfl | he'
  · exact h
  · exact Std.TransCmp.lt_trans h (hl e' he')

/-! ## Agreement by place is agreement by key -/

/-- Lists that agree place by place agree in what a query finds first. -/
theorem rel_lookup_of_agree (h : List.Forall₂ (Agree cmp S) l₁ l₂) (hq : q.Respects cmp) :
    Option.Rel (Agree cmp S) (lookup q l₁) (lookup q l₂) := by
  induction h with
  | nil => exact .none
  | @cons e₁ e₂ l₁ l₂ hhead htail ih =>
      have hsame : q e₁.1 = q e₂.1 := hq _ _ hhead.1
      by_cases hhit : q e₁.1 = .eq
      · rw [lookup_cons_of_hits hhit, lookup_cons_of_hits (hsame ▸ hhit)]
        exact .some hhead
      · rw [lookup_cons_of_not_hits hhit, lookup_cons_of_not_hits (hsame ▸ hhit)]
        exact ih

/-- Lists that agree in what every key finds have first entries of the same key. -/
theorem eq_head_of_rel_lookup [Std.TransCmp cmp] (h₁ : ∀ e ∈ l₁, cmp e₁.1 e.1 = .lt)
    (h₂ : ∀ e ∈ l₂, cmp e₂.1 e.1 = .lt)
    (h : ∀ k, Option.Rel S ((lookup (cmp k) (e₁ :: l₁)).map (·.2))
      ((lookup (cmp k) (e₂ :: l₂)).map (·.2))) : cmp e₁.1 e₂.1 = .eq := by
  cases hcmp : cmp e₁.1 e₂.1 with
  | eq => rfl
  | lt =>
      -- The second list starts after the first key, so it does not have that key.
      have hrel := h e₁.1
      rw [lookup_cons_of_hits Std.ReflCmp.compare_self, lookup_of_lt_head hcmp h₂] at hrel
      exact nomatch hrel
  | gt =>
      have hrel := h e₂.1
      rw [lookup_cons_of_hits Std.ReflCmp.compare_self,
        lookup_of_lt_head (Std.OrientedCmp.lt_of_gt hcmp) h₁] at hrel
      exact nomatch hrel

/-- What lists agree in still agrees when their first entries, of one key, are taken away. -/
theorem rel_lookup_tail [Std.TransCmp cmp] (h₁ : ∀ e ∈ l₁, cmp e₁.1 e.1 = .lt)
    (h₂ : ∀ e ∈ l₂, cmp e₂.1 e.1 = .lt) (heq : cmp e₁.1 e₂.1 = .eq) {k : κ}
    (h : Option.Rel S ((lookup (cmp k) (e₁ :: l₁)).map (·.2))
      ((lookup (cmp k) (e₂ :: l₂)).map (·.2))) :
    Option.Rel S ((lookup (cmp k) l₁).map (·.2)) ((lookup (cmp k) l₂).map (·.2)) := by
  by_cases hk : cmp k e₁.1 = .eq
  · -- The key is that of the first entries, and both tails lie after it.
    have hk₂ : cmp k e₂.1 = .eq := Std.TransCmp.eq_trans hk heq
    rw [lookup_of_lt_all fun e he => Std.TransCmp.lt_of_eq_of_lt hk (h₁ e he),
      lookup_of_lt_all fun e he => Std.TransCmp.lt_of_eq_of_lt hk₂ (h₂ e he)]
    exact .none
  · have hk₂ : cmp k e₂.1 ≠ .eq := by
      rw [← Std.TransCmp.congr_right heq]
      exact hk
    rwa [lookup_cons_of_not_hits hk, lookup_cons_of_not_hits hk₂] at h

theorem agree_of_rel_lookup [Std.TransCmp cmp]
    (h₁ : l₁.Pairwise fun e₁ e₂ => cmp e₁.1 e₂.1 = .lt)
    (h₂ : l₂.Pairwise fun e₁ e₂ => cmp e₁.1 e₂.1 = .lt)
    (h : ∀ k, Option.Rel S ((lookup (cmp k) l₁).map (·.2)) ((lookup (cmp k) l₂).map (·.2))) :
    List.Forall₂ (Agree cmp S) l₁ l₂ := by
  induction l₁ generalizing l₂ with
  | nil =>
      cases l₂ with
      | nil => exact .nil
      | cons e₂ l₂ =>
          have hrel := h e₂.1
          rw [lookup_cons_of_hits Std.ReflCmp.compare_self] at hrel
          exact nomatch hrel
  | cons e₁ l₁ ih =>
      cases l₂ with
      | nil =>
          have hrel := h e₁.1
          rw [lookup_cons_of_hits Std.ReflCmp.compare_self] at hrel
          exact nomatch hrel
      | cons e₂ l₂ =>
          obtain ⟨hafter₁, h₁⟩ := List.pairwise_cons.mp h₁
          obtain ⟨hafter₂, h₂⟩ := List.pairwise_cons.mp h₂
          have hkey : cmp e₁.1 e₂.1 = .eq := eq_head_of_rel_lookup hafter₁ hafter₂ h
          have hvalue := h e₁.1
          rw [lookup_cons_of_hits Std.ReflCmp.compare_self, lookup_cons_of_hits hkey] at hvalue
          refine .cons ⟨hkey, Option.rel_some_some.mp hvalue⟩ (ih h₁ h₂ ?_)
          intro k
          exact rel_lookup_tail hafter₁ hafter₂ hkey (h k)

/-- Agreement of values by place is agreement by key. -/
theorem forall₂_agree_iff [Std.TransCmp cmp]
    (h₁ : l₁.Pairwise fun e₁ e₂ => cmp e₁.1 e₂.1 = .lt)
    (h₂ : l₂.Pairwise fun e₁ e₂ => cmp e₁.1 e₂.1 = .lt) :
    List.Forall₂ (Agree cmp S) l₁ l₂ ↔
      ∀ k, Option.Rel S ((lookup (cmp k) l₁).map (·.2)) ((lookup (cmp k) l₂).map (·.2)) := by
  constructor
  · intro h k
    exact Agree.rel_value (rel_lookup_of_agree h (Probe.respects_key k))
  · intro h
    exact agree_of_rel_lookup h₁ h₂ h

end Ledger

namespace Map

variable {m m₁ m₂ : Map κ ν cmp}

/-! ## Comparing maps -/

/-- With right sizes on both sides, no entry escapes the comparison. -/
theorem Counted.beq_iff [BEq κ] [BEq ν] (h₁ : m₁.Counted) (h₂ : m₂.Counted) :
    (m₁ == m₂) = true ↔
      List.Forall₂ (fun e₁ e₂ => (e₁.1 == e₂.1) = true ∧ (e₁.2 == e₂.2) = true)
        m₁.entries m₂.entries := by
  show Map.beq m₁ m₂ = true ↔ _
  rw [List.forall₂_iff_zip, Map.beq, counted_iff.mp h₁, counted_iff.mp h₂]
  simp

theorem Counted.beq_iff_agree [BEq κ] [BEq ν]
    (heq : ∀ k₁ k₂ : κ, (k₁ == k₂) = true ↔ cmp k₁ k₂ = .eq) (h₁ : m₁.Counted)
    (h₂ : m₂.Counted) :
    (m₁ == m₂) = true ↔
      List.Forall₂ (Agree cmp fun v₁ v₂ => (v₁ == v₂) = true) m₁.entries m₂.entries := by
  rw [h₁.beq_iff h₂]
  simp only [heq]
  rfl

theorem Sound.represents_entries (hm : m.Sound) : m.Represents m.entries := ⟨hm, .refl _⟩

section
variable [Std.TransCmp cmp]

/-- What a look-up finds is what is found in the ledger. -/
theorem Represents.get?_eq {l : Ledger κ ν} (h : m.Represents l) {q : Probe κ}
    (hq : q.AsKey cmp) : m.get? q = (l.lookup q).map (·.2) := by
  rw [h.lookup_eq hq, Option.map_map, get?]
  rfl

/-- Agreement of the listings is agreement of all look-ups. -/
theorem Sound.agree_iff (h₁ : m₁.Sound) (h₂ : m₂.Sound) {S : ν → ν → Prop} :
    List.Forall₂ (Agree cmp S) m₁.entries m₂.entries ↔
      ∀ k, Option.Rel S (m₁.get? (cmp k)) (m₂.get? (cmp k)) := by
  rw [Ledger.forall₂_agree_iff h₁.pairwise_entries h₂.pairwise_entries]
  simp only [h₁.represents_entries.get?_eq (Probe.asKey_key _),
    h₂.represents_entries.get?_eq (Probe.asKey_key _)]

variable [BEq κ] [BEq ν] (heq : ∀ k₁ k₂ : κ, (k₁ == k₂) = true ↔ cmp k₁ k₂ = .eq)
include heq

theorem Sound.beq_iff_rel (h₁ : m₁.Sound) (h₂ : m₂.Sound) :
    (m₁ == m₂) = true ↔
      ∀ k, Option.Rel (fun v₁ v₂ => (v₁ == v₂) = true) (m₁.get? (cmp k)) (m₂.get? (cmp k)) := by
  rw [h₁.counted.beq_iff_agree heq h₂.counted, h₁.agree_iff h₂]

/-- A map that finds the same for every key compares the same with every other map. -/
theorem Sound.beq_congr (hm : m.Sound) (h₁ : m₁.Sound) (h₂ : m₂.Sound)
    (h : ∀ k, m.get? (cmp k) = m₁.get? (cmp k)) :
    (m == m₂) = (m₁ == m₂) ∧ (m₂ == m) = (m₂ == m₁) := by
  constructor
  · rw [Bool.eq_iff_iff, hm.beq_iff_rel heq h₂, h₁.beq_iff_rel heq h₂]
    simp only [h]
  · rw [Bool.eq_iff_iff, h₂.beq_iff_rel heq hm, h₂.beq_iff_rel heq h₁]
    simp only [h]

/-- A map equals itself if its values do. -/
theorem Sound.beq_self_iff (hm : m.Sound) :
    (m == m) = true ↔ ∀ e ∈ m.entries, (e.2 == e.2) = true := by
  rw [hm.counted.beq_iff_agree heq hm.counted, List.forall₂_same]
  constructor
  · intro h e he
    exact (h e he).2
  · intro h e he
    exact ⟨Std.ReflCmp.compare_self, h e he⟩

end

/-- Two maps are equal just when every key is looked up in both to nothing, or in both to a value
and the first value equals the second.  So neither history nor shape counts, and a map equals
itself, or its copy, just when each of its values equals itself. -/
theorem beq_iff_contents [Std.TransCmp cmp] [BEq κ] [BEq ν]
    (heq : ∀ k₁ k₂ : κ, (k₁ == k₂) = true ↔ cmp k₁ k₂ = .eq) {ι₁ ι₂ : Type}
    {view₁ : ι₁ → Probe κ} {view₂ : ι₂ → Probe κ} (h₁ : Reachable view₁ m₁)
    (h₂ : Reachable view₂ m₂) :
    ((m₁ == m₂) = true ↔
      ∀ k, Option.Rel (fun v₁ v₂ => (v₁ == v₂) = true) (m₁.get? (cmp k)) (m₂.get? (cmp k))) ∧
    (∀ {ι : Type} (view : ι → Probe κ) (m : Map κ ν cmp), Reachable view m →
      (∀ k, m.get? (cmp k) = m₁.get? (cmp k)) →
        (m == m₂) = (m₁ == m₂) ∧ (m₂ == m) = (m₂ == m₁)) ∧
    ((m₁ == m₁) = true ↔ ∀ e ∈ m₁.entries, (e.2 == e.2) = true) ∧
    ∃ m, m₁.copy = .ok m ∧ ((m₁ == m) = true ↔ ∀ e ∈ m₁.entries, (e.2 == e.2) = true) ∧
      ((m == m₁) = true ↔ ∀ e ∈ m₁.entries, (e.2 == e.2) = true) := by
  have hself := h₁.sound.beq_self_iff heq
  refine ⟨h₁.sound.beq_iff_rel heq h₂.sound, ?_, hself, m₁, copy_eq m₁, hself, hself⟩
  intro ι view m hm hsame
  exact hm.sound.beq_congr heq h₁.sound h₂.sound hsame

/-- Values of which `none` equals nothing, itself included.  The two maps have other histories and
other shapes, and the same entries; each of them differs from itself. -/
theorem beq_iff_contents_none_unequal :
    let m₁ : Map Int (Option Int) compare :=
      (empty.run compare [.insert 4 (some 40), .insert 2 none, .insert 6 (some 60)]).map
    let m₂ : Map Int (Option Int) compare :=
      (empty.run compare [.insert 6 (some 0), .insert 3 none, .insert 2 none, .insert 4 (some 40),
        .overwrite 6 (some 60), .delete 3]).map
    let _ : BEq (Option Int) := ⟨fun v₁ v₂ => v₁.isSome && decide (v₁ = v₂)⟩
    (∀ k₁ k₂ : Int, (k₁ == k₂) = true ↔ compare k₁ k₂ = .eq) ∧
    Reachable compare m₁ ∧ Reachable compare m₂ ∧ m₁.entries = m₂.entries ∧ m₁.tree ≠ m₂.tree ∧
    (m₁ == m₁) = false ∧ (m₁ == m₂) = false ∧
    ¬ ∀ k, Option.Rel (fun v₁ v₂ => (v₁ == v₂) = true)
      (m₁.get? (compare k)) (m₂.get? (compare k)) := by
  intro m₁ m₂ noneUnequal
  have heq : ∀ k₁ k₂ : Int, (k₁ == k₂) = true ↔ compare k₁ k₂ = .eq := by
    intro k₁ k₂
    rw [beq_iff_eq, Std.compare_eq_iff_eq]
  have h₁ : Reachable compare m₁ := ⟨_, rfl⟩
  have h₂ : Reachable compare m₂ := ⟨_, rfl⟩
  have hdiffer : (m₁ == m₂) = false := by decide +kernel
  refine ⟨heq, h₁, h₂, by decide +kernel, by decide +kernel, by decide +kernel, hdiffer, ?_⟩
  rw [← (beq_iff_contents heq h₁ h₂).1, hdiffer]
  exact Bool.false_ne_true

end Map

end SearchTree
