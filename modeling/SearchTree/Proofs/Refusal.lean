/-
# `SearchTree.Proofs.Refusal` — what fails, when, and what is then left

    delete   fails only with `keyNotFound`, and just when the descent meets no match
    insert   fails only with `duplicateKey`, and just when the descent for its key, by
             the comparison of the keys, meets one that compares equal

Whatever fails leaves the map as it was.

A deletion has more ways out after it has asked the descent: it looks for a parent by
a walk that ignores the order, then for the side of a matching child, for a node in
that slot, and for a successor on the right.  `Counted.delete_goes_through` names what
is found at each of these steps.  The walk visits every node, so it also comes to the
parent of the match that the descent met, and this holds for any query at all.
-/
import SearchTree.Proofs.Conservation

namespace SearchTree

variable {κ ι ν : Type} {cmp : κ → κ → Ordering}

namespace Tree

/-- The descent meets a match among the nodes that it compares, or none. -/
theorem contains_iff_visited {q : Probe κ} {t : Tree κ ν} :
    t.contains q = true ↔ ∃ n ∈ t.visited q, q n.key = .eq := by
  rw [contains, search_eq_find?_visited, List.find?_isSome]
  simp only [Ordering.isEq_iff_eq_eq]

end Tree

namespace Map

variable {m : Map κ ν cmp}

/-- Once the descent has met a match, every later step of the deletion finds what it needs. -/
theorem Counted.delete_goes_through (hm : m.Counted) {q : Probe κ} (h : m.contains q = true) :
    ∃ p n removal, m.tree.target q = .ok p ∧ m.nodeAt? p = some n ∧
      n.toTree.removeRoot.answer = .ok removal ∧ (m.delete q).reply = .ok removal.value := by
  obtain ⟨p, n, kind, hp, hn, -, -, -, hd⟩ := hm.delete_of_contains h
  obtain ⟨kind', -, hr⟩ := Tree.removeRoot_eq n
  exact ⟨p, n, _, hp, hn, by rw [hr], by rw [hd]⟩

theorem Counted.delete_eq_error_iff (hm : m.Counted) {q : Probe κ} {e : Error} :
    (m.delete q).reply = .error e ↔ e = .keyNotFound ∧ m.contains q = false := by
  cases hc : m.contains q with
  | false =>
      rw [delete_of_not_contains hc]
      constructor
      · intro h
        exact ⟨(Except.error.inj h).symm, rfl⟩
      · rintro ⟨rfl, -⟩
        rfl
  | true =>
      obtain ⟨p, n, removal, -, -, -, hreply⟩ := hm.delete_goes_through hc
      rw [hreply]
      constructor
      · intro h
        cases h
      · rintro ⟨-, h⟩
        cases h

theorem Counted.insert_eq_error_iff (hm : m.Counted) {k : κ} {v : ν} {e : Error} :
    (m.insert k v).reply = .error e ↔
      e = .duplicateKey ∧ ∃ n ∈ m.tree.visited (cmp k), cmp k n.key = .eq := by
  rw [hm.insert_eq, ← Tree.contains_iff_visited, contains]
  cases m.tree.contains (cmp k) with
  | true =>
      constructor
      · intro h
        exact ⟨(Except.error.inj h).symm, rfl⟩
      · rintro ⟨rfl, -⟩
        rfl
  | false =>
      constructor
      · intro h
        cases h
      · rintro ⟨-, h⟩
        cases h

/-- A deletion fails just when the look-up fails, and an insertion just when the descent meets its
key; there is no other error, and no error changes the map. -/
theorem refusal_follows_lookup {view : ι → Probe κ} (hm : Reachable view m) :
    (∀ q : Probe κ,
      (∀ e, (m.delete q).reply = .error e ↔ e = .keyNotFound ∧ m.contains q = false) ∧
      (m.contains q = true → ∃ p n removal, m.tree.target q = .ok p ∧ m.nodeAt? p = some n ∧
        n.toTree.removeRoot.answer = .ok removal ∧ (m.delete q).reply = .ok removal.value) ∧
      ∀ e, (m.delete q).reply = .error e → (m.delete q).map = m) ∧
    ∀ k v,
      (∀ e, (m.insert k v).reply = .error e ↔
        e = .duplicateKey ∧ ∃ n ∈ m.tree.visited (cmp k), cmp k n.key = .eq) ∧
      ∀ e, (m.insert k v).reply = .error e → (m.insert k v).map = m := by
  have hcounted := hm.counted
  constructor
  · intro q
    refine ⟨fun e => hcounted.delete_eq_error_iff, hcounted.delete_goes_through, ?_⟩
    intro e he
    exact map_delete_of_error he
  · intro k v
    refine ⟨fun e => hcounted.insert_eq_error_iff, ?_⟩
    intro e he
    exact map_insert_of_error he

/-- By remainders modulo five, 8 and 33 match.  The walk over the parents would come to 33, but the
descent goes the other way at the root, and so the deletion is refused. -/
theorem refusal_follows_lookup_byResidue :
    let m : Map Int String compare :=
      (empty.run Probe.byResidue
        [.insert 52 "a", .insert 31 "b", .insert 75 "c", .insert 33 "d"]).map
    let q := Probe.byResidue 8
    Reachable Probe.byResidue m ∧ (m.parent? q).map (·.key) = some 31 ∧ m.contains q = false ∧
    (m.delete q).reply = .error .keyNotFound ∧ (m.delete q).map = m ∧
    (m.insert 33 "e").reply = .error .duplicateKey ∧ (m.insert 33 "e").map = m := by
  intro m q
  have hm : Reachable Probe.byResidue m := ⟨_, rfl⟩
  obtain ⟨hdelete, hinsert⟩ := refusal_follows_lookup hm
  obtain ⟨hfails, -, hkept⟩ := hdelete q
  obtain ⟨hfails', hkept'⟩ := hinsert 33 "e"
  have hreply := (hfails .keyNotFound).mpr ⟨rfl, rfl⟩
  have hreply' := (hfails' .duplicateKey).mpr ⟨rfl, by decide⟩
  exact ⟨hm, by decide +kernel, rfl, hreply, hkept _ hreply, hreply', hkept' _ hreply'⟩

end Map

end SearchTree
