/-
# `SearchTree.Proofs.Conservation` — the entries that a command leaves

`Effect view c r m m'` says when a command may answer what, and how the map after
it differs from the map before:

    insert      one entry more, between those that were there, if the descent
                does not meet its key; refused if it does
    delete      one matching entry less, if the descent meets a match; else refused
    overwrite   another value in one matching entry, under the same condition
    extend      a run of insertions
    clear       the empty map
    otherwise   nothing, and nothing either by what is refused

No law of a comparison is assumed, neither of the order of the tree nor of the
queries, which may follow any order at all.  What carries the proof is `Counted`,
the agreement of the kept size with the tree: as long as it holds no step meets a
fault of the map's own, and every effect keeps it.
-/
import SearchTree.Key
import SearchTree.Map.Command
import SearchTree.Proofs.Copy
import SearchTree.Proofs.Deletion

namespace SearchTree

variable {κ ι ν : Type} {cmp : κ → κ → Ordering}

/-- Whether a command only asks. -/
def Command.isQuestion : Command κ ι ν → Bool
  | .get _ | .find _ | .contains _ | .search _ | .size | .isEmpty | .entries => true
  | _ => false

/-- What a command answers, and what becomes of the map. -/
inductive Effect (view : ι → Probe κ) :
    Command κ ι ν → Reply κ ν → Map κ ν cmp → Map κ ν cmp → Prop where
  | inserted {m m' : Map κ ν cmp} {k : κ} {v : ν} (a b : List (κ × ν)) :
      m.contains (cmp k) = false → m.entries = a ++ b → m'.entries = a ++ (k, v) :: b →
      m'.size = m.size + 1 → Effect view (.insert k v) .done m m'
  | duplicate {m : Map κ ν cmp} {k : κ} {v : ν} : m.contains (cmp k) = true →
      Effect view (.insert k v) (.failed .duplicateKey) m m
  | removed {m m' : Map κ ν cmp} {q : ι} {k : κ} {v : ν} (a b : List (κ × ν)) :
      m.contains (view q) = true → view q k = .eq → m.entries = a ++ (k, v) :: b →
      m'.entries = a ++ b → m.size = m'.size + 1 → Effect view (.delete q) (.removed v) m m'
  | notFound {m : Map κ ν cmp} {q : ι} : m.contains (view q) = false →
      Effect view (.delete q) (.failed .keyNotFound) m m
  | overwritten {m m' : Map κ ν cmp} {q : ι} {k : κ} {old new : ν} (a b : List (κ × ν)) :
      m.contains (view q) = true → view q k = .eq → m.entries = a ++ (k, old) :: b →
      m'.entries = a ++ (k, new) :: b → m'.size = m.size →
      Effect view (.overwrite q new) (.value (some old)) m m'
  | missed {m : Map κ ν cmp} {q : ι} {new : ν} : m.contains (view q) = false →
      Effect view (.overwrite q new) (.value none) m m
  | extendedNil {m : Map κ ν cmp} : Effect view (.extend []) .done m m
  | extendedCons {m m₁ m₂ : Map κ ν cmp} {k : κ} {v : ν} {items : List (κ × ν)}
      {r : Reply κ ν} : Effect view (.insert k v) r m m₁ →
      Effect view (.extend items) .done m₁ m₂ → Effect view (.extend ((k, v) :: items)) .done m m₂
  | cleared {m : Map κ ν cmp} : Effect view .clear .done m .empty
  | copied {m : Map κ ν cmp} : Effect view .copy .done m m
  | asked {m : Map κ ν cmp} {c : Command κ ι ν} {r : Reply κ ν} : c.isQuestion = true →
      Effect view c r m m

namespace Map

theorem entries_eq (m : Map κ ν cmp) : m.entries = m.tree.inorder :=
  Tree.toList_inorder m.tree

theorem contains_of_search {m : Map κ ν cmp} {q : Probe κ} {n : Node κ ν}
    (h : m.search q = some n) : m.contains q = true :=
  Option.isSome_iff_exists.mpr ⟨n, h⟩

theorem not_contains_of_search {m : Map κ ν cmp} {q : Probe κ} (h : m.search q = none) :
    m.contains q = false :=
  Option.isSome_eq_false_iff.mpr (Option.isNone_iff_eq_none.mpr h)

/-- The kept size is the number of nodes. -/
def Counted (m : Map κ ν cmp) : Prop := m.size = m.tree.size

theorem counted_empty : (empty : Map κ ν cmp).Counted := rfl

theorem counted_iff {m : Map κ ν cmp} : m.Counted ↔ m.size = m.entries.length := by
  rw [entries_eq, Tree.length_inorder, Counted]

theorem Counted.size_eq_zero_iff {m : Map κ ν cmp} (hm : m.Counted) :
    m.size = 0 ↔ m.tree.isEmpty = true := by
  rw [hm, Tree.size_eq_zero_iff, Tree.isEmpty_iff]

/-! ## One equation per operation -/

theorem Counted.isEmpty_eq {m : Map κ ν cmp} (hm : m.Counted) :
    m.isEmpty = .ok (m.size == 0) := by
  apply if_neg
  rw [Bool.and_eq_true, beq_iff_eq, hm.size_eq_zero_iff, Bool.not_eq_true']
  rintro ⟨hempty, hroot⟩
  exact Bool.false_ne_true (hroot.symm.trans hempty)

/-- An insertion is refused, or hangs a leaf where the descent falls off. -/
theorem Counted.insert_eq {m : Map κ ν cmp} (hm : m.Counted) (k : κ) (v : ν) :
    m.insert k v =
      if m.contains (cmp k) then m.refuse .duplicateKey
      else ⟨.ok (), ⟨m.tree.replaceAt (m.tree.reach (cmp k)) (.leaf k v), m.size + 1⟩,
        [if m.tree.isEmpty then .insertedRoot (m.size + 1) else .insertedKey (m.size + 1)]⟩ := by
  have hguard : (m.tree.isEmpty && m.size != 0) = false := by
    rw [Bool.and_eq_false_imp, bne_eq_false_iff_eq]
    exact hm.size_eq_zero_iff.mpr
  rw [insert, hguard, Tree.insert_eq, contains]
  cases m.tree.contains (cmp k) <;> rfl

theorem delete_of_not_contains {m : Map κ ν cmp} {q : Probe κ} (h : m.contains q = false) :
    m.delete q = m.refuse .keyNotFound := by
  rw [delete, Tree.delete_of_not_contains h]
  rfl

/-- A deletion goes through only if the descent meets a match. -/
theorem contains_of_delete_ok {m : Map κ ν cmp} {q : Probe κ} {v : ν}
    (h : (m.delete q).reply = .ok v) : m.contains q = true := by
  cases hc : m.contains q with
  | false =>
      rw [delete_of_not_contains hc] at h
      cases h
  | true => rfl

/-- A deletion whose descent meets a match is carried out. -/
theorem Counted.delete_of_contains {m : Map κ ν cmp} (hm : m.Counted) {q : Probe κ}
    (h : m.contains q = true) :
    ∃ p n kind, m.tree.target q = .ok p ∧ m.nodeAt? p = some n ∧ q n.key = .eq ∧
      kind.childCount = n.childCount ∧ 0 < m.size ∧
      m.delete q =
        ⟨.ok n.value, ⟨m.tree.replaceAt p (Tree.merged n.left n.right), m.size - 1⟩,
          [.removingNode kind, .deletedKey (m.size - 1) p.isEmpty]⟩ := by
  obtain ⟨p, n, kind, hp, hn, hq, hkind, hd⟩ := Tree.delete_of_contains h
  -- The node that goes is one of those counted, so the count is not exhausted.
  have hpos : 0 < m.size := by
    rw [counted_iff.mp hm, entries_eq]
    exact List.length_pos_of_mem (Tree.mem_inorder_of_nodeAt? hn)
  refine ⟨p, n, kind, hp, hn, hq, hkind, hpos, ?_⟩
  obtain ⟨s, hs⟩ := Nat.exists_eq_succ_of_ne_zero (Nat.ne_of_gt hpos)
  simp [delete, Outcome.andThen, hd, hs]

/-- What a deletion leaves was there before, in the same order. -/
theorem Counted.entries_delete_sublist {m : Map κ ν cmp} (hm : m.Counted) (q : Probe κ) :
    (m.delete q).map.entries.Sublist m.entries := by
  cases h : m.contains q with
  | false =>
      rw [delete_of_not_contains h]
      exact .refl _
  | true =>
      obtain ⟨p, n, kind, -, hn, -, -, -, hd⟩ := hm.delete_of_contains h
      obtain ⟨a, b, ht, ht'⟩ := Tree.inorder_removeAt hn
      rw [hd, entries_eq, entries_eq, ht, ht']
      exact (List.sublist_cons_self ..).append_left a

theorem overwrite_eq (m : Map κ ν cmp) (q : Probe κ) (new : ν) :
    m.overwrite q new =
      match m.search q with
      | none => ⟨none, m, []⟩
      | some n =>
          ⟨some n.value,
            ⟨m.tree.replaceAt (m.tree.reach q) (.node n.left n.key new n.right), m.size⟩, []⟩ := by
  rw [overwrite, Tree.overwrite?_eq, search]
  cases m.tree.search q <;> rfl

theorem copyWith_eq (f : κ → κ) (g : ν → ν) (m : Map κ ν cmp) :
    m.copyWith f g = .ok ⟨m.tree.mapEntries f g, m.size⟩ := by
  rw [copyWith, Tree.copyWith_eq]
  rfl

theorem copy_eq (m : Map κ ν cmp) : m.copy = .ok m := by
  rw [copy, copyWith_eq, Tree.mapEntries_id]

/-- No insertion meets a fault, so an extension goes through all its items. -/
theorem Counted.extend_cons {m : Map κ ν cmp} (hm : m.Counted) (k : κ) (v : ν)
    (items : List (κ × ν)) :
    m.extend ((k, v) :: items) = (m.insert k v).andThen fun _ m' => m'.extend items := by
  rw [extend, hm.insert_eq]
  split <;> rfl

end Map

/-! ## Every effect keeps the count -/

theorem Effect.counted {view : ι → Probe κ} {c : Command κ ι ν} {r : Reply κ ν}
    {m m' : Map κ ν cmp} (h : Effect view c r m m') (hm : m.Counted) : m'.Counted := by
  induction h with
  | inserted a b _ he he' hs =>
      rw [Map.counted_iff] at hm ⊢
      simp only [he, he', List.length_append, List.length_cons] at hm ⊢
      omega
  | removed a b _ _ he he' hs =>
      rw [Map.counted_iff] at hm ⊢
      simp only [he, he', List.length_append, List.length_cons] at hm ⊢
      omega
  | overwritten a b _ _ he he' hs =>
      rw [Map.counted_iff] at hm ⊢
      simp only [he, he', List.length_append, List.length_cons] at hm ⊢
      omega
  | extendedCons _ _ ih ih' => exact ih' (ih hm)
  | cleared => exact Map.counted_empty
  | duplicate _ | notFound _ | missed _ | extendedNil | copied | asked _ => exact hm

namespace Map

/-! ## The effect of every command -/

theorem Counted.effect_insert {m : Map κ ν cmp} (hm : m.Counted) (view : ι → Probe κ) (k : κ)
    (v : ν) :
    Effect view (.insert k v) (.ofInserted (m.insert k v).reply) m (m.insert k v).map := by
  rw [hm.insert_eq]
  cases h : m.contains (cmp k) with
  | true => exact .duplicate h
  | false =>
      obtain ⟨a, b, ht, ht'⟩ := Tree.inorder_hang_leaf h v
      exact .inserted a b h (by rw [entries_eq, ht]) (by rw [entries_eq, ← ht']; rfl) rfl

theorem Counted.insert {m : Map κ ν cmp} (hm : m.Counted) (k : κ) (v : ν) :
    (m.insert k v).map.Counted :=
  (hm.effect_insert cmp k v).counted hm

theorem Counted.effect_delete {m : Map κ ν cmp} (hm : m.Counted) (view : ι → Probe κ) (q : ι) :
    Effect view (.delete q) (.ofDeleted (m.delete (view q)).reply) m
      (m.delete (view q)).map := by
  cases h : m.contains (view q) with
  | false =>
      rw [delete_of_not_contains h]
      exact .notFound h
  | true =>
      obtain ⟨p, n, kind, -, hn, hq, -, hpos, hd⟩ := hm.delete_of_contains h
      obtain ⟨a, b, ht, ht'⟩ := Tree.inorder_removeAt hn
      rw [hd]
      exact .removed a b h hq (by rw [entries_eq, ht]; rfl) (by rw [entries_eq, ht'])
        (Nat.succ_pred_eq_of_pos hpos).symm

theorem Counted.delete {m : Map κ ν cmp} (hm : m.Counted) (q : Probe κ) :
    (m.delete q).map.Counted :=
  (hm.effect_delete id q).counted hm

theorem effect_overwrite (m : Map κ ν cmp) (view : ι → Probe κ) (q : ι) (v : ν) :
    Effect view (.overwrite q v) (.value (m.overwrite (view q) v).reply) m
      (m.overwrite (view q) v).map := by
  rw [overwrite_eq]
  cases h : m.search (view q) with
  | none => exact .missed (not_contains_of_search h)
  | some n =>
      obtain ⟨a, b, ht, ht'⟩ := Tree.inorder_overwrite h v
      have he : m.entries = a ++ (n.key, n.value) :: b := by
        rw [entries_eq, ht]
        rfl
      exact .overwritten a b (contains_of_search h) (Tree.match_of_search h) he
        (by rw [entries_eq, ht']) rfl

theorem Counted.effect_extend {m : Map κ ν cmp} (hm : m.Counted) (view : ι → Probe κ)
    (items : List (κ × ν)) :
    (m.extend items).reply = .ok () ∧ Effect view (.extend items) .done m (m.extend items).map := by
  induction items generalizing m with
  | nil => exact ⟨rfl, .extendedNil⟩
  | cons e items ih =>
      have hfirst := hm.effect_insert view e.1 e.2
      obtain ⟨hreply, hrest⟩ := ih (hfirst.counted hm)
      rw [hm.extend_cons]
      exact ⟨hreply, .extendedCons hfirst hrest⟩

theorem Counted.effect {m : Map κ ν cmp} (hm : m.Counted) (view : ι → Probe κ)
    (c : Command κ ι ν) : Effect view c (m.perform view c).reply m (m.perform view c).map := by
  cases c with
  | insert k v => exact hm.effect_insert view k v
  | delete q => exact hm.effect_delete view q
  | overwrite q v => exact effect_overwrite m view q v
  | extend items =>
      obtain ⟨hreply, heffect⟩ := hm.effect_extend view items
      show Effect view _ (.ofInserted (m.extend items).reply) m (m.extend items).map
      rw [hreply]
      exact heffect
  | clear => exact .cleared
  | copy =>
      rw [perform, recopy, copy_eq]
      exact .copied
  | get | find | contains | search | size | isEmpty | entries => exact .asked rfl

theorem Counted.perform {m : Map κ ν cmp} (hm : m.Counted) (view : ι → Probe κ)
    (c : Command κ ι ν) : (m.perform view c).map.Counted :=
  (hm.effect view c).counted hm

theorem Reachable.counted {view : ι → Probe κ} {m : Map κ ν cmp} (h : Reachable view m) :
    m.Counted :=
  h.induct counted_empty fun _ c hm => hm.perform view c

/-- Whatever the comparisons answer, no entry is lost, doubled or given another's value. -/
theorem entries_conserved (view : ι → Probe κ) {m : Map κ ν cmp} (hm : Reachable view m)
    (c : Command κ ι ν) :
    m.size = m.tree.size ∧ Effect view c (m.perform view c).reply m (m.perform view c).map :=
  ⟨hm.counted, hm.counted.effect view c⟩

/-- Queries by remainder follow no order of the keys: the descent for five meets the key 20, and the
deletion takes out 75, which the walk over the parents comes to first. -/
theorem entries_conserved_byResidue :
    let m : Map Int String compare :=
      (empty.run Probe.byResidue [.insert 52 "a", .insert 31 "b", .insert 20 "c", .insert 75 "d",
        .insert 60 "e", .insert 80 "f"]).map
    let m' := (m.perform Probe.byResidue (.delete 5)).map
    m.get? (Probe.byResidue 5) = some "c" ∧
      m.entries = [(20, "c"), (31, "b"), (52, "a"), (60, "e"), (75, "d"), (80, "f")] ∧
      m'.entries = [(20, "c"), (31, "b"), (52, "a"), (60, "e"), (80, "f")] ∧
      Reachable Probe.byResidue m ∧ m.size = m.tree.size ∧
      Effect Probe.byResidue (.delete 5) (m.perform Probe.byResidue (.delete 5)).reply m m' := by
  intro m m'
  refine ⟨rfl, ?_, ?_, ⟨_, rfl⟩, entries_conserved Probe.byResidue ⟨_, rfl⟩ (.delete 5)⟩
  · rw [entries_eq]
    rfl
  · rw [entries_eq]
    show (m.delete (Probe.byResidue 5)).map.tree.inorder = _
    rw [delete, Tree.delete, Tree.target_eq]
    rfl

end Map

end SearchTree
