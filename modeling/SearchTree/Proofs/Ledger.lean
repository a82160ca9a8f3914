/-
# `SearchTree.Proofs.Ledger` — a map answers as a plain list of entries would

A `Ledger` is the plainest finite map: its entries in any order, at most one for
each key up to `cmp`, looked up one after the other.

    insert      refused if the key is there, else the entry is put in front
    delete      the entry that the query matches is struck out
    overwrite   that entry gets another value and keeps its key
    the rest    reads that entry, or the whole list

Nothing in it knows of trees, of places or of a kept size.  A map `Represents` a
ledger when it is sound and its listing is a rearrangement of it.  Every command
keeps that and answers the same on both sides (`Represents.perform`), so every
history does, and so does every history that ends at its first refusal.

The queries are compared as keys are (`Probe.AsKey`): along the order, and with no
two matches in one map.  So the descent meets the entry of a query wherever it
is, and it does not matter that the walk of a deletion goes another way.
-/
import SearchTree.Proofs.CoarseQuery

namespace SearchTree

variable {κ ι ν : Type} {cmp : κ → κ → Ordering}

/-! ## Queries that are compared as keys are -/

/-- A query that goes along the order and tells all keys apart. -/
structure Probe.AsKey (cmp : κ → κ → Ordering) (q : Probe κ) : Prop where
  monotone : q.Monotone cmp
  unique : ∀ k₁ k₂, q k₁ = .eq → q k₂ = .eq → cmp k₁ k₂ = .eq

theorem Probe.asKey_key [Std.TransCmp cmp] (key : κ) : Probe.AsKey cmp (cmp key) where
  monotone := Probe.monotone_of_key key
  unique := fun _ _ h₁ h₂ => Std.TransCmp.eq_trans (Std.OrientedCmp.eq_symm h₁) h₂

section
variable {cmpQ : ι → ι → Ordering} [Std.TransCmp cmpQ] {borrow : κ → ι}

/-- Keys that are compared as what is borrowed from them are ordered as well as that is. -/
theorem transCmp_of_borrow (h : ∀ k₁ k₂, cmp k₁ k₂ = cmpQ (borrow k₁) (borrow k₂)) :
    Std.TransCmp cmp where
  eq_swap := by
    intro k₁ k₂
    rw [h, h]
    exact Std.OrientedCmp.eq_swap
  isLE_trans := by
    intro k₁ k₂ k₃ h₁ h₂
    rw [h] at h₁ h₂ ⊢
    exact Std.TransCmp.isLE_trans h₁ h₂

theorem Probe.asKey_of_borrow (h : ∀ k₁ k₂, cmp k₁ k₂ = cmpQ (borrow k₁) (borrow k₂)) (key : ι) :
    Probe.AsKey cmp fun k => cmpQ key (borrow k) := by
  constructor
  · intro k₁ k₂ hlt
    rw [h] at hlt
    exact Probe.monotone_of_key key _ _ hlt
  · intro k₁ k₂ h₁ h₂
    rw [h]
    exact (Probe.asKey_key key).unique _ _ h₁ h₂

end

/-! ## The reference -/

/-- The entries of a finite map, in no particular order. -/
abbrev Ledger (κ ν : Type) := List (κ × ν)

/-- A reply without the place of what was found: of a node, only its entry. -/
def Reply.placeless : Reply κ ν → Reply κ ν
  | .node n => .item (n.map (·.entry))
  | r => r

@[simp] theorem Reply.placeless_ofInserted (a : Except Error Unit) :
    (Reply.ofInserted a : Reply κ ν).placeless = .ofInserted a := by
  cases a <;> rfl

@[simp] theorem Reply.placeless_ofDeleted (a : Except Error ν) :
    (Reply.ofDeleted a : Reply κ ν).placeless = .ofDeleted a := by
  cases a <;> rfl

theorem Reply.error?_placeless (r : Reply κ ν) : r.placeless.error? = r.error? := by
  cases r <;> rfl

namespace Ledger

/-- The entry that a query matches. -/
def lookup (q : Probe κ) (l : Ledger κ ν) : Option (κ × ν) := l.find? q.hits

/-- Strikes out what a query matches. -/
def strike (q : Probe κ) (l : Ledger κ ν) : Ledger κ ν := l.filter fun e => !q.hits e

/-- Writes a value into what a query matches. -/
def rewrite (q : Probe κ) (value : ν) (l : Ledger κ ν) : Ledger κ ν :=
  l.map fun e => if q.hits e then (e.1, value) else e

/-- Puts an entry in front, unless its key is there. -/
def enter (cmp : κ → κ → Ordering) (l : Ledger κ ν) (e : κ × ν) : Reply κ ν × Ledger κ ν :=
  match l.lookup (cmp e.1) with
  | some _ => (.failed .duplicateKey, l)
  | none => (.done, e :: l)

/-- Enters one item after the other and passes over those whose key is there. -/
def enterAll (cmp : κ → κ → Ordering) (items : List (κ × ν)) (l : Ledger κ ν) : Ledger κ ν :=
  items.foldl (fun l e => (l.enter cmp e).2) l

/-- Strikes out the entry that a query matches, if there is one. -/
def remove (q : Probe κ) (l : Ledger κ ν) : Reply κ ν × Ledger κ ν :=
  match l.lookup q with
  | some e => (.removed e.2, l.strike q)
  | none => (.failed .keyNotFound, l)

/-- The entries in key order. -/
def sorted (cmp : κ → κ → Ordering) (l : Ledger κ ν) : List (κ × ν) :=
  l.mergeSort fun e₁ e₂ => (cmp e₁.1 e₂.1).isLE

/-- What a command answers, and the entries after it. -/
def perform (cmp : κ → κ → Ordering) (view : ι → Probe κ) (l : Ledger κ ν) :
    Command κ ι ν → Reply κ ν × Ledger κ ν
  | .insert k v => l.enter cmp (k, v)
  | .delete q => l.remove (view q)
  | .overwrite q v => (.value ((l.lookup (view q)).map (·.2)), l.rewrite (view q) v)
  | .extend items => (.done, l.enterAll cmp items)
  | .clear => (.done, [])
  | .copy => (.done, l)
  | .get q => (.value ((l.lookup (view q)).map (·.2)), l)
  | .find q => (.item (l.lookup (view q)), l)
  | .contains q => (.truth (l.lookup (view q)).isSome, l)
  | .search q => (.item (l.lookup (view q)), l)
  | .size => (.count l.length, l)
  | .isEmpty => (.truth l.isEmpty, l)
  | .entries => (.listing (l.sorted cmp), l)

/-- The answers to one command after the other. -/
def run (cmp : κ → κ → Ordering) (view : ι → Probe κ) :
    List (Command κ ι ν) → Ledger κ ν → List (Reply κ ν) × Ledger κ ν
  | [], l => ([], l)
  | c :: cs, l =>
      let now := l.perform cmp view c
      let later := run cmp view cs now.2
      (now.1 :: later.1, later.2)

/-- The answers before the first refusal, the refusal, and the entries at that moment. -/
def runUntilFailure (cmp : κ → κ → Ordering) (view : ι → Probe κ) :
    List (Command κ ι ν) → Ledger κ ν → (List (Reply κ ν) × Option Error) × Ledger κ ν
  | [], l => (([], none), l)
  | c :: cs, l =>
      let now := l.perform cmp view c
      match now.1.error? with
      | some e => (([], some e), l)
      | none =>
          let later := runUntilFailure cmp view cs now.2
          ((now.1 :: later.1.1, later.1.2), later.2)

/-- What is refused leaves the entries as they are. -/
theorem perform_of_error {view : ι → Probe κ} {l : Ledger κ ν} {c : Command κ ι ν} {e : Error}
    (h : (l.perform cmp view c).1.error? = some e) : (l.perform cmp view c).2 = l := by
  cases c with
  | insert k v =>
      cases hl : l.lookup (cmp k) with
      | none => simp [perform, enter, hl, Reply.error?] at h
      | some _ => simp [perform, enter, hl]
  | delete q =>
      cases hl : l.lookup (view q) with
      | none => simp [perform, remove, hl]
      | some _ => simp [perform, remove, hl, Reply.error?] at h
  | overwrite | extend | clear | copy => exact nomatch h
  | get | find | contains | search | size | isEmpty | entries => rfl

theorem enterAll_cons (e : κ × ν) (items : List (κ × ν)) (l : Ledger κ ν) :
    l.enterAll cmp (e :: items) = enterAll cmp items (l.enter cmp e).2 := rfl

theorem lookup_eq_none {q : Probe κ} {l : Ledger κ ν} :
    l.lookup q = none ↔ ∀ e ∈ l, q.hits e = false := by
  simp only [lookup, List.find?_eq_none, Bool.not_eq_true]

theorem rewrite_of_not_hits {q : Probe κ} {l : Ledger κ ν} (h : ∀ e ∈ l, q.hits e = false)
    (v : ν) : l.rewrite q v = l := by
  have hid : ∀ e ∈ l, (if q.hits e then (e.1, v) else e) = id e := by
    intro e he
    simp [h e he]
  exact (List.map_congr_left hid).trans (List.map_id l)

/-! A list with only one match `e`, between `a` and `b`. -/

section
variable {q : Probe κ} {a b : List (κ × ν)} {e : κ × ν}

theorem filter_hits_split (he : q.hits e = true) (ha : ∀ e ∈ a, q.hits e = false)
    (hb : ∀ e ∈ b, q.hits e = false) : (a ++ e :: b).filter q.hits = [e] := by
  rw [List.filter_append, List.filter_cons_of_pos he,
    List.filter_eq_nil_iff.mpr fun e hmem => by simp [ha e hmem],
    List.filter_eq_nil_iff.mpr fun e hmem => by simp [hb e hmem]]
  rfl

theorem strike_split (he : q.hits e = true) (ha : ∀ e ∈ a, q.hits e = false)
    (hb : ∀ e ∈ b, q.hits e = false) : strike q (a ++ e :: b) = a ++ b := by
  rw [strike, List.filter_append, List.filter_cons_of_neg (by simp [he]),
    List.filter_eq_self.mpr fun e hmem => by simp [ha e hmem],
    List.filter_eq_self.mpr fun e hmem => by simp [hb e hmem]]

theorem rewrite_split (he : q.hits e = true) (ha : ∀ e ∈ a, q.hits e = false)
    (hb : ∀ e ∈ b, q.hits e = false) (v : ν) :
    rewrite q v (a ++ e :: b) = a ++ (e.1, v) :: b := by
  have ha' : rewrite q v a = a := rewrite_of_not_hits ha v
  have hb' : rewrite q v b = b := rewrite_of_not_hits hb v
  rw [rewrite] at ha' hb' ⊢
  rw [List.map_append, List.map_cons, if_pos he, ha', hb']

end

end Ledger

namespace Map

/-- The map holds the entries of the ledger, in a tree in search order. -/
structure Represents (m : Map κ ν cmp) (l : Ledger κ ν) : Prop where
  sound : m.Sound
  perm : m.entries.Perm l

theorem represents_empty : (empty : Map κ ν cmp).Represents [] :=
  ⟨sound_empty, by rw [entries_eq]; exact .refl _⟩

section
variable {m : Map κ ν cmp} {l : Ledger κ ν} {q : Probe κ}

theorem Represents.size_eq (h : m.Represents l) : m.size = l.length := by
  rw [counted_iff.mp h.sound.counted, h.perm.length_eq]

theorem Represents.isEmpty_eq (h : m.Represents l) : m.isEmpty = .ok l.isEmpty := by
  rw [h.sound.counted.isEmpty_eq, h.size_eq]
  cases l <;> rfl

/-! ## The entry of a query -/

theorem Represents.lookup_of_search_none (h : m.Represents l) (hq : q.AsKey cmp)
    (hn : m.search q = none) : l.lookup q = none := by
  rw [Ledger.lookup_eq_none]
  intro e hmem
  rw [← Bool.not_eq_true, Probe.hits_iff]
  intro hmatch
  rw [← h.perm.mem_iff, entries_eq] at hmem
  exact Bool.eq_false_iff.mp (not_contains_of_search hn)
    ((h.sound.ordered.contains_iff (hq.monotone.monotoneOn m.tree)).mpr ⟨e, hmem, hmatch⟩)

variable [Std.TransCmp cmp]

/-- The node that the descent finds has the only entry that the query matches. -/
theorem Sound.split_of_search (hm : m.Sound) (hq : q.AsKey cmp) {n : Node κ ν}
    (hn : m.search q = some n) {a b : List (κ × ν)} (he : m.entries = a ++ n.entry :: b) :
    q.hits n.entry = true ∧ (∀ e ∈ a, q.hits e = false) ∧ ∀ e ∈ b, q.hits e = false := by
  have hmatch : q n.entry.1 = .eq := Tree.match_of_search hn
  have hrise := hm.pairwise_entries
  rw [he, List.pairwise_append, List.pairwise_cons] at hrise
  obtain ⟨-, ⟨hb, -⟩, ha⟩ := hrise
  refine ⟨Probe.hits_iff.mpr hmatch, ?_, ?_⟩
  · intro e hmem
    rw [← Bool.not_eq_true, Probe.hits_iff]
    intro h
    exact nomatch (ha e hmem _ (List.mem_cons_self ..)).symm.trans (hq.unique _ _ h hmatch)
  · intro e hmem
    rw [← Bool.not_eq_true, Probe.hits_iff]
    intro h
    exact nomatch (hb e hmem).symm.trans (hq.unique _ _ hmatch h)

theorem Represents.lookup_of_search (h : m.Represents l) (hq : q.AsKey cmp) {n : Node κ ν}
    (hn : m.search q = some n) : l.lookup q = some n.entry := by
  obtain ⟨a, b, he, -⟩ := h.sound.entries_delete (hq.monotone.monotoneOn m.tree) hn
  obtain ⟨hhit, ha, hb⟩ := h.sound.split_of_search hq hn he
  have hone : m.entries.filter q.hits = [n.entry] := by
    rw [he, Ledger.filter_hits_split hhit ha hb]
  -- A list with only one match has the same first match, however it is rearranged.
  have hperm : (l.filter q.hits).Perm [n.entry] := by
    rw [← hone]
    exact (h.perm.filter q.hits).symm
  rw [Ledger.lookup, ← List.head?_filter, hperm.eq_singleton]
  rfl

/-- The descent finds what is found by looking through the ledger. -/
theorem Represents.lookup_eq (h : m.Represents l) (hq : q.AsKey cmp) :
    l.lookup q = (m.search q).map (·.entry) := by
  cases hn : m.search q with
  | some n => exact h.lookup_of_search hq hn
  | none => exact h.lookup_of_search_none hq hn

theorem Represents.contains_eq (h : m.Represents l) (hq : q.AsKey cmp) :
    m.contains q = (l.lookup q).isSome := by
  rw [h.lookup_eq hq, Option.isSome_map]
  rfl

/-! ## The commands -/

theorem Represents.insert (h : m.Represents l) (k : κ) (v : ν) :
    .ofInserted (m.insert k v).reply = (l.enter cmp (k, v)).1 ∧
      (m.insert k v).map.Represents (l.enter cmp (k, v)).2 := by
  have hsound := h.sound.insert k v
  have hc := h.contains_eq (Probe.asKey_key k)
  rw [h.sound.counted.insert_eq] at hsound ⊢
  cases hl : l.lookup (cmp k) with
  | some e =>
      rw [hl, Option.isSome_some] at hc
      simp only [Ledger.enter, hl, hc, if_true]
      exact ⟨rfl, h⟩
  | none =>
      rw [hl, Option.isSome_none] at hc
      simp only [hc, Bool.false_eq_true, if_false] at hsound
      simp only [Ledger.enter, hl, hc, Bool.false_eq_true, if_false]
      obtain ⟨a, b, ht, ht'⟩ := Tree.inorder_hang_leaf hc v
      refine ⟨rfl, hsound, ?_⟩
      have hperm : (a ++ b).Perm l := by
        rw [← ht, ← entries_eq]
        exact h.perm
      rw [entries_eq, ht']
      exact List.perm_middle.trans (hperm.cons _)

theorem Represents.delete (h : m.Represents l) (hq : q.AsKey cmp) :
    .ofDeleted (m.delete q).reply = (l.remove q).1 ∧
      (m.delete q).map.Represents (l.remove q).2 := by
  cases hn : m.search q with
  | some n =>
      have hmono := hq.monotone.monotoneOn m.tree
      obtain ⟨a, b, he, he'⟩ := h.sound.entries_delete hmono hn
      obtain ⟨hhit, ha, hb⟩ := h.sound.split_of_search hq hn he
      simp only [Ledger.remove, h.lookup_of_search hq hn]
      refine ⟨by rw [(h.sound.delete_of_search hmono hn).1]; rfl, h.sound.delete q, ?_⟩
      have hleft : Ledger.strike q m.entries = a ++ b := by
        rw [he, Ledger.strike_split hhit ha hb]
      rw [he', ← hleft]
      exact h.perm.filter _
  | none =>
      rw [delete_of_not_contains (not_contains_of_search hn)]
      simp only [Ledger.remove, h.lookup_of_search_none hq hn]
      exact ⟨rfl, h⟩

theorem Represents.overwrite (h : m.Represents l) (hq : q.AsKey cmp) (v : ν) :
    (m.overwrite q v).reply = (l.lookup q).map (·.2) ∧
      (m.overwrite q v).map.Represents (l.rewrite q v) := by
  have hsound := h.sound.overwrite q v
  rw [overwrite_eq] at hsound ⊢
  cases hn : m.search q with
  | some n =>
      obtain ⟨a, b, ht, ht'⟩ := Tree.inorder_overwrite hn v
      rw [← entries_eq] at ht
      obtain ⟨hhit, ha, hb⟩ := h.sound.split_of_search hq hn ht
      simp only [hn] at hsound
      refine ⟨by rw [h.lookup_of_search hq hn]; rfl, hsound, ?_⟩
      have hnew : Ledger.rewrite q v m.entries = a ++ (n.key, v) :: b := by
        rw [ht, Ledger.rewrite_split hhit ha hb]
        rfl
      rw [entries_eq, ht', ← hnew]
      exact h.perm.map _
  | none =>
      have hl := h.lookup_of_search_none hq hn
      rw [Ledger.rewrite_of_not_hits (Ledger.lookup_eq_none.mp hl) v, hl]
      exact ⟨rfl, h⟩

theorem Represents.extend (h : m.Represents l) (items : List (κ × ν)) :
    (m.extend items).map.Represents (l.enterAll cmp items) := by
  induction items generalizing m l with
  | nil => exact h
  | cons e items ih =>
      rw [h.sound.counted.extend_cons]
      exact ih (h.insert e.1 e.2).2

/-- Only one arrangement of the entries has their keys rising. -/
theorem Represents.entries_eq_sorted (h : m.Represents l) : m.entries = l.sorted cmp := by
  have hrise := h.sound.pairwise_entries
  have hsorted : (l.sorted cmp).Pairwise fun e₁ e₂ => (cmp e₁.1 e₂.1).isLE := by
    apply List.pairwise_mergeSort
    · exact fun _ _ _ h₁ h₂ => Std.TransCmp.isLE_trans h₁ h₂
    · intro e₁ e₂
      rw [Bool.or_eq_true, ← Std.OrientedCmp.isGE_iff_isLE (a := e₁.1)]
      cases cmp e₁.1 e₂.1 <;> simp
  have hperm : m.entries.Perm (l.sorted cmp) := h.perm.trans (List.mergeSort_perm ..).symm
  apply hperm.eq_of_pairwise _ (hrise.imp fun hlt => by rw [hlt]; rfl) hsorted
  intro e₁ e₂ h₁ h₂ hle hge
  have heq : cmp e₁.1 e₂.1 = .eq := Std.OrientedCmp.isLE_antisymm hle hge
  obtain ⟨i, hi, rfl⟩ := List.getElem_of_mem h₁
  obtain ⟨j, hj, rfl⟩ := List.getElem_of_mem (hperm.mem_iff.mpr h₂)
  rw [getElem_congr_idx (h.sound.entries_distinct hi hj heq)]

/-- Every command answers as the ledger does, and leaves what the ledger says. -/
theorem Represents.perform {view : ι → Probe κ} (h : m.Represents l)
    (hview : ∀ q, (view q).AsKey cmp) (c : Command κ ι ν) :
    (m.perform view c).reply.placeless = (l.perform cmp view c).1 ∧
      (m.perform view c).map.Represents (l.perform cmp view c).2 := by
  cases c with
  | insert k v =>
      obtain ⟨hreply, hrest⟩ := h.insert k v
      exact ⟨(Reply.placeless_ofInserted _).trans hreply, hrest⟩
  | delete q =>
      obtain ⟨hreply, hrest⟩ := h.delete (hview q)
      exact ⟨(Reply.placeless_ofDeleted _).trans hreply, hrest⟩
  | overwrite q v =>
      obtain ⟨hreply, hrest⟩ := h.overwrite (hview q) v
      exact ⟨congrArg Reply.value hreply, hrest⟩
  | extend items =>
      refine ⟨?_, h.extend items⟩
      show (Reply.ofInserted (m.extend items).reply).placeless = .done
      rw [Reply.placeless_ofInserted, (h.sound.counted.effect_extend cmp items).1]
      rfl
  | clear => exact ⟨rfl, represents_empty⟩
  | copy =>
      rw [Map.perform, recopy, copy_eq]
      exact ⟨rfl, h⟩
  | get q =>
      refine ⟨?_, h⟩
      show Reply.value (m.get? (view q)) = _
      rw [Ledger.perform, h.lookup_eq (hview q), Option.map_map, get?]
      rfl
  | find q =>
      refine ⟨?_, h⟩
      rw [Ledger.perform, h.lookup_eq (hview q)]
      rfl
  | contains q =>
      refine ⟨?_, h⟩
      rw [Ledger.perform, ← h.contains_eq (hview q)]
      rfl
  | search q =>
      refine ⟨?_, h⟩
      rw [Ledger.perform, h.lookup_eq (hview q)]
      rfl
  | size => exact ⟨congrArg Reply.count h.size_eq, h⟩
  | isEmpty =>
      refine ⟨?_, h⟩
      show (Reply.ofEmptiness m.isEmpty).placeless = _
      rw [h.isEmpty_eq]
      rfl
  | entries => exact ⟨congrArg Reply.listing h.entries_eq_sorted, h⟩

/-! ## Histories -/

theorem Represents.run {view : ι → Probe κ} (h : m.Represents l)
    (hview : ∀ q, (view q).AsKey cmp) (cs : List (Command κ ι ν)) :
    (m.run view cs).reply.map Reply.placeless = (Ledger.run cmp view cs l).1 ∧
      (m.run view cs).map.Represents (Ledger.run cmp view cs l).2 := by
  induction cs generalizing m l with
  | nil => exact ⟨rfl, h⟩
  | cons c cs ih =>
      obtain ⟨hreply, hstep⟩ := h.perform hview c
      obtain ⟨hreplies, hrest⟩ := ih hstep
      refine ⟨?_, hrest⟩
      simp only [Map.run, Ledger.run, Outcome.andThen, Outcome.mapReply, List.map_cons]
      rw [hreply, hreplies]

theorem Represents.runUntilFailure {view : ι → Probe κ} (h : m.Represents l)
    (hview : ∀ q, (view q).AsKey cmp) (cs : List (Command κ ι ν)) :
    (m.runUntilFailure view cs).reply.1.map Reply.placeless
        = (Ledger.runUntilFailure cmp view cs l).1.1 ∧
      (m.runUntilFailure view cs).reply.2 = (Ledger.runUntilFailure cmp view cs l).1.2 ∧
      (m.runUntilFailure view cs).map.Represents (Ledger.runUntilFailure cmp view cs l).2 := by
  induction cs generalizing m l with
  | nil => exact ⟨rfl, rfl, h⟩
  | cons c cs ih =>
      obtain ⟨hreply, hstep⟩ := h.perform hview c
      have herror : (m.perform view c).reply.error? = (l.perform cmp view c).1.error? := by
        rw [← hreply, Reply.error?_placeless]
      simp only [Map.runUntilFailure, Ledger.runUntilFailure, Outcome.andThen]
      cases he : (l.perform cmp view c).1.error? with
      | some e =>
          -- Refused: the map has not changed, and neither has the ledger.
          rw [Ledger.perform_of_error he] at hstep
          simp only [herror, he]
          exact ⟨by rfl, trivial, hstep⟩
      | none =>
          obtain ⟨hreplies, hfailure, hrest⟩ := ih hstep
          simp only [herror, he]
          refine ⟨?_, hfailure, hrest⟩
          simp only [Outcome.mapReply, List.map_cons]
          rw [hreply, hreplies]

end

/-- Let the keys be ordered as what is borrowed from them, and the queries be of that kind.  Then
every history of the empty map answers as the ledger does and ends with its entries, and so does
every history that stops at the first refusal, which is the first refusal of the ledger. -/
theorem run_answers_as_ledger (cmpQ : ι → ι → Ordering) [Std.TransCmp cmpQ] (borrow : κ → ι)
    (hborrow : ∀ k₁ k₂, cmp k₁ k₂ = cmpQ (borrow k₁) (borrow k₂)) (cs : List (Command κ ι ν)) :
    let view : ι → Probe κ := fun q k => cmpQ q (borrow k)
    let all := (empty : Map κ ν cmp).run view cs
    let chained := (empty : Map κ ν cmp).runUntilFailure view cs
    let expected := Ledger.run cmp view cs []
    let expectedChained := Ledger.runUntilFailure cmp view cs []
    (all.reply.map Reply.placeless = expected.1 ∧ all.map.entries.Perm expected.2) ∧
      chained.reply.1.map Reply.placeless = expectedChained.1.1 ∧
      chained.reply.2 = expectedChained.1.2 ∧ chained.map.entries.Perm expectedChained.2 := by
  intro view all chained expected expectedChained
  have : Std.TransCmp cmp := transCmp_of_borrow hborrow
  have hview : ∀ q, (view q).AsKey cmp := Probe.asKey_of_borrow hborrow
  have hempty : (empty : Map κ ν cmp).Represents [] := represents_empty
  obtain ⟨hreplies, hall⟩ := hempty.run hview cs
  obtain ⟨hbefore, hfailure, hchained⟩ := hempty.runUntilFailure hview cs
  exact ⟨⟨hreplies, hall.perm⟩, hbefore, hfailure, hchained.perm⟩

/-- Numbered keys, of which only the number counts, asked for by number.  The deletion of 4 finds
two children, so the entry of 5 moves up; it keeps its key as it was first given. -/
theorem run_answers_as_ledger_numbered :
    let cs : List (Command (Int × String) Int String) :=
      [.insert (4, "four") "a", .insert (2, "two") "b", .insert (7, "seven") "c",
        .insert (5, "five") "d", .delete 4, .find 5, .insert (5, "FIVE") "e", .get 5, .size]
    let order : Int × String → Int × String → Ordering := fun k₁ k₂ => compare k₁.1 k₂.1
    let view : Int → Probe (Int × String) := fun q k => compare q k.1
    let m : Map (Int × String) String order := empty
    Std.TransCmp (compare : Int → Int → Ordering) ∧
    ((m.run view cs).reply.map Reply.placeless
        = [.done, .done, .done, .done, .removed "a", .item (some ((5, "five"), "d")),
          .failed .duplicateKey, .value (some "d"), .count 3]) ∧
    (m.runUntilFailure view cs).reply.2 = some .duplicateKey ∧
    (m.run view cs).map.entries.Perm (Ledger.run order view cs []).2 := by
  intro cs order view m
  have horder : ∀ k₁ k₂, order k₁ k₂ = compare k₁.1 k₂.1 := fun _ _ => rfl
  obtain ⟨⟨hreplies, hperm⟩, -, hfailure, -⟩ := run_answers_as_ledger compare Prod.fst horder cs
  exact ⟨inferInstance, hreplies, hfailure, hperm⟩

end Map

end SearchTree
