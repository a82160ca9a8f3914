/-
# `SearchTree.Proofs.Bulk` — many entries at once

To extend a map by a list is to insert its items one after the other and to pass over
what is refused.  A ledger does the same (`Ledger.enterAll`), and what it holds
afterwards follows from one equation, by induction on the list:

    look up k in the new ledger  =  look up k in the old one, else in the list

* The new entries stand before the old ones, and no two keys of a ledger compare
  equal.  So, by the equation, the keys in front are the new keys, each once up to
  the order (`Ledger.enumerates_added`), and the size has grown by their number.
* Items whose keys are all different are all taken.  So the map that is collected
  from them represents their list, and with it every rearrangement of the list.

The order of the items still shows in the tree, for the first item stays at the root.
-/
import SearchTree.Proofs.Contents
import SearchTree.Proofs.Rebuild

namespace SearchTree

variable {κ ι ν : Type} {cmp : κ → κ → Ordering}

/-! ## Counting keys up to the order -/

/-- A list of the keys of one kind: no two of them compare equal, and the keys of the kind are
those that compare equal to one of them. -/
structure Enumerates (cmp : κ → κ → Ordering) (P : κ → Prop) (ks : List κ) : Prop where
  distinct : ks.Pairwise fun k₁ k₂ => cmp k₁ k₂ ≠ .eq
  covers : ∀ k, P k ↔ ∃ k' ∈ ks, cmp k k' = .eq

section
variable [Std.TransCmp cmp]

/-- Keys that compare equal are taken for one. -/
def keySetoid (cmp : κ → κ → Ordering) [Std.TransCmp cmp] : Setoid κ where
  r k₁ k₂ := cmp k₁ k₂ = .eq
  iseqv := ⟨fun _ => Std.ReflCmp.compare_self, Std.OrientedCmp.eq_symm, Std.TransCmp.eq_trans⟩

/-- The key up to the order. -/
def keyClass (cmp : κ → κ → Ordering) [Std.TransCmp cmp] (k : κ) : Quotient (keySetoid cmp) :=
  Quotient.mk _ k

theorem keyClass_eq_iff {k₁ k₂ : κ} : keyClass cmp k₁ = keyClass cmp k₂ ↔ cmp k₁ k₂ = .eq :=
  ⟨Quotient.exact, fun h => Quotient.sound h⟩

namespace Enumerates

variable {P : κ → Prop} {ks ks' : List κ}

theorem nodup_keyClass (h : Enumerates cmp P ks) : (ks.map (keyClass cmp)).Nodup := by
  rw [List.Nodup, List.pairwise_map]
  exact h.distinct.imp fun hne => keyClass_eq_iff.not.mpr hne

theorem mem_keyClass (h : Enumerates cmp P ks) {k : κ} :
    keyClass cmp k ∈ ks.map (keyClass cmp) ↔ P k := by
  rw [h.covers, List.mem_map]
  constructor
  · rintro ⟨k', hk', heq⟩
    exact ⟨k', hk', keyClass_eq_iff.mp heq.symm⟩
  · rintro ⟨k', hk', heq⟩
    exact ⟨k', hk', (keyClass_eq_iff.mpr heq).symm⟩

/-- So the number of keys of a kind does not depend on which of them are listed. -/
theorem length_eq (h : Enumerates cmp P ks) (h' : Enumerates cmp P ks') :
    ks.length = ks'.length := by
  have hperm : (ks.map (keyClass cmp)).Perm (ks'.map (keyClass cmp)) := by
    rw [List.perm_ext_iff_of_nodup h.nodup_keyClass h'.nodup_keyClass]
    exact Quotient.ind fun k => h.mem_keyClass.trans h'.mem_keyClass.symm
  simpa using hperm.length_eq

end Enumerates

end

/-! ## Many entries in a ledger -/

namespace Ledger

variable {l : Ledger κ ν} {items : List (κ × ν)} {e : κ × ν}

theorem enter_of_lookup_some {e' : κ × ν} (h : l.lookup (cmp e.1) = some e') :
    (l.enter cmp e).2 = l := by
  rw [enter, h]

theorem enter_of_lookup_none (h : l.lookup (cmp e.1) = none) : (l.enter cmp e).2 = e :: l := by
  rw [enter, h]

/-- Nothing is struck out, and what is new stands in front. -/
theorem suffix_enterAll (items : List (κ × ν)) (l : Ledger κ ν) : l <:+ l.enterAll cmp items := by
  induction items generalizing l with
  | nil => exact List.suffix_refl l
  | cons e items ih =>
      rw [enterAll_cons]
      cases hl : l.lookup (cmp e.1) with
      | some _ => rw [enter_of_lookup_some hl]; exact ih l
      | none => rw [enter_of_lookup_none hl]; exact (List.suffix_cons e l).trans (ih (e :: l))

/-- Items with other keys than each other and than the ledger are all taken. -/
theorem enterAll_of_distinct [Std.OrientedCmp cmp]
    (hitems : items.Pairwise fun e₁ e₂ => cmp e₁.1 e₂.1 ≠ .eq)
    (hnew : ∀ e ∈ items, l.lookup (cmp e.1) = none) :
    l.enterAll cmp items = items.reverse ++ l := by
  induction items generalizing l with
  | nil => rfl
  | cons e items ih =>
      obtain ⟨he, hitems⟩ := List.pairwise_cons.mp hitems
      obtain ⟨hnone, hnew⟩ := List.forall_mem_cons.mp hnew
      have hnew' : ∀ e' ∈ items, lookup (cmp e'.1) (e :: l) = none := by
        intro e' he'
        rw [lookup_cons_of_not_hits fun heq => he e' he' (Std.OrientedCmp.eq_symm heq)]
        exact hnew e' he'
      rw [enterAll_cons, enter_of_lookup_none hnone, ih hitems hnew']
      simp

theorem isSome_lookup_iff {q : Probe κ} : (lookup q l).isSome ↔ ∃ e ∈ l, q e.1 = .eq := by
  rw [lookup, List.find?_isSome]
  simp only [Probe.hits_iff]

variable [Std.TransCmp cmp]

/-- Keys that compare equal find the same. -/
theorem lookup_congr {k₁ k₂ : κ} (h : cmp k₁ k₂ = .eq) (l : Ledger κ ν) :
    lookup (cmp k₁) l = lookup (cmp k₂) l := by
  have hprobe : cmp k₁ = cmp k₂ := funext fun _ => Std.TransCmp.congr_left h
  rw [hprobe]

/-- What was there is found as before, and else the first item of the key. -/
theorem lookup_enterAll (k : κ) (items : List (κ × ν)) (l : Ledger κ ν) :
    lookup (cmp k) (l.enterAll cmp items) = (lookup (cmp k) l).or (lookup (cmp k) items) := by
  induction items generalizing l with
  | nil => exact Option.or_none.symm
  | cons e items ih =>
      rw [enterAll_cons, ih]
      by_cases hk : cmp k e.1 = .eq
      · -- The item has the key, so it counts unless the key was there, as it does when entered.
        cases hl : l.lookup (cmp e.1) with
        | some e' => rw [enter_of_lookup_some hl, lookup_congr hk, hl]; rfl
        | none =>
            rw [enter_of_lookup_none hl, lookup_cons_of_hits hk, lookup_cons_of_hits hk,
              lookup_congr hk l, hl]
            rfl
      · rw [lookup_cons_of_not_hits hk]
        cases hl : l.lookup (cmp e.1) with
        | some _ => rw [enter_of_lookup_some hl]
        | none => rw [enter_of_lookup_none hl, lookup_cons_of_not_hits hk]

/-- The entries in front are those of the new keys, each once up to the order. -/
theorem enumerates_added {added : List (κ × ν)} (hadded : l.enterAll cmp items = added ++ l)
    (hdistinct : (added ++ l).Pairwise fun e₁ e₂ => cmp e₁.1 e₂.1 ≠ .eq) :
    Enumerates cmp (fun k => l.lookup (cmp k) = none ∧ ∃ e ∈ items, cmp k e.1 = .eq)
      (added.map (·.1)) := by
  obtain ⟨hadd, -, hapart⟩ := List.pairwise_append.mp hdistinct
  refine ⟨List.pairwise_map.mpr hadd, ?_⟩
  intro k
  have hlookup : (lookup (cmp k) added).or (lookup (cmp k) l)
      = (lookup (cmp k) l).or (lookup (cmp k) items) := by
    rw [← lookup_enterAll k items l, hadded]
    exact List.find?_append.symm
  have hfront : (∃ k' ∈ added.map (·.1), cmp k k' = .eq) ↔ (lookup (cmp k) added).isSome := by
    rw [isSome_lookup_iff]
    simp
  rw [hfront, ← isSome_lookup_iff]
  constructor
  · rintro ⟨hnone, hsome⟩
    rw [hnone, Option.or_none, Option.none_or] at hlookup
    rwa [hlookup]
  · intro hsome
    have hnone : lookup (cmp k) l = none := by
      rw [lookup_eq_none]
      intro e he
      obtain ⟨e', he', heq'⟩ := isSome_lookup_iff.mp hsome
      rw [← Bool.not_eq_true, Probe.hits_iff]
      intro heq
      exact hapart e' he' e he (Std.TransCmp.eq_trans (Std.OrientedCmp.eq_symm heq') heq)
    rw [hnone, Option.or_none, Option.none_or] at hlookup
    exact ⟨hnone, hlookup ▸ hsome⟩

end Ledger

/-! ## Shapes -/

namespace Tree

variable {t t' : Tree κ ν}

/-- A tree without its entries. -/
def shape (t : Tree κ ν) : Tree Unit Unit := t.mapEntries (fun _ => ()) fun _ => ()

theorem size_shape (t : Tree κ ν) : t.shape.size = t.size := size_mapEntries _ _ t

/-- A tree is known by its shape and its entries in key order. -/
theorem eq_of_shape_eq (hshape : t.shape = t'.shape) (hentries : t.inorder = t'.inorder) :
    t = t' := by
  induction t generalizing t' with
  | empty =>
      cases t' with
      | empty => rfl
      | node => exact nomatch hshape
  | node l k v r ihl ihr =>
      cases t' with
      | empty => exact nomatch hshape
      | node l' k' v' r' =>
          obtain ⟨hl, -, -, hr⟩ := Tree.node.inj hshape
          -- Equal shapes have equal sizes, so both listings are cut at the same place.
          have hlength : l.inorder.length = l'.inorder.length := by
            rw [length_inorder, length_inorder, ← size_shape l, ← size_shape l']
            exact congrArg Tree.size hl
          obtain ⟨hleft, hrest⟩ := List.append_inj hentries hlength
          obtain ⟨hentry, hright⟩ := List.cons.inj hrest
          obtain ⟨rfl, rfl⟩ := Prod.mk.inj hentry
          rw [ihl hl hleft, ihr hr hright]

/-- The entry at the root stays there. -/
theorem foldl_enter_node (cmp : κ → κ → Ordering) (items : List (κ × ν)) (l : Tree κ ν) (k : κ)
    (v : ν) (r : Tree κ ν) :
    ∃ l' r', items.foldl (enter cmp) (node l k v r) = node l' k v r' := by
  induction items generalizing l r with
  | nil => exact ⟨l, r, rfl⟩
  | cons e items ih =>
      rw [List.foldl_cons]
      cases h : cmp e.1 k with
      | lt => rw [enter_left h]; exact ih ..
      | gt => rw [enter_right h]; exact ih ..
      | eq => rw [enter, insert_node_eq h]; exact ih ..

end Tree

namespace Map

variable {m m' : Map κ ν cmp} {l l' : Ledger κ ν} {items items' : List (κ × ν)}

/-! ## Extended maps and collected maps -/

/-- To insert the items one by one, whatever is answered, is to extend the map by them. -/
theorem Counted.map_run_insert (hm : m.Counted) (view : ι → Probe κ) (items : List (κ × ν)) :
    (m.run view (items.map fun e => .insert e.1 e.2)).map = (m.extend items).map := by
  induction items generalizing m with
  | nil => rfl
  | cons e items ih =>
      rw [hm.extend_cons]
      exact ih (hm.insert e.1 e.2)

/-- The first item is the entry at the root. -/
theorem root?_ofList (cmp : κ → κ → Ordering) (items : List (κ × ν)) :
    (ofList items : Outcome (Map κ ν cmp) _).map.root?.map (·.entry) = items.head? := by
  rw [root?, ofList, counted_empty.tree_extend]
  cases items with
  | nil => rfl
  | cons e items =>
      obtain ⟨l, r, htree⟩ := Tree.foldl_enter_node cmp items .empty e.1 e.2 .empty
      exact congrArg (fun t => t.root?.map (·.entry)) htree

variable [Std.TransCmp cmp]

theorem Represents.distinct (h : m.Represents l) :
    l.Pairwise fun e₁ e₂ => cmp e₁.1 e₂.1 ≠ .eq := by
  have hentries : m.entries.Pairwise fun e₁ e₂ => cmp e₁.1 e₂.1 ≠ .eq :=
    h.sound.pairwise_entries.imp fun hlt => by simp [hlt]
  exact h.perm.pairwise hentries fun hne heq => hne (Std.OrientedCmp.eq_symm heq)

theorem Represents.find?_eq (h : m.Represents l) {q : Probe κ} (hq : q.AsKey cmp) :
    m.find? q = l.lookup q := (h.lookup_eq hq).symm

/-- A look-up finds what was there, and else the first item of the key. -/
theorem Sound.find?_extend (hm : m.Sound) (items : List (κ × ν)) (k : κ) :
    (m.extend items).map.find? (cmp k)
      = (m.find? (cmp k)).or (Ledger.lookup (cmp k) items) := by
  have h := hm.represents_entries
  have hk : Probe.AsKey cmp (cmp k) := Probe.asKey_key k
  rw [(h.extend items).find?_eq hk, h.find?_eq hk, Ledger.lookup_enterAll]

/-- The size grows by the number of the keys that are new. -/
theorem Sound.size_extend (hm : m.Sound) (items : List (κ × ν)) :
    ∃ ks, Enumerates cmp (fun k => m.contains (cmp k) = false ∧ ∃ e ∈ items, cmp k e.1 = .eq) ks ∧
      (m.extend items).map.size = m.size + ks.length := by
  have h := hm.represents_entries
  have h' := h.extend items
  obtain ⟨added, hadded⟩ := Ledger.suffix_enterAll items m.entries
  rw [← hadded] at h'
  refine ⟨added.map (·.1), ?_, ?_⟩
  · have hks := Ledger.enumerates_added hadded.symm h'.distinct
    simpa only [h.contains_eq (Probe.asKey_key _), Option.isSome_eq_false_iff,
      Option.isNone_iff_eq_none] using hks
  · rw [h'.size_eq, h.size_eq, List.length_append, List.length_map, Nat.add_comm]

/-- Maps of the same entries list them in the same order. -/
theorem Represents.entries_eq_of_perm (h : m.Represents l) (h' : m'.Represents l')
    (hperm : l.Perm l') : m.entries = m'.entries := by
  have hl' : m.Represents l' := ⟨h.sound, h.perm.trans hperm⟩
  rw [hl'.entries_eq_sorted, h'.entries_eq_sorted]

/-- Items with different keys are all taken. -/
theorem represents_ofList (h : items.Pairwise fun e₁ e₂ => cmp e₁.1 e₂.1 ≠ .eq) :
    (ofList items : Outcome (Map κ ν cmp) _).map.Represents items := by
  have hempty : (empty : Map κ ν cmp).Represents [] := represents_empty
  have hall := hempty.extend items
  rw [Ledger.enterAll_of_distinct h fun _ _ => rfl, List.append_nil] at hall
  exact ⟨hall.sound, hall.perm.trans items.reverse_perm⟩

/-- Rearranged items give the same listing, and another shape as soon as another item is first. -/
theorem ofList_of_perm (h : items.Pairwise fun e₁ e₂ => cmp e₁.1 e₂.1 ≠ .eq)
    (hperm : items.Perm items') :
    let m : Map κ ν cmp := (ofList items).map
    let m' : Map κ ν cmp := (ofList items').map
    m'.entries = m.entries ∧ m'.size = m.size ∧
      (items'.head? ≠ items.head? → m'.tree.shape ≠ m.tree.shape) := by
  intro m m'
  have h' : items'.Pairwise fun e₁ e₂ => cmp e₁.1 e₂.1 ≠ .eq :=
    hperm.pairwise h fun hne heq => hne (Std.OrientedCmp.eq_symm heq)
  have hm : m.Represents items := represents_ofList h
  have hm' : m'.Represents items' := represents_ofList h'
  have hentries : m'.entries = m.entries := hm'.entries_eq_of_perm hm hperm.symm
  refine ⟨hentries, ?_, ?_⟩
  · rw [hm.size_eq, hm'.size_eq, hperm.length_eq]
  · intro hfirst hshape
    rw [entries_eq, entries_eq] at hentries
    have htree : m'.tree = m.tree := Tree.eq_of_shape_eq hshape hentries
    apply hfirst
    rw [← root?_ofList cmp items', ← root?_ofList cmp items]
    exact congrArg (fun t => t.root?.map (·.entry)) htree

/-- A map extended by items finds for every key the entry that it had, and else the first item of
the key, and its size has grown by the number of the new keys.  A map collected from items of which
no two keys compare equal lists them in one order, however they were arranged; another first item
makes another shape. -/
theorem extend_keeps_first {view : ι → Probe κ} (hm : Reachable view m)
    (items : List (κ × ν)) :
    let m' := (m.extend items).map
    let IsNew : κ → Prop := fun k => m.contains (cmp k) = false ∧ ∃ e ∈ items, cmp k e.1 = .eq
    let collected : List (κ × ν) → Map κ ν cmp := fun items => (ofList items).map
    (m.extend items).reply = .ok () ∧
    (∀ k, m'.find? (cmp k) = (m.find? (cmp k)).or (Ledger.lookup (cmp k) items)) ∧
    (∃ ks, Enumerates cmp IsNew ks) ∧
    (∀ ks, Enumerates cmp IsNew ks → m'.size = m.size + ks.length) ∧
    ((empty : Map κ ν cmp).run view (items.map fun e => .insert e.1 e.2)).map = collected items ∧
    (items.Pairwise (fun e₁ e₂ => cmp e₁.1 e₂.1 ≠ .eq) → ∀ items', items.Perm items' →
      (collected items').entries = (collected items).entries ∧
      (collected items').size = (collected items).size ∧
      (items'.head? ≠ items.head? →
        (collected items').tree.shape ≠ (collected items).tree.shape)) := by
  intro m' IsNew collected
  obtain ⟨ks, hks, hsize⟩ := hm.sound.size_extend items
  refine ⟨(hm.counted.effect_extend view items).1, hm.sound.find?_extend items, ⟨ks, hks⟩, ?_,
    counted_empty.map_run_insert view items, ?_⟩
  · intro ks' hks'
    rw [hsize, hks.length_eq hks']
  · intro h items' hperm
    exact ofList_of_perm h hperm

/-- The items of 2 and the second item of 6 are passed over, and 6 and 5 are new.  Three items of
other keys, collected in the order of the keys, are a chain; from the middle they are not. -/
theorem extend_keeps_first_repeated :
    let m : Map Int String compare :=
      (empty.run compare [.insert 4 "a", .insert 2 "b", .insert 8 "c", .delete 4]).map
    let items : List (Int × String) := [(2, "x"), (6, "y"), (5, "z"), (6, "w")]
    let m' := (m.extend items).map
    let rising : List (Int × String) := [(1, "a"), (2, "b"), (3, "c")]
    let middleFirst : List (Int × String) := [(2, "b"), (1, "a"), (3, "c")]
    let collected : List (Int × String) → Map Int String compare := fun items => (ofList items).map
    Std.TransCmp (compare : Int → Int → Ordering) ∧ Reachable compare m ∧
    m'.find? (compare 2) = some (2, "b") ∧ m'.find? (compare 6) = some (6, "y") ∧
    m'.find? (compare 7) = none ∧
    Enumerates compare
      (fun k => m.contains (compare k) = false ∧ ∃ e ∈ items, compare k e.1 = .eq) [6, 5] ∧
    m'.size = m.size + 2 ∧
    rising.Pairwise (fun e₁ e₂ => compare e₁.1 e₂.1 ≠ .eq) ∧ rising.Perm middleFirst ∧
    (collected middleFirst).entries = (collected rising).entries ∧
    (collected middleFirst).tree.shape ≠ (collected rising).tree.shape := by
  intro m items m' rising middleFirst collected
  have hm : Reachable compare m := ⟨_, rfl⟩
  obtain ⟨-, hfind, -, hsize, -⟩ := extend_keeps_first hm items
  have hnew : Enumerates compare
      (fun k => m.contains (compare k) = false ∧ ∃ e ∈ items, compare k e.1 = .eq) [6, 5] := by
    refine ⟨by decide, fun k => ?_⟩
    simp only [Std.compare_eq_iff_eq]
    constructor
    · rintro ⟨hnone, e, he, rfl⟩
      revert e
      decide +kernel
    · intro hk
      obtain rfl | rfl : k = 6 ∨ k = 5 := by simpa using hk
      · exact ⟨by decide +kernel, (6, "y"), by decide, rfl⟩
      · exact ⟨by decide +kernel, (5, "z"), by decide, rfl⟩
  have hapart : rising.Pairwise fun e₁ e₂ => compare e₁.1 e₂.1 ≠ .eq := by decide
  have hperm : rising.Perm middleFirst := by decide
  obtain ⟨-, -, -, -, -, hrearranged⟩ := extend_keeps_first hm rising
  obtain ⟨hentries, -, hshape⟩ := hrearranged hapart middleFirst hperm
  refine ⟨inferInstance, hm, ?_, ?_, ?_, hnew, hsize _ hnew, hapart, hperm, hentries,
    hshape (by decide)⟩
  · rw [hfind]
    decide +kernel
  · rw [hfind]
    decide +kernel
  · rw [hfind]
    decide +kernel

end Map

end SearchTree
