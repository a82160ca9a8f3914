/-
# `SearchTree.Proofs.Depth` — how far the entries lie below the root

An entry at a place lies as many steps below the root as the place has sides, and the
tree is higher than every such number (`height_le_iff`).  What a change does to the
depths is told by the places from which the entries come:

    insertion     every old entry from its own place; the new one is in a slot, and so
                  not deeper than the tree was high
    deletion      every entry from its own place, or from one that is a step deeper
                  (`Lifted`); but the successor, which comes to the place of the entry
                  that is taken out, from wherever it was (`Refilled.lifted`)

No order is used up to here, and it does not matter by which query the entry was chosen.
In a tree in search order a key has one place only, so an entry has one depth, and
`depth?` finds it.
-/
import SearchTree.Proofs.NewLeaf
import SearchTree.Proofs.Parentage
import SearchTree.Proofs.Reshape

namespace SearchTree

variable {κ ι ν : Type} {cmp : κ → κ → Ordering}

namespace Tree

/-! ## The entry at a place -/

/-- The key and the value at a place. -/
def entryAt? (p : Path) (t : Tree κ ν) : Option (κ × ν) := (t.nodeAt? p).map Node.entry

theorem entryAt?_of_nodeAt? {t : Tree κ ν} {p : Path} {n : Node κ ν} (h : t.nodeAt? p = some n) :
    t.entryAt? p = some n.entry := by
  rw [entryAt?, h, Option.map_some]

@[simp] theorem entryAt?_empty (p : Path) : (empty : Tree κ ν).entryAt? p = none := by
  simp [entryAt?]

theorem mem_inorder_iff {t : Tree κ ν} {e : κ × ν} :
    e ∈ t.inorder ↔ ∃ p, t.entryAt? p = some e := by
  simp only [entryAt?, Option.map_eq_some_iff]
  constructor
  · exact exists_nodeAt?_of_mem_inorder
  · rintro ⟨p, n, hn, rfl⟩
    exact mem_inorder_of_nodeAt? hn

/-- The entries of the subtree at a place, seen from the root. -/
theorem entryAt?_append {t : Tree κ ν} {p : Path} {n : Node κ ν} (h : t.nodeAt? p = some n)
    (below : Path) : t.entryAt? (p ++ below) = n.toTree.entryAt? below :=
  congrArg _ (nodeAt?_append (nodeAt?_eq_some_iff.mp h) below)

/-- After a write at a place, an entry is in what was written or was there before. -/
theorem entryAt?_of_replaceAt {t u : Tree κ ν} {p p' : Path} {n : Node κ ν} {e : κ × ν}
    (hn : t.nodeAt? p = some n) (he : (t.replaceAt p u).entryAt? p' = some e) :
    (∃ below, p' = p ++ below ∧ u.entryAt? below = some e) ∨ t.entryAt? p' = some e := by
  by_cases hbelow : p <+: p'
  · left
    obtain ⟨below, rfl⟩ := hbelow
    refine ⟨below, rfl, ?_⟩
    rwa [entryAt?, nodeAt?_append (subtree?_replaceAt_of_nodeAt? hn u)] at he
  · right
    rwa [entryAt?, nodeAt?_replaceAt_of_not_prefix hbelow] at he

/-! ## The height and the places -/

theorem length_le_height {t u : Tree κ ν} {p : Path} (h : t.subtree? p = some u) :
    p.length ≤ t.height := by
  induction p generalizing t with
  | nil => exact Nat.zero_le _
  | cons d p ih =>
      cases t with
      | empty => simp at h
      | node l k v r =>
          rw [List.length_cons, height]
          cases d with
          | left =>
              have hl := ih (t := l) h
              omega
          | right =>
              have hr := ih (t := r) h
              omega

/-- A node has slots below it, so the tree is higher than the node is deep. -/
theorem length_lt_height {t : Tree κ ν} {p : Path} {e : κ × ν} (h : t.entryAt? p = some e) :
    p.length < t.height := by
  obtain ⟨n, hn, -⟩ := Option.map_eq_some_iff.mp h
  have hslot : t.subtree? (p ++ [.left]) = some n.left := by
    rw [subtree?_append, nodeAt?_eq_some_iff.mp hn]
    exact subtree?_nil n.left
  have hle := length_le_height hslot
  rwa [List.length_append, List.length_singleton] at hle

/-- The height is the least number above all depths. -/
theorem height_le_iff {t : Tree κ ν} {h : Nat} :
    t.height ≤ h ↔ ∀ p e, t.entryAt? p = some e → p.length < h := by
  constructor
  · intro hle p e he
    exact Nat.lt_of_lt_of_le (length_lt_height he) hle
  · intro hall
    induction t generalizing h with
    | empty => exact Nat.zero_le h
    | node l k v r ihl ihr =>
        obtain ⟨h, rfl⟩ : ∃ h', h = h' + 1 :=
          Nat.exists_eq_succ_of_ne_zero (Nat.ne_of_gt (hall [] (k, v) rfl))
        have hl : l.height ≤ h := by
          apply ihl
          intro p e he
          exact Nat.lt_of_succ_lt_succ (hall (.left :: p) e he)
        have hr : r.height ≤ h := by
          apply ihr
          intro p e he
          exact Nat.lt_of_succ_lt_succ (hall (.right :: p) e he)
        exact Nat.succ_le_succ (Nat.max_le.mpr ⟨hl, hr⟩)

/-! ## What a deletion does to the depths -/

/-- Every entry of the second tree is in the first, at the same depth or one step deeper. -/
def Lifted (t t' : Tree κ ν) : Prop :=
  ∀ p' e, t'.entryAt? p' = some e →
    ∃ p, t.entryAt? p = some e ∧ p'.length ≤ p.length ∧ p.length ≤ p'.length + 1

theorem lifted_left (n : Node κ ν) : Lifted n.toTree n.left :=
  fun p' _ he => ⟨.left :: p', he, Nat.le_succ _, Nat.le_refl _⟩

theorem lifted_right (n : Node κ ν) : Lifted n.toTree n.right :=
  fun p' _ he => ⟨.right :: p', he, Nat.le_succ _, Nat.le_refl _⟩

/-- The subtree at a place may be lifted alone. -/
theorem Lifted.replaceAt {t u : Tree κ ν} {p : Path} {n : Node κ ν} (h : Lifted n.toTree u)
    (hn : t.nodeAt? p = some n) : Lifted t (t.replaceAt p u) := by
  intro p' e he
  rcases entryAt?_of_replaceAt hn he with ⟨below, rfl, hbelow⟩ | he
  · obtain ⟨p₀, he₀, hle, hle'⟩ := h below e hbelow
    refine ⟨p ++ p₀, (entryAt?_append hn p₀).trans he₀, ?_, ?_⟩
    · simpa using hle
    · simp only [List.length_append]
      omega
  · exact ⟨p', he, Nat.le_refl _, Nat.le_succ _⟩

/-- The node at the end of the left spine has the first entry. -/
theorem inorder_of_leftmost {t : Tree κ ν} {s : Node κ ν} {d : Nat}
    (h : t.nodeAt? (List.replicate d .left) = some s) (hs : s.left = .empty) :
    ∃ later, t.inorder = s.entry :: later := by
  induction d generalizing t with
  | zero =>
      rw [List.replicate_zero, nodeAt?_nil, root?_eq_some_iff] at h
      refine ⟨s.right.inorder, ?_⟩
      rw [h, Node.toTree, inorder, hs]
      rfl
  | succ d ih =>
      cases t with
      | empty => simp at h
      | node l k v r =>
          obtain ⟨later, hlater⟩ := ih (t := l) h
          exact ⟨_, by rw [inorder, hlater]; rfl⟩

end Tree

/-- What comes to the place of a node: each entry stays at its depth or is lifted by one step.  Only
the successor, which comes to the top, may have been deeper. -/
theorem Refilled.lifted {n : Node κ ν} {rest : Tree κ ν} (h : Refilled n rest) {p' : Path}
    {e : κ × ν} (he : rest.entryAt? p' = some e) :
    ∃ p, n.toTree.entryAt? p = some e ∧ p'.length ≤ p.length ∧
      (p.length ≤ p'.length + 1 ∨ p' = [] ∧ ∃ later, n.right.inorder = e :: later) := by
  cases h with
  | leaf _ _ => simp at he
  | leftOnly _ _ =>
      obtain ⟨p, hp, hle, hle'⟩ := Tree.lifted_left n p' e he
      exact ⟨p, hp, hle, .inl hle'⟩
  | rightOnly _ _ =>
      obtain ⟨p, hp, hle, hle'⟩ := Tree.lifted_right n p' e he
      exact ⟨p, hp, hle, .inl hle'⟩
  | @successor s d _ hs hleft =>
      cases p' with
      | nil =>
          obtain rfl : s.entry = e := Option.some.inj he
          exact ⟨.right :: List.replicate d .left, Tree.entryAt?_of_nodeAt? hs, Nat.zero_le _,
            .inr ⟨rfl, Tree.inorder_of_leftmost hs hleft⟩⟩
      | cons side p' =>
          cases side with
          | left => exact ⟨.left :: p', he, Nat.le_refl _, .inl (Nat.le_succ _)⟩
          | right =>
              -- On the right the leftmost node gives way to its own right subtree.
              obtain ⟨p, hp, hle, hle'⟩ := (Tree.lifted_right s).replaceAt hs p' e he
              exact ⟨.right :: p, hp, Nat.succ_le_succ hle, .inl (Nat.succ_le_succ hle')⟩

namespace Tree

/-- A deletion at a place, seen from the root. -/
theorem entryAt?_refilled {t rest : Tree κ ν} {p p' : Path} {n : Node κ ν} {e : κ × ν}
    (hn : t.nodeAt? p = some n) (h : Refilled n rest)
    (he : (t.replaceAt p rest).entryAt? p' = some e) :
    ∃ p₀, t.entryAt? p₀ = some e ∧ p'.length ≤ p₀.length ∧
      (p₀.length ≤ p'.length + 1 ∨ p' = p ∧ ∃ later, n.right.inorder = e :: later) := by
  rcases entryAt?_of_replaceAt hn he with ⟨below, rfl, hbelow⟩ | he
  · obtain ⟨p₀, he₀, hle, hnear⟩ := h.lifted hbelow
    refine ⟨p ++ p₀, (entryAt?_append hn p₀).trans he₀, ?_, ?_⟩
    · simpa using hle
    · rcases hnear with hle' | ⟨rfl, hlater⟩
      · left
        simp only [List.length_append]
        omega
      · exact .inr ⟨List.append_nil p, hlater⟩
  · exact ⟨p', he, Nat.le_refl _, .inl (Nat.le_succ _)⟩

/-! ## The depth of a key -/

/-- How far below the root the first match lies, if nodes come before their subtrees and the left
side comes first. -/
def depth? (q : Probe κ) : Tree κ ν → Option Nat
  | .empty => none
  | .node l k _ r => if q k = .eq then some 0 else ((l.depth? q).or (r.depth? q)).map (· + 1)

theorem entryAt?_of_depth? {q : Probe κ} {t : Tree κ ν} {d : Nat} (h : t.depth? q = some d) :
    ∃ p e, t.entryAt? p = some e ∧ q e.1 = .eq ∧ p.length = d := by
  induction t generalizing d with
  | empty => exact nomatch h
  | node l k v r ihl ihr =>
      rw [depth?] at h
      split at h
      · next hk =>
          obtain rfl := Option.some.inj h
          exact ⟨[], (k, v), rfl, hk, rfl⟩
      · obtain ⟨d, hd, rfl⟩ := Option.map_eq_some_iff.mp h
        rcases Option.or_eq_some_iff.mp hd with hd | ⟨-, hd⟩
        · obtain ⟨p, e, he, hm, rfl⟩ := ihl hd
          exact ⟨.left :: p, e, he, hm, rfl⟩
        · obtain ⟨p, e, he, hm, rfl⟩ := ihr hd
          exact ⟨.right :: p, e, he, hm, rfl⟩

theorem isSome_depth? {q : Probe κ} {t : Tree κ ν} {p : Path} {e : κ × ν}
    (h : t.entryAt? p = some e) (hm : q e.1 = .eq) : (t.depth? q).isSome = true := by
  induction t generalizing p with
  | empty => simp at h
  | node l k v r ihl ihr =>
      rw [depth?]
      split
      · rfl
      · next hk =>
          rw [Option.isSome_map, Option.isSome_or, Bool.or_eq_true]
          cases p with
          | nil =>
              obtain rfl : (k, v) = e := Option.some.inj h
              exact absurd hm hk
          | cons d p =>
              cases d with
              | left => exact .inl (ihl h)
              | right => exact .inr (ihr h)

/-- In a tree in search order the key of an entry is at no other place. -/
theorem Ordered.depth?_eq [Std.TransCmp cmp] {t : Tree κ ν} (ho : t.Ordered cmp) {p : Path}
    {e : κ × ν} (h : t.entryAt? p = some e) : t.depth? (cmp e.1) = some p.length := by
  have hreach : ∀ {p' e'}, t.entryAt? p' = some e' → cmp e.1 e'.1 = .eq →
      t.reach (cmp e.1) = p' := by
    intro p' e' he' hm
    obtain ⟨n, hn, rfl⟩ := Option.map_eq_some_iff.mp he'
    exact ho.reach_eq_of_match (Probe.asKey_key e.1) hn hm
  have hself : cmp e.1 e.1 = .eq := Std.ReflCmp.compare_self
  obtain ⟨d, hd⟩ := Option.isSome_iff_exists.mp (isSome_depth? h hself)
  obtain ⟨p', e', he', hm, rfl⟩ := entryAt?_of_depth? hd
  rw [hd, ← hreach h hself, hreach he' hm]

end Tree

namespace Map

variable {m : Map κ ν cmp}

/-! ## Both changes in maps -/

/-- An insertion leaves every entry at its place, and the new one is not below the old height. -/
theorem entryAt?_insert {k : κ} {v : ν} (h : (m.insert k v).reply = .ok ()) :
    (∀ p e, m.tree.entryAt? p = some e → (m.insert k v).map.tree.entryAt? p = some e) ∧
      ∀ p e, (m.insert k v).map.tree.entryAt? p = some e → p.length < m.tree.height + 1 := by
  obtain ⟨hc, hm'⟩ := insert_of_ok h
  have hfree := Tree.subtree?_reach_of_not_contains hc
  have hkept : ∀ p, p ≠ m.tree.reach (cmp k) →
      (m.insert k v).map.tree.entryAt? p = m.tree.entryAt? p := by
    intro p hp
    rw [hm']
    exact Tree.nodeAt?_hang_leaf hfree k v hp
  constructor
  · intro p e he
    refine (hkept p ?_).trans he
    rintro rfl
    rw [Tree.entryAt?, Tree.nodeAt?_below_free hfree (List.prefix_refl _)] at he
    exact nomatch he
  · intro p e he
    by_cases hp : p = m.tree.reach (cmp k)
    · subst hp
      exact Nat.lt_succ_of_le (Tree.length_le_height hfree)
    · rw [hkept p hp] at he
      exact Nat.lt_succ_of_lt (Tree.length_lt_height he)

/-- A deletion leaves the other entries in their order.  Each comes from the same place, or from one
that is a step deeper; but what comes to the place itself may be the next entry of the listing, from
any depth. -/
theorem Counted.entryAt?_delete (hm : m.Counted) {q : Probe κ} {v : ν}
    (h : (m.delete q).reply = .ok v) :
    ∃ p n a b, m.nodeAt? p = some n ∧ q n.key = .eq ∧ n.value = v ∧
      m.entries = a ++ n.entry :: b ∧ (m.delete q).map.entries = a ++ b ∧
      ∀ p' e, (m.delete q).map.tree.entryAt? p' = some e →
        ∃ p₀, m.tree.entryAt? p₀ = some e ∧ p'.length ≤ p₀.length ∧
          (p₀.length ≤ p'.length + 1 ∨ p' = p ∧ b.head? = some e) := by
  obtain ⟨p, n, kind, -, hn, hq, -, -, hd⟩ := hm.delete_of_contains (contains_of_delete_ok h)
  obtain ⟨a, b, ht, hs⟩ := Tree.inorder_around_node hn
  rw [hd] at h ⊢
  refine ⟨p, n, a ++ n.left.inorder, n.right.inorder ++ b, hn, hq, Except.ok.inj h, ?_, ?_, ?_⟩
  · rw [entries_eq, ht]
  · rw [entries_eq, hs, Tree.inorder_merged]
    simp only [List.append_assoc]
  · intro p' e he
    obtain ⟨p₀, he₀, hle, hnear⟩ := Tree.entryAt?_refilled hn (Tree.refilled_merged n) he
    refine ⟨p₀, he₀, hle, ?_⟩
    rcases hnear with hle' | ⟨rfl, later, hlater⟩
    · exact .inl hle'
    · exact .inr ⟨rfl, by rw [hlater]; rfl⟩

/-- In order, each entry that a map lists lies at its depth. -/
theorem Sound.exists_depth? [Std.TransCmp cmp] (hm : m.Sound) {e : κ × ν} (he : e ∈ m.entries) :
    ∃ p, m.tree.entryAt? p = some e ∧ m.tree.depth? (cmp e.1) = some p.length := by
  rw [entries_eq] at he
  obtain ⟨p, hp⟩ := Tree.mem_inorder_iff.mp he
  exact ⟨p, hp, hm.ordered.depth?_eq hp⟩

/-- No change puts an entry deeper that was there before.  After an insertion every old entry lies
where it lay, and the tree is higher by one at most.  After a deletion, by any query, every entry
that is left lies as deep as before or less deep.  If by more than one step, then it is the next
after the one that was taken out, and it has come to its place.  So the tree is not higher than
before. -/
theorem no_entry_sinks [Std.TransCmp cmp] {view : ι → Probe κ} (hm : Reachable view m) :
    (∀ k v, (m.insert k v).reply = .ok () →
      let m' := (m.insert k v).map
      (∀ e ∈ m.entries, e ∈ m'.entries ∧
        ∃ d, m.tree.depth? (cmp e.1) = some d ∧ m'.tree.depth? (cmp e.1) = some d) ∧
      m'.tree.height ≤ m.tree.height + 1) ∧
    ∀ (q : Probe κ) v, (m.delete q).reply = .ok v →
      let m' := (m.delete q).map
      ∃ p n a b, m.nodeAt? p = some n ∧ q n.key = .eq ∧ n.value = v ∧
        m.entries = a ++ n.entry :: b ∧ m'.entries = a ++ b ∧
        (∀ e ∈ m'.entries, ∃ d d', m.tree.depth? (cmp e.1) = some d ∧
          m'.tree.depth? (cmp e.1) = some d' ∧ d' ≤ d ∧
          (d' + 1 < d → m'.tree.entryAt? p = some e ∧ b.head? = some e)) ∧
        m'.tree.height ≤ m.tree.height := by
  constructor
  · intro k v h m'
    obtain ⟨hkept, hheight⟩ := entryAt?_insert h
    refine ⟨?_, Tree.height_le_iff.mpr hheight⟩
    intro e he
    obtain ⟨p, hp, hdepth⟩ := hm.sound.exists_depth? he
    have hp' := hkept p e hp
    refine ⟨?_, p.length, hdepth, (hm.sound.insert k v).ordered.depth?_eq hp'⟩
    rw [entries_eq]
    exact Tree.mem_inorder_iff.mpr ⟨p, hp'⟩
  · intro q v h m'
    obtain ⟨p, n, a, b, hn, hq, hv, ha, hb, hfrom⟩ := hm.counted.entryAt?_delete h
    refine ⟨p, n, a, b, hn, hq, hv, ha, hb, ?_, ?_⟩
    · intro e he
      obtain ⟨p', hp', hdepth'⟩ := (hm.sound.delete q).exists_depth? he
      obtain ⟨p₀, hp₀, hle, hnear⟩ := hfrom p' e hp'
      refine ⟨p₀.length, p'.length, hm.sound.ordered.depth?_eq hp₀, hdepth', hle, ?_⟩
      intro hlt
      rcases hnear with hle' | ⟨rfl, hnext⟩
      · exact absurd hlt (Nat.not_lt.mpr hle')
      · exact ⟨hp', hnext⟩
    · rw [Tree.height_le_iff]
      intro p' e he
      obtain ⟨p₀, hp₀, hle, -⟩ := hfrom p' e he
      exact Nat.lt_of_le_of_lt hle (Tree.length_lt_height hp₀)

/-- Of two numbers at the same distance from zero the left one goes.  The next after it, -8, comes
three steps up to its place, and -6, which was under -8, one step. -/
theorem no_entry_sinks_byMagnitude :
    let m : Map Int String compare :=
      (empty.run Probe.byMagnitude [.insert 0 "a", .insert 10 "b", .insert (-10) "c",
        .insert (-20) "d", .insert (-1) "e", .insert (-4) "f", .insert (-8) "g",
        .insert (-6) "h"]).map
    let q := Probe.byMagnitude 10
    let m₁ := (m.insert (-7) "i").map
    let m₂ := (m.delete q).map
    Std.TransCmp (compare : Int → Int → Ordering) ∧ Reachable Probe.byMagnitude m ∧
    (m.insert (-7) "i").reply = .ok () ∧ (m.delete q).reply = .ok "c" ∧
    (∀ e ∈ m.entries, ∃ d, m.tree.depth? (compare e.1) = some d ∧
      m₁.tree.depth? (compare e.1) = some d) ∧
    (∀ e ∈ m₂.entries, ∃ d d', m.tree.depth? (compare e.1) = some d ∧
      m₂.tree.depth? (compare e.1) = some d' ∧ d' ≤ d) ∧
    m.tree.depth? (compare (-8)) = some 4 ∧ m₂.tree.depth? (compare (-8)) = some 1 ∧
    m.tree.depth? (compare (-6)) = some 5 ∧ m₂.tree.depth? (compare (-6)) = some 4 ∧
    m.tree.height = 6 ∧ m₁.tree.height = 7 ∧ m₂.tree.height = 5 := by
  intro m q m₁ m₂
  have hm : Reachable Probe.byMagnitude m := ⟨_, rfl⟩
  have hinsert : (m.insert (-7) "i").reply = .ok () := rfl
  have hdelete : (m.delete q).reply = .ok "c" := by
    rw [delete, Tree.delete, Tree.target_eq]
    rfl
  obtain ⟨hgrow, hshrink⟩ := no_entry_sinks hm
  obtain ⟨_, _, _, _, -, -, -, -, -, hfrom, -⟩ := hshrink q "c" hdelete
  refine ⟨inferInstance, hm, hinsert, hdelete, ?_, ?_, by decide +kernel⟩
  · intro e he
    exact ((hgrow (-7) "i" hinsert).1 e he).2
  · intro e he
    obtain ⟨d, d', hd, hd', hle, -⟩ := hfrom e he
    exact ⟨d, d', hd, hd', hle⟩

end Map

end SearchTree
