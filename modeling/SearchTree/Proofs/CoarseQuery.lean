/-
# `SearchTree.Proofs.CoarseQuery` — deleting by a query that matches many keys

In a tree in search order, let a query go along the keys that are stored
(`Probe.MonotoneOn`), though it may not tell all of them apart.  Its matches are
then next to each other in the listing, and the node where the descent ends lies
above all of them:

    reach_isPrefix   every match is at or below the place where the descent ends
    target_eq_reach  the walk over the parents, which knows nothing of the order,
                     finds that same place

Both are inductions on the tree, and both rest on one remark: where the query is
sent to one side, the other side holds no match (`not_match_right`,
`not_match_left`).  A deletion keeps all of this, so it can be repeated until no
match is left.
-/
import SearchTree.Proofs.Order

namespace SearchTree

variable {κ ν : Type} {cmp : κ → κ → Ordering}

/-- A query that goes along the order of the keys of a tree. -/
def Probe.MonotoneOn (cmp : κ → κ → Ordering) (q : Probe κ) (t : Tree κ ν) : Prop :=
  ∀ e₁ ∈ t.inorder, ∀ e₂ ∈ t.inorder, cmp e₁.1 e₂.1 = .lt →
    (q e₁.1 = .lt → q e₂.1 = .lt) ∧ (q e₂.1 = .gt → q e₁.1 = .gt)

/-- Whether a query matches an entry. -/
def Probe.hits (q : Probe κ) (e : κ × ν) : Bool := (q e.1).isEq

@[simp] theorem Probe.hits_iff {q : Probe κ} {e : κ × ν} : q.hits e = true ↔ q e.1 = .eq :=
  Ordering.isEq_iff_eq_eq

theorem Probe.Monotone.monotoneOn {q : Probe κ} (h : q.Monotone cmp) (t : Tree κ ν) :
    q.MonotoneOn cmp t :=
  fun _ _ _ _ hlt => h _ _ hlt

/-- A query that looks at the keys through a function goes along their order if the function
does. -/
theorem Probe.monotone_along {β : Type} [Ord β] [Std.TransOrd β] {f : κ → β}
    (hf : ∀ k₁ k₂, cmp k₁ k₂ = .lt → (compare (f k₁) (f k₂)).isLE = true) (key : κ) :
    (Probe.along f key).Monotone cmp := by
  intro k₁ k₂ hlt
  have hle : (compare (f k₁) (f k₂)).isLE = true := hf k₁ k₂ hlt
  have hge : (compare (f k₂) (f k₁)).isGE = true := Std.OrientedCmp.isGE_of_isLE hle
  constructor
  · intro h
    show compare (f key) (f k₂) = .lt
    exact Std.TransCmp.lt_of_lt_of_isLE h hle
  · intro h
    show compare (f key) (f k₁) = .gt
    exact Std.TransCmp.gt_of_gt_of_isGE h hge

theorem Probe.monotone_byTens (key : Int) : (Probe.byTens key).Monotone compare := by
  apply Probe.monotone_along
  intro k₁ k₂ hlt
  rw [Int.compare_eq_lt] at hlt
  rw [Int.isLE_compare, Int.fdiv_eq_ediv_of_nonneg _ (by decide),
    Int.fdiv_eq_ediv_of_nonneg _ (by decide)]
  omega

theorem Probe.MonotoneOn.of_subset {q : Probe κ} {t t' : Tree κ ν} (h : q.MonotoneOn cmp t)
    (hsub : t'.inorder ⊆ t.inorder) : q.MonotoneOn cmp t' :=
  fun e₁ h₁ e₂ h₂ => h e₁ (hsub h₁) e₂ (hsub h₂)

namespace Probe.MonotoneOn

variable {q : Probe κ} {l r : Tree κ ν} {k : κ} {v : ν}

theorem left (h : q.MonotoneOn cmp (.node l k v r)) : q.MonotoneOn cmp l :=
  h.of_subset fun _ he => List.mem_append_left _ he

theorem right (h : q.MonotoneOn cmp (.node l k v r)) : q.MonotoneOn cmp r :=
  h.of_subset fun _ he => List.mem_append_right _ (List.mem_cons_of_mem _ he)

/-- A query that lies before the root matches nothing on the right. -/
theorem not_match_right (h : q.MonotoneOn cmp (.node l k v r))
    (ho : (Tree.node l k v r).Ordered cmp) (hq : q k = .lt) {p : Path} {n : Node κ ν}
    (hn : r.nodeAt? p = some n) : q n.key ≠ .eq := by
  intro heq
  have he : n.entry ∈ r.inorder := Tree.mem_inorder_of_nodeAt? hn
  have hlt : cmp k n.key = .lt := Tree.forall_iff_mem_inorder.mp ho.2.2.1 n.entry he
  have hroot : (k, v) ∈ (Tree.node l k v r).inorder :=
    List.mem_append_right _ (List.mem_cons_self ..)
  have hn' : n.entry ∈ (Tree.node l k v r).inorder :=
    List.mem_append_right _ (List.mem_cons_of_mem _ he)
  exact nomatch heq.symm.trans ((h _ hroot _ hn' hlt).1 hq)

/-- A query that lies after the root matches nothing on the left. -/
theorem not_match_left (h : q.MonotoneOn cmp (.node l k v r))
    (ho : (Tree.node l k v r).Ordered cmp) (hq : q k = .gt) {p : Path} {n : Node κ ν}
    (hn : l.nodeAt? p = some n) : q n.key ≠ .eq := by
  intro heq
  have he : n.entry ∈ l.inorder := Tree.mem_inorder_of_nodeAt? hn
  have hlt : cmp n.key k = .lt := Tree.forall_iff_mem_inorder.mp ho.2.1 n.entry he
  have hroot : (k, v) ∈ (Tree.node l k v r).inorder :=
    List.mem_append_right _ (List.mem_cons_self ..)
  have hn' : n.entry ∈ (Tree.node l k v r).inorder := List.mem_append_left _ he
  exact nomatch heq.symm.trans ((h _ hn' _ hroot hlt).2 hq)

end Probe.MonotoneOn

namespace Tree

variable {q : Probe κ}

/-! ## The descent ends above all matches -/

/-- If there is a match at some place, the descent ends at a match, and that place is at or below
it. -/
theorem Ordered.reach_isPrefix {t : Tree κ ν} (ho : t.Ordered cmp) (hq : q.MonotoneOn cmp t)
    {p : Path} {n : Node κ ν} (hn : t.nodeAt? p = some n) (hm : q n.key = .eq) :
    t.contains q = true ∧ t.reach q <+: p := by
  induction t generalizing p with
  | empty => simp at hn
  | node l k v r ihl ihr =>
      cases hk : q k with
      | eq => exact ⟨by simp [contains, search, hk], by simp [reach, hk]⟩
      | lt =>
          cases p with
          | nil =>
              obtain rfl : Node.mk k v l r = n := by simpa [root?] using hn
              simp [hk] at hm
          | cons d p =>
              cases d with
              | left =>
                  obtain ⟨hc, hp⟩ := ihl ho.1 hq.left hn
                  refine ⟨by simpa [contains, search, hk] using hc, ?_⟩
                  simp only [reach, hk]
                  exact (List.prefix_cons_inj _).mpr hp
              | right => exact absurd hm (hq.not_match_right ho hk hn)
      | gt =>
          cases p with
          | nil =>
              obtain rfl : Node.mk k v l r = n := by simpa [root?] using hn
              simp [hk] at hm
          | cons d p =>
              cases d with
              | left => exact absurd hm (hq.not_match_left ho hk hn)
              | right =>
                  obtain ⟨hc, hp⟩ := ihr ho.2.2.2 hq.right hn
                  refine ⟨by simpa [contains, search, hk] using hc, ?_⟩
                  simp only [reach, hk]
                  exact (List.prefix_cons_inj _).mpr hp

theorem Ordered.contains_iff {t : Tree κ ν} (ho : t.Ordered cmp) (hq : q.MonotoneOn cmp t) :
    t.contains q = true ↔ ∃ e ∈ t.inorder, q e.1 = .eq := by
  constructor
  · intro h
    obtain ⟨n, hn⟩ := Option.isSome_iff_exists.mp h
    exact ⟨n.entry, mem_inorder_of_search hn, match_of_search hn⟩
  · rintro ⟨e, he, hm⟩
    obtain ⟨p, n, hn, rfl⟩ := exists_nodeAt?_of_mem_inorder he
    exact (ho.reach_isPrefix hq hn hm).1

/-! ## The walk finds the place where the descent ends -/

theorem reach_of_rootMatches {t : Tree κ ν} (h : t.rootMatches q = true) : t.reach q = [] := by
  obtain ⟨n, hn, hm⟩ := rootMatches_iff.mp h
  rw [root?_eq_some_iff.mp hn]
  simp [Node.toTree, reach, hm]

theorem rootMatches_eq_false {t : Tree κ ν}
    (h : ∀ p n, t.nodeAt? p = some n → q n.key ≠ .eq) : t.rootMatches q = false := by
  rw [rootMatches_eq_false_iff]
  intro n hn
  exact h [] n (by simpa using hn)

theorem matchBelow?_eq_none {t : Tree κ ν}
    (h : ∀ p n, t.nodeAt? p = some n → q n.key ≠ .eq) : t.matchBelow? q = none := by
  rw [Option.eq_none_iff_forall_ne_some]
  intro p hp
  obtain ⟨n, hn, hm⟩ := nodeAt?_of_matchBelow? hp
  exact h p n hn hm

/-- Below a root that does not match, the first match of the walk is that of the descent. -/
theorem Ordered.matchBelow?_eq {t : Tree κ ν} (ho : t.Ordered cmp) (hq : q.MonotoneOn cmp t)
    (hc : t.contains q = true) (hroot : t.rootMatches q = false) :
    t.matchBelow? q = some (t.reach q) := by
  induction t with
  | empty => exact nomatch hc
  | node l k v r ihl ihr =>
      cases hk : q k with
      | eq => simp [rootMatches, root?, hk] at hroot
      | lt =>
          have hc' : l.contains q = true := by simpa [contains, search, hk] using hc
          have hnone : ∀ p n, r.nodeAt? p = some n → q n.key ≠ .eq :=
            fun p n hn => hq.not_match_right ho hk hn
          rw [matchBelow?, rootMatches_eq_false hnone, matchBelow?_eq_none hnone]
          simp only [reach, hk]
          cases hl : l.rootMatches q with
          | true => simp [reach_of_rootMatches hl]
          | false => simp [ihl ho.1 hq.left hc' hl]
      | gt =>
          have hc' : r.contains q = true := by simpa [contains, search, hk] using hc
          have hnone : ∀ p n, l.nodeAt? p = some n → q n.key ≠ .eq :=
            fun p n hn => hq.not_match_left ho hk hn
          rw [matchBelow?, rootMatches_eq_false hnone, matchBelow?_eq_none hnone]
          simp only [reach, hk]
          cases hr : r.rootMatches q with
          | true => simp [reach_of_rootMatches hr]
          | false => simp [ihr ho.2.2.2 hq.right hc' hr]

theorem Ordered.target_eq_reach {t : Tree κ ν} (ho : t.Ordered cmp) (hq : q.MonotoneOn cmp t)
    (hc : t.contains q = true) : t.target q = .ok (t.reach q) := by
  rw [target_eq]
  cases hroot : t.rootMatches q with
  | true => rw [if_pos rfl, reach_of_rootMatches hroot]
  | false => rw [if_neg Bool.false_ne_true, ho.matchBelow?_eq hq hc hroot]

end Tree

namespace Map

variable {m : Map κ ν cmp} {q : Probe κ}

/-! ## One deletion -/

/-- A deletion takes out the node that the look-up finds. -/
theorem Sound.delete_of_search (hm : m.Sound) (hq : q.MonotoneOn cmp m.tree) {n : Node κ ν}
    (hn : m.search q = some n) :
    (m.delete q).reply = .ok n.value ∧
      (m.delete q).map.tree = m.tree.replaceAt (m.tree.reach q) (Tree.merged n.left n.right) := by
  have hc : m.contains q = true := contains_of_search hn
  obtain ⟨p, n', kind, hp, hn', -, -, -, hd⟩ := hm.counted.delete_of_contains hc
  rw [hm.ordered.target_eq_reach hq hc] at hp
  obtain rfl := Except.ok.inj hp
  have hsame : m.nodeAt? (m.tree.reach q) = some n := (Tree.nodeAt?_reach q m.tree).trans hn
  obtain rfl := Option.some.inj (hsame.symm.trans hn')
  rw [hd]
  exact ⟨rfl, rfl⟩

/-- The entry that goes is that of the node found. -/
theorem Sound.entries_delete (hm : m.Sound) (hq : q.MonotoneOn cmp m.tree) {n : Node κ ν}
    (hn : m.search q = some n) :
    ∃ a b, m.entries = a ++ n.entry :: b ∧ (m.delete q).map.entries = a ++ b := by
  obtain ⟨a, b, ht, ht'⟩ := Tree.inorder_removeAt ((Tree.nodeAt?_reach q m.tree).trans hn)
  exact ⟨a, b, by rw [entries_eq, ht],
    by rw [entries_eq, (hm.delete_of_search hq hn).2, ht']⟩

/-! ## The same deletion again and again -/

theorem reply_deleteMany_succ (m : Map κ ν cmp) (q : Probe κ) (n : Nat) :
    (m.deleteMany (List.replicate (n + 1) q)).reply
      = (m.delete q).reply :: ((m.delete q).map.deleteMany (List.replicate n q)).reply := rfl

theorem map_deleteMany_succ (m : Map κ ν cmp) (q : Probe κ) (n : Nat) :
    (m.deleteMany (List.replicate (n + 1) q)).map
      = ((m.delete q).map.deleteMany (List.replicate n q)).map := rfl

theorem Sound.contains_eq (hm : m.Sound) (hq : q.MonotoneOn cmp m.tree) :
    m.contains q = decide (0 < m.entries.countP q.hits) := by
  rw [Bool.eq_iff_iff, decide_eq_true_iff, List.countP_pos_iff, entries_eq]
  simp only [Probe.hits_iff]
  exact hm.ordered.contains_iff hq

/-- Deleting `n` times by one query takes out just the entries `gone`. -/
structure Depletes (m : Map κ ν cmp) (q : Probe κ) (n : Nat) (gone : List (κ × ν)) : Prop where
  /-- Each of them comes with its value, and what is asked beyond them is refused. -/
  replies : (m.deleteMany (List.replicate n q)).reply
    = gone.map (fun e => .ok e.2) ++ List.replicate (n - gone.length) (.error .keyNotFound)
  /-- They are as many as there are matches, up to `n`. -/
  length : gone.length = min n (m.entries.countP q.hits)
  /-- Each of them is a match. -/
  matching : ∀ e ∈ gone, q e.1 = .eq
  /-- They and the entries that are left are those that were there. -/
  perm : m.entries.Perm (gone ++ (m.deleteMany (List.replicate n q)).map.entries)
  /-- What does not match stays in its order. -/
  others : (m.deleteMany (List.replicate n q)).map.entries.filter (fun e => !q.hits e)
    = m.entries.filter (fun e => !q.hits e)
  /-- The descent meets a match as long as one is left. -/
  contains : (m.deleteMany (List.replicate n q)).map.contains q
    = decide (n < m.entries.countP q.hits)

theorem Sound.depletes_zero (hm : m.Sound) (hq : q.MonotoneOn cmp m.tree) :
    m.Depletes q 0 [] where
  replies := rfl
  length := (Nat.zero_min _).symm
  matching := List.forall_mem_nil _
  perm := .refl _
  others := rfl
  contains := hm.contains_eq hq

/-- Where nothing matches, a deletion more is one refusal more. -/
theorem Sound.depletes_of_not_contains (hm : m.Sound) (hq : q.MonotoneOn cmp m.tree) {n : Nat}
    {gone : List (κ × ν)} (hc : m.contains q = false) (h : m.Depletes q n gone) :
    m.Depletes q (n + 1) [] := by
  have hnone : m.entries.countP q.hits = 0 := by
    rw [hm.contains_eq hq, decide_eq_false_iff_not] at hc
    omega
  obtain rfl : gone = [] := by
    rw [← List.length_eq_zero_iff, h.length, hnone, Nat.min_zero]
  have hreply : (m.deleteMany (List.replicate (n + 1) q)).reply
      = .error .keyNotFound :: (m.deleteMany (List.replicate n q)).reply := by
    rw [reply_deleteMany_succ, delete_of_not_contains hc]
    rfl
  have hmap : (m.deleteMany (List.replicate (n + 1) q)).map
      = (m.deleteMany (List.replicate n q)).map := by
    rw [map_deleteMany_succ, delete_of_not_contains hc]
    rfl
  constructor
  case replies =>
    rw [hreply, h.replies]
    rfl
  case length => rw [hnone, Nat.min_zero, List.length_nil]
  case matching => exact List.forall_mem_nil _
  case perm =>
    rw [hmap]
    exact h.perm
  case others =>
    rw [hmap]
    exact h.others
  case contains =>
    rw [hmap, h.contains, hnone]
    simp

/-- Where the descent meets a match, its entry goes before those of the deletions that follow. -/
theorem Sound.depletes_of_search (hm : m.Sound) (hq : q.MonotoneOn cmp m.tree) {n : Nat}
    {gone : List (κ × ν)} {found : Node κ ν} (hfound : m.search q = some found)
    (h : (m.delete q).map.Depletes q n gone) : m.Depletes q (n + 1) (found.entry :: gone) := by
  have hmatch : q found.entry.1 = .eq := Tree.match_of_search hfound
  have hhit : q.hits found.entry = true := Probe.hits_iff.mpr hmatch
  obtain ⟨a, b, he, he'⟩ := hm.entries_delete hq hfound
  -- One match less than before: the one that has just gone.
  have hcount : m.entries.countP q.hits = (m.delete q).map.entries.countP q.hits + 1 := by
    rw [he, he', List.countP_append, List.countP_append, List.countP_cons_of_pos hhit]
    rfl
  constructor
  case replies =>
    rw [reply_deleteMany_succ, h.replies, (hm.delete_of_search hq hfound).1]
    simp [Node.entry]
  case length =>
    rw [List.length_cons, h.length, hcount]
    omega
  case matching => exact List.forall_mem_cons.mpr ⟨hmatch, h.matching⟩
  case perm =>
    rw [map_deleteMany_succ, he, List.cons_append]
    refine List.perm_middle.trans (.cons _ ?_)
    rw [← he']
    exact h.perm
  case others =>
    rw [map_deleteMany_succ, h.others, he, he', List.filter_append,
      List.filter_append, List.filter_cons_of_neg (by simp [hhit])]
  case contains =>
    rw [map_deleteMany_succ, h.contains, hcount]
    simp

theorem Sound.exists_depletes [Std.TransCmp cmp] (hm : m.Sound) (hq : q.MonotoneOn cmp m.tree)
    (n : Nat) : ∃ gone : List (κ × ν), m.Depletes q n gone := by
  induction n generalizing m with
  | zero => exact ⟨[], hm.depletes_zero hq⟩
  | succ n ih =>
      cases hs : m.search q with
      | none =>
          obtain ⟨gone, h⟩ := ih hm hq
          exact ⟨[], hm.depletes_of_not_contains hq (not_contains_of_search hs) h⟩
      | some found =>
          have hsub : (m.delete q).map.tree.inorder ⊆ m.tree.inorder := by
            rw [← entries_eq, ← entries_eq]
            exact (hm.counted.entries_delete_sublist q).subset
          obtain ⟨gone, h⟩ := ih (hm.delete q) (hq.of_subset hsub)
          exact ⟨found.entry :: gone, hm.depletes_of_search hq hs h⟩

/-- By a query that goes along the keys, the look-up finds the one match that lies above all others,
a deletion takes out just that one, and as many deletions succeed as there are matches. -/
theorem delete_finds_shallowest [Std.TransCmp cmp] (hm : m.Sound)
    (hq : q.MonotoneOn cmp m.tree) :
    ((m.search q).isSome = true ↔ ∃ e ∈ m.entries, q e.1 = .eq) ∧
    (∀ n, m.search q = some n → ∃ p a b, m.nodeAt? p = some n ∧ q n.key = .eq ∧
      (∀ p' n', m.nodeAt? p' = some n' → q n'.key = .eq →
        p <+: p' ∧ (p'.length ≤ p.length → p' = p)) ∧
      m.tree.target q = .ok p ∧
      m.get? q = some n.value ∧ (m.delete q).reply = .ok n.value ∧
      m.entries = a ++ n.entry :: b ∧ (m.delete q).map.entries = a ++ b) ∧
    ∀ n : Nat, ∃ gone : List (κ × ν), m.Depletes q n gone := by
  refine ⟨?_, ?_, hm.exists_depletes hq⟩
  · rw [entries_eq]
    exact hm.ordered.contains_iff hq
  · intro n hn
    obtain ⟨a, b, he, he'⟩ := hm.entries_delete hq hn
    have hat : m.nodeAt? (m.tree.reach q) = some n := (Tree.nodeAt?_reach q m.tree).trans hn
    have htarget := hm.ordered.target_eq_reach hq (contains_of_search hn)
    refine ⟨m.tree.reach q, a, b, hat, Tree.match_of_search hn, ?_, htarget,
      by rw [get?, hn]; rfl, (hm.delete_of_search hq hn).1, he, he'⟩
    intro p' n' hn' hm'
    have hpre := (hm.ordered.reach_isPrefix hq hn' hm').2
    constructor
    · exact hpre
    · intro hlen
      exact (hpre.eq_of_length_le hlen).symm

/-- The keys of the thirties: the descent ends at 30, with 33, 35 and 38 below it, and the fifth
deletion is refused. -/
theorem delete_finds_shallowest_byTens :
    let q := Probe.byTens 37
    let m : Map Int String compare :=
      (empty.run Probe.byTens [.insert 50 "a", .insert 30 "b", .insert 70 "c", .insert 20 "d",
        .insert 40 "e", .insert 35 "f", .insert 33 "g", .insert 38 "h"]).map
    m.Sound ∧ q.MonotoneOn compare m.tree ∧ m.get? q = some "b" ∧ m.entries.countP q.hits = 4 ∧
    ∃ gone : List (Int × String), gone.length = 4 ∧ m.Depletes q 5 gone := by
  intro q m
  have hm : m.Sound := Reachable.sound ⟨_, rfl⟩
  have hq : q.MonotoneOn compare m.tree := (Probe.monotone_byTens 37).monotoneOn m.tree
  have hcount : m.entries.countP q.hits = 4 := by
    rw [entries_eq]
    rfl
  obtain ⟨gone, h⟩ := (delete_finds_shallowest hm hq).2.2 5
  refine ⟨hm, hq, rfl, hcount, gone, ?_, h⟩
  rw [h.length, hcount]
  rfl

end Map

end SearchTree
