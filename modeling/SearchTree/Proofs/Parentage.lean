/-
# `SearchTree.Proofs.Parentage` — the parent is the last node but one on the way down

In a tree in search order, a query that is compared as keys are has one match at most,
and the descent ends there (`Ordered.reach_eq_of_match`).  So only the node above that
place can be its parent, and the walk, which knows nothing of the order, comes to it:

    no match        `keyNotFound`; no node is a parent
    at the root     no parent; no node is one
    below the root  the node that the descent compared just before the match, the only
                    parent in the whole tree

`visited_eq` ties the nodes that the descent compares to the places on its way.
-/
import SearchTree.Proofs.Ledger
import SearchTree.Proofs.ParentWalk

namespace SearchTree

variable {κ ι ν : Type} {cmp : κ → κ → Ordering}

namespace Tree

/-! ## The way of the descent -/

/-- The descent compares the nodes on the way to the place where it ends. -/
theorem visited_eq (q : Probe κ) (t : Tree κ ν) :
    t.visited q =
      (List.range ((t.reach q).length + 1)).filterMap fun i => t.nodeAt? ((t.reach q).take i) := by
  induction t with
  | empty => rfl
  | node l k v r ihl ihr =>
      rw [visited, reach]
      cases q k with
      | eq => rfl
      | lt =>
          rw [List.length_cons, List.range_succ_eq_map, List.filterMap_cons, List.filterMap_map,
            ihl]
          rfl
      | gt =>
          rw [List.length_cons, List.range_succ_eq_map, List.filterMap_cons, List.filterMap_map,
            ihr]
          rfl

/-- The last two nodes of a way that ends at a node below the root. -/
theorem visited_of_reach {q : Probe κ} {t : Tree κ ν} {p : Path} {side : Side} {n c : Node κ ν}
    (h : t.reach q = p ++ [side]) (hn : t.nodeAt? p = some n)
    (hc : t.nodeAt? (p ++ [side]) = some c) : ∃ before, t.visited q = before ++ [n, c] := by
  have hlast : [p.length, p.length + 1].filterMap (fun i => t.nodeAt? ((p ++ [side]).take i))
      = [n, c] := by
    simp [List.take_of_length_le, hn, hc]
  rw [visited_eq, h, List.length_append, List.length_singleton, List.range_succ, List.range_succ,
    List.append_assoc, List.filterMap_append]
  exact ⟨_, congrArg (_ ++ ·) hlast⟩

/-! ## The only place of a key -/

variable [Std.TransCmp cmp] {q : Probe κ}

/-- In a tree in search order no key below a node compares equal to the key of that node. -/
theorem Ordered.not_eq_below {n c : Node κ ν} {d : Side} {p : Path} (ho : n.toTree.Ordered cmp)
    (hc : n.toTree.nodeAt? (d :: p) = some c) : cmp n.key c.key ≠ .eq := by
  obtain ⟨-, hleft, hright, -⟩ := ho
  intro heq
  cases d with
  | left =>
      have hlt := forall_iff_mem_inorder.mp hleft _ (mem_inorder_of_nodeAt? hc)
      exact nomatch (Std.OrientedCmp.eq_symm heq).symm.trans hlt
  | right =>
      have hlt := forall_iff_mem_inorder.mp hright _ (mem_inorder_of_nodeAt? hc)
      exact nomatch heq.symm.trans hlt

/-- The descent ends at every match there is, so there is only one. -/
theorem Ordered.reach_eq_of_match {t : Tree κ ν} (ho : t.Ordered cmp) (hq : q.AsKey cmp) {p : Path}
    {n : Node κ ν} (hn : t.nodeAt? p = some n) (hm : q n.key = .eq) : t.reach q = p := by
  obtain ⟨hc, below, rfl⟩ := ho.reach_isPrefix (hq.monotone.monotoneOn t) hn hm
  obtain ⟨found, hfound⟩ := Option.isSome_iff_exists.mp hc
  have hat : t.nodeAt? (t.reach q) = some found := (nodeAt?_reach q t).trans hfound
  cases below with
  | nil => exact (List.append_nil _).symm
  | cons d below =>
      have hbelow : found.toTree.nodeAt? (d :: below) = some n := by
        rwa [nodeAt?_append (nodeAt?_eq_some_iff.mp hat)] at hn
      -- Two matches compare equal, but no key below the node found is equal to its own.
      exact absurd (hq.unique _ _ (match_of_search hfound) hm)
        ((ho.of_nodeAt? hat).not_eq_below hbelow)

/-! ## The parent of the match -/

theorem Ordered.reach_of_isParentOf {t : Tree κ ν} (ho : t.Ordered cmp) (hq : q.AsKey cmp)
    {p : Path} {n : Node κ ν} (hn : t.nodeAt? p = some n) (h : n.isParentOf q = true) :
    ∃ side, t.reach q = p ++ [side] := by
  obtain ⟨side, c, hc, hm⟩ := (isParentOf_iff hn).mp h
  exact ⟨side, ho.reach_eq_of_match hq hc hm⟩

theorem Ordered.parent_unique {t : Tree κ ν} (ho : t.Ordered cmp) (hq : q.AsKey cmp)
    {p p' : Path} {n n' : Node κ ν} (hn : t.nodeAt? p = some n) (hn' : t.nodeAt? p' = some n')
    (h : n.isParentOf q = true) (h' : n'.isParentOf q = true) : p' = p := by
  obtain ⟨side, hside⟩ := ho.reach_of_isParentOf hq hn h
  obtain ⟨side', hside'⟩ := ho.reach_of_isParentOf hq hn' h'
  exact (List.append_inj' (hside'.symm.trans hside) rfl).1

/-- The walk finds the node above the place where the descent ends. -/
theorem Ordered.parent_of_reach {t : Tree κ ν} (ho : t.Ordered cmp) (hq : q.AsKey cmp)
    {p : Path} {side : Side} (h : t.reach q = p ++ [side]) {found : Node κ ν}
    (hs : t.search q = some found) :
    ∃ before n, t.parent? q = some n ∧ t.visited q = before ++ [n, found] ∧
      t.nodeAt? p = some n ∧ n.isParentOf q = true := by
  have hfound : t.nodeAt? (p ++ [side]) = some found := by
    rw [← h, nodeAt?_reach, hs]
  obtain ⟨n, hn⟩ := exists_parent hfound
  have hparent : n.isParentOf q = true :=
    (isParentOf_iff hn).mpr ⟨side, found, hfound, match_of_search hs⟩
  obtain ⟨before, hbefore⟩ := visited_of_reach h hn hfound
  refine ⟨before, n, ?_, hbefore, hn, hparent⟩
  -- The walk stops at some parent, and there is no other one.
  cases hsite : t.parentSite? q with
  | none =>
      rw [parentSite?_eq_none_iff.mp hsite p n hn] at hparent
      exact nomatch hparent
  | some s =>
      obtain ⟨hat, hs', -⟩ := parentSite?_first hsite
      rw [ho.parent_unique hq hn hat hparent hs', hn] at hat
      rw [parent?, hsite, Option.map_some, Option.some.inj hat]

/-- The walk finds nothing if there is no match, and if the match is the root. -/
theorem Ordered.parentSite?_eq_none_iff_root {t : Tree κ ν} (ho : t.Ordered cmp)
    (hq : q.AsKey cmp) :
    t.parentSite? q = none ↔ t.contains q = false ∨ t.rootMatches q = true := by
  rw [parentSite?_eq_none_iff_below]
  constructor
  · intro hbelow
    cases hs : t.search q with
    | none => exact .inl (by rw [contains, hs]; rfl)
    | some n =>
        cases hreach : t.reach q with
        | nil => exact .inr (rootMatches_of_reach_nil hs hreach)
        | cons d p =>
            have hat : t.nodeAt? (t.reach q) = some n := (nodeAt?_reach q t).trans hs
            exact absurd (match_of_search hs) (hbelow _ n (by simp [hreach]) hat)
  · intro h p n hp hn hm
    have hreach : t.reach q = p := ho.reach_eq_of_match hq hn hm
    rcases h with hc | hroot
    · rw [(ho.reach_isPrefix (hq.monotone.monotoneOn t) hn hm).1] at hc
      cases hc
    · exact hp (hreach.symm.trans (reach_of_rootMatches hroot))

/-- A match that is not the root is below some node. -/
theorem exists_reach_concat {t : Tree κ ν} {found : Node κ ν} (hs : t.search q = some found)
    (hroot : t.rootMatches q = false) : ∃ p side, t.reach q = p ++ [side] := by
  have hne : t.reach q ≠ [] := by
    intro hnil
    rw [rootMatches_of_reach_nil hs hnil] at hroot
    cases hroot
  exact ⟨_, _, (List.dropLast_concat_getLast hne).symm⟩

end Tree

namespace Map

theorem parentOf_eq_ok_iff {m : Map κ ν cmp} {q : Probe κ} {parent : Option (Node κ ν)} :
    m.parentOf q = .ok parent ↔ m.contains q = true ∧ m.parent? q = parent := by
  rw [parentOf]
  cases m.contains q <;> simp

/-- Let the keys be ordered as what is borrowed from them, and the query be of that kind.  Its
parent is refused if no key matches and is none for the root.  Else it is the node that the descent
compares last before its match, and no other node of the tree has a child that matches. -/
theorem parent_precedes_match (cmpQ : ι → ι → Ordering) [Std.TransCmp cmpQ] (borrow : κ → ι)
    (hborrow : ∀ k₁ k₂, cmp k₁ k₂ = cmpQ (borrow k₁) (borrow k₂)) {ι₀ : Type}
    {view : ι₀ → Probe κ} {m : Map κ ν cmp} (hm : Reachable view m) (key : ι) :
    let q : Probe κ := fun k => cmpQ key (borrow k)
    let absent : Prop := ∀ e ∈ m.entries, q e.1 ≠ .eq
    let atRoot : Prop := ∃ root, m.root? = some root ∧ q root.key = .eq
    (m.parentOf q = .error .keyNotFound ↔ absent) ∧
    (m.parentOf q = .ok none ↔ atRoot) ∧
    (¬ absent → ¬ atRoot → ∃ before n found p side, m.parentOf q = .ok (some n) ∧
      m.search q = some found ∧ m.tree.visited q = before ++ [n, found] ∧
      m.tree.reach q = p ++ [side] ∧ m.nodeAt? p = some n ∧ n.isParentOf q = true ∧
      ∀ p' n', m.nodeAt? p' = some n' → n'.isParentOf q = true → p' = p) ∧
    (m.parent? q = none ↔ absent ∨ atRoot) ∧
    (absent ∨ atRoot → ∀ p n, m.nodeAt? p = some n → n.isParentOf q = false) := by
  intro q absent atRoot
  have : Std.TransCmp cmp := transCmp_of_borrow hborrow
  have hq : q.AsKey cmp := Probe.asKey_of_borrow hborrow key
  have ho : m.tree.Ordered cmp := hm.sound.ordered
  have habsent : m.contains q = false ↔ absent := by
    rw [← Bool.not_eq_true, contains, ho.contains_iff (hq.monotone.monotoneOn m.tree), ← entries_eq]
    simp [absent]
  have hroot : m.tree.rootMatches q = true ↔ atRoot := Tree.rootMatches_iff
  have hsite : m.tree.parentSite? q = none ↔ absent ∨ atRoot := by
    rw [← habsent, ← hroot]
    exact ho.parentSite?_eq_none_iff_root hq
  have hnone : m.parent? q = none ↔ absent ∨ atRoot := Option.map_eq_none_iff.trans hsite
  refine ⟨?_, ?_, ?_, hnone, ?_⟩
  · rw [parentOf, ← habsent]
    cases m.contains q <;> simp
  · rw [parentOf_eq_ok_iff, hnone, ← habsent, ← hroot]
    constructor
    · rintro ⟨hc, h | h⟩
      · rw [hc] at h
        cases h
      · exact h
    · intro h
      exact ⟨Tree.contains_of_rootMatches h, .inr h⟩
  · intro hpresent hbelow
    rw [← habsent, Bool.not_eq_false] at hpresent
    rw [← hroot, Bool.not_eq_true] at hbelow
    obtain ⟨found, hfound⟩ := Option.isSome_iff_exists.mp hpresent
    obtain ⟨p, side, hreach⟩ := Tree.exists_reach_concat hfound hbelow
    obtain ⟨before, n, hn, hvisited, hat, hparent⟩ := ho.parent_of_reach hq hreach hfound
    refine ⟨before, n, found, p, side, parentOf_eq_ok_iff.mpr ⟨hpresent, hn⟩, hfound, hvisited,
      hreach, hat, hparent, ?_⟩
    intro p' n' hat' hparent'
    exact ho.parent_unique hq hat hat' hparent hparent'
  · intro h p n hn
    exact Tree.parentSite?_eq_none_iff.mp (hsite.mpr h) p n hn

/-- Keys with a number and a name, asked for by number.  The deletion of 30 has moved 40 up, over
20, and the descent for 20 compares it just before its match. -/
theorem parent_precedes_match_numbered :
    let order : Int × String → Int × String → Ordering := fun k₁ k₂ => compare k₁.1 k₂.1
    let view : Int → Probe (Int × String) := fun q k => compare q k.1
    let m : Map (Int × String) String order :=
      (empty.run view [.insert (50, "fifty") "a", .insert (30, "thirty") "b",
        .insert (70, "seventy") "c", .insert (20, "twenty") "d", .insert (45, "forty-five") "e",
        .insert (40, "forty") "f", .delete 30]).map
    Std.TransCmp (compare : Int → Int → Ordering) ∧ Reachable view m ∧
    (m.parent? (view 20)).map (·.key) = some (40, "forty") ∧
    ∃ before n found p side, m.parentOf (view 20) = .ok (some n) ∧
      m.search (view 20) = some found ∧ m.tree.visited (view 20) = before ++ [n, found] ∧
      m.tree.reach (view 20) = p ++ [side] ∧ m.nodeAt? p = some n ∧
      ∀ p' n', m.nodeAt? p' = some n' → n'.isParentOf (view 20) = true → p' = p := by
  intro order view m
  have horder : ∀ k₁ k₂, order k₁ k₂ = compare k₁.1 k₂.1 := fun _ _ => rfl
  have hm : Reachable view m := ⟨_, rfl⟩
  have hstored : ((20, "twenty"), "d") ∈ m.entries := by
    rw [entries_eq]
    decide +kernel
  have hroot : m.root?.map (·.key) = some (50, "fifty") := by decide +kernel
  have hinside : ¬ ∃ root, m.root? = some root ∧ view 20 root.key = .eq := by
    rintro ⟨root, hr, hmatch⟩
    rw [hr, Option.map_some] at hroot
    rw [Option.some.inj hroot] at hmatch
    exact nomatch hmatch
  obtain ⟨-, -, hbelow, -⟩ := parent_precedes_match compare Prod.fst horder hm 20
  obtain ⟨before, n, found, p, side, hparent, hfound, hvisited, hreach, hat, -, honly⟩ :=
    hbelow (fun h => h _ hstored rfl) hinside
  exact ⟨inferInstance, hm, by decide +kernel, before, n, found, p, side, hparent, hfound, hvisited,
    hreach, hat, honly⟩

end Map

end SearchTree
