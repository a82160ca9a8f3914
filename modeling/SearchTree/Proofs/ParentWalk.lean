/-
# `SearchTree.Proofs.ParentWalk` — the walk for a parent is a recursion

The walk keeps its pending nodes on a stack.  The recursion asks the node at hand,
then its left subtree, then its right one:

    firstParentSite?   nothing in an empty tree; the node at hand if the key of a child
                       of it matches; else what the left subtree answers, if anything;
                       else what the right subtree answers

It looks at the keys of the children and knows nothing of how the walk tests a node;
that the two come to the same is `isParentOf_iff_key`.  `find?_pending` says of an
arbitrary stack that searching it is to ask the pending subtrees one after the other
in this way.  The walk begins with the root alone on its stack, so it is the recursion
on the whole tree.

Two equal subtrees may hang at different places, and so a node is told by its place.
The places come in the order `Path.Before` (`pairwise_sites`), and all of them come
(`mem_sites`).  The walk therefore finds the parent that is before all others, and it
comes back with nothing only when no node below the root matches.  No order of the
tree and no law of the query is used.
-/
import SearchTree.Map.Basic
import SearchTree.Proofs.Place

namespace SearchTree

variable {κ ν : Type} {cmp : κ → κ → Ordering}

/-! ## The order of the places -/

/-- A place comes before those below it, and what is on the left of a node before what is on its
right. -/
inductive Path.Before : Path → Path → Prop where
  | above (d : Side) (p : Path) : Before [] (d :: p)
  | beside (p p' : Path) : Before (.left :: p) (.right :: p')
  | along (d : Side) {p p' : Path} : Before p p' → Before (d :: p) (d :: p')

theorem Path.Before.append_left (a : Path) {p p' : Path} (h : Before p p') :
    Before (a ++ p) (a ++ p') := by
  induction a with
  | nil => exact h
  | cons d a ih => exact .along d ih

namespace Tree

/-- The nodes of a subtree that hangs at the end of a trail, told by where they are in it. -/
theorem mem_sitesFrom {trail : List Side} {t : Tree κ ν} {s : Site κ ν} :
    s ∈ t.sitesFrom trail ↔ ∃ p, t.nodeAt? p = some s.node ∧ s.trail = p.reverse ++ trail := by
  induction t generalizing trail with
  | empty => simp [sitesFrom]
  | node l k v r ihl ihr =>
      simp only [sitesFrom, List.mem_cons, List.mem_append, ihl, ihr]
      constructor
      · rintro (rfl | ⟨p, hn, htrail⟩ | ⟨p, hn, htrail⟩)
        · exact ⟨[], rfl, rfl⟩
        · exact ⟨.left :: p, hn, by simp [htrail]⟩
        · exact ⟨.right :: p, hn, by simp [htrail]⟩
      · rintro ⟨p, hn, htrail⟩
        cases p with
        | nil =>
            obtain ⟨trail', n⟩ := s
            obtain rfl : trail' = trail := htrail
            obtain rfl : Node.mk k v l r = n := Option.some.inj hn
            exact .inl rfl
        | cons d p =>
            cases d with
            | left => exact .inr (.inl ⟨p, hn, by simp [htrail]⟩)
            | right => exact .inr (.inr ⟨p, hn, by simp [htrail]⟩)

/-- Every node is visited, each at its place. -/
theorem mem_sites {t : Tree κ ν} {s : Site κ ν} :
    s ∈ t.sites ↔ t.nodeAt? s.path = some s.node := by
  rw [sites, mem_sitesFrom]
  constructor
  · rintro ⟨p, hn, htrail⟩
    rwa [Site.path, htrail, List.append_nil, List.reverse_reverse]
  · intro hn
    exact ⟨s.path, hn, by simp [Site.path]⟩

/-- The site of the node at a place. -/
theorem exists_site {t : Tree κ ν} {p : Path} {n : Node κ ν} (h : t.nodeAt? p = some n) :
    ∃ s ∈ t.sites, s.path = p ∧ s.node = n :=
  ⟨⟨p.reverse, n⟩, mem_sites.mpr (by simpa [Site.path] using h), by simp [Site.path], rfl⟩

theorem path_of_mem_sitesFrom {d : Side} {trail : List Side} {t : Tree κ ν} {s : Site κ ν}
    (h : s ∈ t.sitesFrom (d :: trail)) : ∃ p, s.path = trail.reverse ++ d :: p := by
  obtain ⟨p, -, htrail⟩ := mem_sitesFrom.mp h
  exact ⟨p, by simp [Site.path, htrail]⟩

theorem pairwise_sitesFrom (trail : List Side) (t : Tree κ ν) :
    (t.sitesFrom trail).Pairwise fun s s' => Path.Before s.path s'.path := by
  induction t generalizing trail with
  | empty => exact .nil
  | node l k v r ihl ihr =>
      rw [sitesFrom, List.pairwise_cons, List.pairwise_append]
      refine ⟨?_, ihl _, ihr _, ?_⟩
      · intro s hs
        obtain ⟨d, p, hp⟩ : ∃ d p, s.path = trail.reverse ++ d :: p := by
          rcases List.mem_append.mp hs with hs | hs
          · exact ⟨.left, path_of_mem_sitesFrom hs⟩
          · exact ⟨.right, path_of_mem_sitesFrom hs⟩
        have habove := (Path.Before.above d p).append_left trail.reverse
        rw [List.append_nil] at habove
        rw [hp]
        exact habove
      · intro s hs s' hs'
        obtain ⟨p, hp⟩ := path_of_mem_sitesFrom hs
        obtain ⟨p', hp'⟩ := path_of_mem_sitesFrom hs'
        rw [hp, hp']
        exact (Path.Before.beside p p').append_left trail.reverse

/-- The nodes are visited in the order of their places. -/
theorem pairwise_sites (t : Tree κ ν) :
    t.sites.Pairwise fun s s' => Path.Before s.path s'.path :=
  pairwise_sitesFrom [] t

end Tree

/-! ## Nodes that have a matching child -/

namespace Node

theorem matchesOn_iff {n : Node κ ν} {side : Side} {q : Probe κ} :
    n.matchesOn side q = true ↔ ∃ c, (n.subtree side).root? = some c ∧ q c.key = .eq := by
  unfold matchesOn
  cases (n.subtree side).root? with
  | none => simp
  | some c => simp [Ordering.isEq_iff_eq_eq]

/-- What the walk asks of a node is a statement about the keys of its children. -/
theorem isParentOf_iff_key {n : Node κ ν} {q : Probe κ} :
    n.isParentOf q = true ↔
      (∃ c ∈ n.left.root?, q c.key = .eq) ∨ ∃ c ∈ n.right.root?, q c.key = .eq := by
  rw [isParentOf, Bool.or_eq_true, matchesOn_iff, matchesOn_iff]
  rfl

end Node

namespace Tree

/-- A child is one side further than its parent. -/
theorem nodeAt?_concat {t : Tree κ ν} {p : Path} {n : Node κ ν} (h : t.nodeAt? p = some n)
    (side : Side) : t.nodeAt? (p ++ [side]) = (n.subtree side).root? := by
  rw [nodeAt?_append (nodeAt?_eq_some_iff.mp h)]
  cases side <;> exact nodeAt?_nil _

/-- Being a parent of a match, seen from the place of the match. -/
theorem isParentOf_iff {t : Tree κ ν} {p : Path} {n : Node κ ν} (h : t.nodeAt? p = some n)
    {q : Probe κ} :
    n.isParentOf q = true ↔ ∃ side c, t.nodeAt? (p ++ [side]) = some c ∧ q c.key = .eq := by
  rw [Node.isParentOf_iff_key]
  simp only [nodeAt?_concat h]
  constructor
  · rintro (hc | hc)
    · exact ⟨.left, hc⟩
    · exact ⟨.right, hc⟩
  · rintro ⟨side, hc⟩
    cases side with
    | left => exact .inl hc
    | right => exact .inr hc

/-- Whatever is below the root has a node above it. -/
theorem exists_parent {t : Tree κ ν} {p : Path} {side : Side} {c : Node κ ν}
    (h : t.nodeAt? (p ++ [side]) = some c) : ∃ n, t.nodeAt? p = some n := by
  have hsub := nodeAt?_eq_some_iff.mp h
  rw [subtree?_append, Option.bind_eq_some_iff] at hsub
  obtain ⟨u, hu, hside⟩ := hsub
  cases u with
  | empty => simp at hside
  | node l k v r => exact ⟨⟨k, v, l, r⟩, nodeAt?_eq_some_iff.mpr hu⟩

/-! ## The stack and the recursion -/

/-- The first parent of a match in a subtree that hangs at the end of a trail: its root if a child's
key matches, else the first on the left, else the first on the right. -/
def firstParentSite? (q : Probe κ) (trail : List Side) : Tree κ ν → Option (Site κ ν)
  | .empty => none
  | .node l k v r =>
      if (∃ c ∈ l.root?, q c.key = .eq) ∨ ∃ c ∈ r.root?, q c.key = .eq then
        some ⟨trail, ⟨k, v, l, r⟩⟩
      else (l.firstParentSite? q (.left :: trail)).or (r.firstParentSite? q (.right :: trail))

theorem find?_sitesFrom (q : Probe κ) (trail : List Side) (t : Tree κ ν) :
    (t.sitesFrom trail).find? (fun s => s.node.isParentOf q) = t.firstParentSite? q trail := by
  induction t generalizing trail with
  | empty => rfl
  | node l k v r ihl ihr =>
      rw [sitesFrom, List.find?_cons, firstParentSite?]
      cases hp : (Node.mk k v l r).isParentOf q with
      | true => rw [if_pos (Node.isParentOf_iff_key.mp hp)]
      | false =>
          rw [if_neg fun hkey => Bool.eq_false_iff.mp hp (Node.isParentOf_iff_key.mpr hkey)]
          simp [List.find?_append, ihl, ihr]

/-- Searching an arbitrary stack is to ask the pending subtrees by recursion, the top one first. -/
theorem find?_pending (q : Probe κ) (w : SiteWalk κ ν) :
    Cursor.find? (fun s => s.node.isParentOf q) w
      = w.pending.findSome? fun s => s.node.toTree.firstParentSite? q s.trail := by
  rw [Cursor.find?_eq, SiteWalk.toList_eq, List.find?_flatMap]
  simp only [Site.below, find?_sitesFrom]

theorem parentSite?_eq_firstParentSite? (q : Probe κ) (t : Tree κ ν) :
    t.parentSite? q = t.firstParentSite? q [] := by
  rw [parentSite?, find?_pending]
  cases t with
  | empty => rfl
  | node l k v r => simp [SiteWalk.ofTree, rootSites, root?, Node.toTree]

/-! ## What the walk finds -/

/-- The walk finds a parent of a match, and no other one comes before it. -/
theorem parentSite?_first {q : Probe κ} {t : Tree κ ν} {s : Site κ ν}
    (h : t.parentSite? q = some s) :
    t.nodeAt? s.path = some s.node ∧ s.node.isParentOf q = true ∧
      ∀ p n, t.nodeAt? p = some n → n.isParentOf q = true → p = s.path ∨ Path.Before s.path p := by
  rw [parentSite?_eq, List.find?_eq_some_iff_append] at h
  obtain ⟨hparent, earlier, later, hsites, hnone⟩ := h
  refine ⟨mem_sites.mp (by simp [hsites]), hparent, ?_⟩
  intro p n hn hp
  obtain ⟨s', hmem, rfl, rfl⟩ := exists_site hn
  have horder := t.pairwise_sites
  rw [hsites, List.pairwise_append, List.pairwise_cons] at horder
  rw [hsites, List.mem_append, List.mem_cons] at hmem
  -- What comes earlier is not a parent, and what comes later is behind the site found.
  rcases hmem with hmem | rfl | hmem
  · have hno := hnone s' hmem
    simp [hp] at hno
  · exact .inl rfl
  · exact .inr (horder.2.1.1 s' hmem)

theorem parentSite?_eq_none_iff {q : Probe κ} {t : Tree κ ν} :
    t.parentSite? q = none ↔ ∀ p n, t.nodeAt? p = some n → n.isParentOf q = false := by
  rw [parentSite?_eq, List.find?_eq_none]
  simp only [Bool.not_eq_true]
  constructor
  · intro h p n hn
    obtain ⟨s, hs, rfl, rfl⟩ := exists_site hn
    exact h s hs
  · intro h s hs
    exact h s.path s.node (mem_sites.mp hs)

/-- The walk comes back with nothing just when no node below the root matches. -/
theorem parentSite?_eq_none_iff_below {q : Probe κ} {t : Tree κ ν} :
    t.parentSite? q = none ↔ ∀ p n, p ≠ [] → t.nodeAt? p = some n → q n.key ≠ .eq := by
  rw [parentSite?_eq_none_iff]
  constructor
  · intro h p c hp hc hmatch
    -- The match is below the root, so there is a node above it.
    rw [← List.dropLast_concat_getLast hp] at hc
    obtain ⟨n, hn⟩ := exists_parent hc
    have hparent := (isParentOf_iff hn).mpr ⟨_, c, hc, hmatch⟩
    rw [h _ n hn] at hparent
    exact nomatch hparent
  · intro h p n hn
    rw [← Bool.not_eq_true, isParentOf_iff hn]
    rintro ⟨side, c, hc, hmatch⟩
    exact h _ c (by simp) hc hmatch

end Tree

namespace Map

/-- The walk with its stack finds the node, at the place, that the recursion finds.  It is a parent
of a match that comes before all others, and there is none only if no node below the root
matches. -/
theorem parent_walk_is_recursion (m : Map κ ν cmp) (q : Probe κ) :
    m.tree.parentSite? q = m.tree.firstParentSite? q [] ∧
    m.parent? q = (m.tree.parentSite? q).map (·.node) ∧
    m.parent? q = (m.tree.firstParentSite? q []).map (·.node) ∧
    (∀ s, m.tree.parentSite? q = some s →
      m.nodeAt? s.path = some s.node ∧ s.node.isParentOf q = true ∧
      ∀ p n, m.nodeAt? p = some n → n.isParentOf q = true →
        p = s.path ∨ Path.Before s.path p) ∧
    (m.parent? q = none ↔ ∀ p n, p ≠ [] → m.nodeAt? p = some n → q n.key ≠ .eq) := by
  have hwalk := m.tree.parentSite?_eq_firstParentSite? q
  refine ⟨hwalk, rfl, ?_, ?_, ?_⟩
  · rw [parent?, Tree.parent?, hwalk]
  · intro s hs
    exact Tree.parentSite?_first hs
  · rw [parent?, Tree.parent?, Option.map_eq_none_iff]
    exact Tree.parentSite?_eq_none_iff_below

end Map

end SearchTree
