/-
# `SearchTree.Proofs.Assembly` — how a copy is put together

The second round of a copy goes over the nodes, each after its subtrees, and keeps
finished copies on a stack.  At any moment the stack is told by the sites whose
copies lie on it, the last one first.

`Popped f g s side stack rest`: for the child of `s` on a side, if there is one, the copy
of just that child is on top of `stack`; the pop takes it and leaves `rest`.

`Assembly f g sites stack stack'`: the round over `sites`, step by step.  At each the
pop for the right child comes first, then the pop for the left one, and then the copy
of the node itself is put on what is left.

A copy is told by its site and not by what is in it, so that two subtrees with the
same entries are kept apart.  `assembly_sitesUpwardFrom` says of a subtree at any
place, and of any stack, that the steps over its nodes add its own copy and nothing
else.  No order of the tree is used.
-/
import SearchTree.Key
import SearchTree.Proofs.Conservation

namespace SearchTree

variable {κ ν κ' ν' : Type}

/-- The copy of the subtree at a site. -/
def Site.copy (f : κ → κ') (g : ν → ν') (s : Site κ ν) : Tree κ' ν' :=
  s.node.toTree.mapEntries f g

/-- The pop for the child on a side: the child's copy is on top, if there is a child, and is what is
taken. -/
structure Popped (f : κ → κ') (g : ν → ν') (s : Site κ ν) (side : Side)
    (stack rest : List (Site κ ν)) : Prop where
  top : stack = s.child side ++ rest
  taken : Tree.takeCopy (!(s.node.subtree side).isEmpty) (stack.map (Site.copy f g))
    = .ok ((s.node.subtree side).mapEntries f g, rest.map (Site.copy f g))

/-- The steps of the second round, and the stack before and after them. -/
inductive Assembly (f : κ → κ') (g : ν → ν') :
    List (Site κ ν) → List (Site κ ν) → List (Site κ ν) → Prop where
  | nil (stack : List (Site κ ν)) : Assembly f g [] stack stack
  | cons {s : Site κ ν} {sites stack mid rest stack' : List (Site κ ν)} :
      Popped f g s .right stack mid → Popped f g s .left mid rest →
      Tree.buildNode f g (stack.map (Site.copy f g)) s.node
        = .ok ((s :: rest).map (Site.copy f g)) →
      Assembly f g sites (s :: rest) stack' → Assembly f g (s :: sites) stack stack'

theorem Assembly.append {f : κ → κ'} {g : ν → ν'}
    {sites sites' stack stack' stack'' : List (Site κ ν)} (h : Assembly f g sites stack stack')
    (h' : Assembly f g sites' stack' stack'') : Assembly f g (sites ++ sites') stack stack'' := by
  induction h with
  | nil => exact h'
  | cons hright hleft hbuild _ ih => exact .cons hright hleft hbuild (ih h')

namespace Tree

/-- The nodes of a subtree that hangs at the end of a trail, each after its left and then its right
subtree, and with its place. -/
def sitesUpwardFrom (trail : List Side) : Tree κ ν → List (Site κ ν)
  | .empty => []
  | .node l k v r =>
      l.sitesUpwardFrom (.left :: trail) ++
        (r.sitesUpwardFrom (.right :: trail) ++ [⟨trail, ⟨k, v, l, r⟩⟩])

theorem map_node_sitesUpwardFrom (trail : List Side) (t : Tree κ ν) :
    (t.sitesUpwardFrom trail).map (·.node) = t.upward := by
  induction t generalizing trail with
  | empty => rfl
  | node l k v r ihl ihr =>
      rw [sitesUpwardFrom, List.map_append, List.map_append, ihl, ihr, upward]
      rfl

/-- Upward or downward, each node comes once. -/
theorem sitesUpwardFrom_perm (trail : List Side) (t : Tree κ ν) :
    (t.sitesUpwardFrom trail).Perm (t.sitesFrom trail) := by
  induction t generalizing trail with
  | empty => exact .nil
  | node l k v r ihl ihr =>
      rw [sitesUpwardFrom, sitesFrom, ← List.append_assoc]
      exact List.perm_append_comm.trans (((ihl _).append (ihr _)).cons _)

theorem map_copy_rootSites (f : κ → κ') (g : ν → ν') (trail : List Side) (t : Tree κ ν) :
    (t.rootSites trail).map (Site.copy f g) = copyStack f g t := by
  cases t <;> rfl

/-- A child's copy on top is what its parent takes. -/
theorem popped_child (f : κ → κ') (g : ν → ν') (s : Site κ ν) (side : Side)
    (rest : List (Site κ ν)) : Popped f g s side (s.child side ++ rest) rest := by
  refine ⟨rfl, ?_⟩
  rw [List.map_append, Site.child, map_copy_rootSites]
  exact takeCopy_copyStack f g _ _

/-- The steps over the nodes of a subtree put its copy on the stack. -/
theorem assembly_sitesUpwardFrom (f : κ → κ') (g : ν → ν') (trail : List Side) (t : Tree κ ν)
    (stack : List (Site κ ν)) :
    Assembly f g (t.sitesUpwardFrom trail) stack (t.rootSites trail ++ stack) := by
  induction t generalizing trail stack with
  | empty => exact .nil stack
  | node l k v r ihl ihr =>
      let s : Site κ ν := ⟨trail, ⟨k, v, l, r⟩⟩
      have hbuild : buildNode f g ((s.child .right ++ (s.child .left ++ stack)).map (Site.copy f g))
          s.node = .ok ((s :: stack).map (Site.copy f g)) := by
        simp only [List.map_append, Site.child, map_copy_rootSites]
        exact buildNode_copyStack f g s.node _
      have hroot : Assembly f g [s] (s.child .right ++ (s.child .left ++ stack)) (s :: stack) :=
        .cons (popped_child f g s .right _) (popped_child f g s .left _) hbuild (.nil _)
      exact (ihl _ _).append ((ihr _ _).append hroot)

/-- What is at a place of a renewed tree. -/
theorem nodeAt?_mapEntries (f : κ → κ') (g : ν → ν') (t : Tree κ ν) (p : Path) :
    (t.mapEntries f g).nodeAt? p = (t.nodeAt? p).map fun n =>
      ⟨f n.key, g n.value, n.left.mapEntries f g, n.right.mapEntries f g⟩ := by
  induction p generalizing t with
  | nil => cases t <;> rfl
  | cons d p ih =>
      cases t with
      | empty => cases d <;> rfl
      | node l k v r =>
          cases d with
          | left => exact ih l
          | right => exact ih r

end Tree

variable {cmp : κ → κ → Ordering}

namespace Map

/-- Let the copy of a key, and of a value, be equal to it in some sense `R`, and `S`.  Then the copy
of a map, whatever its shape, has equal keys and values at the same places and the same size; if
equal ones are the same, it is the same map.  In the second round each pop for a child that exists
takes that child's copy, and one copy is there at the end, or none if the map is empty. -/
theorem copy_reproduces_tree (f : κ → κ) (g : ν → ν) {R : κ → κ → Prop} {S : ν → ν → Prop}
    {m : Map κ ν cmp} (h : ∀ e ∈ m.entries, R e.1 (f e.1) ∧ S e.2 (g e.2)) :
    m.copy = m.copyWith id id ∧
    ∃ m', m.copyWith f g = .ok m' ∧ m'.size = m.size ∧
      (∀ p, Option.Rel (fun n n' => R n.key n'.key ∧ S n.value n'.value)
        (m.nodeAt? p) (m'.nodeAt? p)) ∧
      ((∀ k k', R k k' → k = k') → (∀ v v', S v v' → v = v') → m' = m) ∧
      m.tree.nodesUpward.foldlM (Tree.buildNode f g) []
        = .ok (if m.tree.isEmpty then [] else [m'.tree]) ∧
      ∃ sites : List (Site κ ν), sites.map (·.node) = m.tree.nodesUpward ∧
        sites.Perm m.tree.sites ∧ Assembly f g sites [] (m.tree.rootSites []) := by
  rw [entries_eq] at h
  refine ⟨rfl, _, copyWith_eq f g m, rfl, ?_, ?_, ?_, m.tree.sitesUpwardFrom [], ?_, ?_, ?_⟩
  · intro p
    rw [nodeAt?, nodeAt?, Tree.nodeAt?_mapEntries]
    cases hn : m.tree.nodeAt? p with
    | none => exact .none
    | some n => exact .some (h _ (Tree.mem_inorder_of_nodeAt? hn))
  · intro hkeys hvalues
    have hsame : m.tree.mapEntries f g = m.tree := by
      apply Tree.mapEntries_eq_self
      intro e he
      exact ⟨(hkeys _ _ (h e he).1).symm, (hvalues _ _ (h e he).2).symm⟩
    rw [hsame]
  · rw [Tree.nodesUpward_eq, Tree.foldlM_buildNode, List.append_nil]
    rfl
  · rw [Tree.nodesUpward_eq, Tree.map_node_sitesUpwardFrom]
  · exact Tree.sitesUpwardFrom_perm [] m.tree
  · have hround := Tree.assembly_sitesUpwardFrom f g [] m.tree []
    rwa [List.append_nil] at hround

/-- Hours out of order, of which each is copied to the least number of the same hour.  The subtrees
on both sides of the root hold the same. -/
theorem copy_reproduces_tree_hours :
    let least : Hour → Hour := fun a => ⟨a.number.emod 7⟩
    let side : Tree Hour String := .node .empty ⟨9⟩ "a" (.leaf ⟨16⟩ "b")
    let m : Map Hour String compare := ⟨.node side ⟨-5⟩ "c" side, 5⟩
    let side' : Tree Hour String := .node .empty ⟨2⟩ "a" (.leaf ⟨2⟩ "b")
    (∀ e ∈ m.entries, (e.1 == least e.1) = true ∧ e.2 = id e.2) ∧
    ∃ m', m.copyWith least id = .ok m' ∧ m' = ⟨.node side' ⟨2⟩ "c" side', 5⟩ ∧
      (∀ p, Option.Rel (fun n n' => (n.key == n'.key) = true ∧ n.value = n'.value)
        (m.nodeAt? p) (m'.nodeAt? p)) ∧
      ∃ sites, sites.length = 5 ∧ Assembly least id sites [] [⟨[], ⟨⟨-5⟩, "c", side, side⟩⟩] := by
  intro least side m side'
  have h : ∀ e ∈ m.entries, (e.1 == least e.1) = true ∧ e.2 = id e.2 := by
    rw [entries_eq]
    decide
  obtain ⟨-, m', hm', -, hplaces, -, -, sites, -, hperm, hround⟩ :=
    copy_reproduces_tree (R := fun a b => (a == b) = true) (S := Eq) least id h
  have hcopy : m' = ⟨.node side' ⟨2⟩ "c" side', 5⟩ :=
    Except.ok.inj (hm'.symm.trans (copyWith_eq least id m))
  exact ⟨h, m', hm', hcopy, hplaces, sites, hperm.length_eq, hround⟩

end Map

end SearchTree
