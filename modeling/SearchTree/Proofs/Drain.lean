/-
# `SearchTree.Proofs.Drain` — emptying a map through its root

To drain a map is to delete by the key that is at the root, again and again.  If that
key matches the query made of it, the root is what goes, whatever else matches, and its
two subtrees are merged.  The order in which the entries come is then determined by the
tree alone (`drained`):

    no root               nothing
    nothing on the left   the root, and then what the right subtree gives
    otherwise             the root, the right subtree from left to right, and then what
                          the left subtree gives

In the last case each new root was the leftmost node on the right, so the right subtree
is used up before anything on the left moves.

One step is the equation `drained_node`: what a tree gives is its root, and then what
its merged subtrees give.  `Counted.drainRoot_eq` carries it along any number of steps.
-/
import SearchTree.Proofs.Conservation

namespace SearchTree

variable {κ ι ν : Type} {cmp : κ → κ → Ordering}

namespace Tree

/-- The entries in the order in which they come to the root. -/
def drained : Tree κ ν → List (κ × ν)
  | .empty => []
  | .node l k v r => (k, v) :: if l.isEmpty then r.drained else r.inorder ++ l.drained

/-- After the root come the entries of its merged subtrees. -/
theorem drained_node (l : Tree κ ν) (k : κ) (v : ν) (r : Tree κ ν) :
    (node l k v r).drained = (k, v) :: (merged l r).drained := by
  rw [drained, merged]
  by_cases hl : l = .empty
  · rw [if_pos (isEmpty_iff.mpr hl), if_pos (isEmpty_iff.mpr hl)]
  · have hempty : ¬ l.isEmpty = true := by simpa using hl
    rw [if_neg hempty, if_neg hempty]
    by_cases hr : r = .empty
    · subst hr
      rfl
    · -- The leftmost entry on the right is the next root, over the same left subtree.
      obtain ⟨e, he, hi⟩ := inorder_eq_leftmost_cons hr
      rw [he, hi]
      show _ = (k, v) :: drained (node l e.1 e.2 r.dropLeftmost)
      rw [drained, if_neg hempty]
      rfl

/-- The root is what comes next. -/
theorem head?_drained (t : Tree κ ν) : t.drained.head? = t.root?.map Node.entry := by
  cases t <;> rfl

/-- Every entry comes once. -/
theorem drained_perm (t : Tree κ ν) : t.drained.Perm t.inorder := by
  induction t with
  | empty => exact .nil
  | node l k v r ihl ihr =>
      rw [drained, inorder]
      refine List.Perm.trans (.cons _ ?_) List.perm_middle.symm
      by_cases hl : l = .empty
      · subst hl
        exact ihr
      · rw [if_neg (by simpa using hl)]
        exact (ihl.append_left r.inorder).trans List.perm_append_comm

theorem length_drained (t : Tree κ ν) : t.drained.length = t.size := by
  rw [t.drained_perm.length_eq, length_inorder]

end Tree

namespace Map

variable {m : Map κ ν cmp}

/-- A root that matches is what a deletion takes out. -/
theorem Counted.delete_root (hm : m.Counted) {q : Probe κ} {n : Node κ ν}
    (hn : m.root? = some n) (hq : q n.key = .eq) :
    (m.delete q).reply = .ok n.value ∧
      (m.delete q).map = ⟨Tree.merged n.left n.right, m.size - 1⟩ := by
  have hroot : m.tree.rootMatches q = true := Tree.rootMatches_iff.mpr ⟨n, hn, hq⟩
  obtain ⟨p, n', kind, hp, hn', -, -, -, hd⟩ :=
    hm.delete_of_contains (Tree.contains_of_rootMatches hroot)
  rw [Tree.target, if_pos hroot] at hp
  obtain rfl := Except.ok.inj hp
  rw [nodeAt?, Tree.nodeAt?_nil, ← root?, hn] at hn'
  obtain rfl := Option.some.inj hn'
  rw [hd, Tree.replaceAt_nil]
  exact ⟨rfl, rfl⟩

/-- What a map gives is its root, and then what it gives once the root is deleted. -/
theorem Counted.drained_delete_root (hm : m.Counted) {q : Probe κ} {n : Node κ ν}
    (hn : m.root? = some n) (hq : q n.key = .eq) :
    m.tree.drained = n.entry :: (m.delete q).map.tree.drained := by
  have htree : m.tree = n.toTree := Tree.root?_eq_some_iff.mp hn
  rw [(hm.delete_root hn hq).2, htree]
  exact Tree.drained_node n.left n.key n.value n.right

theorem eq_empty (hroot : m.root? = none) (hsize : m.size = 0) : m = empty := by
  obtain ⟨t, s⟩ := m
  cases t with
  | empty =>
      obtain rfl : s = 0 := hsize
      rfl
  | node l k v r => exact nomatch hroot

variable {query : κ → Probe κ}

theorem drainRoot_of_root {n : Node κ ν} (hn : m.root? = some n) (i : Nat) :
    m.drainRoot query (i + 1) =
      (m.delete (query n.key)).andThen fun answer m' =>
        (m'.drainRoot query i).mapReply ((n.key, answer) :: ·) := by
  rw [drainRoot, hn]

/-- After `i` steps the first `i` entries have come, each with its value, and what is left gives the
others. -/
theorem Counted.drainRoot_eq (hm : m.Counted) (hself : ∀ e ∈ m.entries, query e.1 e.1 = .eq)
    (i : Nat) :
    (m.drainRoot query i).reply = (m.tree.drained.take i).map (fun e => (e.1, .ok e.2)) ∧
      (m.drainRoot query i).map.Counted ∧
      (m.drainRoot query i).map.tree.drained = m.tree.drained.drop i := by
  induction i generalizing m with
  | zero => exact ⟨rfl, hm, rfl⟩
  | succ i ih =>
      cases hroot : m.root? with
      | none =>
          have hnil : m.tree.drained = [] := by
            rw [← List.head?_eq_none_iff, Tree.head?_drained, ← root?, hroot]
            rfl
          rw [drainRoot, hroot, hnil]
          exact ⟨rfl, hm, rfl⟩
      | some n =>
          have hmem : n.entry ∈ m.entries := by
            rw [entries_eq]
            exact Tree.mem_inorder_of_nodeAt? ((Tree.nodeAt?_nil m.tree).trans hroot)
          have hq : query n.key n.key = .eq := hself n.entry hmem
          -- The entries that are left were there before, so they match their queries too.
          have hself' : ∀ e ∈ (m.delete (query n.key)).map.entries, query e.1 e.1 = .eq := by
            intro e he
            exact hself e ((hm.entries_delete_sublist _).subset he)
          obtain ⟨hreplies, hcounted, hrest⟩ := ih (hm.delete (query n.key)) hself'
          rw [drainRoot_of_root hroot, hm.drained_delete_root hroot hq]
          refine ⟨?_, hcounted, hrest⟩
          show (n.key, (m.delete (query n.key)).reply) :: _ = _
          rw [(hm.delete_root hroot hq).1, hreplies]
          rfl

/-- The map after `i` steps. -/
structure DrainedBy (query : κ → Probe κ) (m : Map κ ν cmp) (i : Nat) : Prop where
  /-- The first `i` entries have come, each with its value. -/
  replies : (m.drainRoot query i).reply = (m.tree.drained.take i).map fun e => (e.1, .ok e.2)
  /-- The next one is at the root. -/
  root : (m.drainRoot query i).map.root?.map Node.entry = m.tree.drained[i]?
  /-- Those that have not come yet are left. -/
  rest : (m.drainRoot query i).map.entries.Perm (m.tree.drained.drop i)
  size : (m.drainRoot query i).map.size = m.size - i
  /-- A root is there as long as an entry is left. -/
  ended : (m.drainRoot query i).map.root? = none ↔ m.size ≤ i

theorem Counted.length_drained (hm : m.Counted) : m.tree.drained.length = m.size := by
  rw [Tree.length_drained, hm]

theorem Counted.drainedBy (hm : m.Counted) (hself : ∀ e ∈ m.entries, query e.1 e.1 = .eq)
    (i : Nat) : m.DrainedBy query i := by
  obtain ⟨hreply, hcounted, hrest⟩ := hm.drainRoot_eq hself i
  have hroot : (m.drainRoot query i).map.root?.map Node.entry = m.tree.drained[i]? := by
    rw [root?, ← Tree.head?_drained, hrest, List.head?_drop]
  constructor
  case replies => exact hreply
  case root => exact hroot
  case rest =>
    rw [entries_eq, ← hrest]
    exact (Tree.drained_perm _).symm
  case size => rw [← hcounted.length_drained, hrest, List.length_drop, hm.length_drained]
  case ended =>
    rw [← Option.map_eq_none_iff (f := Node.entry), hroot, List.getElem?_eq_none_iff,
      hm.length_drained]

/-- Let each key that is stored match the query made of it, whatever else that query matches.  Then
a map is drained through its root in as many steps as it has entries, and no step fails.  The
entries come in the order `drained`, each once, as the root that it is then and with its value;
after any number of steps the map holds those that have not come yet. -/
theorem drain_takes_each_once {view : ι → Probe κ} (hm : Reachable view m)
    (hself : ∀ e ∈ m.entries, query e.1 e.1 = .eq) :
    (∀ i, m.DrainedBy query i) ∧
    (m.drainRoot query m.size).reply = m.tree.drained.map (fun e => (e.1, .ok e.2)) ∧
    (m.drainRoot query m.size).map = empty ∧
    m.tree.drained.length = m.size ∧ m.tree.drained.Perm m.entries := by
  have hlength := hm.counted.length_drained
  have hend := hm.counted.drainedBy hself m.size
  refine ⟨hm.counted.drainedBy hself, ?_, ?_, hlength, ?_⟩
  · rw [hend.replies, ← hlength, List.take_length]
  · exact eq_empty (hend.ended.mpr (Nat.le_refl _)) (hend.size.trans (Nat.sub_self _))
  · rw [entries_eq]
    exact m.tree.drained_perm

/-- Keys by remainder modulo five.  The query of the root 52 matches 12, 32 and 72 besides, but each
time it is the root that goes.  On the right 60 is put in its place first, then 72 and 75. -/
theorem drain_takes_each_once_byResidue :
    let m : Map Int String compare :=
      (empty.run Probe.byResidue [.insert 50 "a", .insert 12 "b", .insert 75 "c", .insert 52 "d",
        .insert 60 "e", .insert 72 "f", .insert 32 "g", .delete 5]).map
    Reachable Probe.byResidue m ∧ (∀ e ∈ m.entries, Probe.byResidue e.1 e.1 = .eq) ∧
    (m.drainRoot Probe.byResidue 6).reply
      = [(52, .ok "d"), (60, .ok "e"), (72, .ok "f"), (75, .ok "c"), (12, .ok "b"),
          (32, .ok "g")] ∧
    (m.drainRoot Probe.byResidue 6).map = empty := by
  intro m
  have hm : Reachable Probe.byResidue m := ⟨_, rfl⟩
  have hself : ∀ e ∈ m.entries, Probe.byResidue e.1 e.1 = .eq := by
    intro e _
    exact Std.ReflOrd.compare_self
  obtain ⟨-, hreply, hempty, -⟩ := drain_takes_each_once hm hself
  have hsize : m.size = 6 := by decide +kernel
  have hdrained : m.tree.drained
      = [(52, "d"), (60, "e"), (72, "f"), (75, "c"), (12, "b"), (32, "g")] := by decide +kernel
  rw [hsize] at hreply hempty
  rw [hdrained] at hreply
  exact ⟨hm, hself, hreply, hempty⟩

end Map

end SearchTree
