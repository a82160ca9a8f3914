/-
# `SearchTree.Proofs.Checks` — what the steps check, and that no check ever fails

Some steps rely on what they find, and check it (`Check`):

    firstRoot   a root comes into the empty slot at the top: nothing was counted
    noRoot      a map is asked whether it is empty: it has no root if it counts nothing
    freeSide    a leaf is hung on a side: that side is free
    onlyChild   a node is spliced out, the target of a deletion or the leftmost node
                on its right: it has one child at most
    childless   a node is given subtrees: it has none
    lastCopy    a tree has been built anew: one copy at most is left
    counted     the count goes down: it is not zero

`Map.checks view c m` lists the checks that a command comes to on its way through the
map, in their order.  `fault?_perform` ties the list to the commands as they run: on any
map, however wrong its count, the fault that is answered is that of the first check that
fails.

Four kinds of check hold of every tree.  Either the step before has asked (is there a
child on that side? are there two?), or it has seen to it (a new node has no children, and
the copies are taken off the stack until the root's is left).  The other three are about
the count, and hold as long as it is right (`Counted`).  So the statement is about all
maps that can be made (`Made`): by any commands, each with queries of an order of its own,
and by copies that need not keep keys or values as they were.  No law of any comparison is
used.
-/
import SearchTree.Proofs.Assembly

namespace SearchTree

variable {κ ι ν κ' ν' : Type} {cmp : κ → κ → Ordering}

/-- What a step relies on, with what it finds. -/
inductive Check (κ ν : Type) where
  | firstRoot (size : Nat)
  | noRoot (size : Nat) (tree : Tree κ ν)
  | freeSide (node : Node κ ν) (side : Side)
  | onlyChild (node : Node κ ν)
  | childless (node : Node κ ν)
  | lastCopy (copies : List (Tree κ ν))
  | counted (size : Nat)
  deriving DecidableEq, Repr

namespace Check

/-- Whether the step finds what it relies on. -/
def passes : Check κ ν → Bool
  | .firstRoot size => size == 0
  | .noRoot size tree => size != 0 || tree.isEmpty
  | .freeSide node side => (node.subtree side).isEmpty
  | .onlyChild node => !(node.hasLeft && node.hasRight)
  | .childless node => node.isLeaf
  | .lastCopy copies => copies.length ≤ 1
  | .counted size => 1 ≤ size

/-- The fault that the step answers with if it does not. -/
def fault : Check κ ν → Fault
  | .firstRoot _ => .countWithoutRoot
  | .noRoot .. => .rootWithoutCount
  | .freeSide .. => .slotTaken
  | .onlyChild _ => .twoChildren
  | .childless _ => .notALeaf
  | .lastCopy _ => .strayCopies
  | .counted _ => .countExhausted

end Check

/-! ## Faults, of checks and of answers -/

/-- The fault of the first check that fails. -/
def firstFault (checks : List (Check κ ν)) : Option Fault :=
  checks.findSome? fun c => if c.passes then none else some c.fault

theorem firstFault_append (checks checks' : List (Check κ ν)) :
    firstFault (checks ++ checks') = (firstFault checks).or (firstFault checks') :=
  List.findSome?_append

theorem firstFault_eq_none {checks : List (Check κ ν)} (h : ∀ c ∈ checks, c.passes = true) :
    firstFault checks = none := by
  apply List.findSome?_eq_none_iff.mpr
  intro c hc
  rw [if_pos (h c hc)]

/-- The fault, if the error is the map's own. -/
def Error.fault? : Error → Option Fault
  | .broken f => some f
  | .duplicateKey | .keyNotFound => none

/-- The fault that an answer tells of. -/
def faultOf {α : Type} : Except Error α → Option Fault
  | .ok _ => none
  | .error e => e.fault?

@[simp] theorem faultOf_map {α β : Type} (g : α → β) (answer : Except Error α) :
    faultOf (answer.map g) = faultOf answer := by
  cases answer <;> rfl

namespace Reply

/-- The fault that a reply tells of. -/
def fault? (reply : Reply κ ν) : Option Fault := reply.error?.bind Error.fault?

theorem fault?_ofInserted (answer : Except Error Unit) :
    (ofInserted answer : Reply κ ν).fault? = faultOf answer := by
  cases answer <;> rfl

theorem fault?_ofDeleted (answer : Except Error ν) :
    (ofDeleted answer : Reply κ ν).fault? = faultOf answer := by
  cases answer <;> rfl

theorem fault?_ofEmptiness (answer : Except Error Bool) :
    (ofEmptiness answer : Reply κ ν).fault? = faultOf answer := by
  cases answer <;> rfl

end Reply

/-! ## The checks on the way through a tree -/

namespace Tree

/-- The checks of an insertion: the descent looks whether the side that it is sent to is free, and
hangs the leaf there if so. -/
def insertChecks (cmp : κ → κ → Ordering) (key : κ) : Tree κ ν → List (Check κ ν)
  | .empty => []
  | .node l k v r =>
      match cmp key k with
      | .lt => if l.isEmpty then [.freeSide ⟨k, v, l, r⟩ .left] else l.insertChecks cmp key
      | .gt => if r.isEmpty then [.freeSide ⟨k, v, l, r⟩ .right] else r.insertChecks cmp key
      | .eq => []

/-- The checks of taking out the leftmost node, which is spliced out. -/
def detachChecks : Tree κ ν → List (Check κ ν)
  | .empty => []
  | .node l k v r => if l.isEmpty then [.onlyChild ⟨k, v, l, r⟩] else l.detachChecks

end Tree

/-- The checks of taking a node out: with two children it gives way to the leftmost node on its
right, and else it is spliced out itself. -/
def Node.removalChecks (n : Node κ ν) : List (Check κ ν) :=
  if n.hasLeft && n.hasRight then n.right.detachChecks else [.onlyChild n]

namespace Tree

/-- The checks of taking out the target of a query. -/
def removalChecks (q : Probe κ) (t : Tree κ ν) : List (Check κ ν) :=
  match t.target q with
  | .error _ => []
  | .ok p => ((t.nodeAt? p).map Node.removalChecks).getD []

/-- The check on the copy of a node, which is new when it is given the copies of the children. -/
def copyCheck (f : κ → κ') (g : ν → ν') (n : Node κ ν) : Check κ' ν' :=
  .childless ⟨f n.key, g n.value, .empty, .empty⟩

/-- The checks of building a tree anew: those on all its nodes, and at the end that on the stack of
the finished copies. -/
def copyChecks (f : κ → κ') (g : ν → ν') (t : Tree κ ν) : List (Check κ' ν') :=
  t.nodesUpward.map (copyCheck f g) ++
    match t.nodesUpward.foldlM (buildNode f g) [] with
    | .error _ => []
    | .ok built => [.lastCopy built]

/-! ### The steps answer with the fault of their checks -/

theorem faultOf_hangLeft (n : Node κ ν) (new : Tree κ ν) :
    faultOf (n.toTree.hangLeft new) = firstFault [.freeSide n .left] := by
  obtain ⟨k, v, l, r⟩ := n
  cases l <;> rfl

theorem faultOf_hangRight (n : Node κ ν) (new : Tree κ ν) :
    faultOf (n.toTree.hangRight new) = firstFault [.freeSide n .right] := by
  obtain ⟨k, v, l, r⟩ := n
  cases r <;> rfl

theorem faultOf_insert (cmp : κ → κ → Ordering) (key : κ) (value : ν) (t : Tree κ ν) :
    faultOf (t.insert cmp key value) = firstFault (t.insertChecks cmp key) := by
  induction t with
  | empty => rfl
  | node l k v r ihl ihr =>
      rw [insert, insertChecks]
      -- Where the side is taken, answer and checks are those of the subtree there.
      cases cmp key k with
      | lt =>
          cases hl : l.isEmpty with
          | true => exact faultOf_hangLeft ⟨k, v, l, r⟩ _
          | false => exact (faultOf_map _ _).trans ihl
      | gt =>
          cases hr : r.isEmpty with
          | true => exact faultOf_hangRight ⟨k, v, l, r⟩ _
          | false => exact (faultOf_map _ _).trans ihr
      | eq => rfl

theorem faultOf_spliceRoot (n : Node κ ν) :
    faultOf n.toTree.spliceRoot = firstFault [.onlyChild n] := by
  obtain ⟨k, v, l, r⟩ := n
  cases l <;> cases r <;> rfl

theorem faultOf_detachLeftmost {t : Tree κ ν} (h : t ≠ .empty) :
    faultOf t.detachLeftmost = firstFault t.detachChecks := by
  induction t with
  | empty => exact absurd rfl h
  | node l k v r ihl _ =>
      rw [detachLeftmost, detachChecks]
      cases hl : l.isEmpty with
      | true => exact (faultOf_map _ _).trans (faultOf_spliceRoot ⟨k, v, l, r⟩)
      | false => exact (faultOf_map _ _).trans (ihl (isEmpty_eq_false_iff.mp hl))

theorem faultOf_removeRoot (n : Node κ ν) :
    faultOf n.toTree.removeRoot.answer = firstFault n.removalChecks := by
  rw [Node.toTree, removeRoot, Node.removalChecks]
  cases htwo : n.hasLeft && n.hasRight with
  | true =>
      have hright : n.right ≠ .empty := by
        rw [Bool.and_eq_true, Node.hasRight, Bool.not_eq_true'] at htwo
        exact isEmpty_eq_false_iff.mp htwo.2
      exact (faultOf_map _ _).trans (faultOf_detachLeftmost hright)
  | false => exact (faultOf_map _ _).trans (faultOf_spliceRoot n)

/-- Once the descent has met a match, only the checks on its target stand in the way. -/
theorem faultOf_delete {q : Probe κ} {t : Tree κ ν} (h : t.contains q = true) :
    faultOf (t.delete q).answer = firstFault (t.removalChecks q) := by
  obtain ⟨p, n, hp, hn, -⟩ := target_of_contains h
  have hsub := nodeAt?_eq_some_iff.mp hn
  simp only [delete, h, if_true, hp, removeAt, hsub, Reported.map, faultOf_map, removalChecks, hn,
    Option.map_some, Option.getD_some]
  exact faultOf_removeRoot n

theorem faultOf_adopt (n : Node κ ν) (l r : Tree κ ν) :
    faultOf (n.toTree.adopt l r) = firstFault [.childless n] := by
  obtain ⟨k, v, nl, nr⟩ := n
  cases nl <;> cases nr <;> rfl

/-- With the copies of its children on top of the stack, only the check on a node's own copy stands
in the way. -/
theorem faultOf_buildNode (f : κ → κ') (g : ν → ν') (n : Node κ ν) (built : List (Tree κ' ν')) :
    faultOf (buildNode f g (copyStack f g n.right ++ (copyStack f g n.left ++ built)) n)
      = firstFault [copyCheck f g n] := by
  have hadopt := faultOf_adopt ⟨f n.key, g n.value, .empty, .empty⟩ (n.left.mapEntries f g)
    (n.right.mapEntries f g)
  simp only [buildNode, Node.hasRight, Node.hasLeft, takeCopy_copyStack, bind, Except.bind]
  exact (faultOf_map (· :: built) _).trans hadopt

theorem faultOf_foldlM_buildNode (f : κ → κ') (g : ν → ν') (t : Tree κ ν)
    (built : List (Tree κ' ν')) :
    faultOf (t.upward.foldlM (buildNode f g) built)
      = firstFault (t.upward.map (copyCheck f g)) := by
  induction t generalizing built with
  | empty => rfl
  | node l k v r ihl ihr =>
      -- The rounds over the subtrees go through, and leave their copies for the node.
      have hl := ihl built
      have hr := ihr (copyStack f g l ++ built)
      rw [foldlM_buildNode] at hl hr
      rw [upward, List.map_append, List.map_append, firstFault_append, firstFault_append, ← hl,
        ← hr, List.foldlM_append, foldlM_buildNode]
      show faultOf ((r.upward ++ [_]).foldlM (buildNode f g) (copyStack f g l ++ built)) = _
      rw [List.foldlM_append, foldlM_buildNode]
      show faultOf ([_].foldlM (buildNode f g) (copyStack f g r ++ (copyStack f g l ++ built))) = _
      simp only [List.foldlM_cons, List.foldlM_nil, bind_pure]
      exact faultOf_buildNode f g ⟨k, v, l, r⟩ built

theorem faultOf_onlyCopy (built : List (Tree κ ν)) :
    faultOf (onlyCopy built) = firstFault [.lastCopy built] := by
  match built with
  | [] => rfl
  | [_] => rfl
  | _ :: _ :: _ => rfl

theorem copyChecks_eq (f : κ → κ') (g : ν → ν') (t : Tree κ ν) :
    t.copyChecks f g = t.upward.map (copyCheck f g) ++ [.lastCopy (copyStack f g t)] := by
  rw [copyChecks, nodesUpward_eq, foldlM_buildNode, List.append_nil]

theorem faultOf_copyWith (f : κ → κ') (g : ν → ν') (t : Tree κ ν) :
    faultOf (t.copyWith f g) = firstFault (t.copyChecks f g) := by
  rw [copyChecks_eq, firstFault_append, ← faultOf_foldlM_buildNode f g t [], foldlM_buildNode,
    ← faultOf_onlyCopy, copyWith, nodesUpward_eq, foldlM_buildNode, List.append_nil]
  rfl

/-! ### Checks that pass on every tree -/

theorem insertChecks_pass (cmp : κ → κ → Ordering) (key : κ) (t : Tree κ ν) :
    ∀ c ∈ t.insertChecks cmp key, c.passes = true := by
  induction t with
  | empty => exact List.forall_mem_nil _
  | node l k v r ihl ihr =>
      rw [insertChecks]
      cases cmp key k with
      | lt =>
          cases hl : l.isEmpty with
          | true => simpa [Check.passes, Node.subtree] using hl
          | false => exact ihl
      | gt =>
          cases hr : r.isEmpty with
          | true => simpa [Check.passes, Node.subtree] using hr
          | false => exact ihr
      | eq => exact List.forall_mem_nil _

/-- The leftmost node has no left child, so it has one child at most. -/
theorem detachChecks_pass (t : Tree κ ν) : ∀ c ∈ t.detachChecks, c.passes = true := by
  induction t with
  | empty => exact List.forall_mem_nil _
  | node l k v r ihl _ =>
      rw [detachChecks]
      cases hl : l.isEmpty with
      | true => simp [Check.passes, Node.hasLeft, hl]
      | false => exact ihl

end Tree

/-- The node that is spliced out is the target only if it does not have two children. -/
theorem Node.removalChecks_pass (n : Node κ ν) : ∀ c ∈ n.removalChecks, c.passes = true := by
  rw [removalChecks]
  cases htwo : n.hasLeft && n.hasRight with
  | true => exact n.right.detachChecks_pass
  | false =>
      rw [if_neg Bool.false_ne_true, List.forall_mem_singleton, Check.passes, htwo]
      rfl

namespace Tree

theorem removalChecks_pass (q : Probe κ) (t : Tree κ ν) :
    ∀ c ∈ t.removalChecks q, c.passes = true := by
  rw [removalChecks]
  cases t.target q with
  | error e => exact List.forall_mem_nil _
  | ok p =>
      cases hn : t.nodeAt? p with
      | none => simp [hn]
      | some n => simpa [hn] using n.removalChecks_pass

theorem map_copyCheck_pass (f : κ → κ') (g : ν → ν') (nodes : List (Node κ ν)) :
    ∀ c ∈ nodes.map (copyCheck f g), c.passes = true := by
  intro c hc
  obtain ⟨n, -, rfl⟩ := List.mem_map.mp hc
  rfl

theorem copyChecks_pass (f : κ → κ') (g : ν → ν') (t : Tree κ ν) :
    ∀ c ∈ t.copyChecks f g, c.passes = true := by
  rw [copyChecks_eq, List.forall_mem_append, List.forall_mem_singleton]
  refine ⟨map_copyCheck_pass f g t.upward, ?_⟩
  cases t <;> rfl

end Tree

namespace Map

/-! ## The checks of a command -/

/-- The checks of an insertion. -/
def insertChecks (key : κ) (m : Map κ ν cmp) : List (Check κ ν) :=
  if m.tree.isEmpty then [.firstRoot m.size] else m.tree.insertChecks cmp key

/-- The checks of a deletion: none if the descent meets no match. -/
def deleteChecks (q : Probe κ) (m : Map κ ν cmp) : List (Check κ ν) :=
  if m.contains q then m.tree.removalChecks q ++ [.counted m.size] else []

/-- The checks of an insertion of every item in turn. -/
def extendChecks : List (κ × ν) → Map κ ν cmp → List (Check κ ν)
  | [], _ => []
  | (k, v) :: items, m => m.insertChecks k ++ extendChecks items (m.insert k v).map

/-- The checks that a command comes to, the first one first. -/
def checks (view : ι → Probe κ) : Command κ ι ν → Map κ ν cmp → List (Check κ ν)
  | .insert k _, m => m.insertChecks k
  | .delete q, m => m.deleteChecks (view q)
  | .extend items, m => m.extendChecks items
  | .copy, m => m.tree.copyChecks id id
  | .isEmpty, m => [.noRoot m.size m.tree]
  | .overwrite .., _ | .clear, _ | .get _, _ | .find _, _ | .contains _, _ | .search _, _
  | .size, _ | .entries, _ => []

variable {m : Map κ ν cmp}

theorem faultOf_insert (m : Map κ ν cmp) (k : κ) (v : ν) :
    faultOf (m.insert k v).reply = firstFault (m.insertChecks k) := by
  obtain ⟨t, size⟩ := m
  cases t with
  | empty => cases size <;> rfl
  | node l k' v' r =>
      rw [insertChecks, if_neg (by simp [Tree.isEmpty]), ← Tree.faultOf_insert cmp k v, insert,
        if_neg (by simp [Tree.isEmpty])]
      cases (Tree.node l k' v' r).insert cmp k v <;> rfl

theorem faultOf_delete (m : Map κ ν cmp) (q : Probe κ) :
    faultOf (m.delete q).reply = firstFault (m.deleteChecks q) := by
  cases hc : m.contains q with
  | false =>
      rw [delete_of_not_contains hc, deleteChecks, hc]
      rfl
  | true =>
      obtain ⟨p, n, kind, -, -, -, -, hd⟩ := Tree.delete_of_contains hc
      -- The removal itself goes through, so what is left is the count.
      have hremoval : firstFault (m.tree.removalChecks q) = none := by
        rw [← Tree.faultOf_delete hc, hd]
        rfl
      rw [deleteChecks, if_pos hc, firstFault_append, hremoval, Option.none_or, delete, hd]
      simp only [Outcome.andThen]
      cases m.size <;> rfl

/-- An extension stops at the first fault. -/
theorem faultOf_extend (m : Map κ ν cmp) (items : List (κ × ν)) :
    faultOf (m.extend items).reply = firstFault (m.extendChecks items) := by
  induction items generalizing m with
  | nil => rfl
  | cons e items ih =>
      obtain ⟨k, v⟩ := e
      rw [extend, extendChecks, firstFault_append, ← faultOf_insert m k v, ← ih]
      cases hreply : (m.insert k v).reply with
      | ok _ => simp [Outcome.andThen, hreply, faultOf]
      | error e => cases e <;> simp [Outcome.andThen, hreply, faultOf, Error.fault?]

theorem faultOf_isEmpty (m : Map κ ν cmp) :
    faultOf m.isEmpty = firstFault [.noRoot m.size m.tree] := by
  obtain ⟨t, size⟩ := m
  cases size <;> cases t <;> rfl

theorem fault?_recopy (m : Map κ ν cmp) :
    m.recopy.reply.fault? = firstFault (m.tree.copyChecks id id) := by
  rw [recopy, copy, copyWith, ← Tree.faultOf_copyWith]
  cases m.tree.copyWith id id <;> rfl

/-- On any map, a command answers with the fault of the first of its checks that fails, and with no
fault if all pass. -/
theorem fault?_perform (view : ι → Probe κ) (c : Command κ ι ν) (m : Map κ ν cmp) :
    (m.perform view c).reply.fault? = firstFault (m.checks view c) := by
  cases c with
  | insert k v => exact (Reply.fault?_ofInserted _).trans (m.faultOf_insert k v)
  | delete q => exact (Reply.fault?_ofDeleted _).trans (m.faultOf_delete (view q))
  | extend items => exact (Reply.fault?_ofInserted _).trans (m.faultOf_extend items)
  | copy => exact m.fault?_recopy
  | isEmpty => exact (Reply.fault?_ofEmptiness _).trans m.faultOf_isEmpty
  | overwrite | clear | get | find | contains | search | size | entries => rfl

/-- A map that counts two entries and has none. -/
example : ((⟨.empty, 2⟩ : Map Int String compare).perform compare (.insert 1 "a")).reply.fault?
    = some .countWithoutRoot := rfl

/-! ## Maps whose count is right -/

theorem Counted.insertChecks_pass (hm : m.Counted) (k : κ) :
    ∀ c ∈ m.insertChecks k, c.passes = true := by
  rw [insertChecks]
  split
  · next hempty =>
      rw [List.forall_mem_singleton, Check.passes, hm.size_eq_zero_iff.mpr hempty]
      rfl
  · exact m.tree.insertChecks_pass cmp k

theorem Counted.deleteChecks_pass (hm : m.Counted) (q : Probe κ) :
    ∀ c ∈ m.deleteChecks q, c.passes = true := by
  rw [deleteChecks]
  split
  · next hc =>
      obtain ⟨-, -, -, -, -, -, -, hpos, -⟩ := hm.delete_of_contains hc
      rw [List.forall_mem_append, List.forall_mem_singleton]
      exact ⟨m.tree.removalChecks_pass q, decide_eq_true hpos⟩
  · exact List.forall_mem_nil _

theorem Counted.extendChecks_pass (hm : m.Counted) (items : List (κ × ν)) :
    ∀ c ∈ m.extendChecks items, c.passes = true := by
  induction items generalizing m with
  | nil => exact List.forall_mem_nil _
  | cons e items ih =>
      rw [extendChecks, List.forall_mem_append]
      exact ⟨hm.insertChecks_pass e.1, ih (hm.insert e.1 e.2)⟩

theorem Counted.checks_pass (hm : m.Counted) (view : ι → Probe κ) (c : Command κ ι ν) :
    ∀ check ∈ m.checks view c, check.passes = true := by
  cases c with
  | insert k _ => exact hm.insertChecks_pass k
  | delete q => exact hm.deleteChecks_pass (view q)
  | extend items => exact hm.extendChecks_pass items
  | copy => exact m.tree.copyChecks_pass id id
  | isEmpty =>
      rw [checks, List.forall_mem_singleton, Check.passes, Bool.or_eq_true, bne_iff_ne]
      exact (Decidable.em (m.size = 0)).symm.imp_right hm.size_eq_zero_iff.mp
  | overwrite | clear | get | find | contains | search | size | entries =>
      exact List.forall_mem_nil _

/-! ## All maps that can be made -/

/-- The maps that are made out of the empty one, by commands and by copies.  Each command may bring
queries of a kind of its own, and a copy may put any keys and values in the place of those it
copies. -/
inductive Made : Map κ ν cmp → Prop where
  | empty : Made .empty
  | performed {ι : Type} {m : Map κ ν cmp} (view : ι → Probe κ) (c : Command κ ι ν) :
      Made m → Made (m.perform view c).map
  | copied {m m' : Map κ ν cmp} (f : κ → κ) (g : ν → ν) :
      Made m → m.copyWith f g = .ok m' → Made m'

/-- A history is one way to make a map. -/
theorem Reachable.made {view : ι → Probe κ} (hm : Reachable view m) : m.Made :=
  hm.induct .empty fun _ c h => h.performed view c

theorem Made.counted (hm : m.Made) : m.Counted := by
  induction hm with
  | empty => exact counted_empty
  | performed view c _ ih => exact ih.perform view c
  | copied f g _ hcopy ih =>
      rw [copyWith_eq] at hcopy
      obtain rfl := Except.ok.inj hcopy
      exact ih.trans (Tree.size_mapEntries f g _).symm

/-- The checks of a command are those by which it comes to a fault, on any map whatever.  On a map
that can be made each of them passes, so no command answers with a fault; nor does a copy, whatever
it does to keys and values. -/
theorem no_check_fails (hm : m.Made) :
    (∀ {ι : Type} (view : ι → Probe κ) (c : Command κ ι ν),
      (∀ m' : Map κ ν cmp,
        (m'.perform view c).reply.fault? = firstFault (m'.checks view c)) ∧
      (∀ check ∈ m.checks view c, check.passes = true) ∧
      (m.perform view c).reply.fault? = none) ∧
    ∀ (f : κ → κ) (g : ν → ν),
      (∀ check ∈ m.tree.copyChecks f g, check.passes = true) ∧
      ∃ m', m.copyWith f g = .ok m' := by
  constructor
  · intro ι view c
    have hpass := hm.counted.checks_pass view c
    refine ⟨fault?_perform view c, hpass, ?_⟩
    rw [fault?_perform, firstFault_eq_none hpass]
  · intro f g
    exact ⟨m.tree.copyChecks_pass f g, _, copyWith_eq f g m⟩

/-- Hours out of order, copied so that each is the same.  The root then goes, by a query that all
keys match: the leftmost node on its right has one child, and is spliced out. -/
theorem no_check_fails_hours :
    let m : Map Hour String compare :=
      (empty.run compare [.insert (Hour.mk 0) "a", .insert ⟨5⟩ "b", .insert ⟨3⟩ "c",
        .insert ⟨1⟩ "d", .insert ⟨2⟩ "e"]).map
    let c : Command Hour Hour String := .delete ⟨7⟩
    ∃ m', m.copyWith (fun _ => ⟨0⟩) id = .ok m' ∧ m'.Made ∧
      m'.checks compare c = [.onlyChild ⟨⟨0⟩, "d", .empty, .leaf ⟨0⟩ "e"⟩, .counted 5] ∧
      (∀ check ∈ m'.checks compare c, check.passes = true) ∧
      (m'.perform compare c).reply.fault? = none ∧ ∃ m'', m'.copyWith id id = .ok m'' := by
  intro m c
  have hm : m.Made := Reachable.made ⟨_, rfl⟩
  have hcopy := copyWith_eq (fun _ => (⟨0⟩ : Hour)) id m
  have hm' := hm.copied _ _ hcopy
  obtain ⟨hcommands, hcopies⟩ := no_check_fails hm'
  obtain ⟨-, hpass, hreply⟩ := hcommands compare c
  exact ⟨_, hcopy, hm', rfl, hpass, hreply, (hcopies id id).2⟩

end Map

end SearchTree
