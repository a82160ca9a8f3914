/-
# `SearchTree.Proofs.Log` — what the events say about the map

`Report view c r m m' es` says which events a command may report, when it answers
`r` and turns the map `m` into `m'`:

    insert      one event: of a new root if the tree was empty, of a new key if it
                was not, or of a refusal
    delete      one event of a refusal, or two: how many children the target had,
                and that it is gone
    extend      the events of its insertions, one after the other
    otherwise   none

Every size in an event is that of `m'`.  No law of a comparison is assumed, neither of
the order of the tree nor of the queries.

A log is what the commands of a history report, one after the other (`Logged`).  The
growth of its events adds up.  So each size that it tells is the size at the beginning
plus the growth up to that event (`Event.Tells`), and the size after any command can be
read off the log up to there.
-/
import SearchTree.Proofs.Conservation

namespace SearchTree

variable {κ ι ν : Type} {cmp : κ → κ → Ordering}

/-! ## Logs and the sizes they tell -/

namespace Event

/-- By how much all changes of a log make the map larger. -/
def netGrowth : List Event → Int
  | [] => 0
  | e :: log => e.growth + netGrowth log

@[simp] theorem netGrowth_nil : netGrowth [] = 0 := rfl

@[simp] theorem netGrowth_cons (e : Event) (log : List Event) :
    netGrowth (e :: log) = e.growth + netGrowth log := rfl

@[simp] theorem netGrowth_append (log log' : List Event) :
    netGrowth (log ++ log') = netGrowth log + netGrowth log' := by
  induction log with
  | nil => simp
  | cons e log ih => rw [List.cons_append, netGrowth_cons, netGrowth_cons, ih, Int.add_assoc]

/-- Every size in the log is `n` with the growth up to its event. -/
def Tells (n : Int) : List Event → Prop
  | [] => True
  | e :: log => (∀ s, e.size? = some s → (s : Int) = n + e.growth) ∧ Tells (n + e.growth) log

theorem tells_append {n : Int} {log log' : List Event} :
    Tells n (log ++ log') ↔ Tells n log ∧ Tells (n + netGrowth log) log' := by
  induction log generalizing n with
  | nil => simp [Tells]
  | cons e log ih => simp [Tells, ih, and_assoc, Int.add_assoc]

theorem Tells.size_eq {n : Int} {log : List Event} (h : Tells n log) {i : Nat} {e : Event}
    {s : Nat} (he : log[i]? = some e) (hs : e.size? = some s) :
    (s : Int) = n + netGrowth (log.take (i + 1)) := by
  induction log generalizing n i with
  | nil => simp at he
  | cons e' log ih =>
      obtain ⟨hhead, htail⟩ := h
      cases i with
      | zero =>
          obtain rfl : e' = e := by simpa using he
          simpa using hhead s hs
      | succ i =>
          rw [List.getElem?_cons_succ] at he
          rw [List.take_succ_cons, netGrowth_cons, ih htail he, Int.add_assoc]

end Event

/-! ## What each command reports -/

/-- The events of one command, from the map before it and the map after it. -/
inductive Report (view : ι → Probe κ) :
    Command κ ι ν → Reply κ ν → Map κ ν cmp → Map κ ν cmp → List Event → Prop where
  | insertedRoot {m m' : Map κ ν cmp} {k : κ} {v : ν} : m.tree = .empty → m'.size = m.size + 1 →
      Report view (.insert k v) .done m m' [.insertedRoot m'.size]
  | insertedKey {m m' : Map κ ν cmp} {k : κ} {v : ν} : m.tree ≠ .empty →
      m.contains (cmp k) = false → m'.size = m.size + 1 →
      Report view (.insert k v) .done m m' [.insertedKey m'.size]
  | duplicate {m : Map κ ν cmp} {k : κ} {v : ν} : m.contains (cmp k) = true →
      Report view (.insert k v) (.failed .duplicateKey) m m [.insertRejected m.size]
  | removed {m m' : Map κ ν cmp} {q : ι} {p : Path} {n : Node κ ν} {kind : RemovalCase}
      {root : Bool} : m.tree.target (view q) = .ok p → m.nodeAt? p = some n →
      view q n.key = .eq → m'.tree = m.tree.replaceAt p (Tree.merged n.left n.right) →
      m.size = m'.size + 1 → kind.childCount = n.childCount → (root = true ↔ p = []) →
      Report view (.delete q) (.removed n.value) m m' [.removingNode kind, .deletedKey m'.size root]
  | notFound {m : Map κ ν cmp} {q : ι} : m.contains (view q) = false →
      Report view (.delete q) (.failed .keyNotFound) m m [.deleteRejected m.size]
  | extendedNil {m : Map κ ν cmp} : Report view (.extend []) .done m m []
  | extendedCons {m m' : Map κ ν cmp} {k : κ} {v : ν} {items : List (κ × ν)} {r : Reply κ ν}
      {es es' : List Event} : Report view (.insert k v) r m (m.insert k v).map es →
      Report view (.extend items) .done (m.insert k v).map m' es' →
      Report view (.extend ((k, v) :: items)) .done m m' (es ++ es')
  | overwritten {m m' : Map κ ν cmp} {q : ι} {old : Option ν} {new : ν} : m'.size = m.size →
      Report view (.overwrite q new) (.value old) m m' []
  | copied {m : Map κ ν cmp} : Report view .copy .done m m []
  | asked {m : Map κ ν cmp} {c : Command κ ι ν} {r : Reply κ ν} : c.isQuestion = true →
      Report view c r m m []

/-- The events of a history: those of each command in turn. -/
inductive Logged (view : ι → Probe κ) : List (Command κ ι ν) → Map κ ν cmp → List Event → Prop where
  | nil (m : Map κ ν cmp) : Logged view [] m []
  | cons {m : Map κ ν cmp} {c : Command κ ι ν} {cs : List (Command κ ι ν)}
      {es es' : List Event} :
      Report view c (m.perform view c).reply m (m.perform view c).map es →
      Logged view cs (m.perform view c).map es' → Logged view (c :: cs) m (es ++ es')

/-- What a command reports accounts for the change in size, event by event. -/
theorem Report.tells {view : ι → Probe κ} {c : Command κ ι ν} {r : Reply κ ν}
    {m m' : Map κ ν cmp} {es : List Event} (h : Report view c r m m' es) :
    (m'.size : Int) = m.size + Event.netGrowth es ∧ Event.Tells m.size es := by
  induction h with
  | insertedRoot _ hs => simp [Event.Tells, Event.growth, Event.size?, hs]
  | insertedKey _ _ hs => simp [Event.Tells, Event.growth, Event.size?, hs]
  | duplicate _ => simp [Event.Tells, Event.growth, Event.size?]
  | removed _ _ _ _ hs _ _ =>
      -- The first event tells no size, and the second one that of the smaller map.
      refine ⟨?_, nofun, ?_, trivial⟩
      · simp only [Event.netGrowth_cons, Event.netGrowth_nil, Event.growth]
        omega
      · rintro s ⟨⟩
        simp only [Event.growth]
        omega
  | notFound _ => simp [Event.Tells, Event.growth, Event.size?]
  | extendedNil => simp [Event.Tells]
  | extendedCons _ _ ih ih' =>
      obtain ⟨hsize, htells⟩ := ih
      obtain ⟨hsize', htells'⟩ := ih'
      rw [hsize] at htells'
      rw [Event.netGrowth_append, ← Int.add_assoc, ← hsize]
      exact ⟨hsize', Event.tells_append.mpr ⟨htells, htells'⟩⟩
  | overwritten hs => simp [Event.Tells, hs]
  | copied => simp [Event.Tells]
  | asked _ => simp [Event.Tells]

namespace Map

variable {m : Map κ ν cmp}

theorem Counted.report_insert (hm : m.Counted) (view : ι → Probe κ) (k : κ) (v : ν) :
    Report view (.insert k v) (.ofInserted (m.insert k v).reply) m (m.insert k v).map
      (m.insert k v).events := by
  rw [hm.insert_eq]
  cases hc : m.contains (cmp k) with
  | true => exact .duplicate hc
  | false =>
      by_cases ht : m.tree = .empty
      · simp only [Bool.false_eq_true, if_false, Tree.isEmpty_iff.mpr ht, if_true]
        exact .insertedRoot ht rfl
      · simp only [Bool.false_eq_true, if_false, Tree.isEmpty_eq_false_iff.mpr ht]
        exact .insertedKey ht hc rfl

theorem Counted.report_delete (hm : m.Counted) (view : ι → Probe κ) (q : ι) :
    Report view (.delete q) (.ofDeleted (m.delete (view q)).reply) m (m.delete (view q)).map
      (m.delete (view q)).events := by
  cases hc : m.contains (view q) with
  | false =>
      rw [delete_of_not_contains hc]
      exact .notFound hc
  | true =>
      obtain ⟨p, n, kind, hp, hn, hq, hkind, hpos, hd⟩ := hm.delete_of_contains hc
      rw [hd]
      exact .removed hp hn hq rfl (Nat.succ_pred_eq_of_pos hpos).symm hkind List.isEmpty_iff

theorem Counted.report_extend (hm : m.Counted) (view : ι → Probe κ) (items : List (κ × ν)) :
    Report view (.extend items) .done m (m.extend items).map (m.extend items).events := by
  induction items generalizing m with
  | nil => exact .extendedNil
  | cons e items ih =>
      rw [hm.extend_cons]
      exact .extendedCons (hm.report_insert view e.1 e.2) (ih (hm.insert e.1 e.2))

theorem Counted.report (hm : m.Counted) (view : ι → Probe κ) {c : Command κ ι ν}
    (hc : c ≠ .clear) :
    Report view c (m.perform view c).reply m (m.perform view c).map (m.perform view c).events := by
  cases c with
  | insert k v => exact hm.report_insert view k v
  | delete q => exact hm.report_delete view q
  | overwrite q v =>
      show Report view _ (.value (m.overwrite (view q) v).reply) m (m.overwrite (view q) v).map
        (m.overwrite (view q) v).events
      rw [overwrite_eq]
      cases m.search (view q) with
      | none => exact .overwritten rfl
      | some n => exact .overwritten rfl
  | extend items =>
      show Report view _ (.ofInserted (m.extend items).reply) m _ (m.extend items).events
      rw [(hm.effect_extend view items).1]
      exact hm.report_extend view items
  | clear => exact absurd rfl hc
  | copy =>
      rw [Map.perform, recopy, copy_eq]
      exact .copied
  | get | find | contains | search | size | isEmpty | entries => exact .asked rfl

/-! ## Histories -/

theorem Counted.logged (hm : m.Counted) (view : ι → Probe κ) {cs : List (Command κ ι ν)}
    (hcs : ∀ c ∈ cs, c ≠ .clear) : Logged view cs m (m.run view cs).events := by
  induction cs generalizing m with
  | nil => exact .nil m
  | cons c cs ih =>
      obtain ⟨hc, hcs⟩ := List.forall_mem_cons.mp hcs
      exact .cons (hm.report view hc) (ih (hm.perform view c) hcs)

theorem events_run_append (view : ι → Probe κ) (cs cs' : List (Command κ ι ν))
    (m : Map κ ν cmp) :
    (m.run view (cs ++ cs')).events
      = (m.run view cs).events ++ ((m.run view cs).map.run view cs').events := by
  induction cs generalizing m with
  | nil => rfl
  | cons c cs ih =>
      show (m.perform view c).events ++ ((m.perform view c).map.run view (cs ++ cs')).events = _
      rw [ih, ← List.append_assoc]
      rfl

end Map

/-- A log accounts for the change in size over a whole history. -/
theorem Logged.tells {view : ι → Probe κ} {cs : List (Command κ ι ν)} {m : Map κ ν cmp}
    {log : List Event} (h : Logged view cs m log) :
    ((m.run view cs).map.size : Int) = m.size + Event.netGrowth log ∧ Event.Tells m.size log := by
  induction h with
  | nil m => exact ⟨(Int.add_zero _).symm, trivial⟩
  | @cons m c cs es es' hreport _ ih =>
      obtain ⟨hsize, htells⟩ := hreport.tells
      obtain ⟨hsize', htells'⟩ := ih
      rw [hsize] at hsize' htells'
      rw [Event.netGrowth_append, ← Int.add_assoc]
      exact ⟨hsize', Event.tells_append.mpr ⟨htells, htells'⟩⟩

namespace Map

variable {m : Map κ ν cmp}

/-- Let no command of a history drop all entries.  Each command reports what it does.  Each size in
the log is the size at the beginning with the growth up to there, and so is the size after any
number of commands with the log up to there.  To build a map out of a list is such a history. -/
theorem events_tell_size (view : ι → Probe κ) {ι₀ : Type} {view₀ : ι₀ → Probe κ}
    (hm : Reachable view₀ m) (cs : List (Command κ ι ν)) (hcs : ∀ c ∈ cs, c ≠ .clear) :
    let log := (m.run view cs).events
    Logged view cs m log ∧
    (∀ (i : Nat) (e : Event) (s : Nat), log[i]? = some e → e.size? = some s →
      (s : Int) = m.size + Event.netGrowth (log.take (i + 1))) ∧
    (∀ j : Nat, (m.run view (cs.take j)).events <+: log ∧
      ((m.run view (cs.take j)).map.size : Int)
        = m.size + Event.netGrowth (m.run view (cs.take j)).events) ∧
    ∀ items : List (κ × ν),
      let built : Outcome (Map κ ν cmp) _ := ofList items
      built.map = ((empty : Map κ ν cmp).run view [.extend items]).map ∧
        built.events = ((empty : Map κ ν cmp).run view [.extend items]).events := by
  intro log
  have hlogged : Logged view cs m log := hm.counted.logged view hcs
  refine ⟨hlogged, ?_, ?_, ?_⟩
  · intro i e s he hs
    exact hlogged.tells.2.size_eq he hs
  · intro j
    constructor
    · show (m.run view (cs.take j)).events <+: (m.run view cs).events
      rw [← List.take_append_drop j cs, events_run_append]
      simp
    · have hbefore : ∀ c ∈ cs.take j, c ≠ .clear := by
        intro c hc
        exact hcs c (List.mem_of_mem_take hc)
      exact (hm.counted.logged view hbefore).tells.1
  · intro items
    exact ⟨rfl, (List.append_nil _).symm⟩

/-- Two entries at the beginning.  One item of three is refused, the root goes while it has two
children, and no key is as far from zero as 9. -/
theorem events_tell_size_byMagnitude :
    let m : Map Int String compare :=
      (empty.run Probe.byMagnitude [.insert 4 "a", .insert 2 "b"]).map
    let cs : List (Command Int Int String) :=
      [.extend [(7, "c"), (2, "d"), (5, "e")], .get 5, .delete (-4), .insert 7 "f", .delete 9,
        .overwrite (-7) "g", .delete 2]
    let log := (m.run Probe.byMagnitude cs).events
    Reachable Probe.byMagnitude m ∧ (∀ c ∈ cs, c ≠ .clear) ∧ m.size = 2 ∧
    log = [.insertedKey 3, .insertRejected 3, .insertedKey 4, .removingNode .twoChildren,
      .deletedKey 3 true, .insertRejected 3, .deleteRejected 3, .removingNode .leaf,
      .deletedKey 2 false] ∧
    Logged Probe.byMagnitude cs m log ∧
    ∀ (i : Nat) (e : Event) (s : Nat), log[i]? = some e → e.size? = some s →
      (s : Int) = m.size + Event.netGrowth (log.take (i + 1)) := by
  intro m cs log
  have hm : Reachable Probe.byMagnitude m := ⟨_, rfl⟩
  have hcs : ∀ c ∈ cs, c ≠ .clear := by simp [cs]
  obtain ⟨hlogged, hsizes, -⟩ := events_tell_size Probe.byMagnitude hm cs hcs
  exact ⟨hm, hcs, rfl, by decide +kernel, hlogged, hsizes⟩

end Map

end SearchTree
