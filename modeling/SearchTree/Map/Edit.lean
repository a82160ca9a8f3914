/-
# `SearchTree.Map.Edit` — changing a map

Every change answers with an `Outcome`: a reply, the map after it, and the
events it reported.  A change that fails leaves the map as it was.  The kept size
goes up with every entry that comes in and down with every entry that goes out;
where a step relies on it, the step checks it.
-/
import SearchTree.Map.Basic
import SearchTree.Tree.Copy
import SearchTree.Tree.Delete
import SearchTree.Tree.Insert

namespace SearchTree

/-- What a change answers, what it leaves, and what it reports. -/
structure Outcome (μ α : Type) where
  reply : α
  map : μ
  events : List Event

namespace Outcome

variable {μ α β : Type}

/-- Another change after this one: its reply counts, and its events follow. -/
def andThen (o : Outcome μ α) (next : α → μ → Outcome μ β) : Outcome μ β :=
  let o' := next o.reply o.map
  ⟨o'.reply, o'.map, o.events ++ o'.events⟩

/-- The same outcome with another reply. -/
def mapReply (f : α → β) (o : Outcome μ α) : Outcome μ β := ⟨f o.reply, o.map, o.events⟩

end Outcome

variable {κ ν : Type} {cmp : κ → κ → Ordering}

namespace Map

/-- Fails and changes nothing; a fault of the map's own is not reported as an event. -/
def refuse {α : Type} (m : Map κ ν cmp) (e : Error) : Outcome (Map κ ν cmp) (Except Error α) :=
  ⟨.error e, m,
    match e with
    | .duplicateKey => [.insertRejected m.size]
    | .keyNotFound => [.deleteRejected m.size]
    | .broken _ => []⟩

/-- Adds an entry whose key the descent does not meet. -/
def insert (key : κ) (value : ν) (m : Map κ ν cmp) :
    Outcome (Map κ ν cmp) (Except Error Unit) :=
  if m.tree.isEmpty && m.size != 0 then m.refuse (.broken .countWithoutRoot)
  else
    match m.tree.insert cmp key value with
    | .error e => m.refuse e
    | .ok t =>
        let n := m.size + 1
        ⟨.ok (), ⟨t, n⟩, [if m.tree.isEmpty then .insertedRoot n else .insertedKey n]⟩

/-- Removes the match of a query and answers with its value.  The removal reports its case; the
deletion is reported once the size has gone down. -/
def delete (q : Probe κ) (m : Map κ ν cmp) : Outcome (Map κ ν cmp) (Except Error ν) :=
  let removal := m.tree.delete q
  Outcome.andThen ⟨removal.answer, m, removal.events⟩ fun answer m =>
    match answer with
    | .error e => m.refuse e
    | .ok d =>
        match m.size with
        | 0 => m.refuse (.broken .countExhausted)
        | n + 1 => ⟨.ok d.value, ⟨d.tree, n⟩, [.deletedKey n d.position.isEmpty]⟩

/-- Writes a value at the first match; answers with the value that was there. -/
def overwrite (q : Probe κ) (new : ν) (m : Map κ ν cmp) : Outcome (Map κ ν cmp) (Option ν) :=
  match m.tree.overwrite? q new with
  | none => ⟨none, m, []⟩
  | some (old, t) => ⟨some old, { m with tree := t }, []⟩

/-- Drops all entries. -/
def clear (_ : Map κ ν cmp) : Outcome (Map κ ν cmp) Unit := ⟨(), empty, []⟩

/-- Inserts every item whose key is not there yet, so that the first item of a key counts.  A key
that is there is passed over, a fault is not. -/
def extend : List (κ × ν) → Map κ ν cmp → Outcome (Map κ ν cmp) (Except Error Unit)
  | [], m => ⟨.ok (), m, []⟩
  | (k, v) :: items, m =>
      (m.insert k v).andThen fun answer m' =>
        match answer with
        | .error (.broken f) => ⟨.error (.broken f), m', []⟩
        | _ => extend items m'

/-- The map of the items, of which the first of a key counts. -/
def ofList (items : List (κ × ν)) : Outcome (Map κ ν cmp) (Except Error Unit) :=
  empty.extend items

/-- A tree built anew, of keys copied by `f` and values copied by `g`, with the size taken over. -/
def copyWith (f : κ → κ) (g : ν → ν) (m : Map κ ν cmp) : Except Error (Map κ ν cmp) :=
  (m.tree.copyWith f g).map fun t => ⟨t, m.size⟩

/-- The same entries in a tree built anew. -/
def copy (m : Map κ ν cmp) : Except Error (Map κ ν cmp) := m.copyWith id id

/-! ## Many deletions -/

/-- Deletes for each query in turn. -/
def deleteMany : List (Probe κ) → Map κ ν cmp → Outcome (Map κ ν cmp) (List (Except Error ν))
  | [], m => ⟨[], m, []⟩
  | q :: qs, m =>
      (m.delete q).andThen fun answer m' =>
        (deleteMany qs m').mapReply (answer :: ·)

/-- Deletes by the key at the root, at most `n` times and while there is a root; answers with
each of these keys and what its deletion answered. -/
def drainRoot (query : κ → Probe κ) :
    Nat → Map κ ν cmp → Outcome (Map κ ν cmp) (List (κ × Except Error ν))
  | 0, m => ⟨[], m, []⟩
  | n + 1, m =>
      match m.root? with
      | none => ⟨[], m, []⟩
      | some root =>
          (m.delete (query root.key)).andThen fun answer m' =>
            (drainRoot query n m').mapReply ((root.key, answer) :: ·)

/-! ## Failing leaves everything as it was -/

theorem map_insert_of_error {m : Map κ ν cmp} {key : κ} {value : ν} {e : Error}
    (h : (m.insert key value).reply = .error e) : (m.insert key value).map = m := by
  unfold insert at h ⊢
  split
  · rfl
  · next hs =>
      rw [if_neg hs] at h
      split
      · rfl
      · next t ht => rw [ht] at h; exact nomatch h

theorem map_delete_of_error {m : Map κ ν cmp} {q : Probe κ} {e : Error}
    (h : (m.delete q).reply = .error e) : (m.delete q).map = m := by
  simp only [delete, Outcome.andThen] at h ⊢
  cases hd : (m.tree.delete q).answer with
  | error e' => rfl
  | ok d =>
      simp only [hd] at h
      cases hs : m.size with
      | zero => rfl
      | succ n => simp only [hs] at h; exact nomatch h

end Map

end SearchTree
