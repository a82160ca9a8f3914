/-
# `SearchTree.Map.Command` — histories of a map

A `Command` is one use of a map with its arguments, and `perform` carries it out.
Queries are of a type `ι` of their own, and `view` says how they compare with
the stored keys, so the same histories serve for queries by key (`view := cmp`)
and for queries of any other order.

`run` carries out a list of commands one after the other; `runUntilFailure` stops
at the first that fails.  `Reachable` are the maps that some history makes out of
the empty one: what the statements about all maps range over.
-/
import SearchTree.Map.Edit

namespace SearchTree

/-- One use of a map: changes, and questions. -/
inductive Command (κ ι ν : Type) where
  | insert (key : κ) (value : ν)
  | delete (query : ι)
  | overwrite (query : ι) (value : ν)
  | extend (items : List (κ × ν))
  | clear
  | copy
  | get (query : ι)
  | find (query : ι)
  | contains (query : ι)
  | search (query : ι)
  | size
  | isEmpty
  | entries

/-- What a map answers to a command. -/
inductive Reply (κ ν : Type) where
  | done
  | failed (error : Error)
  | removed (value : ν)
  | value (value : Option ν)
  | item (entry : Option (κ × ν))
  | node (node : Option (Node κ ν))
  | truth (b : Bool)
  | count (n : Nat)
  | listing (entries : List (κ × ν))

namespace Reply

variable {κ ν : Type}

/-- The reply to an insertion, of one entry or of many. -/
def ofInserted : Except Error Unit → Reply κ ν
  | .ok () => .done
  | .error e => .failed e

/-- The reply to a deletion. -/
def ofDeleted : Except Error ν → Reply κ ν
  | .ok v => .removed v
  | .error e => .failed e

/-- The reply to the question whether there are no entries. -/
def ofEmptiness : Except Error Bool → Reply κ ν
  | .ok b => .truth b
  | .error e => .failed e

/-- The error, if the command failed. -/
def error? : Reply κ ν → Option Error
  | .failed e => some e
  | _ => none

end Reply

variable {κ ι ν : Type} {cmp : κ → κ → Ordering}

namespace Map

/-- The map replaced by its copy. -/
def recopy (m : Map κ ν cmp) : Outcome (Map κ ν cmp) (Reply κ ν) :=
  match m.copy with
  | .ok m' => ⟨.done, m', []⟩
  | .error e => ⟨.failed e, m, []⟩

/-- Carries out a command. -/
def perform (view : ι → Probe κ) : Command κ ι ν → Map κ ν cmp → Outcome (Map κ ν cmp) (Reply κ ν)
  | .insert k v, m => (m.insert k v).mapReply .ofInserted
  | .delete q, m => (m.delete (view q)).mapReply .ofDeleted
  | .overwrite q v, m => (m.overwrite (view q) v).mapReply .value
  | .extend items, m => (m.extend items).mapReply .ofInserted
  | .clear, m => m.clear.mapReply fun _ => .done
  | .copy, m => m.recopy
  | .get q, m => ⟨.value (m.get? (view q)), m, []⟩
  | .find q, m => ⟨.item (m.find? (view q)), m, []⟩
  | .contains q, m => ⟨.truth (m.contains (view q)), m, []⟩
  | .search q, m => ⟨.node (m.search (view q)), m, []⟩
  | .size, m => ⟨.count m.size, m, []⟩
  | .isEmpty, m => ⟨.ofEmptiness m.isEmpty, m, []⟩
  | .entries, m => ⟨.listing m.entries, m, []⟩

/-- Carries out one command after the other. -/
def run (view : ι → Probe κ) :
    List (Command κ ι ν) → Map κ ν cmp → Outcome (Map κ ν cmp) (List (Reply κ ν))
  | [], m => ⟨[], m, []⟩
  | c :: cs, m =>
      (m.perform view c).andThen fun reply m' => (run view cs m').mapReply (reply :: ·)

/-- Carries out commands up to the first that fails; answers with the replies before it and with
its error, if there is one. -/
def runUntilFailure (view : ι → Probe κ) :
    List (Command κ ι ν) → Map κ ν cmp → Outcome (Map κ ν cmp) (List (Reply κ ν) × Option Error)
  | [], m => ⟨([], none), m, []⟩
  | c :: cs, m =>
      (m.perform view c).andThen fun reply m' =>
        match reply.error? with
        | some e => ⟨([], some e), m', []⟩
        | none =>
            (runUntilFailure view cs m').mapReply fun (done, failure) => (reply :: done, failure)

/-- The maps that a history makes out of the empty one. -/
def Reachable (view : ι → Probe κ) (m : Map κ ν cmp) : Prop :=
  ∃ cs : List (Command κ ι ν), ((empty : Map κ ν cmp).run view cs).map = m

/-- What holds of the empty map and is kept by every command holds of all reachable maps. -/
theorem Reachable.induct {view : ι → Probe κ} {P : Map κ ν cmp → Prop} (base : P empty)
    (step : ∀ (m : Map κ ν cmp) (c : Command κ ι ν), P m → P (m.perform view c).map)
    {m : Map κ ν cmp} (h : Reachable view m) : P m := by
  obtain ⟨cs, rfl⟩ := h
  suffices ∀ m : Map κ ν cmp, P m → P (m.run view cs).map from this _ base
  induction cs with
  | nil => exact fun _ hm => hm
  | cons c cs ih => exact fun m hm => ih _ (step m c hm)

end Map

end SearchTree
