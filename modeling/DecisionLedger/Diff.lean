import DecisionLedger.Store.Batch

/-! # Diffs

A diff is the effect of one undecided unit on top of the unit that it extends: records inserted and
deleted, inputs consumed, and requests to other chains.  It holds its own changes only; what lies
below is found through its parent.
-/

namespace DecisionLedger

/-- Requests gathered by the chain that they address. -/
abbrev RequestMap := Std.ExtTreeMap ChainId AtomicRequests

namespace RequestMap

/-- Append requests to those for the same chain. -/
def extend (requests : RequestMap) (chain : ChainId) (further : AtomicRequests) : RequestMap :=
  requests.insert chain (requests.getD chain ∅ ++ further)

theorem getD_extend (requests : RequestMap) (chain other : ChainId) (further : AtomicRequests) :
    (requests.extend chain further).getD other ∅ =
      if chain = other then requests.getD chain ∅ ++ further else requests.getD other ∅ := by
  simp [extend, Std.ExtTreeMap.getD_insert]

end RequestMap

/-- The effect of one undecided unit. -/
structure Diff where
  /-- The unit below. -/
  parent : UnitId
  /-- The time of the unit whose effect this is. -/
  timestamp : Option Timestamp
  updates : StateUpdates
  /-- The inputs consumed. -/
  consumed : Std.ExtTreeSet StateKey
  requests : RequestMap

namespace Diff

/-- No effect on top of a unit. -/
def empty (parent : UnitId) (timestamp : Option Timestamp) : Diff where
  parent
  timestamp
  updates := ∅
  consumed := ∅
  requests := ∅

def put (diff : Diff) (key : StateKey) (value : StateValue) : Diff :=
  { diff with updates := diff.updates.insert key value }

def delete (diff : Diff) (key : StateKey) : Diff :=
  { diff with updates := diff.updates.delete key }

/-- Count a key as consumed. -/
def consume (diff : Diff) (key : StateKey) : Diff :=
  { diff with consumed := diff.consumed.insert key }

def request (diff : Diff) (chain : ChainId) (requests : AtomicRequests) : Diff :=
  { diff with requests := diff.requests.extend chain requests }

def consumes (diff : Diff) (key : StateKey) : Bool :=
  diff.consumed.contains key

/-- What the diff itself says of a record: a value, absence, or nothing. -/
def local? (diff : Diff) (key : StateKey) : Option (Option StateValue) :=
  match diff.updates.inserted? key with
  | some value => some (some value)
  | none => if diff.updates.isDeleted key then some none else none

@[simp] theorem local?_empty (parent : UnitId) (timestamp : Option Timestamp) (key : StateKey) :
    (empty parent timestamp).local? key = none := by
  simp [local?, empty]

theorem local?_put (diff : Diff) (key other : StateKey) (value : StateValue) :
    (diff.put key value).local? other =
      if key = other then some (some value) else diff.local? other := by
  by_cases same : key = other <;>
    simp [local?, put, UpdateSet.inserted?_insert, UpdateSet.isDeleted_insert, same]

theorem local?_delete (diff : Diff) (key other : StateKey) :
    (diff.delete key).local? other = if key = other then some none else diff.local? other := by
  by_cases same : key = other <;>
    simp [local?, delete, UpdateSet.inserted?_delete, UpdateSet.isDeleted_delete, same]

@[simp] theorem local?_consume (diff : Diff) (key other : StateKey) :
    (diff.consume key).local? other = diff.local? other := rfl

@[simp] theorem local?_request (diff : Diff) (chain : ChainId) (requests : AtomicRequests)
    (key : StateKey) : (diff.request chain requests).local? key = diff.local? key := rfl

/-- The effect of a diff after that of another below it, as one diff in the other's place. -/
def onto (upper lower : Diff) : Diff :=
  let inserted :=
    upper.updates.inserts.toList.foldl (fun diff (key, value) => diff.put key value) lower
  let deleted := upper.updates.deletes.toList.foldl delete inserted
  let consumed := upper.consumed.toList.foldl consume deleted
  upper.requests.toList.foldl (fun diff (chain, requests) => diff.request chain requests) consumed

/-- The changes that a diff makes to a store once its unit is accepted. -/
def changes (diff : Diff) : Batch :=
  Batch.updateState diff.updates ++
    diff.requests.toList.flatMap fun (chain, requests) => Batch.requestShared chain requests

/-- Whether two diffs have the same fields. -/
instance : DecidableEq Diff := fun left right =>
  decidable_of_iff
    (left.parent = right.parent ∧ left.timestamp = right.timestamp ∧
      left.updates.inserts = right.updates.inserts ∧ left.updates.deletes = right.updates.deletes ∧
      left.consumed = right.consumed ∧ left.requests = right.requests) (by
    obtain ⟨_, _, ⟨_, _⟩, _, _⟩ := left
    obtain ⟨_, _, ⟨_, _⟩, _, _⟩ := right
    simp [and_assoc])

end Diff

end DecisionLedger
