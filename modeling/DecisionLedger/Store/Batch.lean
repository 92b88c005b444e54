import DecisionLedger.Store
import DecisionLedger.UpdateSet

/-! # Write batches

A batch stages writes and removals of variables.  Applying it performs them in order, so of several
on one variable the last stands, and all of them become visible at once.
-/

namespace DecisionLedger

/-- One staged write, or a removal if there is no value. -/
structure Change where
  key : Key
  value : Option Bytes
  deriving Repr, DecidableEq

/-- Staged changes in the order in which they were staged. -/
abbrev Batch := List Change

namespace Change

def put (key : Key) (value : Bytes) : Change := ⟨key, some value⟩

def remove (key : Key) : Change := ⟨key, none⟩

def apply (change : Change) (store : Store) : Store :=
  match change.value with
  | some value => store.insert change.key.encode value
  | none => store.erase change.key.encode

theorem getElem?_apply (change : Change) (store : Store) (key : Bytes) :
    (change.apply store)[key]? =
      if change.key.encode = key then change.value else store[key]? := by
  unfold apply
  split <;> simp_all [Std.ExtTreeMap.getElem?_insert, Std.ExtTreeMap.getElem?_erase]

end Change

namespace Store

def apply (store : Store) (batch : Batch) : Store :=
  batch.foldl (fun store change => change.apply store) store

@[simp] theorem apply_nil (store : Store) : store.apply [] = store := rfl

@[simp] theorem apply_cons (store : Store) (change : Change) (batch : Batch) :
    store.apply (change :: batch) = (change.apply store).apply batch := rfl

theorem apply_append (store : Store) (first second : Batch) :
    store.apply (first ++ second) = (store.apply first).apply second :=
  List.foldl_append

end Store

namespace Batch

def setUnit (unit : DecisionUnit) : Batch :=
  [.put (.unit unit.id) unit.bytes]

def setUnitAtHeight (height : Height) (id : UnitId) : Batch :=
  [.put (.unitAtHeight height) (Digest.format.encode id)]

def setLastAccepted (id : UnitId) : Batch :=
  [.put .lastAccepted (Digest.format.encode id)]

/-- All that accepting a unit changes besides the state. -/
def setAccepted (unit : DecisionUnit) : Batch :=
  setUnit unit ++ setUnitAtHeight unit.height unit.id ++ setLastAccepted unit.id

def setState (key : StateKey) (value : StateValue) : Batch :=
  [.put (.state key) value]

def deleteState (key : StateKey) : Batch :=
  [.remove (.state key)]

/-- Change the accepted state as an update set says. -/
def updateState (updates : StateUpdates) : Batch :=
  updates.inserts.toList.flatMap (fun (key, value) => setState key value) ++
    updates.deletes.toList.flatMap deleteState

def putShared (chain : ChainId) (key : StateKey) (value : StateValue) : Batch :=
  [.put (.shared chain key) value]

def removeShared (chain : ChainId) (key : StateKey) : Batch :=
  [.remove (.shared chain key)]

/-- Change a chain's shared memory as requested: removals first, so a record both put and removed
stays. -/
def requestShared (chain : ChainId) (requests : AtomicRequests) : Batch :=
  requests.removes.flatMap (removeShared chain) ++
    requests.puts.flatMap (fun (key, value) => putShared chain key value)

def setContainer (chain : ChainId) (contents : Contents) (index : AcceptIndex)
    (container : Container) : Batch :=
  [.put (.container chain contents index) (Container.format.encode container)]

def setPosition (chain : ChainId) (contents : Contents) (id : ContainerId) (index : AcceptIndex) :
    Batch :=
  [.put (.position chain contents id) (Format.word.encode index)]

def setNext (chain : ChainId) (contents : Contents) (index : AcceptIndex) : Batch :=
  [.put (.next chain contents) (Format.word.encode index)]

def markIncomplete (chain : ChainId) : Batch :=
  [.put (.incomplete chain) []]

def markPreviouslyIndexed (chain : ChainId) : Batch :=
  [.put (.previouslyIndexed chain) []]

def markHasRun : Batch :=
  [.put .hasRun []]

end Batch

end DecisionLedger
