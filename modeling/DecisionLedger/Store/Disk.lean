import DecisionLedger.Store.Batch

/-! # Disks

A disk keeps a store and writes batches to it, each whole or not at all.  It can be set to fail
after a number of further writes, or to refuse some batches.  A fresh disk is founded with the
genesis unit and a first state.
-/

namespace DecisionLedger

/-- A write that failed and changed nothing. -/
structure WriteError where
  reason : String
  deriving Repr, DecidableEq

namespace WriteError

def message (error : WriteError) : String :=
  "storage write failed: " ++ error.reason

end WriteError

/-- When and how writes fail. -/
structure Outage where
  reason : String
  /-- How many more writes succeed. -/
  remaining : Nat
  deriving Repr, DecidableEq

/-- A store that takes writes. -/
structure Disk where
  store : Store
  outage : Option Outage
  /-- Why the disk refuses a batch by itself, if it does. -/
  refuses : Batch → Option WriteError := fun _ => none

namespace Disk

def empty : Disk := { store := .empty, outage := none }

/-- Write a batch, or fail and change nothing. -/
def write (disk : Disk) (batch : Batch) : Except WriteError Disk :=
  match disk.refuses batch, disk.outage with
  | some error, _ => .error error
  | none, none => .ok { disk with store := disk.store.apply batch }
  | none, some ⟨reason, 0⟩ => .error ⟨reason⟩
  | none, some ⟨reason, remaining + 1⟩ =>
    .ok { disk with store := disk.store.apply batch, outage := some ⟨reason, remaining⟩ }

end Disk

/-- Why the last accepted unit cannot be had. -/
inductive LedgerError where
  | unreadable (error : ReadError)
  | unwritable (error : WriteError)
  /-- The unit accepted last is not stored. -/
  | unitMissing (id : UnitId)
  deriving Repr, DecidableEq

namespace LedgerError

def message : LedgerError → String
  | unreadable error => error.message
  | unwritable error => error.message
  | unitMissing id => s!"unit {id} expected in durable storage but not found"

end LedgerError

namespace Store

def isFounded (store : Store) : Bool :=
  store.has .lastAccepted

def lastUnit (store : Store) : Except LedgerError DecisionUnit :=
  match store.lastAccepted with
  | .error error => .error (.unreadable error)
  | .ok id =>
    match store.unit? id with
    | .error error => .error (.unreadable error)
    | .ok none => .error (.unitMissing id)
    | .ok (some unit) => .ok unit

end Store

namespace Batch

/-- What founding writes: the genesis unit, accepted last at height zero, and a first state. -/
def found (state : StateUpdates) : Batch :=
  setUnit .genesis ++ setUnitAtHeight DecisionUnit.genesis.height DecisionUnit.genesis.id ++
    setLastAccepted DecisionUnit.genesis.id ++ updateState state

end Batch

namespace Disk

/-- Write the genesis unit and a first state, unless the disk has a last accepted unit already; give
the last accepted unit. -/
def found (disk : Disk) (state : StateUpdates) : Except LedgerError (DecisionUnit × Disk) :=
  if disk.store.isFounded then
    match disk.store.lastUnit with
    | .ok unit => .ok (unit, disk)
    | .error error => .error error
  else
    match disk.write (.found state) with
    | .ok founded => .ok (.genesis, founded)
    | .error error => .error (.unwritable error)

end Disk

end DecisionLedger
