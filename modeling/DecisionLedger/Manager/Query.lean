import DecisionLedger.Manager

/-! # Asking a manager

What a manager says of units and of the state that they see.
-/

namespace DecisionLedger

/-- How far a unit has come. -/
inductive UnitStatus where
  | unverified
  | processing
  | accepted
  | rejected
  deriving Repr, DecidableEq

namespace UnitStatus

def name : UnitStatus → String
  | unverified => "Unverified"
  | processing => "Processing"
  | accepted => "Accepted"
  | rejected => "Rejected"

end UnitStatus

namespace Manager

/-- A unit and how far it has come: pending, accepted lately, rejected lately, or stored. -/
def lookup (manager : Manager) (store : Store) (unit : UnitId) :
    Except ManagerError (DecisionUnit × UnitStatus) :=
  match manager.pending[unit]? with
  | some pending => .ok (pending.unit, .processing)
  | none =>
    match manager.recent? unit with
    | some accepted => .ok (accepted, .accepted)
    | none =>
      match manager.rejected[unit]? with
      | some rejected => .ok (rejected.unit, .rejected)
      | none =>
        match store.unit? unit with
        | .error error => .error (.storageFailure (.unreadable error))
        | .ok (some accepted) => .ok (accepted, .accepted)
        | .ok none => .error (.notFound unit)

/-- How far a unit has come; one that the manager cannot find is unverified. -/
def status (manager : Manager) (store : Store) (unit : UnitId) :
    Except ManagerError UnitStatus :=
  match manager.lookup store unit with
  | .ok (_, status) => .ok status
  | .error (.notFound _) => .ok .unverified
  | .error error => .error error

/-- The units that the manager rejected by itself and was not told to reject since, the lowest
first. -/
def awaitingRejection (manager : Manager) : List UnitId :=
  let awaiting := (manager.rejected.toList.map Prod.snd).filter (·.awaiting)
  let precedes (left right : RejectedUnit) : Bool :=
    if left.unit.height = right.unit.height then (compare left.unit.id right.unit.id).isLE
    else left.unit.height ≤ right.unit.height
  (awaiting.mergeSort precedes).map (·.unit.id)

/-- The choice that this node would make for a pending proposal. -/
def preferredOption (manager : Manager) (proposal : UnitId) : Except ManagerError Choice :=
  match manager.pending[proposal]? with
  | some { execution := .proposal branches, .. } => .ok branches.preferred
  | some _ => .error (.notAProposal proposal)
  | none => .error (.notFound proposal)

/-- What the children of a unit are executed on: a layer, or (the inner `none`) the accepted state.
There is nothing for a unit that is neither pending nor accepted last. -/
def seen? (manager : Manager) (store : Store) (unit : UnitId) : Option (Option Diff) :=
  match (manager.versions store).layers[unit]? with
  | some diff => some (some diff)
  | none =>
    if !manager.isPending unit && unit = manager.lastAccepted.id then some none else none

/-- A record as it is once a pending unit is executed, or as it is in the accepted state under the
last accepted unit. -/
def read (manager : Manager) (store : Store) (unit : UnitId) (key : StateKey) :
    Except ManagerError (Option StateValue) :=
  match manager.seen? store unit with
  | none => .error (.notFound unit)
  | some none => .ok (store.state? key)
  | some (some diff) =>
    match diff.get (manager.versions store) key with
    | .ok value => .ok value
    | .error error => .error (.ofDiffError error)

def unitAtHeight? (_manager : Manager) (store : Store) (height : Height) :
    Except ManagerError (Option UnitId) :=
  match store.unitAtHeight? height with
  | .ok found => .ok found
  | .error error => .error (.storageFailure (.unreadable error))

/-- The pending children of a unit in the order in which they were verified. -/
def childrenOf (manager : Manager) (unit : UnitId) : List UnitId :=
  manager.children.of unit

def pendingCount (manager : Manager) : Nat :=
  manager.pending.size

end Manager

end DecisionLedger
