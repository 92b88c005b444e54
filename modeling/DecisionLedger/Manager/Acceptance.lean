import DecisionLedger.Manager.Rejection

/-! # Accepting units

A unit is accepted in one write: the unit, its height, that it is the last one, and its changes.
An option is accepted together with its proposal.  Then everything that hangs on the previous last
unit otherwise is rejected, and the listeners of the chain are notified.
-/

namespace DecisionLedger

/-- What accepting needs of the world outside a manager. -/
structure Host (ω : Type) where
  /-- The store as it is. -/
  store : ω → Store
  /-- Write a batch, or fail and change nothing. -/
  write : Batch → ω → Except WriteError ω
  /-- Notify the listeners of a chain of an accepted unit. -/
  deliver : ChainId → DecisionUnit → ω → Option NotifyError × ω
  /-- Publish an event. -/
  publish : Event → ω → ω

namespace Host

variable {ω : Type}

def publishAll (host : Host ω) (events : List Event) (world : ω) : ω :=
  events.foldl (fun world event => host.publish event world) world

/-- Notify the listeners of several units in order, and gather the failures. -/
def deliverAll (host : Host ω) (chain : ChainId) :
    (units : List DecisionUnit) → ω → Option NotifyError × ω
  | [], world => (none, world)
  | unit :: rest, world =>
    let (failed, delivered) := host.deliver chain unit world
    let (later, final) := deliverAll host chain rest delivered
    (NotifyError.merge failed later, final)

end Host

/-- How a unit is accepted: what is written, which branch is rejected first, and which units are
accepted in what order. -/
structure AcceptPlan where
  batch : Batch
  /-- The option of the same proposal that was not taken. -/
  dismissed : Option UnitId
  accepted : List PendingUnit

namespace Manager

/-- The plan to accept a unit that is neither a proposal nor an option. -/
def planUnit (manager : Manager) (store : Store) (pending : PendingUnit) (diff : Diff) :
    Except ManagerError AcceptPlan :=
  let unit := pending.unit
  if unit.parent = manager.lastAccepted.id && unit.body.edges.all (manager.isAccepted store) then
    .ok {
      batch := Batch.setAccepted unit ++ diff.changes
      dismissed := none
      accepted := [pending] }
  else .error (.outOfOrder unit.id manager.lastAccepted.id)

/-- The plan to accept an option with its proposal. -/
def planOption (manager : Manager) (pending : PendingUnit) (choice : Choice) :
    Except ManagerError AcceptPlan :=
  let option := pending.unit
  match manager.pending[option.parent]? with
  | none => .error (.notFound option.parent)
  | some parent =>
    match parent.execution with
    | .proposal branches =>
      let proposal := parent.unit
      if proposal.parent = manager.lastAccepted.id then
        .ok {
          batch := Batch.setUnit proposal ++ Batch.setUnitAtHeight proposal.height proposal.id ++
            Batch.setAccepted option ++ (branches.branch choice).changes
          dismissed := manager.optionOf? proposal.id choice.other
          accepted := [parent, pending] }
      else .error (.outOfOrder proposal.id manager.lastAccepted.id)
    | _ => .error (.invalidParent option.parent .notProposal)

def plan (manager : Manager) (store : Store) (unit : UnitId) : Except ManagerError AcceptPlan :=
  match manager.pending[unit]? with
  | none => .error (.notFound unit)
  | some pending =>
    match pending.execution with
    | .proposal _ => .error (.acceptsProposal unit)
    | .effect diff => manager.planUnit store pending diff
    | .option choice => manager.planOption pending choice

/-- Forget units that are too far below the last accepted height. -/
def evict (manager : Manager) (newest : Height) : Manager :=
  let isFar (unit : DecisionUnit) : Bool := manager.config.window < newest.distance unit.height
  { manager with
    recent := manager.recent.dropWhile isFar
    rejected := manager.rejected.filter fun _ rejected => !isFar rejected.unit }

/-- Move a pending unit whose acceptance is written to the last accepted place, and reject the
branches beside it. -/
def settleUnit (manager : Manager) (pending : PendingUnit) : Manager × List Event :=
  let unit := pending.unit
  let previous := manager.lastAccepted.id
  let siblings := (manager.children.of previous).filter (· ≠ unit.id)
  let released := manager.release pending
  let removed := { released with
    pending := manager.pending.erase unit.id
    referencedBy := manager.referencedBy.erase unit.id
    children := manager.children.erase previous }
  let (alone, events) := removed.sequence (discard true) siblings
  let moved := { alone with
    children := alone.children.touch unit.id
    lastAccepted := unit
    recent := alone.recent ++ [unit] }
  (moved.evict unit.height,
    events ++ [.accepted manager.config.chain unit.id unit.height unit.kind])

/-- Bring a manager in line with a plan that is written. -/
def settle (manager : Manager) (plan : AcceptPlan) : Manager × List Event :=
  let (decided, dismissals) := manager.sequence (discard true) plan.dismissed.toList
  let (settled, acceptances) := decided.sequence settleUnit plan.accepted
  (settled, dismissals ++ acceptances)

/-- Accept a pending unit: plan, write, settle, notify.  A failed write halts the chain, and so does
a listener that must not miss a unit once it has failed too often. -/
def accept {ω : Type} (host : Host ω) (manager : Manager) (unit : UnitId) (world : ω) :
    Except ManagerError Unit × Manager × ω :=
  match manager.ensureRunning, manager.plan (host.store world) unit with
  | .error error, _ => (.error error, manager, world)
  | .ok _, .error error => (.error error, manager, world)
  | .ok _, .ok plan =>
    match host.write plan.batch world with
    | .error error =>
      let (halted, events) := manager.halt (.commitFailed error)
      (.error (.storageFailure (.unwritable error)), halted, host.publishAll events world)
    | .ok written =>
      let (settled, events) := manager.settle plan
      let announced := host.publishAll events written
      match host.deliverAll manager.config.chain (plan.accepted.map (·.unit)) announced with
      | (none, delivered) => (.ok (), settled, delivered)
      | (some error, delivered) =>
        let (final, further) :=
          if error.isFatal manager.config.threshold then settled.halt (.listenerFailed error)
          else (settled, [])
        (.error (.listenerFailures error), final, host.publishAll further delivered)

end Manager

end DecisionLedger
