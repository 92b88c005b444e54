import DecisionLedger.Manager

/-! # Verifying units

A unit becomes pending if it is well formed, extends the last accepted unit or a pending one, and
can be executed on what its parent sees without consuming what another pending unit consumes.
-/

namespace DecisionLedger.Manager

/-- The unit that a unit extends, if it may be extended. -/
def resolveParent (manager : Manager) (store : Store) (parent : UnitId) :
    Except ManagerError DecisionUnit :=
  match manager.pending[parent]? with
  | some pending => .ok pending.unit
  | none =>
    if parent = manager.lastAccepted.id then .ok manager.lastAccepted
    else if manager.isAccepted store parent then .error (.invalidParent parent .notLast)
    else if manager.rejected.contains parent then .error (.invalidParent parent .rejected)
    else .error (.unknownParent parent)

/-- The height of a unit that is pending or accepted. -/
def knownHeight? (manager : Manager) (store : Store) (unit : UnitId) :
    Except ManagerError (Option Height) :=
  match manager.pending[unit]? with
  | some pending => .ok (some pending.unit.height)
  | none =>
    match manager.recent? unit with
    | some accepted => .ok (some accepted.height)
    | none =>
      match store.unit? unit with
      | .ok stored => .ok (stored.map (·.height))
      | .error error => .error (.storageFailure (.unreadable error))

/-- A unit is one higher than its parent.  Above the largest height, where the sum of two words
would overflow, there is no height, so whatever stands on such a unit is refused. -/
def checkHeight (parent unit : DecisionUnit) : Except ManagerError Unit :=
  if parent.height.above? 1 = some unit.height then .ok ()
  else .error (.invalidHeight (parent.height.toNat + 1) unit.height)

/-- Time does not run backwards from a unit's parent to the unit. -/
def checkTime (parent unit : DecisionUnit) : Except ManagerError Unit :=
  match parent.timestamp, unit.timestamp with
  | some before, some after =>
    if after < before then .error (.invalidTimestamp before after) else .ok ()
  | _, _ => .ok ()

/-- An edge points to a unit that is pending or accepted and lower. -/
def checkEdge (manager : Manager) (store : Store) (height : Height) (edge : UnitId) :
    Except ManagerError Unit :=
  match manager.knownHeight? store edge with
  | .error error => .error error
  | .ok none => .error (.unknownParent edge)
  | .ok (some below) =>
    if height ≤ below then .error (.invalidParent edge .edgeHeight) else .ok ()

/-- A unit that is no option does not extend a proposal. -/
def checkNotProposal (parent : DecisionUnit) : Except ManagerError Unit :=
  if parent.kind = .proposal then .error (.invalidParent parent.id .proposal) else .ok ()

/-- Execute the transactions of a unit on what its parent sees. -/
def executeTransactions (manager : Manager) (store : Store) (unit : DecisionUnit)
    (transactions : List Transaction) : Except ManagerError Execution :=
  let start := Diff.empty unit.parent unit.timestamp
  match start.executeAll (manager.versions store) transactions with
  | .ok diff => .ok (.effect diff)
  | .error error => .error (.ofDiffError error)

/-- Execute both ways of a proposal on what its parent sees. -/
def executeProposal (manager : Manager) (store : Store) (unit : DecisionUnit)
    (proposal : Proposal) : Except ManagerError Execution :=
  match Branches.execute (manager.versions store) unit.parent unit.timestamp proposal with
  | .ok branches => .ok (.proposal branches)
  | .error error => .error (.ofDiffError error)

/-- An option extends a proposal that has no pending option for the same choice. -/
def executeOption (manager : Manager) (parent : DecisionUnit) (choice : Choice) :
    Except ManagerError Execution :=
  if parent.kind ≠ .proposal then .error (.invalidParent parent.id .notProposal)
  else if (manager.optionOf? parent.id choice).isSome then
    .error (.invalidParent parent.id .optionTaken)
  else .ok (.option choice)

/-- Execute a unit on top of its parent. -/
def execute (manager : Manager) (store : Store) (parent unit : DecisionUnit) :
    Except ManagerError Execution :=
  match unit.body with
  | .standard transactions => do
    checkNotProposal parent
    manager.executeTransactions store unit transactions
  | .proposal proposal => do
    checkNotProposal parent
    manager.executeProposal store unit proposal
  | .commit => manager.executeOption parent .commit
  | .abort => manager.executeOption parent .abort
  | .vertex edges transactions => do
    checkNotProposal parent
    edges.forM (manager.checkEdge store unit.height)
    manager.executeTransactions store unit transactions

/-- The first of the inputs that a pending unit consumes already. -/
def claimed? (manager : Manager) (keys : List StateKey) : Option StateKey :=
  keys.find? manager.consumedBy.contains

/-- Everything that is checked of a unit that is not known yet. -/
def examine (manager : Manager) (store : Store) (unit : DecisionUnit) :
    Except ManagerError PendingUnit := do
  match unit.fault? manager.config.maxUnitSize with
  | some fault => throw (.malformed fault)
  | none => pure ()
  let parent ← manager.resolveParent store unit.parent
  checkHeight parent unit
  checkTime parent unit
  let execution ← manager.execute store parent unit
  let candidate : PendingUnit := { unit, execution }
  match manager.claimed? candidate.consumed with
  | some key => throw (.doubleSpend key)
  | none => pure candidate

/-- Make a unit pending: claim its inputs, hang it under its parent and under its pending edges. -/
def hold (manager : Manager) (candidate : PendingUnit) : Manager :=
  let unit := candidate.unit
  let edges := unit.body.edges.filter manager.isPending
  { manager with
    pending := manager.pending.insert unit.id candidate
    children := manager.children.add unit.parent unit.id
    referencedBy := edges.foldl (fun links edge => links.add edge unit.id) manager.referencedBy
    consumedBy := candidate.consumed.foldl (fun claims key => claims.insert key unit.id)
      manager.consumedBy }

/-- Verify a unit and make it pending.  A unit that is pending or accepted is fine as it is, and one
that was rejected stays so. -/
def verify (manager : Manager) (store : Store) (unit : DecisionUnit) :
    Except ManagerError (Manager × List Event) := do
  manager.ensureRunning
  if manager.isPending unit.id || manager.isAccepted store unit.id then
    pure (manager, [])
  else if manager.rejected.contains unit.id then
    throw (.alreadyRejected unit.id)
  else
    let candidate ← manager.examine store unit
    pure (manager.hold candidate,
      [.verified manager.config.chain unit.id unit.height unit.kind])

end DecisionLedger.Manager
