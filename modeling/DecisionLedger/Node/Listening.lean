import DecisionLedger.Node

/-! # Registering and notifying on a node

How the listeners of a node take units, and how they are registered and deregistered.  Cleaning up
after a listener may itself deregister another; each deregistration on the way drains one more
active registration, so there are no more of them than there are active registrations.
-/

namespace DecisionLedger.Node

def accept (acceptedAt : Instant) (id : ListenerId) (chain : ChainId) (unit : DecisionUnit)
    (node : Node) : Option AcceptError × Node :=
  match node.listeners[id]? with
  | none => (none, node)
  | some (.probe probe) =>
    match probe.failure with
    | some error => (some error, node)
    | none => (none, node.noteUnit probe.notes chain unit.id)
  | some (.index hosted) =>
    if hosted.isClosed then (some .closed, node)
    else
      match hosted.index.accept (node.disk hosted.disk) acceptedAt unit with
      | .ok written => (none, node.setDisk hosted.disk written)
      | .error error => (some error, node)

def isCritical (id : ListenerId) (node : Node) : Bool :=
  match node.listeners[id]? with
  | none => false
  | some (.probe probe) => probe.critical
  | some (.index _) => true

/-- The listeners of a node at a moment. -/
def listening (acceptedAt : Instant) : Listening ListenerId Node where
  accept := accept acceptedAt
  critical := isCritical

/-- Notify the active listeners of a chain in a group that a unit was accepted at a moment. -/
def notify (node : Node) (group : String) (chain : ChainId) (unit : DecisionUnit)
    (acceptedAt : Instant) : Option NotifyError × Node :=
  let (failed, registry, after) :=
    (node.group group).notify (listening acceptedAt) chain unit node
  let failures := match failed with
    | none => []
    | some error => error.failures
  (failed, (after.setGroup group registry).report (failures.map (Registry.failureLine chain)))

def register (node : Node) (group : String) (chain : ChainId) (name : String) (id : ListenerId)
    (tolerateDraining : Bool) : Except RegistryError Unit × Node :=
  match (node.group group).register chain name id tolerateDraining with
  | .error error => (.error error, node)
  | .ok registry =>
    (.ok (), (node.setGroup group registry).report [Registry.registerLine chain name])

/-- Do what a probe does when it is deregistered, given how it deregisters others. -/
def act (deregister : String → ChainId → String → Node → Option RegistryError × Node)
    (probe : Probe) (node : Node) : ProbeAction → ProbeOutcome × Node
  | .list => (.listed ((node.group probe.group).listeners probe.chain), node)
  | .notify =>
    match node.notify probe.group probe.chain .genesis node.clock with
    | (none, after) => (.done, after)
    | (some error, after) => (.failed error, after)
  | .register name tolerateDraining =>
    let (further, grown) := node.addListener fun _ => .probe { probe with
      failure := none, action := some .list, cleanupFailure := none }
    match grown.register probe.group probe.chain name further tolerateDraining with
    | (.ok (), after) => (.done, after)
    | (.error error, after) => (.refused error, after)
  | .deregister name =>
    match deregister probe.group probe.chain name node with
    | (none, after) => (.done, after)
    | (some error, after) => (.refused error, after)

/-- Clean up after a listener that was deregistered, given how a probe deregisters others. -/
def cleanUp (deregister : String → ChainId → String → Node → Option RegistryError × Node)
    (id : ListenerId) (node : Node) : Option AcceptError × Node :=
  match node.listeners[id]? with
  | none => (none, node)
  | some (.index _) => (none, node.closeIndex id)
  | some (.probe probe) =>
    match probe.action with
    | none => (probe.cleanupFailure, node)
    | some action =>
      let (outcome, after) := act deregister probe node action
      (probe.cleanupFailure, after.noteOutcome probe.notes outcome)

/-- Deregister a listener, at most `depth` deregistrations deep: drain, clean up, remove. -/
def deregisterWithin : (depth : Nat) → (group : String) → (chain : ChainId) → (name : String) →
    (node : Node) → Option RegistryError × Node
  | 0, _, chain, name, node => (some (.notFound chain name), node)
  | depth + 1, group, chain, name, node =>
    match (node.group group).drain chain name with
    | .error error => (some error, node)
    | .ok (registration, draining) =>
      let (failed, cleaned) :=
        cleanUp (deregisterWithin depth) registration.listener (node.setGroup group draining)
      let removed := cleaned.setGroup group ((cleaned.group group).remove registration.ticket)
      (failed.map (.cleanup chain name), removed.report [Registry.deregisterLine chain name])

def activeCount (node : Node) : Nat :=
  node.groups.toList.foldl (fun count (_, registry) => count + registry.activeCount) 0

/-- Deregister the active listener of a name from a chain of a group. -/
def deregister (node : Node) (group : String) (chain : ChainId) (name : String) :
    Option RegistryError × Node :=
  deregisterWithin (node.activeCount + 1) group chain name node

end DecisionLedger.Node
