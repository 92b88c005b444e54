import DecisionLedger.Index

/-! # Nodes

A node runs any number of chains over named disks and named listener groups.  Its listeners are
probes, which note what they are told and can be made to fail or to act, and indices.
-/

namespace DecisionLedger

abbrev ListenerId := Nat

/-- What a probe does when it is deregistered, on the group and chain that it was made with. -/
inductive ProbeAction where
  /-- List the active listeners. -/
  | list
  /-- Register a further probe that shares its notes. -/
  | register (name : String) (tolerateDraining : Bool)
  | deregister (name : String)
  /-- Notify all listeners of the genesis unit. -/
  | notify
  deriving Repr, DecidableEq

/-- What came of a probe's action. -/
inductive ProbeOutcome where
  | done
  | listed (names : List String)
  | refused (error : RegistryError)
  | failed (error : NotifyError)
  deriving Repr, DecidableEq

/-- What a probe has noted. -/
structure ProbeNotes where
  /-- The units that it took, with their chains. -/
  received : List (ChainId × UnitId) := []
  /-- What came of its actions. -/
  outcomes : List ProbeOutcome := []
  deriving Repr, DecidableEq

/-- A listener that notes the units it takes. -/
structure Probe where
  /-- The number of the listener that keeps the notes. -/
  notes : ListenerId
  /-- The error with which it refuses every unit. -/
  failure : Option AcceptError := none
  critical : Bool := false
  /-- What it does when it is deregistered, if anything. -/
  action : Option ProbeAction := none
  /-- The error with which its deregistration ends. -/
  cleanupFailure : Option AcceptError := none
  /-- The group that it acts on. -/
  group : String
  /-- The chain that it acts on. -/
  chain : ChainId
  deriving Repr, DecidableEq

/-- An index on a disk, which takes units until it is closed. -/
structure HostedIndex where
  index : Index
  disk : String
  isClosed : Bool := false
  deriving Repr, DecidableEq

/-- A listener of a node. -/
inductive Listener where
  | probe (probe : Probe)
  | index (hosted : HostedIndex)
  deriving Repr, DecidableEq

/-- What the chains of a node share. -/
structure Node where
  disks : Std.ExtTreeMap String Disk
  groups : Std.ExtTreeMap String (Registry ListenerId)
  listeners : Std.ExtTreeMap ListenerId Listener
  notes : Std.ExtTreeMap ListenerId ProbeNotes
  nextListener : ListenerId
  /-- What time it is. -/
  clock : Instant
  /-- The lines logged, the oldest first. -/
  log : List LogLine

namespace Node

def empty (clock : Instant) : Node where
  disks := ∅
  groups := ∅
  listeners := ∅
  notes := ∅
  nextListener := 0
  clock
  log := []

def disk (node : Node) (name : String) : Disk :=
  node.disks.getD name .empty

def setDisk (node : Node) (name : String) (disk : Disk) : Node :=
  { node with disks := node.disks.insert name disk }

def store (node : Node) (name : String) : Store :=
  (node.disk name).store

def write (node : Node) (name : String) (batch : Batch) : Except WriteError Node :=
  match (node.disk name).write batch with
  | .ok written => .ok (node.setDisk name written)
  | .error error => .error error

def group (node : Node) (name : String) : Registry ListenerId :=
  node.groups.getD name .empty

def setGroup (node : Node) (name : String) (registry : Registry ListenerId) : Node :=
  { node with groups := node.groups.insert name registry }

def report (node : Node) (lines : List LogLine) : Node :=
  { node with log := node.log ++ lines }

/-- The lines logged, and the node without them. -/
def takeLog (node : Node) : List LogLine × Node :=
  (node.log, { node with log := [] })

def addListener (node : Node) (make : ListenerId → Listener) : ListenerId × Node :=
  let id := node.nextListener
  (id, { node with
    listeners := node.listeners.insert id (make id)
    nextListener := id + 1 })

def modifyListener (node : Node) (id : ListenerId) (change : Listener → Listener) : Node :=
  { node with listeners := node.listeners.modify id change }

/-- Set the error with which a probe refuses units. -/
def setFailure (node : Node) (id : ListenerId) (failure : Option AcceptError) : Node :=
  node.modifyListener id fun
    | .probe probe => .probe { probe with failure }
    | .index hosted => .index hosted

/-- Stop an index from taking units. -/
def closeIndex (node : Node) (id : ListenerId) : Node :=
  node.modifyListener id fun
    | .probe probe => .probe probe
    | .index hosted => .index { hosted with isClosed := true }

def isIndexClosed (node : Node) (id : ListenerId) : Bool :=
  match node.listeners[id]? with
  | some (.index hosted) => hosted.isClosed
  | _ => false

def notesOf (node : Node) (id : ListenerId) : ProbeNotes :=
  node.notes.getD id {}

def noteUnit (node : Node) (id : ListenerId) (chain : ChainId) (unit : UnitId) : Node :=
  let notes := node.notesOf id
  { node with
    notes := node.notes.insert id { notes with received := notes.received ++ [(chain, unit)] } }

def noteOutcome (node : Node) (id : ListenerId) (outcome : ProbeOutcome) : Node :=
  let notes := node.notesOf id
  { node with
    notes := node.notes.insert id { notes with outcomes := notes.outcomes ++ [outcome] } }

def takeNotes (node : Node) (id : ListenerId) : ProbeNotes × Node :=
  match node.listeners[id]? with
  | some (.probe probe) =>
    (node.notesOf probe.notes, { node with notes := node.notes.erase probe.notes })
  | _ => ({}, node)

end Node

end DecisionLedger
