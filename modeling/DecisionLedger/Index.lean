import DecisionLedger.Registry

/-! # Indices

An index numbers the containers accepted on a chain in the order of acceptance, each once.  It lives
in a store: container by position, position by identity, and the number of containers.
-/

namespace DecisionLedger

/-- A moment, in nanoseconds from the epoch. -/
abbrev Instant := Int

namespace Instant

/-- The stamp of a moment in a container: its lowest 64 bits, and zero before the epoch. -/
def stamp (instant : Instant) : UInt64 :=
  UInt64.ofNat instant.toNat

end Instant

/-- Why a question to an index, or an operation of an indexer, fails. -/
inductive IndexerError where
  /-- Running a chain would leave its index incomplete. -/
  | incompleteIndex (chain : ChainId) (reason : String)
  | closed
  /-- There is no container at a position. -/
  | noContainer (index : AcceptIndex)
  | notIndexed (id : ContainerId)
  /-- No container at all. -/
  | noneAccepted
  | invalidCount (count limit : UInt64)
  | invalidStart (start next : AcceptIndex)
  | unreadable (error : ReadError)
  | unwritable (error : WriteError)
  | registry (error : RegistryError)
  deriving Repr, DecidableEq

namespace IndexerError

def message : IndexerError → String
  | incompleteIndex chain reason => s!"index of chain {chain} is incomplete: {reason}"
  | closed => "indexer is closed"
  | noContainer index => s!"no container at index {index}"
  | notIndexed id => s!"container {id} is not indexed"
  | noneAccepted => "no containers have been accepted"
  | invalidCount count limit =>
    s!"invalid range: count is {count}, but must be in [1, {limit}]"
  | invalidStart start next =>
    s!"invalid range: start is {start}, but only {next} containers have been accepted"
  | unreadable error => error.message
  | unwritable error => error.message
  | registry error => error.message

/-- An unreadable variable as an index error. -/
def ofRead {α : Type} : Except ReadError α → Except IndexerError α
  | .ok value => .ok value
  | .error error => .error (.unreadable error)

end IndexerError

/-- The index of a chain's containers of one sort. -/
structure Index where
  chain : ChainId
  contents : Contents
  deriving Repr, DecidableEq

namespace Index

/-- The name under which an index listens. -/
def name (index : Index) : String :=
  index.contents.indexName index.chain

/-- The containers that accepting a unit gives. -/
def containers (index : Index) (acceptedAt : Instant) (unit : DecisionUnit) : List Container :=
  let stamp := acceptedAt.stamp
  match index.contents with
  | .units _ => [{ id := unit.id, bytes := unit.bytes, acceptedAt := stamp }]
  | .transactions =>
    unit.body.transactions.map fun transaction =>
      { id := transaction.containerId, bytes := transaction.encode, acceptedAt := stamp }

/-- The containers that are in an index neither in the store nor among `earlier`, each once.  They
are written at the positions from `next` on; one that is too long to be written ends it. -/
def fresh (index : Index) (store : Store) (next : AcceptIndex)
    (earlier : Std.ExtTreeSet ContainerId) : List Container → Except AcceptError (List Container)
  | [] => .ok []
  | container :: rest =>
    if container.id ∈ earlier then fresh index store next earlier rest
    else
      match store.position? index.chain index.contents container.id with
      | .error error => .error (.unreadable error)
      | .ok (some _) => fresh index store next earlier rest
      | .ok none =>
        if Container.format.fits container then do
          let further ← fresh index store (next + 1) (earlier.insert container.id) rest
          pure (container :: further)
        else .error (.unencodable (.container index.chain index.contents next))

/-- Write containers at the positions from `next` on. -/
def place (index : Index) (next : AcceptIndex) : List Container → Batch
  | [] => []
  | container :: rest =>
    Batch.setContainer index.chain index.contents next container ++
      Batch.setPosition index.chain index.contents container.id next ++
      place index (next + 1) rest

/-- What indexing an accepted unit writes: nothing if all its containers are indexed. -/
def additions (index : Index) (store : Store) (acceptedAt : Instant) (unit : DecisionUnit) :
    Except AcceptError Batch := do
  let next ← AcceptError.ofRead (store.nextIndex index.chain index.contents)
  let added ← index.fresh store next ∅ (index.containers acceptedAt unit)
  if added.isEmpty then pure []
  else
    pure (index.place next added ++
      Batch.setNext index.chain index.contents (next + UInt64.ofNat added.length))

/-- Index an accepted unit on a disk. -/
def accept (index : Index) (disk : Disk) (acceptedAt : Instant) (unit : DecisionUnit) :
    Except AcceptError Disk :=
  match index.additions disk.store acceptedAt unit with
  | .error error => .error error
  | .ok [] => .ok disk
  | .ok batch =>
    match disk.write batch with
    | .ok written => .ok written
    | .error error => .error (.unwritable error)

def byIndex (index : Index) (store : Store) (position : AcceptIndex) :
    Except IndexerError Container := do
  match ← IndexerError.ofRead (store.container? index.chain index.contents position) with
  | some container => pure container
  | none => throw (.noContainer position)

def position (index : Index) (store : Store) (id : ContainerId) :
    Except IndexerError AcceptIndex := do
  match ← IndexerError.ofRead (store.position? index.chain index.contents id) with
  | some position => pure position
  | none => throw (.notIndexed id)

/-- The container with an identity. -/
def byId (index : Index) (store : Store) (id : ContainerId) : Except IndexerError Container := do
  let position ← index.position store id
  index.byIndex store position

def last (index : Index) (store : Store) : Except IndexerError Container := do
  let next ← IndexerError.ofRead (store.nextIndex index.chain index.contents)
  if next = 0 then throw .noneAccepted
  else index.byIndex store (next - 1)

/-- The most containers that one question gives. -/
def rangeLimit : UInt64 := 1024

/-- Up to `count` containers in the order of acceptance, from a position on. -/
def range (index : Index) (store : Store) (start : AcceptIndex) (count : UInt64) :
    Except IndexerError (List Container) := do
  if count = 0 || rangeLimit < count then throw (.invalidCount count rangeLimit)
  let next ← IndexerError.ofRead (store.nextIndex index.chain index.contents)
  if next ≤ start then throw (.invalidStart start next)
  let length := min count (next - start)
  (List.range length.toNat).mapM fun offset => index.byIndex store (start + UInt64.ofNat offset)

end Index

end DecisionLedger
