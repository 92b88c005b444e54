import DecisionLedger.DecisionUnit

/-! # Containers

Whatever is accepted on a chain can be indexed as containers.  An index holds either the accepted
units of a chain or the transactions that they carry.
-/

namespace DecisionLedger

/-- How the units of a chain are linked. -/
inductive Flavor where
  /-- Blocks, each extending one block. -/
  | linear
  /-- Vertices, which may refer to further vertices. -/
  | graph
  deriving Repr, DecidableEq

namespace Flavor

def unitName : Flavor → String
  | linear => "block"
  | graph => "vertex"

end Flavor

/-- What the containers of an index are. -/
inductive Contents where
  /-- The accepted units of a chain of the given flavor. -/
  | units (flavor : Flavor)
  /-- The transactions of the accepted standard units and vertices. -/
  | transactions
  deriving Repr, DecidableEq

namespace Contents

def containerName : Contents → String
  | units flavor => flavor.unitName
  | transactions => "transaction"

/-- The byte that keeps the indices of one chain apart. -/
def tag : Contents → UInt8
  | units _ => 0
  | transactions => 1

/-- The name under which the index of a chain listens. -/
def indexName (chain : ChainId) : Contents → String
  | units _ => s!"index-{chain}"
  | transactions => s!"tx-index-{chain}"

end Contents

/-- An accepted unit or transaction as an index stores it. -/
structure Container where
  id : ContainerId
  bytes : Bytes
  /-- Nanoseconds from the epoch to the moment of acceptance. -/
  acceptedAt : UInt64
  deriving Repr, DecidableEq

namespace Container

/-- Identity, bytes, time. -/
def format : Format Container :=
  (Digest.format.pair (Format.bytes.pair Format.word))
    |>.transport (fun (id, bytes, acceptedAt) => { id, bytes, acceptedAt })
      (fun container => (container.id, container.bytes, container.acceptedAt))
      (fun _ => rfl) (fun _ => rfl)

end Container

end DecisionLedger
