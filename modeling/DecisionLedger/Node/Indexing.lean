import DecisionLedger.Indexer
import DecisionLedger.Node.Listening

/-! # Indexers on a node

An indexer works on one disk and one listener group of a node.  When it closes, the node's shutdown
action is started, once.
-/

namespace DecisionLedger

/-- How far the shutdown action of an indexer has come. -/
inductive Shutdown where
  /-- Not started. -/
  | idle
  /-- Started; its end has not been waited for. -/
  | started
  /-- Waited for. -/
  | finished
  deriving Repr, DecidableEq

/-- An indexer on a node. -/
structure HostedIndexer where
  indexer : Indexer ListenerId
  disk : String
  group : String
  /-- Whether the shutdown action breaks. -/
  breaks : Bool
  shutdown : Shutdown := .idle

namespace HostedIndexer

/-- A node as the world of an indexer on a disk and a group. -/
def host (disk group : String) : IndexerHost ListenerId Node where
  store node := node.store disk
  write batch node := node.write disk batch
  enlist index node :=
    let (id, grown) := node.addListener fun _ => .index { index, disk }
    match grown.register group index.chain index.name id false with
    | (.ok (), after) => (.ok id, after)
    | (.error error, after) => (.error error, after)
  close id node := node.closeIndex id
  dismiss chain name node := node.deregister group chain name
  report line node := node.report [line]

def create (node : Node) (disk group : String) (config : IndexerConfig) (breaks : Bool) :
    Except WriteError (HostedIndexer × Node) :=
  match Indexer.create (host disk group) config node with
  | .error error => .error error
  | .ok (indexer, after) => .ok ({ indexer, disk, group, breaks }, after)

/-- Start the shutdown action of an indexer that has just closed. -/
def adopt (hosted : HostedIndexer) (indexer : Indexer ListenerId) : HostedIndexer :=
  let closes := indexer.isClosed && !hosted.indexer.isClosed
  { hosted with indexer, shutdown := if closes then .started else hosted.shutdown }

def register (hosted : HostedIndexer) (node : Node) (name : String) (chain : ChainId)
    (flavor : Flavor) : Except IndexerError Unit × HostedIndexer × Node :=
  let (outcome, indexer, after) :=
    hosted.indexer.register (host hosted.disk hosted.group) name chain flavor node
  (outcome, hosted.adopt indexer, after)

def close (hosted : HostedIndexer) (node : Node) :
    Except IndexerError Unit × HostedIndexer × Node :=
  let (outcome, indexer, after) := hosted.indexer.close (host hosted.disk hosted.group) node
  (outcome, hosted.adopt indexer, after)

/-- Wait for the shutdown action, if it was started, and give what it has noted. -/
def wait (hosted : HostedIndexer) (node : Node) : List String × HostedIndexer × Node :=
  match hosted.shutdown with
  | .started =>
    let lines := if hosted.breaks then [.error "indexer shutdown action panicked"] else []
    (["shut down"], { hosted with shutdown := .finished }, node.report lines)
  | .idle | .finished => ([], hosted, node)

end HostedIndexer

end DecisionLedger
