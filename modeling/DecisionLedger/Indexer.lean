import DecisionLedger.Index

/-! # Indexers

The indexer of a node decides for each chain whether to index it, and registers an index if so.  An
index is of use only if it is complete: a chain must not run unindexed between indexed runs.  The
markers in the store tell whether it did; unless incomplete indices are allowed, the indexer then
refuses the chain, closes, and has the node shut down.
-/

namespace DecisionLedger

/-- The settings of an indexer. -/
structure IndexerConfig where
  /-- Whether chains are indexed at all. -/
  enabled : Bool := true
  /-- Whether incomplete indices are put up with. -/
  allowsIncomplete : Bool := false
  deriving Repr, DecidableEq

/-- What becomes of a chain that is registered. -/
inductive IndexingVerdict where
  /-- It may not run. -/
  | refuse (reason : String)
  /-- It runs unindexed; its index is to be marked incomplete if it is not already. -/
  | skip (mark : Bool)
  /-- It is indexed, and is to be marked as indexed if it is not already. -/
  | index (mark : Bool)
  deriving Repr, DecidableEq

namespace IndexerConfig

/-- What becomes of a chain, given whether the node ran before the indexer was created and what the
markers of the chain say. -/
def verdict (config : IndexerConfig) (hasRunBefore isIncomplete isPreviouslyIndexed : Bool) :
    IndexingVerdict :=
  if !config.enabled then
    if isPreviouslyIndexed && !config.allowsIncomplete then
      .refuse "running with indexing disabled would make the index incomplete"
    else .skip (!isIncomplete)
  else if !config.allowsIncomplete && isIncomplete && (isPreviouslyIndexed || hasRunBefore) then
    .refuse "the index is incomplete"
  else .index (!isPreviouslyIndexed)

end IndexerConfig

/-- What an indexer needs of the world outside; `ι` names the indices that it has made. -/
structure IndexerHost (ι ω : Type) where
  /-- The store as it is. -/
  store : ω → Store
  /-- Write a batch, or fail and change nothing. -/
  write : Batch → ω → Except WriteError ω
  /-- Make an index and register it as a listener of its chain under its name. -/
  enlist : Index → ω → Except RegistryError ι × ω
  /-- Close an index. -/
  close : ι → ω → ω
  dismiss : ChainId → String → ω → Option RegistryError × ω
  /-- Log a line. -/
  report : LogLine → ω → ω

/-- An index that an indexer has registered. -/
structure OpenIndex (ι : Type) where
  index : Index
  handle : ι
  deriving Repr, DecidableEq

/-- The indexer of a node. -/
structure Indexer (ι : Type) where
  config : IndexerConfig
  /-- Whether the node ran on the store before the indexer was created. -/
  hasRunBefore : Bool
  isClosed : Bool := false
  /-- The indices of each chain. -/
  indices : Std.ExtTreeMap ChainId (List (OpenIndex ι)) := ∅

namespace Indexer

variable {ι ω : Type}

/-- Create an indexer, and note in the store that the node has run. -/
def create (host : IndexerHost ι ω) (config : IndexerConfig) (world : ω) :
    Except WriteError (Indexer ι × ω) :=
  let hasRunBefore := (host.store world).hasRun
  if hasRunBefore then .ok ({ config, hasRunBefore }, world)
  else
    match host.write .markHasRun world with
    | .ok written => .ok ({ config, hasRunBefore }, written)
    | .error error => .error error

/-- The sorts of containers that are indexed for a chain. -/
def contentsOf : Flavor → List Contents
  | .linear => [.units .linear]
  | .graph => [.units .graph, .transactions]

def writeIf (host : IndexerHost ι ω) (wanted : Bool) (batch : Batch) (world : ω) :
    Except WriteError ω :=
  if wanted then host.write batch world else .ok world

/-- Register an index for each sort of containers in turn; the first that fails ends it. -/
def enlistEach (host : IndexerHost ι ω) (name : String) (chain : ChainId) :
    List Contents → Indexer ι → ω → Except IndexerError Unit × Indexer ι × ω
  | [], indexer, world => (.ok (), indexer, world)
  | contents :: rest, indexer, world =>
    let index : Index := { chain, contents }
    match host.enlist index world with
    | (.error error, after) => (.error (.registry error), indexer, after)
    | (.ok handle, after) =>
      let known := indexer.indices.getD chain []
      let grown :=
        { indexer with indices := indexer.indices.insert chain (known ++ [{ index, handle }]) }
      let line : LogLine := .info s!"indexing {contents.containerName}s of chain {name} ({chain})"
      enlistEach host name chain rest grown (host.report line after)

/-- Deal with a chain that is not indexed yet. -/
def takeIn (host : IndexerHost ι ω) (indexer : Indexer ι) (name : String) (chain : ChainId)
    (flavor : Flavor) (world : ω) : Except IndexerError Unit × Indexer ι × ω :=
  let store := host.store world
  match indexer.config.verdict indexer.hasRunBefore (store.isIncomplete chain)
      (store.isPreviouslyIndexed chain) with
  | .refuse reason => (.error (.incompleteIndex chain reason), indexer, world)
  | .skip mark =>
    match writeIf host mark (.markIncomplete chain) world with
    | .error error => (.error (.unwritable error), indexer, world)
    | .ok written =>
      let line : LogLine := .info s!"indexing is disabled; chain {name} ({chain}) is not indexed"
      (.ok (), indexer, host.report line written)
  | .index mark =>
    match writeIf host mark (.markPreviouslyIndexed chain) world with
    | .error error => (.error (.unwritable error), indexer, world)
    | .ok written => enlistEach host name chain (contentsOf flavor) indexer written

/-- Close and deregister indices one after another; the first failure is kept. -/
def dismissEach (host : IndexerHost ι ω) :
    List (OpenIndex ι) → ω → Option RegistryError × ω
  | [], world => (none, world)
  | opened :: rest, world =>
    let chain := opened.index.chain
    let closed := host.close opened.handle world
    let (failed, dismissed) := host.dismiss chain opened.index.name closed
    let reported := match failed with
      | none => dismissed
      | some error =>
        host.report
          (.error (s!"failed to deregister the {opened.index.contents.containerName} index of " ++
            s!"chain {chain}: {error.message}"))
          dismissed
    let (later, final) := dismissEach host rest reported
    (failed <|> later, final)

/-- Stop indexing: close and deregister every index.  Doing so twice changes nothing. -/
def close (host : IndexerHost ι ω) (indexer : Indexer ι) (world : ω) :
    Except IndexerError Unit × Indexer ι × ω :=
  if indexer.isClosed then (.ok (), indexer, world)
  else
    let opened := indexer.indices.toList.flatMap Prod.snd
    let (failed, after) := dismissEach host opened world
    let result := match failed with
      | none => .ok ()
      | some error => .error (.registry error)
    (result, { indexer with isClosed := true, indices := ∅ }, after)

/-- Register a chain.  If it may not run, or a write or a registration fails, the indexer closes. -/
def register (host : IndexerHost ι ω) (indexer : Indexer ι) (name : String) (chain : ChainId)
    (flavor : Flavor) (world : ω) : Except IndexerError Unit × Indexer ι × ω :=
  if indexer.isClosed then (.error .closed, indexer, world)
  else if chain ∈ indexer.indices then
    let line : LogLine := .warning s!"chain {name} ({chain}) is already being indexed"
    (.ok (), indexer, host.report line world)
  else
    match indexer.takeIn host name chain flavor world with
    | (.ok (), admitted, after) => (.ok (), admitted, after)
    | (.error error, admitted, after) =>
      let failure : LogLine :=
        .error s!"failed to register chain {name} to indexer: {error.message}"
      match admitted.close host (host.report failure after) with
      | (.ok (), closed, final) => (.error error, closed, final)
      | (.error closeError, closed, final) =>
        let line : LogLine := .error s!"failed to close indexer: {closeError.message}"
        (.error error, closed, host.report line final)

def find? (indexer : Indexer ι) (chain : ChainId) (wanted : Contents → Bool) :
    Option (OpenIndex ι) :=
  (indexer.indices.getD chain []).find? fun opened => wanted opened.index.contents

def unitIndex? (indexer : Indexer ι) (chain : ChainId) : Option (OpenIndex ι) :=
  indexer.find? chain fun
    | .units _ => true
    | .transactions => false

def transactionIndex? (indexer : Indexer ι) (chain : ChainId) : Option (OpenIndex ι) :=
  indexer.find? chain (· = .transactions)

end Indexer

end DecisionLedger
