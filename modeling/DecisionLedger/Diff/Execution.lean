import DecisionLedger.Diff.View

/-! # Executing transactions

A transaction is executed on a diff if each of its inputs can be read through the diff and is
consumed neither by the diff nor by a layer below.  A proposal is executed into two diffs, one for
each way to decide it.
-/

namespace DecisionLedger

namespace Diff

/-- Check one input of a transaction. -/
def checkInput (view : View) (key : StateKey) : Except DiffError Unit := do
  if ← view.consumes key then throw (.doubleSpend key)
  match ← view.read key with
  | none => throw (.inputNotFound key)
  | some _ => pure ()

/-- Record the effect of a transaction: inputs consumed and deleted, outputs inserted, requests
added. -/
def record (diff : Diff) (transaction : Transaction) : Diff :=
  let consumed := transaction.inputs.foldl (fun diff key => (diff.consume key).delete key) diff
  let created := transaction.outputs.foldl (fun diff (key, value) => diff.put key value) consumed
  transaction.requests.foldl (fun diff (chain, requests) => diff.request chain requests) created

/-- Execute a transaction on a diff that lies on `below`. -/
def executeOn (below : View) (diff : Diff) (transaction : Transaction) : Except DiffError Diff := do
  transaction.inputs.forM (checkInput (below.under diff))
  pure (diff.record transaction)

/-- Execute a transaction on a diff, or leave the diff alone and say why. -/
def execute (diff : Diff) (versions : Versions) (transaction : Transaction) :
    Except DiffError Diff :=
  executeOn (versions.view diff.parent) diff transaction

def executeAll (diff : Diff) (versions : Versions) (transactions : List Transaction) :
    Except DiffError Diff :=
  transactions.foldlM (executeOn (versions.view diff.parent)) diff

end Diff

/-- The two ways that a proposal may go. -/
structure Branches where
  /-- The effect of the proposal. -/
  onCommit : Diff
  /-- No effect. -/
  onAbort : Diff
  /-- The choice that this node would make. -/
  preferred : Choice

namespace Branches

/-- Execute a proposal on the state of its parent. -/
def execute (versions : Versions) (parent : UnitId) (timestamp : Option Timestamp)
    (proposal : Proposal) : Except DiffError Branches := do
  let onAbort := Diff.empty parent timestamp
  let onCommit ← onAbort.execute versions proposal.effect
  pure { onCommit, onAbort, preferred := proposal.preferred }

/-- The diff of a choice. -/
def branch (branches : Branches) : Choice → Diff
  | .commit => branches.onCommit
  | .abort => branches.onAbort

end Branches

end DecisionLedger
