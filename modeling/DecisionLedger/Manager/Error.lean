import DecisionLedger.Diff.Execution
import DecisionLedger.Registry

/-! # What a manager refuses

The reasons for which a manager of pending units refuses an operation, or halts.
-/

namespace DecisionLedger

/-- Why a unit may not extend, or refer to, a unit that is known. -/
inductive ParentFault where
  /-- Accepted, but not last. -/
  | notLast
  | rejected
  /-- Only options extend a proposal. -/
  | proposal
  /-- Options extend proposals only. -/
  | notProposal
  /-- The proposal has a pending option for the same choice. -/
  | optionTaken
  /-- An edge does not point down. -/
  | edgeHeight
  /-- A layer below is gone. -/
  | branchLost
  deriving Repr, DecidableEq

namespace ParentFault

def reason : ParentFault → String
  | notLast => "parent is accepted but is not the last accepted unit"
  | rejected => "parent was rejected"
  | proposal => "only Commit and Abort units may extend a Proposal"
  | notProposal => "Commit and Abort units must extend a Proposal"
  | optionTaken => "the proposal already has a pending unit deciding this option"
  | edgeHeight => "edges must point to units of lower height"
  | branchLost => "the branch it belongs to can no longer be accepted"

end ParentFault

/-- Why a chain has halted. -/
inductive HaltReason where
  /-- A commit failed. -/
  | commitFailed (error : WriteError)
  /-- A listener that must not miss a unit failed too often in a row. -/
  | listenerFailed (error : NotifyError)
  deriving Repr, DecidableEq

namespace HaltReason

def text : HaltReason → String
  | commitFailed error => "failed to commit accepted unit: " ++ error.message
  | listenerFailed error => "a listener requiring a complete index failed: " ++ error.message

end HaltReason

/-- Why a manager refuses an operation. -/
inductive ManagerError where
  | malformed (fault : UnitFault)
  | invalidHeight (expected : Nat) (actual : Height)
  | invalidTimestamp (parent child : Timestamp)
  /-- The parent or an edge is neither pending nor accepted. -/
  | unknownParent (parent : UnitId)
  | invalidParent (parent : UnitId) (fault : ParentFault)
  | notFound (unit : UnitId)
  /-- The unit was rejected before. -/
  | alreadyRejected (unit : UnitId)
  | doubleSpend (key : StateKey)
  | inputNotFound (key : StateKey)
  /-- A proposal is accepted through its options only. -/
  | acceptsProposal (unit : UnitId)
  /-- A proposal is rejected with its parent only. -/
  | rejectsProposal (unit : UnitId)
  | notAProposal (unit : UnitId)
  /-- The unit to accept does not extend the last accepted unit. -/
  | outOfOrder (unit lastAccepted : UnitId)
  | storageFailure (error : LedgerError)
  /-- The unit was accepted, but listeners failed. -/
  | listenerFailures (error : NotifyError)
  | halted (reason : HaltReason)
  /-- The store was never founded. -/
  | unfounded
  deriving Repr, DecidableEq

namespace ManagerError

def message : ManagerError → String
  | malformed fault => fault.message
  | invalidHeight expected actual =>
    s!"unit has height {actual}, but its parent's height plus one is {expected}"
  | invalidTimestamp parent child =>
    s!"unit has timestamp {child}, which is earlier than its parent's timestamp {parent}"
  | unknownParent parent => s!"parent {parent} is unknown"
  | invalidParent parent fault => s!"unit may not extend {parent}: {fault.reason}"
  | notFound unit => s!"unit {unit} not found"
  | alreadyRejected unit => s!"unit {unit} was rejected"
  | doubleSpend key => (DiffError.doubleSpend key).message
  | inputNotFound key => (DiffError.inputNotFound key).message
  | acceptsProposal unit =>
    s!"unit {unit} cannot be decided directly: " ++
      "a Proposal is accepted through its Commit or Abort child"
  | rejectsProposal unit =>
    s!"unit {unit} cannot be decided directly: " ++
      "a Proposal is rejected only together with its parent"
  | notAProposal unit => s!"unit {unit} is not a proposal"
  | outOfOrder unit lastAccepted =>
    s!"unit {unit} does not extend the last accepted unit {lastAccepted}"
  | storageFailure error => "storage failure: " ++ error.message
  | listenerFailures error => error.message
  | halted reason => "chain halted: " ++ reason.text
  | unfounded => "durable state has not been initialized"

/-- The refusal that a failed execution leads to. -/
def ofDiffError : DiffError → ManagerError
  | .doubleSpend key => doubleSpend key
  | .inputNotFound key => inputNotFound key
  | .missingBase unit => invalidParent unit .branchLost

end ManagerError

end DecisionLedger
