import DecisionLedger.Node.Chain
import DecisionLedger.Node.Indexing
import DecisionLedger.Bytes.Hex
import DecisionLedger.Proofs.Discarding
import DecisionLedger.Proofs.Examination
import DecisionLedger.Proofs.Chronicle
import DecisionLedger.Proofs.PendingTree
import DecisionLedger.Proofs.Ledger
import DecisionLedger.Proofs.RootedTree
import DecisionLedger.Proofs.Settling
import DecisionLedger.Proofs.Planning
import DecisionLedger.Proofs.Replay
import DecisionLedger.Proofs.Overlay
import DecisionLedger.Proofs.StateChanges
import DecisionLedger.Proofs.Lineage
import DecisionLedger.Proofs.Soundness
import DecisionLedger.Proofs.Preservation
import DecisionLedger.Proofs.Session
import DecisionLedger.Proofs.Founding
import DecisionLedger.Proofs.NodeHost
import DecisionLedger.Proofs.Standing
import DecisionLedger.Proofs.AcceptedState
import DecisionLedger.Proofs.LinearLedger
import DecisionLedger.Proofs.Snapshots
import DecisionLedger.Proofs.Tenure
import DecisionLedger.Proofs.Turns
import DecisionLedger.Proofs.Claims
import DecisionLedger.Proofs.Recollection
import DecisionLedger.Proofs.Lifecycle
import DecisionLedger.Proofs.Observation
import DecisionLedger.Proofs.Refusals
import DecisionLedger.Proofs.Halting
import DecisionLedger.Proofs.Atomicity
import DecisionLedger.Proofs.Audience
import DecisionLedger.Proofs.GroupHost
import DecisionLedger.Proofs.Hearings
import DecisionLedger.Proofs.Delivery
import DecisionLedger.Proofs.NodeGroups
import DecisionLedger.Proofs.Agreement
import DecisionLedger.Proofs.Ascents
import DecisionLedger.Proofs.Announcing
import DecisionLedger.Proofs.EventStream
import DecisionLedger.Proofs.Likeness
import DecisionLedger.Proofs.Windows
import DecisionLedger.Proofs.UnitCodec
import DecisionLedger.Proofs.Intake
import DecisionLedger.Proofs.Layout
import DecisionLedger.Proofs.Catalogue
import DecisionLedger.Proofs.Filing
import DecisionLedger.Proofs.Coverage
import DecisionLedger.Proofs.Admission
import DecisionLedger.Proofs.Completeness
import DecisionLedger.Proofs.Lockstep
import DecisionLedger.Proofs.Chronology
import DecisionLedger.Proofs.Restart
import DecisionLedger.Proofs.Markers
import DecisionLedger.Proofs.MarkerPolicy
import DecisionLedger.Proofs.Rosters
import DecisionLedger.Proofs.Indifference
import DecisionLedger.Proofs.Sharing
import DecisionLedger.Proofs.Isolation
import DecisionLedger.Proofs.Dependence
import DecisionLedger.Proofs.Traversal
import DecisionLedger.Proofs.Withdrawal
import DecisionLedger.Proofs.Displacement
import DecisionLedger.Proofs.Releasing
import DecisionLedger.Proofs.Eligibility
import DecisionLedger.Proofs.Decisions
import DecisionLedger.Proofs.Descent
import DecisionLedger.Proofs.Resolution
import DecisionLedger.Proofs.Recording
import DecisionLedger.Proofs.Executing
import DecisionLedger.Proofs.Flattening
import DecisionLedger.Proofs.SharedMemory
import DecisionLedger.Proofs.Awaiting
import DecisionLedger.Proofs.Discipline
import DecisionLedger.Proofs.Deregistration
import DecisionLedger.Proofs.Testimony
import DecisionLedger.Proofs.Escalation
import DecisionLedger.Proofs.WellFormedness
import DecisionLedger.Proofs.TypedStore
import DecisionLedger.Proofs.Shuffling
import DecisionLedger.Proofs.Exchange
import DecisionLedger.Proofs.Amendments
import DecisionLedger.Proofs.Slices
import DecisionLedger.Proofs.Offspring
import DecisionLedger.Proofs.Neighbours
import DecisionLedger.Proofs.Enlisting
import DecisionLedger.Proofs.Teardown
import DecisionLedger.Proofs.Scans
import DecisionLedger.Proofs.References
