import DecisionLedger.Proofs.Descent
import DecisionLedger.Proofs.Tenure

/-! # Refusals

Which errors a call may end with before anything is written.  A manager in step with its store can
read all that it needs, so it refuses for reasons that lie in the units alone.  That a layer below a
unit is gone is such a reason, but is found only where one is.
-/

namespace DecisionLedger

namespace ManagerError

/-- Whether an error says that a unit may not be handled so, rather than that something broke. -/
def isRefusal : ManagerError → Bool
  | storageFailure _ | listenerFailures _ | halted _ | unfounded => false
  | malformed _ | invalidHeight _ _ | invalidTimestamp _ _ | unknownParent _ | invalidParent _ _
  | notFound _ | alreadyRejected _ | doubleSpend _ | inputNotFound _ | acceptsProposal _
  | rejectsProposal _ | notAProposal _ | outOfOrder _ _ => true

end ManagerError

/-- An outcome that is no error but a refusal. -/
inductive Refuses {α : Type} : Except ManagerError α → Prop where
  | ok (value : α) : Refuses (.ok value)
  | error {problem : ManagerError} : problem.isRefusal = true → Refuses (.error problem)

namespace Refuses

variable {α β : Type}

theorem isRefusal {outcome : Except ManagerError α} (refuses : Refuses outcome)
    {error : ManagerError} (failed : outcome = .error error) : error.isRefusal = true := by
  cases refuses with
  | ok value => cases failed
  | error refusal =>
      cases failed
      exact refusal

end Refuses

/-- An outcome that is no error but a refusal, and that says only if `lost` that a layer is gone. -/
structure Blames (lost : Prop) {α : Type} (outcome : Except ManagerError α) : Prop where
  refuses : Refuses outcome
  lost : ∀ blamed, outcome = .error (.invalidParent blamed .branchLost) → lost

namespace Blames

variable {α β : Type} {lost : Prop}

theorem ok (value : α) : Blames lost (.ok value) := ⟨.ok value, nofun⟩

theorem error {problem : ManagerError} (refusal : problem.isRefusal = true)
    (gone : ∀ blamed, problem = .invalidParent blamed .branchLost → lost) :
    Blames lost (.error problem : Except ManagerError α) :=
  ⟨.error refusal, fun blamed same => gone blamed (Except.error.inj same)⟩

theorem ofDiffError {error : DiffError} (gone : ∀ unit, error = .missingBase unit → lost) :
    Blames lost (.error (.ofDiffError error) : Except ManagerError α) := by
  cases error with
  | doubleSpend | inputNotFound => exact .error rfl nofun
  | missingBase unit => exact .error rfl fun _ _ => gone unit rfl

theorem bind {outcome : Except ManagerError α} {next : α → Except ManagerError β}
    (first : Blames lost outcome)
    (later : ∀ value, outcome = .ok value → Blames lost (next value)) :
    Blames lost (outcome >>= next) := by
  cases outcome with
  | error problem =>
      exact .error (first.refuses.isRefusal rfl) fun blamed same => first.lost blamed (same ▸ rfl)
  | ok value => exact later value rfl

theorem forM {values : List α} {check : α → Except ManagerError Unit}
    (checked : ∀ value, Blames lost (check value)) : Blames lost (values.forM check) := by
  induction values with
  | nil => exact ok ()
  | cons value rest ih => exact bind (checked value) fun _ _ => ih

end Blames

namespace Manager

variable {manager : Manager} {store : Store} {accepted : List DecisionUnit}

section Examination

variable {parent unit : DecisionUnit} {lost : Prop}

theorem blames_resolveParent (id : UnitId) : Blames lost (manager.resolveParent store id) := by
  unfold resolveParent
  repeat' split
  · exact .ok _
  · exact .ok _
  all_goals exact .error rfl nofun

theorem blames_checkHeight : Blames lost (checkHeight parent unit) := by
  dsimp only [checkHeight]
  split
  · exact .ok ()
  · exact .error rfl nofun

theorem blames_checkTime : Blames lost (checkTime parent unit) := by
  unfold checkTime
  split
  · split
    · exact .error rfl nofun
    · exact .ok ()
  · exact .ok ()

theorem blames_checkEdge (lists : store.Lists accepted) (height : Height) (edge : UnitId) :
    Blames lost (manager.checkEdge store height edge) := by
  have known : ∃ found, manager.knownHeight? store edge = .ok found := by
    unfold knownHeight?
    split
    · exact ⟨_, rfl⟩
    · split
      · exact ⟨_, rfl⟩
      · rw [lists.unit?]
        exact ⟨_, rfl⟩
  obtain ⟨found, known⟩ := known
  unfold checkEdge
  rw [known]
  cases found with
  | none => exact .error rfl nofun
  | some below =>
      dsimp only
      split
      · exact .error rfl nofun
      · exact .ok ()

theorem blames_checkNotProposal : Blames lost (checkNotProposal parent) := by
  unfold checkNotProposal
  split
  · exact .error rfl (by simp)
  · exact .ok ()

theorem blames_executeOption (choice : Choice) :
    Blames lost (manager.executeOption parent choice) := by
  unfold executeOption
  split
  · exact .error rfl (by simp)
  · split
    · exact .error rfl (by simp)
    · exact .ok _

section Below

variable (gone : ((manager.versions store).view unit.parent).base ≠ .accepted → lost)
include gone

/-- A layer is found to be gone only if the way down from the unit's parent is not whole. -/
theorem blames_executeTransactions (transactions : List Transaction) :
    Blames lost (manager.executeTransactions store unit transactions) := by
  dsimp only [executeTransactions]
  split
  · exact .ok _
  · rename_i failed
    refine .ofDiffError fun blamed missing => gone fun whole => ?_
    exact Diff.executeAll_ne_missing whole _ transactions (missing ▸ failed)

theorem blames_executeProposal (proposal : Proposal) :
    Blames lost (manager.executeProposal store unit proposal) := by
  unfold executeProposal
  split
  · exact .ok _
  · rename_i failed
    refine .ofDiffError fun blamed missing => gone fun whole => ?_
    subst missing
    rcases bind_eq_error_iff.mp failed with missing | ⟨_, -, recorded⟩
    · exact Diff.executeOn_ne_missing whole _ proposal.effect missing
    · cases recorded

theorem blames_execute (lists : store.Lists accepted) :
    Blames lost (manager.execute store parent unit) := by
  unfold execute
  cases unit.body with
  | standard transactions =>
      exact .bind blames_checkNotProposal fun _ _ => blames_executeTransactions gone transactions
  | proposal proposal =>
      exact .bind blames_checkNotProposal fun _ _ => blames_executeProposal gone proposal
  | commit => exact blames_executeOption .commit
  | abort => exact blames_executeOption .abort
  | vertex edges transactions =>
      refine .bind blames_checkNotProposal fun _ _ => .bind (.forM fun edge => ?_) fun _ _ => ?_
      · exact blames_checkEdge lists unit.height edge
      · exact blames_executeTransactions gone transactions

end Below

theorem blames_examine (lists : store.Lists accepted)
    (gone : ∀ parent, manager.resolveParent store unit.parent = .ok parent →
      ((manager.versions store).view unit.parent).base ≠ .accepted → lost) :
    Blames lost (manager.examine store unit) := by
  unfold examine
  cases fault : unit.fault? manager.config.maxUnitSize with
  | some found => exact .error rfl nofun
  | none =>
      refine .bind (blames_resolveParent unit.parent) fun parent found =>
        .bind blames_checkHeight fun _ _ => .bind blames_checkTime fun _ _ =>
          .bind (blames_execute (gone parent found) lists) fun execution _ => ?_
      dsimp only
      split
      · exact .error rfl nofun
      · exact .ok _

end Examination

theorem ensureRunning_eq_ok_iff {done : Unit} :
    manager.ensureRunning = .ok done ↔ manager.halted = none := by
  unfold ensureRunning
  cases manager.halted <;> simp

/-- A manager that runs refuses to verify a unit for what the unit is. -/
theorem blames_verify (lists : store.Lists accepted) (running : manager.halted = none)
    {unit : DecisionUnit} {lost : Prop}
    (gone : ∀ parent, manager.resolveParent store unit.parent = .ok parent →
      ((manager.versions store).view unit.parent).base ≠ .accepted → lost) :
    Blames lost (manager.verify store unit) := by
  unfold verify
  refine .bind ?_ fun _ _ => ?_
  · rw [ensureRunning_eq_ok_iff.mpr running]
    exact .ok ()
  · split
    · exact .ok _
    · split
      · exact .error rfl nofun
      · exact .bind (blames_examine lists gone) fun _ _ => .ok _

theorem refuses_verify (lists : store.Lists accepted) (running : manager.halted = none)
    (unit : DecisionUnit) : Refuses (manager.verify store unit) :=
  (blames_verify lists running fun _ _ _ => trivial).refuses

theorem refuses_reject (running : manager.halted = none) (unit : UnitId) :
    Refuses (manager.reject unit) := by
  have blames : Blames True (manager.reject unit) := by
    unfold reject
    refine .bind ?_ fun _ _ => ?_
    · rw [ensureRunning_eq_ok_iff.mpr running]
      exact .ok ()
    · split
      · exact .ok _
      · split
        · exact .error rfl nofun
        · exact .error rfl nofun
        · exact .ok _
  exact blames.refuses

theorem refuses_plan (unit : UnitId) : Refuses (manager.plan store unit) := by
  unfold Manager.plan
  split
  · exact .error rfl
  · split
    · exact .error rfl
    · dsimp only [planUnit]
      split
      · exact .ok _
      · exact .error rfl
    · dsimp only [planOption]
      split
      · exact .error rfl
      · split
        · split
          · exact .ok _
          · exact .error rfl
        · exact .error rfl

theorem verify_of_halted {reason : HaltReason} (halted : manager.halted = some reason)
    (unit : DecisionUnit) : manager.verify store unit = .error (.halted reason) := by
  unfold verify ensureRunning
  rw [halted]
  rfl

theorem reject_of_halted {reason : HaltReason} (halted : manager.halted = some reason)
    (unit : UnitId) : manager.reject unit = .error (.halted reason) := by
  unfold reject ensureRunning
  rw [halted]
  rfl

end Manager

end DecisionLedger
