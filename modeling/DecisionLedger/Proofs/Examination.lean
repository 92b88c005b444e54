import DecisionLedger.Manager.Verification
import DecisionLedger.Proofs.Replay

/-! # What an examination establishes

A unit that passes the examination satisfies a fixed list of conditions on its parent, its edges and
its transactions.  What it is executed into depends on the unit alone: the state below decides
whether a unit can be executed, never what its effect is.
-/

namespace DecisionLedger

section Outcomes

variable {ε α β : Type}

theorem bind_eq_ok_iff {outcome : Except ε α} {next : α → Except ε β} {value : β} :
    outcome >>= next = .ok value ↔ ∃ first, outcome = .ok first ∧ next first = .ok value := by
  cases outcome with
  | error problem => simp [bind, Except.bind]
  | ok first => simp [bind, Except.bind]

theorem bind_eq_error_iff {outcome : Except ε α} {next : α → Except ε β} {problem : ε} :
    outcome >>= next = .error problem ↔
      outcome = .error problem ∨ ∃ first, outcome = .ok first ∧ next first = .error problem := by
  cases outcome <;> simp [bind, Except.bind]

theorem toOption_eq_some_iff {outcome : Except ε α} {value : α} :
    outcome.toOption = some value ↔ outcome = .ok value := by
  cases outcome with
  | error problem => simp [Except.toOption]
  | ok other => simp [Except.toOption]

theorem forM_eq_ok_iff {check : α → Except ε Unit} {values : List α} {done : Unit} :
    values.forM check = .ok done ↔ ∀ value ∈ values, check value = .ok () := by
  induction values with
  | nil => exact ⟨fun _ _ inside => absurd inside List.not_mem_nil, fun _ => rfl⟩
  | cons value rest ih =>
      change (check value >>= fun _ => rest.forM check) = .ok done ↔ _
      rw [bind_eq_ok_iff]
      constructor
      · rintro ⟨_, first, later⟩ other inside
        rcases List.mem_cons.mp inside with rfl | inside
        · exact first
        · exact ih.mp later other inside
      · intro all
        refine ⟨(), all value List.mem_cons_self, ih.mpr ?_⟩
        exact fun other inside => all other (List.mem_cons_of_mem _ inside)

theorem forM_eq_error_iff {check : α → Except ε Unit} {values : List α} {problem : ε} :
    values.forM check = .error problem ↔
      ∃ before value after, values = before ++ value :: after ∧
        (∀ earlier ∈ before, check earlier = .ok ()) ∧ check value = .error problem := by
  induction values with
  | nil =>
      constructor
      · nofun
      · rintro ⟨before, value, after, empty, -⟩
        simp at empty
  | cons value rest ih =>
      change (check value >>= fun _ => rest.forM check) = .error problem ↔ _
      rw [bind_eq_error_iff]
      constructor
      · rintro (failed | ⟨_, passed, later⟩)
        · exact ⟨[], value, rest, rfl, nofun, failed⟩
        · obtain ⟨before, other, after, rfl, earlier, failed⟩ := ih.mp later
          exact ⟨value :: before, other, after, rfl, by simpa using ⟨passed, earlier⟩, failed⟩
      · rintro ⟨before, other, after, split, earlier, failed⟩
        cases before with
        | nil =>
            cases split
            exact .inl failed
        | cons first before =>
            cases split
            have passed := earlier value List.mem_cons_self
            refine .inr ⟨(), passed, ih.mpr ⟨before, other, after, rfl, ?_, failed⟩⟩
            exact fun third inside => earlier third (List.mem_cons_of_mem _ inside)

end Outcomes

namespace DecisionUnit

/-- The effect of a unit's payload on top of its parent. -/
def effect (unit : DecisionUnit) : Diff :=
  unit.body.payload.foldl Diff.record (Diff.empty unit.parent unit.timestamp)

/-- What verifying the unit gives, if it can be verified. -/
def execution (unit : DecisionUnit) : Execution :=
  match unit.body with
  | .standard _ | .vertex _ _ => .effect unit.effect
  | .proposal proposed =>
    .proposal {
      onCommit := unit.effect
      onAbort := Diff.empty unit.parent unit.timestamp
      preferred := proposed.preferred }
  | .commit => .option .commit
  | .abort => .option .abort

/-- What a proposal adds to the state when a choice is made. -/
def branch (unit : DecisionUnit) : Choice → Diff
  | .commit => unit.effect
  | .abort => Diff.empty unit.parent unit.timestamp

/-- The unit as it is kept while it is pending. -/
def held (unit : DecisionUnit) : PendingUnit where
  unit
  execution := unit.execution

@[simp] theorem held_unit (unit : DecisionUnit) : unit.held.unit = unit := rfl

@[simp] theorem held_execution (unit : DecisionUnit) : unit.held.execution = unit.execution := rfl

theorem execution_eq_option_iff {unit : DecisionUnit} {choice : Choice} :
    unit.execution = .option choice ↔ unit.body.choice? = some choice := by
  unfold execution
  cases unit.body <;> simp [Body.choice?]

theorem execution_eq_effect_iff {unit : DecisionUnit} {diff : Diff} :
    unit.execution = .effect diff ↔
      (unit.kind = .standard ∨ unit.kind = .vertex) ∧ diff = unit.effect := by
  unfold execution kind
  cases unit.body <;> simp [Body.kind, eq_comm]

theorem choice?_eq (unit : DecisionUnit) :
    unit.body.choice? =
      match unit.kind with
      | .commit => some .commit
      | .abort => some .abort
      | _ => none := by
  unfold kind
  cases unit.body <;> rfl

theorem choice?_congr {unit other : DecisionUnit} (same : unit.kind = other.kind) :
    unit.body.choice? = other.body.choice? := by
  rw [choice?_eq, choice?_eq, same]

theorem isOption_of_choice? {unit : DecisionUnit} {choice : Choice}
    (chosen : unit.body.choice? = some choice) : unit.kind.isOption = true := by
  rw [choice?_eq] at chosen
  cases kind : unit.kind with
  | commit | abort => rfl
  | standard | proposal | vertex => simp [kind] at chosen

theorem exists_choice_of_isOption {unit : DecisionUnit} (option : unit.kind.isOption = true) :
    ∃ choice, unit.body.choice? = some choice := by
  rw [choice?_eq]
  cases kind : unit.kind with
  | commit => exact ⟨.commit, rfl⟩
  | abort => exact ⟨.abort, rfl⟩
  | standard | proposal | vertex => simp [kind, Kind.isOption] at option

theorem exists_execution_of_proposal {unit : DecisionUnit} (proposal : unit.kind = .proposal) :
    ∃ branches, unit.execution = .proposal branches ∧
      ∀ choice, branches.branch choice = unit.branch choice := by
  obtain ⟨proposed, body⟩ := unit.exists_of_proposal proposal
  rw [execution, body]
  refine ⟨_, rfl, fun choice => ?_⟩
  cases choice <;> rfl

theorem of_execution_eq_proposal {unit : DecisionUnit} {branches : Branches}
    (execution : unit.execution = .proposal branches) :
    unit.kind = .proposal ∧ ∀ choice, branches.branch choice = unit.branch choice := by
  have kind : unit.kind = .proposal := by
    unfold DecisionUnit.execution at execution
    unfold DecisionUnit.kind
    cases body : unit.body with
    | proposal proposed => rfl
    | standard | commit | abort | vertex => simp [body] at execution
  obtain ⟨other, same, branch⟩ := exists_execution_of_proposal kind
  rw [execution] at same
  cases same
  exact ⟨kind, branch⟩

end DecisionUnit

namespace Diff

theorem checkInput_eq_ok_iff {view : View} {key : StateKey} :
    checkInput view key = .ok () ↔
      view.consumes key = .ok false ∧ ∃ value, view.read key = .ok (some value) := by
  unfold checkInput
  cases consumed : view.consumes key with
  | error problem => simp [bind, Except.bind]
  | ok taken =>
      cases taken with
      | true => simp [bind, Except.bind, throw, throwThe, MonadExceptOf.throw]
      | false =>
          cases found : view.read key with
          | error problem => simp [bind, Except.bind]
          | ok value =>
              cases value <;>
                simp [bind, Except.bind, pure, Except.pure, throw, throwThe, MonadExceptOf.throw]

theorem executeOn_eq_ok_iff {below : View} {diff after : Diff} {transaction : Transaction} :
    executeOn below diff transaction = .ok after ↔
      (∀ key ∈ transaction.inputs, checkInput (below.under diff) key = .ok ()) ∧
        after = diff.record transaction := by
  unfold executeOn
  rw [bind_eq_ok_iff]
  constructor
  · rintro ⟨_, checked, done⟩
    cases done
    exact ⟨forM_eq_ok_iff.mp checked, rfl⟩
  · rintro ⟨checked, rfl⟩
    exact ⟨(), forM_eq_ok_iff.mpr checked, rfl⟩

theorem eq_foldl_of_executeAll {below : View} {transactions : List Transaction}
    {diff after : Diff} (done : transactions.foldlM (executeOn below) diff = .ok after) :
    after = transactions.foldl record diff := by
  induction transactions generalizing diff with
  | nil => cases done; rfl
  | cons transaction rest ih =>
      rw [List.foldlM_cons, bind_eq_ok_iff] at done
      obtain ⟨next, first, later⟩ := done
      obtain ⟨_, rfl⟩ := executeOn_eq_ok_iff.mp first
      exact ih later

end Diff

namespace Manager

/-- The conditions on which a unit that is not known yet becomes pending under a parent. -/
structure Admits (manager : Manager) (store : Store) (parent unit : DecisionUnit) : Prop where
  wellFormed : unit.fault? manager.config.maxUnitSize = none
  found : manager.resolveParent store unit.parent = .ok parent
  height : unit.height.toNat = parent.height.toNat + 1
  time : ∀ {before after}, parent.timestamp = some before → unit.timestamp = some after →
    before ≤ after
  option : unit.kind.isOption = true ↔ parent.kind = .proposal
  vacant : ∀ {choice}, unit.body.choice? = some choice → manager.optionOf? parent.id choice = none
  edges : ∀ edge ∈ unit.body.edges, ∃ below,
    manager.knownHeight? store edge = .ok (some below) ∧ below < unit.height
  executed : unit.body.payload.foldlM (Diff.executeOn ((manager.versions store).view unit.parent))
    (Diff.empty unit.parent unit.timestamp) = .ok unit.effect
  unclaimed : manager.claimed? unit.held.consumed = none

variable {manager : Manager} {store : Store} {parent unit : DecisionUnit}

theorem checkHeight_eq_ok_iff {done : Unit} :
    checkHeight parent unit = .ok done ↔ unit.height.toNat = parent.height.toNat + 1 := by
  simp [checkHeight, Height.above?_eq_some_iff]

theorem checkTime_eq_ok_iff {done : Unit} :
    checkTime parent unit = .ok done ↔
      ∀ {before after}, parent.timestamp = some before → unit.timestamp = some after →
        before ≤ after := by
  unfold checkTime
  cases parent.timestamp with
  | none => simp
  | some before =>
      cases unit.timestamp with
      | none => simp
      | some after =>
          by_cases backwards : after < before
          · simp [backwards]
          · simpa [backwards] using UInt64.not_lt.mp backwards

theorem checkEdge_eq_ok_iff {height : Height} {edge : UnitId} {done : Unit} :
    manager.checkEdge store height edge = .ok done ↔
      ∃ below, manager.knownHeight? store edge = .ok (some below) ∧ below < height := by
  unfold checkEdge
  cases manager.knownHeight? store edge with
  | error problem => simp
  | ok known =>
      cases known with
      | none => simp
      | some below =>
          by_cases high : height ≤ below
          · simp [high]
          · simpa [high] using UInt64.not_le.mp high

theorem checkNotProposal_eq_ok_iff {done : Unit} :
    checkNotProposal parent = .ok done ↔ parent.kind ≠ .proposal := by
  unfold checkNotProposal
  split <;> simp_all

theorem executeTransactions_eq_ok_iff {transactions : List Transaction} {execution : Execution} :
    manager.executeTransactions store unit transactions = .ok execution ↔
      ∃ diff, transactions.foldlM (Diff.executeOn ((manager.versions store).view unit.parent))
        (Diff.empty unit.parent unit.timestamp) = .ok diff ∧ execution = .effect diff := by
  dsimp only [executeTransactions, Diff.executeAll, Diff.empty]
  split
  · rename_i diff recorded
    simp [recorded, eq_comm]
  · rename_i problem recorded
    simp [recorded]

theorem executeProposal_eq_ok_iff {proposal : Proposal} {execution : Execution} :
    manager.executeProposal store unit proposal = .ok execution ↔
      ∃ diff, [proposal.effect].foldlM
        (Diff.executeOn ((manager.versions store).view unit.parent))
        (Diff.empty unit.parent unit.timestamp) = .ok diff ∧
      execution = .proposal {
        onCommit := diff
        onAbort := Diff.empty unit.parent unit.timestamp
        preferred := proposal.preferred } := by
  have single : [proposal.effect].foldlM
      (Diff.executeOn ((manager.versions store).view unit.parent))
      (Diff.empty unit.parent unit.timestamp) =
      (Diff.empty unit.parent unit.timestamp).execute (manager.versions store) proposal.effect :=
    bind_pure _
  rw [single]
  dsimp only [executeProposal, Branches.execute]
  cases (Diff.empty unit.parent unit.timestamp).execute (manager.versions store)
      proposal.effect with
  | error problem => simp [bind, Except.bind]
  | ok diff => simp [bind, Except.bind, pure, Except.pure, eq_comm]

theorem executeOption_eq_ok_iff {choice : Choice} {execution : Execution} :
    manager.executeOption parent choice = .ok execution ↔
      parent.kind = .proposal ∧ manager.optionOf? parent.id choice = none ∧
        execution = .option choice := by
  unfold executeOption
  by_cases proposal : parent.kind = .proposal
  · cases manager.optionOf? parent.id choice <;> simp [proposal, eq_comm]
  · simp [proposal]

/-- Executing gives what the unit alone determines, and says when it gives it. -/
theorem execute_eq_ok_iff {execution : Execution} :
    manager.execute store parent unit = .ok execution ↔
      execution = unit.execution ∧
      (unit.kind.isOption = true ↔ parent.kind = .proposal) ∧
      (∀ choice, unit.body.choice? = some choice → manager.optionOf? parent.id choice = none) ∧
      (∀ edge ∈ unit.body.edges, ∃ below,
        manager.knownHeight? store edge = .ok (some below) ∧ below < unit.height) ∧
      unit.body.payload.foldlM (Diff.executeOn ((manager.versions store).view unit.parent))
        (Diff.empty unit.parent unit.timestamp) = .ok unit.effect := by
  have settled : ∀ diff, unit.body.payload.foldlM
      (Diff.executeOn ((manager.versions store).view unit.parent))
      (Diff.empty unit.parent unit.timestamp) = .ok diff → diff = unit.effect :=
    fun diff done => Diff.eq_foldl_of_executeAll done
  have kind : unit.kind = unit.body.kind := rfl
  rw [kind]
  unfold execute DecisionUnit.execution
  cases body : unit.body with
  | standard transactions | proposal proposed =>
      rw [body] at settled
      simp only [bind_eq_ok_iff, checkNotProposal_eq_ok_iff, executeTransactions_eq_ok_iff,
        executeProposal_eq_ok_iff, Body.kind, Body.choice?, Body.edges, Body.payload,
        Kind.isOption] at settled ⊢
      constructor
      · rintro ⟨_, plain, diff, done, rfl⟩
        cases settled diff done
        simp [plain, done]
      · rintro ⟨rfl, plain, -, -, done⟩
        exact ⟨(), by simpa using plain, _, done, rfl⟩
  | commit | abort =>
      simp only [executeOption_eq_ok_iff, Body.kind, Body.choice?, Body.edges, Body.payload,
        Kind.isOption, DecisionUnit.effect, body]
      constructor
      · rintro ⟨proposal, vacant, rfl⟩
        simp [proposal, vacant, pure, Except.pure]
      · rintro ⟨rfl, proposal, vacant, -, -⟩
        exact ⟨proposal.mp trivial, vacant _ rfl, rfl⟩
  | vertex edges transactions =>
      rw [body] at settled
      simp only [bind_eq_ok_iff, checkNotProposal_eq_ok_iff, executeTransactions_eq_ok_iff,
        forM_eq_ok_iff, checkEdge_eq_ok_iff, Body.kind, Body.choice?, Body.edges, Body.payload,
        Kind.isOption] at settled ⊢
      constructor
      · rintro ⟨_, plain, _, known, diff, done, rfl⟩
        cases settled diff done
        simp [plain, done]
        exact known
      · rintro ⟨rfl, plain, -, known, done⟩
        exact ⟨(), by simpa using plain, (), known, _, done, rfl⟩

/-- Whoever passes the examination is admitted, and becomes pending with its own execution. -/
theorem examine_eq_ok_iff {candidate : PendingUnit} :
    manager.examine store unit = .ok candidate ↔
      candidate = unit.held ∧
        ∃ parent, manager.Admits store parent unit := by
  unfold examine
  cases fault : unit.fault? manager.config.maxUnitSize with
  | some found =>
      constructor
      · intro done
        simp [bind, Except.bind, throw, throwThe, MonadExceptOf.throw] at done
      · rintro ⟨-, parent, admits⟩
        simp [admits.wellFormed] at fault
  | none =>
      simp only [bind_eq_ok_iff, checkHeight_eq_ok_iff, checkTime_eq_ok_iff, execute_eq_ok_iff]
      constructor
      · rintro ⟨parent, found, _, height, _, time, _, ⟨rfl, option, vacant, edges, executed⟩, done⟩
        split at done
        · simp [throw, throwThe, MonadExceptOf.throw] at done
        · rename_i unclaimed
          cases done
          exact ⟨rfl, parent, fault, found, height, time, option, @vacant, edges, executed,
            unclaimed⟩
      · rintro ⟨rfl, parent, admits⟩
        refine ⟨parent, admits.found, (), admits.height, (), admits.time, _,
          ⟨rfl, admits.option, fun _ => admits.vacant, admits.edges, admits.executed⟩, ?_⟩
        have unclaimed : manager.claimed? (PendingUnit.mk unit unit.execution).consumed = none :=
          admits.unclaimed
        rw [unclaimed]
        rfl

/-- A unit that is neither pending nor accepted nor remembered as rejected. -/
structure Unknown (manager : Manager) (store : Store) (unit : UnitId) : Prop where
  notPending : unit ∉ manager.pending
  notAccepted : ¬manager.isAccepted store unit = true
  notRejected : unit ∉ manager.rejected

theorem verify_events {after : Manager} {events : List Event}
    (done : manager.verify store unit = .ok (after, events)) :
    (after = manager ∧ events = []) ∨
      after = manager.hold unit.held ∧
        events = [.verified manager.config.chain unit.id unit.height unit.kind] ∧
        manager.Unknown store unit.id ∧ ∃ parent, manager.Admits store parent unit := by
  unfold verify at done
  obtain ⟨_, -, done⟩ := bind_eq_ok_iff.mp done
  split at done
  · cases done
    exact .inl ⟨rfl, rfl⟩
  · rename_i unseen
    split at done
    · simp [throw, throwThe, MonadExceptOf.throw] at done
    · rename_i unrejected
      obtain ⟨candidate, examined, held⟩ := bind_eq_ok_iff.mp done
      cases held
      obtain ⟨rfl, admitted⟩ := examine_eq_ok_iff.mp examined
      rw [Bool.or_eq_true, not_or] at unseen
      refine .inr ⟨rfl, rfl, ⟨?_, unseen.2, ?_⟩, admitted⟩
      · exact fun pending => unseen.1 (Std.ExtTreeMap.contains_iff_mem.mpr pending)
      · exact fun rejected => unrejected (Std.ExtTreeMap.contains_iff_mem.mpr rejected)

/-- A verification that succeeds changes nothing, or admits a new unit. -/
theorem verify_cases {after : Manager} {events : List Event}
    (done : manager.verify store unit = .ok (after, events)) :
    after = manager ∨
      after = manager.hold unit.held ∧ manager.Unknown store unit.id ∧
        ∃ parent, manager.Admits store parent unit :=
  (verify_events done).imp And.left fun held => ⟨held.1, held.2.2⟩

end Manager

end DecisionLedger
