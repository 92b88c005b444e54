import DecisionLedger.Proofs.Session

/-! # What pending units see

A pending unit sees the same state for as long as it is pending, whatever else is verified, accepted
or rejected.  Once it is accepted, what it saw is the accepted state.
-/

namespace DecisionLedger

namespace LawfulHost

variable {ω : Type} (host : LawfulHost ω)

/-- What a unit sees of a record. -/
def sees (situation : Manager × ω) (unit : UnitId) (key : StateKey) :
    Except ManagerError (Option StateValue) :=
  situation.1.read (host.store situation.2) unit key

def accepted? (situation : Manager × ω) (key : StateKey) : Option StateValue :=
  (host.store situation.2).state? key

end LawfulHost

/-- The outcomes of an acceptance that is written: whether or not all listeners took it. -/
inductive Manager.Committed : Except ManagerError Unit → Prop where
  | heard : Committed (.ok ())
  | unheard (failures : NotifyError) : Committed (.error (.listenerFailures failures))

/-- What pending units see in a situation, what steps make of it, and what acceptances do. -/
structure Snapshots {ω : Type} (host : LawfulHost ω) (situation : Manager × ω) : Prop where
  readable : ∀ {id : UnitId}, id ∈ situation.1.pending → ∀ key, ∃ value,
    host.sees situation id key = .ok value
  /-- No step changes what a unit sees that stays pending. -/
  steady : ∀ (step : Step host) {id : UnitId}, id ∈ situation.1.pending →
    id ∈ (step.perform situation).1.pending → ∀ key,
    host.sees (step.perform situation) id key = host.sees situation id key
  /-- What a unit saw is the accepted state once the unit is accepted. -/
  committed : ∀ {id : UnitId} {outcome : Except ManagerError Unit} {after : Manager × ω},
    situation.1.accept host.toHost id situation.2 = (outcome, after) →
    Manager.Committed outcome → after.1.lastAccepted.id = id ∧
      ∀ key, host.sees situation id key = .ok (host.accepted? after key)
  uncommitted : ∀ {id : UnitId} {outcome : Except ManagerError Unit} {after : Manager × ω},
    situation.1.accept host.toHost id situation.2 = (outcome, after) →
    ¬Manager.Committed outcome → after.1.lastAccepted = situation.1.lastAccepted ∧
      ∀ key, host.accepted? after key = host.accepted? situation key
  /-- An undecided proposal has no effect. -/
  proposals : ∀ {id : UnitId} {proposal : PendingUnit},
    situation.1.pending[id]? = some proposal → proposal.unit.kind = .proposal → ∀ key,
    host.sees situation id key = host.sees situation proposal.unit.parent key
  /-- An abort sees what there would be without the proposal. -/
  aborts : ∀ {id : UnitId} {option proposal : PendingUnit},
    situation.1.pending[id]? = some option → option.unit.kind = .abort →
    situation.1.pending[option.unit.parent]? = some proposal → ∀ key,
    host.sees situation id key = host.sees situation proposal.unit.parent key
  /-- A commit sees the effect of the proposal on what there would be without it. -/
  commits : ∀ {id : UnitId} {option proposal : PendingUnit},
    situation.1.pending[id]? = some option → option.unit.kind = .commit →
    situation.1.pending[option.unit.parent]? = some proposal →
    ∃ branches, proposal.execution = .proposal branches ∧ ∀ key,
      host.sees situation id key =
        match branches.onCommit.local? key with
        | some found => .ok found
        | none => host.sees situation proposal.unit.parent key

section Snapshots

variable {ω : Type} {host : LawfulHost ω} {origin : StateUpdates} {manager after : Manager}
  {world : ω} {store other : Store} {accepted further : List DecisionUnit} {unit : DecisionUnit}

namespace Manager

/-- Two managers that have a lineage in common see the replay of it. -/
theorem Sound.read_congr {id : UnitId} {line : List DecisionUnit}
    (sound : manager.Sound origin store accepted) (next : after.Sound origin other further)
    (lineage : manager.Lineage accepted id line) (shared : after.Lineage further id line)
    (key : StateKey) : after.read other id key = manager.read store id key := by
  obtain ⟨state, replayed, reads⟩ := sound.read_eq lineage
  obtain ⟨same, replayedAgain, readsAgain⟩ := next.read_eq shared
  rw [replayed] at replayedAgain
  cases replayedAgain
  rw [reads key, readsAgain key]

theorem Sound.read_continues (sound : manager.Sound origin store accepted)
    (continues : Continues origin manager accepted after other further)
    (before : manager.Holds unit) (holds : after.Holds unit) (key : StateKey) :
    after.read other unit.id key = manager.read store unit.id key := by
  obtain ⟨line, lineage⟩ := sound.rooted.exists_lineage before
  have own : manager.Lineage accepted unit.id (line ++ [unit]) := .child before rfl lineage
  exact sound.read_congr continues.sound own (continues.lineage before holds own) key

/-- A settled plan makes the state of the accepted unit the state of the store. -/
theorem Sound.read_settle (sound : manager.Sound origin store accepted) {plan : AcceptPlan}
    (plans : manager.Plans unit plan) (key : StateKey) :
    manager.read store unit.id key = .ok ((store.apply plan.batch).state? key) := by
  obtain ⟨state, replayed, reads⟩ := sound.read_eq plans.lineage.2
  obtain ⟨same, replayedAgain, readsAgain⟩ := (sound.settle plans).state
  rw [replayed] at replayedAgain
  cases replayedAgain
  rw [reads key, readsAgain key]

theorem Sound.read_proposal (sound : manager.Sound origin store accepted)
    (holds : manager.Holds unit) (kind : unit.kind = .proposal) (key : StateKey) :
    manager.read store unit.id key = manager.read store unit.parent key := by
  obtain ⟨top, -, -, reads⟩ := sound.read_child holds
  rw [reads key, DecisionUnit.overlay_of_proposal kind, Diff.local?_empty]

theorem Sound.read_option (sound : manager.Sound origin store accepted)
    {proposal option : DecisionUnit} {choice : Choice} (holds : manager.Holds proposal)
    (decides : manager.OptionOf proposal option choice) :
    proposal.kind = .proposal ∧ ∀ key, manager.read store option.id key =
      match (proposal.branch choice).local? key with
      | some found => .ok found
      | none => manager.read store proposal.parent key := by
  obtain ⟨top, follows, known, reads⟩ := sound.read_child decides.holds
  have same : top.id = proposal.id := follows.parent_eq.symm.trans decides.parent_eq
  have own : top = proposal := by
    rcases known with held | rfl
    · exact held.eq_of_id holds same
    · exact absurd (same ▸ holds.mem) sound.rooted.last_not_pending
  subst own
  have kind := follows.option_iff.mp (DecisionUnit.isOption_of_choice? decides.choice_eq)
  refine ⟨kind, fun key => ?_⟩
  have value := reads key
  rw [DecisionUnit.overlay_of_choice decides.choice_eq, decides.parent_eq,
    sound.read_proposal holds kind key] at value
  exact value

/-- An acceptance makes what the unit saw the accepted state, or leaves the accepted state. -/
theorem Sound.read_accepting (sound : manager.Sound origin (host.store world) accepted)
    {id : UnitId} {result : Except ManagerError Unit × Manager × ω}
    (accepting : Accepting host manager id world result) :
    (Committed result.1 → result.2.1.lastAccepted.id = id ∧
        ∀ key, host.sees (manager, world) id key = .ok (host.accepted? result.2 key)) ∧
      (¬Committed result.1 → result.2.1.lastAccepted = manager.lastAccepted ∧
        ∀ key, host.accepted? result.2 key = host.accepted? (manager, world) key) := by
  cases accepting with
  | refused distinct =>
      refine ⟨fun committed => ?_, fun _ => ⟨rfl, fun _ => rfl⟩⟩
      cases committed with
      | unheard failures => exact absurd rfl (distinct failures)
  | unwritten distinct same =>
      refine ⟨fun committed => ?_, fun _ => ⟨lastAccepted_halt manager _, fun key => ?_⟩⟩
      · cases committed with
        | unheard failures => exact absurd rfl (distinct failures)
      · exact same.state?_eq key
  | committed planned same final outcome =>
      obtain ⟨decided, rfl, plans⟩ := sound.rooted.plan_cases sound.records.toLists planned
      have settled := lastAccepted_settle plans
      refine ⟨fun _ => ⟨?_, fun key => ?_⟩, fun uncommitted => ?_⟩
      · rcases final with rfl | ⟨reason, rfl⟩
        · rw [settled]
        · rw [lastAccepted_halt, settled]
      · dsimp only [LawfulHost.sees, LawfulHost.accepted?]
        rw [sound.read_settle plans key, same.state?_eq key]
      · rcases outcome with rfl | ⟨failures, rfl⟩
        · exact absurd .heard uncommitted
        · exact absurd (.unheard failures) uncommitted

end Manager

theorem Manager.Sound.snapshots (sound : manager.Sound origin (host.store world) accepted) :
    Snapshots host (manager, world) where
  readable := by
    intro id present key
    obtain ⟨unit, holds, rfl⟩ := sound.rooted.mem_pending_iff.mp present
    obtain ⟨line, lineage⟩ := sound.rooted.exists_lineage holds
    obtain ⟨state, -, reads⟩ := sound.read_eq (.child holds rfl lineage)
    exact ⟨state[key]?, reads key⟩
  steady := by
    intro step id present remains key
    obtain ⟨further, continues⟩ := step.continues_perform (manager, world) sound
    obtain ⟨unit, holds, rfl⟩ := continues.sound.rooted.mem_pending_iff.mp remains
    exact sound.read_continues continues (continues.stays present holds) holds key
  committed := by
    intro id outcome after accepts committed
    have accepting := Manager.accept_cases host manager id world
    rw [accepts] at accepting
    exact (sound.read_accepting accepting).1 committed
  uncommitted := by
    intro id outcome after accepts uncommitted
    have accepting := Manager.accept_cases host manager id world
    rw [accepts] at accepting
    exact (sound.read_accepting accepting).2 uncommitted
  proposals := by
    intro id proposal found kind key
    obtain ⟨unit, holds, rfl, rfl⟩ := sound.rooted.exists_of_getElem? found
    exact sound.read_proposal holds kind key
  aborts := by
    intro id option proposal found kind above key
    obtain ⟨unit, holds, rfl, rfl⟩ := sound.rooted.exists_of_getElem? found
    obtain ⟨tip, held, same, rfl⟩ := sound.rooted.exists_of_getElem? above
    have chosen : unit.body.choice? = some .abort := by
      rw [unit.choice?_eq, show unit.kind = .abort from kind]
    exact (sound.read_option held ⟨holds, same.symm, chosen⟩).2 key
  commits := by
    intro id option proposal found kind above
    obtain ⟨unit, holds, rfl, rfl⟩ := sound.rooted.exists_of_getElem? found
    obtain ⟨tip, held, same, rfl⟩ := sound.rooted.exists_of_getElem? above
    have chosen : unit.body.choice? = some .commit := by
      rw [unit.choice?_eq, show unit.kind = .commit from kind]
    obtain ⟨proposed, reads⟩ := sound.read_option held ⟨holds, same.symm, chosen⟩
    obtain ⟨branches, execution, branch⟩ := DecisionUnit.exists_execution_of_proposal proposed
    have onCommit : branches.onCommit = tip.branch .commit := branch .commit
    refine ⟨branches, execution, fun key => ?_⟩
    rw [onCommit]
    exact reads key

end Snapshots

/-- After any calls, what a unit sees stays what it is until the unit is rejected or accepted, and
what was seen by a unit that is accepted is the accepted state. -/
theorem Start.snapshots_run {ω : Type} {host : LawfulHost ω} {config : Configuration}
    {origin : StateUpdates} (start : Start host config origin) (steps : List (Step host)) :
    Snapshots host (start.run steps) := by
  obtain ⟨accepted, sound⟩ := start.sound_run steps
  exact sound.snapshots

end DecisionLedger
