import DecisionLedger.Proofs.Hearings
import DecisionLedger.Proofs.Lifecycle

/-! # Agreement

What an acceptance writes depends on the units that it accepts and on the one accepted before, and
on nothing else that the manager holds.  So two managers whose stores hold the same ledger at first,
and that commit the same units, leave the same ledger behind.
-/

namespace DecisionLedger

namespace Store

def commit (store : Store) (tip unit : DecisionUnit) : Store :=
  store.apply (Batch.place unit ++ (Batch.setLastAccepted unit.id ++ (tip.overlay unit).changes))

def commitAll (store : Store) (tip : DecisionUnit) : List DecisionUnit → Store
  | [] => store
  | unit :: rest => (store.commit tip unit).commitAll unit rest

variable {store other : Store} {tip : DecisionUnit}

theorem commitAll_append (store : Store) (tip : DecisionUnit) (earlier later : List DecisionUnit) :
    store.commitAll tip (earlier ++ later) =
      (store.commitAll tip earlier).commitAll (earlier.getLastD tip) later := by
  induction earlier generalizing store tip with
  | nil => rfl
  | cons unit rest ih =>
      rw [List.cons_append, commitAll, ih, commitAll]
      rw [List.getLastD_cons]

theorem SameLedger.commitAll (same : store.SameLedger other) (tip : DecisionUnit)
    (units : List DecisionUnit) :
    (store.commitAll tip units).SameLedger (other.commitAll tip units) := by
  induction units generalizing store other tip with
  | nil => exact same
  | cons unit rest ih => exact ih (same.apply _) unit

theorem raw?_apply_congr {key : Key} (ledger : key.isLedger = true)
    (same : other.raw? key = store.raw? key) (batch : Batch) :
    (other.apply batch).raw? key = (store.apply batch).raw? key := by
  induction batch generalizing store other with
  | nil => exact same
  | cons change rest ih =>
      refine ih ?_
      rw [raw?_change ledger, raw?_change ledger, same]

/-- A last accepted unit that is overwritten leaves no trace. -/
theorem sameLedger_overwrite (store : Store) (forgotten last : UnitId) (batch : Batch) :
    ((store.apply (Batch.setLastAccepted forgotten)).apply
        (batch ++ Batch.setLastAccepted last)).SameLedger
      (store.apply (batch ++ Batch.setLastAccepted last)) := by
  intro key ledger
  rw [apply_append, apply_append, raw?_setLastAccepted ledger, raw?_setLastAccepted ledger]
  by_cases pointer : .lastAccepted = key
  · rw [if_pos pointer, if_pos pointer]
  · rw [if_neg pointer, if_neg pointer]
    apply raw?_apply_congr ledger
    rw [raw?_setLastAccepted ledger, if_neg pointer]

theorem SameLedger.symm (same : store.SameLedger other) : other.SameLedger store :=
  fun key ledger => (same key ledger).symm

theorem SameLedger.lastUnit_eq (same : store.SameLedger other) :
    other.lastUnit = store.lastUnit := by
  rw [lastUnit, lastUnit, lastAccepted_congr (same .lastAccepted rfl)]
  cases store.lastAccepted with
  | error error => rfl
  | ok id =>
      dsimp only
      rw [unit?_congr (same (.unit id) rfl)]

end Store

theorem Diff.changes_empty (parent : UnitId) (timestamp : Option Timestamp) :
    (Diff.empty parent timestamp).changes = [] := by
  have inserts : (∅ : StateUpdates).inserts = ∅ := rfl
  have deletes : (∅ : StateUpdates).deletes = ∅ := rfl
  simp [changes, Batch.updateState, empty, inserts, deletes]

namespace Manager

variable {manager : Manager} {plan : AcceptPlan} {unit : DecisionUnit}

/-- The batch of a plan commits the units of the plan in order. -/
theorem Plans.commits (plans : manager.Plans unit plan) (store : Store) :
    (store.commitAll manager.lastAccepted (plan.accepted.map (·.unit))).SameLedger
      (store.apply plan.batch) := by
  cases plans with
  | unit next execution =>
      have own : manager.lastAccepted.overlay unit = unit.effect := by
        rw [DecisionUnit.overlay, execution]
      have batch : Batch.setAccepted unit ++ unit.effect.changes =
          Batch.place unit ++ (Batch.setLastAccepted unit.id ++ unit.effect.changes) := by
        simp [Batch.place, Batch.setAccepted]
      rw [batch, ← own]
      exact Store.SameLedger.refl _
  | @option proposal _ choice next kind decides =>
      -- the proposal alone changes no state, and is the last unit only until its option is
      have idle : (manager.lastAccepted.overlay proposal).changes = [] := by
        rw [DecisionUnit.overlay_of_proposal kind, Diff.changes_empty]
      have chosen := @DecisionUnit.overlay_of_choice proposal _ _ decides.choice_eq
      have batch : Batch.setUnit proposal ++
            Batch.setUnitAtHeight proposal.height proposal.id ++ Batch.setAccepted unit ++
            (proposal.branch choice).changes =
          Batch.place proposal ++ ((Batch.place unit ++ Batch.setLastAccepted unit.id) ++
            (proposal.branch choice).changes) := by
        simp [Batch.place, Batch.setAccepted]
      have overwritten := (Store.sameLedger_overwrite (store.apply (Batch.place proposal))
        proposal.id unit.id (Batch.place unit)).apply (proposal.branch choice).changes
      rw [batch]
      simpa [Store.commitAll, Store.commit, idle, chosen, Store.apply_append] using overwritten

theorem lastUnit_of_resume {config : Configuration} {store : Store}
    (resumed : Manager.resume config store = .ok manager) :
    store.lastUnit = .ok manager.lastAccepted := by
  unfold resume at resumed
  split at resumed
  · cases last : store.lastUnit with
    | error error =>
        rw [last] at resumed
        cases resumed
    | ok tip =>
        rw [last] at resumed
        cases resumed
        rfl
  · cases resumed

end Manager

namespace Step

variable {ω : Type} {host : LawfulHost ω}

/-- The units that a step commits: those of a plan that is written. -/
def committed (step : Step host) (situation : Manager × ω) : List DecisionUnit :=
  match step with
  | accept unit =>
    match situation.1.ensureRunning, situation.1.plan (host.store situation.2) unit with
    | .ok _, .ok plan =>
      match host.write plan.batch situation.2 with
      | .ok _ => plan.accepted.map (·.unit)
      | .error _ => []
    | _, _ => []
  | verify _ | reject _ | drift _ _ => []

def committedAll : List (Step host) → Manager × ω → List DecisionUnit
  | [], _ => []
  | step :: rest, situation =>
    step.committed situation ++ committedAll rest (step.perform situation)

/-- The ledger and the last accepted unit after a step are what committing its units leaves. -/
structure Advances (host : LawfulHost ω) (before after : Manager × ω)
    (units : List DecisionUnit) : Prop where
  ledger : ((host.store before.2).commitAll before.1.lastAccepted units).SameLedger
    (host.store after.2)
  last : after.1.lastAccepted = units.getLastD before.1.lastAccepted

theorem Advances.idle {before after : Manager × ω}
    (ledger : (host.store before.2).SameLedger (host.store after.2))
    (last : after.1.lastAccepted = before.1.lastAccepted) : Advances host before after [] :=
  ⟨ledger, last⟩

theorem Advances.trans {first second third : Manager × ω} {earlier later : List DecisionUnit}
    (before : Advances host first second earlier) (after : Advances host second third later) :
    Advances host first third (earlier ++ later) where
  ledger := by
    rw [Store.commitAll_append]
    have moved := before.ledger.commitAll (earlier.getLastD first.1.lastAccepted) later
    rw [← before.last] at moved ⊢
    exact moved.trans after.ledger
  last := by
    rw [after.last, before.last]
    simp [List.getLastD_eq_getLast?, List.getLast?_append]

end Step

namespace Call

variable {ω : Type} {host : LawfulHost ω} {origin : StateUpdates} {manager after : Manager}
  {world final : ω} {accepted units : List DecisionUnit} {answer : Except ManagerError Unit}

/-- What a call commits, and what there is after it: its answer, the manager and the world. -/
inductive Commits (host : LawfulHost ω) (manager : Manager) (world : ω) :
    List DecisionUnit → Except ManagerError Unit × Manager × ω → Prop where
  /-- Nothing is written, though something may be published. -/
  | nothing {answer : Except ManagerError Unit} {after : Manager} (events : List Event) :
      after.lastAccepted = manager.lastAccepted →
      Commits host manager world [] (answer, after, host.publishAll events world)
  /-- A plan is written, and its units are delivered. -/
  | plan {unit : UnitId} {plan : AcceptPlan} {written delivered : ω} {failed : Option NotifyError}
      {after : Manager} (events : List Event) :
      manager.plan (host.store world) unit = .ok plan → host.write plan.batch world = .ok written →
      host.deliverAll manager.config.chain (plan.accepted.map (·.unit))
        (host.publishAll (manager.settle plan).2 written) = (failed, delivered) →
      after.lastAccepted = (manager.settle plan).1.lastAccepted →
      Commits host manager world (plan.accepted.map (·.unit))
        (failed.elim (.ok ()) fun failures => .error (.listenerFailures failures), after,
          host.publishAll events delivered)

theorem commits_accept (unit : UnitId) (situation : Manager × ω) :
    Commits host situation.1 situation.2 ((Step.accept unit : Step host).committed situation)
      (situation.1.accept host.toHost unit situation.2) := by
  obtain ⟨manager, world⟩ := situation
  dsimp only [Step.committed]
  unfold Manager.accept
  cases running : manager.ensureRunning with
  | error error => exact .nothing [] rfl
  | ok done =>
      cases planned : manager.plan (host.store world) unit with
      | error error => exact .nothing [] rfl
      | ok plan =>
          dsimp only
          cases wrote : host.write plan.batch world with
          | error problem => exact .nothing _ (Manager.lastAccepted_halt _ _)
          | ok written =>
              dsimp only
              cases heard : host.deliverAll manager.config.chain (plan.accepted.map (·.unit))
                  (host.publishAll (manager.settle plan).2 written) with
              | mk failed delivered =>
                  cases failed with
                  | none => exact .plan [] planned wrote heard rfl
                  | some failures =>
                      refine .plan _ planned wrote heard ?_
                      split
                      · exact Manager.lastAccepted_halt _ _
                      · rfl

theorem commits (call : Call) (situation : Manager × ω) :
    Commits host situation.1 situation.2 ((call.step host).committed situation)
      (call.answer host situation, (call.step host).perform situation) := by
  cases call with
  | accept unit => exact commits_accept unit situation
  | verify unit =>
      dsimp only [answer, step, Step.perform, Step.conclude, Step.committed]
      cases done : situation.1.verify (host.store situation.2) unit with
      | error error => exact .nothing [] rfl
      | ok outcome => exact .nothing _ (congrArg (·.2.1) (Manager.settings_verify done))
  | reject unit =>
      dsimp only [answer, step, Step.perform, Step.conclude, Step.committed]
      cases done : situation.1.reject unit with
      | error error => exact .nothing [] rfl
      | ok outcome => exact .nothing _ (Manager.lastAccepted_reject done)

/-- What a call leaves is what committing its units leaves. -/
theorem Commits.advances (commits : Commits host manager world units (answer, after, final))
    (sound : manager.Sound origin (host.store world) accepted) :
    Step.Advances host (manager, world) (after, final) units := by
  cases commits with
  | nothing events same => exact .idle (host.sameLedger_publishAll events world) same
  | @plan _ plan written delivered _ _ events planned wrote heard same =>
      obtain ⟨last, -, plans⟩ := sound.rooted.plan_cases sound.records.toLists planned
      have settled := (host.sameLedger_delivered wrote heard).trans
        (host.sameLedger_publishAll events delivered)
      refine ⟨(plans.commits _).trans settled, same.trans ?_⟩
      rw [Manager.lastAccepted_settle plans, List.getLastD_eq_getLast?, plans.getLast?_accepted]
      rfl

theorem Commits.eq_further {further : List DecisionUnit}
    (commits : Commits host manager world units (answer, after, final))
    (sound : manager.Sound origin (host.store world) accepted)
    (next : after.Sound origin (host.store final) (accepted ++ further)) : further = units := by
  cases commits with
  | nothing events same => exact sound.further_eq_nil next same
  | plan events planned wrote heard same =>
      exact sound.further_of_settled planned wrote heard (host.sameLedger_publishAll events _) next
        same.symm

theorem sound_committed (call : Call) (situation : Manager × ω)
    (sound : situation.1.Sound origin (host.store situation.2) accepted) :
    ((call.step host).perform situation).1.Sound origin
      (host.store ((call.step host).perform situation).2)
      (accepted ++ (call.step host).committed situation) := by
  obtain ⟨further, -, next⟩ := (call.step host).turn_perform situation sound
  rwa [(call.commits situation).eq_further sound next] at next

end Call

namespace Step

variable {ω : Type} {host : LawfulHost ω} {origin : StateUpdates} {accepted : List DecisionUnit}

theorem advances_perform (step : Step host) (situation : Manager × ω)
    (sound : situation.1.Sound origin (host.store situation.2) accepted) :
    Advances host situation (step.perform situation) (step.committed situation) := by
  rcases Call.exists_step step with ⟨call, rfl⟩ | ⟨change, kept, rfl⟩
  · exact (call.commits situation).advances sound
  · exact .idle (kept situation.2) rfl

theorem sound_committed (step : Step host) (situation : Manager × ω)
    (sound : situation.1.Sound origin (host.store situation.2) accepted) :
    (step.perform situation).1.Sound origin (host.store (step.perform situation).2)
      (accepted ++ step.committed situation) := by
  rcases Call.exists_step step with ⟨call, rfl⟩ | ⟨change, kept, rfl⟩
  · exact call.sound_committed situation sound
  · have same : (Step.drift change kept).committed situation = [] := rfl
    rw [same, List.append_nil]
    exact sound.of_sameLedger (kept situation.2)

theorem committedAll_concat (steps : List (Step host)) (step : Step host)
    (situation : Manager × ω) :
    committedAll (steps ++ [step]) situation =
      committedAll steps situation ++ step.committed (run steps situation) := by
  induction steps generalizing situation with
  | nil => exact List.append_nil _
  | cons first rest ih =>
      rw [List.cons_append, committedAll, ih, committedAll, List.append_assoc]
      rfl

theorem advances_run (steps : List (Step host)) (situation : Manager × ω)
    (sound : situation.1.Sound origin (host.store situation.2) accepted) :
    Advances host situation (run steps situation) (committedAll steps situation) := by
  induction steps generalizing situation accepted with
  | nil => exact .idle (Store.SameLedger.refl _) rfl
  | cons step rest ih =>
      obtain ⟨further, -, next⟩ := step.turn_perform situation sound
      exact (step.advances_perform situation sound).trans (ih (step.perform situation) next)

end Step

section Agreement

variable {ω τ : Type} {host : LawfulHost ω} {other : LawfulHost τ}
  {config further : Configuration} {origin source : StateUpdates}

/-- The units that a manager commits in any number of steps, in order. -/
def Tenure.committed (tenure : Tenure host config origin) (steps : List (Step host)) :
    List DecisionUnit :=
  Step.committedAll steps (tenure.manager, tenure.world)

theorem Tenure.advances_run (tenure : Tenure host config origin) (steps : List (Step host)) :
    Step.Advances host (tenure.manager, tenure.world) (tenure.run steps)
      (tenure.committed steps) := by
  obtain ⟨accepted, tip, -, sound⟩ := tenure.begins
  exact Step.advances_run steps _ sound

/-- Two managers that start on the same ledger and commit the same units leave the same ledger,
whatever else they verify or reject, in whatever order, and however they are configured. -/
theorem Tenure.agree_run (left : Tenure host config origin) (right : Tenure other further source)
    (same : (host.store left.world).SameLedger (other.store right.world))
    (steps : List (Step host)) (others : List (Step other))
    (committed : left.committed steps = right.committed others) :
    (host.store (left.run steps).2).SameLedger (other.store (right.run others).2) := by
  have tip : right.manager.lastAccepted = left.manager.lastAccepted := by
    have first := Manager.lastUnit_of_resume left.resumed
    have second := Manager.lastUnit_of_resume right.resumed
    rw [same.lastUnit_eq, first] at second
    exact (Except.ok.inj second).symm
  have mine := (left.advances_run steps).ledger
  have theirs := (right.advances_run others).ledger
  have between := same.commitAll left.manager.lastAccepted (left.committed steps)
  rw [← committed, tip] at theirs
  exact mine.symm.trans (between.trans theirs)

end Agreement

namespace Forgetful

/-- The same chain with room for little, where more is remembered. -/
def mindful : Tenure LawfulHost.bare { chain := 1, maxUnitSize := 100, window := 3 } ∅ :=
  (Start.ofFounded (Store.empty.apply (Batch.found ∅)) _ sameLedger_founded).tenure

def refusal : DecisionUnit :=
  .ofFields { parent := proposal.id, height := 2, timestamp := none, body := .abort } (by decide)

/-- Nothing beside the proposal, but both options of it, the one not taken first. -/
def weighed : List (Step LawfulHost.bare) :=
  [.verify proposal, .verify refusal, .verify option]

set_option maxRecDepth 100000 in
theorem committed_eq :
    begun.committed (verified ++ [.accept option.id]) = [proposal, option] ∧
    mindful.committed (weighed ++ [.accept option.id]) = [proposal, option] := by
  decide +kernel

/-- Both chains end with the same ledger, though each has verified what the other has not. -/
theorem agree_weighed :
    ((LawfulHost.bare.store begun.world).SameLedger (LawfulHost.bare.store mindful.world) ∧
      begun.committed (verified ++ [.accept option.id]) =
        mindful.committed (weighed ++ [.accept option.id])) ∧
    (LawfulHost.bare.store (begun.run (verified ++ [.accept option.id])).2).SameLedger
      (LawfulHost.bare.store (mindful.run (weighed ++ [.accept option.id])).2) := by
  have same :
      (LawfulHost.bare.store begun.world).SameLedger (LawfulHost.bare.store mindful.world) :=
    sameLedger_founded
  have committed := committed_eq.1.trans committed_eq.2.symm
  exact ⟨⟨same, committed⟩, Tenure.agree_run begun mindful same _ _ committed⟩

end Forgetful

end DecisionLedger
