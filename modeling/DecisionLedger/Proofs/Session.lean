import DecisionLedger.Proofs.Founding

/-! # Sessions

A session starts a manager on a store that was founded, and then calls it in any order.  Writes may
fail whenever they like, listeners may do what they like but touch the ledger, and the world may
change between the calls.
-/

namespace DecisionLedger

/-- A world whose writes are whole, and in which nothing else touches the ledger of the store. -/
structure LawfulHost (ω : Type) extends Host ω where
  written : ∀ {batch world after}, write batch world = .ok after →
    ((store world).apply batch).SameLedger (store after)
  delivered : ∀ chain unit world, (store world).SameLedger (store (deliver chain unit world).2)
  published : ∀ event world, (store world).SameLedger (store (publish event world))

namespace LawfulHost

variable {ω : Type} (host : LawfulHost ω)

theorem sameLedger_publishAll (events : List Event) (world : ω) :
    (host.store world).SameLedger (host.store (host.publishAll events world)) := by
  induction events generalizing world with
  | nil => exact Store.SameLedger.refl _
  | cons event rest ih => exact (host.published event world).trans (ih _)

theorem sameLedger_deliverAll (chain : ChainId) (units : List DecisionUnit) (world : ω) :
    (host.store world).SameLedger (host.store (host.deliverAll chain units world).2) := by
  induction units generalizing world with
  | nil => exact Store.SameLedger.refl _
  | cons unit rest ih => exact (host.delivered chain unit world).trans (ih _)

theorem sameLedger_delivered {batch : Batch} {events : List Event} {chain : ChainId}
    {units : List DecisionUnit} {failed : Option NotifyError} {world written after : ω}
    (wrote : host.write batch world = .ok written)
    (delivered : host.deliverAll chain units (host.publishAll events written) = (failed, after)) :
    ((host.store world).apply batch).SameLedger (host.store after) := by
  have announced := (host.written wrote).trans (host.sameLedger_publishAll events written)
  have heard := host.sameLedger_deliverAll chain units (host.publishAll events written)
  rw [delivered] at heard
  exact announced.trans heard

end LawfulHost

/-- What may happen to a manager: a call, or a change of the world besides. -/
inductive Step {ω : Type} (host : LawfulHost ω) where
  | verify (unit : DecisionUnit)
  | accept (unit : UnitId)
  | reject (unit : UnitId)
  | drift (change : ω → ω)
    (kept : ∀ world, (host.store world).SameLedger (host.store (change world)))

namespace Step

variable {ω : Type} {host : LawfulHost ω}

/-- Take over what a call gives and publish its events; a refused call changes nothing. -/
def conclude (host : LawfulHost ω) (situation : Manager × ω)
    (outcome : Except ManagerError (Manager × List Event)) : Manager × ω :=
  match outcome with
  | .ok (after, events) => (after, host.publishAll events situation.2)
  | .error _ => situation

def perform (step : Step host) (situation : Manager × ω) : Manager × ω :=
  match step with
  | verify unit =>
    conclude host situation (situation.1.verify (host.store situation.2) unit)
  | accept unit => (situation.1.accept host.toHost unit situation.2).2
  | reject unit => conclude host situation (situation.1.reject unit)
  | drift change _ => (situation.1, change situation.2)

end Step

/-- A manager that starts on a world whose store holds genesis and a first state. -/
structure Start {ω : Type} (host : LawfulHost ω) (config : Configuration)
    (origin : StateUpdates) where
  world : ω
  founded : (Store.empty.apply (Batch.found origin)).SameLedger (host.store world)
  manager : Manager
  resumed : Manager.resume config (host.store world) = .ok manager

namespace Start

variable {ω : Type} {host : LawfulHost ω} {config : Configuration} {origin : StateUpdates}

def run (start : Start host config origin) (steps : List (Step host)) : Manager × ω :=
  steps.foldl (fun situation step => step.perform situation) (start.manager, start.world)

theorem run_concat (start : Start host config origin) (steps : List (Step host))
    (step : Step host) : start.run (steps ++ [step]) = step.perform (start.run steps) := by
  rw [run, List.foldl_append]
  rfl

end Start

namespace Manager

variable {ω : Type} {host : LawfulHost ω} {manager : Manager} {world : ω} {unit : UnitId}

/-- What an acceptance comes to: nothing, a halt after a failed write, or a plan that is written and
settled, after which the manager may halt. -/
inductive Accepting (host : LawfulHost ω) (manager : Manager) (unit : UnitId) (world : ω) :
    Except ManagerError Unit × Manager × ω → Prop where
  | refused {error : ManagerError} : (∀ failures, error ≠ .listenerFailures failures) →
      Accepting host manager unit world (.error error, manager, world)
  | unwritten {error : ManagerError} {reason : HaltReason} {after : ω} :
      (∀ failures, error ≠ .listenerFailures failures) →
      (host.store world).SameLedger (host.store after) →
      Accepting host manager unit world (.error error, (manager.halt reason).1, after)
  | committed {plan : AcceptPlan} {outcome : Except ManagerError Unit} {final : Manager}
      {after : ω} : manager.plan (host.store world) unit = .ok plan →
      ((host.store world).apply plan.batch).SameLedger (host.store after) →
      (final = (manager.settle plan).1 ∨
        ∃ reason, final = ((manager.settle plan).1.halt reason).1) →
      (outcome = .ok () ∨ ∃ failures, outcome = .error (.listenerFailures failures)) →
      Accepting host manager unit world (outcome, final, after)

theorem ensureRunning_ne_listenerFailures {error : ManagerError} {failures : NotifyError}
    (stopped : manager.ensureRunning = .error error) : error ≠ .listenerFailures failures := by
  unfold ensureRunning at stopped
  split at stopped
  · cases stopped
    simp
  · cases stopped

theorem plan_ne_listenerFailures {store : Store} {error : ManagerError} {failures : NotifyError}
    (refused : manager.plan store unit = .error error) : error ≠ .listenerFailures failures := by
  rintro rfl
  unfold plan at refused
  cases found : manager.pending[unit]? with
  | none => simp [found] at refused
  | some pending =>
      simp only [found] at refused
      cases execution : pending.execution with
      | proposal branches => simp [execution] at refused
      | effect diff =>
          simp only [execution] at refused
          dsimp only [planUnit] at refused
          split at refused <;> cases refused
      | option choice =>
          simp only [execution] at refused
          dsimp only [planOption] at refused
          split at refused
          · cases refused
          · split at refused
            · split at refused <;> cases refused
            · cases refused

theorem accept_cases (host : LawfulHost ω) (manager : Manager) (unit : UnitId) (world : ω) :
    Accepting host manager unit world (manager.accept host.toHost unit world) := by
  unfold Manager.accept
  cases running : manager.ensureRunning with
  | error error => exact .refused fun _ => ensureRunning_ne_listenerFailures running
  | ok done =>
      cases planned : manager.plan (host.store world) unit with
      | error error => exact .refused fun _ => plan_ne_listenerFailures planned
      | ok plan =>
          cases written : host.write plan.batch world with
          | error error =>
              simp only [written]
              exact .unwritten (fun _ => by simp) (host.sameLedger_publishAll _ world)
          | ok stored =>
              simp only [written]
              cases outcome : host.deliverAll manager.config.chain (plan.accepted.map (·.unit))
                  (host.publishAll (manager.settle plan).2 stored) with
              | mk failed after =>
                  have delivered := host.sameLedger_delivered written outcome
                  cases failed with
                  | none => exact .committed planned delivered (.inl rfl) (.inl rfl)
                  | some failures =>
                      dsimp only
                      have further := delivered.trans (host.sameLedger_publishAll
                        (if failures.isFatal manager.config.threshold then
                          (manager.settle plan).1.halt (.listenerFailed failures)
                        else ((manager.settle plan).1, [])).2 after)
                      refine .committed planned further ?_ (.inr ⟨failures, rfl⟩)
                      split
                      · exact .inr ⟨_, rfl⟩
                      · exact .inl rfl

/-- A manager in step with its store comes after another, and whoever is pending in both is the same
unit and has the same lineage in both. -/
structure Continues (origin : StateUpdates) (before : Manager) (earlier : List DecisionUnit)
    (after : Manager) (store : Store) (later : List DecisionUnit) : Prop where
  sound : after.Sound origin store later
  stays : ∀ {unit}, unit.id ∈ before.pending → after.Holds unit → before.Holds unit
  lineage : ∀ {unit line}, before.Holds unit → after.Holds unit →
    before.Lineage earlier unit.id line → after.Lineage later unit.id line

section Continues

variable {origin : StateUpdates} {after : Manager} {store other : Store}
  {accepted further : List DecisionUnit}

theorem Continues.refl (sound : manager.Sound origin store accepted) :
    Continues origin manager accepted manager store accepted :=
  ⟨sound, fun _ holds => holds, fun _ _ lineage => lineage⟩

theorem Continues.of_sameLedger (continues : Continues origin manager accepted after store further)
    (same : store.SameLedger other) : Continues origin manager accepted after other further :=
  ⟨continues.sound.of_sameLedger same, continues.stays, continues.lineage⟩

theorem Continues.halt (continues : Continues origin manager accepted after store further)
    (reason : HaltReason) :
    Continues origin manager accepted (after.halt reason).1 store further := by
  refine ⟨continues.sound.halt reason, fun present holds => ?_, fun before holds lineage => ?_⟩
  · exact continues.stays present ((holds_halt reason).mp holds)
  · have own := continues.lineage before ((holds_halt reason).mp holds) lineage
    exact own.transfer (holds_halt reason).mpr
      (.root (congrArg DecisionUnit.id (lastAccepted_halt after reason).symm))

/-- If nothing becomes pending and the last accepted unit moves up a lineage, lineages stay. -/
theorem Sound.continues (sound : manager.Sound origin store accepted)
    (next : after.Sound origin other further)
    (kept : ∀ {unit}, after.Holds unit → manager.Holds unit)
    (moved : manager.Lineage accepted after.lastAccepted.id further) :
    Continues origin manager accepted after other further := by
  refine ⟨next, fun _ holds => kept holds, fun _ holds lineage => ?_⟩
  obtain ⟨below, lower⟩ := next.rooted.exists_lineage holds
  have line := Lineage.child holds rfl lower
  rw [sound.rooted.lineage_unique lineage (line.transfer kept moved)]
  exact line

theorem Sound.continues_verify (sound : manager.Sound origin store accepted)
    {unit : DecisionUnit} {events : List Event}
    (done : manager.verify store unit = .ok (after, events)) :
    Continues origin manager accepted after store accepted := by
  have next := sound.verify done
  rcases verify_cases done with rfl | ⟨rfl, unknown, parent, admits⟩
  · exact .refl sound
  · refine ⟨next, fun present holds => ?_, fun _ _ lineage => ?_⟩
    · rcases (holds_hold unknown.notPending).mp holds with rfl | held
      · exact absurd present unknown.notPending
      · exact held
    · refine lineage.transfer (fun held => ?_) (.root rfl)
      exact (holds_hold unknown.notPending).mpr (.inr held)

theorem Sound.continues_reject (sound : manager.Sound origin store accepted) {id : UnitId}
    {events : List Event} (done : manager.reject id = .ok (after, events)) :
    Continues origin manager accepted after store accepted :=
  sound.continues (sound.reject done) (Holds.of_reject done)
    (.root (congrArg DecisionUnit.id (lastAccepted_reject done)))

theorem Sound.continues_settle (sound : manager.Sound origin store accepted)
    {unit : DecisionUnit} {plan : AcceptPlan} (plans : manager.Plans unit plan) :
    Continues origin manager accepted (manager.settle plan).1 (store.apply plan.batch)
      (accepted ++ plan.accepted.map (·.unit)) := by
  refine sound.continues (sound.settle plans) (Holds.of_settle plans) ?_
  rw [lastAccepted_settle plans]
  exact plans.lineage.2

theorem Sound.continues_accepting {result : Except ManagerError Unit × Manager × ω}
    (sound : manager.Sound origin (host.store world) accepted)
    (accepting : Accepting host manager unit world result) :
    ∃ further, Continues origin manager accepted result.2.1 (host.store result.2.2) further := by
  cases accepting with
  | refused _ => exact ⟨accepted, .refl sound⟩
  | unwritten _ same => exact ⟨accepted, ((Continues.refl sound).halt _).of_sameLedger same⟩
  | committed planned same final _ =>
      obtain ⟨decided, -, plans⟩ := sound.rooted.plan_cases sound.records.toLists planned
      have settled := (sound.continues_settle plans).of_sameLedger same
      rcases final with rfl | ⟨reason, rfl⟩
      · exact ⟨_, settled⟩
      · exact ⟨_, settled.halt reason⟩

end Continues

end Manager

section Run

variable {ω : Type} {host : LawfulHost ω} {config : Configuration} {origin : StateUpdates}

theorem Step.continues_perform (step : Step host) (situation : Manager × ω)
    {accepted : List DecisionUnit}
    (sound : situation.1.Sound origin (host.store situation.2) accepted) :
    ∃ further, Manager.Continues origin situation.1 accepted (step.perform situation).1
      (host.store (step.perform situation).2) further := by
  cases step with
  | verify unit =>
      dsimp only [perform, conclude]
      cases done : situation.1.verify (host.store situation.2) unit with
      | error error => exact ⟨accepted, .refl sound⟩
      | ok outcome =>
          exact ⟨accepted, (sound.continues_verify done).of_sameLedger
            (host.sameLedger_publishAll outcome.2 situation.2)⟩
  | accept unit =>
      exact sound.continues_accepting (Manager.accept_cases host situation.1 unit situation.2)
  | reject unit =>
      dsimp only [perform, conclude]
      cases done : situation.1.reject unit with
      | error error => exact ⟨accepted, .refl sound⟩
      | ok outcome =>
          exact ⟨accepted, (sound.continues_reject done).of_sameLedger
            (host.sameLedger_publishAll outcome.2 situation.2)⟩
  | drift change kept =>
      exact ⟨accepted, (Manager.Continues.refl sound).of_sameLedger (kept situation.2)⟩

theorem Start.manager_eq (start : Start host config origin) :
    start.manager = Manager.initial config .genesis := by
  have records := (Store.records_found origin).of_sameLedger start.founded
  have resumed := start.resumed
  rw [Manager.resume_eq records Chronicle.start rfl] at resumed
  exact (Except.ok.inj resumed).symm

/-- After any number of steps a manager is in step with its store. -/
theorem Start.sound_run (start : Start host config origin) (steps : List (Step host)) :
    ∃ accepted, (start.run steps).1.Sound origin (host.store (start.run steps).2) accepted := by
  induction steps using List.reverseRecOn with
  | nil =>
      refine ⟨[.genesis], ?_⟩
      have founded := Manager.sound_found config origin start.founded
      rw [← start.manager_eq] at founded
      exact founded
  | append_singleton steps step ih =>
      obtain ⟨accepted, sound⟩ := ih
      obtain ⟨further, continues⟩ := step.continues_perform (start.run steps) sound
      rw [start.run_concat]
      exact ⟨further, continues.sound⟩

/-- A manager can be started on any world whose store was founded. -/
def Start.ofFounded (world : ω) (config : Configuration)
    (founded : (Store.empty.apply (Batch.found origin)).SameLedger (host.store world)) :
    Start host config origin where
  world
  founded
  manager := .initial config .genesis
  resumed :=
    Manager.resume_eq ((Store.records_found origin).of_sameLedger founded) Chronicle.start rfl

end Run

end DecisionLedger
