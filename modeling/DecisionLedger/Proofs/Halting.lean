import DecisionLedger.Proofs.Observation
import DecisionLedger.Proofs.Recollection
import DecisionLedger.Proofs.Refusals

/-! # What a call comes to

A call is refused, or done; and an acceptance may fail to be written, or to be heard.  A manager
halts for a failed write and for a listener that must not miss a unit, and for nothing else.
-/

namespace DecisionLedger

/-- The chain and the reason of an event that says that a chain halted. -/
def Event.halt? : Event → Option (ChainId × String)
  | halted chain reason => some (chain, reason)
  | verified .. | accepted .. | rejected .. => none

namespace Manager

section Events

variable {manager after : Manager} {store : Store} {events : List Event}

theorem sequence_events {α : Type} {act : Manager → α → Manager × List Event}
    (holds : Event → Prop)
    (acted : ∀ manager argument, ∀ event ∈ (act manager argument).2, holds event)
    (manager : Manager) (arguments : List α) :
    ∀ event ∈ (manager.sequence act arguments).2, holds event := by
  induction arguments generalizing manager with
  | nil => exact fun event inside => absurd inside List.not_mem_nil
  | cons argument rest ih =>
      intro event inside
      rcases List.mem_append.mp inside with first | later
      · exact acted manager argument event first
      · exact ih _ event later

theorem halt?_of_mem_discard (automatic : Bool) (manager : Manager) (root : UnitId) :
    ∀ event ∈ (manager.discard automatic root).2, event.halt? = none := by
  refine sequence_events (fun event => event.halt? = none) (fun before unit event inside => ?_) _ _
  unfold discardUnit at inside
  split at inside
  · cases inside
  · cases List.mem_singleton.mp inside
    rfl

theorem halt?_of_mem_settleUnit (manager : Manager) (pending : PendingUnit) :
    ∀ event ∈ (manager.settleUnit pending).2, event.halt? = none := by
  intro event inside
  rcases List.mem_append.mp inside with dismissal | acceptance
  · exact sequence_events (fun event => event.halt? = none) (halt?_of_mem_discard true) _ _ event
      dismissal
  · cases List.mem_singleton.mp acceptance
    rfl

theorem halt?_of_mem_settle (manager : Manager) (plan : AcceptPlan) :
    ∀ event ∈ (manager.settle plan).2, event.halt? = none := by
  intro event inside
  rcases List.mem_append.mp inside with dismissal | acceptance
  · exact sequence_events (fun event => event.halt? = none) (halt?_of_mem_discard true) _ _ event
      dismissal
  · exact sequence_events (fun event => event.halt? = none) halt?_of_mem_settleUnit _ _ event
      acceptance

theorem halt?_of_verify {unit : DecisionUnit}
    (done : manager.verify store unit = .ok (after, events)) :
    ∀ event ∈ events, event.halt? = none := by
  unfold verify at done
  obtain ⟨_, -, done⟩ := bind_eq_ok_iff.mp done
  split at done
  · cases done
    simp
  · split at done
    · cases done
    · obtain ⟨candidate, -, done⟩ := bind_eq_ok_iff.mp done
      cases done
      simp [Event.halt?]

theorem halt?_of_reject {id : UnitId} (done : manager.reject id = .ok (after, events)) :
    ∀ event ∈ events, event.halt? = none := by
  unfold reject at done
  obtain ⟨_, -, done⟩ := bind_eq_ok_iff.mp done
  split at done
  · cases done
    simp
  · split at done
    · cases done
    · cases done
    · have gathered : (manager.discard false id).2 = events :=
        congrArg Prod.snd (Except.ok.inj done)
      rw [← gathered]
      exact halt?_of_mem_discard false manager id

end Events

section Settings

variable {manager after : Manager} {store : Store} {events : List Event}

theorem halted_settleUnit (manager : Manager) (pending : PendingUnit) :
    (manager.settleUnit pending).1.halted = manager.halted :=
  congrArg (·.2.2.2)
    (settings_discardEach true (manager.depart pending) (manager.siblings pending.unit.id))

/-- Whether a chain is halted, and how it is configured, is not changed by settling. -/
theorem settle_settings (manager : Manager) (plan : AcceptPlan) :
    (manager.settle plan).1.halted = manager.halted ∧
      (manager.settle plan).1.config = manager.config := by
  have decided := settings_discardEach true manager plan.dismissed.toList
  refine sequence_induction
    (fun after => after.halted = manager.halted ∧ after.config = manager.config)
    (fun pending _ before same => ?_) ⟨congrArg (·.2.2.2) decided, congrArg Prod.fst decided⟩
  rw [halted_settleUnit, config_settleUnit]
  exact same

theorem settings_verify {unit : DecisionUnit}
    (done : manager.verify store unit = .ok (after, events)) :
    after.settings = manager.settings := by
  rcases verify_cases done with rfl | ⟨rfl, -⟩ <;> rfl

theorem settings_reject {id : UnitId} (done : manager.reject id = .ok (after, events)) :
    after.settings = manager.settings := by
  rcases reject_cases done with ⟨found, -, rfl⟩ | rfl
  · rfl
  · exact settings_discard false manager id

theorem halt_of_running {reason : HaltReason} (running : manager.halted = none) :
    manager.halt reason = ({ manager with halted := some reason },
      [.halted manager.config.chain reason.text]) := by
  unfold Manager.halt
  rw [running]

theorem fst_halt (manager : Manager) (reason : HaltReason) :
    (manager.halt reason).1 = { manager with halted := (manager.halt reason).1.halted } := by
  unfold Manager.halt
  split <;> rfl

end Settings

section Accept

variable {ω : Type} {host : Host ω} {manager : Manager} {id : UnitId} {world : ω}

def settleWritten (host : Host ω) (manager : Manager) (plan : AcceptPlan) (written : ω) :
    Except ManagerError Unit × Manager × ω :=
  let (settled, events) := manager.settle plan
  match host.deliverAll manager.config.chain (plan.accepted.map (·.unit))
      (host.publishAll events written) with
  | (none, delivered) => (.ok (), settled, delivered)
  | (some failures, delivered) =>
    let (final, further) :=
      if failures.isFatal manager.config.threshold then settled.halt (.listenerFailed failures)
      else (settled, [])
    (.error (.listenerFailures failures), final, host.publishAll further delivered)

theorem accept_of_refused {error : ManagerError} (running : manager.halted = none)
    (refused : manager.plan (host.store world) id = .error error) :
    manager.accept host id world = (.error error, manager, world) := by
  unfold Manager.accept ensureRunning
  rw [running]
  dsimp only
  rw [refused]

theorem accept_of_planned {plan : AcceptPlan} (running : manager.halted = none)
    (planned : manager.plan (host.store world) id = .ok plan) :
    manager.accept host id world =
      match host.write plan.batch world with
      | .error problem =>
        (.error (.storageFailure (.unwritable problem)),
          { manager with halted := some (.commitFailed problem) },
          host.publish (.halted manager.config.chain (HaltReason.commitFailed problem).text) world)
      | .ok written => manager.settleWritten host plan written := by
  unfold Manager.accept ensureRunning
  rw [running]
  dsimp only
  rw [planned]
  dsimp only
  cases host.write plan.batch world with
  | error problem =>
      dsimp only
      rw [halt_of_running running]
      rfl
  | ok written => rfl

theorem settleWritten_answer (plan : AcceptPlan) (written : ω) :
    (manager.settleWritten host plan written).1 = .ok () ∨
      ∃ failures,
        (manager.settleWritten host plan written).1 = .error (.listenerFailures failures) := by
  unfold settleWritten
  dsimp only
  split
  · exact .inl rfl
  · exact .inr ⟨_, rfl⟩

theorem settleWritten_manager (plan : AcceptPlan) (written : ω) :
    (manager.settleWritten host plan written).2.1 = { (manager.settle plan).1 with
      halted := (manager.settleWritten host plan written).2.1.halted } := by
  unfold settleWritten
  dsimp only
  split
  · rfl
  · dsimp only
    split
    · exact fst_halt _ _
    · rfl

end Accept

end Manager

/-- A call of a manager. -/
inductive Call where
  | verify (unit : DecisionUnit)
  | accept (unit : UnitId)
  | reject (unit : UnitId)

namespace Call

variable {ω : Type}

def step (host : LawfulHost ω) : Call → Step host
  | verify unit => .verify unit
  | accept unit => .accept unit
  | reject unit => .reject unit

theorem exists_step {host : LawfulHost ω} (step : Step host) :
    (∃ call : Call, step = call.step host) ∨ ∃ change kept, step = .drift change kept := by
  cases step with
  | verify unit => exact .inl ⟨.verify unit, rfl⟩
  | accept unit => exact .inl ⟨.accept unit, rfl⟩
  | reject unit => exact .inl ⟨.reject unit, rfl⟩
  | drift change kept => exact .inr ⟨change, kept, rfl⟩

theorem lift_step {τ : Type} {host : LawfulHost ω} (observer : Observer host τ) (call : Call) :
    observer.lift (call.step host) = call.step observer.lawful := by
  cases call <;> rfl

def answer (host : LawfulHost ω) (call : Call) (situation : Manager × ω) :
    Except ManagerError Unit :=
  match call with
  | verify unit => (situation.1.verify (host.store situation.2) unit).map fun _ => ()
  | accept unit => (situation.1.accept host.toHost unit situation.2).1
  | reject unit => (situation.1.reject unit).map fun _ => ()

/-- All that a call may come to: its answer, and the manager and the world after it. -/
inductive Outcome (host : LawfulHost ω) (manager : Manager) (world : ω) :
    Call → Except ManagerError Unit × Manager × ω → Prop where
  /-- The manager has halted. -/
  | stopped {call : Call} {reason : HaltReason} : manager.halted = some reason →
      Outcome host manager world call (.error (.halted reason), manager, world)
  | refused {call : Call} {error : ManagerError} : manager.halted = none →
      error.isRefusal = true → Outcome host manager world call (.error error, manager, world)
  /-- A unit is held or rejected, or there is nothing to do. -/
  | done {call : Call} {after : Manager} {events : List Event} : manager.halted = none →
      after.settings = manager.settings → (∀ event ∈ events, event.halt? = none) →
      Outcome host manager world call (.ok (), after, host.publishAll events world)
  /-- The write of an acceptance failed, and the manager halts. -/
  | unwritten {unit : UnitId} {plan : AcceptPlan} {problem : WriteError} :
      manager.halted = none → manager.plan (host.store world) unit = .ok plan →
      host.write plan.batch world = .error problem →
      Outcome host manager world (.accept unit)
        (.error (.storageFailure (.unwritable problem)),
          { manager with halted := some (.commitFailed problem) },
          host.publish (.halted manager.config.chain (HaltReason.commitFailed problem).text) world)
  /-- A plan is written and settled, and every listener took its units. -/
  | heard {unit : UnitId} {plan : AcceptPlan} {written after : ω} :
      manager.halted = none → manager.plan (host.store world) unit = .ok plan →
      host.write plan.batch world = .ok written →
      host.deliverAll manager.config.chain (plan.accepted.map (·.unit))
        (host.publishAll (manager.settle plan).2 written) = (none, after) →
      Outcome host manager world (.accept unit) (.ok (), (manager.settle plan).1, after)
  /-- A plan is written and settled, and some listeners failed. -/
  | unheard {unit : UnitId} {plan : AcceptPlan} {written after : ω} {failures : NotifyError} :
      manager.halted = none → manager.plan (host.store world) unit = .ok plan →
      host.write plan.batch world = .ok written →
      host.deliverAll manager.config.chain (plan.accepted.map (·.unit))
        (host.publishAll (manager.settle plan).2 written) = (some failures, after) →
      failures.isFatal manager.config.threshold = false →
      Outcome host manager world (.accept unit)
        (.error (.listenerFailures failures), (manager.settle plan).1, after)
  /-- A plan is written and settled, but a listener failed too often, and the manager halts. -/
  | fatal {unit : UnitId} {plan : AcceptPlan} {written after : ω} {failures : NotifyError} :
      manager.halted = none → manager.plan (host.store world) unit = .ok plan →
      host.write plan.batch world = .ok written →
      host.deliverAll manager.config.chain (plan.accepted.map (·.unit))
        (host.publishAll (manager.settle plan).2 written) = (some failures, after) →
      failures.isFatal manager.config.threshold = true →
      Outcome host manager world (.accept unit)
        (.error (.listenerFailures failures),
          { (manager.settle plan).1 with halted := some (.listenerFailed failures) },
          host.publish (.halted manager.config.chain (HaltReason.listenerFailed failures).text)
            after)

section Outcome

variable {host : LawfulHost ω} {accepted : List DecisionUnit}

theorem outcome_accept (manager : Manager) (unit : UnitId) (world : ω) :
    Outcome host manager world (.accept unit) (manager.accept host.toHost unit world) := by
  cases running : manager.halted with
  | some reason =>
      rw [Manager.accept, Manager.ensureRunning, running]
      exact .stopped running
  | none =>
      cases planned : manager.plan (host.store world) unit with
      | error error =>
          rw [Manager.accept_of_refused running planned]
          exact .refused running ((Manager.refuses_plan unit).isRefusal planned)
      | ok plan =>
          rw [Manager.accept_of_planned running planned]
          cases written : host.write plan.batch world with
          | error problem => exact .unwritten running planned written
          | ok after =>
              dsimp only [Manager.settleWritten]
              cases delivered : host.deliverAll manager.config.chain
                  (plan.accepted.map (·.unit)) (host.publishAll (manager.settle plan).2 after) with
              | mk failed final =>
                  cases failed with
                  | none => exact .heard running planned written delivered
                  | some failures =>
                      dsimp only
                      by_cases fatal : failures.isFatal manager.config.threshold = true
                      · obtain ⟨still, config⟩ := manager.settle_settings plan
                        have chain : (manager.settle plan).1.config.chain = manager.config.chain :=
                          congrArg Configuration.chain config
                        rw [if_pos fatal, Manager.halt_of_running (still.trans running), chain]
                        exact .fatal running planned written delivered fatal
                      · rw [if_neg fatal]
                        exact .unheard running planned written delivered (eq_false_of_ne_true fatal)

/-- One of these comes of whatever is called, as long as the store can be read. -/
theorem outcome (host : LawfulHost ω) (call : Call) (situation : Manager × ω)
    (lists : (host.store situation.2).Lists accepted) :
    Outcome host situation.1 situation.2 call
      (call.answer host situation, (call.step host).perform situation) := by
  obtain ⟨manager, world⟩ := situation
  cases call with
  | accept unit => exact outcome_accept manager unit world
  | verify unit =>
      dsimp only [answer, step, Step.perform]
      cases running : manager.halted with
      | some reason =>
          rw [Manager.verify_of_halted running]
          exact .stopped running
      | none =>
          have refuses := Manager.refuses_verify lists running unit
          cases done : manager.verify (host.store world) unit with
          | error error => exact .refused running (refuses.isRefusal done)
          | ok outcome =>
              exact .done running (Manager.settings_verify done) (Manager.halt?_of_verify done)
  | reject unit =>
      dsimp only [answer, step, Step.perform]
      cases running : manager.halted with
      | some reason =>
          rw [Manager.reject_of_halted running]
          exact .stopped running
      | none =>
          have refuses := Manager.refuses_reject running unit
          cases done : manager.reject unit with
          | error error => exact .refused running (refuses.isRefusal done)
          | ok outcome =>
              exact .done running (Manager.settings_reject done) (Manager.halt?_of_reject done)

/-- What no request of a host changes is not changed by a call. -/
theorem Outcome.view_eq {α : Type} (view : ω → α)
    (written : ∀ {batch world after}, host.write batch world = .ok after → view after = view world)
    (delivered : ∀ chain unit world, view (host.deliver chain unit world).2 = view world)
    (published : ∀ event world, view (host.publish event world) = view world)
    {manager after : Manager} {world final : ω} {call : Call} {answer : Except ManagerError Unit}
    (outcome : Outcome host manager world call (answer, after, final)) :
    view final = view world := by
  have announced (events : List Event) (world : ω) :
      view (host.publishAll events world) = view world := by
    induction events generalizing world with
    | nil => rfl
    | cons event rest ih => exact (ih _).trans (published event world)
  have heard (chain : ChainId) (units : List DecisionUnit) (world : ω) :
      view (host.deliverAll chain units world).2 = view world := by
    induction units generalizing world with
    | nil => rfl
    | cons unit rest ih => exact (ih _).trans (delivered chain unit world)
  have settled {plan : AcceptPlan} {stored delivery : ω} {failed : Option NotifyError}
      (wrote : host.write plan.batch world = .ok stored)
      (told : host.deliverAll manager.config.chain (plan.accepted.map (·.unit))
        (host.publishAll (manager.settle plan).2 stored) = (failed, delivery)) :
      view delivery = view world := by
    have same := heard manager.config.chain (plan.accepted.map (·.unit))
      (host.publishAll (manager.settle plan).2 stored)
    rw [told] at same
    exact same.trans ((announced _ stored).trans (written wrote))
  cases outcome with
  | stopped | refused => rfl
  | done => exact announced _ world
  | unwritten => exact published _ world
  | heard _ _ wrote told | unheard _ _ wrote told => exact settled wrote told
  | fatal _ _ wrote told => exact (published _ _).trans (settled wrote told)

section Inversion

variable {manager after : Manager} {world final : ω} {call : Call} {error : ManagerError}
  {answer : Except ManagerError Unit}

theorem Outcome.error_cases
    (outcome : Outcome host manager world call (.error error, after, final)) :
    (∃ reason, manager.halted = some reason ∧ error = .halted reason) ∨
      error.isRefusal = true ∨ (∃ problem, error = .storageFailure (.unwritable problem)) ∨
      ∃ failures, error = .listenerFailures failures := by
  cases outcome with
  | stopped halted => exact .inl ⟨_, halted, rfl⟩
  | refused running refusal => exact .inr (.inl refusal)
  | unwritten => exact .inr (.inr (.inl ⟨_, rfl⟩))
  | unheard | fatal => exact .inr (.inr (.inr ⟨_, rfl⟩))

theorem Outcome.eq_of_refused
    (outcome : Outcome host manager world call (.error error, after, final))
    (written : ∀ problem, error ≠ .storageFailure (.unwritable problem))
    (heard : ∀ failures, error ≠ .listenerFailures failures) :
    (after, final) = (manager, world) := by
  cases outcome with
  | stopped | refused => rfl
  | unwritten => exact absurd rfl (written _)
  | unheard | fatal => exact absurd rfl (heard _)

theorem Outcome.of_unwritten {problem : WriteError}
    (outcome : Outcome host manager world call
      (.error (.storageFailure (.unwritable problem)), after, final)) :
    manager.halted = none ∧
      (∃ unit plan, call = .accept unit ∧ manager.plan (host.store world) unit = .ok plan ∧
        host.write plan.batch world = .error problem) ∧
      (after, final) = ({ manager with halted := some (.commitFailed problem) },
        host.publish (.halted manager.config.chain (HaltReason.commitFailed problem).text)
          world) := by
  cases outcome with
  | refused running refusal => cases refusal
  | unwritten running planned failed =>
      exact ⟨running, ⟨_, _, rfl, planned, failed⟩, rfl⟩

theorem Outcome.halted_ne_iff (outcome : Outcome host manager world call (answer, after, final)) :
    after.halted ≠ manager.halted ↔
      (∃ problem, answer = .error (.storageFailure (.unwritable problem))) ∨
      ∃ failures, answer = .error (.listenerFailures failures) ∧
        failures.isFatal manager.config.threshold = true := by
  cases outcome with
  | stopped => simp
  | @refused _ error running refusal =>
      constructor
      · exact fun changed => absurd rfl changed
      · rintro (⟨problem, same⟩ | ⟨failures, same, -⟩) <;> cases same <;> cases refusal
  | done running settings =>
      have same : after.halted = manager.halted := congrArg (·.2.2.2) settings
      simp [same]
  | unwritten running => simp [running]
  | @heard _ plan => simp [(manager.settle_settings plan).1]
  | @unheard _ plan _ _ _ _ _ _ _ harmless =>
      simp [(manager.settle_settings plan).1, harmless]
  | fatal running _ _ _ fatal => simp [running, fatal]

theorem Outcome.of_halted {reason : HaltReason} (halted : manager.halted = some reason)
    (outcome : Outcome host manager world call (answer, after, final)) :
    answer = .error (.halted reason) ∧ (after, final) = (manager, world) := by
  cases outcome with
  | stopped same =>
      rw [halted] at same
      cases same
      exact ⟨rfl, rfl⟩
  | refused running | done running | unwritten running | heard running | unheard running
  | fatal running =>
      rw [halted] at running
      cases running

end Inversion

end Outcome

end Call

end DecisionLedger
