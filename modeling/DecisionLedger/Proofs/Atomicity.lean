import DecisionLedger.Node.Chain
import DecisionLedger.Proofs.Halting

/-! # Failed calls change nothing

A call that fails leaves the manager, the store, the listeners and the events alone, unless a unit
was accepted and not heard; only a failed write halts the manager besides.  A chain that has halted
stays as it is, and says once that it has.
-/

namespace DecisionLedger

namespace Request

def event? : Request → Option Event
  | published event => some event
  | wrote _ | delivered .. => none

def halt? (request : Request) : Option (ChainId × String) :=
  request.event?.bind Event.halt?

theorem filterMap_halt?_published {events : List Event}
    (calm : ∀ event ∈ events, event.halt? = none) :
    (events.map published).filterMap halt? = [] := by
  rw [List.filterMap_map, List.filterMap_eq_nil_iff]
  exact calm

theorem filterMap_halt?_delivered (chain : ChainId) (units : List DecisionUnit) :
    (units.map (delivered chain)).filterMap halt? = [] := by
  rw [List.filterMap_map, List.filterMap_eq_nil_iff]
  exact fun _ _ => rfl

end Request

namespace Outlet

def sendAll (outlet : Outlet) (events : List Event) : Outlet :=
  events.foldl (fun outlet event => (outlet.send event).1) outlet

theorem fatal_sendAll (outlet : Outlet) (events : List Event) :
    (outlet.sendAll events).fatal =
      outlet.fatal ++ if outlet.isHooked then events.filterMap Event.halt? else [] := by
  induction events generalizing outlet with
  | nil => simp [sendAll]
  | cons event rest ih =>
      have later := ih (outlet.send event).1
      have step : outlet.sendAll (event :: rest) = (outlet.send event).1.sendAll rest := rfl
      rw [step, later]
      cases event <;> cases hooked : outlet.isHooked <;>
        simp [send, List.filterMap_cons, Event.halt?, hooked]

end Outlet

namespace Manager

/-- What there is to say of the halt of a manager. -/
def haltNotices (manager : Manager) : List (ChainId × String) :=
  manager.halted.toList.map fun reason => (manager.config.chain, reason.text)

/-- Settle units that are looked up one after another.  One that is not pending when its turn comes
would leave the settling half done. -/
def settleEach (manager : Manager) : List UnitId → Except ManagerError (Manager × List Event)
  | [] => .ok (manager, [])
  | id :: rest =>
    match manager.pending[id]? with
    | none => .error (.notFound id)
    | some pending =>
      let (next, events) := manager.settleUnit pending
      match next.settleEach rest with
      | .error error => .error error
      | .ok (final, later) => .ok (final, events ++ later)

theorem Rooted.settleEach_eq {manager : Manager} {accepted : List DecisionUnit}
    {unit : DecisionUnit} {plan : AcceptPlan} (rooted : manager.Rooted accepted)
    (plans : manager.Plans unit plan) :
    let decided := (manager.sequence (Manager.discard true) plan.dismissed.toList).1
    decided.settleEach (plan.accepted.map (·.unit.id)) =
      .ok (decided.sequence Manager.settleUnit plan.accepted) := by
  cases plans with
  | unit next execution =>
      have found : manager.pending[unit.id]? = some unit.held := next.holds
      simp [settleEach, sequence, found]
  | @option proposal _ choice next kind decides =>
      obtain ⟨decidedRooted, decidedNext, decidedOption⟩ := rooted.dismiss next kind decides rfl
      have top := decidedRooted.option_next decidedNext decidedOption
      intro decided
      have first : decided.pending[proposal.id]? = some proposal.held := decidedNext.holds
      have second : (decided.settleUnit proposal.held).1.pending[unit.id]? = some unit.held :=
        top.holds
      simp [settleEach, sequence, first, second]

end Manager

/-- What the calls of a manager do to it, its world and the requests that it has made so far, where
they fail and once it has halted. -/
structure Atomic {ω : Type} (host : LawfulHost ω) (situation : Manager × ω × List Request) :
    Prop where
  /-- A call fails because the manager has halted, because of what is asked, because a write
  failed, or because listeners did. -/
  errors : ∀ {call : Call} {error : ManagerError},
    call.answer host.journal.lawful situation = .error error →
    (∃ reason, situation.1.halted = some reason ∧ error = .halted reason) ∨
      error.isRefusal = true ∨ (∃ problem, error = .storageFailure (.unwritable problem)) ∨
      ∃ failures, error = .listenerFailures failures
  /-- A call that fails before a unit is accepted leaves the ledger alone, changes at most whether
  the manager has halted, calls no listener and publishes at most a halt. -/
  failed : ∀ {call : Call} {error : ManagerError},
    call.answer host.journal.lawful situation = .error error →
    (∀ failures, error ≠ .listenerFailures failures) →
    let (after, world, requests) := (call.step host.journal.lawful).perform situation
    after = { situation.1 with halted := after.halted } ∧
      (host.store situation.2.1).SameLedger (host.store world) ∧
      ∃ notices : List (ChainId × String), requests = situation.2.2 ++
        notices.map fun (chain, reason) => .published (.halted chain reason)
  /-- A call that fails without a write or a listener failing changes nothing at all. -/
  refused : ∀ {call : Call} {error : ManagerError},
    call.answer host.journal.lawful situation = .error error →
    (∀ problem, error ≠ .storageFailure (.unwritable problem)) →
    (∀ failures, error ≠ .listenerFailures failures) →
    (call.step host.journal.lawful).perform situation = situation
  /-- Where a write fails, the manager halts and says so, and that is all. -/
  unwritten : ∀ {call : Call} {problem : WriteError},
    call.answer host.journal.lawful situation = .error (.storageFailure (.unwritable problem)) →
    situation.1.halted = none ∧
      (∃ unit plan, call = .accept unit ∧
        situation.1.plan (host.store situation.2.1) unit = .ok plan ∧
        host.write plan.batch situation.2.1 = .error problem) ∧
      (call.step host.journal.lawful).perform situation =
        let reason := HaltReason.commitFailed problem
        let notice := Event.halted situation.1.config.chain reason.text
        ({ situation.1 with halted := some reason }, host.publish notice situation.2.1,
          situation.2.2 ++ [.published notice])
  /-- The reason to halt is set by a failed write and a fatal failure of a listener only. -/
  halts : ∀ call : Call,
    ((call.step host.journal.lawful).perform situation).1.halted ≠ situation.1.halted ↔
      (∃ problem, call.answer host.journal.lawful situation =
        .error (.storageFailure (.unwritable problem))) ∨
      ∃ failures, call.answer host.journal.lawful situation =
        .error (.listenerFailures failures) ∧
        failures.isFatal situation.1.config.threshold = true
  /-- A manager that has halted refuses everything. -/
  halted : ∀ {reason : HaltReason}, situation.1.halted = some reason → ∀ call : Call,
    call.answer host.journal.lawful situation = .error (.halted reason) ∧
      (call.step host.journal.lawful).perform situation = situation
  /-- Once written, a plan is settled to its end. -/
  settles : ∀ {unit : UnitId} {plan : AcceptPlan},
    situation.1.plan (host.store situation.2.1) unit = .ok plan →
    let decided := (situation.1.sequence (Manager.discard true) plan.dismissed.toList).1
    decided.settleEach (plan.accepted.map (·.unit.id)) =
      .ok (decided.sequence Manager.settleUnit plan.accepted)
  /-- A halt was announced once, if the manager has halted, and never otherwise. -/
  announced : situation.2.2.filterMap Request.halt? = situation.1.haltNotices
  /-- The hook for fatal errors was called as often. -/
  hooked : ∀ outlet : Outlet,
    (outlet.sendAll (situation.2.2.filterMap Request.event?)).fatal =
      outlet.fatal ++ if outlet.isHooked then situation.1.haltNotices else []

section Announced

variable {ω : Type} {host : LawfulHost ω} {manager after : Manager}
  {world final : ω × List Request} {call : Call} {answer : Except ManagerError Unit}

theorem Manager.haltNotices_settle (manager : Manager) (plan : AcceptPlan) :
    (manager.settle plan).1.haltNotices = manager.haltNotices := by
  obtain ⟨halted, config⟩ := manager.settle_settings plan
  rw [haltNotices, haltNotices, halted, config]

theorem LawfulHost.halt?_of_settled {plan : AcceptPlan} {written : ω × List Request}
    {failed : Option NotifyError} (wrote : host.journal.lawful.write plan.batch world = .ok written)
    (delivered : host.journal.lawful.deliverAll manager.config.chain (plan.accepted.map (·.unit))
      (host.journal.lawful.publishAll (manager.settle plan).2 written) = (failed, final)) :
    final.2.filterMap Request.halt? = world.2.filterMap Request.halt? := by
  have requests := journal_deliverAll host manager.config.chain
    (plan.accepted.map (·.unit)) (host.journal.watched.publishAll (manager.settle plan).2 written)
  rw [journal_publishAll, journal_write wrote] at requests
  have noted : final.2 = _ := (congrArg (·.2.2) delivered).symm.trans requests
  have wrote : [Request.wrote plan.batch].filterMap Request.halt? = [] := rfl
  rw [noted, List.filterMap_append, List.filterMap_append, List.filterMap_append,
    Request.filterMap_halt?_delivered,
    Request.filterMap_halt?_published (manager.halt?_of_mem_settle plan), wrote,
    List.append_nil, List.append_nil, List.append_nil]

theorem Manager.haltNotices_of_halt {requests : List Request} (reason : HaltReason)
    (running : manager.halted = none)
    (before : requests.filterMap Request.halt? = manager.haltNotices) :
    (requests ++ [Request.published (.halted manager.config.chain reason.text)]).filterMap
        Request.halt? =
      Manager.haltNotices { manager with halted := some reason } := by
  rw [List.filterMap_append, before, haltNotices, running]
  rfl

/-- Of a call that fails before a unit is accepted, only a halt is left. -/
theorem Call.Outcome.of_failed {error : ManagerError}
    (outcome : Outcome host.journal.lawful manager world call (.error error, after, final))
    (heard : ∀ failures, error ≠ .listenerFailures failures) :
    after = { manager with halted := after.halted } ∧
      (host.store world.1).SameLedger (host.store final.1) ∧
      ∃ notices : List (ChainId × String), final.2 = world.2 ++
        notices.map fun (chain, reason) => .published (.halted chain reason) := by
  cases outcome with
  | stopped | refused =>
      exact ⟨rfl, Store.SameLedger.refl _, [], (List.append_nil _).symm⟩
  | unwritten => exact ⟨rfl, host.published _ world.1, [(_, _)], rfl⟩
  | unheard | fatal => exact absurd rfl (heard _)

/-- A call announces a halt just if the manager halts in it. -/
theorem Call.Outcome.announced
    (outcome : Outcome host.journal.lawful manager world call (answer, after, final))
    (before : world.2.filterMap Request.halt? = manager.haltNotices) :
    final.2.filterMap Request.halt? = after.haltNotices := by
  cases outcome with
  | stopped | refused => exact before
  | @done _ _ events running settings calm =>
      have published : (host.journal.lawful.publishAll events world).2 = _ :=
        LawfulHost.journal_publishAll events world
      have halted : after.halted = manager.halted := congrArg (·.2.2.2) settings
      have config : after.config = manager.config := congrArg Prod.fst settings
      rw [published, List.filterMap_append, before, Request.filterMap_halt?_published calm,
        List.append_nil, Manager.haltNotices, Manager.haltNotices, halted, config]
  | unwritten running planned failed => exact Manager.haltNotices_of_halt _ running before
  | heard running planned written delivered =>
      rw [LawfulHost.halt?_of_settled written delivered, before, Manager.haltNotices_settle]
  | unheard running planned written delivered harmless =>
      rw [LawfulHost.halt?_of_settled written delivered, before, Manager.haltNotices_settle]
  | @fatal _ plan _ delivery failures running planned written delivered fatal =>
      -- the halt comes after the plan was settled and delivered, and is the only notice of it
      have silent := LawfulHost.halt?_of_settled written delivered
      rw [before, ← Manager.haltNotices_settle manager plan] at silent
      obtain ⟨halted, config⟩ := manager.settle_settings plan
      have notice := Manager.haltNotices_of_halt (.listenerFailed failures)
        (halted.trans running) silent
      rw [congrArg Configuration.chain config] at notice
      exact notice

end Announced

section Atomic

variable {ω : Type} {host : LawfulHost ω} {config : Configuration} {origin : StateUpdates}
  {situation : Manager × ω × List Request} {accepted : List DecisionUnit}

theorem Manager.Sound.atomic
    (sound : situation.1.Sound origin (host.store situation.2.1) accepted)
    (announced : situation.2.2.filterMap Request.halt? = situation.1.haltNotices) :
    Atomic host situation := by
  have outcome (call : Call) :=
    call.outcome host.journal.lawful situation sound.records.toLists
  refine { errors := ?_, failed := ?_, refused := ?_, unwritten := ?_, halts := ?_,
           halted := ?_, settles := ?_, announced, hooked := ?_ }
  · intro call error failed
    exact (failed ▸ outcome call).error_cases
  · intro call error failed heard
    exact (failed ▸ outcome call).of_failed heard
  · intro call error failed written heard
    exact (failed ▸ outcome call).eq_of_refused written heard
  · intro call problem failed
    obtain ⟨running, ⟨unit, plan, same, planned, refused⟩, result⟩ :=
      (failed ▸ outcome call).of_unwritten
    refine ⟨running, ⟨unit, plan, same, planned, ?_⟩, result⟩
    exact (host.journal.write_eq plan.batch situation.2).symm.trans (congrArg _ refused)
  · intro call
    exact (outcome call).halted_ne_iff
  · intro reason halted call
    exact (outcome call).of_halted halted
  · intro unit plan planned
    obtain ⟨unit, -, plans⟩ := sound.rooted.plan_cases sound.records.toLists planned
    exact sound.rooted.settleEach_eq plans
  · intro outlet
    rw [outlet.fatal_sendAll, List.filterMap_filterMap, ← announced]
    rfl

theorem Tenure.announced_run (tenure : Tenure host config origin) (steps : List (Step host)) :
    (host.journal.run tenure [] steps).2.2.filterMap Request.halt? =
      (host.journal.run tenure [] steps).1.haltNotices := by
  induction steps using List.reverseRecOn with
  | nil =>
      obtain ⟨accepted, tip, fresh, -⟩ := tenure.begins
      have start : (host.journal.run tenure [] []).1 = tenure.manager := rfl
      rw [start, fresh]
      rfl
  | append_singleton steps step ih =>
      obtain ⟨accepted, sound⟩ := host.journal.sound_run tenure [] steps
      rw [Observer.run_concat]
      rcases Call.exists_step step with ⟨call, rfl⟩ | ⟨change, kept, rfl⟩
      · rw [Call.lift_step]
        exact (call.outcome host.journal.lawful _ sound.records.toLists).announced ih
      · exact ih

theorem Tenure.atomic (tenure : Tenure host config origin) (steps : List (Step host)) :
    Atomic host (host.journal.run tenure [] steps) := by
  obtain ⟨accepted, sound⟩ := host.journal.sound_run tenure [] steps
  exact sound.atomic (tenure.announced_run steps)

theorem Tenure.rests_halted (tenure : Tenure host config origin) (steps later : List (Step host))
    {reason : HaltReason} (halted : (host.journal.run tenure [] steps).1.halted = some reason) :
    (host.journal.run tenure [] (steps ++ later)).1 = (host.journal.run tenure [] steps).1 ∧
      (host.journal.run tenure [] (steps ++ later)).2.2 =
        (host.journal.run tenure [] steps).2.2 := by
  induction later using List.reverseRecOn with
  | nil => simp
  | append_singleton later step ih =>
      rw [← List.append_assoc, Observer.run_concat]
      rcases Call.exists_step step with ⟨call, rfl⟩ | ⟨change, kept, rfl⟩
      · rw [Call.lift_step, ((tenure.atomic (steps ++ later)).halted (ih.1 ▸ halted) call).2]
        exact ih
      · exact ih

/-- In any run the calls that fail change nothing but the halt, and a chain that has halted stays as
it is for good. -/
theorem Tenure.atomic_run (tenure : Tenure host config origin) (steps : List (Step host)) :
    let situation := host.journal.run tenure [] steps
    Observer.bare situation = tenure.run steps ∧ Atomic host situation ∧
      ∀ {reason : HaltReason}, situation.1.halted = some reason → ∀ later : List (Step host),
        let final := host.journal.run tenure [] (steps ++ later)
        final.1 = situation.1 ∧ final.2.2 = situation.2.2 :=
  ⟨host.journal.bare_runTenure tenure [] steps, tenure.atomic steps,
    fun halted later => tenure.rests_halted steps later halted⟩

end Atomic

end DecisionLedger
