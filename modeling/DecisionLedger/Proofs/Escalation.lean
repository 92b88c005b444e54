import DecisionLedger.Proofs.NodeGroups
import DecisionLedger.Proofs.Testimony

/-! # Escalation

A listener that fails is reported with the number of its failures in a row, and a manager halts as
soon as one that must not miss a unit has failed often enough.  By then the unit is committed, and
everyone else has been notified of it.
-/

namespace DecisionLedger

namespace GroupHost

variable {ℓ ω : Type} (host : GroupHost ℓ ω)

/-- Note every answer of a listener, the oldest first. -/
def minutes : Observer host.toLawfulHost (List Testimony) where
  watched := {
    store := fun world => host.store world.1
    write := fun batch world =>
      match host.write batch world.1 with
      | .ok after => .ok (after, world.2)
      | .error problem => .error problem
    deliver := fun chain unit world =>
      let (failed, registry, after) :=
        (host.group world.1).attested.notify (host.listening world.1).attesting chain unit world
      (failed, host.regroup chain failed registry.unattested after.1, after.2)
    publish := fun event world => (host.publish event world.1, world.2) }
  store_eq _ := rfl
  write_eq batch world := by
    cases done : host.write batch world.1 with
    | error problem => simp [done, Except.map]
    | ok after => simp [done, Except.map]
  deliver_eq chain unit world := by
    obtain ⟨world, history⟩ := world
    obtain ⟨failures, new, told, -⟩ := Registry.notify_attesting (host.listening world)
      (host.group world) world history
    dsimp only
    rw [told, host.deliver_eq]
    dsimp only [Prod.map, id]
    rw [Registry.unattested_attested]
  publish_eq _ _ := rfl

section Minutes

variable {chain : ChainId} {world : ω × List Testimony}

theorem minutes_deliver (unit : DecisionUnit)
    (tallies : (host.group world.1).Tallies chain world.2) :
    let told := host.minutes.watched.deliver chain unit world
    ∃ new, told.1 = NotifyError.gather chain (reports world.2 new) ∧ told.2.2 = world.2 ++ new ∧
      (host.group world.1).Hearkens chain world.2 [unit] new (host.group told.2.1) := by
  obtain ⟨new, told, failed, hearkens⟩ := tallies.notify (host.listening world.1) unit world.1
  dsimp only [minutes]
  rw [told]
  dsimp only
  rw [host.group_regroup, Registry.unattested_attested]
  exact ⟨new, failed, rfl, hearkens⟩

theorem minutes_deliverAll (units : List DecisionUnit)
    (tallies : (host.group world.1).Tallies chain world.2) :
    let told := host.minutes.watched.deliverAll chain units world
    ∃ new, told.1 = NotifyError.gather chain (reports world.2 new) ∧ told.2.2 = world.2 ++ new ∧
      (host.group world.1).Hearkens chain world.2 units new (host.group told.2.1) := by
  induction units generalizing world with
  | nil => exact ⟨[], rfl, (List.append_nil _).symm, tallies.hearkens_nil⟩
  | cons unit rest ih =>
      obtain ⟨new, failed, noted, hearkens⟩ := host.minutes_deliver unit tallies
      have after := hearkens.tallies
      rw [← noted] at after
      obtain ⟨more, later, further, hearken⟩ := ih after
      rw [noted] at later further hearken
      refine ⟨new ++ more, ?_, ?_, hearkens.append hearken⟩
      · dsimp only [Host.deliverAll]
        rw [failed, later, NotifyError.merge_gather, reports_append]
      · exact further.trans (List.append_assoc _ _ _)

theorem minutes_notesDeliveries : host.minutes.NotesDeliveries where
  write := by
    intro batch world after done
    dsimp only [minutes] at done
    split at done <;> cases done
    rfl
  publish _ _ := rfl

variable {manager : Manager} {final : ω × List Testimony}

theorem minutes_settled {plan : AcceptPlan} {written : ω × List Testimony}
    {failed : Option NotifyError}
    (tallies : (host.group world.1).Tallies manager.config.chain world.2)
    (wrote : host.minutes.lawful.write plan.batch world = .ok written)
    (delivered : host.minutes.lawful.deliverAll manager.config.chain (plan.accepted.map (·.unit))
      (host.minutes.lawful.publishAll (manager.settle plan).2 written) = (failed, final)) :
    ∃ new, failed = NotifyError.gather manager.config.chain (reports world.2 new) ∧
      final.2 = world.2 ++ new ∧ (host.group world.1).Hearkens manager.config.chain world.2
        (plan.accepted.map (·.unit)) new (host.group final.1) := by
  obtain ⟨silent, still⟩ :=
    written_observed host.minutes_notesDeliveries wrote (manager.settle plan).2
  have ready : (host.group (host.minutes.watched.publishAll (manager.settle plan).2
      written).1).Tallies manager.config.chain
        (host.minutes.watched.publishAll (manager.settle plan).2 written).2 := by
    rwa [silent, still]
  have told := host.minutes_deliverAll (plan.accepted.map (·.unit)) ready
  rw [silent, still] at told
  rw [show host.minutes.watched.deliverAll manager.config.chain (plan.accepted.map (·.unit))
    (host.minutes.watched.publishAll (manager.settle plan).2 written) = (failed, final)
    from delivered] at told
  exact told

end Minutes

/-- What a call comes to with the listeners: what they answer, what the call returns, and whether
the manager halts for it. -/
structure Heeds (manager : Manager) (world : ω × List Testimony) (call : Call)
    (further : List DecisionUnit) (new : List Testimony)
    (outcome : Except ManagerError Unit × Manager × ω × List Testimony) : Prop where
  noted : outcome.2.2.2 = world.2 ++ new
  hearkens : (host.group world.1).Hearkens manager.config.chain world.2 further new
    (host.group outcome.2.2.1)
  /-- Failures are returned exactly if there are any. -/
  answers : ∀ error, outcome.1 = .error (.listenerFailures error) ↔
    NotifyError.gather manager.config.chain (reports world.2 new) = some error
  /-- Only the acceptance of a unit is passed to listeners, by a manager that has not halted. -/
  running : new ≠ [] → manager.halted = none ∧
    ∃ unit, call = .accept unit.id ∧ further.getLast? = some unit
  halts : ∀ error, outcome.2.1.halted = some (.listenerFailed error) ↔
    manager.halted = some (.listenerFailed error) ∨ manager.halted = none ∧
      NotifyError.gather manager.config.chain (reports world.2 new) = some error ∧
        error.isFatal manager.config.threshold = true

end GroupHost

section Outcome

variable {ℓ ω : Type} {host : GroupHost ℓ ω} {origin : StateUpdates} {manager after : Manager}
  {accepted further : List DecisionUnit} {call : Call} {answer : Except ManagerError Unit}
  {world final : ω × List Testimony}

theorem GroupHost.heeds_nil (tallies : (host.group world.1).Tallies manager.config.chain world.2)
    (silent : final.2 = world.2) (group : host.group final.1 = host.group world.1)
    (answers : ∀ error, answer ≠ .error (.listenerFailures error))
    (halts : ∀ error, after.halted = some (.listenerFailed error) ↔
      manager.halted = some (.listenerFailed error)) :
    host.Heeds manager world call [] [] (answer, after, final) where
  noted := silent.trans (List.append_nil _).symm
  hearkens := group ▸ tallies.hearkens_nil
  answers error := by simp [reports, NotifyError.gather, answers error]
  running impossible := absurd rfl impossible
  halts error := by simp [reports, NotifyError.gather, halts error]

theorem GroupHost.heeds_settled {id : UnitId} {plan : AcceptPlan}
    {written delivery : ω × List Testimony} {failed : Option NotifyError}
    (sound : manager.Sound origin (host.minutes.lawful.store world) accepted)
    (tallies : (host.group world.1).Tallies manager.config.chain world.2)
    (running : manager.halted = none)
    (planned : manager.plan (host.minutes.lawful.store world) id = .ok plan)
    (wrote : host.minutes.lawful.write plan.batch world = .ok written)
    (delivered : host.minutes.lawful.deliverAll manager.config.chain (plan.accepted.map (·.unit))
      (host.minutes.lawful.publishAll (manager.settle plan).2 written) = (failed, delivery))
    (silent : final.2 = delivery.2) (group : host.group final.1 = host.group delivery.1)
    (answers : ∀ error, answer = .error (.listenerFailures error) ↔ failed = some error)
    (halts : ∀ error, after.halted = some (.listenerFailed error) ↔
      failed = some error ∧ error.isFatal manager.config.threshold = true) :
    ∃ new, host.Heeds manager world (.accept id) (plan.accepted.map (·.unit)) new
      (answer, after, final) := by
  obtain ⟨new, rfl, noted, hearkens⟩ := host.minutes_settled tallies wrote delivered
  obtain ⟨unit, rfl, plans⟩ := sound.rooted.plan_cases sound.records.toLists planned
  refine ⟨new, silent.trans noted, ?_, answers, fun _ => ⟨running, unit, rfl,
    plans.getLast?_accepted⟩, fun error => ?_⟩
  · dsimp only
    rwa [group]
  · simp [halts error, running]

/-- In every call the listeners are asked to take what it accepts, and their failures are heeded. -/
theorem Call.Outcome.heeds
    (outcome : Outcome host.minutes.lawful manager world call (answer, after, final))
    (sound : manager.Sound origin (host.minutes.lawful.store world) accepted)
    (next : after.Sound origin (host.minutes.lawful.store final) (accepted ++ further))
    (tallies : (host.group world.1).Tallies manager.config.chain world.2) :
    ∃ new, host.Heeds manager world call further new (answer, after, final) := by
  cases outcome with
  | stopped halted =>
      obtain rfl := sound.further_eq_nil next rfl
      exact ⟨[], host.heeds_nil tallies rfl rfl (by simp) fun _ => .rfl⟩
  | @refused _ error running refusal =>
      obtain rfl := sound.further_eq_nil next rfl
      refine ⟨[], host.heeds_nil tallies rfl rfl (fun failures same => ?_) fun _ => .rfl⟩
      cases same
      cases refusal
  | @done _ _ events running settings =>
      obtain rfl := sound.further_eq_nil next (congrArg (·.2.1) settings)
      obtain ⟨silent, group⟩ :=
        GroupHost.publishAll_observed host.minutes_notesDeliveries events world
      have halted : after.halted = manager.halted := congrArg (·.2.2.2) settings
      exact ⟨[], host.heeds_nil tallies silent group (by simp) fun _ => by rw [halted]⟩
  | unwritten running planned refused =>
      obtain rfl := sound.further_eq_nil next rfl
      refine ⟨[], host.heeds_nil tallies rfl (host.group_publish _ _) (by simp) fun _ => ?_⟩
      simp [running]
  | heard running planned wrote delivered =>
      obtain rfl := sound.further_of_settled planned wrote delivered (.refl _) next rfl
      refine host.heeds_settled sound tallies running planned wrote delivered rfl rfl (by simp) ?_
      simp [(manager.settle_settings _).1, running]
  | @unheard _ plan _ _ failures running planned wrote delivered harmless =>
      obtain rfl := sound.further_of_settled planned wrote delivered (.refl _) next rfl
      refine host.heeds_settled sound tallies running planned wrote delivered rfl rfl (by simp)
        fun error => ?_
      simp only [(manager.settle_settings plan).1, running, Option.some.injEq]
      refine ⟨fun halted => (by cases halted), ?_⟩
      rintro ⟨rfl, fatal⟩
      exact absurd fatal (by simp [harmless])
  | fatal running planned wrote delivered fatal =>
      obtain rfl := sound.further_of_settled planned wrote delivered
        (host.minutes.lawful.published _ _) next rfl
      refine host.heeds_settled sound tallies running planned wrote delivered rfl
        (host.group_publish _ _) (by simp) fun error => ?_
      simp only [Option.some.injEq, HaltReason.listenerFailed.injEq]
      exact ⟨fun same => ⟨same, same ▸ fatal⟩, And.left⟩

end Outcome

theorem Observer.answer_eq {ω τ : Type} {host : LawfulHost ω} (observer : Observer host τ)
    (call : Call) (situation : Manager × ω × τ) :
    call.answer observer.lawful situation = call.answer host (Observer.bare situation) := by
  cases call with
  | verify unit =>
      dsimp only [Call.answer, Observer.bare]
      rw [show observer.lawful.store situation.2 = host.store situation.2.1 from
        observer.store_eq situation.2]
  | accept unit => exact congrArg Prod.fst (observer.accept_eq situation.1 unit situation.2)
  | reject unit => rfl

/-- A run on a listener group that only the manager notifies on its chain: no listener there has
failed before. -/
structure Trial {ℓ ω : Type} (host : GroupHost ℓ ω) (config : Configuration)
    (origin : StateUpdates) extends Audition host config origin where
  fresh : ∀ registration ∈ (host.group tenure.world).registrations,
    registration.chain = config.chain → registration.failures = 0

namespace Trial

variable {ℓ ω : Type} {host : GroupHost ℓ ω} {config : Configuration} {origin : StateUpdates}
  (trial : Trial host config origin)

/-- The manager, its world and all answers of listeners after some of the steps. -/
def reached (moment : Nat) : Manager × ω × List Testimony :=
  host.minutes.run trial.tenure [] (trial.steps.take moment)

/-- What the listeners answered in some of the steps. -/
def minutes (moment : Nat) : List Testimony :=
  (trial.reached moment).2.2

/-- What the listeners answered in one step. -/
def said (moment : Nat) : List Testimony :=
  (trial.minutes (moment + 1)).drop (trial.minutes moment).length

/-- The failures in one step, each with its number in a row. -/
def failures (moment : Nat) : List ListenerFailure :=
  reports (trial.minutes moment) (trial.said moment)

/-- Whether a listener that must not miss a unit fails in a step for the last time that it may. -/
def Alarms (moment : Nat) : Prop :=
  ∃ failure ∈ trial.failures moment,
    failure.critical = true ∧ config.threshold ≤ failure.consecutive

theorem reached_succ {moment : Nat} {step : Step host.toLawfulHost}
    (taken : trial.steps[moment]? = some step) :
    trial.reached (moment + 1) = (host.minutes.lift step).perform (trial.reached moment) := by
  rw [reached, List.take_add_one, taken, Option.toList_some, Observer.run_concat]
  rfl

theorem bare_after (moment : Nat) :
    Observer.bare (trial.after moment) = Observer.bare (trial.reached moment) :=
  (host.audit.bare_runTenure trial.tenure [] _).trans
    (host.minutes.bare_runTenure trial.tenure [] _).symm

theorem group_eq (moment : Nat) : trial.group moment = host.group (trial.reached moment).2.1 :=
  congrArg (fun situation : Manager × ω => host.group situation.2) (trial.bare_after moment)

theorem config_reached (moment : Nat) : (trial.reached moment).1.config = config := by
  have same := trial.tenure.config_run (trial.steps.take moment)
  rwa [← host.minutes.bare_runTenure trial.tenure []] at same

theorem sound_reached {moment : Nat} {accepted : List DecisionUnit}
    (sound : (trial.after moment).1.Sound origin (host.store (trial.after moment).2.1) accepted) :
    (trial.reached moment).1.Sound origin (host.minutes.lawful.store (trial.reached moment).2)
      accepted := by
  have same := congrArg
    (fun situation => situation.1.Sound origin (host.store situation.2) accepted)
    (trial.bare_after moment)
  exact same.mp sound

/-- What a step comes to with the listeners. -/
structure Proceeds (moment : Nat) (further : List DecisionUnit) : Prop where
  committed : ∃ accepted, trial.committed moment = some accepted ∧
    trial.committed (moment + 1) = some (accepted ++ further)
  noted : trial.minutes (moment + 1) = trial.minutes moment ++ trial.said moment
  /-- Everyone registered is asked to take every unit that is committed, in order. -/
  hearings : (trial.said moment).map (·.toHearing) =
    further.flatMap ((trial.group moment).calls config.chain)
  named : ∀ testimony ∈ trial.said moment, ∃ registration ∈ (trial.group moment).registrations,
    registration.ticket = testimony.ticket ∧ registration.name = testimony.name
  /-- Only the acceptance of a unit is passed to listeners, by a manager that has not halted. -/
  running : trial.said moment ≠ [] → (trial.reached moment).1.halted = none ∧
    ∃ unit, trial.steps[moment]? = some (.accept unit.id) ∧ further.getLast? = some unit
  /-- An acceptance returns failures exactly if there are any. -/
  answers : ∀ {id : UnitId}, trial.steps[moment]? = some (.accept id) → ∀ error,
    ((trial.reached moment).1.accept host.toHost id (trial.reached moment).2.1).1 =
      .error (.listenerFailures error) ↔
        NotifyError.gather config.chain (trial.failures moment) = some error
  halts : ∀ error, (trial.reached (moment + 1)).1.halted = some (.listenerFailed error) ↔
    (trial.reached moment).1.halted = some (.listenerFailed error) ∨
      (trial.reached moment).1.halted = none ∧ trial.Alarms moment ∧
        error = { chain := config.chain, failures := trial.failures moment }
  tallies : (trial.group (moment + 1)).Tallies config.chain (trial.minutes (moment + 1))

theorem heeds_of_call {moment : Nat} {call : Call}
    (taken : trial.steps[moment]? = some (call.step host.toLawfulHost))
    (tallies : (trial.group moment).Tallies config.chain (trial.minutes moment)) :
    ∃ accepted further new, trial.committed moment = some accepted ∧
      trial.committed (moment + 1) = some (accepted ++ further) ∧
      host.Heeds (trial.reached moment).1 (trial.reached moment).2 call further new
        (call.answer host.toLawfulHost (Observer.bare (trial.reached moment)),
          trial.reached (moment + 1)) := by
  obtain ⟨inside, -⟩ := List.getElem?_eq_some_iff.mp taken
  obtain ⟨accepted, further, sound, next, -⟩ := trial.progress inside
  have before := trial.sound_reached sound
  have after := trial.sound_reached next
  have outcome := call.outcome host.minutes.lawful (trial.reached moment) before.records.toLists
  rw [← Call.lift_step, ← trial.reached_succ taken, host.minutes.answer_eq] at outcome
  have counted : (host.group (trial.reached moment).2.1).Tallies
      (trial.reached moment).1.config.chain (trial.reached moment).2.2 := by
    rwa [trial.config_reached, ← trial.group_eq]
  obtain ⟨new, heeds⟩ := outcome.heeds before after counted
  exact ⟨accepted, further, new, trial.committed_eq sound, trial.committed_eq next, heeds⟩

theorem failures_ne_nil_iff {moment : Nat} :
    trial.failures moment ≠ [] ↔ ∃ testimony ∈ trial.said moment, testimony.problem ≠ none := by
  simp [failures, reports_eq_nil_iff]

theorem said_ne_nil {moment : Nat} (failed : trial.failures moment ≠ []) :
    trial.said moment ≠ [] := by
  obtain ⟨testimony, inside, -⟩ := trial.failures_ne_nil_iff.mp failed
  exact List.ne_nil_of_mem inside

theorem Alarms.failures_ne_nil {moment : Nat} (alarms : trial.Alarms moment) :
    trial.failures moment ≠ [] := by
  obtain ⟨failure, inside, -⟩ := alarms
  exact List.ne_nil_of_mem inside

theorem alarms_iff {moment : Nat} {error : NotifyError} :
    NotifyError.gather config.chain (trial.failures moment) = some error ∧
        error.isFatal config.threshold = true ↔
      trial.Alarms moment ∧
        error = { chain := config.chain, failures := trial.failures moment } := by
  rw [NotifyError.gather_eq_some_iff]
  constructor
  · rintro ⟨⟨-, rfl⟩, fatal⟩
    exact ⟨by simpa [NotifyError.isFatal, Alarms] using fatal, rfl⟩
  · rintro ⟨alarms, rfl⟩
    exact ⟨⟨alarms.failures_ne_nil, rfl⟩, by simpa [NotifyError.isFatal, Alarms] using alarms⟩

theorem proceeds_of_drift {moment : Nat} {change : ω → ω} {kept}
    (taken : trial.steps[moment]? = some (.drift change kept))
    (tallies : (trial.group moment).Tallies config.chain (trial.minutes moment)) :
    trial.Proceeds moment [] := by
  obtain ⟨inside, -⟩ := List.getElem?_eq_some_iff.mp taken
  obtain ⟨accepted, further, sound, next, -⟩ := trial.progress inside
  have still : (trial.after (moment + 1)).1 = (trial.after moment).1 := by
    rw [trial.after_succ taken]
    rfl
  obtain rfl := sound.further_eq_nil next (congrArg (·.lastAccepted) still)
  have reached := trial.reached_succ taken
  have noted : trial.minutes (moment + 1) = trial.minutes moment :=
    congrArg (·.2.2) reached
  have silent : trial.said moment = [] := by rw [said, noted, List.drop_length]
  have quiet : ¬trial.Alarms moment := by simp [Alarms, failures, silent, reports]
  have halted : (trial.reached (moment + 1)).1.halted = (trial.reached moment).1.halted :=
    congrArg (·.1.halted) reached
  have changes := trial.orderly taken
  rw [← host.minutes.bare_runTenure trial.tenure []] at changes
  have group : trial.group (moment + 1) = host.group (change (trial.reached moment).2.1) :=
    (trial.group_eq _).trans (congrArg (fun situation => host.group situation.2.1) reached)
  exact {
    committed := ⟨accepted, trial.committed_eq sound, trial.committed_eq next⟩
    noted := by rw [noted, silent, List.append_nil]
    hearings := by rw [silent]; rfl
    named := by simp [silent]
    running := fun spoken => absurd silent spoken
    answers := by
      intro id accepts
      rw [taken] at accepts
      cases accepts
    halts := fun error => by simp [halted, quiet]
    tallies := by
      rw [group, noted]
      exact Registry.Changes.tallies changes (trial.group_eq moment ▸ tallies) }

/-- Every step proceeds from counters that agree with what was answered to others that do. -/
theorem exists_proceeds {moment : Nat} (more : moment < trial.steps.length)
    (tallies : (trial.group moment).Tallies config.chain (trial.minutes moment)) :
    ∃ further, trial.Proceeds moment further := by
  have taken := List.getElem?_eq_getElem more
  generalize trial.steps[moment] = step at taken
  rcases Call.exists_step step with ⟨call, rfl⟩ | ⟨change, kept, rfl⟩
  · obtain ⟨accepted, further, new, before, after, heeds⟩ := trial.heeds_of_call taken tallies
    have noted : trial.minutes (moment + 1) = trial.minutes moment ++ new := heeds.noted
    obtain rfl : trial.said moment = new := by rw [said, noted, List.drop_left]
    have hearkens := heeds.hearkens
    have answers := heeds.answers
    have halts := heeds.halts
    rw [trial.config_reached, ← trial.group_eq] at hearkens
    rw [trial.config_reached] at answers halts
    refine ⟨further, {
      committed := ⟨accepted, before, after⟩, noted, hearings := hearkens.hearings,
      named := hearkens.named, running := ?_, answers := ?_, halts := fun error => ?_,
      tallies := ?_ }⟩
    · intro spoken
      obtain ⟨running, unit, rfl, last⟩ := heeds.running spoken
      exact ⟨running, unit, taken, last⟩
    · intro id accepts
      rw [taken] at accepts
      cases call <;> cases accepts
      exact answers
    · rw [← trial.alarms_iff]
      exact halts error
    · rw [trial.group_eq, noted]
      exact hearkens.tallies
  · exact ⟨[], trial.proceeds_of_drift taken tallies⟩

theorem tallies_group {moment : Nat} (reached : moment ≤ trial.steps.length) :
    (trial.group moment).Tallies config.chain (trial.minutes moment) := by
  induction moment with
  | zero =>
      have begins : trial.minutes 0 = [] := rfl
      refine { toTicketed := trial.ticketed, issued := ?_, counts := ?_ }
      · simp [begins]
      · exact fun registration inside here => trial.fresh registration inside here
  | succ moment ih =>
      obtain ⟨further, proceeds⟩ := trial.exists_proceeds reached (ih (Nat.le_of_succ_le reached))
      exact proceeds.tallies

/-- The manager halts for the listeners in the first step with an alarm. -/
theorem halted_iff {moment : Nat} (reached : moment ≤ trial.steps.length) (error : NotifyError) :
    (trial.reached moment).1.halted = some (.listenerFailed error) ↔
      ∃ first < moment, trial.Alarms first ∧
        error = { chain := config.chain, failures := trial.failures first } := by
  induction moment with
  | zero =>
      obtain ⟨accepted, tip, same, -⟩ := trial.tenure.begins
      have running : (trial.reached 0).1.halted = none := congrArg (·.halted) same
      simp [running]
  | succ moment ih =>
      have before := ih (Nat.le_of_succ_le reached)
      obtain ⟨further, proceeds⟩ :=
        trial.exists_proceeds reached (trial.tallies_group (Nat.le_of_succ_le reached))
      rw [proceeds.halts, before]
      constructor
      · rintro (⟨first, earlier, alarm⟩ | ⟨-, alarm⟩)
        · exact ⟨first, Nat.lt_succ_of_lt earlier, alarm⟩
        · exact ⟨moment, Nat.lt_succ_self _, alarm⟩
      · rintro ⟨first, soon, alarms, rfl⟩
        rcases Nat.lt_or_eq_of_le (Nat.le_of_lt_succ soon) with earlier | rfl
        · exact .inl ⟨first, earlier, alarms, rfl⟩
        · have spoken := trial.said_ne_nil alarms.failures_ne_nil
          exact .inr ⟨(proceeds.running spoken).1, alarms, rfl⟩

/-- A manager heeds the listeners of its chain. -/
structure Escalates : Prop where
  /-- The answers of listeners were noted in a run as it is. -/
  bare : ∀ moment, Observer.bare (trial.reached moment) =
    trial.tenure.run (trial.steps.take moment)
  /-- A ticket is that of one registration of one listener. -/
  tickets : ∀ {early late : Nat} {left right : Registration ℓ}, early ≤ late →
    late ≤ trial.steps.length → left ∈ (trial.group early).registrations →
    right ∈ (trial.group late).registrations → left.ticket = right.ticket → left.Becomes right
  /-- In each step everyone registered is asked to take every unit that is committed, unit by unit
  and in the order of registration. -/
  asks : ∀ {moment : Nat}, moment < trial.steps.length → ∃ accepted further,
    trial.committed moment = some accepted ∧
    trial.committed (moment + 1) = some (accepted ++ further) ∧
    trial.minutes (moment + 1) = trial.minutes moment ++ trial.said moment ∧
    (trial.said moment).map (·.toHearing) =
      further.flatMap ((trial.group moment).calls config.chain) ∧
    ∀ testimony ∈ trial.said moment, ∃ registration ∈ (trial.group moment).registrations,
      registration.ticket = testimony.ticket ∧ registration.name = testimony.name
  /-- An acceptance returns failures of listeners exactly if it commits and someone fails, and then
  all of them, each with its number in a row. -/
  answers : ∀ {moment : Nat} {id : UnitId}, trial.steps[moment]? = some (.accept id) → ∀ error,
    ((trial.reached moment).1.accept host.toHost id (trial.reached moment).2.1).1 =
        .error (.listenerFailures error) ↔
      trial.committed (moment + 1) ≠ trial.committed moment ∧
      (∃ testimony ∈ trial.said moment, testimony.problem ≠ none) ∧
      error = { chain := config.chain, failures := trial.failures moment }
  /-- The manager has halted for listeners from the first alarm on. -/
  halts : ∀ {moment : Nat}, moment ≤ trial.steps.length → ∀ error,
    (trial.reached moment).1.halted = some (.listenerFailed error) ↔
      ∃ first < moment, trial.Alarms first ∧
        error = { chain := config.chain, failures := trial.failures first }
  /-- There is one alarm at most, in an acceptance that commits its unit. -/
  alarms : ∀ {moment : Nat}, moment < trial.steps.length → trial.Alarms moment →
    (trial.reached moment).1.halted = none ∧ (∀ other < moment, ¬trial.Alarms other) ∧
    ∃ unit accepted further, trial.steps[moment]? = some (.accept unit.id) ∧
      trial.committed moment = some accepted ∧
      trial.committed (moment + 1) = some (accepted ++ further) ∧ further.getLast? = some unit

/-- In any run, listeners that fail are counted and reported, and the manager halts for them at the
first alarm. -/
theorem escalates_run : trial.Escalates := by
  have proceeds {moment : Nat} (more : moment < trial.steps.length) :
      ∃ further, trial.Proceeds moment further :=
    trial.exists_proceeds more (trial.tallies_group (Nat.le_of_lt more))
  refine { bare := ?_, tickets := ?_, asks := ?_, answers := ?_, halts := ?_, alarms := ?_ }
  · exact fun moment => host.minutes.bare_runTenure trial.tenure [] _
  · intro early late left right order reached inside held same
    exact trial.registration_unique order reached inside held same
  · intro moment more
    obtain ⟨further, proceeds⟩ := proceeds more
    obtain ⟨accepted, before, after⟩ := proceeds.committed
    exact ⟨accepted, further, before, after, proceeds.noted, proceeds.hearings, proceeds.named⟩
  · intro moment id taken error
    obtain ⟨more, -⟩ := List.getElem?_eq_some_iff.mp taken
    obtain ⟨further, proceeds⟩ := proceeds more
    rw [proceeds.answers taken error, NotifyError.gather_eq_some_iff, trial.failures_ne_nil_iff]
    constructor
    · rintro ⟨failed, rfl⟩
      refine ⟨fun same => ?_, failed, rfl⟩
      obtain ⟨accepted, before, after⟩ := proceeds.committed
      obtain ⟨-, unit, -, last⟩ :=
        proceeds.running (trial.said_ne_nil (trial.failures_ne_nil_iff.mpr failed))
      rw [before, after, Option.some.injEq, List.append_right_eq_self] at same
      rw [same] at last
      cases last
    · exact And.right
  · exact fun reached error => trial.halted_iff reached error
  · intro moment more alarms
    obtain ⟨further, proceeds⟩ := proceeds more
    obtain ⟨accepted, before, after⟩ := proceeds.committed
    obtain ⟨running, unit, taken, last⟩ :=
      proceeds.running (trial.said_ne_nil alarms.failures_ne_nil)
    refine ⟨running, fun other earlier alarmed => ?_, unit, accepted, further, taken, before,
      after, last⟩
    -- an earlier alarm would have halted the manager
    have halted := (trial.halted_iff (Nat.le_of_lt more) _).mpr ⟨other, earlier, alarmed, rfl⟩
    rw [running] at halted
    cases halted

end Trial

/-- Any calls of a manager at a site, with any errands in between, are a trial of the listeners of
the site, unless one of its chain has failed before. -/
def Site.trial {site : Site} {config : Configuration} {origin : StateUpdates}
    (tenure : Tenure site.lawful config origin)
    (ticketed : (tenure.world.1.group site.group).Ticketed)
    (quiet : tenure.world.1.Quiet site.group config.chain)
    (fresh : ∀ registration ∈ (tenure.world.1.group site.group).registrations,
      registration.chain = config.chain → registration.failures = 0)
    (tasks : List (Call ⊕ Errand)) : Trial site.groupHost config origin where
  toAudition := site.audition tenure ticketed quiet tasks
  fresh

namespace Tribunal

open Recital (site founded first second output)

def proposal : DecisionUnit :=
  .ofFields { parent := second.id, height := 3, timestamp := none,
              body := .proposal { effect := output 0xc3, prefersCommit := true } } (by decide)

def option : DecisionUnit :=
  .ofFields { parent := proposal.id, height := 4, timestamp := none, body := .commit } (by decide)

def refusal : AcceptError := .unwritable ⟨"full"⟩

/-- A probe that must not miss a unit, and refuses every one. -/
def judge : Probe :=
  { notes := 0, failure := some refusal, critical := true, group := "group", chain := 1 }

def node : Node :=
  (founded.addListener fun _ => .probe judge).2

def begun : Tenure site.lawful { chain := 1, threshold := 2 } ∅ :=
  (Start.ofFounded (node, ⟨.closed, false, []⟩) _ Recital.sameLedger_founded).tenure

/-- The judge takes the second unit, and refuses the first, the proposal and its option. -/
def tasks : List (Call ⊕ Errand) :=
  [.inr (.register "group" 1 "judge" 0 false), .inl (.verify first), .inl (.verify second),
    .inl (.verify proposal), .inl (.verify option), .inl (.accept first.id),
    .inr (.upset 0 none), .inl (.accept second.id), .inr (.upset 0 (some refusal)),
    .inl (.accept option.id)]

def trial : Trial site.groupHost { chain := 1, threshold := 2 } ∅ :=
  site.trial begun ⟨nofun, .nil⟩ (Recital.quiet_founded.addProbe judge rfl) nofun tasks

def complaint (unit : UnitId) (consecutive : Nat) : ListenerFailure :=
  { name := "judge", unit, error := refusal, critical := true, consecutive }

set_option maxRecDepth 100000 in
theorem failures_eq :
    trial.failures 5 = [complaint first.id 1] ∧ trial.failures 7 = [] ∧
      trial.failures 9 = [complaint proposal.id 1, complaint option.id 2] := by
  decide +kernel

/-- The count begins anew after the second unit, and reaches the threshold with the option. -/
theorem judge_halts :
    trial.failures 5 = [complaint first.id 1] ∧ trial.failures 7 = [] ∧
      trial.failures 9 = [complaint proposal.id 1, complaint option.id 2] ∧
      (trial.reached 9).1.halted = none ∧
      (trial.reached 10).1.halted =
        some (.listenerFailed { chain := 1, failures := trial.failures 9 }) := by
  obtain ⟨alone, none, both⟩ := failures_eq
  have alarms : trial.Alarms 9 := by
    rw [Trial.Alarms, both]
    exact ⟨complaint option.id 2, by simp, rfl, by decide⟩
  have length : trial.steps.length = 10 := rfl
  obtain ⟨running, -⟩ := trial.escalates_run.alarms (by rw [length]; decide) alarms
  refine ⟨alone, none, both, running, ?_⟩
  exact (trial.escalates_run.halts (by rw [length]) _).mpr ⟨9, by decide, alarms, rfl⟩

end Tribunal

end DecisionLedger
