import DecisionLedger.Proofs.AcceptedState
import DecisionLedger.Proofs.GroupHost
import DecisionLedger.Proofs.Halting

/-! # What listeners hear of a step

A step that accepts units passes them, in order, to everyone who is registered; any other step
passes nothing to anyone.
-/

namespace DecisionLedger

namespace Manager

variable {origin : StateUpdates} {manager after : Manager} {store other : Store}
  {accepted further : List DecisionUnit}

/-- A store and its last unit determine what was accepted. -/
theorem Sound.accepted_unique (left : manager.Sound origin store accepted)
    (right : after.Sound origin store further)
    (same : manager.lastAccepted = after.lastAccepted) : accepted = further := by
  have first := left.records.acceptedUpTo?_eq left.chronicle left.rooted.last
  have second := right.records.acceptedUpTo?_eq right.chronicle right.rooted.last
  rw [same, second] at first
  exact (Option.some.inj first).symm

theorem Sound.further_eq_nil (sound : manager.Sound origin store accepted)
    (next : after.Sound origin other (accepted ++ further))
    (same : after.lastAccepted = manager.lastAccepted) : further = [] := by
  have high := sound.height_lastAccepted next
  rw [same] at high
  exact List.length_eq_zero_iff.mp (by omega)

end Manager

section Step

variable {ℓ ω : Type} {host : GroupHost ℓ ω} {origin : StateUpdates} {manager after : Manager}
  {accepted further : List DecisionUnit} {call : Call} {answer : Except ManagerError Unit}

theorem Call.roster_step (host : GroupHost ℓ ω) (call : Call) (situation : Manager × ω)
    (lists : (host.store situation.2).Lists accepted) :
    (host.group ((call.step host.toLawfulHost).perform situation).2).roster =
      (host.group situation.2).roster :=
  (call.outcome host.toLawfulHost situation lists).view_eq (fun world => (host.group world).roster)
    (fun written => congrArg Registry.roster (host.group_write written)) host.roster_deliver
    fun event world => congrArg Registry.roster (host.group_publish event world)

variable {world final : ω × List Hearing}

theorem GroupHost.hears_settled {plan : AcceptPlan} {written : ω × List Hearing}
    {failed : Option NotifyError} (wrote : host.audit.lawful.write plan.batch world = .ok written)
    (delivered : host.audit.lawful.deliverAll manager.config.chain (plan.accepted.map (·.unit))
      (host.audit.lawful.publishAll (manager.settle plan).2 written) = (failed, final)) :
    final.2 = world.2 ++ (plan.accepted.map (·.unit)).flatMap
      ((host.group world.1).calls manager.config.chain) := by
  obtain ⟨silent, still⟩ :=
    written_observed host.audit_notesDeliveries wrote (manager.settle plan).2
  have heard := host.audit_deliverAll manager.config.chain (plan.accepted.map (·.unit))
    (host.audit.watched.publishAll (manager.settle plan).2 written)
  rw [silent, still] at heard
  exact (congrArg (·.2.2) delivered).symm.trans heard

theorem GroupHost.silent_of_unwritten {unit : UnitId} {plan : AcceptPlan} {problem : WriteError}
    (planned : manager.plan (host.store world.1) unit = .ok plan)
    (refused : host.write plan.batch world.1 = .error problem) :
    (manager.accept host.audit.watched unit world).2.2.2 = world.2 := by
  have failed : host.audit.watched.write plan.batch world = .error problem := by
    simp [audit, refused]
  have found : manager.plan (host.audit.watched.store world) unit = .ok plan := planned
  unfold Manager.accept
  rw [found]
  cases manager.ensureRunning with
  | error error => rfl
  | ok done =>
      dsimp only
      rw [failed]
      exact (publishAll_observed host.audit_notesDeliveries _ world).1

theorem Manager.Sound.of_settled {unit : UnitId} {plan : AcceptPlan} {lawful : LawfulHost ω}
    {before written delivery : ω} {failed : Option NotifyError}
    (sound : manager.Sound origin (lawful.store before) accepted)
    (planned : manager.plan (lawful.store before) unit = .ok plan)
    (wrote : lawful.write plan.batch before = .ok written)
    (delivered : lawful.deliverAll manager.config.chain (plan.accepted.map (·.unit))
      (lawful.publishAll (manager.settle plan).2 written) = (failed, delivery)) :
    (manager.settle plan).1.Sound origin (lawful.store delivery)
      (accepted ++ plan.accepted.map (·.unit)) := by
  obtain ⟨unit, -, plans⟩ := sound.rooted.plan_cases sound.records.toLists planned
  exact (sound.settle plans).of_sameLedger (lawful.sameLedger_delivered wrote delivered)

theorem Manager.Sound.further_of_settled {unit : UnitId} {plan : AcceptPlan} {lawful : LawfulHost ω}
    {before written delivery final : ω} {failed : Option NotifyError}
    (sound : manager.Sound origin (lawful.store before) accepted)
    (planned : manager.plan (lawful.store before) unit = .ok plan)
    (wrote : lawful.write plan.batch before = .ok written)
    (delivered : lawful.deliverAll manager.config.chain (plan.accepted.map (·.unit))
      (lawful.publishAll (manager.settle plan).2 written) = (failed, delivery))
    (ledger : (lawful.store delivery).SameLedger (lawful.store final))
    (next : after.Sound origin (lawful.store final) (accepted ++ further))
    (same : (manager.settle plan).1.lastAccepted = after.lastAccepted) :
    further = plan.accepted.map (·.unit) := by
  have settled := (sound.of_settled planned wrote delivered).of_sameLedger ledger
  exact (List.append_cancel_left (settled.accepted_unique next same)).symm

/-- The listeners hear of a call exactly the units that it accepts, each of them everyone. -/
theorem Call.Outcome.hears
    (outcome : Outcome host.audit.lawful manager world call (answer, after, final))
    (sound : manager.Sound origin (host.audit.lawful.store world) accepted)
    (next : after.Sound origin (host.audit.lawful.store final) (accepted ++ further)) :
    final.2 = world.2 ++ further.flatMap ((host.group world.1).calls manager.config.chain) := by
  cases outcome with
  | stopped | refused | unwritten =>
      obtain rfl := sound.further_eq_nil next rfl
      exact (List.append_nil _).symm
  | @done _ _ events running settings =>
      obtain rfl := sound.further_eq_nil next (congrArg (·.2.1) settings)
      have silent := (GroupHost.publishAll_observed host.audit_notesDeliveries events world).1
      exact silent.trans (List.append_nil _).symm
  | heard running planned wrote delivered | unheard running planned wrote delivered =>
      obtain rfl := sound.further_of_settled planned wrote delivered (.refl _) next rfl
      exact host.hears_settled wrote delivered
  | fatal running planned wrote delivered =>
      obtain rfl := sound.further_of_settled planned wrote delivered
        (host.audit.lawful.published _ _) next rfl
      have heard := host.hears_settled wrote delivered
      exact heard

end Step

end DecisionLedger
