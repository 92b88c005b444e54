import DecisionLedger.Proofs.Halting

/-! # What a manager cannot tell apart

A manager knows the world by what its host answers.  Worlds that the host answers alike for the
chain of a manager, and leaves alike, are alike to the manager: every call has one answer in both,
and leaves one manager in both.
-/

namespace DecisionLedger

namespace Host

variable {ω : Type}

/-- A host cannot tell some worlds apart when it works for a chain, and leaves them so. -/
structure Respects (host : Host ω) (chain : ChainId) (alike : ω → ω → Prop) : Prop where
  store : ∀ {left right}, alike left right → host.store left = host.store right
  write : ∀ {left right} (batch : Batch), alike left right →
    (∃ error, host.write batch left = .error error ∧ host.write batch right = .error error) ∨
      ∃ first second, host.write batch left = .ok first ∧ host.write batch right = .ok second ∧
        alike first second
  answer : ∀ {left right} (unit : DecisionUnit), alike left right →
    (host.deliver chain unit left).1 = (host.deliver chain unit right).1
  deliver : ∀ {left right} (unit : DecisionUnit), alike left right →
    alike (host.deliver chain unit left).2 (host.deliver chain unit right).2
  publish : ∀ {left right} (event : Event), alike left right →
    alike (host.publish event left) (host.publish event right)

namespace Respects

variable {host : Host ω} {chain : ChainId} {alike : ω → ω → Prop} {left right : ω}

theorem publishAll (respects : host.Respects chain alike) (events : List Event)
    (same : alike left right) :
    alike (host.publishAll events left) (host.publishAll events right) := by
  induction events generalizing left right with
  | nil => exact same
  | cons event rest ih => exact ih (respects.publish event same)

theorem deliverAll (respects : host.Respects chain alike) (units : List DecisionUnit)
    (same : alike left right) :
    (host.deliverAll chain units left).1 = (host.deliverAll chain units right).1 ∧
      alike (host.deliverAll chain units left).2 (host.deliverAll chain units right).2 := by
  induction units generalizing left right with
  | nil => exact ⟨rfl, same⟩
  | cons unit rest ih =>
      obtain ⟨later, final⟩ := ih (respects.deliver unit same)
      exact ⟨congrArg₂ NotifyError.merge (respects.answer unit same) later, final⟩

theorem accept {manager : Manager} (respects : host.Respects manager.config.chain alike)
    (unit : UnitId) (same : alike left right) :
    (manager.accept host unit left).1 = (manager.accept host unit right).1 ∧
      (manager.accept host unit left).2.1 = (manager.accept host unit right).2.1 ∧
      alike (manager.accept host unit left).2.2 (manager.accept host unit right).2.2 := by
  unfold Manager.accept
  rw [respects.store same]
  cases manager.ensureRunning with
  | error error => exact ⟨rfl, rfl, same⟩
  | ok done =>
      cases manager.plan (host.store right) unit with
      | error error => exact ⟨rfl, rfl, same⟩
      | ok plan =>
          dsimp only
          rcases respects.write plan.batch same with
            ⟨error, failed, also⟩ | ⟨first, second, written, also, alike⟩
          · rw [failed, also]
            exact ⟨rfl, rfl, respects.publishAll _ same⟩
          · rw [written, also]
            dsimp only
            obtain ⟨answer, final⟩ := respects.deliverAll (plan.accepted.map (·.unit))
              (respects.publishAll (manager.settle plan).2 alike)
            cases told : host.deliverAll manager.config.chain (plan.accepted.map (·.unit))
                (host.publishAll (manager.settle plan).2 first) with
            | mk failed delivered =>
                cases heard : host.deliverAll manager.config.chain (plan.accepted.map (·.unit))
                    (host.publishAll (manager.settle plan).2 second) with
                | mk missed reached =>
                    rw [told, heard] at answer final
                    dsimp only at answer
                    subst answer
                    cases failed with
                    | none => exact ⟨rfl, rfl, final⟩
                    | some failures => exact ⟨rfl, rfl, respects.publishAll _ final⟩

end Respects

end Host

section Calls

variable {ω : Type} {host : LawfulHost ω} {manager : Manager} {alike : ω → ω → Prop}
  {left right : ω}

/-- A call cannot tell worlds apart that the host cannot tell apart. -/
theorem Host.Respects.call (respects : host.Respects manager.config.chain alike) (call : Call)
    (same : alike left right) :
    call.answer host (manager, left) = call.answer host (manager, right) ∧
      ((call.step host).perform (manager, left)).1 =
        ((call.step host).perform (manager, right)).1 ∧
      alike ((call.step host).perform (manager, left)).2
        ((call.step host).perform (manager, right)).2 := by
  have concludes (outcome : Except ManagerError (Manager × List Event)) :
      (Step.conclude host (manager, left) outcome).1 =
        (Step.conclude host (manager, right) outcome).1 ∧
      alike (Step.conclude host (manager, left) outcome).2
        (Step.conclude host (manager, right) outcome).2 := by
    cases outcome with
    | error error => exact ⟨rfl, same⟩
    | ok outcome => exact ⟨rfl, respects.publishAll outcome.2 same⟩
  cases call with
  | accept unit => exact respects.accept unit same
  | verify unit =>
      dsimp only [Call.answer, Call.step, Step.perform]
      rw [respects.store same]
      exact ⟨rfl, concludes _⟩
  | reject unit => exact ⟨rfl, concludes _⟩

theorem Host.Respects.keeps {holds : ω → Prop}
    (respects : host.Respects manager.config.chain fun left right => left = right ∧ holds left)
    (call : Call) (held : holds left) : holds ((call.step host).perform (manager, left)).2 :=
  (respects.call call ⟨rfl, held⟩).2.2.2

theorem Call.config_perform (host : LawfulHost ω) (call : Call) (manager : Manager) (world : ω) :
    ((call.step host).perform (manager, world)).1.config = manager.config := by
  cases call with
  | verify unit =>
      dsimp only [step, Step.perform, Step.conclude]
      split
      · rename_i done
        exact congrArg Prod.fst (Manager.settings_verify done)
      · rfl
  | reject unit =>
      dsimp only [step, Step.perform, Step.conclude]
      split
      · rename_i done
        exact congrArg Prod.fst (Manager.settings_reject done)
      · rfl
  | accept unit =>
      have outcome : Outcome host manager world (.accept unit) _ :=
        outcome_accept manager unit world
      change (manager.accept host.toHost unit world).2.1.config = manager.config
      generalize manager.accept host.toHost unit world = result at outcome
      cases outcome with
      | stopped _ | refused _ _ | unwritten _ _ _ => rfl
      | heard _ _ _ _ => exact (manager.settle_settings _).2
      | unheard _ _ _ _ _ => exact (manager.settle_settings _).2
      | fatal _ _ _ _ _ => exact (manager.settle_settings _).2
      | done _ settings _ => exact congrArg Prod.fst settings

end Calls

end DecisionLedger
