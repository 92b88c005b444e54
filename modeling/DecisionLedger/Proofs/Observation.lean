import DecisionLedger.Proofs.Tenure

/-! # Observed runs

A host can be watched: it does to its world what it always does, and notes beside it what it is
asked.  A manager cannot tell, so the notes say what it asks of any host.
-/

namespace DecisionLedger

/-- A host that keeps notes beside the world of another host, and does the same to that world. -/
structure Observer {ω : Type} (host : LawfulHost ω) (τ : Type) where
  watched : Host (ω × τ)
  store_eq : ∀ world, watched.store world = host.store world.1
  write_eq : ∀ batch world, (watched.write batch world).map Prod.fst = host.write batch world.1
  deliver_eq : ∀ chain unit world,
    Prod.map id Prod.fst (watched.deliver chain unit world) = host.deliver chain unit world.1
  publish_eq : ∀ event world, (watched.publish event world).1 = host.publish event world.1

namespace Observer

variable {ω τ : Type} {host : LawfulHost ω} (observer : Observer host τ)

/-- An observer that notes nothing but deliveries. -/
structure NotesDeliveries : Prop where
  write : ∀ {batch world after}, observer.watched.write batch world = .ok after →
    after.2 = world.2
  publish : ∀ event world, (observer.watched.publish event world).2 = world.2

theorem fst_deliver (chain : ChainId) (unit : DecisionUnit) (world : ω × τ) :
    (observer.watched.deliver chain unit world).2.1 = (host.deliver chain unit world.1).2 :=
  congrArg Prod.snd (observer.deliver_eq chain unit world)

theorem write_cases (batch : Batch) (world : ω × τ) :
    (∃ problem, observer.watched.write batch world = .error problem ∧
        host.write batch world.1 = .error problem) ∨
      ∃ after, observer.watched.write batch world = .ok after ∧
        host.write batch world.1 = .ok after.1 := by
  have same := observer.write_eq batch world
  cases written : observer.watched.write batch world with
  | error problem =>
      rw [written] at same
      exact .inl ⟨problem, rfl, same.symm⟩
  | ok after =>
      rw [written] at same
      exact .inr ⟨after, rfl, same.symm⟩

def lawful : LawfulHost (ω × τ) where
  toHost := observer.watched
  written := by
    intro batch world after done
    rcases observer.write_cases batch world with ⟨problem, failed, -⟩ | ⟨other, written, same⟩
    · rw [done] at failed
      cases failed
    · rw [done] at written
      cases written
      rw [observer.store_eq, observer.store_eq]
      exact host.written same
  delivered chain unit world := by
    rw [observer.store_eq, observer.store_eq, observer.fst_deliver]
    exact host.delivered chain unit world.1
  published event world := by
    rw [observer.store_eq, observer.store_eq, observer.publish_eq]
    exact host.published event world.1

/-- The same step under observation; no note is made of what happens by itself. -/
def lift : Step host → Step observer.lawful
  | .verify unit => .verify unit
  | .accept unit => .accept unit
  | .reject unit => .reject unit
  | .drift change kept =>
    .drift (fun world => (change world.1, world.2)) fun world => by
      have same := kept world.1
      rw [← observer.store_eq world, ← observer.store_eq (change world.1, world.2)] at same
      exact same

def bare (situation : Manager × ω × τ) : Manager × ω :=
  (situation.1, situation.2.1)

theorem fst_publishAll (events : List Event) (world : ω × τ) :
    (observer.watched.publishAll events world).1 = host.publishAll events world.1 := by
  induction events generalizing world with
  | nil => rfl
  | cons event rest ih =>
      change (observer.watched.publishAll rest (observer.watched.publish event world)).1 =
        host.publishAll rest (host.publish event world.1)
      rw [ih, observer.publish_eq]

theorem deliverAll_eq (chain : ChainId) (units : List DecisionUnit) (world : ω × τ) :
    Prod.map id Prod.fst (observer.watched.deliverAll chain units world) =
      host.deliverAll chain units world.1 := by
  induction units generalizing world with
  | nil => rfl
  | cons unit rest ih =>
      rw [Host.deliverAll, Host.deliverAll, ← observer.deliver_eq]
      dsimp only [Prod.map]
      rw [← ih]
      rfl

/-- To watch an acceptance changes nothing about it. -/
theorem accept_eq (manager : Manager) (unit : UnitId) (world : ω × τ) :
    Prod.map id bare (manager.accept observer.watched unit world) =
      manager.accept host.toHost unit world.1 := by
  unfold Manager.accept
  rw [observer.store_eq]
  cases manager.ensureRunning with
  | error error => rfl
  | ok done =>
      cases manager.plan (host.store world.1) unit with
      | error error => rfl
      | ok plan =>
          dsimp only
          rcases observer.write_cases plan.batch world with
            ⟨problem, failed, same⟩ | ⟨after, written, same⟩
          · rw [failed, same]
            dsimp only [Prod.map, bare, id]
            rw [observer.fst_publishAll]
          · rw [written, same]
            dsimp only
            rw [← observer.fst_publishAll, ← observer.deliverAll_eq]
            cases observer.watched.deliverAll manager.config.chain (plan.accepted.map (·.unit))
                (observer.watched.publishAll (manager.settle plan).2 after) with
            | mk failed delivered =>
                cases failed with
                | none => rfl
                | some failures =>
                    dsimp only [Prod.map, bare, id]
                    rw [observer.fst_publishAll]

theorem bare_conclude (situation : Manager × ω × τ)
    (outcome : Except ManagerError (Manager × List Event)) :
    bare (Step.conclude observer.lawful situation outcome) =
      Step.conclude host (bare situation) outcome := by
  cases outcome with
  | error error => rfl
  | ok outcome =>
      exact Prod.ext rfl (observer.fst_publishAll outcome.2 situation.2)

theorem bare_perform (step : Step host) (situation : Manager × ω × τ) :
    bare ((observer.lift step).perform situation) = step.perform (bare situation) := by
  have store_eq : observer.lawful.store situation.2 = host.store situation.2.1 :=
    observer.store_eq situation.2
  cases step with
  | verify unit =>
      dsimp only [lift, Step.perform]
      rw [observer.bare_conclude, store_eq]
      rfl
  | accept unit =>
      exact congrArg Prod.snd (observer.accept_eq situation.1 unit situation.2)
  | reject unit => exact observer.bare_conclude situation _
  | drift change kept => rfl

theorem bare_run (steps : List (Step host)) (situation : Manager × ω × τ) :
    bare (Step.run (steps.map observer.lift) situation) = Step.run steps (bare situation) := by
  induction steps generalizing situation with
  | nil => rfl
  | cons step rest ih =>
      change bare (Step.run (rest.map observer.lift) ((observer.lift step).perform situation)) =
        Step.run rest (step.perform (bare situation))
      rw [ih, observer.bare_perform]

variable {config : Configuration} {origin : StateUpdates}

def run (tenure : Tenure host config origin) (notes : τ) (steps : List (Step host)) :
    Manager × ω × τ :=
  Step.run (steps.map observer.lift) (tenure.manager, tenure.world, notes)

theorem bare_runTenure (tenure : Tenure host config origin) (notes : τ)
    (steps : List (Step host)) : bare (observer.run tenure notes steps) = tenure.run steps :=
  observer.bare_run steps _

theorem sound_run (tenure : Tenure host config origin) (notes : τ) (steps : List (Step host)) :
    ∃ accepted, (observer.run tenure notes steps).1.Sound origin
      (host.store (observer.run tenure notes steps).2.1) accepted := by
  have sound := tenure.sound_run steps
  rwa [← observer.bare_runTenure tenure notes] at sound

theorem run_concat (tenure : Tenure host config origin) (notes : τ) (steps : List (Step host))
    (step : Step host) : observer.run tenure notes (steps ++ [step]) =
      (observer.lift step).perform (observer.run tenure notes steps) := by
  rw [run, List.map_append, List.map_singleton, Step.run_concat, ← run]

end Observer

/-- Something that a manager asked of its host, and that was done. -/
inductive Request where
  | wrote (batch : Batch)
  | delivered (chain : ChainId) (unit : DecisionUnit)
  | published (event : Event)

/-- Note every request, the oldest first. -/
def LawfulHost.journal {ω : Type} (host : LawfulHost ω) : Observer host (List Request) where
  watched := {
    store := fun world => host.store world.1
    write := fun batch world =>
      match host.write batch world.1 with
      | .ok after => .ok (after, world.2 ++ [.wrote batch])
      | .error problem => .error problem
    deliver := fun chain unit world =>
      let (failed, after) := host.deliver chain unit world.1
      (failed, after, world.2 ++ [.delivered chain unit])
    publish := fun event world => (host.publish event world.1, world.2 ++ [.published event]) }
  store_eq _ := rfl
  write_eq batch world := by
    cases done : host.write batch world.1 with
    | error problem => simp [done, Except.map]
    | ok after => simp [done, Except.map]
  deliver_eq _ _ _ := rfl
  publish_eq _ _ := rfl

namespace LawfulHost

variable {ω : Type} {host : LawfulHost ω}

theorem journal_publishAll (events : List Event) (world : ω × List Request) :
    (host.journal.watched.publishAll events world).2 = world.2 ++ events.map .published := by
  induction events generalizing world with
  | nil => simp [Host.publishAll]
  | cons event rest ih =>
      have later := ih (host.journal.watched.publish event world)
      rw [List.map_cons, List.append_cons]
      exact later

variable (host) in
theorem journal_deliverAll (chain : ChainId) (units : List DecisionUnit)
    (world : ω × List Request) :
    (host.journal.watched.deliverAll chain units world).2.2 =
      world.2 ++ units.map (.delivered chain) := by
  induction units generalizing world with
  | nil => simp [Host.deliverAll]
  | cons unit rest ih =>
      have later := ih (host.journal.watched.deliver chain unit world).2
      rw [List.map_cons, List.append_cons]
      exact later

theorem journal_write {batch : Batch} {world after : ω × List Request}
    (done : host.journal.watched.write batch world = .ok after) :
    after.2 = world.2 ++ [.wrote batch] := by
  dsimp only [journal] at done
  split at done <;> cases done
  rfl

end LawfulHost

end DecisionLedger
