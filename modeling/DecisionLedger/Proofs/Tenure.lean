import DecisionLedger.Proofs.Turns

/-! # Tenures

A manager need not be the first one of its chain.  It may take over a store that others left: after
any of their calls, or in the middle of an acceptance, when the write was done and nothing else.
Either way the store keeps a whole ledger, and the new manager starts in step with it.
-/

namespace DecisionLedger

/-- A store keeps a decided chronicle and the state that its replay gives. -/
structure Store.Keeps (origin : StateUpdates) (store : Store) (accepted : List DecisionUnit) :
    Prop where
  chronicle : Chronicle accepted
  records : store.Records accepted
  undecided : ∀ {tip}, accepted.getLast? = some tip → tip.kind ≠ .proposal
  state : ∃ state, replay origin accepted = some state ∧ ∀ key, store.state? key = state[key]?

section Keeps

variable {origin : StateUpdates} {manager : Manager} {store other : Store}
  {accepted : List DecisionUnit}

theorem Manager.Sound.keeps (sound : manager.Sound origin store accepted) :
    store.Keeps origin accepted where
  chronicle := sound.chronicle
  records := sound.records
  undecided := by
    intro tip last
    rw [sound.rooted.last] at last
    cases last
    exact sound.undecided
  state := sound.state

theorem Store.Keeps.of_sameLedger (keeps : store.Keeps origin accepted)
    (same : store.SameLedger other) : other.Keeps origin accepted where
  chronicle := keeps.chronicle
  records := keeps.records.of_sameLedger same
  undecided := keeps.undecided
  state := by
    obtain ⟨state, replayed, reads⟩ := keeps.state
    exact ⟨state, replayed, fun key => (same.state?_eq key).trans (reads key)⟩

theorem Store.Keeps.sound_initial (keeps : store.Keeps origin accepted) {tip : DecisionUnit}
    (last : accepted.getLast? = some tip) (config : Configuration) :
    (Manager.initial config tip).Sound origin store accepted where
  rooted := Manager.rooted_initial last
  chronicle := keeps.chronicle
  records := keeps.records
  undecided := keeps.undecided last
  state := keeps.state
  executable holds := absurd holds (Manager.not_holds_initial _)

/-- Whoever resumes on a store that keeps a ledger starts afresh on its last unit. -/
theorem Store.Keeps.resumed (keeps : store.Keeps origin accepted) {config : Configuration}
    (resumed : Manager.resume config store = .ok manager) :
    ∃ tip, manager = .initial config tip ∧ manager.Sound origin store accepted := by
  obtain ⟨tip, last, -⟩ := keeps.records.lastAccepted
  rw [Manager.resume_eq keeps.records keeps.chronicle last] at resumed
  cases resumed
  exact ⟨tip, rfl, keeps.sound_initial last config⟩

end Keeps

section Tenure

variable {ω : Type} {host : LawfulHost ω} {config : Configuration} {origin : StateUpdates}

/-- A world whose store was founded and then left to managers alone, one after another. -/
inductive Served (host : LawfulHost ω) (origin : StateUpdates) : ω → Prop where
  | founded {world : ω} :
      (Store.empty.apply (Batch.found origin)).SameLedger (host.store world) →
      Served host origin world
  /-- A manager took any number of steps and then stopped. -/
  | left {config : Configuration} {manager : Manager} {world : ω} (steps : List (Step host)) :
      Served host origin world → Manager.resume config (host.store world) = .ok manager →
      Served host origin (Step.run steps (manager, world)).2
  /-- A manager was cut off right after the write of an acceptance. -/
  | cut {config : Configuration} {manager : Manager} {world after : ω} {unit : UnitId}
      {plan : AcceptPlan} (steps : List (Step host)) :
      Served host origin world → Manager.resume config (host.store world) = .ok manager →
      (Step.run steps (manager, world)).1.plan (host.store (Step.run steps (manager, world)).2)
        unit = .ok plan →
      host.write plan.batch (Step.run steps (manager, world)).2 = .ok after →
      Served host origin after

theorem Step.sound_run {manager : Manager} {world : ω} {accepted : List DecisionUnit}
    (steps : List (Step host)) (sound : manager.Sound origin (host.store world) accepted) :
    ∃ further, (Step.run steps (manager, world)).1.Sound origin
      (host.store (Step.run steps (manager, world)).2) (accepted ++ further) := by
  obtain ⟨further, later, -⟩ := Step.run_induction (fun _ _ => True) (fun _ _ _ _ => trivial) steps
    (manager, world) sound trivial
  exact ⟨further, later⟩

/-- Whatever managers did to it, a store keeps a whole ledger. -/
theorem Served.keeps {world : ω} (served : Served host origin world) :
    ∃ accepted, (host.store world).Keeps origin accepted := by
  induction served with
  | founded founded =>
      exact ⟨_, (Manager.sound_found { chain := 0 } origin founded).keeps⟩
  | left steps _ resumed ih =>
      obtain ⟨accepted, keeps⟩ := ih
      obtain ⟨tip, -, sound⟩ := keeps.resumed resumed
      obtain ⟨further, later⟩ := Step.sound_run steps sound
      exact ⟨_, later.keeps⟩
  | cut steps _ resumed planned written ih =>
      obtain ⟨accepted, keeps⟩ := ih
      obtain ⟨tip, -, sound⟩ := keeps.resumed resumed
      obtain ⟨further, later⟩ := Step.sound_run steps sound
      obtain ⟨unit, -, plans⟩ := later.rooted.plan_cases later.records.toLists planned
      exact ⟨_, ((later.settle plans).of_sameLedger (host.written written)).keeps⟩

/-- A manager that resumes on what others left. -/
structure Tenure {ω : Type} (host : LawfulHost ω) (config : Configuration)
    (origin : StateUpdates) where
  world : ω
  served : Served host origin world
  manager : Manager
  resumed : Manager.resume config (host.store world) = .ok manager

namespace Tenure

def run (tenure : Tenure host config origin) (steps : List (Step host)) : Manager × ω :=
  Step.run steps (tenure.manager, tenure.world)

/-- A manager can take over any store that was served. -/
theorem exists_of_served {world : ω} (served : Served host origin world)
    (config : Configuration) :
    ∃ tenure : Tenure host config origin, tenure.world = world := by
  obtain ⟨accepted, keeps⟩ := served.keeps
  obtain ⟨tip, last, -⟩ := keeps.records.lastAccepted
  exact ⟨⟨world, served, _, Manager.resume_eq keeps.records keeps.chronicle last⟩, rfl⟩

theorem begins (tenure : Tenure host config origin) :
    ∃ accepted tip, tenure.manager = .initial config tip ∧
      tenure.manager.Sound origin (host.store tenure.world) accepted := by
  obtain ⟨accepted, keeps⟩ := tenure.served.keeps
  exact ⟨accepted, keeps.resumed tenure.resumed⟩

/-- What holds of every manager that starts afresh, and is kept by every turn, holds after any
steps. -/
theorem run_induction (holds : Manager → List DecisionUnit → Prop)
    (fresh : ∀ {tip accepted}, accepted.getLast? = some tip →
      holds (.initial config tip) accepted)
    (kept : ∀ {manager after : Manager} {store other : Store}
      {accepted further : List DecisionUnit}, manager.Sound origin store accepted →
      after.Sound origin other (accepted ++ further) → manager.Turn store after further →
      holds manager accepted → holds after (accepted ++ further))
    (tenure : Tenure host config origin) (steps : List (Step host)) :
    ∃ accepted, (tenure.run steps).1.Sound origin (host.store (tenure.run steps).2) accepted ∧
      holds (tenure.run steps).1 accepted := by
  obtain ⟨accepted, tip, same, sound⟩ := tenure.begins
  have last : accepted.getLast? = some tip := by
    rw [sound.rooted.last, same]
    rfl
  have start : holds tenure.manager accepted := same ▸ fresh last
  obtain ⟨further, later, held⟩ :=
    Step.run_induction holds kept steps (tenure.manager, tenure.world) sound start
  exact ⟨_, later, held⟩

theorem sound_run (tenure : Tenure host config origin) (steps : List (Step host)) :
    ∃ accepted, (tenure.run steps).1.Sound origin (host.store (tenure.run steps).2) accepted := by
  obtain ⟨accepted, sound, -⟩ :=
    run_induction (fun _ _ => True) (fun _ => trivial) (fun _ _ _ _ => trivial) tenure steps
  exact ⟨accepted, sound⟩

end Tenure

/-- A manager on a store just founded is in its tenure. -/
def Start.tenure (start : Start host config origin) : Tenure host config origin where
  world := start.world
  served := .founded start.founded
  manager := start.manager
  resumed := start.resumed

end Tenure

end DecisionLedger
