import DecisionLedger.Proofs.Dependence
import DecisionLedger.Proofs.Halting
import DecisionLedger.Proofs.Lifecycle
import DecisionLedger.Proofs.Snapshots
import DecisionLedger.Proofs.Traversal

/-! # What a rejection takes with it

To reject a pending unit takes out the unit and all that depends on it, and nothing else.  Whoever
goes is remembered as rejected, gives up its inputs and is told of once; whoever stays keeps its
place, its inputs and what it sees.
-/

namespace DecisionLedger

namespace Manager

section Remembered

variable {manager : Manager} {id : UnitId}

theorem RecallsById.mem_awaitingRejection_iff (byId : manager.RecallsById) :
    id ∈ manager.awaitingRejection ↔
      ∃ found, manager.rejected[id]? = some found ∧ found.awaiting = true := by
  dsimp only [awaitingRejection]
  simp only [List.mem_map, List.mem_mergeSort, List.mem_filter, Prod.exists, exists_eq_right,
    Std.ExtTreeMap.mem_toList_iff_getElem?_eq_some]
  constructor
  · rintro ⟨found, ⟨⟨own, known⟩, awaiting⟩, rfl⟩
    cases byId known
    exact ⟨found, known, awaiting⟩
  · rintro ⟨found, known, awaiting⟩
    exact ⟨found, ⟨⟨id, known⟩, awaiting⟩, byId known⟩

end Remembered

section Events

def farewell? (manager : Manager) (id : UnitId) : Option Event :=
  manager.pending[id]?.map fun pending =>
    .rejected manager.config.chain id pending.unit.height

variable (root : UnitId) (automatic : Bool)

theorem discardUnits_events (manager : Manager) {units : List UnitId} (once : units.Nodup) :
    (manager.sequence (discardUnit root automatic) units).2 =
      units.filterMap manager.farewell? := by
  induction units generalizing manager with
  | nil => rfl
  | cons id rest ih =>
      obtain ⟨fresh, later⟩ := List.nodup_cons.mp once
      have told : (manager.sequence (discardUnit root automatic) (id :: rest)).2 =
          (discardUnit root automatic manager id).2 ++
            ((discardUnit root automatic manager id).1.sequence
              (discardUnit root automatic) rest).2 := rfl
      have kept : ∀ other ∈ rest, (discardUnit root automatic manager id).1.farewell? other =
          manager.farewell? other := by
        intro other inside
        have config : (discardUnit root automatic manager id).1.config = manager.config :=
          congrArg Prod.fst (settings_discardUnit root automatic manager id)
        have apart : id ≠ other := fun same => fresh (same ▸ inside)
        rw [farewell?, farewell?, pending_discardUnit, if_neg apart, config]
      rw [told, ih _ later, List.filterMap_congr kept, List.filterMap_cons, farewell?]
      unfold discardUnit
      cases manager.pending[id]? <;> rfl

end Events

section Reject

variable {manager : Manager} {accepted : List DecisionUnit} {unit : DecisionUnit}

theorem Linked.reject_eq (linked : manager.Linked accepted) (running : manager.halted = none)
    (holds : manager.Holds unit) (undecided : unit.kind ≠ .proposal) :
    manager.reject unit.id = .ok (manager.discard false unit.id) := by
  have unknown : manager.rejected[unit.id]? = none := by
    apply Std.ExtTreeMap.getElem?_eq_none
    exact fun gone => linked.rejected gone holds.mem
  unfold Manager.reject
  rw [ensureRunning, running, unknown, holds]
  cases execution : unit.execution with
  | proposal branches =>
      exact absurd (DecisionUnit.of_execution_eq_proposal execution).1 undecided
  | effect diff => simp [DecisionUnit.held, execution, bind, Except.bind, pure, Except.pure]
  | option choice => simp [DecisionUnit.held, execution, bind, Except.bind, pure, Except.pure]

theorem Linked.ne_of_holds (linked : manager.Linked accepted) (holds : manager.Holds unit) :
    ∀ other ∈ accepted, other.id ≠ unit.id :=
  fun _ inside same => (linked.settled inside).1 (same ▸ holds.mem)

end Reject

end Manager

/-- What the rejection of a unit takes away, and what it leaves alone. -/
structure Withdraws {ω : Type} (host : LawfulHost ω) (id : UnitId) (before after : Manager × ω) :
    Prop where
  /-- The unit goes with everything that depends on it, and nothing else goes. -/
  pending : ∀ {other : UnitId}, other ∈ after.1.pending ↔
    other ∈ before.1.pending ∧ ¬before.1.Depends {id} other
  kept : ∀ {other : UnitId}, other ∈ after.1.pending →
    after.1.pending[other]? = before.1.pending[other]?
  /-- Whoever goes is remembered, as rejected by the manager alone unless it is the unit. -/
  gone : ∀ {other : UnitId} {pending : PendingUnit}, before.1.Depends {id} other →
    before.1.pending[other]? = some pending →
    after.1.rejected[other]? = some { unit := pending.unit, awaiting := other ≠ id } ∧
      host.lookup after other = .ok (pending.unit, .rejected)
  remembered : ∀ {other : UnitId}, ¬before.1.Depends {id} other →
    after.1.rejected[other]? = before.1.rejected[other]?
  awaiting : ∀ {other : UnitId}, other ∈ after.1.awaitingRejection ↔
    other ∈ before.1.awaitingRejection ∨ before.1.Depends {id} other ∧ other ≠ id
  /-- Claims of those that stay are kept, and all others are given up. -/
  claims : ∀ key : StateKey,
    after.1.consumedBy[key]? = before.1.consumedBy[key]?.filter after.1.isPending
  /-- Those that stay are listed where they were and in the same order. -/
  children : ∀ above : UnitId,
    after.1.childrenOf above = (before.1.childrenOf above).filter after.1.isPending
  sees : ∀ {other : UnitId}, other ∈ after.1.pending → ∀ key,
    host.sees after other key = host.sees before other key
  settings : after.1.settings = before.1.settings
  /-- The world is told once of each unit that goes, and is asked for nothing else. -/
  world : ∃ units : List UnitId, units.Nodup ∧
    (∀ {other : UnitId}, other ∈ units ↔ before.1.Depends {id} other) ∧
    after.2 = host.publishAll (units.filterMap before.1.farewell?) before.2
  ledger : (host.store before.2).SameLedger (host.store after.2)

namespace Manager

variable {ω : Type} {host : LawfulHost ω} {origin : StateUpdates} {manager : Manager} {world : ω}
  {accepted : List DecisionUnit} {unit : DecisionUnit}

/-- The rejections that are told of are those of the units that go, each told once. -/
theorem Linked.discard_events (linked : manager.Linked accepted) (automatic : Bool)
    (holds : manager.Holds unit) :
    ∃ units : List UnitId, units.Nodup ∧
      (∀ {other : UnitId}, other ∈ units ↔ manager.Depends {unit.id} other) ∧
      (manager.discard automatic unit.id).2 = units.filterMap manager.farewell? := by
  have once : (manager.branch unit.id).Nodup := Links.nodup_reach
  refine ⟨(manager.branch unit.id).filter manager.isPending, once.filter _, fun {other} => ?_, ?_⟩
  · rw [List.mem_filter, isPending, Std.ExtTreeMap.contains_iff_mem]
    constructor
    · rintro ⟨inside, present⟩
      exact (linked.mem_branch_iff_depends (linked.ne_of_holds holds) present).mp inside
    · intro depends
      have present := depends.mem
      exact ⟨(linked.mem_branch_iff_depends (linked.ne_of_holds holds) present).mpr depends,
        present⟩
  · -- nothing is said of whatever else the walk comes to
    rw [Manager.discard, discardUnits_events unit.id automatic manager once, List.filterMap_filter]
    refine List.filterMap_congr fun id _ => ?_
    cases found : manager.pending[id]? with
    | none => simp [farewell?, found]
    | some pending => simp [isPending, mem_pending_of_getElem? found]

theorem Sound.withdraws_discard (sound : manager.Sound origin (host.store world) accepted)
    (byId : manager.RecallsById) (claimed : manager.Claimed) (holds : manager.Holds unit)
    (rejects : manager.reject unit.id = .ok (manager.discard false unit.id)) :
    Withdraws host unit.id (manager, world)
      ((manager.discard false unit.id).1,
        host.publishAll (manager.discard false unit.id).2 world) := by
  have linked := sound.rooted.toLinked
  have prunes := linked.prunes_discard false (linked.ne_of_holds holds)
  have ledger := host.sameLedger_publishAll (manager.discard false unit.id).2 world
  have continues := (sound.continues_reject rejects).of_sameLedger ledger
  have turn : manager.Turn (host.store world) (manager.discard false unit.id).1 [] :=
    .discard unit.id
  have later : (manager.discard false unit.id).1.RecallsById := turn.recallsById sound byId
  have gone {other : UnitId} {pending : PendingUnit} (depends : manager.Depends {unit.id} other)
      (found : manager.pending[other]? = some pending) :=
    linked.rejected_of_depends false (linked.ne_of_holds holds) depends found
  have remembered {other : UnitId} (stays : ¬manager.Depends {unit.id} other) :=
    linked.rejected_of_stays false (linked.ne_of_holds holds) stays
  refine { pending := prunes.mem_iff, kept := ?_, gone := ?_, remembered, awaiting := ?_,
           claims := prunes.consumedBy claimed (claimed.discard false unit.id),
           children := prunes.children, sees := ?_,
           settings := settings_discard false manager unit.id, world := ?_, ledger }
  · exact fun present => prunes.kept (prunes.mem_iff.mp present).2
  · intro other pending depends found
    have recalled := gone depends found
    have same : pending.unit.id = other := later recalled
    refine ⟨recalled, (continues.sound.lookup_eq_ok_iff later).mpr ⟨same, ?_⟩⟩
    exact ⟨_, same ▸ recalled, rfl⟩
  · intro other
    rw [later.mem_awaitingRejection_iff, byId.mem_awaitingRejection_iff]
    by_cases depends : manager.Depends {unit.id} other
    · obtain ⟨own, held, rfl⟩ := linked.mem_pending_iff.mp depends.mem
      have before : manager.rejected[own.id]? = none :=
        Std.ExtTreeMap.getElem?_eq_none fun gone => linked.rejected gone held.mem
      rw [gone depends held, before]
      simp [depends]
    · rw [remembered depends]
      simp [depends]
  · intro other present key
    obtain ⟨own, held, rfl⟩ := continues.sound.rooted.mem_pending_iff.mp present
    exact sound.read_continues continues (continues.stays (prunes.mem_iff.mp present).1 held) held
      key
  · obtain ⟨units, once, all, events⟩ := linked.discard_events false holds
    exact ⟨units, once, all, by rw [events]⟩

end Manager

theorem Tenure.claimed_run {ω : Type} {host : LawfulHost ω} {config : Configuration}
    {origin : StateUpdates} (tenure : Tenure host config origin) (steps : List (Step host)) :
    (tenure.run steps).1.Claimed := by
  obtain ⟨-, -, claimed⟩ := run_induction (fun manager _ => manager.Claimed)
    (fun _ => Manager.claimed_initial config _)
    (fun sound _ turn claimed => claimed.turn sound turn)
    tenure steps
  exact claimed

/-- After any calls, a manager that runs takes a pending unit that is no proposal out with all that
depends on it, and nothing else; the walk that finds all this ends whatever the lists are. -/
theorem Tenure.withdraws_run {ω : Type} {host : LawfulHost ω} {config : Configuration}
    {origin : StateUpdates} (tenure : Tenure host config origin) (steps : List (Step host))
    {id : UnitId} {unit : DecisionUnit} (running : (tenure.run steps).1.halted = none)
    (present : (tenure.run steps).1.pending[id]?.map (·.unit) = some unit)
    (undecided : unit.kind ≠ .proposal) :
    (Call.reject id).answer host (tenure.run steps) = .ok () ∧
      Withdraws host id (tenure.run steps)
        (((Call.reject id).step host).perform (tenure.run steps)) ∧
      ∀ (manager : Manager) (root : UnitId),
        Links.Traverses manager.children manager.referencedBy root (manager.branch root) := by
  obtain ⟨accepted, sound, byId, -⟩ := tenure.recalls_run steps
  have claimed := tenure.claimed_run steps
  generalize tenure.run steps = situation at *
  obtain ⟨pending, found, rfl⟩ := Option.map_eq_some_iff.mp present
  obtain ⟨unit, holds, rfl, rfl⟩ := sound.rooted.exists_of_getElem? found
  have rejects := sound.rooted.reject_eq running holds undecided
  refine ⟨?_, ?_, fun manager root => Links.traverses_reach _ _ _⟩
  · dsimp only [Call.answer]
    rw [rejects]
    rfl
  · dsimp only [Call.step, Step.perform]
    rw [rejects]
    exact sound.withdraws_discard byId claimed holds rejects

namespace Crossing

/-- A chain with two units on genesis, and a vertex that extends one and refers to the other. -/
def begun : Tenure LawfulHost.bare { chain := 1 } ∅ :=
  (Start.ofFounded (Store.empty.apply (Batch.found ∅)) _ Forgetful.sameLedger_founded).tenure

def left : DecisionUnit :=
  .ofFields { parent := DecisionUnit.genesis.id, height := 1, timestamp := none,
              body := .standard [Forgetful.output 0xa1 1] } (by decide)

def right : DecisionUnit :=
  .ofFields { parent := DecisionUnit.genesis.id, height := 1, timestamp := none,
              body := .standard [Forgetful.output 0xb2 2] } (by decide)

def vertex : DecisionUnit :=
  .ofFields { parent := left.id, height := 2, timestamp := none,
              body := .vertex [right.id] [Forgetful.output 0xc3 3] } (by decide)

def verified : List (Step LawfulHost.bare) :=
  [.verify left, .verify right, .verify vertex]

set_option maxRecDepth 100000 in
theorem verified_eq :
    (begun.run verified).1.halted = none ∧
    (begun.run verified).1.pending[left.id]?.map (·.unit) = some left ∧
    (begun.run verified).1.pending[right.id]?.map (·.unit) = some right ∧
    (begun.run verified).1.pending[vertex.id]?.map (·.unit) = some vertex ∧
    right.kind ≠ .proposal := by
  decide +kernel

/-- With a unit goes the vertex that refers to it, though it extends another. -/
theorem right_withdrawn :
    (Call.reject right.id).answer LawfulHost.bare (begun.run verified) = .ok () ∧
      (begun.run verified).1.Depends {right.id} vertex.id ∧
      vertex.id ∉ (((Call.reject right.id).step LawfulHost.bare).perform
        (begun.run verified)).1.pending := by
  obtain ⟨running, -, target, present, undecided⟩ := verified_eq
  obtain ⟨answered, withdraws, -⟩ := begun.withdraws_run verified running target undecided
  obtain ⟨pending, found, same⟩ := Option.map_eq_some_iff.mp present
  have depends : (begun.run verified).1.Depends {right.id} vertex.id := by
    have edges : vertex.body.edges = [right.id] := rfl
    obtain ⟨other, known, -⟩ := Option.map_eq_some_iff.mp target
    have root := Manager.Depends.root (Set.mem_singleton right.id)
      (Manager.mem_pending_of_getElem? known)
    refine .vertex found ?_ root
    rw [same, edges]
    exact List.mem_singleton_self _
  exact ⟨answered, depends, fun stays => (withdraws.pending.mp stays).2 depends⟩

end Crossing

end DecisionLedger
