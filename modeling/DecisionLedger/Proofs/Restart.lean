import DecisionLedger.Proofs.Claims
import DecisionLedger.Proofs.Halting
import DecisionLedger.Proofs.Likeness
import DecisionLedger.Proofs.Lifecycle

/-! # Starting anew

Whatever has become of a manager, another one can be started on its store.  It finds everything that
was accepted, and nothing else: no unit is pending, no input is claimed, no rejection is remembered.
It verifies what the old manager would verify once rid of its pending units and its halt.
-/

namespace DecisionLedger

namespace Links

/-- Links without some units, and without what is listed under them. -/
def without (links : Links) (gone : UnitId → Bool) : Links :=
  (links.filter fun unit _ => !gone unit).map fun _ listed => listed.filter (!gone ·)

theorem mem_of_without {links : Links} {gone : UnitId → Bool} {unit other : UnitId} :
    other ∈ (links.without gone).of unit ↔
      gone unit = false ∧ gone other = false ∧ other ∈ links.of unit := by
  cases found : links[unit]? <;> cases left : gone unit <;>
    simp [of, without, Option.filter, Std.ExtTreeMap.getD_eq_getD_getElem?, found, left, and_comm]

end Links

namespace Manager

/-- A manager rid of its halt and of its pending units, with all that is listed or claimed for one
of them. -/
def withoutPending (manager : Manager) : Manager :=
  { manager with
    pending := ∅
    children := manager.children.without manager.isPending
    referencedBy := manager.referencedBy.without manager.isPending
    consumedBy := manager.consumedBy.filter fun _ holder => !manager.isPending holder
    halted := none }

section Verify

variable {manager left right : Manager} {store : Store} {accepted : List DecisionUnit}
  {parent unit : DecisionUnit}

theorem verify_succeeds_iff (running : manager.halted = none) :
    (∃ result, manager.verify store unit = .ok result) ↔
      unit.id ∈ manager.pending ∨ manager.isAccepted store unit.id = true ∨
        unit.id ∉ manager.rejected ∧ ∃ parent, manager.Admits store parent unit := by
  have examined : (∃ candidate, manager.examine store unit = .ok candidate) ↔
      ∃ parent, manager.Admits store parent unit := by
    simp [examine_eq_ok_iff]
  rw [← examined]
  unfold Manager.verify ensureRunning isPending
  rw [running]
  simp only [bind, Except.bind]
  by_cases present : unit.id ∈ manager.pending
  · simp [present, pure, Except.pure]
  by_cases settled : manager.isAccepted store unit.id = true
  · simp [settled, pure, Except.pure]
  by_cases gone : unit.id ∈ manager.rejected
  · simp [present, settled, gone, throw, throwThe, MonadExceptOf.throw]
  cases manager.examine store unit <;> simp [present, settled, gone, pure, Except.pure]

/-- Whether a unit is admitted depends on what is pending, claimed and accepted, and on nothing
else. -/
theorem Admits.congr (admits : left.Admits store parent unit)
    (size : right.config.maxUnitSize = left.config.maxUnitSize)
    (pending : right.pending = left.pending) (claims : right.consumedBy = left.consumedBy)
    (last : right.lastAccepted = left.lastAccepted)
    (vacant : ∀ choice, left.optionOf? parent.id choice = none →
      right.optionOf? parent.id choice = none)
    (heights : ∀ edge, right.knownHeight? store edge = left.knownHeight? store edge) :
    right.Admits store parent unit where
  wellFormed := size ▸ admits.wellFormed
  found := by
    rcases resolveParent_eq_ok admits.found with ⟨held, found, same⟩ | ⟨absent, tip, same⟩
    · simp [resolveParent, pending, found, same]
    · simp [resolveParent, pending, last, Std.ExtTreeMap.getElem?_eq_none absent, ← tip, same]
  height := admits.height
  time := admits.time
  option := admits.option
  vacant chosen := vacant _ (admits.vacant chosen)
  edges := by
    intro edge edged
    rw [heights]
    exact admits.edges edge edged
  executed := by
    have versions : right.versions store = left.versions store := by
      simp [versions, layer?, pending, last]
    rw [versions]
    exact admits.executed
  unclaimed := by
    rw [claimed?, claims]
    exact admits.unclaimed

end Verify

section Vacant

variable {origin : StateUpdates} {manager : Manager} {store : Store} {accepted : List DecisionUnit}
  {unit tip : DecisionUnit} {config : Configuration}

theorem Holds.isPending (holds : manager.Holds unit) : manager.isPending unit.id = true :=
  Std.ExtTreeMap.contains_iff_mem.mpr holds.mem

theorem not_holds_withoutPending (unit : DecisionUnit) : ¬manager.withoutPending.Holds unit := by
  intro holds
  exact absurd holds.mem Std.ExtTreeMap.not_mem_empty

theorem Rooted.withoutPending (rooted : manager.Rooted accepted) :
    manager.withoutPending.Rooted accepted where
  keyed := by
    intro id pending found
    simp [Manager.withoutPending] at found
  parent holds := absurd holds (not_holds_withoutPending _)
  edges holds := absurd holds (not_holds_withoutPending _)
  children := by
    intro above child listed
    obtain ⟨-, left, inside⟩ := Links.mem_of_without.mp listed
    obtain ⟨unit, holds, rfl, -⟩ := rooted.children inside
    exact absurd holds.isPending (by simp [left])
  listed holds := absurd holds (not_holds_withoutPending _)
  references := by
    intro edge vertex listed
    obtain ⟨left, -, inside⟩ := Links.mem_of_without.mp listed
    obtain ⟨target, holds, rfl, -⟩ := rooted.references inside
    exact absurd holds.isPending (by simp [left])
  referenced holds := absurd holds (not_holds_withoutPending _)
  options holds := absurd holds (not_holds_withoutPending _)
  settled inside := ⟨Std.ExtTreeMap.not_mem_empty, (rooted.settled inside).2⟩
  rejected _ := Std.ExtTreeMap.not_mem_empty
  last := rooted.last
  rooted holds := absurd holds (not_holds_withoutPending _)
  recent := rooted.recent

theorem Claimed.consumedBy_withoutPending (claimed : manager.Claimed) :
    manager.withoutPending.consumedBy = ∅ := by
  apply Std.ExtTreeMap.ext_getElem?
  intro key
  cases holder : manager.consumedBy[key]? with
  | none => simp [Manager.withoutPending, holder]
  | some id =>
      obtain ⟨pending, found, -⟩ := claimed.claimed.mp holder
      have present : id ∈ manager.pending := by
        simp [Std.ExtTreeMap.mem_iff_isSome_getElem?, found]
      simp [Manager.withoutPending, Option.filter, holder, isPending, present]

theorem optionOf?_of_vacant (vacant : manager.pending = ∅) (proposal : UnitId) (choice : Choice) :
    manager.optionOf? proposal choice = none := by
  simp [optionOf?, vacant]

/-- Managers with nothing pending admit the same units if they stand on the same unit and have
the same ledger. -/
theorem Rooted.admits_iff_of_vacant {left right : Manager} (first : left.Rooted accepted)
    (second : right.Rooted accepted) (chronicle : Chronicle accepted) (lists : store.Lists accepted)
    (size : right.config.maxUnitSize = left.config.maxUnitSize)
    (empty : left.pending = ∅) (vacant : right.pending = ∅) (free : left.consumedBy = ∅)
    (unclaimed : right.consumedBy = ∅) {parent : DecisionUnit} :
    left.Admits store parent unit ↔ right.Admits store parent unit := by
  have last : right.lastAccepted = left.lastAccepted :=
    Option.some.inj (second.last.symm.trans first.last)
  have heights (edge : UnitId) : right.knownHeight? store edge = left.knownHeight? store edge := by
    rw [first.knownHeight?_eq chronicle lists, second.knownHeight?_eq chronicle lists, empty,
      vacant]
  constructor <;> intro admits
  · exact admits.congr size (vacant.trans empty.symm) (unclaimed.trans free.symm) last
      (fun choice _ => optionOf?_of_vacant vacant _ choice) heights
  · exact admits.congr size.symm (empty.trans vacant.symm) (free.trans unclaimed.symm) last.symm
      (fun choice _ => optionOf?_of_vacant empty _ choice) fun edge => (heights edge).symm

end Vacant

end Manager

section Restart

variable {ω : Type} {host : LawfulHost ω} {config : Configuration} {origin : StateUpdates}

/-- Start another manager on the store that a manager has, whatever became of that one. -/
def LawfulHost.restart (host : LawfulHost ω) (config : Configuration) (situation : Manager × ω) :
    Except ManagerError (Manager × ω) :=
  (Manager.resume config (host.store situation.2)).map (·, situation.2)

/-- What a manager started anew has in common with the one before it, and what it lacks. -/
structure Renewed (host : LawfulHost ω) (situation next : Manager × ω) : Prop where
  running : next.1.halted = none
  lastAccepted : next.1.lastAccepted = situation.1.lastAccepted
  state : ∀ key, (host.store next.2).state? key = (host.store situation.2).state? key
  shared : ∀ chain key,
    (host.store next.2).shared? chain key = (host.store situation.2).shared? chain key
  /-- What a child of the last accepted unit would read. -/
  reads : ∀ key,
    next.1.read (host.store next.2) next.1.lastAccepted.id key =
      situation.1.read (host.store situation.2) situation.1.lastAccepted.id key
  heights : ∀ height, next.1.unitAtHeight? (host.store next.2) height =
    situation.1.unitAtHeight? (host.store situation.2) height
  found : ∀ id unit, host.lookup next id = .ok (unit, .accepted) ↔
    host.lookup situation id = .ok (unit, .accepted)
  /-- Nothing but what was accepted is found. -/
  missing : ∀ id, (∀ unit, host.lookup situation id ≠ .ok (unit, .accepted)) →
    host.lookup next id = .error (.notFound id)
  vacant : next.1.pending = ∅
  childless : ∀ unit, next.1.childrenOf unit = []
  unreferenced : next.1.referencedBy = ∅
  unclaimed : next.1.consumedBy = ∅
  forgot : next.1.rejected = ∅
  /-- Rejections apart, the new manager verifies what the old one would verify without its halt and
  its pending units. -/
  verifies : next.1.config.maxUnitSize = situation.1.config.maxUnitSize →
    ∀ unit : DecisionUnit, unit.id ∉ situation.1.rejected →
      ((∃ result, next.1.verify (host.store next.2) unit = .ok result) ↔
        ∃ result, situation.1.withoutPending.verify (host.store situation.2) unit = .ok result)

namespace Manager

variable {situation : Manager × ω} {accepted : List DecisionUnit}

theorem Sound.lookup_initial (sound : situation.1.Sound origin (host.store situation.2) accepted)
    (byId : situation.1.RecallsById) (renewed : Configuration) (id : UnitId) :
    (∀ unit, host.lookup (initial renewed situation.1.lastAccepted, situation.2) id =
        .ok (unit, .accepted) ↔ host.lookup situation id = .ok (unit, .accepted)) ∧
      ((∀ unit, host.lookup situation id ≠ .ok (unit, .accepted)) →
        host.lookup (initial renewed situation.1.lastAccepted, situation.2) id =
          .error (.notFound id)) := by
  have fresh := sound.keeps.sound_initial sound.rooted.last renewed
  have later : (initial renewed situation.1.lastAccepted).RecallsById :=
    (recalls_initial renewed _).1
  have found (unit : DecisionUnit) :
      host.lookup (initial renewed situation.1.lastAccepted, situation.2) id =
        .ok (unit, .accepted) ↔ host.lookup situation id = .ok (unit, .accepted) := by
    rw [LawfulHost.lookup, LawfulHost.lookup, fresh.lookup_eq_ok_iff later,
      sound.lookup_eq_ok_iff byId]
    rfl
  refine ⟨found, fun none => ?_⟩
  rcases fresh.lookup_cases later id with ⟨unit, status, here, same, finds⟩ | ⟨missing, -⟩
  · cases status with
    | accepted => exact absurd ((found unit).mp here) (none unit)
    | processing => exact absurd finds (not_holds_initial unit)
    | rejected => simpa [initial] using Recalls.mem finds
    | unverified => exact finds.elim
  · exact missing

theorem Sound.read_initial {manager : Manager} {store : Store}
    (sound : manager.Sound origin store accepted) (renewed : Configuration) (key : StateKey) :
    (initial renewed manager.lastAccepted).read store manager.lastAccepted.id key =
      manager.read store manager.lastAccepted.id key := by
  have fresh := sound.keeps.sound_initial sound.rooted.last renewed
  obtain ⟨state, replayed, reads⟩ := sound.read_eq (.root rfl)
  obtain ⟨other, again, same⟩ := fresh.read_eq (.root rfl)
  cases replayed.symm.trans again
  exact (same key).trans (reads key).symm

theorem Sound.verify_initial {manager : Manager} {store : Store}
    (sound : manager.Sound origin store accepted) (claimed : manager.Claimed)
    {renewed : Configuration} (size : renewed.maxUnitSize = manager.config.maxUnitSize)
    {unit : DecisionUnit} (unrejected : unit.id ∉ manager.rejected) :
    (∃ result, (initial renewed manager.lastAccepted).verify store unit = .ok result) ↔
      ∃ result, manager.withoutPending.verify store unit = .ok result := by
  have fresh := sound.keeps.sound_initial sound.rooted.last renewed
  have rid := sound.rooted.withoutPending
  have lists := sound.records.toLists
  have admits (parent : DecisionUnit) :
      (initial renewed manager.lastAccepted).Admits store parent unit ↔
        manager.withoutPending.Admits store parent unit :=
    fresh.rooted.admits_iff_of_vacant rid sound.chronicle lists size.symm rfl rfl rfl
      claimed.consumedBy_withoutPending
  have fits : unit.id ∉ manager.withoutPending.rejected := unrejected
  have forgot : unit.id ∉ (initial renewed manager.lastAccepted).rejected :=
    Std.ExtTreeMap.not_mem_empty
  have vacant : unit.id ∉ (initial renewed manager.lastAccepted).pending :=
    Std.ExtTreeMap.not_mem_empty
  have empty : unit.id ∉ manager.withoutPending.pending := Std.ExtTreeMap.not_mem_empty
  rw [verify_succeeds_iff rfl, verify_succeeds_iff rfl, rid.isAccepted_eq fresh.rooted lists]
  simp only [admits, fits, forgot, vacant, empty]

end Manager

/-- After any calls, in whatever state they leave the manager, another one can be started on the
store. -/
theorem Tenure.restart_run (tenure : Tenure host config origin) (steps : List (Step host))
    (renewed : Configuration) :
    ∃ next, host.restart renewed (tenure.run steps) = .ok next ∧ next.1.config = renewed ∧
      Renewed host (tenure.run steps) next := by
  obtain ⟨accepted, sound, claimed, byId⟩ :=
    run_induction (fun manager _ => manager.Claimed ∧ manager.RecallsById)
      (fun _ => ⟨Manager.claimed_initial config _, (Manager.recalls_initial config _).1⟩)
      (fun sound _ turn both => ⟨both.1.turn sound turn, turn.recallsById sound both.2⟩)
      tenure steps
  generalize tenure.run steps = situation at sound claimed byId
  have resumed : Manager.resume renewed _ = .ok _ :=
    Manager.resume_eq sound.records sound.chronicle sound.rooted.last
  refine ⟨(.initial renewed situation.1.lastAccepted, situation.2), ?_, rfl, ?_⟩
  · rw [LawfulHost.restart, resumed]
    rfl
  · exact {
      running := rfl
      lastAccepted := rfl
      state := fun _ => rfl
      shared := fun _ _ => rfl
      reads := sound.read_initial renewed
      heights := fun _ => rfl
      found := fun id => (sound.lookup_initial byId renewed id).1
      missing := fun id => (sound.lookup_initial byId renewed id).2
      vacant := rfl
      childless := Manager.children_initial
      unreferenced := rfl
      unclaimed := rfl
      forgot := rfl
      verifies := fun size _ => sound.verify_initial claimed size }

end Restart

end DecisionLedger
