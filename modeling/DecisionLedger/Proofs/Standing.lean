import DecisionLedger.Proofs.Session

/-! # Where pending units stand

In every state that a session comes to, the pending units form a tree on the last accepted unit, in
which proposals and options alternate as they should and no edge is lost.
-/

namespace DecisionLedger

namespace Manager

/-- A unit from which parents lead over pending units down to the last accepted one. -/
inductive Stands (manager : Manager) : UnitId → Prop
  | root : Stands manager manager.lastAccepted.id
  | above {id : UnitId} {pending : PendingUnit} : manager.pending[id]? = some pending →
      Stands manager pending.unit.parent → Stands manager id

/-- The pending units are a tree on the last accepted unit. -/
structure Standing (manager : Manager) (store : Store) : Prop where
  keyed : ∀ {id : UnitId} {pending : PendingUnit}, manager.pending[id]? = some pending →
    pending.unit.id = id
  /-- The parent of a pending unit is pending or accepted last, and one lower. -/
  parents : ∀ {id : UnitId} {pending : PendingUnit}, manager.pending[id]? = some pending →
    (∃ above, manager.pending[pending.unit.parent]? = some above ∧
      pending.unit.height.toNat = above.unit.height.toNat + 1) ∨
    pending.unit.parent = manager.lastAccepted.id ∧
      pending.unit.height.toNat = manager.lastAccepted.height.toNat + 1
  /-- An option decides a proposal that is pending. -/
  options : ∀ {id : UnitId} {pending : PendingUnit}, manager.pending[id]? = some pending →
    pending.unit.kind.isOption = true →
    ∃ above, manager.pending[pending.unit.parent]? = some above ∧ above.unit.kind = .proposal
  /-- What stands on a pending proposal is an option. -/
  proposals : ∀ {id : UnitId} {above pending : PendingUnit},
    manager.pending[pending.unit.parent]? = some above → above.unit.kind = .proposal →
    manager.pending[id]? = some pending → pending.unit.kind.isOption = true
  /-- No two pending options make the same choice for a proposal. -/
  choices : ∀ {id other : UnitId} {pending further : PendingUnit},
    manager.pending[id]? = some pending → manager.pending[other]? = some further →
    pending.unit.parent = further.unit.parent → pending.unit.kind = further.unit.kind →
    pending.unit.kind.isOption = true → id = other
  children : ∀ {above child : UnitId}, child ∈ manager.childrenOf above ↔
    ∃ pending, manager.pending[child]? = some pending ∧ pending.unit.parent = above
  /-- An edge of a pending vertex is pending or accepted, not rejected, and lower. -/
  edges : ∀ {id : UnitId} {pending : PendingUnit}, manager.pending[id]? = some pending →
    ∀ edge ∈ pending.unit.body.edges, edge ∉ manager.rejected ∧
      ((∃ target, manager.pending[edge]? = some target ∧
          target.unit.height < pending.unit.height) ∨
        ∃ target, store.unit? edge = .ok (some target) ∧ target.height < pending.unit.height)
  undecided : manager.lastAccepted.kind ≠ .proposal
  stands : ∀ {id : UnitId}, id ∈ manager.pending → manager.Stands id

section Standing

variable {origin : StateUpdates} {manager : Manager} {store : Store}
  {accepted line : List DecisionUnit} {unit other : DecisionUnit} {id : UnitId}

theorem Lineage.stands (lineage : manager.Lineage accepted id line) : manager.Stands id := by
  induction lineage with
  | root tip => exact tip ▸ .root
  | child holds same _ ih =>
      subst same
      exact .above holds ih

theorem Sound.extends_parent (sound : manager.Sound origin store accepted)
    (holds : manager.Holds unit) :
    (∃ above, manager.pending[unit.parent]? = some above.held ∧ unit.Extends above) ∨
      unit.parent ∉ manager.pending ∧ unit.Extends manager.lastAccepted := by
  by_cases present : unit.parent ∈ manager.pending
  · obtain ⟨above, held, same⟩ := sound.rooted.mem_pending_iff.mp present
    exact .inl ⟨above, same ▸ held, sound.rooted.extends_of_parent holds held same.symm⟩
  · exact .inr ⟨present, sound.rooted.rooted holds present⟩

theorem Sound.mem_children_iff (sound : manager.Sound origin store accepted) {above : UnitId} :
    id ∈ manager.childrenOf above ↔
      ∃ pending, manager.pending[id]? = some pending ∧ pending.unit.parent = above := by
  constructor
  · intro listed
    obtain ⟨unit, holds, rfl, under⟩ := sound.rooted.children listed
    exact ⟨unit.held, holds, under⟩
  · rintro ⟨pending, found, rfl⟩
    obtain ⟨unit, holds, rfl, rfl⟩ := sound.rooted.exists_of_getElem? found
    apply sound.rooted.listed holds
    rcases sound.extends_parent holds with ⟨above, present, -⟩ | ⟨-, follows⟩
    · left
      rw [Std.ExtTreeMap.mem_iff_isSome_getElem?, present]
      rfl
    · exact .inr ⟨_, sound.rooted.last, follows.parent_eq.symm⟩

theorem Sound.edge_known (sound : manager.Sound origin store accepted)
    (holds : manager.Holds unit) {edge : UnitId} (edged : edge ∈ unit.body.edges) :
    edge ∉ manager.rejected ∧
      ((∃ target, manager.pending[edge]? = some target ∧ target.unit.height < unit.height) ∨
        ∃ target, store.unit? edge = .ok (some target) ∧ target.height < unit.height) := by
  obtain ⟨target, rfl, lower, held | inside⟩ := sound.rooted.edges holds edge edged
  · exact ⟨fun gone => sound.rooted.rejected gone held.mem, .inl ⟨target.held, held, lower⟩⟩
  · exact ⟨(sound.rooted.settled inside).2,
      .inr ⟨target, sound.records.unit?_of_mem sound.chronicle inside, lower⟩⟩

theorem Sound.standing (sound : manager.Sound origin store accepted) :
    manager.Standing store where
  keyed := by
    intro id pending found
    exact (sound.rooted.keyed found).1.symm
  parents := by
    intro id pending found
    obtain ⟨unit, holds, rfl, rfl⟩ := sound.rooted.exists_of_getElem? found
    rcases sound.extends_parent holds with ⟨above, present, follows⟩ | ⟨-, follows⟩
    · exact .inl ⟨above.held, present, follows.height_eq⟩
    · exact .inr ⟨follows.parent_eq, follows.height_eq⟩
  options := by
    intro id pending found option
    obtain ⟨unit, holds, rfl, rfl⟩ := sound.rooted.exists_of_getElem? found
    rcases sound.extends_parent holds with ⟨above, present, follows⟩ | ⟨-, follows⟩
    · exact ⟨above.held, present, follows.option_iff.mp option⟩
    · exact absurd (follows.option_iff.mp option) sound.undecided
  proposals := by
    intro id above pending present proposal found
    obtain ⟨unit, holds, rfl, rfl⟩ := sound.rooted.exists_of_getElem? found
    obtain ⟨tip, held, same, rfl⟩ := sound.rooted.exists_of_getElem? present
    exact (sound.rooted.extends_of_parent holds held same.symm).option_iff.mpr proposal
  choices := by
    intro id other pending further found known same kind option
    obtain ⟨left, holdsLeft, rfl, rfl⟩ := sound.rooted.exists_of_getElem? found
    obtain ⟨right, holdsRight, rfl, rfl⟩ := sound.rooted.exists_of_getElem? known
    obtain ⟨choice, chosen⟩ := DecisionUnit.exists_choice_of_isOption option
    have taken := (DecisionUnit.choice?_congr kind).symm.trans chosen
    rw [sound.rooted.options holdsLeft holdsRight same chosen taken]
  children := sound.mem_children_iff
  edges := by
    intro id pending found edge edged
    obtain ⟨unit, holds, rfl, rfl⟩ := sound.rooted.exists_of_getElem? found
    exact sound.edge_known holds edged
  undecided := sound.undecided
  stands := by
    intro id present
    obtain ⟨unit, holds, rfl⟩ := sound.rooted.mem_pending_iff.mp present
    obtain ⟨line, lineage⟩ := sound.rooted.exists_lineage holds
    exact .above holds lineage.stands

end Standing

end Manager

/-- After any calls, the pending units of a manager are a tree on its last accepted unit. -/
theorem Start.standing_run {ω : Type} {host : LawfulHost ω} {config : Configuration}
    {origin : StateUpdates} (start : Start host config origin) (steps : List (Step host)) :
    (start.run steps).1.Standing (host.store (start.run steps).2) := by
  obtain ⟨accepted, sound⟩ := start.sound_run steps
  exact sound.standing

end DecisionLedger
