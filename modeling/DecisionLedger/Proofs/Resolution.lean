import DecisionLedger.Proofs.Descent
import DecisionLedger.Proofs.Eligibility
import DecisionLedger.Proofs.Refusals

/-! # What parents lead to

From a pending unit parents lead down to the last accepted one, over pending units alone and at
least one height a step: an option lies on what its proposal stands on, and skips a height.  So the
heights bound every search through the layers, and no search finds that a layer below is gone.
-/

namespace DecisionLedger

theorem DecisionUnit.parent_overlay (tip unit : DecisionUnit) :
    (tip.overlay unit).parent = if unit.kind.isOption then tip.parent else unit.parent := by
  unfold overlay execution kind
  cases unit.body with
  | standard | vertex => exact unit.parent_effect
  | proposal => rfl
  | commit => exact tip.parent_branch .commit
  | abort => exact tip.parent_branch .abort

namespace Manager

/-- The units that other units may extend: the pending ones, and the one accepted last. -/
inductive Extensible (manager : Manager) : UnitId → DecisionUnit → Prop where
  | pending {id : UnitId} {pending : PendingUnit} : manager.pending[id]? = some pending →
      Extensible manager id pending.unit
  | last : Extensible manager manager.lastAccepted.id manager.lastAccepted

/-- How many units there are at most from a unit down to the last accepted one, with both. -/
def depth (manager : Manager) (unit : DecisionUnit) : Nat :=
  unit.height.toNat - manager.lastAccepted.height.toNat + 1

section Reaches

variable {origin : StateUpdates} {manager : Manager} {store : Store}
  {accepted : List DecisionUnit} {unit : DecisionUnit} {id : UnitId}

theorem Extensible.known (extensible : manager.Extensible id unit)
    (rooted : manager.Rooted accepted) :
    unit.id = id ∧ (manager.Holds unit ∨ unit = manager.lastAccepted) := by
  cases extensible with
  | pending found =>
      obtain ⟨own, holds, rfl, rfl⟩ := rooted.exists_of_getElem? found
      exact ⟨rfl, .inl holds⟩
  | last => exact ⟨rfl, .inr rfl⟩

theorem Rooted.exists_lineage_of_known (rooted : manager.Rooted accepted)
    (known : manager.Holds unit ∨ unit = manager.lastAccepted) :
    ∃ line, manager.Lineage accepted unit.id line := by
  rcases known with holds | rfl
  · obtain ⟨line, lineage⟩ := rooted.exists_lineage holds
    exact ⟨_, .child holds rfl lineage⟩
  · exact ⟨accepted, .root rfl⟩

variable (store) in
theorem Rooted.last_bare (rooted : manager.Rooted accepted) :
    manager.lastAccepted.id ∉ (manager.versions store).layers := by
  simp [Std.ExtTreeMap.mem_iff_isSome_getElem?, layers_versions,
    Std.ExtTreeMap.getElem?_eq_none rooted.last_not_pending]

variable (store) in
/-- Each layer on the way down costs at least one height. -/
theorem Sound.exists_reaches (sound : manager.Sound origin store accepted)
    (known : manager.Holds unit ∨ unit = manager.lastAccepted) :
    ∃ below,
      Versions.Reaches (manager.versions store).layers manager.lastAccepted.id unit.id below ∧
      below.length + manager.lastAccepted.height.toNat ≤ unit.height.toNat := by
  induction steps : unit.height.toNat using Nat.strongRecOn generalizing unit with
  | ind height ih =>
      subst steps
      rcases known with holds | rfl
      · obtain ⟨line, lineage⟩ := sound.rooted.exists_lineage holds
        obtain ⟨top, -, follows, below⟩ := sound.rooted.extends_last holds lineage
        have higher := follows.height_eq
        obtain ⟨layers, reaches, heights⟩ := ih _ (by omega) below rfl
        have layer := layer_of_holds store holds follows (sound.holds_of_proposal below)
        have parent := top.parent_overlay unit
        by_cases option : unit.kind.isOption = true
        · -- the layer of the proposal under an option is on the way of the proposal only
          have kind := follows.option_iff.mp option
          have own := Rooted.layer_of_proposal store (sound.holds_of_proposal below kind) kind
          obtain ⟨rest, rfl, further⟩ := reaches.of_found own
          rw [if_pos option] at parent
          refine ⟨_, .layer layer (parent ▸ further), ?_⟩
          simp only [List.length_cons] at heights ⊢
          omega
        · rw [if_neg option, follows.parent_eq] at parent
          refine ⟨_, .layer layer (parent ▸ reaches), ?_⟩
          simp only [List.length_cons]
          omega
      · exact ⟨[], .accepted (sound.rooted.last_bare store), by simp⟩

variable (store) in
theorem Sound.reaches_of_extensible (sound : manager.Sound origin store accepted)
    (extensible : manager.Extensible id unit) :
    ∃ below, Versions.Reaches (manager.versions store).layers (manager.versions store).accepted
      id below ∧ below.length < manager.depth unit := by
  obtain ⟨rfl, known⟩ := extensible.known sound.rooted
  obtain ⟨below, reaches, heights⟩ := sound.exists_reaches store known
  exact ⟨below, reaches, by unfold depth; omega⟩

end Reaches

section Resolution

variable {origin : StateUpdates} {manager : Manager} {store : Store}
  {accepted : List DecisionUnit}

/-- A parent that may be extended has a whole way below it, so no verification finds a gap. -/
theorem Sound.verify_ne_branchLost (sound : manager.Sound origin store accepted)
    (unit : DecisionUnit) (blamed : UnitId) :
    manager.verify store unit ≠ .error (.invalidParent blamed .branchLost) := by
  cases running : manager.halted with
  | some reason =>
      rw [verify_of_halted running]
      nofun
  | none =>
      refine (blames_verify sound.records.toLists running fun parent found gone => ?_).lost blamed
      have extensible : manager.Extensible unit.parent parent := by
        rcases resolveParent_eq_ok found with ⟨pending, known, rfl⟩ | ⟨-, same, rfl⟩
        · exact .pending known
        · exact same ▸ .last
      obtain ⟨below, reaches, -⟩ := sound.reaches_of_extensible store extensible
      exact gone (by rw [reaches.view_eq])

end Resolution

end Manager

/-- All layers above the accepted state in a situation. -/
def LawfulHost.versions {ω : Type} (host : LawfulHost ω) (situation : Manager × ω) : Versions :=
  situation.1.versions (host.store situation.2)

/-- How the units of a situation are resolved by whoever follows parents through them. -/
structure Resolves {ω : Type} (host : LawfulHost ω) (situation : Manager × ω) : Prop where
  /-- No unit that may be extended is lower than the last accepted one. -/
  heights : ∀ {id : UnitId} {unit : DecisionUnit}, situation.1.Extensible id unit →
    situation.1.lastAccepted.height ≤ unit.height
  /-- A record is read, as a value or as absent, and no more units are looked at for it than there
  are heights down to the last accepted one. -/
  reads : ∀ {id : UnitId} {unit : DecisionUnit}, situation.1.Extensible id unit →
    ∀ key, ∃ value, host.sees situation id key = .ok value ∧
      (host.versions situation).descend (·.local? key) (host.accepted? situation key)
        (situation.1.depth unit) id = some (.ok value)
  /-- So is the question answered whether a key is consumed. -/
  consumes : ∀ {id : UnitId} {unit : DecisionUnit}, situation.1.Extensible id unit →
    ∀ key, ∃ taken, ((host.versions situation).view id).consumes key = .ok taken ∧
      (host.versions situation).descend (·.taken? key) false (situation.1.depth unit) id =
        some (.ok taken)
  /-- Parents lead to the last accepted unit. -/
  bottom : ∀ {id : UnitId} {unit : DecisionUnit}, situation.1.Extensible id unit →
    Relation.ReflTransGen (host.versions situation).LiesOn id situation.1.lastAccepted.id
  /-- Whatever they lead to is pending and has a layer, or is the last accepted unit. -/
  layers : ∀ {id : UnitId} {unit : DecisionUnit}, situation.1.Extensible id unit →
    ∀ {other : UnitId}, Relation.ReflTransGen (host.versions situation).LiesOn id other →
      other ∈ situation.1.pending ∧ other ∈ (host.versions situation).layers ∨
        other = situation.1.lastAccepted.id
  /-- No verification finds that the branch of a unit is lost. -/
  verifies : ∀ unit blamed,
    (Call.verify unit).answer host situation ≠ .error (.invalidParent blamed .branchLost)

theorem Manager.Sound.resolves {ω : Type} {host : LawfulHost ω} {origin : StateUpdates}
    {manager : Manager} {world : ω} {accepted : List DecisionUnit}
    (sound : manager.Sound origin (host.store world) accepted) :
    Resolves host (manager, world) where
  heights := by
    intro id unit extensible
    obtain ⟨-, known⟩ := extensible.known sound.rooted
    obtain ⟨below, -, heights⟩ := sound.exists_reaches (host.store world) known
    exact UInt64.le_iff_toNat_le.mpr (by dsimp only; omega)
  reads := by
    intro id unit extensible key
    obtain ⟨below, reaches, enough⟩ := sound.reaches_of_extensible (host.store world) extensible
    obtain ⟨rfl, known⟩ := extensible.known sound.rooted
    obtain ⟨line, lineage⟩ := sound.rooted.exists_lineage_of_known known
    obtain ⟨state, reads, views⟩ := sound.view_eq lineage
    exact ⟨state[key]?, reads key, views key ▸ reaches.descend_read enough key⟩
  consumes := by
    intro id unit extensible key
    obtain ⟨below, reaches, enough⟩ := sound.reaches_of_extensible (host.store world) extensible
    have consumed := reaches.consumes_eq key
    exact ⟨_, consumed, consumed ▸ reaches.descend_consumes enough key⟩
  bottom := by
    intro id unit extensible
    obtain ⟨below, reaches, -⟩ := sound.reaches_of_extensible (host.store world) extensible
    exact reaches.down
  layers := by
    intro id unit extensible other down
    obtain ⟨below, reaches, -⟩ := sound.reaches_of_extensible (host.store world) extensible
    obtain ⟨rest, further⟩ := reaches.of_liesOn down
    cases further with
    | accepted bare => exact .inr rfl
    | @layer _ diff _ found _ =>
        refine .inl ⟨?_, Versions.Reaches.mem_of_found found⟩
        rw [layers_versions] at found
        obtain ⟨pending, present, -⟩ := Option.bind_eq_some_iff.mp found
        exact Manager.mem_pending_of_getElem? present
  verifies := by
    intro unit blamed lost
    dsimp only [Call.answer] at lost
    cases answer : manager.verify (host.store world) unit with
    | ok outcome => simp [answer, Except.map] at lost
    | error problem =>
        simp only [answer, Except.map, Except.error.injEq] at lost
        exact sound.verify_ne_branchLost unit blamed (lost ▸ answer)

/-- After any calls, reads end with a value or absence within the heights that they span, and what
parents lead to is pending or accepted last. -/
theorem Tenure.resolves_run {ω : Type} {host : LawfulHost ω} {config : Configuration}
    {origin : StateUpdates} (tenure : Tenure host config origin) (steps : List (Step host)) :
    Resolves host (tenure.run steps) := by
  obtain ⟨accepted, sound⟩ := tenure.sound_run steps
  exact sound.resolves

end DecisionLedger
