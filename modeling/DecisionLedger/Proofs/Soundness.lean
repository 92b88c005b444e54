import DecisionLedger.Manager.Query
import DecisionLedger.Proofs.Lineage

/-! # A manager in step with its store

Between operations the store records what was accepted, its state is what a replay of that gives,
and every pending unit could be performed on the replay of its lineage.  From this it follows what a
unit sees: the replay of its lineage, and nothing else.
-/

namespace DecisionLedger.Manager

/-- A manager and its store agree on what was accepted, and the pending units can follow it. -/
structure Sound (origin : StateUpdates) (manager : Manager) (store : Store)
    (accepted : List DecisionUnit) : Prop where
  rooted : manager.Rooted accepted
  chronicle : Chronicle accepted
  records : store.Records accepted
  undecided : manager.lastAccepted.kind ≠ .proposal
  state : ∃ state, replay origin accepted = some state ∧ ∀ key, store.state? key = state[key]?
  executable : ∀ {unit line}, manager.Holds unit → manager.Lineage accepted unit.parent line →
    ∃ before after, replay origin line = some before ∧
      unit.body.payload.foldlM FlatState.perform before = some after

section Reads

variable {origin : StateUpdates} {manager : Manager} {store : Store}
  {accepted line : List DecisionUnit} {unit top : DecisionUnit}

theorem Sound.holds_of_proposal (sound : manager.Sound origin store accepted)
    (known : manager.Holds top ∨ top = manager.lastAccepted) (kind : top.kind = .proposal) :
    manager.Holds top := by
  rcases known with held | rfl
  · exact held
  · exact absurd kind sound.undecided

theorem Sound.exists_gain (sound : manager.Sound origin store accepted)
    (holds : manager.Holds unit) (lineage : manager.Lineage accepted unit.parent line)
    (last : line.getLast? = some top) {before : FlatState}
    (replayed : replay origin line = some before) :
    ∃ after, (top.gain unit).foldlM FlatState.perform before = some after := by
  have payload : ∃ after, unit.body.payload.foldlM FlatState.perform before = some after := by
    obtain ⟨state, after, same, performed⟩ := sound.executable holds lineage
    rw [replayed] at same
    cases same
    exact ⟨after, performed⟩
  unfold DecisionUnit.gain
  cases body : unit.body with
  | standard transactions =>
      rw [body] at payload
      exact payload
  | vertex edges transactions =>
      rw [body] at payload
      exact payload
  | proposal proposed => exact ⟨before, rfl⟩
  | abort => exact ⟨before, rfl⟩
  | commit =>
      -- the effect was performed on what lies below the proposal, and the proposal adds nothing
      obtain ⟨tip, here, follows, known⟩ := sound.rooted.extends_last holds lineage
      rw [last] at here
      cases here
      have kind : top.kind = .proposal := by
        apply follows.option_iff.mp
        rw [DecisionUnit.kind, body]
        rfl
      have held := sound.holds_of_proposal known kind
      rw [follows.parent_eq] at lineage
      obtain ⟨below, further, rfl⟩ := sound.rooted.lineage_of_holds held lineage
      obtain ⟨state, after, same, performed⟩ := sound.executable held further
      obtain ⟨bottom, lowest, stands, -⟩ := sound.rooted.extends_last held further
      rw [replay_concat origin lowest stands, same, DecisionUnit.gain_of_proposal kind] at replayed
      cases replayed
      exact ⟨after, performed⟩

variable (store) in
theorem Rooted.layer_of_proposal (holds : manager.Holds unit) (kind : unit.kind = .proposal) :
    (manager.versions store).layers[unit.id]? =
      some (Diff.empty unit.parent unit.timestamp) := by
  obtain ⟨branches, execution, branch⟩ := DecisionUnit.exists_execution_of_proposal kind
  have onAbort : branches.onAbort = Diff.empty unit.parent unit.timestamp := branch .abort
  rw [layers_versions, holds, Option.bind_some, layer?, DecisionUnit.held_execution, execution]
  dsimp only
  rw [onAbort]

variable (store) in
/-- The layer of a unit lies on what its parent sees.  That of an option passes by the layer of its
proposal, which is empty. -/
theorem Sound.view_parent (sound : manager.Sound origin store accepted)
    (known : manager.Holds top ∨ top = manager.lastAccepted) (follows : unit.Extends top) :
    let below := (manager.versions store).view (top.overlay unit).parent
    (manager.versions store).view unit.parent = below ∨
      ∃ parent timestamp,
        (manager.versions store).view unit.parent = below.under (Diff.empty parent timestamp) := by
  unfold DecisionUnit.overlay
  cases execution : unit.execution with
  | effect diff =>
      obtain ⟨-, rfl⟩ := DecisionUnit.execution_eq_effect_iff.mp execution
      dsimp only
      rw [unit.parent_effect]
      exact .inl rfl
  | proposal branches =>
      have onAbort : branches.onAbort = unit.branch .abort :=
        (DecisionUnit.of_execution_eq_proposal execution).2 .abort
      dsimp only
      rw [onAbort, unit.parent_branch]
      exact .inl rfl
  | option choice =>
      have chosen := DecisionUnit.execution_eq_option_iff.mp execution
      have kind := follows.option_iff.mp (DecisionUnit.isOption_of_choice? chosen)
      have layer := Rooted.layer_of_proposal store (sound.holds_of_proposal known kind) kind
      dsimp only
      rw [top.parent_branch, follows.parent_eq,
        Versions.view_of_layer sound.rooted.ranked_layers layer]
      exact .inr ⟨_, _, rfl⟩

theorem Sound.read_below (sound : manager.Sound origin store accepted)
    (known : manager.Holds top ∨ top = manager.lastAccepted) (follows : unit.Extends top)
    (key : StateKey) :
    ((manager.versions store).view (top.overlay unit).parent).read key =
      ((manager.versions store).view unit.parent).read key := by
  rcases sound.view_parent store known follows with same | ⟨parent, timestamp, same⟩
  · rw [same]
  · rw [same, View.read_under, Diff.local?_empty]

theorem Sound.consumes_below (sound : manager.Sound origin store accepted)
    (known : manager.Holds top ∨ top = manager.lastAccepted) (follows : unit.Extends top)
    (key : StateKey) :
    ((manager.versions store).view (top.overlay unit).parent).consumes key =
      ((manager.versions store).view unit.parent).consumes key := by
  rcases sound.view_parent store known follows with same | ⟨parent, timestamp, same⟩
  · rw [same]
  · have nothing : (Diff.empty parent timestamp).consumes key = false := rfl
    rw [same, View.consumes_under, nothing]
    rfl

/-- A unit sees the replay of its lineage. -/
theorem Sound.reads (sound : manager.Sound origin store accepted) {id : UnitId}
    (lineage : manager.Lineage accepted id line) :
    ∃ state, replay origin line = some state ∧
      ∀ key, ((manager.versions store).view id).read key = .ok state[key]? := by
  induction lineage with
  | root tip =>
      subst tip
      obtain ⟨state, replayed, same⟩ := sound.state
      have bare : manager.lastAccepted.id ∉ (manager.versions store).layers := by
        rw [Std.ExtTreeMap.mem_iff_isSome_getElem?, layers_versions,
          Std.ExtTreeMap.getElem?_eq_none sound.rooted.last_not_pending]
        exact Bool.false_ne_true
      refine ⟨state, replayed, fun key => ?_⟩
      have bottom : manager.lastAccepted.id = (manager.versions store).accepted := rfl
      rw [Versions.view, Versions.walk_of_not_mem bare, ← same key]
      dsimp only
      rw [if_pos bottom]
      rfl
  | @child _ unit line holds same further ih =>
      subst same
      obtain ⟨before, replayed, reads⟩ := ih
      obtain ⟨top, last, follows, known⟩ := sound.rooted.extends_last holds further
      obtain ⟨after, performed⟩ := sound.exists_gain holds further last replayed
      have overlays := DecisionUnit.overlays_gain performed
      have layer := layer_of_holds store holds follows
        (sound.holds_of_proposal known)
      refine ⟨after, ?_, fun key => ?_⟩
      · rw [replay_concat origin last follows, replayed]
        exact performed
      · rw [Versions.view_of_layer sound.rooted.ranked_layers layer, View.read_under,
          sound.read_below known follows key, reads key, ← overlays key]
        cases (top.overlay unit).local? key <;> rfl

theorem Sound.read_eq (sound : manager.Sound origin store accepted) {id : UnitId}
    (lineage : manager.Lineage accepted id line) :
    ∃ state, replay origin line = some state ∧
      ∀ key, manager.read store id key = .ok state[key]? := by
  cases lineage with
  | root tip =>
      subst tip
      obtain ⟨state, replayed, same⟩ := sound.state
      have absent := sound.rooted.last_not_pending
      have bottom : manager.seen? store manager.lastAccepted.id = some none := by
        rw [seen?, layers_versions, Std.ExtTreeMap.getElem?_eq_none absent]
        simp [isPending, absent]
      refine ⟨state, replayed, fun key => ?_⟩
      rw [read, bottom, ← same key]
  | @child _ unit below holds same further =>
      subst same
      obtain ⟨state, replayed, reads⟩ := sound.reads (.child holds rfl further)
      obtain ⟨top, -, follows, known⟩ := sound.rooted.extends_last holds further
      have layer := layer_of_holds store holds follows (sound.holds_of_proposal known)
      have seen : manager.seen? store unit.id = some (some (top.overlay unit)) := by
        rw [seen?, layer]
      refine ⟨state, replayed, fun key => ?_⟩
      have value := reads key
      rw [Versions.view_of_layer sound.rooted.ranked_layers layer] at value
      rw [read, seen]
      dsimp only
      rw [Diff.get, value]

theorem Sound.read_child (sound : manager.Sound origin store accepted)
    (holds : manager.Holds unit) :
    ∃ top, unit.Extends top ∧ (manager.Holds top ∨ top = manager.lastAccepted) ∧
      ∀ key, manager.read store unit.id key =
        match (top.overlay unit).local? key with
        | some found => .ok found
        | none => manager.read store unit.parent key := by
  obtain ⟨line, lineage⟩ := sound.rooted.exists_lineage holds
  obtain ⟨top, last, follows, known⟩ := sound.rooted.extends_last holds lineage
  obtain ⟨before, replayed, below⟩ := sound.read_eq lineage
  obtain ⟨after, performed⟩ := sound.exists_gain holds lineage last replayed
  obtain ⟨state, longer, reads⟩ := sound.read_eq (.child holds rfl lineage)
  rw [replay_concat origin last follows, replayed, Option.bind_some, performed] at longer
  cases longer
  refine ⟨top, follows, known, fun key => ?_⟩
  rw [reads key, below key, ← DecisionUnit.overlays_gain performed key]
  cases (top.overlay unit).local? key <;> rfl

end Reads

end DecisionLedger.Manager
