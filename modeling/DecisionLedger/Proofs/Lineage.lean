import DecisionLedger.Proofs.Planning
import DecisionLedger.Proofs.StateChanges

/-! # Lineages

The lineage of a unit is the chronicle that there would be if the unit were accepted: what is
accepted already, and then the pending units from the last accepted one up to it.  It does not
change while the unit is pending, whatever happens to other units.
-/

namespace DecisionLedger

namespace Versions

variable {layers : Std.ExtTreeMap UnitId Diff} {rank : UnitId → Nat} {accepted cursor : UnitId}

def Ranked (layers : Std.ExtTreeMap UnitId Diff) (rank : UnitId → Nat) : Prop :=
  ∀ {unit diff}, layers[unit]? = some diff → rank diff.parent < rank unit

theorem Ranked.erase (ranked : Ranked layers rank) (gone : UnitId) :
    Ranked (layers.erase gone) rank := by
  intro unit diff found
  rw [Std.ExtTreeMap.getElem?_erase] at found
  split at found
  · cases found
  · exact ranked found

/-- The walk never comes to a unit that ranks above its start. -/
theorem walk_erase (accepted : UnitId) (ranked : Ranked layers rank) {gone : UnitId}
    (lower : rank cursor < rank gone) :
    walk (layers.erase gone) accepted cursor = walk layers accepted cursor := by
  induction steps : rank cursor using Nat.strongRecOn generalizing layers cursor with
  | ind steps ih =>
      subst steps
      have apart : gone ≠ cursor := by
        rintro rfl
        exact absurd lower (Nat.lt_irrefl _)
      by_cases known : cursor ∈ layers
      · have still : cursor ∈ layers.erase gone := by
          simp [Std.ExtTreeMap.mem_erase, apart, known]
        have found : layers[cursor]? = some layers[cursor] :=
          Std.ExtTreeMap.getElem?_eq_some_getElem known
        have same : (layers.erase gone)[cursor] = layers[cursor] := by
          simp [Std.ExtTreeMap.getElem_erase]
        have commuted : (layers.erase gone).erase cursor = (layers.erase cursor).erase gone := by
          apply Std.ExtTreeMap.ext_getElem?
          intro other
          simp only [Std.ExtTreeMap.getElem?_erase]
          split <;> split <;> rfl
        have below := ranked found
        rw [walk_of_mem still, walk_of_mem known]
        dsimp only
        rw [same, commuted, ih _ below (ranked.erase cursor) (below.trans lower) rfl]
      · have still : cursor ∉ layers.erase gone := by
          simp [Std.ExtTreeMap.mem_erase, known]
        rw [walk_of_not_mem still, walk_of_not_mem known]

theorem view_of_layer {versions : Versions} (ranked : Ranked versions.layers rank) {unit : UnitId}
    {diff : Diff} (found : versions.layers[unit]? = some diff) :
    versions.view unit = (versions.view diff.parent).under diff := by
  obtain ⟨known, rfl⟩ := Std.ExtTreeMap.getElem?_eq_some_iff.mp found
  have below := walk_erase versions.accepted ranked (ranked found)
  rw [view, walk_of_mem known]
  dsimp only
  rw [below]
  rfl

end Versions

namespace Diff

@[simp] theorem parent_record (diff : Diff) (transaction : Transaction) :
    (diff.record transaction).parent = diff.parent :=
  record_induction (fun after => after.parent = diff.parent) transaction (fun _ _ same => same)
    (fun _ _ _ same => same) (fun _ _ _ same => same) rfl

theorem parent_recordAll (diff : Diff) (transactions : List Transaction) :
    (transactions.foldl record diff).parent = diff.parent := by
  induction transactions generalizing diff with
  | nil => rfl
  | cons transaction rest ih => rw [List.foldl_cons, ih, parent_record]

end Diff

theorem DecisionUnit.parent_effect (unit : DecisionUnit) : unit.effect.parent = unit.parent :=
  Diff.parent_recordAll _ _

theorem DecisionUnit.parent_branch (unit : DecisionUnit) (choice : Choice) :
    (unit.branch choice).parent = unit.parent := by
  cases choice with
  | commit => exact unit.parent_effect
  | abort => rfl

/-- What a pending unit adds to the state seen from the unit that it stands on. -/
def DecisionUnit.overlay (tip unit : DecisionUnit) : Diff :=
  match unit.execution with
  | .effect diff => diff
  | .proposal branches => branches.onAbort
  | .option choice => tip.branch choice

theorem DecisionUnit.overlay_of_choice {tip unit : DecisionUnit} {choice : Choice}
    (chosen : unit.body.choice? = some choice) : tip.overlay unit = tip.branch choice := by
  rw [overlay, execution_eq_option_iff.mpr chosen]

theorem DecisionUnit.overlay_of_proposal {tip unit : DecisionUnit} (kind : unit.kind = .proposal) :
    tip.overlay unit = Diff.empty unit.parent unit.timestamp := by
  obtain ⟨branches, execution, branch⟩ := exists_execution_of_proposal kind
  have onAbort : branches.onAbort = unit.branch .abort := branch .abort
  rw [overlay, execution]
  exact onAbort

theorem DecisionUnit.exists_overlay_eq (tip unit : DecisionUnit) : ∃ parent timestamp,
    tip.overlay unit = (tip.gain unit).foldl Diff.record (.empty parent timestamp) := by
  unfold overlay execution gain
  cases body : unit.body with
  | standard | vertex => exact ⟨_, _, by rw [effect, body]; rfl⟩
  | commit => exact ⟨_, _, rfl⟩
  | proposal | abort => exact ⟨_, _, rfl⟩

theorem DecisionUnit.overlays_gain {tip unit : DecisionUnit} {base after : FlatState}
    (performed : (tip.gain unit).foldlM FlatState.perform base = some after) :
    (tip.overlay unit).Overlays base after := by
  obtain ⟨parent, timestamp, same⟩ := tip.exists_overlay_eq unit
  rw [same]
  exact (Diff.overlays_empty parent timestamp base).recordAll performed

namespace Manager

/-- The units from genesis through the accepted ones up to a pending unit. -/
inductive Lineage (manager : Manager) (accepted : List DecisionUnit) :
    UnitId → List DecisionUnit → Prop
  | root {id : UnitId} : id = manager.lastAccepted.id → Lineage manager accepted id accepted
  | child {id : UnitId} {unit : DecisionUnit} {line : List DecisionUnit} :
      manager.Holds unit → unit.id = id → Lineage manager accepted unit.parent line →
      Lineage manager accepted id (line ++ [unit])

section Lineage

variable {manager : Manager} {accepted : List DecisionUnit} {unit : DecisionUnit} {id : UnitId}
  {line other : List DecisionUnit}

theorem Rooted.exists_lineage (rooted : manager.Rooted accepted) (holds : manager.Holds unit) :
    ∃ line, manager.Lineage accepted unit.parent line := by
  induction steps : unit.height.toNat using Nat.strongRecOn generalizing unit with
  | ind height ih =>
      by_cases present : unit.parent ∈ manager.pending
      · obtain ⟨above, held, same⟩ := rooted.mem_pending_iff.mp present
        have higher := (rooted.extends_of_parent holds held same.symm).height_eq
        obtain ⟨line, lineage⟩ := ih above.height.toNat (by omega) held rfl
        exact ⟨line ++ [above], .child held same lineage⟩
      · exact ⟨accepted, .root (rooted.rooted holds present).parent_eq⟩

theorem Rooted.lineage_of_parent (rooted : manager.Rooted accepted) {parent : DecisionUnit}
    (known : manager.Holds parent ∨ parent = manager.lastAccepted)
    (same : unit.parent = parent.id) :
    ∃ line, manager.Lineage accepted unit.parent line ∧ line.getLast? = some parent := by
  rcases known with held | rfl
  · obtain ⟨line, lineage⟩ := rooted.exists_lineage held
    exact ⟨_, .child held same.symm lineage, List.getLast?_concat⟩
  · exact ⟨accepted, .root same, rooted.last⟩

theorem Rooted.lineage_unique (rooted : manager.Rooted accepted)
    (first : manager.Lineage accepted id line) (second : manager.Lineage accepted id other) :
    line = other := by
  induction first generalizing other with
  | root tip =>
      cases second with
      | root _ => rfl
      | child holds same _ => exact absurd (tip ▸ same ▸ holds.mem) rooted.last_not_pending
  | child holds same lineage ih =>
      cases second with
      | root tip => exact absurd (tip ▸ same ▸ holds.mem) rooted.last_not_pending
      | child held here further =>
          cases holds.eq_of_id held (same.trans here.symm)
          rw [ih further]

theorem Rooted.lineage_of_holds (rooted : manager.Rooted accepted) (holds : manager.Holds unit)
    (lineage : manager.Lineage accepted unit.id line) :
    ∃ below, manager.Lineage accepted unit.parent below ∧ line = below ++ [unit] := by
  cases lineage with
  | root tip => exact absurd (tip ▸ holds.mem) rooted.last_not_pending
  | child held same further =>
      cases holds.eq_of_id held same.symm
      exact ⟨_, further, rfl⟩

theorem Rooted.lineage_last (rooted : manager.Rooted accepted)
    (lineage : manager.Lineage accepted id line) :
    ∃ top, line.getLast? = some top ∧ top.id = id ∧
      (manager.Holds top ∨ top = manager.lastAccepted) := by
  cases lineage with
  | root tip => exact ⟨_, rooted.last, tip.symm, .inr rfl⟩
  | child held same further => exact ⟨_, List.getLast?_concat, same, .inl held⟩

theorem Rooted.extends_last (rooted : manager.Rooted accepted) (holds : manager.Holds unit)
    (lineage : manager.Lineage accepted unit.parent line) :
    ∃ top, line.getLast? = some top ∧ unit.Extends top ∧
      (manager.Holds top ∨ top = manager.lastAccepted) := by
  obtain ⟨top, last, same, held | rfl⟩ := rooted.lineage_last lineage
  · exact ⟨top, last, rooted.extends_of_parent holds held same.symm, .inl held⟩
  · exact ⟨_, last, rooted.rooted holds (same ▸ rooted.last_not_pending), .inr rfl⟩

/-- Lineages stay what they are while units come and go, as long as the last accepted unit moves up
along a lineage. -/
theorem Lineage.transfer {after : Manager} {further : List DecisionUnit}
    (lineage : after.Lineage further id line)
    (kept : ∀ {unit}, after.Holds unit → manager.Holds unit)
    (moved : manager.Lineage accepted after.lastAccepted.id further) :
    manager.Lineage accepted id line := by
  induction lineage with
  | root tip => exact tip ▸ moved
  | child holds same _ ih => exact .child (kept holds) same ih

end Lineage

section Layers

variable {manager : Manager} {store : Store} {accepted : List DecisionUnit}
  {unit tip : DecisionUnit}

theorem layers_versions (id : UnitId) :
    (manager.versions store).layers[id]? = manager.pending[id]?.bind manager.layer? := by
  simp [versions]

variable (store) in
theorem layer_of_holds (holds : manager.Holds unit) (follows : unit.Extends tip)
    (decides : tip.kind = .proposal → manager.Holds tip) :
    (manager.versions store).layers[unit.id]? = some (tip.overlay unit) := by
  rw [layers_versions, holds]
  rw [Option.bind_some, layer?, DecisionUnit.held_execution, DecisionUnit.held_unit]
  unfold DecisionUnit.overlay
  cases execution : unit.execution with
  | effect diff => rfl
  | proposal branches => rfl
  | option choice =>
      have chosen := DecisionUnit.execution_eq_option_iff.mp execution
      have proposal := follows.option_iff.mp (DecisionUnit.isOption_of_choice? chosen)
      obtain ⟨branches, above, branch⟩ := DecisionUnit.exists_execution_of_proposal proposal
      dsimp only
      rw [follows.parent_eq, decides proposal, ← branch]
      unfold DecisionUnit.held
      rw [above]

/-- The rank of a pending unit is its height; all else ranks lowest. -/
def rank (manager : Manager) (id : UnitId) : Nat :=
  match manager.pending[id]? with
  | some pending => pending.unit.height.toNat
  | none => 0

theorem Rooted.rank_parent (rooted : manager.Rooted accepted) (holds : manager.Holds unit) :
    manager.rank unit.parent < manager.rank unit.id := by
  have own : manager.rank unit.id = unit.height.toNat := by rw [rank, holds]; rfl
  rw [own]
  by_cases present : unit.parent ∈ manager.pending
  · obtain ⟨above, held, same⟩ := rooted.mem_pending_iff.mp present
    have higher := (rooted.extends_of_parent holds held same.symm).height_eq
    have theirs : manager.rank unit.parent = above.height.toNat := by rw [rank, ← same, held]; rfl
    omega
  · have higher := (rooted.rooted holds present).height_eq
    have theirs : manager.rank unit.parent = 0 := by
      rw [rank, Std.ExtTreeMap.getElem?_eq_none present]
    omega

/-- An option lies on what its proposal stands on; any other layer lies on the parent. -/
theorem Rooted.ranked_layers (rooted : manager.Rooted accepted) :
    Versions.Ranked (manager.versions store).layers manager.rank := by
  intro id diff found
  rw [layers_versions] at found
  obtain ⟨pending, present, layered⟩ := Option.bind_eq_some_iff.mp found
  obtain ⟨unit, holds, rfl, rfl⟩ := rooted.exists_of_getElem? present
  rw [layer?, DecisionUnit.held_execution, DecisionUnit.held_unit] at layered
  cases execution : unit.execution with
  | effect effect =>
      simp only [execution, Option.some.injEq] at layered
      obtain ⟨-, rfl⟩ := DecisionUnit.execution_eq_effect_iff.mp execution
      rw [← layered, DecisionUnit.parent_effect]
      exact rooted.rank_parent holds
  | proposal branches =>
      simp only [execution, Option.some.injEq] at layered
      have branch := (DecisionUnit.of_execution_eq_proposal execution).2 .abort
      have onAbort : branches.onAbort = unit.branch .abort := branch
      rw [← layered, onAbort, DecisionUnit.parent_branch]
      exact rooted.rank_parent holds
  | option choice =>
      simp only [execution] at layered
      cases above : manager.pending[unit.parent]? with
      | none => simp [above] at layered
      | some parent =>
          obtain ⟨tip, held, same, rfl⟩ := rooted.exists_of_getElem? above
          cases executed : tip.execution with
          | effect diff => simp [above, DecisionUnit.held, executed] at layered
          | option other => simp [above, DecisionUnit.held, executed] at layered
          | proposal branches =>
              simp only [above, DecisionUnit.held, executed, Option.some.injEq] at layered
              have branch := (DecisionUnit.of_execution_eq_proposal executed).2 choice
              rw [← layered, branch, DecisionUnit.parent_branch]
              have first := rooted.rank_parent held
              have second := rooted.rank_parent holds
              rw [← same] at second
              exact first.trans second

end Layers

end Manager

end DecisionLedger
