import DecisionLedger.Proofs.Soundness

/-! # What operations keep

Verifying and rejecting leave the store and the chronicle alone.  Accepting writes what its plan
says and settles it, and the lineage of the accepted unit becomes the chronicle.
-/

namespace DecisionLedger

theorem Store.state?_place (store : Store) (units : List DecisionUnit) (last : UnitId)
    (key : StateKey) :
    (store.apply (units.flatMap Batch.place ++ Batch.setLastAccepted last)).state? key =
      store.state? key := by
  refine raw?_apply_of_forall_ne rfl (fun change inside same => ?_) store
  rcases List.mem_append.mp inside with placed | pointed
  · obtain ⟨unit, -, inside⟩ := List.mem_flatMap.mp placed
    rcases List.mem_append.mp inside with byId | byHeight
    · cases List.mem_singleton.mp byId
      cases same
    · cases List.mem_singleton.mp byHeight
      cases same
  · cases List.mem_singleton.mp pointed
    cases same

namespace Manager

variable {origin : StateUpdates} {manager after : Manager} {store other : Store}
  {accepted further : List DecisionUnit} {parent unit : DecisionUnit}

theorem Sound.of_sameLedger (sound : manager.Sound origin store accepted)
    (same : store.SameLedger other) : manager.Sound origin other accepted where
  rooted := sound.rooted
  chronicle := sound.chronicle
  records := sound.records.of_sameLedger same
  undecided := sound.undecided
  state := by
    obtain ⟨state, replayed, reads⟩ := sound.state
    exact ⟨state, replayed, fun key => (same.state?_eq key).trans (reads key)⟩
  executable := sound.executable

/-- An admitted unit could be performed on what its parent sees, and so on its lineage. -/
theorem Sound.hold (sound : manager.Sound origin store accepted)
    (unknown : manager.Unknown store unit.id) (admits : manager.Admits store parent unit) :
    (manager.hold unit.held).Sound origin store accepted := by
  have rooted := sound.rooted.hold sound.records.toLists unknown admits
  have grown : ∀ {id line}, manager.Lineage accepted id line →
      (manager.hold unit.held).Lineage accepted id line := by
    intro id line lineage
    refine lineage.transfer (fun held => ?_) (.root rfl)
    exact (holds_hold unknown.notPending).mpr (.inr held)
  refine { rooted, chronicle := sound.chronicle, records := sound.records,
           undecided := sound.undecided, state := sound.state, executable := ?_ }
  intro other line holds lineage
  rcases (holds_hold unknown.notPending).mp holds with rfl | before
  · have old : ∃ former, manager.Lineage accepted other.parent former := by
      obtain ⟨follows, held | ⟨-, rfl⟩⟩ := sound.rooted.parent_of_admits admits
      · obtain ⟨below, lower⟩ := sound.rooted.exists_lineage held
        exact ⟨below ++ [parent], .child held follows.parent_eq.symm lower⟩
      · exact ⟨accepted, .root follows.parent_eq⟩
    obtain ⟨former, old⟩ := old
    cases rooted.lineage_unique lineage (grown old)
    obtain ⟨state, replayed, reads⟩ := sound.reads old
    obtain ⟨final, performed⟩ := Diff.exists_performAll reads
      (Diff.overlays_empty other.parent other.timestamp state)
      (fun transaction inside => DecisionUnit.nodup_inputs admits.wellFormed inside)
      admits.executed
    exact ⟨state, final, replayed, performed⟩
  · obtain ⟨former, old⟩ := sound.rooted.exists_lineage before
    cases rooted.lineage_unique lineage (grown old)
    exact sound.executable before old

theorem Sound.verify (sound : manager.Sound origin store accepted) {events : List Event}
    (done : manager.verify store unit = .ok (after, events)) :
    after.Sound origin store accepted := by
  rcases verify_cases done with rfl | ⟨rfl, unknown, parent, admits⟩
  · exact sound
  · exact sound.hold unknown admits

theorem Sound.executable_after (sound : manager.Sound origin store accepted)
    (kept : ∀ {unit}, after.Holds unit → manager.Holds unit)
    (moved : manager.Lineage accepted after.lastAccepted.id further) {line : List DecisionUnit}
    (holds : after.Holds unit) (lineage : after.Lineage further unit.parent line) :
    ∃ before final, replay origin line = some before ∧
      unit.body.payload.foldlM FlatState.perform before = some final :=
  sound.executable (kept holds) (lineage.transfer kept moved)

theorem Holds.of_reject {id : UnitId} {events : List Event}
    (done : manager.reject id = .ok (after, events)) (holds : after.Holds unit) :
    manager.Holds unit := by
  rcases reject_cases done with ⟨found, known, rfl⟩ | rfl
  · exact holds
  · exact ((holds_discard false id).mp holds).1

theorem lastAccepted_reject {id : UnitId} {events : List Event}
    (done : manager.reject id = .ok (after, events)) :
    after.lastAccepted = manager.lastAccepted := by
  rcases reject_cases done with ⟨found, known, rfl⟩ | rfl
  · rfl
  · exact lastAccepted_discard false manager id

theorem Sound.reject (sound : manager.Sound origin store accepted) {id : UnitId}
    {events : List Event} (done : manager.reject id = .ok (after, events)) :
    after.Sound origin store accepted where
  rooted := sound.rooted.reject done
  chronicle := sound.chronicle
  records := sound.records
  undecided := lastAccepted_reject done ▸ sound.undecided
  state := sound.state
  executable := sound.executable_after (Holds.of_reject done)
    (.root (congrArg DecisionUnit.id (lastAccepted_reject done)))

theorem lastAccepted_halt (manager : Manager) (reason : HaltReason) :
    (manager.halt reason).1.lastAccepted = manager.lastAccepted := by
  unfold Manager.halt
  split <;> rfl

theorem holds_halt (reason : HaltReason) :
    (manager.halt reason).1.Holds unit ↔ manager.Holds unit := by
  unfold Manager.halt
  split <;> exact Iff.rfl

theorem Sound.halt (sound : manager.Sound origin store accepted) (reason : HaltReason) :
    (manager.halt reason).1.Sound origin store accepted := by
  unfold Manager.halt
  split
  · exact sound
  · exact {
      rooted := { sound.rooted with }
      chronicle := sound.chronicle
      records := sound.records
      undecided := sound.undecided
      state := sound.state
      executable := fun holds lineage =>
        sound.executable holds (lineage.transfer (fun held => held) (.root rfl)) }

theorem Plans.lineage {plan : AcceptPlan} (plans : manager.Plans unit plan) :
    manager.Holds unit ∧
      manager.Lineage accepted unit.id (accepted ++ plan.accepted.map (·.unit)) := by
  cases plans with
  | unit next execution => exact ⟨next.holds, .child next.holds rfl (.root next.parent_eq)⟩
  | @option proposal _ choice next kind decides =>
      refine ⟨decides.holds, ?_⟩
      have below : manager.Lineage accepted unit.parent (accepted ++ [proposal]) :=
        .child next.holds decides.parent_eq.symm (.root next.parent_eq)
      have above := Lineage.child decides.holds rfl below
      rw [List.append_assoc] at above
      exact above

/-- What a plan writes: the accepted units in order, the last of them, and one diff, which does to
the state what the accepted units do in a replay. -/
theorem Sound.plan_writes (sound : manager.Sound origin store accepted) {plan : AcceptPlan}
    (plans : manager.Plans unit plan) {before : FlatState}
    (replayed : replay origin accepted = some before) :
    ∃ (diff : Diff) (after : FlatState),
      plan.batch = (plan.accepted.map (·.unit)).flatMap Batch.place ++
        (Batch.setLastAccepted unit.id ++ diff.changes) ∧
      diff.updates.Disjoint ∧ diff.Overlays before after ∧
      replay origin (accepted ++ plan.accepted.map (·.unit)) = some after := by
  have rooted := sound.rooted
  cases plans with
  | unit next execution =>
      have lineage : manager.Lineage accepted unit.parent accepted := .root next.parent_eq
      obtain ⟨after, performed⟩ := sound.exists_gain next.holds lineage rooted.last replayed
      have follows := rooted.rooted next.holds (next.parent_eq ▸ rooted.last_not_pending)
      have overlays := DecisionUnit.overlays_gain performed
      have own : manager.lastAccepted.overlay unit = unit.effect := by
        rw [DecisionUnit.overlay, execution]
      rw [own] at overlays
      refine ⟨unit.effect, after, ?_, unit.disjoint_effect, overlays, ?_⟩
      · simp [Batch.place, Batch.setAccepted]
      · have longer := replay_concat origin rooted.last follows
        rw [replayed] at longer
        exact longer.trans performed
  | @option proposal _ choice next kind decides =>
      have tip := rooted.rooted next.holds (next.parent_eq ▸ rooted.last_not_pending)
      have follows := rooted.extends_of_parent decides.holds next.holds decides.parent_eq
      have same : replay origin (accepted ++ [proposal]) = some before := by
        rw [replay_concat origin rooted.last tip, replayed, DecisionUnit.gain_of_proposal kind]
        rfl
      have lineage : manager.Lineage accepted unit.parent (accepted ++ [proposal]) :=
        .child next.holds decides.parent_eq.symm (.root next.parent_eq)
      have last : (accepted ++ [proposal]).getLast? = some proposal := List.getLast?_concat
      obtain ⟨after, performed⟩ := sound.exists_gain decides.holds lineage last same
      have overlays := DecisionUnit.overlays_gain performed
      rw [DecisionUnit.overlay_of_choice decides.choice_eq] at overlays
      refine ⟨proposal.branch choice, after, ?_, proposal.disjoint_branch choice, overlays, ?_⟩
      · simp [Batch.place, Batch.setAccepted]
      · have longer := replay_concat origin last follows
        rw [same, List.append_assoc] at longer
        exact longer.trans performed

theorem Sound.settle (sound : manager.Sound origin store accepted) {plan : AcceptPlan}
    (plans : manager.Plans unit plan) :
    (manager.settle plan).1.Sound origin (store.apply plan.batch)
      (accepted ++ plan.accepted.map (·.unit)) := by
  obtain ⟨before, replayed, reads⟩ := sound.state
  obtain ⟨diff, after, batch, disjoint, overlays, longer⟩ := sound.plan_writes plans replayed
  obtain ⟨rooted, chronicle⟩ := sound.rooted.settle sound.chronicle plans
  have last : (accepted ++ plan.accepted.map (·.unit)).getLast? = some unit := by
    rw [rooted.last, lastAccepted_settle plans]
  refine { rooted, chronicle, records := ?_, undecided := ?_, state := ?_, executable := ?_ }
  · rw [batch, Store.apply_append]
    exact (sound.records.toLists.placeAll chronicle).finish last
      (fun change inside => Store.tag_of_mem_changes inside)
  · rw [lastAccepted_settle plans]
    intro kind
    cases plans with
    | unit next execution =>
        have plain := (DecisionUnit.execution_eq_effect_iff.mp execution).1
        simp [kind] at plain
    | option next proposal decides =>
        have option := DecisionUnit.isOption_of_choice? decides.choice_eq
        rw [kind] at option
        cases option
  · refine ⟨after, longer, fun key => ?_⟩
    rw [batch, ← List.append_assoc, Store.apply_append, Store.state?_changes disjoint,
      Store.state?_place, reads key]
    exact overlays key
  · refine sound.executable_after (Holds.of_settle plans) ?_
    rw [lastAccepted_settle plans]
    exact plans.lineage.2

end Manager

end DecisionLedger
