import DecisionLedger.Proofs.Displacement
import Mathlib.Data.List.Sort

/-! # Who awaits a rejection

A unit that the manager rejected by itself awaits its rejection until the driver rejects it too, or
until it is forgotten.  Which units these are can be told from the steps of a run alone.
-/

namespace DecisionLedger

namespace DecisionUnit

/-- A unit comes before another in the list of a driver: it is lower, or at one height its ID is. -/
def Precedes (left right : DecisionUnit) : Prop :=
  left.height < right.height ∨ left.height = right.height ∧ compare left.id right.id = .lt

instance : Std.Irrefl Precedes where
  irrefl unit := by simp [Precedes, Std.ReflCmp.compare_self]

instance : Std.Antisymm Precedes where
  antisymm left right first second := by
    exfalso
    rcases first with lower | ⟨level, before⟩
    · rcases second with upper | ⟨same, -⟩
      · exact UInt64.lt_asymm lower upper
      · exact UInt64.ne_of_lt lower same.symm
    · rcases second with upper | ⟨-, after⟩
      · exact UInt64.ne_of_lt upper level.symm
      · exact Ordering.noConfusion ((Std.OrientedCmp.gt_iff_lt.mpr after).symm.trans before)

end DecisionUnit

namespace RejectedUnit

/-- The order in which a driver is told of rejected units. -/
def notAfter (left right : RejectedUnit) : Bool :=
  if left.unit.height = right.unit.height then (compare left.unit.id right.unit.id).isLE
  else left.unit.height ≤ right.unit.height

variable {left middle right : RejectedUnit}

theorem notAfter_iff : left.notAfter right = true ↔
    left.unit.height < right.unit.height ∨
      left.unit.height = right.unit.height ∧ (compare left.unit.id right.unit.id).isLE = true := by
  unfold notAfter
  split
  · rename_i same
    simp [same]
  · rename_i apart
    rw [decide_eq_true_iff, UInt64.le_iff_lt_or_eq]
    simp [apart]

theorem notAfter_trans (first : left.notAfter middle = true)
    (second : middle.notAfter right = true) : left.notAfter right = true := by
  rw [notAfter_iff] at first second ⊢
  rcases first with lower | ⟨level, before⟩
  · rcases second with upper | ⟨same, -⟩
    · exact .inl (UInt64.lt_trans lower upper)
    · exact .inl (same ▸ lower)
  · rcases second with upper | ⟨same, after⟩
    · exact .inl (level ▸ upper)
    · exact .inr ⟨level.trans same, Std.TransCmp.isLE_trans before after⟩

theorem notAfter_total (left right : RejectedUnit) :
    (left.notAfter right || right.notAfter left) = true := by
  rw [Bool.or_eq_true, notAfter_iff, notAfter_iff]
  by_cases level : left.unit.height = right.unit.height
  · by_cases before : (compare left.unit.id right.unit.id).isLE = true
    · exact .inl (.inr ⟨level, before⟩)
    · have above := Std.OrientedCmp.gt_iff_lt.mp
        (Ordering.isGT_iff_eq_gt.mp (by simpa using before))
      exact .inr (.inr ⟨level.symm, by simp [above]⟩)
  · rcases UInt64.lt_or_lt_of_ne level with lower | higher
    · exact .inl (.inl lower)
    · exact .inr (.inl higher)

theorem precedes_of_notAfter (before : left.notAfter right = true)
    (apart : left.unit.id ≠ right.unit.id) : left.unit.Precedes right.unit := by
  rcases notAfter_iff.mp before with lower | ⟨level, lower⟩
  · exact .inl lower
  · rcases Ordering.isLE_iff_eq_lt_or_eq_eq.mp lower with less | same
    · exact .inr ⟨level, less⟩
    · exact absurd (Std.LawfulEqOrd.eq_of_compare same) apart

end RejectedUnit

namespace Manager

/-- A unit is remembered as rejected by the manager alone. -/
def Awaits (manager : Manager) (unit : DecisionUnit) : Prop :=
  manager.rejected[unit.id]? = some { unit, awaiting := true }

/-- The driver is told in order of those that await a rejection, and of each once. -/
theorem RecallsById.awaitingRejection_eq {manager : Manager} (byId : manager.RecallsById) :
    ∃ units : List DecisionUnit, manager.awaitingRejection = units.map (·.id) ∧
      units.Pairwise DecisionUnit.Precedes ∧ manager.awaitingRejection.Nodup ∧
      ∀ unit, unit ∈ units ↔ manager.Awaits unit := by
  let awaiting := (manager.rejected.toList.map Prod.snd).filter (·.awaiting)
  let sorted := awaiting.mergeSort RejectedUnit.notAfter
  have listed : manager.awaitingRejection = sorted.map (·.unit.id) := rfl
  have keyed : ∀ entry ∈ manager.rejected.toList, entry.2.unit.id = entry.1 := by
    rintro ⟨id, found⟩ inside
    exact byId (Std.ExtTreeMap.mem_toList_iff_getElem?_eq_some.mp inside)
  have apart : awaiting.Pairwise fun left right => left.unit.id ≠ right.unit.id := by
    refine List.Pairwise.filter _ (List.pairwise_map.mpr ?_)
    refine (Std.ExtTreeMap.distinct_keys_toList (t := manager.rejected)).imp_of_mem ?_
    intro left right first second different same
    rw [keyed left first, keyed right second] at same
    exact different (same ▸ Std.ReflCmp.compare_self)
  have once : (sorted.map (·.unit.id)).Nodup := by
    refine ((List.mergeSort_perm awaiting RejectedUnit.notAfter).map (·.unit.id)).nodup_iff.mpr ?_
    exact List.pairwise_map.mpr apart
  have ordered : sorted.Pairwise fun left right => left.notAfter right = true :=
    List.pairwise_mergeSort (@RejectedUnit.notAfter_trans) RejectedUnit.notAfter_total awaiting
  refine ⟨sorted.map (·.unit), ?_, ?_, listed ▸ once, fun unit => ?_⟩
  · rw [listed, List.map_map]
    rfl
  · refine List.pairwise_map.mpr ((ordered.and (List.pairwise_map.mp once)).imp ?_)
    exact fun both => RejectedUnit.precedes_of_notAfter both.1 both.2
  · have member (found : RejectedUnit) : found ∈ sorted ↔
        manager.rejected[found.unit.id]? = some found ∧ found.awaiting = true := by
      rw [List.mem_mergeSort, List.mem_filter, List.mem_map]
      refine and_congr_left fun _ => ⟨?_, fun known => ⟨(found.unit.id, found), ?_, rfl⟩⟩
      · rintro ⟨entry, inside, rfl⟩
        rw [keyed entry inside]
        exact Std.ExtTreeMap.mem_toList_iff_getElem?_eq_some.mp inside
      · exact Std.ExtTreeMap.mem_toList_iff_getElem?_eq_some.mpr known
    rw [List.mem_map]
    constructor
    · rintro ⟨found, inside, rfl⟩
      obtain ⟨known, awaits⟩ := (member found).mp inside
      rw [Awaits, known, ← awaits]
    · exact fun awaits => ⟨_, (member { unit, awaiting := true }).mpr ⟨awaits, rfl⟩, rfl⟩

/-- What is remembered as rejected after a step: the units that the manager was told to reject await
nothing, and all others are remembered as before, or were pending and await their rejection. -/
structure Notes (told : UnitId → Prop) (before after : Manager) : Prop where
  settled : ∀ {id : UnitId} {found : RejectedUnit}, told id → after.rejected[id]? = some found →
    found.awaiting = false
  kept : ∀ {id : UnitId} {found : RejectedUnit}, ¬told id → after.rejected[id]? = some found →
    before.rejected[id]? = some found ∨ id ∈ before.pending ∧ found.awaiting = true

section Notes

variable {told : UnitId → Prop} {manager after : Manager} {id : UnitId}

theorem Retires.notes (retires : Retires manager after) (silent : ∀ id, ¬told id) :
    Notes told manager after where
  settled said := absurd said (silent _)
  kept _ := retires.rejected

theorem Retires.halt (retires : Retires manager after) (reason : HaltReason) :
    Retires manager (after.halt reason).1 := by
  unfold Manager.halt
  split <;> exact ⟨retires.pending, retires.rejected⟩

theorem notes_acknowledge {found : RejectedUnit} :
    Notes (· = id) manager
      { manager with
        rejected := manager.rejected.insert id { found with awaiting := false } } where
  settled := by
    rintro other remembered rfl known
    simp only [Std.ExtTreeMap.getElem?_insert_self, Option.some.injEq] at known
    rw [← known]
  kept := by
    intro other remembered apart known
    simp only [Std.ExtTreeMap.getElem?_insert, Std.LawfulEqCmp.compare_eq_iff_eq,
      Ne.symm apart, if_false] at known
    exact .inl known

theorem notes_discard (unknown : manager.rejected[id]? = none) :
    Notes (· = id) manager (Manager.discard false manager id).1 where
  settled := by
    rintro other found rfl known
    rw [rejected_discard] at known
    split at known
    · cases known
      simp
    · rw [unknown] at known
      cases known
  kept := by
    intro other found apart known
    rw [rejected_discard] at known
    split at known
    · rename_i pending present
      split at present
      · cases known
        exact .inr ⟨mem_pending_of_getElem? present, by simp [apart]⟩
      · cases present
    · exact .inl known

theorem reject_of_known {found : RejectedUnit} (running : manager.halted = none)
    (known : manager.rejected[id]? = some found) :
    manager.reject id = .ok ({ manager with
      rejected := manager.rejected.insert id { found with awaiting := false } }, []) := by
  unfold Manager.reject
  rw [ensureRunning, running, known]
  rfl

theorem notes_reject {events : List Event} (done : manager.reject id = .ok (after, events)) :
    Notes (· = id) manager after := by
  cases known : manager.rejected[id]? with
  | none =>
      rcases reject_cases done with ⟨found, remembered, -⟩ | rfl
      · rw [known] at remembered
        cases remembered
      · exact notes_discard known
  | some found =>
      cases halted : manager.halted with
      | none =>
          rw [reject_of_known halted known] at done
          cases done
          exact notes_acknowledge
      | some reason =>
          rw [reject_of_halted halted] at done
          cases done

theorem lookup_of_pending {unit : DecisionUnit} {store : Store}
    (present : manager.pending[id]?.map (·.unit) = some unit) :
    manager.lookup store id = .ok (unit, .processing) := by
  obtain ⟨pending, known, rfl⟩ := Option.map_eq_some_iff.mp present
  unfold Manager.lookup
  rw [known]

theorem lookup_acknowledge {found : RejectedUnit} (known : manager.rejected[id]? = some found)
    (store : Store) (other : UnitId) :
    Manager.lookup { manager with
      rejected := manager.rejected.insert id { found with awaiting := false } } store other =
        manager.lookup store other := by
  have recalled :
      (manager.rejected.insert id { found with awaiting := false })[other]?.map (·.unit) =
        manager.rejected[other]?.map (·.unit) := by
    by_cases same : id = other
    · subst same
      simp [known]
    · simp [Std.ExtTreeMap.getElem?_insert, same]
  unfold Manager.lookup
  dsimp only [recent?]
  cases manager.pending[other]? with
  | some pending => rfl
  | none =>
      cases manager.recent.find? (·.id = other) with
      | some accepted => rfl
      | none =>
          revert recalled
          cases manager.rejected[other]? <;>
            cases (manager.rejected.insert id { found with awaiting := false })[other]? <;>
            simp_all

theorem awaitingRejection_acknowledge (byId : manager.RecallsById) {found : RejectedUnit}
    (known : manager.rejected[id]? = some found) :
    Manager.awaitingRejection { manager with
      rejected := manager.rejected.insert id { found with awaiting := false } } =
        manager.awaitingRejection.filter (· ≠ id) := by
  have later : Manager.RecallsById { manager with
      rejected := manager.rejected.insert id { found with awaiting := false } } := by
    intro other remembered here
    simp only [Std.ExtTreeMap.getElem?_insert, Std.LawfulEqCmp.compare_eq_iff_eq] at here
    split at here
    · rename_i same
      cases here
      exact (byId known).trans same
    · exact byId here
  obtain ⟨before, listed, sorted, -, awaits⟩ := byId.awaitingRejection_eq
  obtain ⟨units, relisted, resorted, -, still⟩ := later.awaitingRejection_eq
  suffices same : units = before.filter (·.id ≠ id) by
    rw [relisted, listed, same, List.filter_map]
    rfl
  refine List.Pairwise.eq_of_mem_iff resorted (sorted.filter _) fun unit => ?_
  rw [still, List.mem_filter, awaits, Awaits, Awaits]
  simp only [Std.ExtTreeMap.getElem?_insert, Std.LawfulEqCmp.compare_eq_iff_eq]
  by_cases same : id = unit.id
  · simp [same]
  · simp [same, Ne.symm same]

end Notes

section Turn

variable {origin : StateUpdates} {manager after : Manager} {store other : Store}
  {accepted further : List DecisionUnit} {unit : DecisionUnit} {told : UnitId → Prop}

/-- A pending unit goes in a turn that does not accept it. -/
structure Loses (before after : Manager) (further : List DecisionUnit) (unit : DecisionUnit) :
    Prop where
  held : before.Holds unit
  gone : ¬after.Holds unit
  apart : ∀ other ∈ further, other.id ≠ unit.id

theorem Turn.isPast_mono (sound : manager.Sound origin store accepted)
    (next : after.Sound origin other (accepted ++ further))
    (turn : manager.Turn store after further) {height : Height} (past : manager.IsPast height) :
    after.IsPast height := by
  have grown := sound.height_lastAccepted next
  rw [IsPast, turn.config_eq sound]
  exact Height.distance_mono (UInt64.le_iff_toNat_le.mpr (by omega)) past

theorem Turn.barred_of_loses (sound : manager.Sound origin store accepted)
    (next : after.Sound origin other (accepted ++ further))
    (turn : manager.Turn store after further)
    (before : manager.Loses after further unit ∨ manager.Recalls unit) :
    after.Barred (accepted ++ further) unit := by
  rcases before with loses | recalls
  · refine turn.barred sound loses.held loses.gone fun inside => ?_
    rcases List.mem_append.mp inside with old | new
    · exact (sound.rooted.settled old).1 loses.held.mem
    · exact loses.apart unit new rfl
  · refine Barred.turn sound next turn ⟨fun holds => ?_, fun inside => ?_, .inl recalls⟩
    · exact sound.rooted.rejected recalls.mem holds.mem
    · exact (sound.rooted.settled inside).2 recalls.mem

/-- After a turn those await a rejection that did before or were lost in it, less those that the
manager was told to reject, and those that are past. -/
theorem Turn.awaits_iff (sound : manager.Sound origin store accepted)
    (next : after.Sound origin other (accepted ++ further)) (byId : manager.RecallsById)
    (recent : manager.RecallsRecent) (turn : manager.Turn store after further)
    (notes : Notes told manager after) :
    after.Awaits unit ↔ ((manager.Loses after further unit ∨ manager.Awaits unit) ∧
      ¬told unit.id) ∧ ¬after.IsPast unit.height := by
  constructor
  · intro awaits
    have recalls : after.Recalls unit := ⟨_, awaits, rfl⟩
    have untold : ¬told unit.id := by
      intro said
      cases notes.settled said awaits
    refine ⟨⟨?_, untold⟩, turn.recallsRecent sound recent awaits⟩
    rcases notes.kept untold awaits with before | ⟨present, -⟩
    · exact .inr before
    · refine .inl ⟨?_, fun holds => next.rooted.rejected recalls.mem holds.mem, ?_⟩
      · rcases (turn.recalls_cases sound byId awaits).2 with before | held
        · exact absurd present (sound.rooted.rejected before.mem)
        · exact held
      · intro other inside same
        exact (next.rooted.settled (List.mem_append_right _ inside)).2 (same ▸ recalls.mem)
  · rintro ⟨⟨before, untold⟩, near⟩
    have recalled (awaits : manager.Awaits unit) : manager.Recalls unit := ⟨_, awaits, rfl⟩
    have barred := turn.barred_of_loses sound next (before.imp_right recalled)
    have knew : manager.Knows accepted unit := by
      rcases before with loses | awaits
      · exact .inl loses.held
      · exact .inr (.inr (recalled awaits))
    rcases turn.knows_or_past sound (.inl knew) with (holds | inside | recalls) | past
    · exact absurd holds barred.notHolds
    · exact absurd inside barred.notAccepted
    · obtain ⟨found, known, rfl⟩ := recalls
      suffices found.awaiting = true by rwa [Awaits, ← this]
      rcases notes.kept untold known with still | ⟨-, awaiting⟩
      · rcases before with loses | awaits
        · exact absurd loses.held.mem (sound.rooted.rejected (Recalls.mem ⟨_, still, rfl⟩))
        · rw [Awaits, still] at awaits
          rw [Option.some.inj awaits]
      · exact awaiting
    · exact absurd past near

end Turn

end Manager

section Step

variable {ω : Type} {host : LawfulHost ω} {origin : StateUpdates} {situation : Manager × ω}
  {accepted further : List DecisionUnit} {unit : DecisionUnit}

/-- A step rejects a pending unit: the unit is neither pending nor accepted after it. -/
structure Step.Rejects (step : Step host) (situation : Manager × ω) (unit : DecisionUnit) :
    Prop where
  pending : host.lookup situation unit.id = .ok (unit, .processing)
  notPending : host.lookup (step.perform situation) unit.id ≠ .ok (unit, .processing)
  notAccepted : host.lookup (step.perform situation) unit.id ≠ .ok (unit, .accepted)

/-- In a step the manager is told to reject a unit, and has no objection. -/
def Step.Dismisses (step : Step host) (situation : Manager × ω) (id : UnitId) : Prop :=
  step = .reject id ∧ (Call.reject id).answer host situation = .ok ()

theorem Step.rejects_iff (step : Step host)
    (sound : situation.1.Sound origin (host.store situation.2) accepted)
    (byId : situation.1.RecallsById)
    (turn : situation.1.Turn (host.store situation.2) (step.perform situation).1 further)
    (next : (step.perform situation).1.Sound origin (host.store (step.perform situation).2)
      (accepted ++ further)) :
    step.Rejects situation unit ↔
      situation.1.Loses (step.perform situation).1 further unit := by
  have later : (step.perform situation).1.RecallsById := turn.recallsById sound byId
  constructor
  · rintro ⟨pending, notPending, notAccepted⟩
    obtain ⟨-, held⟩ := (sound.lookup_eq_ok_iff byId).mp pending
    refine ⟨held, fun holds => ?_, fun other inside same => ?_⟩
    · exact notPending ((next.lookup_eq_ok_iff later).mpr ⟨rfl, holds⟩)
    · cases (turn.holds_of_mem inside).eq_of_id held same
      exact notAccepted
        ((next.lookup_eq_ok_iff later).mpr ⟨rfl, List.mem_append_right _ inside⟩)
  · intro loses
    have barred := turn.barred_of_loses sound next (.inl loses)
    refine ⟨(sound.lookup_eq_ok_iff byId).mpr ⟨rfl, loses.held⟩, fun found => ?_,
      fun found => ?_⟩
    · exact barred.notHolds ((next.lookup_eq_ok_iff later).mp found).2
    · exact barred.notAccepted ((next.lookup_eq_ok_iff later).mp found).2

theorem Manager.Sound.retires_accepting {manager : Manager} {world : ω} {id : UnitId}
    {result : Except ManagerError Unit × Manager × ω}
    (sound : manager.Sound origin (host.store world) accepted)
    (accepting : Accepting host manager id world result) : Retires manager result.2.1 := by
  cases accepting with
  | refused => exact .refl _
  | unwritten => exact (Retires.refl _).halt _
  | committed planned _ final =>
      obtain ⟨decided, -, plans⟩ := sound.rooted.plan_cases sound.records.toLists planned
      have retires := sound.rooted.retires_settle plans
      rcases final with rfl | ⟨reason, rfl⟩
      · exact retires
      · exact retires.halt reason

theorem Step.notes_perform (step : Step host)
    (sound : situation.1.Sound origin (host.store situation.2) accepted) :
    Manager.Notes (step.Dismisses situation) situation.1 (step.perform situation).1 := by
  cases step with
  | verify unit =>
      have silent : ∀ id, ¬(verify unit : Step host).Dismisses situation id := by simp [Dismisses]
      dsimp only [perform, conclude]
      cases done : situation.1.verify (host.store situation.2) unit with
      | error error => exact (Manager.Retires.refl _).notes silent
      | ok outcome =>
          rcases Manager.verify_cases done with same | ⟨same, -⟩
          · exact same ▸ (Manager.Retires.refl _).notes silent
          · refine ⟨fun said => absurd said (silent _), fun _ known => .inl ?_⟩
            rw [same] at known
            exact known
  | accept id =>
      have retires := sound.retires_accepting (Manager.accept_cases host situation.1 id situation.2)
      exact retires.notes (by simp [Dismisses])
  | reject id =>
      dsimp only [perform, conclude]
      cases done : situation.1.reject id with
      | error error =>
          refine (Manager.Retires.refl _).notes ?_
          rintro other ⟨same, answered⟩
          cases same
          simp [Call.answer, done, Except.map] at answered
      | ok outcome =>
          have notes := Manager.notes_reject done
          refine ⟨fun said => notes.settled ?_, fun untold => notes.kept fun same => ?_⟩
          · cases said.1
            rfl
          · subst same
            exact untold ⟨rfl, by simp [Call.answer, done, Except.map]⟩
  | drift change kept => exact (Manager.Retires.refl _).notes (by simp [Dismisses])

end Step

/-- The rejection of a unit that awaits one: the manager agrees, the unit leaves the list, and all
that changes is that it awaits nothing any more. -/
structure Acknowledges {ω : Type} (host : LawfulHost ω) (id : UnitId) (before after : Manager × ω) :
    Prop where
  answer : (Call.reject id).answer host before = .ok ()
  listed : after.1.awaitingRejection = before.1.awaitingRejection.filter (· ≠ id)
  changed : ∃ unit : DecisionUnit, before.1.rejected[id]? = some { unit, awaiting := true } ∧
    after = ({ before.1 with
      rejected := before.1.rejected.insert id { unit, awaiting := false } }, before.2)
  lookup : ∀ other, host.lookup after other = host.lookup before other

theorem Manager.RecallsById.acknowledges {ω : Type} {host : LawfulHost ω} {situation : Manager × ω}
    (byId : situation.1.RecallsById) {id : UnitId} (listed : id ∈ situation.1.awaitingRejection)
    (running : situation.1.halted = none) :
    Acknowledges host id situation (((Call.reject id).step host).perform situation) := by
  obtain ⟨found, known, awaits⟩ := byId.mem_awaitingRejection_iff.mp listed
  have rejects := reject_of_known running known
  have performed : ((Call.reject id).step host).perform situation = ({ situation.1 with
      rejected := situation.1.rejected.insert id { found with awaiting := false } },
      situation.2) := by
    dsimp only [Call.step, Step.perform]
    rw [rejects]
    rfl
  rw [performed]
  refine { answer := ?_, listed := awaitingRejection_acknowledge byId known,
           changed := ⟨found.unit, by rw [known, ← awaits], rfl⟩,
           lookup := lookup_acknowledge known _ }
  dsimp only [Call.answer]
  rw [rejects]
  rfl

section Run

variable {ω : Type} {host : LawfulHost ω} {config : Configuration} {origin : StateUpdates}
  {unit : DecisionUnit}

namespace Tenure

/-- The step that is taken at a moment of a run, and the situation that it is taken in. -/
def Takes (tenure : Tenure host config origin) (steps : List (Step host)) (moment : Nat)
    (step : Step host) (situation : Manager × ω) : Prop :=
  steps[moment]? = some step ∧ tenure.run (steps.take moment) = situation

/-- A unit was rejected at some moment, and neither then nor later was the manager told to. -/
def Outstanding (tenure : Tenure host config origin) (steps : List (Step host))
    (unit : DecisionUnit) : Prop :=
  ∃ moment step situation, tenure.Takes steps moment step situation ∧
    step.Rejects situation unit ∧
    ∀ later other reached, moment ≤ later → tenure.Takes steps later other reached →
      ¬other.Dismisses reached unit.id

section Moments

variable {tenure : Tenure host config origin} {steps : List (Step host)} {last step : Step host}
  {moment : Nat} {situation : Manager × ω}

theorem Takes.lt (takes : tenure.Takes steps moment step situation) : moment < steps.length :=
  (List.getElem?_eq_some_iff.mp takes.1).1

theorem takes_concat : tenure.Takes (steps ++ [last]) moment step situation ↔
    tenure.Takes steps moment step situation ∨
      moment = steps.length ∧ step = last ∧ situation = tenure.run steps := by
  rcases Nat.lt_trichotomy moment steps.length with before | rfl | beyond
  · simp [Takes, List.getElem?_append_left before,
      List.take_append_of_le_length (Nat.le_of_lt before), Nat.ne_of_lt before]
  · simp [Takes, eq_comm]
  · have outside : (steps ++ [last]).length ≤ moment := by simp; omega
    have beside : steps.length ≤ moment := by omega
    simp [Takes, List.getElem?_eq_none outside, List.getElem?_eq_none beside, Nat.ne_of_gt beyond]

theorem outstanding_nil : ¬tenure.Outstanding [] unit := by
  rintro ⟨moment, step, situation, takes, -⟩
  exact absurd takes.lt (Nat.not_lt_zero _)

/-- One step more: a rejection may be added, and those that the manager is told are settled. -/
theorem outstanding_concat : tenure.Outstanding (steps ++ [last]) unit ↔
    (last.Rejects (tenure.run steps) unit ∨ tenure.Outstanding steps unit) ∧
      ¬last.Dismisses (tenure.run steps) unit.id := by
  constructor
  · rintro ⟨moment, step, situation, takes, rejects, silent⟩
    have now : tenure.Takes (steps ++ [last]) steps.length last (tenure.run steps) :=
      takes_concat.mpr (.inr ⟨rfl, rfl, rfl⟩)
    have within : moment ≤ steps.length := by
      have below := takes.lt
      rw [List.length_append, List.length_singleton] at below
      omega
    refine ⟨?_, silent _ _ _ within now⟩
    rcases takes_concat.mp takes with earlier | ⟨-, rfl, rfl⟩
    · exact .inr ⟨moment, step, situation, earlier, rejects, fun later other reached after taken =>
        silent later other reached after (takes_concat.mpr (.inl taken))⟩
    · exact .inl rejects
  · rintro ⟨rejects | ⟨moment, step, situation, takes, rejects, silent⟩, quiet⟩
    · refine ⟨_, _, _, takes_concat.mpr (.inr ⟨rfl, rfl, rfl⟩), rejects, ?_⟩
      intro later other reached after taken
      rcases takes_concat.mp taken with earlier | ⟨-, rfl, rfl⟩
      · exact absurd earlier.lt (Nat.not_lt.mpr after)
      · exact quiet
    · refine ⟨moment, step, situation, takes_concat.mpr (.inl takes), rejects, ?_⟩
      intro later other reached after taken
      rcases takes_concat.mp taken with earlier | ⟨-, rfl, rfl⟩
      · exact silent later other reached after earlier
      · exact quiet

end Moments

variable (tenure : Tenure host config origin) (steps : List (Step host))

theorem awaits_iff (unit : DecisionUnit) : (tenure.run steps).1.Awaits unit ↔
    tenure.Outstanding steps unit ∧ ¬(tenure.run steps).1.IsPast unit.height := by
  induction steps using List.reverseRecOn with
  | nil =>
      obtain ⟨-, tip, same, -⟩ := tenure.begins
      have fresh : (tenure.run []).1 = .initial config tip := same
      simp [outstanding_nil, fresh, Manager.Awaits, Manager.initial]
  | append_singleton steps last ih =>
      obtain ⟨accepted, sound, byId, recent⟩ := tenure.recalls_run steps
      obtain ⟨further, turn, next⟩ := last.turn_perform (tenure.run steps) sound
      have past : (tenure.run steps).1.IsPast unit.height → _ := turn.isPast_mono sound next
      rw [outstanding_concat, run, Step.run_concat, ← run,
        turn.awaits_iff sound next byId recent (last.notes_perform sound),
        ← last.rejects_iff sound byId turn next, ih]
      tauto

/-- What a driver is told of rejections after some steps. -/
structure Awaiting : Prop where
  /-- The driver is told in order, and of each once, of exactly those units whose rejection is
  outstanding and that are within the window below the last accepted unit. -/
  listed : ∃ units : List DecisionUnit,
    (tenure.run steps).1.awaitingRejection = units.map (·.id) ∧
      units.Pairwise DecisionUnit.Precedes ∧ (tenure.run steps).1.awaitingRejection.Nodup ∧
      ∀ unit, unit ∈ units ↔ tenure.Outstanding steps unit ∧
        (tenure.run steps).1.lastAccepted.height.distance unit.height ≤ config.window
  /-- Unless the manager has halted, each of them can be rejected, which changes nothing else. -/
  acknowledged : ∀ {id}, id ∈ (tenure.run steps).1.awaitingRejection →
    (tenure.run steps).1.halted = none → Acknowledges host id (tenure.run steps)
      (((Call.reject id).step host).perform (tenure.run steps))

/-- After any steps the driver is told of the rejections that are outstanding, and can make good on
each of them. -/
theorem awaiting_run : tenure.Awaiting steps := by
  obtain ⟨-, -, byId, -⟩ := tenure.recalls_run steps
  refine ⟨?_, fun listed running => byId.acknowledges listed running⟩
  obtain ⟨units, listed, sorted, once, member⟩ := byId.awaitingRejection_eq
  refine ⟨units, listed, sorted, once, fun unit => ?_⟩
  rw [member, tenure.awaits_iff steps, Manager.IsPast, tenure.config_run steps, UInt64.not_lt]

end Tenure

end Run

/-- What is said of a unit that was rejected and is remembered. -/
structure Reported {ω : Type} (host : LawfulHost ω) (situation : Manager × ω)
    (unit : DecisionUnit) : Prop where
  found : host.lookup situation unit.id = .ok (unit, .rejected)
  listed : unit.id ∈ situation.1.awaitingRejection
  acknowledged : situation.1.halted = none →
    (Call.reject unit.id).answer host situation = .ok ()

/-- What is said of a unit of which nothing is known. -/
structure Forgotten {ω : Type} (host : LawfulHost ω) (situation : Manager × ω)
    (unit : DecisionUnit) : Prop where
  missing : host.lookup situation unit.id = .error (.notFound unit.id)
  unlisted : unit.id ∉ situation.1.awaitingRejection
  refused : situation.1.halted = none →
    (Call.reject unit.id).answer host situation = .error (.notFound unit.id)

section Reports

variable {ω : Type} {host : LawfulHost ω} {origin : StateUpdates} {situation : Manager × ω}
  {accepted : List DecisionUnit} {unit : DecisionUnit} {id : UnitId}

theorem Manager.Sound.reported (sound : situation.1.Sound origin (host.store situation.2) accepted)
    (byId : situation.1.RecallsById) (awaits : situation.1.Awaits unit) :
    Reported host situation unit where
  found := (sound.lookup_eq_ok_iff byId).mpr ⟨rfl, _, awaits, rfl⟩
  listed := byId.mem_awaitingRejection_iff.mpr ⟨_, awaits, rfl⟩
  acknowledged running := by
    dsimp only [Call.answer]
    rw [reject_of_known running awaits]
    rfl

theorem Manager.Sound.forgotten (sound : situation.1.Sound origin (host.store situation.2) accepted)
    (byId : situation.1.RecallsById) (notPending : unit.id ∉ situation.1.pending)
    (notRejected : unit.id ∉ situation.1.rejected)
    (notAccepted : ∀ other ∈ accepted, other.id ≠ unit.id) : Forgotten host situation unit where
  missing := by
    rcases sound.lookup_cases byId unit.id with ⟨other, status, -, same, finds⟩ | ⟨missing, -⟩
    · rcases finds.knows with holds | inside | recalls
      · exact absurd (same ▸ holds.mem) notPending
      · exact absurd same (notAccepted other inside)
      · exact absurd (same ▸ recalls.mem) notRejected
    · exact missing
  unlisted listed := by
    obtain ⟨found, known, -⟩ := byId.mem_awaitingRejection_iff.mp listed
    rw [Std.ExtTreeMap.getElem?_eq_none notRejected] at known
    cases known
  refused running := by
    dsimp only [Call.answer]
    unfold Manager.reject
    rw [ensureRunning, running, Std.ExtTreeMap.getElem?_eq_none notRejected,
      Std.ExtTreeMap.getElem?_eq_none notPending]
    rfl

theorem Manager.Sound.reported_accept
    (sound : situation.1.Sound origin (host.store situation.2) accepted)
    (byId : situation.1.RecallsById) (recent : situation.1.RecallsRecent)
    (rejects : ((Call.accept id).step host).Rejects situation unit) :
    let after := ((Call.accept id).step host).perform situation
    (¬situation.1.Forgets after.1 unit → Reported host after unit) ∧
      (situation.1.Forgets after.1 unit → Forgotten host after unit) := by
  intro after
  obtain ⟨further, turn, next⟩ := ((Call.accept id).step host).turn_perform situation sound
  have later : after.1.RecallsById := turn.recallsById sound byId
  have loses := (Step.rejects_iff _ sound byId turn next).mp rejects
  have untold : ¬((Call.accept id).step host).Dismisses situation unit.id := by
    simp [Step.Dismisses, Call.step]
  have awaits : after.1.Awaits unit ↔ _ :=
    turn.awaits_iff sound next byId recent (Step.notes_perform _ sound)
  constructor
  · intro kept
    refine next.reported later (awaits.mpr ⟨⟨.inl loses, untold⟩, fun past => kept ?_⟩)
    exact turn.forgets sound next loses.held past
  · intro forgets
    have past : after.1.IsPast unit.height := by
      have above := forgets.height
      rw [IsPast, turn.config_eq sound, forgets.window, UInt64.lt_iff_toNat_lt,
        Height.toNat_distance]
      change 0 < _
      omega
    refine next.forgotten later (fun present => ?_) (fun gone => ?_) (fun other inside => ?_)
    · obtain ⟨_, continues⟩ := ((Call.accept id).step host).continues_perform situation sound
      obtain ⟨other, holds, same⟩ := next.rooted.mem_pending_iff.mp present
      have before := continues.stays (same ▸ loses.held.mem) holds
      exact loses.gone (before.eq_of_id loses.held same ▸ holds)
    · obtain ⟨found, known⟩ := Option.isSome_iff_exists.mp
        (Std.ExtTreeMap.mem_iff_isSome_getElem?.mp gone)
      obtain ⟨same, before⟩ := turn.recalls_cases sound byId known
      rcases before with recalls | held
      · exact sound.rooted.rejected (same ▸ recalls.mem) loses.held.mem
      · cases held.eq_of_id loses.held same
        exact turn.recallsRecent sound recent known past
    · rcases List.mem_append.mp inside with old | new
      · exact fun same => (sound.rooted.settled old).1 (same ▸ loses.held.mem)
      · exact loses.apart other new

theorem Manager.Sound.rejects_of_depends
    (sound : situation.1.Sound origin (host.store situation.2) accepted)
    (byId : situation.1.RecallsById) (recent : situation.1.RecallsRecent)
    (claimed : situation.1.Claimed)
    (committed : Committed ((Call.accept id).answer host situation))
    (present : situation.1.pending[unit.id]?.map (·.unit) = some unit)
    (depends : ∀ {units rivals}, situation.1.Advance id units rivals →
      situation.1.Depends rivals unit.id ∧ ∃ last, units.getLast? = some last ∧
        last.height.distance unit.height ≤ situation.1.config.window) :
    ((Call.accept id).step host).Rejects situation unit := by
  obtain ⟨units, rivals, advance, displaces⟩ : ∃ units rivals,
      situation.1.Advance id units rivals ∧ Displaces host units rivals situation
        (((Call.accept id).step host).perform situation) :=
    sound.displaces_accept byId recent claimed (accept_cases host _ id _) committed
  obtain ⟨depends, last, final, near⟩ := depends advance
  obtain ⟨pending, known, same⟩ := Option.map_eq_some_iff.mp present
  have tip := displaces.last
  rw [final, Option.some.injEq] at tip
  have gone := (displaces.status depends known).1.mpr (by rwa [← tip, same])
  rw [same] at gone
  refine ⟨lookup_of_pending present, fun found => ?_, fun found => ?_⟩
  · cases gone.symm.trans found
  · cases gone.symm.trans found

end Reports

/-- Whatever the window, and after any steps: whoever an acceptance rejects is found as rejected,
listed for the driver, and can be rejected by it; except for those beside a proposal whose option is
accepted while nothing below the last accepted unit is remembered. -/
theorem Tenure.reported_run {ω : Type} {host : LawfulHost ω} {config : Configuration}
    {origin : StateUpdates} (tenure : Tenure host config origin) (steps : List (Step host))
    {id : UnitId} {unit : DecisionUnit}
    (rejects : ((Call.accept id).step host).Rejects (tenure.run steps) unit) :
    let after := ((Call.accept id).step host).perform (tenure.run steps)
    (¬(tenure.run steps).1.Forgets after.1 unit → Reported host after unit) ∧
      ((tenure.run steps).1.Forgets after.1 unit → Forgotten host after unit) := by
  obtain ⟨_, sound, byId, recent⟩ := tenure.recalls_run steps
  exact sound.reported_accept byId recent rejects

namespace Crossing

theorem rejects_right :
    ((Call.accept left.id).step LawfulHost.bare).Rejects (begun.run verified) right := by
  obtain ⟨-, own, target, -⟩ := verified_eq
  obtain ⟨-, apart, under⟩ := plan_left_eq
  obtain ⟨_, sound, byId, recent⟩ := begun.recalls_run verified
  obtain ⟨other, known, same⟩ := Option.map_eq_some_iff.mp target
  refine sound.rejects_of_depends byId recent (begun.claimed_run verified) (accept_left ▸ .heard)
    target fun advance => ?_
  cases advance with
  | unit here _ =>
      rw [here, Option.map_some, Option.some.injEq] at own
      refine ⟨.root ⟨apart, other, known, same ▸ under⟩ (Manager.mem_pending_of_getElem? known),
        left, by rw [own]; rfl, ?_⟩
      rw [begun.config_run verified]
      decide
  | option here isOption _ =>
      rw [here, Option.map_some, Option.some.injEq] at own
      rw [own] at isOption
      cases isOption

/-- The unit that is left behind is reported, and can be rejected again. -/
theorem right_reported :
    ((Call.accept left.id).step LawfulHost.bare).Rejects (begun.run verified) right ∧
      Reported LawfulHost.bare
        (((Call.accept left.id).step LawfulHost.bare).perform (begun.run verified)) right := by
  refine ⟨rejects_right, (begun.reported_run verified rejects_right).1 fun forgets => ?_⟩
  have window := forgets.window
  rw [begun.config_run verified] at window
  exact absurd window (by decide)

end Crossing

namespace Forgetful

/-- The unit beside the proposal is rejected by the acceptance of the option, and nothing tells of
it afterwards. -/
theorem beside_unreported :
    Manager.Committed ((Call.accept option.id).answer LawfulHost.bare (begun.run verified)) ∧
      ((Call.accept option.id).step LawfulHost.bare).Rejects (begun.run verified) beside ∧
      let after := ((Call.accept option.id).step LawfulHost.bare).perform (begun.run verified)
      after.1.halted = none ∧ LawfulHost.bare.lookup after beside.id ≠ .ok (beside, .rejected) ∧
        beside.id ∉ after.1.awaitingRejection ∧
        (Call.reject beside.id).answer LawfulHost.bare after = .error (.notFound beside.id) := by
  obtain ⟨processing, present, planned, running, far, apart⟩ := verified_eq
  obtain ⟨_, sound, byId, recent⟩ := begun.recalls_run verified
  have unverified := begun.unverified_of_accept verified present planned running apart rfl far
  rw [Tenure.run, Step.run_concat, ← Tenure.run] at unverified
  have unfound {status : UnitStatus} (verified : status ≠ .unverified) :
      LawfulHost.bare.lookup (((Call.accept option.id).step LawfulHost.bare).perform
        (begun.run Forgetful.verified)) beside.id ≠ .ok (beside, status) := by
    intro found
    have here := Manager.status_of_lookup found
    exact verified (Except.ok.inj (here.symm.trans unverified))
  have rejects : ((Call.accept option.id).step LawfulHost.bare).Rejects (begun.run verified)
      beside := by
    exact ⟨Manager.lookup_of_pending present, unfound (by decide), unfound (by decide)⟩
  obtain ⟨plan, done, -⟩ := Option.map_eq_some_iff.mp planned
  have accepts := LawfulHost.accept_bare running (toOption_eq_some_iff.mp done)
  obtain ⟨reported, forgotten⟩ := sound.reported_accept byId recent rejects
  have unreported : LawfulHost.bare.lookup _ beside.id ≠ .ok (beside, .rejected) :=
    unfound (by decide)
  have unknown := forgotten (Classical.byContradiction fun kept => unreported (reported kept).found)
  have stays : (((Call.accept option.id).step LawfulHost.bare).perform
      (begun.run verified)).1.halted = none := by
    dsimp only [Call.step, Step.perform]
    rw [accepts]
    exact ((begun.run verified).1.settle_settings plan).1.trans running
  refine ⟨?_, rejects, stays, unreported, unknown.unlisted, unknown.refused stays⟩
  have answered : (Call.accept option.id).answer LawfulHost.bare (begun.run verified) = .ok () :=
    congrArg Prod.fst accepts
  exact answered ▸ .heard

end Forgetful

end DecisionLedger
