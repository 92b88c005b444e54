import DecisionLedger.Proofs.Recollection

/-! # The life of a unit

A unit is verified once, then accepted or rejected, and stays what it became.  A rejected unit may
be forgotten, but it does not come back.  Only where nothing below the last accepted unit is
remembered can a unit be rejected and forgotten in one call: beside a proposal, when an option of
that proposal is accepted.
-/

namespace DecisionLedger

namespace Manager

/-- What a manager and the accepted units say of a unit. -/
def Finds (manager : Manager) (accepted : List DecisionUnit) (unit : DecisionUnit) :
    UnitStatus → Prop
  | .processing => manager.Holds unit
  | .accepted => unit ∈ accepted
  | .rejected => manager.Recalls unit
  | .unverified => False

section Lookup

variable {origin : StateUpdates} {manager after : Manager} {store other : Store}
  {accepted further : List DecisionUnit} {unit : DecisionUnit} {id : UnitId}

theorem Finds.knows {status : UnitStatus} (finds : manager.Finds accepted unit status) :
    manager.Knows accepted unit := by
  cases status with
  | processing => exact .inl finds
  | accepted => exact .inr (.inl finds)
  | rejected => exact .inr (.inr finds)
  | unverified => exact finds.elim

theorem Sound.lookup_cases (sound : manager.Sound origin store accepted)
    (byId : manager.RecallsById) (id : UnitId) :
    (∃ unit status, manager.lookup store id = .ok (unit, status) ∧ unit.id = id ∧
        manager.Finds accepted unit status) ∨
      manager.lookup store id = .error (.notFound id) ∧ id ∉ manager.pending ∧
        id ∉ manager.rejected ∧ ∀ unit ∈ accepted, unit.id ≠ id := by
  unfold lookup
  cases present : manager.pending[id]? with
  | some pending =>
      obtain ⟨unit, holds, same, rfl⟩ := sound.rooted.exists_of_getElem? present
      exact .inl ⟨unit, .processing, rfl, same, holds⟩
  | none =>
      cases lately : manager.recent? id with
      | some unit =>
          obtain ⟨inside, same⟩ := recent?_eq_some lately
          exact .inl ⟨unit, .accepted, rfl, same, sound.rooted.recent unit inside⟩
      | none =>
          cases gone : manager.rejected[id]? with
          | some found =>
              have same := byId gone
              exact .inl ⟨found.unit, .rejected, rfl, same, found, same ▸ gone, rfl⟩
          | none =>
              dsimp only
              rw [sound.records.unit?]
              cases stored : accepted.find? (·.id = id) with
              | some unit =>
                  have same : unit.id = id := by simpa using List.find?_some stored
                  exact .inl ⟨unit, .accepted, rfl, same, List.mem_of_find?_eq_some stored⟩
              | none =>
                  refine .inr ⟨rfl, ?_, ?_, ?_⟩
                  · simp [Std.ExtTreeMap.mem_iff_isSome_getElem?, present]
                  · simp [Std.ExtTreeMap.mem_iff_isSome_getElem?, gone]
                  · simpa using stored

/-- No two units of one ID are known, and none is known in two ways. -/
theorem Sound.finds_unique (sound : manager.Sound origin store accepted) {further : DecisionUnit}
    {status later : UnitStatus} (finds : manager.Finds accepted unit status)
    (also : manager.Finds accepted further later) (same : unit.id = further.id) :
    unit = further ∧ status = later := by
  have linked := sound.rooted.toLinked
  cases status with
  | unverified => exact finds.elim
  | processing =>
      cases later with
      | unverified => exact also.elim
      | processing => exact ⟨Holds.eq_of_id finds also same, rfl⟩
      | accepted => exact absurd (same ▸ Holds.mem finds) (linked.settled also).1
      | rejected => exact absurd (Holds.mem finds) (linked.rejected (same ▸ Recalls.mem also))
  | accepted =>
      cases later with
      | unverified => exact also.elim
      | processing => exact absurd (same ▸ Holds.mem also) (linked.settled finds).1
      | accepted => exact ⟨sound.chronicle.eq_of_id finds also same, rfl⟩
      | rejected => exact absurd (same ▸ Recalls.mem also) (linked.settled finds).2
  | rejected =>
      cases later with
      | unverified => exact also.elim
      | processing => exact absurd (Holds.mem also) (linked.rejected (same ▸ Recalls.mem finds))
      | accepted => exact absurd (same ▸ Recalls.mem finds) (linked.settled also).2
      | rejected =>
          obtain ⟨found, known, rfl⟩ := finds
          obtain ⟨again, here, rfl⟩ := also
          rw [same, here] at known
          cases known
          exact ⟨rfl, rfl⟩

theorem Sound.lookup_eq_ok_iff (sound : manager.Sound origin store accepted)
    (byId : manager.RecallsById) {status : UnitStatus} :
    manager.lookup store id = .ok (unit, status) ↔
      unit.id = id ∧ manager.Finds accepted unit status := by
  rcases sound.lookup_cases byId id with
    ⟨own, as, found, same, finds⟩ | ⟨missing, notPending, notRejected, notAccepted⟩
  · rw [found]
    constructor
    · intro equal
      cases equal
      exact ⟨same, finds⟩
    · rintro ⟨here, also⟩
      obtain ⟨rfl, rfl⟩ := sound.finds_unique finds also (same.trans here.symm)
      rfl
  · rw [missing]
    constructor
    · intro equal
      cases equal
    · rintro ⟨rfl, finds⟩
      rcases finds.knows with holds | inside | recalls
      · exact absurd holds.mem notPending
      · exact absurd rfl (notAccepted unit inside)
      · exact absurd recalls.mem notRejected

theorem status_of_lookup {status : UnitStatus}
    (found : manager.lookup store id = .ok (unit, status)) :
    manager.status store id = .ok status := by
  rw [Manager.status, found]

theorem status_of_notFound (missing : manager.lookup store id = .error (.notFound id)) :
    manager.status store id = .ok .unverified := by
  rw [Manager.status, missing]

end Lookup

end Manager

/-- The steps that the status of a unit takes. -/
inductive UnitStatus.Advances : UnitStatus → UnitStatus → Prop where
  | stays (status : UnitStatus) : Advances status status
  | verified : Advances .unverified .processing
  | accepted : Advances .processing .accepted
  | rejected : Advances .processing .rejected
  | evicted : Advances .rejected .unverified

/-- A unit beside a proposal is forgotten at once: an option of the proposal was accepted, and
nothing below that option is remembered. -/
structure Manager.Forgets (before after : Manager) (unit : DecisionUnit) : Prop where
  window : before.config.window = 0
  option : after.lastAccepted.kind.isOption = true
  beside : unit.parent = before.lastAccepted.id
  height : unit.height.toNat + 1 = after.lastAccepted.height.toNat

namespace Manager

section Advance

variable {origin : StateUpdates} {manager after : Manager} {store other : Store}
  {accepted further : List DecisionUnit} {unit : DecisionUnit} {id : UnitId}

theorem Turn.length_further (turn : manager.Turn store after further) :
    further.length ≤ 1 ∨ ∃ proposal option, further = [proposal, option] ∧
      option.kind.isOption = true := by
  induction turn with
  | rest | hold | acknowledge | discard => exact .inl (Nat.zero_le _)
  | settle plans =>
      cases plans with
      | unit next execution => exact .inl (Nat.le_refl _)
      | option next kind decides =>
          exact .inr ⟨_, _, rfl, DecisionUnit.isOption_of_choice? decides.choice_eq⟩
  | halt reason _ ih => exact ih

/-- A pending unit that is past after a turn stood beside a proposal. -/
theorem Turn.forgets (sound : manager.Sound origin store accepted)
    (next : after.Sound origin other (accepted ++ further))
    (turn : manager.Turn store after further) (holds : manager.Holds unit)
    (past : after.IsPast unit.height) : manager.Forgets after unit := by
  have above := sound.rooted.height_lt holds
  have grown := sound.height_lastAccepted next
  rw [IsPast, turn.config_eq sound, UInt64.lt_iff_toNat_lt, Height.toNat_distance] at past
  rw [UInt64.lt_iff_toNat_lt] at above
  rcases turn.length_further with short | ⟨proposal, option, rfl, isOption⟩
  · omega
  · rw [List.length_cons, List.length_singleton] at grown
    have last : after.lastAccepted = option := by
      have top := next.rooted.last
      rw [List.getLast?_append] at top
      exact (Option.some.inj top).symm
    refine ⟨UInt64.toNat_inj.mp ?_, last ▸ isOption, ?_, by omega⟩
    · change manager.config.window.toNat = 0
      omega
    · -- one above the last accepted unit there is no room for a pending parent
      refine (sound.rooted.rooted holds fun present => ?_).parent_eq
      obtain ⟨parent, held, same⟩ := sound.rooted.mem_pending_iff.mp present
      have follows := (sound.rooted.extends_of_parent holds held same.symm).height_eq
      have lower := sound.rooted.height_lt held
      rw [UInt64.lt_iff_toNat_lt] at lower
      omega

theorem Turn.holds_of_finds (turn : manager.Turn store after further)
    (finds : after.Finds (accepted ++ further) unit .accepted) :
    unit ∈ accepted ∨ manager.Holds unit :=
  (List.mem_append.mp finds).imp_right turn.holds_of_mem

theorem Turn.advances_of_finds (sound : manager.Sound origin store accepted)
    (next : after.Sound origin other (accepted ++ further))
    (turn : manager.Turn store after further) {own : DecisionUnit} {before status : UnitStatus}
    (finds : manager.Finds accepted unit before)
    (also : after.Finds (accepted ++ further) own status) (same : own.id = unit.id) :
    before.Advances status := by
  cases before with
  | unverified => exact finds.elim
  | processing =>
      cases status with
      | unverified => exact also.elim
      | processing => exact .stays _
      | accepted => exact .accepted
      | rejected => exact .rejected
  | accepted =>
      have kept : after.Finds (accepted ++ further) unit .accepted := List.mem_append_left _ finds
      obtain ⟨-, rfl⟩ := next.finds_unique kept also same.symm
      exact .stays _
  | rejected =>
      have known : own.id ∈ manager.rejected := same ▸ Recalls.mem finds
      cases status with
      | unverified => exact also.elim
      | processing =>
          rcases turn.holds_cases sound also with holds | ⟨-, unknown⟩
          · exact absurd holds.mem (sound.rooted.rejected known)
          · exact absurd known unknown
      | accepted =>
          rcases turn.holds_of_finds also with old | holds
          · exact absurd known (sound.rooted.settled old).2
          · exact absurd holds.mem (sound.rooted.rejected known)
      | rejected => exact .stays _

theorem Turn.evicted_or_forgets (sound : manager.Sound origin store accepted)
    (next : after.Sound origin other (accepted ++ further))
    (turn : manager.Turn store after further) {before : UnitStatus}
    (finds : manager.Finds accepted unit before) (gone : unit.id ∉ after.pending)
    (unrecalled : unit.id ∉ after.rejected)
    (unaccepted : ∀ own ∈ accepted ++ further, own.id ≠ unit.id) :
    before = .rejected ∨ before = .processing ∧ manager.Forgets after unit := by
  cases before with
  | unverified => exact finds.elim
  | processing =>
      refine .inr ⟨rfl, turn.forgets sound next finds ?_⟩
      rcases turn.knows_or_past sound (.inl (.inl finds)) with knows | past
      · rcases knows with holds | inside | recalls
        · exact absurd holds.mem gone
        · exact absurd rfl (unaccepted unit inside)
        · exact absurd recalls.mem unrecalled
      · exact past
  | accepted => exact absurd rfl (unaccepted unit (List.mem_append_left _ finds))
  | rejected => exact .inl rfl

theorem Turn.processing_of_finds (sound : manager.Sound origin store accepted)
    (byId : manager.RecallsById) (turn : manager.Turn store after further) {status : UnitStatus}
    (notPending : unit.id ∉ manager.pending) (notRejected : unit.id ∉ manager.rejected)
    (notAccepted : ∀ own ∈ accepted, own.id ≠ unit.id)
    (finds : after.Finds (accepted ++ further) unit status) : status = .processing := by
  cases status with
  | unverified => exact finds.elim
  | processing => rfl
  | accepted =>
      rcases turn.holds_of_finds finds with old | holds
      · exact absurd rfl (notAccepted unit old)
      · exact absurd holds.mem notPending
  | rejected =>
      obtain ⟨found, known, rfl⟩ := finds
      rcases (turn.recalls_cases sound byId known).2 with recalls | holds
      · exact absurd recalls.mem notRejected
      · exact absurd holds.mem notPending

/-- A turn takes the status of a unit one step on, unless it forgets a pending unit at once. -/
theorem Turn.advances (sound : manager.Sound origin store accepted) (byId : manager.RecallsById)
    (next : after.Sound origin other (accepted ++ further)) (later : after.RecallsById)
    (turn : manager.Turn store after further) (id : UnitId) :
    ∃ before status, manager.status store id = .ok before ∧ after.status other id = .ok status ∧
      (before.Advances status ∨ before = .processing ∧ status = .unverified ∧
        ∃ unit, manager.lookup store id = .ok (unit, .processing) ∧
          manager.Forgets after unit) := by
  rcases sound.lookup_cases byId id with
    ⟨unit, before, found, rfl, finds⟩ | ⟨missing, notPending, notRejected, notAccepted⟩
  · rcases next.lookup_cases later unit.id with
      ⟨own, status, here, same, also⟩ | ⟨absent, gone, unrecalled, unaccepted⟩
    · exact ⟨before, status, status_of_lookup found, status_of_lookup here,
        .inl (turn.advances_of_finds sound next finds also same)⟩
    · refine ⟨before, .unverified, status_of_lookup found, status_of_notFound absent, ?_⟩
      rcases turn.evicted_or_forgets sound next finds gone unrecalled unaccepted with
        rfl | ⟨rfl, forgets⟩
      · exact .inl .evicted
      · exact .inr ⟨rfl, rfl, unit, found, forgets⟩
  · refine ⟨.unverified, ?_⟩
    rcases next.lookup_cases later id with ⟨own, status, here, rfl, also⟩ | ⟨absent, -⟩
    · refine ⟨status, status_of_notFound missing, status_of_lookup here, .inl ?_⟩
      rw [turn.processing_of_finds sound byId notPending notRejected notAccepted also]
      exact .verified
    · exact ⟨.unverified, status_of_notFound missing, status_of_notFound absent, .inl (.stays _)⟩

/-- A unit that cannot become pending: it is not, it was not accepted, and it is remembered as
rejected or no higher than the last accepted unit. -/
structure Barred (manager : Manager) (accepted : List DecisionUnit) (unit : DecisionUnit) :
    Prop where
  notHolds : ¬manager.Holds unit
  notAccepted : unit ∉ accepted
  remembered : manager.Recalls unit ∨ unit.height ≤ manager.lastAccepted.height

theorem Barred.turn (sound : manager.Sound origin store accepted)
    (next : after.Sound origin other (accepted ++ further))
    (turn : manager.Turn store after further) (barred : manager.Barred accepted unit) :
    after.Barred (accepted ++ further) unit := by
  have notHolds : ¬after.Holds unit := by
    intro holds
    rcases turn.holds_cases sound holds with before | ⟨above, unknown⟩
    · exact barred.notHolds before
    · rcases barred.remembered with recalls | low
      · exact unknown recalls.mem
      · exact absurd low (UInt64.not_le.mpr above)
  have notAccepted : unit ∉ accepted ++ further := by
    intro inside
    rcases List.mem_append.mp inside with old | new
    · exact barred.notAccepted old
    · exact barred.notHolds (turn.holds_of_mem new)
  refine ⟨notHolds, notAccepted, ?_⟩
  have grown := sound.height_lastAccepted next
  rw [UInt64.le_iff_toNat_le]
  rcases barred.remembered with recalls | low
  · rcases turn.knows_or_past sound (.inl (.inr (.inr recalls))) with
      (holds | inside | still) | past
    · exact absurd holds notHolds
    · exact absurd inside notAccepted
    · exact .inl still
    · rw [IsPast, UInt64.lt_iff_toNat_lt, Height.toNat_distance] at past
      exact .inr (by omega)
  · rw [UInt64.le_iff_toNat_le] at low
    exact .inr (by omega)

theorem Turn.barred (sound : manager.Sound origin store accepted)
    (turn : manager.Turn store after further) (holds : manager.Holds unit)
    (notHolds : ¬after.Holds unit) (notAccepted : unit ∉ accepted ++ further) :
    after.Barred (accepted ++ further) unit := by
  refine ⟨notHolds, notAccepted, ?_⟩
  rcases turn.knows_or_past sound (.inl (.inl holds)) with (held | inside | recalls) | past
  · exact absurd held notHolds
  · exact absurd inside notAccepted
  · exact .inl recalls
  · rw [IsPast, UInt64.lt_iff_toNat_lt, Height.toNat_distance] at past
    exact .inr (UInt64.le_iff_toNat_le.mpr (by omega))

theorem Sound.unverified_of_settle (sound : manager.Sound origin store accepted)
    (byId : manager.RecallsById) (recent : manager.RecallsRecent) {plan : AcceptPlan}
    {decided : DecisionUnit} (plans : manager.Plans decided plan) (holds : manager.Holds unit)
    (apart : ∀ other ∈ plan.accepted.map (·.unit), other.id ≠ unit.id)
    (past : (manager.settle plan).1.IsPast unit.height) :
    (manager.settle plan).1.status (store.apply plan.batch) unit.id = .ok .unverified := by
  have next := sound.settle plans
  have turn : manager.Turn store (manager.settle plan).1 _ := .settle plans
  have later : (manager.settle plan).1.RecallsById :=
    fun known => (turn.recalls_cases sound byId known).1
  rcases next.lookup_cases later unit.id with ⟨own, status, -, same, finds⟩ | ⟨missing, -⟩
  · exfalso
    cases status with
    | unverified => exact finds.elim
    | processing =>
        cases holds.eq_of_id (Holds.of_settle plans finds) same.symm
        exact next.rooted.not_isPast finds past
    | accepted =>
        rcases List.mem_append.mp finds with old | new
        · exact (sound.rooted.settled old).1 (same ▸ holds.mem)
        · exact apart own new same
    | rejected =>
        obtain ⟨found, known, rfl⟩ := finds
        rcases (turn.recalls_cases sound byId known).2 with recalls | held
        · exact sound.rooted.rejected recalls.mem (same ▸ holds.mem)
        · cases holds.eq_of_id held same.symm
          exact turn.recallsRecent sound recent known past
  · exact status_of_notFound missing

theorem Turn.recallsById (sound : manager.Sound origin store accepted)
    (turn : manager.Turn store after further) (byId : manager.RecallsById) : after.RecallsById :=
  fun known => (turn.recalls_cases sound byId known).1

end Advance

end Manager

section Run

variable {ω : Type} {host : LawfulHost ω} {config : Configuration} {origin : StateUpdates}

/-- What a manager says of a unit in a situation. -/
def LawfulHost.lookup (host : LawfulHost ω) (situation : Manager × ω) (id : UnitId) :
    Except ManagerError (DecisionUnit × UnitStatus) :=
  situation.1.lookup (host.store situation.2) id

def LawfulHost.status (host : LawfulHost ω) (situation : Manager × ω) (id : UnitId) :
    Except ManagerError UnitStatus :=
  situation.1.status (host.store situation.2) id

/-- What the units of a manager are and may become. -/
structure Lifecycle (host : LawfulHost ω) (situation : Manager × ω) : Prop where
  /-- No unit is two of pending, remembered as rejected and stored as accepted. -/
  apart : ∀ id : UnitId, ¬(id ∈ situation.1.pending ∧ id ∈ situation.1.rejected) ∧
    ¬(id ∈ situation.1.pending ∧ (host.store situation.2).containsUnit id = true) ∧
    ¬(id ∈ situation.1.rejected ∧ (host.store situation.2).containsUnit id = true)
  /-- Whoever is asked for is found under its ID, or there is nobody. -/
  lookup : ∀ id, (∃ unit status, host.lookup situation id = .ok (unit, status) ∧ unit.id = id) ∨
    host.lookup situation id = .error (.notFound id)
  processing : ∀ {id}, host.status situation id = .ok .processing ↔ id ∈ situation.1.pending
  accepted : ∀ {id}, host.status situation id = .ok .accepted ↔
    (host.store situation.2).containsUnit id = true
  rejected : ∀ {id}, host.status situation id = .ok .rejected ↔ id ∈ situation.1.rejected
  /-- Every status advances, or a pending unit is forgotten at once. -/
  advances : ∀ (step : Step host) (id : UnitId), ∃ before after,
    host.status situation id = .ok before ∧ host.status (step.perform situation) id = .ok after ∧
      (before.Advances after ∨ before = .processing ∧ after = .unverified ∧
        ∃ unit, host.lookup situation id = .ok (unit, .processing) ∧
          situation.1.Forgets (step.perform situation).1 unit)
  /-- A rejected unit is remembered while it is within the window, and forgotten outside it. -/
  remembered : ∀ {id : UnitId} {unit : DecisionUnit},
    host.lookup situation id = .ok (unit, .rejected) →
    situation.1.lastAccepted.height.distance unit.height ≤ situation.1.config.window
  evicted : ∀ (step : Step host) {id : UnitId} {unit : DecisionUnit},
    host.lookup situation id = .ok (unit, .rejected) →
    host.status (step.perform situation) id = .ok .unverified →
    situation.1.config.window <
      (step.perform situation).1.lastAccepted.height.distance unit.height
  /-- An accepted unit stays accepted. -/
  settled : ∀ (later : List (Step host)) {id : UnitId} {unit : DecisionUnit},
    host.lookup situation id = .ok (unit, .accepted) →
    host.lookup (Step.run later situation) id = .ok (unit, .accepted)
  /-- A unit remembered as rejected is never pending or accepted again. -/
  barred : ∀ (later : List (Step host)) {id : UnitId} {unit : DecisionUnit},
    host.lookup situation id = .ok (unit, .rejected) →
    host.lookup (Step.run later situation) id ≠ .ok (unit, .processing) ∧
      host.lookup (Step.run later situation) id ≠ .ok (unit, .accepted)
  /-- A pending unit that a step took away without accepting it is never pending or accepted
  again. -/
  dropped : ∀ (step : Step host) (later : List (Step host)) {id : UnitId} {unit : DecisionUnit},
    host.lookup situation id = .ok (unit, .processing) →
    host.lookup (step.perform situation) id ≠ .ok (unit, .processing) →
    host.lookup (step.perform situation) id ≠ .ok (unit, .accepted) →
    host.lookup (Step.run (step :: later) situation) id ≠ .ok (unit, .processing) ∧
      host.lookup (Step.run (step :: later) situation) id ≠ .ok (unit, .accepted)

namespace Manager

variable {situation : Manager × ω} {accepted : List DecisionUnit} {unit : DecisionUnit}

/-- A barred unit stays barred, and is found neither pending nor accepted. -/
theorem Barred.run (barred : situation.1.Barred accepted unit)
    (sound : situation.1.Sound origin (host.store situation.2) accepted)
    (byId : situation.1.RecallsById) (later : List (Step host)) (id : UnitId) :
    host.lookup (Step.run later situation) id ≠ .ok (unit, .processing) ∧
      host.lookup (Step.run later situation) id ≠ .ok (unit, .accepted) := by
  obtain ⟨further, next, known, still⟩ := Step.run_induction
    (fun manager accepted => manager.RecallsById ∧ manager.Barred accepted unit)
    (fun sound next turn both => ⟨turn.recallsById sound both.1, both.2.turn sound next turn⟩)
    later situation sound ⟨byId, barred⟩
  constructor
  · intro found
    exact still.notHolds ((next.lookup_eq_ok_iff known).mp found).2
  · intro found
    exact still.notAccepted ((next.lookup_eq_ok_iff known).mp found).2

theorem Sound.status_eq_iff {manager : Manager} {store : Store}
    (sound : manager.Sound origin store accepted) (byId : manager.RecallsById) (id : UnitId) :
    (manager.status store id = .ok .processing ↔ id ∈ manager.pending) ∧
      (manager.status store id = .ok .accepted ↔ store.containsUnit id = true) ∧
      (manager.status store id = .ok .rejected ↔ id ∈ manager.rejected) := by
  rw [sound.records.containsUnit_iff]
  have linked := sound.rooted.toLinked
  rcases sound.lookup_cases byId id with
    ⟨unit, status, found, rfl, finds⟩ | ⟨missing, notPending, notRejected, notAccepted⟩
  · rw [status_of_lookup found]
    cases status with
    | unverified => exact finds.elim
    | processing =>
        have present := Holds.mem finds
        refine ⟨by simp [present], ?_, ?_⟩
        · simp only [Except.ok.injEq, reduceCtorEq, false_iff, not_exists, not_and]
          exact fun other inside same => (linked.settled inside).1 (same ▸ present)
        · simp only [Except.ok.injEq, reduceCtorEq, false_iff]
          exact fun gone => linked.rejected gone present
    | accepted =>
        obtain ⟨notPending, notRejected⟩ := linked.settled finds
        refine ⟨by simp [notPending], ?_, by simp [notRejected]⟩
        simp only [true_iff]
        exact ⟨unit, finds, rfl⟩
    | rejected =>
        have gone := Recalls.mem finds
        refine ⟨by simp [linked.rejected gone], ?_, by simp [gone]⟩
        simp only [Except.ok.injEq, reduceCtorEq, false_iff, not_exists, not_and]
        exact fun other inside same => (linked.settled inside).2 (same ▸ gone)
  · rw [status_of_notFound missing]
    refine ⟨by simp [notPending], ?_, by simp [notRejected]⟩
    simp only [Except.ok.injEq, reduceCtorEq, false_iff, not_exists, not_and]
    exact notAccepted

theorem Sound.apart {manager : Manager} {store : Store}
    (sound : manager.Sound origin store accepted) (id : UnitId) :
    ¬(id ∈ manager.pending ∧ id ∈ manager.rejected) ∧
      ¬(id ∈ manager.pending ∧ store.containsUnit id = true) ∧
      ¬(id ∈ manager.rejected ∧ store.containsUnit id = true) := by
  have linked := sound.rooted.toLinked
  rw [sound.records.containsUnit_iff]
  refine ⟨fun both => linked.rejected both.2 both.1, ?_, ?_⟩
  · rintro ⟨present, unit, inside, rfl⟩
    exact (linked.settled inside).1 present
  · rintro ⟨gone, unit, inside, rfl⟩
    exact (linked.settled inside).2 gone

theorem Sound.isPast_of_unverified
    (sound : situation.1.Sound origin (host.store situation.2) accepted)
    (byId : situation.1.RecallsById) (step : Step host) (recalls : situation.1.Recalls unit)
    (unverified : host.status (step.perform situation) unit.id = .ok .unverified) :
    (step.perform situation).1.IsPast unit.height := by
  obtain ⟨further, turn, next⟩ := step.turn_perform situation sound
  have later : (step.perform situation).1.RecallsById := turn.recallsById sound byId
  rcases turn.knows_or_past sound (.inl (.inr (.inr recalls))) with knows | past
  · have known : ∃ status, (step.perform situation).1.Finds (accepted ++ further) unit status ∧
        status ≠ .unverified := by
      rcases knows with holds | inside | still
      · exact ⟨.processing, holds, by simp⟩
      · exact ⟨.accepted, inside, by simp⟩
      · exact ⟨.rejected, still, by simp⟩
    obtain ⟨status, finds, verified⟩ := known
    have here := status_of_lookup ((next.lookup_eq_ok_iff later).mpr ⟨rfl, finds⟩)
    rw [LawfulHost.status, here] at unverified
    exact absurd (Except.ok.inj unverified) verified
  · exact past

theorem recalls_initial (config : Configuration) (tip : DecisionUnit) :
    (initial config tip).RecallsById ∧ (initial config tip).RecallsRecent := by
  constructor
  · intro id found known
    simp [initial] at known
  · intro id found known
    simp [initial] at known

end Manager

theorem Tenure.recalls_run (tenure : Tenure host config origin) (steps : List (Step host)) :
    ∃ accepted,
      (tenure.run steps).1.Sound origin (host.store (tenure.run steps).2) accepted ∧
        (tenure.run steps).1.RecallsById ∧ (tenure.run steps).1.RecallsRecent :=
  run_induction (fun manager _ => manager.RecallsById ∧ manager.RecallsRecent)
    (fun _ => Manager.recalls_initial config _)
    (fun sound _ turn both => ⟨turn.recallsById sound both.1, turn.recallsRecent sound both.2⟩)
    tenure steps

/-- After any calls, every unit has one status, which advances as it should, and what is decided
stays decided. -/
theorem Tenure.lifecycle_run (tenure : Tenure host config origin) (steps : List (Step host)) :
    Lifecycle host (tenure.run steps) := by
  obtain ⟨accepted, sound, byId, recent⟩ := tenure.recalls_run steps
  generalize tenure.run steps = situation at sound byId recent
  have linked := sound.rooted.toLinked
  have statuses := sound.status_eq_iff byId
  refine { apart := sound.apart, lookup := ?_, processing := (statuses _).1,
           accepted := (statuses _).2.1, rejected := (statuses _).2.2, advances := ?_,
           remembered := ?_, evicted := ?_, settled := ?_, barred := ?_, dropped := ?_ }
  · intro id
    exact (sound.lookup_cases byId id).imp
      (fun ⟨unit, status, found, same, _⟩ => ⟨unit, status, found, same⟩) And.left
  · intro step id
    obtain ⟨further, turn, next⟩ := step.turn_perform situation sound
    exact turn.advances sound byId next (turn.recallsById sound byId) id
  · intro id unit found
    obtain ⟨rfl, again, known, rfl⟩ := (sound.lookup_eq_ok_iff byId).mp found
    exact UInt64.not_lt.mp (recent known)
  · intro step id unit found unverified
    obtain ⟨further, turn, -⟩ := step.turn_perform situation sound
    obtain ⟨rfl, recalls⟩ := (sound.lookup_eq_ok_iff byId).mp found
    rw [← turn.config_eq sound]
    exact sound.isPast_of_unverified byId step recalls unverified
  · intro later id unit found
    obtain ⟨rfl, inside⟩ := (sound.lookup_eq_ok_iff byId).mp found
    obtain ⟨further, next, known⟩ := Step.run_induction (fun manager _ => manager.RecallsById)
      (fun sound _ turn byId => turn.recallsById sound byId) later situation sound byId
    exact (next.lookup_eq_ok_iff known).mpr ⟨rfl, List.mem_append_left _ inside⟩
  · intro later id unit found
    obtain ⟨rfl, recalls⟩ := (sound.lookup_eq_ok_iff byId).mp found
    -- what is remembered as rejected is refused, so it is not held again
    have barred : situation.1.Barred accepted unit :=
      ⟨fun holds => linked.rejected recalls.mem holds.mem,
        fun inside => (linked.settled inside).2 recalls.mem, .inl recalls⟩
    exact barred.run sound byId later unit.id
  · intro step later id unit found notProcessing notAccepted
    obtain ⟨further, turn, next⟩ := step.turn_perform situation sound
    have byIdNext : (step.perform situation).1.RecallsById := turn.recallsById sound byId
    obtain ⟨rfl, holds⟩ := (sound.lookup_eq_ok_iff byId).mp found
    have barred : (step.perform situation).1.Barred (accepted ++ further) unit :=
      turn.barred sound holds
        (fun held => notProcessing ((next.lookup_eq_ok_iff byIdNext).mpr ⟨rfl, held⟩))
        (fun inside => notAccepted ((next.lookup_eq_ok_iff byIdNext).mpr ⟨rfl, inside⟩))
    exact barred.run next byIdNext later unit.id

end Run

/-- A store that never fails, without listeners. -/
def LawfulHost.bare : LawfulHost Store where
  store := id
  write batch store := .ok (store.apply batch)
  deliver _ _ store := (none, store)
  publish _ store := store
  written := by
    intro batch store after done
    cases done
    exact Store.SameLedger.refl _
  delivered _ _ store := Store.SameLedger.refl store
  published _ store := Store.SameLedger.refl store

section Bare

variable {config : Configuration} {origin : StateUpdates}

theorem LawfulHost.deliverAll_bare (chain : ChainId) (units : List DecisionUnit) (store : Store) :
    bare.deliverAll chain units store = (none, store) := by
  induction units with
  | nil => rfl
  | cons unit rest ih =>
      have later :
          bare.deliverAll chain rest (bare.deliver chain unit store).2 = (none, store) := ih
      rw [Host.deliverAll]
      dsimp only
      rw [later]
      rfl

theorem LawfulHost.accept_bare {manager : Manager} {store : Store} {unit : UnitId}
    {plan : AcceptPlan} (running : manager.halted = none)
    (planned : manager.plan store unit = .ok plan) :
    manager.accept bare.toHost unit store =
      (.ok (), (manager.settle plan).1, store.apply plan.batch) := by
  have published : ∀ (events : List Event) (store : Store),
      bare.publishAll events store = store := by
    intro events
    induction events with
    | nil => exact fun _ => rfl
    | cons event rest ih => exact ih
  have same : bare.store store = store := rfl
  have written : bare.write plan.batch store = .ok (store.apply plan.batch) := rfl
  unfold Manager.accept
  rw [Manager.ensureRunning, running, same, planned]
  dsimp only
  rw [written]
  dsimp only
  rw [published, deliverAll_bare]

theorem Tenure.unverified_of_accept (tenure : Tenure LawfulHost.bare config origin)
    (steps : List (Step LawfulHost.bare)) {unit option : DecisionUnit} {units : List DecisionUnit}
    (present : (tenure.run steps).1.pending[unit.id]?.map (·.unit) = some unit)
    (planned : ((tenure.run steps).1.plan (tenure.run steps).2 option.id).toOption.map
      (·.accepted.map (·.unit)) = some units)
    (running : (tenure.run steps).1.halted = none)
    (apart : ∀ other ∈ units, other.id ≠ unit.id) (last : units.getLast? = some option)
    (far : (tenure.run steps).1.config.window < option.height.distance unit.height) :
    LawfulHost.bare.status (tenure.run (steps ++ [.accept option.id])) unit.id =
      .ok .unverified := by
  rw [run, Step.run_concat, ← run]
  obtain ⟨accepted, sound, byId, recent⟩ := tenure.recalls_run steps
  generalize tenure.run steps = situation at *
  obtain ⟨manager, store⟩ := situation
  obtain ⟨pending, found, rfl⟩ := Option.map_eq_some_iff.mp present
  have holds : manager.Holds pending.unit := by
    rw [Manager.Holds, ← (sound.rooted.keyed found).2]
    exact found
  obtain ⟨plan, done, rfl⟩ := Option.map_eq_some_iff.mp planned
  have plans : manager.plan store option.id = .ok plan := toOption_eq_some_iff.mp done
  obtain ⟨decided, -, settles⟩ := sound.rooted.plan_cases sound.records.toLists plans
  have top : (manager.settle plan).1.lastAccepted = option := by
    have final := (sound.settle settles).rooted.last
    rw [List.getLast?_append, last] at final
    exact (Option.some.inj final).symm
  have past : (manager.settle plan).1.IsPast pending.unit.height := by
    have turn : manager.Turn store (manager.settle plan).1 _ := .settle settles
    rw [Manager.IsPast, top, turn.config_eq sound]
    exact far
  have forgotten := sound.unverified_of_settle byId recent settles holds apart past
  dsimp only [Step.perform]
  rw [LawfulHost.accept_bare running plans]
  exact forgotten

end Bare

namespace Forgetful

/-- A chain that remembers nothing below its last accepted unit. -/
def begun : Tenure LawfulHost.bare { chain := 1, window := 0 } ∅ :=
  (Start.ofFounded (Store.empty.apply (Batch.found ∅)) _ (Store.SameLedger.refl _)).tenure

theorem sameLedger_founded :
    (Store.empty.apply (Batch.found ∅)).SameLedger (Store.empty.apply (Batch.found ∅)) :=
  Store.SameLedger.refl _

def output (key value : UInt8) : Transaction where
  inputs := []
  outputs := [([key], [value])]
  requests := []

def beside : DecisionUnit :=
  .ofFields { parent := DecisionUnit.genesis.id, height := 1, timestamp := none,
              body := .standard [output 0xaa 1] } (by decide)

def proposal : DecisionUnit :=
  .ofFields { parent := DecisionUnit.genesis.id, height := 1, timestamp := none,
              body := .proposal { effect := output 0xbb 2, prefersCommit := true } } (by decide)

def option : DecisionUnit :=
  .ofFields { parent := proposal.id, height := 2, timestamp := none, body := .commit } (by decide)

def verified : List (Step LawfulHost.bare) :=
  [.verify beside, .verify proposal, .verify option]

set_option maxRecDepth 100000 in
theorem verified_eq :
    LawfulHost.bare.status (begun.run verified) beside.id = .ok .processing ∧
    (begun.run verified).1.pending[beside.id]?.map (·.unit) = some beside ∧
    ((begun.run verified).1.plan (begun.run verified).2 option.id).toOption.map
      (·.accepted.map (·.unit)) = some [proposal, option] ∧
    (begun.run verified).1.halted = none ∧
    (begun.run verified).1.config.window < option.height.distance beside.height ∧
    ∀ other ∈ [proposal, option], other.id ≠ beside.id := by
  decide +kernel

/-- The unit beside the proposal goes from pending to forgotten in one call. -/
theorem beside_forgotten :
    LawfulHost.bare.status (begun.run verified) beside.id = .ok .processing ∧
    LawfulHost.bare.status (begun.run (verified ++ [.accept option.id])) beside.id =
      .ok .unverified ∧
    ¬UnitStatus.Advances .processing .unverified := by
  obtain ⟨processing, present, planned, running, far, apart⟩ := verified_eq
  refine ⟨processing, ?_, nofun⟩
  exact begun.unverified_of_accept verified present planned running apart rfl far

end Forgetful

end DecisionLedger
