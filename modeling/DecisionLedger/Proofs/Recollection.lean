import DecisionLedger.Proofs.Tenure

/-! # What a manager recalls

A unit that was pending once is pending still, or accepted, or remembered as rejected, or so far
below the last accepted unit that it is forgotten.  One that was rejected does not come back: while
it is remembered, it is refused, and once it is forgotten, it is too low to extend anything pending.
-/

namespace DecisionLedger

theorem Height.distance_mono {upper higher lower : Height} {window : UInt64}
    (above : upper ≤ higher) (far : window < upper.distance lower) :
    window < higher.distance lower := by
  rw [UInt64.le_iff_toNat_le] at above
  rw [UInt64.lt_iff_toNat_lt, toNat_distance] at far ⊢
  omega

namespace Manager

def Recalls (manager : Manager) (unit : DecisionUnit) : Prop :=
  ∃ found, manager.rejected[unit.id]? = some found ∧ found.unit = unit

theorem Recalls.mem {manager : Manager} {unit : DecisionUnit} (recalls : manager.Recalls unit) :
    unit.id ∈ manager.rejected := by
  obtain ⟨found, known, -⟩ := recalls
  rw [Std.ExtTreeMap.mem_iff_isSome_getElem?, known]
  rfl

/-- A unit is pending, accepted or remembered as rejected. -/
def Knows (manager : Manager) (accepted : List DecisionUnit) (unit : DecisionUnit) : Prop :=
  manager.Holds unit ∨ unit ∈ accepted ∨ manager.Recalls unit

/-- A height is so far below the last accepted one that nothing of it is remembered. -/
def IsPast (manager : Manager) (height : Height) : Prop :=
  manager.config.window < manager.lastAccepted.height.distance height

section Discard

variable {manager : Manager} {accepted : List DecisionUnit} {unit : DecisionUnit}

theorem config_discard (automatic : Bool) (manager : Manager) (root : UnitId) :
    (Manager.discard automatic manager root).1.config = manager.config :=
  congrArg Prod.fst (settings_discard automatic manager root)

theorem isPast_discard (automatic : Bool) (root : UnitId) {height : Height} :
    (Manager.discard automatic manager root).1.IsPast height ↔ manager.IsPast height := by
  rw [IsPast, IsPast, lastAccepted_discard, config_discard]

theorem Linked.knows_discard (linked : manager.Linked accepted) (automatic : Bool) (root : UnitId)
    (knows : manager.Knows accepted unit) :
    (Manager.discard automatic manager root).1.Knows accepted unit := by
  rcases knows with holds | inside | recalls
  · by_cases gone : unit.id ∈ manager.branch root
    · refine .inr (.inr ⟨{ unit, awaiting := automatic || unit.id ≠ root }, ?_, rfl⟩)
      rw [rejected_discard, if_pos gone, holds]
      rfl
    · exact .inl ((holds_discard automatic root).mpr ⟨holds, gone⟩)
  · exact .inr (.inl inside)
  · obtain ⟨found, known, same⟩ := recalls
    have absent : manager.pending[unit.id]? = none :=
      Std.ExtTreeMap.getElem?_eq_none (linked.rejected (Recalls.mem ⟨found, known, same⟩))
    refine .inr (.inr ⟨found, ?_, same⟩)
    rw [rejected_discard, absent, ite_self]
    exact known

theorem Rooted.knows_settleUnit (rooted : manager.Rooted accepted) {next : DecisionUnit}
    (follows : manager.Next next) (knows : manager.Knows accepted unit) :
    (manager.settleUnit next.held).1.Knows (accepted ++ [next]) unit ∨
      manager.config.window < next.height.distance unit.height := by
  have departed : (manager.depart next.held).Knows (accepted ++ [next]) unit := by
    rcases knows with holds | inside | recalls
    · by_cases same : next.id = unit.id
      · cases follows.holds.eq_of_id holds same
        exact .inr (.inl (List.mem_append_right _ List.mem_cons_self))
      · exact .inl (holds_depart.mpr ⟨holds, same⟩)
    · exact .inr (.inl (List.mem_append_left _ inside))
    · exact .inr (.inr recalls)
  have pruned := sequence_induction
    (fun after => after.Linked (accepted ++ [next]) ∧ after.Knows (accepted ++ [next]) unit)
    (fun root (_ : root ∈ manager.siblings next.id) before both =>
      ⟨both.1.discard true root, both.1.knows_discard true root both.2⟩)
    ⟨rooted.depart follows, departed⟩
  have config := congrArg Prod.fst
    (settings_discardEach true (manager.depart next.held) (manager.siblings next.id))
  rw [settleUnit_eq]
  generalize ((manager.depart next.held).sequence (Manager.discard true)
    (manager.siblings next.id)).1 = alone at pruned config
  have window : alone.config.window = manager.config.window :=
    congrArg Configuration.window config
  rcases pruned.2 with holds | inside | ⟨found, known, same⟩
  · exact .inl (.inl holds)
  · exact .inl (.inr (.inl inside))
  · by_cases far : manager.config.window < next.height.distance unit.height
    · exact .inr far
    · refine .inl (.inr (.inr ⟨found, ?_, same⟩))
      subst same
      simp [Manager.evict, Manager.ascend, Std.ExtTreeMap.getElem?_filter, known, window, far]

end Discard

section Turns

variable {origin : StateUpdates} {manager after : Manager} {store other : Store}
  {accepted further : List DecisionUnit} {unit : DecisionUnit}

theorem config_settleUnit (manager : Manager) (pending : PendingUnit) :
    (manager.settleUnit pending).1.config = manager.config :=
  congrArg Prod.fst
    (settings_discardEach true (manager.depart pending) (manager.siblings pending.unit.id))

theorem Turn.config_eq (sound : manager.Sound origin store accepted)
    (turn : manager.Turn store after further) : after.config = manager.config := by
  induction turn with
  | rest | hold | acknowledge => rfl
  | discard root => exact config_discard false manager root
  | settle plans =>
      exact sound.rooted.settle_induction (fun before _ => before.config = manager.config)
        (fun root _ same => (config_discard true _ root).trans same)
        (fun _ _ same => (config_settleUnit _ _).trans same) plans rfl
  | halt reason _ ih =>
      unfold Manager.halt
      split <;> exact ih

theorem Turn.holds_of_mem (turn : manager.Turn store after further) (inside : unit ∈ further) :
    manager.Holds unit := by
  induction turn with
  | rest | hold | acknowledge | discard => cases inside
  | settle plans =>
      cases plans with
      | unit next execution =>
          cases List.mem_singleton.mp inside
          exact next.holds
      | option next kind decides =>
          rcases List.mem_cons.mp inside with rfl | inside
          · exact next.holds
          · cases List.mem_singleton.mp inside
            exact decides.holds
  | halt reason _ ih => exact ih inside

theorem Rooted.height_lt_of_admits (rooted : manager.Rooted accepted) {parent : DecisionUnit}
    (admits : manager.Admits store parent unit) : manager.lastAccepted.height < unit.height := by
  have step := admits.height
  have above : manager.lastAccepted.height.toNat ≤ parent.height.toNat := by
    obtain ⟨-, held | ⟨-, rfl⟩⟩ := rooted.parent_of_admits admits
    · have lower := rooted.height_lt held
      rw [UInt64.lt_iff_toNat_lt] at lower
      omega
    · exact Nat.le_refl _
  rw [UInt64.lt_iff_toNat_lt]
  omega

/-- Whoever becomes pending stands above the last accepted unit, and is not remembered as
rejected. -/
theorem Turn.holds_cases (sound : manager.Sound origin store accepted)
    (turn : manager.Turn store after further) (holds : after.Holds unit) :
    manager.Holds unit ∨
      manager.lastAccepted.height < unit.height ∧ unit.id ∉ manager.rejected := by
  induction turn with
  | rest | acknowledge => exact .inl holds
  | @hold parent _ unknown admits =>
      rcases (holds_hold unknown.notPending).mp holds with rfl | before
      · exact .inr ⟨sound.rooted.height_lt_of_admits admits, unknown.notRejected⟩
      · exact .inl before
  | discard root => exact .inl ((holds_discard false root).mp holds).1
  | settle plans => exact .inl (Holds.of_settle plans holds)
  | halt reason _ ih => exact ih ((holds_halt reason).mp holds)

theorem Sound.height_lastAccepted (sound : manager.Sound origin store accepted)
    (next : after.Sound origin other (accepted ++ further)) :
    after.lastAccepted.height.toNat = manager.lastAccepted.height.toNat + further.length := by
  have before := sound.chronicle.height_getLast sound.rooted.last
  have later := next.chronicle.height_getLast next.rooted.last
  rw [List.length_append] at later
  omega

/-- To know of a unit, or be past it, is kept by every turn. -/
theorem Turn.knows_or_past (sound : manager.Sound origin store accepted)
    (turn : manager.Turn store after further)
    (known : manager.Knows accepted unit ∨ manager.IsPast unit.height) :
    after.Knows (accepted ++ further) unit ∨ after.IsPast unit.height := by
  have same : ∀ {after : Manager}, (after.Knows accepted unit ∨ after.IsPast unit.height) →
      after.Knows (accepted ++ []) unit ∨ after.IsPast unit.height := by
    intro after known
    rwa [List.append_nil]
  induction turn with
  | rest => exact same known
  | hold unknown admits =>
      refine same (known.imp_left fun knows => ?_)
      rcases knows with holds | rest
      · exact .inl ((holds_hold unknown.notPending).mpr (.inr holds))
      · exact .inr rest
  | @acknowledge id found remembered =>
      refine same (known.imp_left fun knows => ?_)
      rcases knows with holds | inside | ⟨own, here, rfl⟩
      · exact .inl holds
      · exact .inr (.inl inside)
      · right
        right
        by_cases acknowledged : id = own.unit.id
        · subst acknowledged
          rw [remembered] at here
          cases here
          exact ⟨_, Std.ExtTreeMap.getElem?_insert_self, rfl⟩
        · refine ⟨own, ?_, rfl⟩
          simpa [Std.ExtTreeMap.getElem?_insert, acknowledged] using here
  | discard root =>
      exact same (known.imp (sound.rooted.knows_discard false root)
        (isPast_discard false root).mpr)
  | settle plans =>
      refine sound.rooted.settle_induction
        (fun before accepted => before.Knows accepted unit ∨ before.IsPast unit.height)
        (fun root rooted known => ?_) (fun {before accepted next} rooted follows known => ?_)
        plans known
      · exact known.imp (rooted.knows_discard true root) (isPast_discard true root).mpr
      · have top : (before.settleUnit next.held).1.lastAccepted = next := rfl
        rw [IsPast, config_settleUnit, top]
        rcases known with knows | past
        · exact rooted.knows_settleUnit follows knows
        · refine .inr (Height.distance_mono ?_ past)
          exact UInt64.le_of_lt (rooted.height_lt follows.holds)
  | halt reason _ ih =>
      unfold Manager.halt
      split <;> exact ih

end Turns

/-- Every remembered unit is kept under its ID. -/
def RecallsById (manager : Manager) : Prop :=
  ∀ {id : UnitId} {found : RejectedUnit}, manager.rejected[id]? = some found → found.unit.id = id

/-- Nothing is pending that was not before, and nothing is remembered that was neither remembered
nor pending. -/
structure Descends (before after : Manager) : Prop where
  holds : ∀ {unit}, after.Holds unit → before.Holds unit
  recalls : ∀ {id : UnitId} {found : RejectedUnit}, after.rejected[id]? = some found →
    found.unit.id = id ∧ (before.Recalls found.unit ∨ before.Holds found.unit)

section Descends

variable {origin : StateUpdates} {before manager after : Manager} {store : Store}
  {accepted further : List DecisionUnit}

theorem RecallsById.descends (byId : manager.RecallsById) : Descends manager manager where
  holds holds := holds
  recalls := by
    intro id found known
    obtain rfl := byId known
    exact ⟨rfl, .inl ⟨found, known, rfl⟩⟩

theorem Descends.discard (descends : Descends before manager) (linked : manager.Linked accepted)
    (automatic : Bool) (root : UnitId) :
    Descends before (Manager.discard automatic manager root).1 where
  holds holds := descends.holds ((holds_discard automatic root).mp holds).1
  recalls := by
    intro id found known
    rw [rejected_discard] at known
    split at known
    · rename_i pending present
      split at present
      · cases known
        obtain ⟨unit, holds, rfl, rfl⟩ := linked.exists_of_getElem? present
        exact ⟨rfl, .inr (descends.holds holds)⟩
      · cases present
    · exact descends.recalls known

theorem Descends.settleUnit (descends : Descends before manager) (rooted : manager.Rooted accepted)
    {unit : DecisionUnit} (next : manager.Next unit) :
    Descends before (manager.settleUnit unit.held).1 := by
  have departed : Descends before (manager.depart unit.held) :=
    ⟨fun holds => descends.holds (holds_depart.mp holds).1, descends.recalls⟩
  have pruned := (sequence_induction
    (fun after => after.Linked (accepted ++ [unit]) ∧ Descends before after)
    (fun root (_ : root ∈ manager.siblings unit.id) _ both =>
      ⟨both.1.discard true root, both.2.discard both.1 true root⟩)
    ⟨rooted.depart next, departed⟩).2
  rw [settleUnit_eq]
  refine ⟨pruned.holds, fun {id found} known => ?_⟩
  dsimp only [Manager.evict] at known
  rw [Std.ExtTreeMap.getElem?_filter', Option.filter_eq_some_iff] at known
  exact pruned.recalls known.1

theorem Turn.recalls_cases (sound : manager.Sound origin store accepted)
    (byId : manager.RecallsById) (turn : manager.Turn store after further) {id : UnitId}
    {found : RejectedUnit} (known : after.rejected[id]? = some found) :
    found.unit.id = id ∧ (manager.Recalls found.unit ∨ manager.Holds found.unit) := by
  induction turn with
  | rest | hold => exact byId.descends.recalls known
  | @acknowledge acknowledged remembered here =>
      by_cases same : acknowledged = id
      · subst same
        simp only [Std.ExtTreeMap.getElem?_insert_self, Option.some.injEq] at known
        subst known
        obtain ⟨own, before⟩ := byId.descends.recalls here
        exact ⟨own, before⟩
      · apply byId.descends.recalls
        simpa [Std.ExtTreeMap.getElem?_insert, same] using known
  | discard root =>
      exact (byId.descends.discard sound.rooted.toLinked false root).recalls known
  | settle plans =>
      exact (sound.rooted.settle_induction (fun after _ => Descends manager after)
        (fun root rooted descends => descends.discard rooted.toLinked true root)
        (fun rooted next descends => descends.settleUnit rooted next) plans
        byId.descends).recalls known
  | halt reason _ ih =>
      unfold Manager.halt at known
      split at known <;> exact ih known

end Descends

/-- Whoever is remembered as rejected is not past. -/
def RecallsRecent (manager : Manager) : Prop :=
  ∀ {id : UnitId} {found : RejectedUnit}, manager.rejected[id]? = some found →
    ¬manager.IsPast found.unit.height

section Recent

variable {origin : StateUpdates} {manager after : Manager} {store : Store}
  {accepted further : List DecisionUnit}

theorem not_isPast_of_lt {height : Height} (above : manager.lastAccepted.height < height) :
    ¬manager.IsPast height := by
  rw [UInt64.lt_iff_toNat_lt] at above
  rw [IsPast, UInt64.lt_iff_toNat_lt, Height.toNat_distance]
  omega

theorem Rooted.not_isPast (rooted : manager.Rooted accepted) {unit : DecisionUnit}
    (holds : manager.Holds unit) : ¬manager.IsPast unit.height :=
  not_isPast_of_lt (rooted.height_lt holds)

theorem Rooted.recallsRecent_discard (rooted : manager.Rooted accepted)
    (recent : manager.RecallsRecent) (automatic : Bool) (root : UnitId) :
    (Manager.discard automatic manager root).1.RecallsRecent := by
  intro id found known
  rw [isPast_discard]
  rw [rejected_discard] at known
  split at known
  · rename_i pending present
    split at present
    · cases known
      obtain ⟨unit, holds, rfl, rfl⟩ := rooted.exists_of_getElem? present
      exact rooted.not_isPast holds
    · cases present
  · exact recent known

theorem recallsRecent_settleUnit (manager : Manager) (unit : DecisionUnit) :
    (manager.settleUnit unit.held).1.RecallsRecent := by
  intro id found known
  have config := config_settleUnit manager unit.held
  rw [settleUnit_eq] at known config ⊢
  dsimp only [Manager.evict] at known config
  rw [Std.ExtTreeMap.getElem?_filter', Option.filter_eq_some_iff, Bool.not_eq_true',
    decide_eq_false_iff_not] at known
  exact known.2

theorem Turn.recallsRecent (sound : manager.Sound origin store accepted)
    (turn : manager.Turn store after further) (recent : manager.RecallsRecent) :
    after.RecallsRecent := by
  induction turn with
  | rest | hold => exact recent
  | @acknowledge acknowledged remembered here =>
      intro id found known
      by_cases same : acknowledged = id
      · subst same
        simp only [Std.ExtTreeMap.getElem?_insert_self, Option.some.injEq] at known
        subst known
        have near := recent here
        exact near
      · have before : manager.rejected[id]? = some found := by
          simpa [Std.ExtTreeMap.getElem?_insert, same] using known
        exact recent before
  | discard root => exact sound.rooted.recallsRecent_discard recent false root
  | settle plans =>
      exact sound.rooted.settle_induction (fun after _ => after.RecallsRecent)
        (fun root rooted recent => rooted.recallsRecent_discard recent true root)
        (fun _ _ _ => recallsRecent_settleUnit _ _) plans recent
  | halt reason _ ih =>
      unfold Manager.halt
      split <;> exact ih

end Recent

end Manager

theorem Tenure.config_run {ω : Type} {host : LawfulHost ω} {config : Configuration}
    {origin : StateUpdates} (tenure : Tenure host config origin) (steps : List (Step host)) :
    (tenure.run steps).1.config = config := by
  obtain ⟨-, -, same⟩ := run_induction (fun manager _ => manager.config = config) (fun _ => rfl)
    (fun sound _ turn same => (turn.config_eq sound).trans same) tenure steps
  exact same

end DecisionLedger
