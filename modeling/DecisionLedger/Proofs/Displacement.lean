import DecisionLedger.Proofs.Announcing
import DecisionLedger.Proofs.Standing
import DecisionLedger.Proofs.Withdrawal

/-! # What an acceptance displaces

To accept a unit leaves behind whatever stood beside it, and an option also the one not taken, with
all that depends on these.  The branches are taken out one after another while the accepted units
leave and the last accepted unit moves up; what goes in the end is one closure over the units that
were pending before.
-/

namespace DecisionLedger

namespace Manager

/-- The pending units that stand on a unit beside another. -/
def beside (manager : Manager) (above unit : UnitId) : Set UnitId :=
  {id | id ≠ unit ∧ ∃ pending, manager.pending[id]? = some pending ∧ pending.unit.parent = above}

section Settle

variable {manager : Manager} {accepted : List DecisionUnit} {unit other : DecisionUnit}
  {id : UnitId} {plan : AcceptPlan}

theorem mem_beside_iff (holds : manager.Holds other)
    {above : UnitId} :
    other.id ∈ manager.beside above id ↔ other.id ≠ id ∧ other.parent = above := by
  refine and_congr_right fun _ => ⟨?_, fun under => ⟨other.held, holds, under⟩⟩
  rintro ⟨pending, found, under⟩
  rw [holds] at found
  cases found
  exact under

/-- What is listed beside a unit that is next stands there, and the other way round. -/
theorem Rooted.mem_siblings_iff (rooted : manager.Rooted accepted)
    (present : id ∈ manager.pending) :
    id ∈ manager.siblings unit.id ↔ id ∈ manager.beside manager.lastAccepted.id unit.id := by
  obtain ⟨other, holds, rfl⟩ := rooted.mem_pending_iff.mp present
  rw [mem_beside_iff holds, siblings, List.mem_filter, decide_eq_true_iff, and_comm]
  refine and_congr_right fun _ => ⟨fun listed => ?_, fun under => ?_⟩
  · obtain ⟨own, held, same, under⟩ := rooted.children listed
    cases holds.eq_of_id held same.symm
    exact under
  · rw [← under]
    exact rooted.listed holds (.inr ⟨_, rooted.last, under.symm⟩)

theorem Rooted.next_stays (rooted : manager.Rooted accepted) (next : manager.Next unit) :
    ¬manager.Depends (manager.beside manager.lastAccepted.id unit.id) unit.id := by
  intro depends
  have inside := depends.mem_roots next.holds
    (fun above => rooted.last_not_pending (next.parent_eq ▸ above.mem))
    fun edge edged target => next.edges edge edged target.mem
  exact inside.1 rfl

theorem sheds_depart (manager : Manager) (unit : DecisionUnit) :
    Sheds manager (manager.depart unit.held) (unit.id = ·) where
  left := by
    rintro _ rfl present
    exact (mem_pending_depart.mp present).2 rfl
  kept := by
    intro id apart
    simp [Manager.depart, DecisionUnit.held, Std.ExtTreeMap.getElem?_erase, apart]

theorem Rooted.siblings_apart (rooted : manager.Rooted accepted) :
    ∀ root ∈ manager.siblings unit.id, ∀ other ∈ accepted ++ [unit], other.id ≠ root := by
  rintro root beside other inside rfl
  obtain ⟨listed, different⟩ := List.mem_filter.mp beside
  obtain ⟨sibling, holds, same, -⟩ := rooted.children listed
  rcases List.mem_append.mp inside with old | new
  · exact (rooted.settled old).1 (same ▸ holds.mem)
  · cases List.mem_singleton.mp new
    exact of_decide_eq_true different rfl

theorem Rooted.prunes_settleUnit (rooted : manager.Rooted accepted) (next : manager.Next unit) :
    Prunes manager (manager.settleUnit unit.held).1 fun id => unit.id = id ∨
      manager.Depends (manager.beside manager.lastAccepted.id unit.id) id := by
  have departs := sheds_depart manager unit
  have prunes := (rooted.depart next).prunes_discardEach true (manager.siblings unit.id)
    rooted.siblings_apart
  generalize pruned :
    ((manager.depart unit.held).sequence (Manager.discard true) (manager.siblings unit.id)).1 =
      alone at prunes
  have closure : ∀ id, (manager.depart unit.held).Depends {id | id ∈ manager.siblings unit.id} id ↔
      manager.Depends (manager.beside manager.lastAccepted.id unit.id) id := by
    intro id
    rw [← departs.depends_iff fun same => same ▸ rooted.next_stays next]
    exact Depends.congr_roots fun root present =>
      rooted.mem_siblings_iff (mem_pending_depart.mp present).1
  have sheds := (departs.trans prunes.toSheds).congr fun id => or_congr_right (closure id)
  rw [settleUnit_eq, pruned]
  refine { left := sheds.left, kept := sheds.kept, children := fun above => ?_ }
  have listed : alone.children.of above =
      ((manager.depart unit.held).children.of above).filter alone.isPending := prunes.children above
  have departed : (manager.depart unit.held).children.of above =
      if manager.lastAccepted.id = above then [] else manager.children.of above :=
    Links.of_erase manager.children manager.lastAccepted.id above
  suffices kept : alone.children.of above = (manager.children.of above).filter alone.isPending from
    (Links.of_touch alone.children unit.id above).trans kept
  rw [listed, departed]
  split
  · -- whoever stands on the previous last unit is accepted or goes
    rename_i tip
    rw [List.filter_nil, eq_comm, List.filter_eq_nil_iff]
    intro child standing
    obtain ⟨other, holds, rfl, under⟩ := rooted.children standing
    rw [isPending, Std.ExtTreeMap.contains_iff_mem]
    refine sheds.left ?_
    by_cases same : unit.id = other.id
    · exact .inl same
    · exact .inr (.root ((mem_beside_iff holds).mpr ⟨Ne.symm same, under.trans tip.symm⟩) holds.mem)
  · rfl

theorem Sheds.mem_beside_iff {before after : Manager} {gone : UnitId → Prop} {above unit : UnitId}
    (sheds : Sheds before after gone) (present : id ∈ after.pending) :
    id ∈ after.beside above unit ↔ id ∈ before.beside above unit := by
  have same := sheds.kept (sheds.mem_iff.mp present).2
  simp only [beside, Set.mem_ofPred_eq, same]

/-- The units that are accepted when a unit is, and those that must go for it. -/
inductive Advance (manager : Manager) : UnitId → List DecisionUnit → Set UnitId → Prop where
  /-- A unit is accepted alone; its rivals stand beside it on the last accepted unit. -/
  | unit {id : UnitId} {pending : PendingUnit} : manager.pending[id]? = some pending →
      pending.unit.kind = .standard ∨ pending.unit.kind = .vertex →
      Advance manager id [pending.unit] (manager.beside manager.lastAccepted.id id)
  /-- An option is accepted with its proposal; its rivals stand beside the proposal, or beside it on
  the proposal. -/
  | option {id : UnitId} {pending proposal : PendingUnit} : manager.pending[id]? = some pending →
      pending.unit.kind.isOption = true →
      manager.pending[pending.unit.parent]? = some proposal →
      Advance manager id [proposal.unit, pending.unit]
        (manager.beside manager.lastAccepted.id pending.unit.parent ∪
          manager.beside pending.unit.parent id)

section Option

variable {proposal option : DecisionUnit} {choice : Choice}

theorem Rooted.option_stays (rooted : manager.Rooted accepted) (next : manager.Next proposal)
    (decides : manager.OptionOf proposal option choice) :
    let rivals := manager.beside manager.lastAccepted.id proposal.id ∪
      manager.beside proposal.id option.id
    ¬manager.Depends rivals proposal.id ∧ ¬manager.Depends rivals option.id := by
  intro rivals
  have apart : proposal.id ≠ manager.lastAccepted.id :=
    fun same => rooted.last_not_pending (same ▸ next.holds.mem)
  have below : ¬manager.Depends rivals proposal.id := by
    intro depends
    have inside := depends.mem_roots next.holds
      (fun above => rooted.last_not_pending (next.parent_eq ▸ above.mem))
      fun edge edged target => next.edges edge edged target.mem
    rcases inside with sibling | child
    · exact sibling.1 rfl
    · have under := ((mem_beside_iff next.holds).mp child).2
      exact apart (under.symm.trans next.parent_eq)
  refine ⟨below, fun depends => ?_⟩
  have inside := depends.mem_roots decides.holds (decides.parent_eq ▸ below)
    fun edge edged => by simp [decides.edges_eq] at edged
  rcases inside with sibling | child
  · have under := ((mem_beside_iff decides.holds).mp sibling).2
    exact apart (decides.parent_eq.symm.trans under)
  · exact child.1 rfl

/-- To settle an option takes out the two accepted units and one closure over what was pending
before: the branch of the option not taken goes first, and what it leaves of the branches beside the
proposal goes after that. -/
theorem Rooted.prunes_option (rooted : manager.Rooted accepted) (next : manager.Next proposal)
    (kind : proposal.kind = .proposal) (decides : manager.OptionOf proposal option choice)
    {decided : Manager} (dismissal : (manager.sequence (Manager.discard true)
      (manager.optionOf? proposal.id choice.other).toList).1 = decided) :
    Prunes manager ((decided.settleUnit proposal.held).1.settleUnit option.held).1
      fun id => (∃ unit ∈ [proposal, option], unit.id = id) ∨
        manager.Depends (manager.beside manager.lastAccepted.id proposal.id ∪
          manager.beside proposal.id option.id) id := by
  obtain ⟨decidedRooted, decidedNext, decidedOption⟩ := rooted.dismiss next kind decides dismissal
  have single := rooted.siblings_option next kind decides dismissal
  have last : decided.lastAccepted = manager.lastAccepted :=
    dismissal ▸ congrArg (·.2.1) (settings_discardEach true manager _)
  have dismissed {id : UnitId} (present : id ∈ manager.pending) :
      id ∈ (manager.optionOf? proposal.id choice.other).toList ↔
        id ∈ manager.beside proposal.id option.id := by
    obtain ⟨unit, holds, rfl⟩ := rooted.mem_pending_iff.mp present
    rw [Option.mem_toList, rooted.optionOf?_other_iff next.holds kind decides holds,
      mem_beside_iff holds, and_comm]
  have first : Prunes manager decided
      (manager.Depends {id | id ∈ (manager.optionOf? proposal.id choice.other).toList}) := by
    rw [← dismissal]
    refine rooted.prunes_discardEach true _ fun root inside => ?_
    obtain ⟨other, holds, rfl, -⟩ := rooted.exists_of_optionOf? (Option.mem_toList.mp inside)
    exact rooted.ne_of_holds holds
  have second := decidedRooted.prunes_settleUnit decidedNext
  have above := decidedRooted.settleUnit decidedNext
  have third := above.prunes_settleUnit (decidedRooted.option_next decidedNext decidedOption)
  have union (id : UnitId) : manager.Depends (manager.beside manager.lastAccepted.id proposal.id ∪
        manager.beside proposal.id option.id) id ↔
      manager.Depends {id | id ∈ (manager.optionOf? proposal.id choice.other).toList} id ∨
        decided.Depends (decided.beside decided.lastAccepted.id proposal.id) id := by
    have beside : decided.Depends (decided.beside decided.lastAccepted.id proposal.id) id ↔
        decided.Depends (manager.beside decided.lastAccepted.id proposal.id) id :=
      Depends.congr_roots fun root present => first.mem_beside_iff present
    rw [beside, last, ← first.depends_union]
    refine Depends.congr_roots fun root present => ?_
    rw [Set.union_comm, Set.mem_union, Set.mem_union, Set.mem_ofPred_eq, dismissed present]
  have nothing (id : UnitId) : ¬(decided.settleUnit proposal.held).1.Depends
      ((decided.settleUnit proposal.held).1.beside
        (decided.settleUnit proposal.held).1.lastAccepted.id option.id) id := by
    intro depends
    obtain ⟨root, inside⟩ := depends.exists_root
    obtain ⟨pending, found, -⟩ := inside.2
    have listed := (above.mem_siblings_iff (mem_pending_of_getElem? found)).mpr inside
    rw [single] at listed
    exact absurd listed List.not_mem_nil
  refine ((first.trans second).trans third).congr fun id => ?_
  rw [union]
  simp only [nothing, or_false, List.mem_cons, List.not_mem_nil, exists_eq_or_imp, exists_eq_left]
  tauto

end Option

/-- To settle a plan takes out what it accepts and the closure of the rivals, which are apart. -/
theorem Rooted.prunes_settle (rooted : manager.Rooted accepted) (plans : manager.Plans unit plan) :
    ∃ rivals, manager.Advance unit.id (plan.accepted.map (·.unit)) rivals ∧
      (∀ other ∈ plan.accepted.map (·.unit), ¬manager.Depends rivals other.id) ∧
      Prunes manager (manager.settle plan).1 fun id =>
        (∃ other ∈ plan.accepted.map (·.unit), other.id = id) ∨ manager.Depends rivals id := by
  cases plans with
  | unit next execution =>
      have kind := (DecisionUnit.execution_eq_effect_iff.mp execution).1
      refine ⟨_, .unit next.holds kind, ?_, ?_⟩
      · intro other inside
        cases List.mem_singleton.mp inside
        exact rooted.next_stays next
      · rw [settle_unit]
        exact (rooted.prunes_settleUnit next).congr fun id => by simp
  | @option proposal _ choice next kind decides =>
      have under : manager.pending[unit.held.unit.parent]? = some proposal.held :=
        decides.parent_eq.symm ▸ next.holds
      have option : unit.held.unit.kind.isOption = true :=
        DecisionUnit.isOption_of_choice? decides.choice_eq
      refine ⟨_, .option decides.holds option under, ?_, ?_⟩
      all_goals rw [DecisionUnit.held_unit, decides.parent_eq]
      · obtain ⟨proposed, decided⟩ := rooted.option_stays next decides
        intro other inside
        rcases List.mem_cons.mp inside with rfl | inside
        · exact proposed
        · cases List.mem_singleton.mp inside
          exact decided
      · rw [settle_option]
        exact rooted.prunes_option next kind decides rfl

/-- Whoever was not remembered as rejected before is now by the manager alone. -/
def Unprompted (before after : Manager) : Prop :=
  ∀ (id : UnitId) (found : RejectedUnit), after.rejected[id]? = some found →
    before.rejected[id]? = some found ∨ found.awaiting = true

/-- Nothing becomes pending, and whoever is remembered as rejected was so before, or was pending and
awaits its rejection. -/
structure Retires (before after : Manager) : Prop where
  pending : ∀ {id : UnitId}, id ∈ after.pending → id ∈ before.pending
  rejected : ∀ {id : UnitId} {found : RejectedUnit}, after.rejected[id]? = some found →
    before.rejected[id]? = some found ∨ id ∈ before.pending ∧ found.awaiting = true

theorem Retires.refl (manager : Manager) : Retires manager manager := ⟨id, .inl⟩

theorem Retires.discard {before : Manager} (retires : Retires before manager) (root : UnitId) :
    Retires before (Manager.discard true manager root).1 where
  pending present := retires.pending ((mem_pending_discard true manager root).mp present).1
  rejected := by
    intro id found known
    rw [rejected_discard] at known
    split at known
    · rename_i pending present
      split at present
      · cases known
        exact .inr ⟨retires.pending (mem_pending_of_getElem? present), rfl⟩
      · cases present
    · exact retires.rejected known

theorem Retires.settleUnit {before : Manager} (retires : Retires before manager)
    (unit : DecisionUnit) : Retires before (manager.settleUnit unit.held).1 := by
  have departed : Retires before (manager.depart unit.held) :=
    ⟨fun present => retires.pending (mem_pending_depart.mp present).1, retires.rejected⟩
  have pruned : Retires before ((manager.depart unit.held).sequence (Manager.discard true)
      (manager.siblings unit.id)).1 := sequence_induction (Retires before)
    (fun root (_ : root ∈ manager.siblings unit.id) _ between => between.discard root) departed
  rw [settleUnit_eq]
  refine ⟨pruned.pending, fun {id found} known => ?_⟩
  dsimp only [Manager.evict] at known
  rw [Std.ExtTreeMap.getElem?_filter', Option.filter_eq_some_iff] at known
  exact pruned.rejected known.1

theorem Rooted.retires_settle (rooted : manager.Rooted accepted)
    (plans : manager.Plans unit plan) : Retires manager (manager.settle plan).1 :=
  rooted.settle_induction (fun after _ => Retires manager after)
    (fun root _ retires => retires.discard root)
    (fun _ _ retires => retires.settleUnit _) plans (.refl manager)

theorem Rooted.unprompted_settle (rooted : manager.Rooted accepted)
    (plans : manager.Plans unit plan) : Unprompted manager (manager.settle plan).1 :=
  fun _ _ known => ((rooted.retires_settle plans).rejected known).imp_right And.right

end Settle

end Manager

/-- What the acceptance of some units makes of those that were pending. -/
structure Displaces {ω : Type} (host : LawfulHost ω) (accepted : List DecisionUnit)
    (rivals : Set UnitId) (before after : Manager × ω) : Prop where
  last : accepted.getLast? = some after.1.lastAccepted
  /-- The accepted units go, and their rivals with everything that depends on these; nothing else
  goes. -/
  pending : ∀ {id : UnitId}, id ∈ after.1.pending ↔
    id ∈ before.1.pending ∧ (∀ unit ∈ accepted, unit.id ≠ id) ∧ ¬before.1.Depends rivals id
  kept : ∀ {id : UnitId}, id ∈ after.1.pending → after.1.pending[id]? = before.1.pending[id]?
  accepted : ∀ unit ∈ accepted, ¬before.1.Depends rivals unit.id ∧
    host.lookup after unit.id = .ok (unit, .accepted)
  /-- Whoever goes with the rivals is remembered as rejected by the manager alone, unless it is
  outside the window below the unit that is accepted last now. -/
  gone : ∀ {id : UnitId} {pending : PendingUnit}, before.1.Depends rivals id →
    before.1.pending[id]? = some pending →
    after.1.rejected[id]? =
      if before.1.config.window < after.1.lastAccepted.height.distance pending.unit.height then none
      else some { unit := pending.unit, awaiting := true }
  status : ∀ {id : UnitId} {pending : PendingUnit}, before.1.Depends rivals id →
    before.1.pending[id]? = some pending →
    (host.lookup after id = .ok (pending.unit, .rejected) ↔
      after.1.lastAccepted.height.distance pending.unit.height ≤ before.1.config.window) ∧
    (id ∈ after.1.awaitingRejection ↔
      after.1.lastAccepted.height.distance pending.unit.height ≤ before.1.config.window)
  /-- Whoever stays pending stands on the unit that is accepted last now. -/
  stands : ∀ {id : UnitId}, id ∈ after.1.pending → after.1.Stands id
  children : ∀ above : UnitId,
    after.1.childrenOf above = (before.1.childrenOf above).filter after.1.isPending
  claims : ∀ key : StateKey,
    after.1.consumedBy[key]? = before.1.consumedBy[key]?.filter after.1.isPending

namespace Manager

variable {ω : Type} {host : LawfulHost ω} {origin : StateUpdates} {manager after : Manager}
  {store : Store} {world later : ω} {accepted further : List DecisionUnit} {unit : DecisionUnit}
  {rivals : Set UnitId}

/-- Who is pending before a turn, and afterwards neither pending nor accepted, is remembered exactly
while it is within the window. -/
theorem Turn.rejected_of_leaves (sound : manager.Sound origin store accepted)
    (byId : manager.RecallsById) (recent : manager.RecallsRecent)
    (turn : manager.Turn store after further) (unprompted : Unprompted manager after)
    (holds : manager.Holds unit) (gone : unit.id ∉ after.pending)
    (apart : ∀ other ∈ further, other.id ≠ unit.id) :
    after.rejected[unit.id]? =
      if manager.config.window < after.lastAccepted.height.distance unit.height then none
      else some { unit, awaiting := true } := by
  have known {found : RejectedUnit} (remembered : after.rejected[unit.id]? = some found) :
      found = { unit, awaiting := true } := by
    have absent : unit.id ∉ manager.rejected :=
      fun before => sound.rooted.rejected before holds.mem
    obtain ⟨same, origin⟩ := turn.recalls_cases sound byId remembered
    have own : found.unit = unit := by
      rcases origin with recalls | held
      · exact absurd (same ▸ recalls.mem) absent
      · exact held.eq_of_id holds same
    rcases unprompted _ _ remembered with before | awaiting
    · exact absurd (Std.ExtTreeMap.mem_iff_isSome_getElem?.mpr (before ▸ rfl)) absent
    · cases found
      simp_all
  have config := turn.config_eq sound
  split
  · rename_i far
    cases remembered : after.rejected[unit.id]? with
    | none => rfl
    | some found =>
        have near := turn.recallsRecent sound recent remembered
        rw [known remembered, IsPast, config] at near
        exact absurd far near
  · rename_i near
    rcases turn.knows_or_past sound (.inl (.inl holds)) with (stays | inside | recalls) | past
    · exact absurd stays.mem gone
    · rcases List.mem_append.mp inside with old | new
      · exact absurd holds.mem (sound.rooted.settled old).1
      · exact absurd rfl (apart unit new)
    · obtain ⟨found, remembered, -⟩ := recalls
      rw [remembered, known remembered]
    · rw [IsPast, config] at past
      exact absurd past near

/-- A turn that takes out accepted units and the closure of their rivals displaces the rivals. -/
theorem Turn.displaces (sound : manager.Sound origin (host.store world) accepted)
    (byId : manager.RecallsById) (recent : manager.RecallsRecent) (claimed : manager.Claimed)
    (next : after.Sound origin (host.store later) (accepted ++ further))
    (turn : manager.Turn (host.store world) after further)
    (last : further.getLast? = some after.lastAccepted)
    (apart : ∀ unit ∈ further, ¬manager.Depends rivals unit.id)
    (unprompted : Unprompted manager after)
    (prunes : Prunes manager after fun id =>
      (∃ unit ∈ further, unit.id = id) ∨ manager.Depends rivals id) :
    Displaces host further rivals (manager, world) (after, later) := by
  have byIdNext : after.RecallsById := turn.recallsById sound byId
  have remembered {id : UnitId} {pending : PendingUnit} (depends : manager.Depends rivals id)
      (found : manager.pending[id]? = some pending) : pending.unit.id = id ∧
      after.rejected[id]? =
        if manager.config.window < after.lastAccepted.height.distance pending.unit.height then none
        else some { unit := pending.unit, awaiting := true } := by
    obtain ⟨unit, holds, rfl, rfl⟩ := sound.rooted.exists_of_getElem? found
    exact ⟨rfl, turn.rejected_of_leaves sound byId recent unprompted holds
      (prunes.left (.inr depends)) fun other inside same => apart other inside (same ▸ depends)⟩
  refine { last, pending := ?_, kept := fun present => prunes.kept (prunes.mem_iff.mp present).2,
           accepted := fun unit inside => ⟨apart unit inside, ?_⟩,
           gone := fun depends found => (remembered depends found).2, status := ?_,
           stands := next.standing.stands, children := prunes.children,
           claims := prunes.consumedBy claimed (claimed.turn sound turn) }
  · intro id
    rw [prunes.mem_iff, not_or, not_exists]
    simp only [not_and]
  · exact (next.lookup_eq_ok_iff byIdNext).mpr ⟨rfl, List.mem_append_right _ inside⟩
  · intro id pending depends found
    obtain ⟨rfl, recalled⟩ := remembered depends found
    dsimp only [LawfulHost.lookup]
    rw [next.lookup_eq_ok_iff byIdNext, byIdNext.mem_awaitingRejection_iff, ← UInt64.not_lt]
    dsimp only [Finds, Recalls]
    rw [recalled]
    split <;> simp_all

theorem Sound.displaces_accept (sound : manager.Sound origin (host.store world) accepted)
    (byId : manager.RecallsById) (recent : manager.RecallsRecent) (claimed : manager.Claimed)
    {id : UnitId} {result : Except ManagerError Unit × Manager × ω}
    (accepting : Accepting host manager id world result) (committed : Committed result.1) :
    ∃ units rivals, manager.Advance id units rivals ∧
      Displaces host units rivals (manager, world) result.2 := by
  cases accepting with
  | refused distinct | unwritten distinct =>
      cases committed with
      | unheard failures => exact absurd rfl (distinct failures)
  | @committed plan _ final later planned same settled _ =>
      obtain ⟨unit, rfl, plans⟩ := sound.rooted.plan_cases sound.records.toLists planned
      obtain ⟨rivals, advance, apart, prunes⟩ := sound.rooted.prunes_settle plans
      have unprompted := sound.rooted.unprompted_settle plans
      have last : (plan.accepted.map (·.unit)).getLast? =
          some (manager.settle plan).1.lastAccepted := by
        rw [lastAccepted_settle plans]
        cases plans <;> rfl
      have sounds := (sound.settle plans).of_sameLedger same
      refine ⟨_, rivals, advance, ?_⟩
      rcases settled with rfl | ⟨reason, rfl⟩
      · exact Turn.displaces sound byId recent claimed sounds (.settle plans) last apart unprompted
          prunes
      · have halts := sounds.halt reason
        have turn := Turn.halt reason (.settle plans : manager.Turn (host.store world) _ _)
        rw [fst_halt] at halts turn ⊢
        exact turn.displaces sound byId recent claimed halts last apart unprompted
          ⟨⟨prunes.left, prunes.kept⟩, prunes.children⟩

end Manager

/-- After any calls, an acceptance that is written displaces the rivals of what it accepts, with all
that depends on them, and nothing else. -/
theorem Tenure.displaces_run {ω : Type} {host : LawfulHost ω} {config : Configuration}
    {origin : StateUpdates} (tenure : Tenure host config origin) (steps : List (Step host))
    {id : UnitId}
    (committed : Manager.Committed ((Call.accept id).answer host (tenure.run steps))) :
    ∃ accepted rivals, (tenure.run steps).1.Advance id accepted rivals ∧
      Displaces host accepted rivals (tenure.run steps)
        (((Call.accept id).step host).perform (tenure.run steps)) := by
  obtain ⟨_, sound, byId, recent⟩ := tenure.recalls_run steps
  exact sound.displaces_accept byId recent (tenure.claimed_run steps)
    (Manager.accept_cases host _ id _) committed

namespace Crossing

set_option maxRecDepth 100000 in
theorem plan_left_eq :
    ((begun.run verified).1.plan (begun.run verified).2 left.id).toOption.map
      (·.accepted.map (·.unit)) = some [left] ∧
    right.id ≠ left.id ∧ right.parent = (begun.run verified).1.lastAccepted.id := by
  decide +kernel

theorem accept_left :
    (Call.accept left.id).answer LawfulHost.bare (begun.run verified) = .ok () := by
  obtain ⟨planned, -⟩ := plan_left_eq
  obtain ⟨plan, done, -⟩ := Option.map_eq_some_iff.mp planned
  have plans := toOption_eq_some_iff.mp done
  exact congrArg Prod.fst (LawfulHost.accept_bare verified_eq.1 plans)

/-- A unit that extends the accepted one goes nonetheless, with the rival that it refers to. -/
theorem left_displaces :
    Manager.Committed ((Call.accept left.id).answer LawfulHost.bare (begun.run verified)) ∧
      vertex.parent = left.id ∧
      ∃ accepted rivals, (begun.run verified).1.Advance left.id accepted rivals ∧
        (begun.run verified).1.Depends rivals vertex.id ∧
        Displaces LawfulHost.bare accepted rivals (begun.run verified)
          (((Call.accept left.id).step LawfulHost.bare).perform (begun.run verified)) := by
  have committed : Manager.Committed
      ((Call.accept left.id).answer LawfulHost.bare (begun.run verified)) :=
    accept_left ▸ .heard
  obtain ⟨accepted, rivals, advance, displaces⟩ := begun.displaces_run verified committed
  refine ⟨committed, rfl, accepted, rivals, advance, ?_, displaces⟩
  obtain ⟨-, own, target, present, -⟩ := verified_eq
  obtain ⟨-, apart, under⟩ := plan_left_eq
  obtain ⟨pending, found, same⟩ := Option.map_eq_some_iff.mp present
  obtain ⟨other, known, rival⟩ := Option.map_eq_some_iff.mp target
  have edges : vertex.body.edges = [right.id] := rfl
  have edged : right.id ∈ pending.unit.body.edges := by
    rw [same, edges]
    exact List.mem_singleton_self _
  refine .vertex found edged (.root ?_ (Manager.mem_pending_of_getElem? known))
  cases advance with
  | unit _ _ => exact ⟨apart, other, known, rival ▸ under⟩
  | option here isOption _ =>
      rw [here, Option.map_some, Option.some.injEq] at own
      rw [own] at isOption
      cases isOption

end Crossing

end DecisionLedger
