import DecisionLedger.Proofs.Dependence
import DecisionLedger.Proofs.Standing
import DecisionLedger.Proofs.Windows
import Mathlib.Data.List.Perm.Subperm

/-! # Offspring of pending units

A manager lists the pending children of a unit in the order in which they were verified.  A list is
begun when the first child is verified and goes with the unit itself; a child leaves the list
whenever it is decided, be it before its parent or after.  Only a pending unit and the last accepted
one have a list, so decided units leave nothing behind.
-/

namespace DecisionLedger

namespace Manager

section Lists

variable {origin : StateUpdates} {manager before between after : Manager} {store other : Store}
  {accepted further : List DecisionUnit} {unit sibling : DecisionUnit} {root : UnitId}

/-- Some units have left, and the lists of children say so and nothing else. -/
structure Thins (before after : Manager) : Prop where
  holds : ∀ {unit}, after.Holds unit → before.Holds unit
  children : ∀ above, after.childrenOf above = (before.childrenOf above).filter after.isPending

theorem isPending_iff (linked : manager.Linked accepted) {id : UnitId} :
    manager.isPending id = true ↔ ∃ unit, manager.Holds unit ∧ unit.id = id := by
  rw [isPending, Std.ExtTreeMap.contains_iff_mem, linked.mem_pending_iff]

theorem Thins.trans (linked : after.Linked accepted) (first : Thins before between)
    (second : Thins between after) : Thins before after where
  holds holds := first.holds (second.holds holds)
  children := by
    intro above
    rw [second.children, first.children, List.filter_filter]
    refine List.filter_congr fun child _ => ?_
    rw [Bool.and_eq_left_iff_imp, isPending_iff linked]
    rintro ⟨unit, holds, rfl⟩
    exact Std.ExtTreeMap.contains_iff_mem.mpr (second.holds holds).mem

theorem Linked.thins_refl (linked : manager.Linked accepted) : Thins manager manager :=
  ⟨id, linked.prunes_refl.children⟩

theorem Linked.thins_discard (linked : manager.Linked accepted) (automatic : Bool)
    (root : UnitId) : Thins manager (Manager.discard automatic manager root).1 where
  holds holds := ((holds_discard automatic root).mp holds).1
  children := linked.childrenOf_discard automatic root

theorem Linked.thins_discardEach (linked : manager.Linked accepted) (automatic : Bool)
    (roots : List UnitId) :
    Thins manager (manager.sequence (Manager.discard automatic) roots).1 := by
  induction roots generalizing manager with
  | nil => exact linked.thins_refl
  | cons root rest ih =>
      have discarded := linked.discard automatic root
      exact (linked.thins_discard automatic root).trans (discarded.discardEach automatic rest)
        (ih discarded)

theorem Rooted.parent_ne_of_settleUnit (rooted : manager.Rooted accepted)
    (next : manager.Next unit) (holds : (manager.settleUnit unit.held).1.Holds sibling) :
    sibling.parent ≠ manager.lastAccepted.id := by
  intro same
  have settled := rooted.settleUnit next
  by_cases present : sibling.parent ∈ (manager.settleUnit unit.held).1.pending
  · obtain ⟨above, held, here⟩ := settled.mem_pending_iff.mp present
    exact rooted.last_not_pending (same ▸ here ▸ held.of_settleUnit.mem)
  · have under : sibling.parent = unit.id := (settled.rooted holds present).parent_eq
    exact rooted.last_not_pending (same ▸ under ▸ next.holds.mem)

theorem Rooted.thins_settleUnit (rooted : manager.Rooted accepted) (next : manager.Next unit) :
    Thins manager (manager.settleUnit unit.held).1 where
  holds := Holds.of_settleUnit
  children := by
    intro above
    have settled := rooted.settleUnit next
    by_cases tip : manager.lastAccepted.id = above
    · -- the list goes with the unit, and everything on it is accepted or discarded
      have none : (manager.settleUnit unit.held).1.childrenOf above = [] := by
        rw [List.eq_nil_iff_forall_not_mem]
        intro child listed
        obtain ⟨sibling, holds, -, under⟩ := settled.children listed
        exact rooted.parent_ne_of_settleUnit next holds (under.trans tip.symm)
      rw [none, eq_comm, List.filter_eq_nil_iff]
      intro child listed stays
      obtain ⟨sibling, held, rfl, under⟩ := rooted.children listed
      obtain ⟨same, holds, alike⟩ := (isPending_iff settled.toLinked).mp stays
      cases held.eq_of_id holds.of_settleUnit alike.symm
      exact rooted.parent_ne_of_settleUnit next holds (under.trans tip.symm)
    · have departed : (manager.depart unit.held).childrenOf above = manager.childrenOf above :=
        (Links.of_erase manager.children manager.lastAccepted.id above).trans (if_neg tip)
      have alone := (rooted.depart next).thins_discardEach true (manager.siblings unit.id)
      have same := alone.children above
      rw [departed] at same
      exact (Links.of_touch _ unit.id above).trans same

theorem Rooted.thins_settle (rooted : manager.Rooted accepted) {plan : AcceptPlan}
    (plans : manager.Plans unit plan) : Thins manager (manager.settle plan).1 := by
  suffices both : (manager.settle plan).1.Rooted (accepted ++ plan.accepted.map (·.unit)) ∧
      Thins manager (manager.settle plan).1 by exact both.2
  refine rooted.settle_induction
    (fun after accepted => after.Rooted accepted ∧ Thins manager after) ?_ ?_ plans
    ⟨rooted, rooted.thins_refl⟩
  · intro between accepted root rooted earlier
    have discarded := rooted.discard true root
    exact ⟨discarded, earlier.2.trans discarded.toLinked (rooted.thins_discard true root)⟩
  · intro between accepted unit rooted next earlier
    have final := rooted.settleUnit next
    exact ⟨final, earlier.2.trans final.toLinked (rooted.thins_settleUnit next)⟩

/-- A unit has become pending, and comes last in the list of its parent. -/
structure Bears (before after : Manager) (unit : DecisionUnit) : Prop where
  fresh : unit.id ∉ before.pending
  holds : ∀ {other}, after.Holds other ↔ other = unit ∨ before.Holds other
  children : ∀ above, after.childrenOf above =
    before.childrenOf above ++ if unit.parent = above then [unit.id] else []

theorem Rooted.bears_hold (rooted : manager.Rooted accepted) (fresh : unit.id ∉ manager.pending) :
    Bears manager (manager.hold unit.held) unit where
  fresh := fresh
  holds := holds_hold fresh
  children := by
    intro above
    have unlisted : unit.id ∉ manager.children.of unit.parent := by
      intro listed
      obtain ⟨same, holds, here, -⟩ := rooted.children listed
      exact fresh (here ▸ holds.mem)
    have added : (manager.hold unit.held).childrenOf above = _ :=
      Links.of_add manager.children unit.parent unit.id above
    rw [added, if_neg unlisted]
    by_cases under : unit.parent = above
    · rw [if_pos under, if_pos under, ← under]
      rfl
    · rw [if_neg under, if_neg under, List.append_nil]
      rfl

theorem children_halt (manager : Manager) (reason : HaltReason) :
    (manager.halt reason).1.children = manager.children := by
  unfold Manager.halt
  split <;> rfl

/-- A turn makes one unit pending, or some leave and nothing else happens to the lists. -/
theorem Turn.bears_or_thins (sound : manager.Sound origin store accepted)
    (turn : manager.Turn store after further) :
    (∃ unit, Bears manager after unit) ∨ Thins manager after := by
  induction turn with
  | rest => exact .inr sound.rooted.thins_refl
  | acknowledge => exact .inr ⟨id, sound.rooted.thins_refl.children⟩
  | hold unknown _ => exact .inl ⟨_, sound.rooted.bears_hold unknown.notPending⟩
  | discard root => exact .inr (sound.rooted.thins_discard false root)
  | settle plans => exact .inr (sound.rooted.thins_settle plans)
  | @halt after further reason _ ih =>
      have children (above : UnitId) :
          (after.halt reason).1.childrenOf above = after.childrenOf above :=
        congrArg (Links.of · above) (children_halt after reason)
      have pending : (after.halt reason).1.isPending = after.isPending := by
        funext id
        rw [isPending, pending_halt, isPending]
      rcases ih with ⟨unit, bears⟩ | thins
      · exact .inl ⟨unit, bears.fresh, (holds_halt reason).trans bears.holds,
          fun above => (children above).trans (bears.children above)⟩
      · refine .inr ⟨fun holds => thins.holds ((holds_halt reason).mp holds), fun above => ?_⟩
        rw [children, pending, thins.children]

end Lists

section Entries

variable {origin : StateUpdates} {manager after : Manager} {store : Store}
  {accepted further : List DecisionUnit} {unit : DecisionUnit} {root : UnitId}

/-- There are lists of children for pending units and one other unit alone. -/
def Sparse (manager : Manager) (root : UnitId) : Prop :=
  ∀ id ∈ manager.children, id ∈ manager.pending ∨ id = root

theorem Sparse.discardUnit (sparse : manager.Sparse root) (first : UnitId) (automatic : Bool)
    (unit : UnitId) : (Manager.discardUnit first automatic manager unit).1.Sparse root := by
  unfold Manager.discardUnit
  cases manager.pending[unit]? with
  | none => exact sparse
  | some pending =>
      intro id inside
      obtain ⟨apart, before⟩ := Std.ExtTreeMap.mem_erase.mp (Std.ExtTreeMap.mem_modify.mp inside)
      exact (sparse id before).imp_left fun present => Std.ExtTreeMap.mem_erase.mpr ⟨apart, present⟩

theorem Sparse.discard (sparse : manager.Sparse root) (automatic : Bool) (first : UnitId) :
    (Manager.discard automatic manager first).1.Sparse root :=
  sequence_induction (fun after => after.Sparse root)
    (fun unit _ _ before => before.discardUnit first automatic unit) sparse

theorem Sparse.depart (sparse : manager.Sparse manager.lastAccepted.id) :
    (manager.depart unit.held).Sparse unit.id := by
  intro id inside
  obtain ⟨apart, before⟩ := Std.ExtTreeMap.mem_erase.mp inside
  rcases sparse id before with present | rfl
  · by_cases same : unit.id = id
    · exact .inr same.symm
    · exact .inl (mem_pending_depart.mpr ⟨present, same⟩)
  · exact absurd Std.ReflCmp.compare_self apart

theorem Sparse.settleUnit (sparse : manager.Sparse manager.lastAccepted.id) :
    (manager.settleUnit unit.held).1.Sparse unit.id := by
  have alone : ((manager.depart unit.held).sequence (Manager.discard true)
      (manager.siblings unit.id)).1.Sparse unit.id :=
    sequence_induction (fun after => after.Sparse unit.id)
      (fun root _ _ before => before.discard true root) sparse.depart
  intro id inside
  rcases Std.ExtTreeMap.mem_insertIfNew.mp inside with same | before
  · exact .inr (Std.LawfulEqOrd.eq_of_compare same).symm
  · exact alone id before

theorem Sparse.hold (sparse : manager.Sparse manager.lastAccepted.id)
    (rooted : manager.Rooted accepted) {parent : DecisionUnit}
    (admits : manager.Admits store parent unit) :
    (manager.hold unit.held).Sparse manager.lastAccepted.id := by
  intro id inside
  rcases Std.ExtTreeMap.mem_insert.mp inside with same | before
  · rw [← Std.LawfulEqOrd.eq_of_compare same]
    obtain ⟨follows, held | ⟨-, rfl⟩⟩ := rooted.parent_of_admits admits
    · exact .inl (mem_pending_hold.mpr (.inr (follows.parent_eq ▸ held.mem)))
    · exact .inr follows.parent_eq
  · exact (sparse id before).imp_left fun present => mem_pending_hold.mpr (.inr present)

theorem Turn.sparse (sound : manager.Sound origin store accepted)
    (turn : manager.Turn store after further) (sparse : manager.Sparse manager.lastAccepted.id) :
    after.Sparse after.lastAccepted.id := by
  induction turn with
  | rest | acknowledge => exact sparse
  | hold _ admits => exact sparse.hold sound.rooted admits
  | discard root =>
      rw [lastAccepted_discard]
      exact sparse.discard false root
  | settle plans =>
      refine sound.rooted.settle_induction (fun after _ => after.Sparse after.lastAccepted.id)
        (fun root _ before => ?_) (fun _ _ before => before.settleUnit) plans sparse
      rw [lastAccepted_discard]
      exact before.discard true root
  | halt reason _ ih =>
      intro id inside
      rw [children_halt] at inside
      rw [pending_halt, lastAccepted_halt]
      exact ih id inside

/-- There is at most one list more than there are pending units. -/
theorem Sparse.size_le (sparse : manager.Sparse root) :
    manager.children.size ≤ manager.pending.size + 1 := by
  have among : manager.children.keys ⊆ root :: manager.pending.keys := by
    intro id listed
    rcases sparse id (Std.ExtTreeMap.mem_of_mem_keys listed) with present | rfl
    · exact List.mem_cons_of_mem _ (Std.ExtTreeMap.mem_keys.mpr present)
    · exact List.mem_cons_self
  have shorter := (Std.ExtTreeMap.nodup_keys.subperm among).length_le
  rwa [List.length_cons, Std.ExtTreeMap.length_keys, Std.ExtTreeMap.length_keys] at shorter

end Entries

section Order

variable {origin : StateUpdates} {manager after : Manager} {store other : Store}
  {accepted further order : List DecisionUnit} {unit : DecisionUnit}

/-- Whether a unit is pending and extends a given one. -/
def isOffspring (manager : Manager) (above : UnitId) (unit : DecisionUnit) : Bool :=
  manager.pending[unit.id]?.any (·.unit = unit) && unit.parent = above

theorem Linked.isOffspring_iff (linked : manager.Linked accepted) {above : UnitId} :
    manager.isOffspring above unit = true ↔ manager.Holds unit ∧ unit.parent = above := by
  rw [isOffspring, Bool.and_eq_true, decide_eq_true_eq, Option.any_eq_true]
  refine and_congr_left fun _ => ⟨?_, fun holds => ⟨unit.held, holds, decide_eq_true rfl⟩⟩
  rintro ⟨pending, found, same⟩
  rw [← of_decide_eq_true same, Holds, ← (linked.keyed found).2, of_decide_eq_true same]
  exact found

/-- An order of units that is the order of every list of children, in which no unit is twice: who
leaves it never comes back. -/
structure Ranks (manager : Manager) (accepted order : List DecisionUnit) : Prop where
  distinct : order.Nodup
  known : ∀ unit ∈ order,
    manager.Holds unit ∨ unit ∈ accepted ∨ manager.Barred accepted unit
  children : ∀ above,
    manager.childrenOf above = (order.filter (manager.isOffspring above)).map (·.id)

theorem Turn.known (sound : manager.Sound origin store accepted)
    (next : after.Sound origin other (accepted ++ further))
    (turn : manager.Turn store after further)
    (known : manager.Holds unit ∨ unit ∈ accepted ∨ manager.Barred accepted unit) :
    after.Holds unit ∨ unit ∈ accepted ++ further ∨ after.Barred (accepted ++ further) unit := by
  rcases known with holds | inside | barred
  · by_cases held : after.Holds unit
    · exact .inl held
    by_cases settled : unit ∈ accepted ++ further
    · exact .inr (.inl settled)
    · exact .inr (.inr (turn.barred sound holds held settled))
  · exact .inr (.inl (List.mem_append_left _ inside))
  · exact .inr (.inr (barred.turn sound next turn))

theorem Ranks.thin (ranks : manager.Ranks accepted order)
    (sound : manager.Sound origin store accepted)
    (next : after.Sound origin other (accepted ++ further))
    (turn : manager.Turn store after further) (thins : Thins manager after) :
    after.Ranks (accepted ++ further) order where
  distinct := ranks.distinct
  known unit inside := turn.known sound next (ranks.known unit inside)
  children := by
    intro above
    rw [thins.children, ranks.children, List.filter_map, List.filter_filter]
    refine congrArg _ (List.filter_congr fun unit _ => ?_)
    rw [Bool.eq_iff_iff, Bool.and_eq_true, next.rooted.isOffspring_iff,
      sound.rooted.isOffspring_iff, Function.comp_apply, isPending_iff next.rooted.toLinked]
    constructor
    · rintro ⟨⟨same, held, here⟩, holds, under⟩
      cases holds.eq_of_id (thins.holds held) here.symm
      exact ⟨held, under⟩
    · rintro ⟨held, under⟩
      exact ⟨⟨unit, held, rfl⟩, thins.holds held, under⟩

theorem Ranks.bear (ranks : manager.Ranks accepted order)
    (sound : manager.Sound origin store accepted)
    (next : after.Sound origin other (accepted ++ further))
    (turn : manager.Turn store after further) (bears : Bears manager after unit) :
    after.Ranks (accepted ++ further) (order ++ [unit]) := by
  have born : after.Holds unit := bears.holds.mpr (.inl rfl)
  have new : unit ∉ order := by
    intro inside
    rcases ranks.known unit inside with holds | settled | barred
    · exact bears.fresh holds.mem
    · exact (next.rooted.settled (List.mem_append_left _ settled)).1 born.mem
    · exact (barred.turn sound next turn).notHolds born
  refine ⟨List.nodup_append.mpr ⟨ranks.distinct, List.nodup_singleton _, ?_⟩, ?_, fun above => ?_⟩
  · rintro earlier inside last here rfl
    exact new (List.mem_singleton.mp here ▸ inside)
  · intro known inside
    rcases List.mem_append.mp inside with earlier | last
    · exact turn.known sound next (ranks.known known earlier)
    · exact .inl (List.mem_singleton.mp last ▸ born)
  · have older : order.filter (after.isOffspring above) =
        order.filter (manager.isOffspring above) := by
      refine List.filter_congr fun sibling inside => ?_
      rw [Bool.eq_iff_iff, next.rooted.isOffspring_iff, sound.rooted.isOffspring_iff, bears.holds,
        or_iff_right]
      exact fun same => new (same ▸ inside)
    have last : after.isOffspring above unit = decide (unit.parent = above) := by
      rw [Bool.eq_iff_iff, next.rooted.isOffspring_iff, decide_eq_true_eq, and_iff_right born]
    rw [bears.children, ranks.children, List.filter_append, List.map_append, older,
      List.filter_singleton, last]
    by_cases under : unit.parent = above <;> simp [under]

theorem ranks_initial (config : Configuration) (tip : DecisionUnit) :
    (initial config tip).Ranks accepted [] where
  distinct := List.nodup_nil
  known unit inside := absurd inside List.not_mem_nil
  children := by
    intro above
    have empty : (initial config tip).childrenOf above = if tip.id = above then [] else [] :=
      Links.of_insert ∅ tip.id above []
    rw [empty, ite_self]
    rfl

theorem sparse_initial (config : Configuration) (tip : DecisionUnit) :
    (initial config tip).Sparse tip.id := by
  intro id inside
  rcases Std.ExtTreeMap.mem_insert.mp inside with same | before
  · exact .inr (Std.LawfulEqOrd.eq_of_compare same).symm
  · exact absurd before Std.ExtTreeMap.not_mem_empty

end Order

/-- The lists of children of a manager in which units have become pending one after another. -/
structure Offspring (manager : Manager) (arrivals : List DecisionUnit) : Prop where
  /-- No unit becomes pending twice. -/
  distinct : arrivals.Nodup
  /-- The list of any unit has the pending units among the arrivals that extend it, in order. -/
  children : ∀ above,
    manager.childrenOf above = (arrivals.filter (manager.isOffspring above)).map (·.id)
  listed : ∀ {above child : UnitId}, child ∈ manager.childrenOf above ↔
    ∃ pending, manager.pending[child]? = some pending ∧ pending.unit.parent = above
  once : ∀ above, (manager.childrenOf above).Nodup
  arrived : ∀ {id : UnitId} {pending : PendingUnit}, manager.pending[id]? = some pending →
    pending.unit ∈ arrivals
  entries : ∀ id ∈ manager.children, id ∈ manager.pending ∨ id = manager.lastAccepted.id
  size : manager.children.size ≤ manager.pending.size + 1

theorem Ranks.offspring {origin : StateUpdates} {manager : Manager} {store : Store}
    {accepted order : List DecisionUnit} (ranks : manager.Ranks accepted order)
    (sound : manager.Sound origin store accepted)
    (sparse : manager.Sparse manager.lastAccepted.id) : manager.Offspring order where
  distinct := ranks.distinct
  children := ranks.children
  listed := sound.mem_children_iff
  once := by
    intro above
    rw [ranks.children]
    refine (ranks.distinct.filter _).map_on fun unit inside other beside same => ?_
    obtain ⟨holds, -⟩ := sound.rooted.isOffspring_iff.mp (List.mem_filter.mp inside).2
    obtain ⟨held, -⟩ := sound.rooted.isOffspring_iff.mp (List.mem_filter.mp beside).2
    exact holds.eq_of_id held same
  arrived := by
    intro id pending found
    obtain ⟨unit, holds, rfl, rfl⟩ := sound.rooted.exists_of_getElem? found
    have listed : unit.id ∈ manager.childrenOf unit.parent :=
      sound.mem_children_iff.mpr ⟨_, found, rfl⟩
    rw [ranks.children] at listed
    obtain ⟨other, inside, same⟩ := List.mem_map.mp listed
    obtain ⟨arrived, offspring⟩ := List.mem_filter.mp inside
    cases holds.eq_of_id (sound.rooted.isOffspring_iff.mp offspring).1 same.symm
    exact arrived
  entries := sparse
  size := sparse.size_le

end Manager

section Run

variable {ω : Type} {host : LawfulHost ω} {config : Configuration} {origin : StateUpdates}
  {accepted further order : List DecisionUnit} {unit : DecisionUnit}

namespace Step

def arrivals (step : Step host) (situation : Manager × ω) : List DecisionUnit :=
  step.given.filter fun unit =>
    !situation.1.isPending unit.id && (step.perform situation).1.isPending unit.id

def arrivalsAll : List (Step host) → Manager × ω → List DecisionUnit
  | [], _ => []
  | step :: rest, situation =>
    step.arrivals situation ++ arrivalsAll rest (step.perform situation)

theorem given_eq_of_mem {step : Step host} (given : unit ∈ step.given) : step.given = [unit] := by
  cases step with
  | verify other => rw [List.mem_singleton.mp given, Step.given]
  | accept | reject | drift => exact absurd given List.not_mem_nil

variable {step : Step host} {situation : Manager × ω}

theorem arrivals_of_thins (next : (step.perform situation).1.Linked accepted)
    (thins : situation.1.Thins (step.perform situation).1) : step.arrivals situation = [] := by
  refine List.filter_eq_nil_iff.mpr fun unit _ arrives => ?_
  rw [Bool.and_eq_true, Manager.isPending_iff next] at arrives
  obtain ⟨absent, same, held, here⟩ := arrives
  have present : situation.1.isPending unit.id = true :=
    here ▸ Std.ExtTreeMap.contains_iff_mem.mpr (thins.holds held).mem
  simp [present] at absent

theorem arrivals_of_bears (sound : situation.1.Sound origin (host.store situation.2) accepted)
    (bears : situation.1.Bears (step.perform situation).1 unit) :
    step.arrivals situation = [unit] := by
  have born : (step.perform situation).1.Holds unit := bears.holds.mpr (.inl rfl)
  have given : unit ∈ step.given :=
    (step.holds_perform situation sound born).resolve_left fun before => bears.fresh before.mem
  have before : situation.1.isPending unit.id = false :=
    Bool.eq_false_iff.mpr (mt Std.ExtTreeMap.contains_iff_mem.mp bears.fresh)
  have after : (step.perform situation).1.isPending unit.id = true :=
    Std.ExtTreeMap.contains_iff_mem.mpr born.mem
  rw [arrivals, given_eq_of_mem given, List.filter_singleton, before, after]
  rfl

/-- What holds of a manager and of the units that became pending, and is kept when one more does and
when some leave, holds after any steps. -/
theorem arrivals_induction (holds : Manager → List DecisionUnit → List DecisionUnit → Prop)
    (bear : ∀ {manager after : Manager} {store other : Store}
      {accepted further order : List DecisionUnit} {unit : DecisionUnit},
      manager.Sound origin store accepted → after.Sound origin other (accepted ++ further) →
      manager.Turn store after further → manager.Bears after unit →
      holds manager accepted order → holds after (accepted ++ further) (order ++ [unit]))
    (thin : ∀ {manager after : Manager} {store other : Store}
      {accepted further order : List DecisionUnit},
      manager.Sound origin store accepted → after.Sound origin other (accepted ++ further) →
      manager.Turn store after further → manager.Thins after →
      holds manager accepted order → holds after (accepted ++ further) order)
    (steps : List (Step host)) (situation : Manager × ω)
    (sound : situation.1.Sound origin (host.store situation.2) accepted)
    (start : holds situation.1 accepted order) :
    ∃ further, (run steps situation).1.Sound origin (host.store (run steps situation).2)
        (accepted ++ further) ∧
      holds (run steps situation).1 (accepted ++ further)
        (order ++ arrivalsAll steps situation) := by
  induction steps generalizing situation accepted order with
  | nil =>
      refine ⟨[], ?_⟩
      rw [arrivalsAll, List.append_nil, List.append_nil]
      exact ⟨sound, start⟩
  | cons step rest ih =>
      obtain ⟨added, turn, next⟩ := step.turn_perform situation sound
      have taken : holds (step.perform situation).1 (accepted ++ added)
          (order ++ step.arrivals situation) := by
        rcases turn.bears_or_thins sound with ⟨unit, bears⟩ | thins
        · rw [arrivals_of_bears sound bears]
          exact bear sound next turn bears start
        · rw [arrivals_of_thins next.rooted.toLinked thins, List.append_nil]
          exact thin sound next turn thins start
      obtain ⟨later, final, held⟩ := ih (step.perform situation) next taken
      rw [List.append_assoc] at final held
      exact ⟨added ++ later, final, by rwa [List.append_assoc] at held⟩

theorem ranks_run (steps : List (Step host)) (situation : Manager × ω)
    (sound : situation.1.Sound origin (host.store situation.2) accepted)
    (ranks : situation.1.Ranks accepted order) :
    ∃ further, (run steps situation).1.Sound origin (host.store (run steps situation).2)
        (accepted ++ further) ∧
      (run steps situation).1.Ranks (accepted ++ further)
        (order ++ arrivalsAll steps situation) :=
  arrivals_induction Manager.Ranks
    (fun sound next turn bears before => before.bear sound next turn bears)
    (fun sound next turn thins before => before.thin sound next turn thins)
    steps situation sound ranks

end Step

/-- The units that become pending in some steps of a tenure, in the order in which they are
verified. -/
def Tenure.arrivals (tenure : Tenure host config origin) (steps : List (Step host)) :
    List DecisionUnit :=
  Step.arrivalsAll steps (tenure.manager, tenure.world)

/-- After any calls, the children of every unit are the pending units that extend it, each once and
in the order in which they were verified, and there are lists for pending units and the last
accepted one alone. -/
theorem Tenure.offspring_run (tenure : Tenure host config origin) (steps : List (Step host)) :
    (tenure.run steps).1.Offspring (tenure.arrivals steps) := by
  obtain ⟨accepted, tip, same, sound⟩ := tenure.begins
  have start : tenure.manager.Ranks accepted [] := same ▸ Manager.ranks_initial config tip
  obtain ⟨further, later, ranks⟩ := Step.ranks_run steps (tenure.manager, tenure.world) sound start
  obtain ⟨-, -, sparse⟩ := Tenure.run_induction
    (fun manager _ => manager.Sparse manager.lastAccepted.id)
    (fun _ => Manager.sparse_initial config _)
    (fun sound _ turn before => turn.sparse sound before) tenure steps
  exact ranks.offspring later sparse

end Run

end DecisionLedger
