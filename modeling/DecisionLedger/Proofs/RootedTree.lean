import DecisionLedger.Proofs.Ledger
import DecisionLedger.Proofs.PendingTree

/-! # The root of the pending units

Between operations the tree of pending units stands on the last accepted unit, and the manager
remembers only units that were accepted.  Verifying adds a leaf.  Accepting moves the root up to a
unit above it, and what does not stand on that unit goes.
-/

namespace DecisionLedger

namespace Links

theorem mem_of_add {links : Links} {unit child above other : UnitId} :
    other ∈ (links.add unit child).of above ↔
      other ∈ links.of above ∨ (unit = above ∧ other = child) := by
  rw [of_add]
  by_cases same : unit = above
  · subst same
    by_cases present : child ∈ links.of unit
    · rw [if_pos rfl, if_pos present]
      constructor
      · exact .inl
      · rintro (old | ⟨-, rfl⟩)
        · exact old
        · exact present
    · rw [if_pos rfl, if_neg present, List.mem_append, List.mem_singleton]
      simp
  · simp [same]

theorem mem_of_addEach (links : Links) (units : List UnitId) (child : UnitId)
    {above other : UnitId} :
    other ∈ (units.foldl (fun links unit => links.add unit child) links).of above ↔
      other ∈ links.of above ∨ (above ∈ units ∧ other = child) := by
  induction units generalizing links with
  | nil => simp
  | cons unit rest ih =>
      rw [List.foldl_cons, ih, mem_of_add, List.mem_cons]
      constructor
      · rintro ((old | ⟨rfl, new⟩) | ⟨later, new⟩)
        · exact .inl old
        · exact .inr ⟨.inl rfl, new⟩
        · exact .inr ⟨.inr later, new⟩
      · rintro (old | ⟨rfl | later, new⟩)
        · exact .inl (.inl old)
        · exact .inl (.inr ⟨rfl, new⟩)
        · exact .inr ⟨later, new⟩

end Links

namespace Manager

/-- The tree of pending units on top of everything accepted. -/
structure Rooted (manager : Manager) (accepted : List DecisionUnit) : Prop
    extends manager.Linked accepted where
  last : accepted.getLast? = some manager.lastAccepted
  rooted : ∀ {unit}, manager.Holds unit → unit.parent ∉ manager.pending →
    unit.Extends manager.lastAccepted
  recent : ∀ unit ∈ manager.recent, unit ∈ accepted

section Acquaintance

variable {manager : Manager} {store : Store} {accepted : List DecisionUnit}

theorem recent?_eq_some {id : UnitId} {unit : DecisionUnit}
    (found : manager.recent? id = some unit) : unit ∈ manager.recent ∧ unit.id = id :=
  ⟨List.mem_of_find?_eq_some found, by simpa using List.find?_some found⟩

theorem isAccepted_iff (recent : ∀ unit ∈ manager.recent, unit ∈ accepted)
    (lists : store.Lists accepted) {id : UnitId} :
    manager.isAccepted store id = true ↔ ∃ unit ∈ accepted, unit.id = id := by
  rw [isAccepted, Bool.or_eq_true, lists.containsUnit_iff]
  constructor
  · rintro (known | stored)
    · obtain ⟨unit, found⟩ := Option.isSome_iff_exists.mp known
      obtain ⟨inside, same⟩ := recent?_eq_some found
      exact ⟨unit, recent unit inside, same⟩
    · exact stored
  · exact .inr

theorem resolveParent_eq_ok {id : UnitId} {parent : DecisionUnit}
    (found : manager.resolveParent store id = .ok parent) :
    (∃ pending, manager.pending[id]? = some pending ∧ pending.unit = parent) ∨
      id ∉ manager.pending ∧ id = manager.lastAccepted.id ∧ parent = manager.lastAccepted := by
  unfold resolveParent at found
  cases known : manager.pending[id]? with
  | some pending =>
      rw [known] at found
      exact .inl ⟨pending, rfl, Except.ok.inj found⟩
  | none =>
      simp only [known] at found
      split at found
      · rename_i same
        refine .inr ⟨?_, same, (Except.ok.inj found).symm⟩
        simp [Std.ExtTreeMap.mem_iff_isSome_getElem?, known]
      · split at found
        · cases found
        · split at found <;> cases found

theorem Linked.exists_of_knownHeight? (linked : manager.Linked accepted)
    (recent : ∀ unit ∈ manager.recent, unit ∈ accepted) (lists : store.Lists accepted)
    {id : UnitId} {height : Height}
    (known : manager.knownHeight? store id = .ok (some height)) :
    ∃ target, target.id = id ∧ target.height = height ∧
      (manager.Holds target ∨ target ∈ accepted) := by
  unfold knownHeight? at known
  cases found : manager.pending[id]? with
  | some pending =>
      rw [found] at known
      obtain ⟨unit, holds, same, rfl⟩ := linked.exists_of_getElem? found
      exact ⟨unit, same, Option.some.inj (Except.ok.inj known), .inl holds⟩
  | none =>
      simp only [found] at known
      cases remembered : manager.recent? id with
      | some unit =>
          rw [remembered] at known
          obtain ⟨inside, same⟩ := recent?_eq_some remembered
          exact ⟨unit, same, Option.some.inj (Except.ok.inj known), .inr (recent unit inside)⟩
      | none =>
          simp only [remembered] at known
          cases stored : store.unit? id with
          | error problem => simp [stored] at known
          | ok unit =>
              simp only [stored, Except.ok.injEq, Option.map_eq_some_iff] at known
              obtain ⟨target, rfl, same⟩ := known
              obtain ⟨inside, here⟩ := lists.mem_of_unit? stored
              exact ⟨target, here, same, .inr inside⟩

theorem not_option_of_optionOf? {proposal : UnitId} {choice : Choice}
    (vacant : manager.optionOf? proposal choice = none) {unit : DecisionUnit}
    (holds : manager.Holds unit) (listed : unit.id ∈ manager.children.of proposal) :
    unit.body.choice? ≠ some choice := by
  intro chosen
  rw [optionOf?, List.find?_eq_none] at vacant
  have execution := DecisionUnit.execution_eq_option_iff.mpr chosen
  have refused := vacant unit.id listed
  rw [holds] at refused
  simp [DecisionUnit.held, execution] at refused

theorem Linked.exists_of_optionOf? (linked : manager.Linked accepted) {proposal id : UnitId}
    {choice : Choice} (found : manager.optionOf? proposal choice = some id) :
    ∃ unit, manager.Holds unit ∧ unit.id = id ∧ unit.parent = proposal ∧
      unit.body.choice? = some choice := by
  obtain ⟨unit, holds, rfl, under⟩ := linked.children (List.mem_of_find?_eq_some found)
  have chosen := List.find?_some found
  rw [holds] at chosen
  refine ⟨unit, holds, rfl, under, DecisionUnit.execution_eq_option_iff.mp ?_⟩
  cases execution : unit.execution with
  | effect diff => simp [DecisionUnit.held, execution] at chosen
  | proposal branches => simp [DecisionUnit.held, execution] at chosen
  | option other =>
      simp only [DecisionUnit.held, execution, decide_eq_true_eq] at chosen
      rw [chosen]

end Acquaintance

section Hold

variable {manager : Manager} {store : Store} {accepted : List DecisionUnit}
  {parent unit other : DecisionUnit}

theorem getElem?_pending_hold {id : UnitId} : (manager.hold unit.held).pending[id]? =
    if unit.id = id then some unit.held else manager.pending[id]? := by
  simp [hold, DecisionUnit.held, Std.ExtTreeMap.getElem?_insert]

theorem holds_hold (fresh : unit.id ∉ manager.pending) :
    (manager.hold unit.held).Holds other ↔ other = unit ∨ manager.Holds other := by
  rw [Holds, getElem?_pending_hold]
  constructor
  · intro holds
    split at holds
    · exact .inl (congrArg PendingUnit.unit (Option.some.inj holds)).symm
    · exact .inr holds
  · rintro (rfl | holds)
    · rw [if_pos rfl]
    · have different : unit.id ≠ other.id := fun same => fresh (same ▸ holds.mem)
      rw [if_neg different]
      exact holds

theorem mem_pending_hold {id : UnitId} :
    id ∈ (manager.hold unit.held).pending ↔ unit.id = id ∨ id ∈ manager.pending := by
  simp [hold, DecisionUnit.held, Std.ExtTreeMap.mem_insert]

theorem mem_children_hold {above child : UnitId} :
    child ∈ (manager.hold unit.held).children.of above ↔
      child ∈ manager.children.of above ∨ (unit.parent = above ∧ child = unit.id) :=
  Links.mem_of_add

theorem mem_referencedBy_hold {edge vertex : UnitId} :
    vertex ∈ (manager.hold unit.held).referencedBy.of edge ↔
      vertex ∈ manager.referencedBy.of edge ∨
        ((edge ∈ unit.body.edges ∧ edge ∈ manager.pending) ∧ vertex = unit.id) := by
  refine (Links.mem_of_addEach manager.referencedBy (unit.body.edges.filter manager.isPending)
    unit.id).trans ?_
  rw [List.mem_filter, isPending, Std.ExtTreeMap.contains_iff_mem]

theorem Rooted.parent_of_admits (rooted : manager.Rooted accepted)
    (admits : manager.Admits store parent unit) :
    unit.Extends parent ∧ (manager.Holds parent ∨
      unit.parent ∉ manager.pending ∧ parent = manager.lastAccepted) := by
  have follows : parent.id = unit.parent → unit.Extends parent :=
    fun same => ⟨same.symm, admits.height, admits.option⟩
  rcases resolveParent_eq_ok admits.found with ⟨pending, found, rfl⟩ | ⟨absent, tip, rfl⟩
  · obtain ⟨above, holds, same, rfl⟩ := rooted.exists_of_getElem? found
    exact ⟨follows same, .inl holds⟩
  · exact ⟨follows tip.symm, .inr ⟨absent, rfl⟩⟩

theorem Rooted.listed_parent (rooted : manager.Rooted accepted) (holds : manager.Holds other)
    (admits : manager.Admits store parent unit) (same : other.parent = unit.parent) :
    other.id ∈ manager.children.of unit.parent := by
  rw [← same]
  apply rooted.listed holds
  rw [same]
  obtain ⟨follows, pending | ⟨-, rfl⟩⟩ := rooted.parent_of_admits admits
  · exact .inl (follows.parent_eq ▸ pending.mem)
  · exact .inr ⟨_, rooted.last, follows.parent_eq.symm⟩

theorem Rooted.vacant_of_admits (rooted : manager.Rooted accepted)
    (admits : manager.Admits store parent unit) (holds : manager.Holds other)
    (same : other.parent = unit.parent) {choice : Choice}
    (chosen : unit.body.choice? = some choice) : other.body.choice? ≠ some choice := by
  intro taken
  have listed := rooted.listed_parent holds admits same
  rw [(rooted.parent_of_admits admits).1.parent_eq] at listed
  exact not_option_of_optionOf? (admits.vacant chosen) holds listed taken

theorem Linked.exists_parent (linked : manager.Linked accepted) (holds : manager.Holds other) :
    ∃ above, above.id = other.parent ∧ (manager.Holds above ∨ above ∈ accepted) := by
  rcases linked.parent holds with ⟨above, held, follows⟩ | ⟨above, inside, same⟩
  · exact ⟨above, follows.parent_eq.symm, .inl held⟩
  · exact ⟨above, same, .inr inside⟩

theorem Rooted.ne_of_unknown (rooted : manager.Rooted accepted) (lists : store.Lists accepted)
    {id : UnitId} (unknown : manager.Unknown store id)
    (known : manager.Holds other ∨ other ∈ accepted) : other.id ≠ id := by
  rintro rfl
  rcases known with held | inside
  · exact unknown.notPending held.mem
  · exact unknown.notAccepted
      ((isAccepted_iff rooted.recent lists).mpr ⟨other, inside, rfl⟩)

theorem Rooted.edges_hold (rooted : manager.Rooted accepted) (lists : store.Lists accepted)
    (unknown : manager.Unknown store unit.id) (admits : manager.Admits store parent unit)
    (holds : (manager.hold unit.held).Holds other) {edge : UnitId}
    (edged : edge ∈ other.body.edges) :
    ∃ target, target.id = edge ∧ target.height < other.height ∧
      (manager.Holds target ∨ target ∈ accepted) := by
  rcases (holds_hold unknown.notPending).mp holds with rfl | before
  · obtain ⟨height, known, lower⟩ := admits.edges edge edged
    obtain ⟨target, same, rfl, present⟩ :=
      rooted.exists_of_knownHeight? rooted.recent lists known
    exact ⟨target, same, lower, present⟩
  · exact rooted.edges before edge edged

/-- Holding an admitted unit adds a leaf to the tree. -/
theorem Rooted.hold (rooted : manager.Rooted accepted) (lists : store.Lists accepted)
    (unknown : manager.Unknown store unit.id) (admits : manager.Admits store parent unit) :
    (manager.hold unit.held).Rooted accepted where
  keyed := by
    intro id pending found
    rw [getElem?_pending_hold] at found
    split at found
    · rename_i same
      cases found
      exact ⟨same.symm, rfl⟩
    · exact rooted.keyed found
  parent := by
    intro other holds
    rcases (holds_hold unknown.notPending).mp holds with rfl | before
    · obtain ⟨follows, pending | ⟨-, rfl⟩⟩ := rooted.parent_of_admits admits
      · exact .inl ⟨parent, (holds_hold unknown.notPending).mpr (.inr pending), follows⟩
      · exact .inr ⟨_, List.mem_of_getLast? rooted.last, follows.parent_eq.symm⟩
    · rcases rooted.parent before with ⟨above, pending, follows⟩ | settled
      · exact .inl ⟨above, (holds_hold unknown.notPending).mpr (.inr pending), follows⟩
      · exact .inr settled
  edges := by
    intro other holds edge edged
    obtain ⟨target, same, lower, pending | inside⟩ :=
      rooted.edges_hold lists unknown admits holds edged
    · exact ⟨target, same, lower, .inl ((holds_hold unknown.notPending).mpr (.inr pending))⟩
    · exact ⟨target, same, lower, .inr inside⟩
  children := by
    intro above child listed
    rcases mem_children_hold.mp listed with old | ⟨under, rfl⟩
    · obtain ⟨other, holds, rest⟩ := rooted.children old
      exact ⟨other, (holds_hold unknown.notPending).mpr (.inr holds), rest⟩
    · exact ⟨unit, (holds_hold unknown.notPending).mpr (.inl rfl), rfl, under⟩
  listed := by
    intro other holds attached
    rw [mem_children_hold]
    rcases (holds_hold unknown.notPending).mp holds with rfl | before
    · exact .inr ⟨rfl, rfl⟩
    · refine .inl (rooted.listed before ?_)
      rcases attached with present | tip
      · rcases mem_pending_hold.mp present with same | pending
        · -- nothing was pending on a unit that was not known
          obtain ⟨above, here, known⟩ := rooted.exists_parent before
          exact absurd (here.trans same.symm) (rooted.ne_of_unknown lists unknown known)
        · exact .inl pending
      · exact .inr tip
  references := by
    intro edge vertex listed
    rcases mem_referencedBy_hold.mp listed with old | ⟨⟨edged, pending⟩, rfl⟩
    · obtain ⟨target, held, same, known⟩ := rooted.references old
      refine ⟨target, (holds_hold unknown.notPending).mpr (.inr held), same, ?_⟩
      rcases known with ⟨other, holds, rest⟩ | gone
      · exact .inl ⟨other, (holds_hold unknown.notPending).mpr (.inr holds), rest⟩
      · exact .inr gone
    · obtain ⟨target, held, same⟩ := rooted.mem_pending_iff.mp pending
      exact ⟨target, (holds_hold unknown.notPending).mpr (.inr held), same,
        .inl ⟨unit, (holds_hold unknown.notPending).mpr (.inl rfl), rfl, edged⟩⟩
  referenced := by
    intro other target holds held edged
    rw [mem_referencedBy_hold]
    rcases (holds_hold unknown.notPending).mp held with rfl | pending
    · -- no edge leads to a unit that was not known
      obtain ⟨found, same, -, known⟩ := rooted.edges_hold lists unknown admits holds edged
      exact absurd same (rooted.ne_of_unknown lists unknown known)
    · rcases (holds_hold unknown.notPending).mp holds with rfl | before
      · exact .inr ⟨⟨edged, pending.mem⟩, rfl⟩
      · exact .inl (rooted.referenced before pending edged)
  options := by
    intro left right choice holdsLeft holdsRight same chosenLeft chosenRight
    rcases (holds_hold unknown.notPending).mp holdsLeft with rfl | left <;>
      rcases (holds_hold unknown.notPending).mp holdsRight with rfl | right
    · rfl
    · exact absurd chosenRight (rooted.vacant_of_admits admits right same.symm chosenLeft)
    · exact absurd chosenLeft (rooted.vacant_of_admits admits left same chosenRight)
    · exact rooted.options left right same chosenLeft chosenRight
  settled := by
    intro other inside
    refine ⟨fun present => ?_, (rooted.settled inside).2⟩
    rcases mem_pending_hold.mp present with same | pending
    · exact rooted.ne_of_unknown lists unknown (.inr inside) same.symm
    · exact (rooted.settled inside).1 pending
  rejected := by
    intro id gone present
    rcases mem_pending_hold.mp present with rfl | pending
    · exact unknown.notRejected gone
    · exact rooted.rejected gone pending
  last := rooted.last
  rooted := by
    intro other holds unattached
    rcases (holds_hold unknown.notPending).mp holds with rfl | before
    · obtain ⟨follows, pending | ⟨-, rfl⟩⟩ := rooted.parent_of_admits admits
      · exact absurd (mem_pending_hold.mpr (.inr (follows.parent_eq ▸ pending.mem))) unattached
      · exact follows
    · exact rooted.rooted before (fun pending => unattached (mem_pending_hold.mpr (.inr pending)))
  recent := rooted.recent

end Hold

section Reject

variable {manager : Manager} {accepted : List DecisionUnit}

theorem lastAccepted_discard (automatic : Bool) (manager : Manager) (root : UnitId) :
    (discard automatic manager root).1.lastAccepted = manager.lastAccepted :=
  congrArg (·.2.1) (settings_discard automatic manager root)

theorem recent_discard (automatic : Bool) (manager : Manager) (root : UnitId) :
    (discard automatic manager root).1.recent = manager.recent :=
  congrArg (·.2.2.1) (settings_discard automatic manager root)

theorem Rooted.discard (rooted : manager.Rooted accepted) (automatic : Bool) (root : UnitId) :
    (discard automatic manager root).1.Rooted accepted where
  toLinked := rooted.toLinked.discard automatic root
  last := by rw [lastAccepted_discard, rooted.last]
  rooted := by
    intro unit holds unattached
    rw [lastAccepted_discard]
    rcases (rooted.toLinked.discard automatic root).parent holds with
      ⟨above, held, follows⟩ | ⟨above, inside, same⟩
    · exact absurd (follows.parent_eq ▸ held.mem) unattached
    · exact rooted.rooted ((holds_discard automatic root).mp holds).1
        (same ▸ (rooted.settled inside).1)
  recent := by
    rw [recent_discard]
    exact rooted.recent

theorem Rooted.acknowledge (rooted : manager.Rooted accepted) {id : UnitId}
    {found : RejectedUnit} (known : manager.rejected[id]? = some found) (awaiting : Bool) :
    ({ manager with
      rejected := manager.rejected.insert id { found with awaiting } } : Manager).Rooted
        accepted where
  keyed := rooted.keyed
  parent := rooted.parent
  edges := rooted.edges
  children := rooted.children
  listed := rooted.listed
  references := by
    intro edge vertex listed
    obtain ⟨target, held, same, holds | ⟨rejected, remembered, lower⟩⟩ := rooted.references listed
    · exact ⟨target, held, same, .inl holds⟩
    · refine ⟨target, held, same, .inr ?_⟩
      by_cases here : id = vertex
      · subst here
        rw [known] at remembered
        cases remembered
        exact ⟨_, Std.ExtTreeMap.getElem?_insert_self, lower⟩
      · refine ⟨rejected, ?_, lower⟩
        simpa [Std.ExtTreeMap.getElem?_insert, here] using remembered
  referenced := rooted.referenced
  options := rooted.options
  settled := by
    intro unit inside
    refine ⟨(rooted.settled inside).1, fun gone => ?_⟩
    rcases Std.ExtTreeMap.mem_insert.mp gone with same | before
    · rw [Std.LawfulEqOrd.eq_of_compare same] at known
      exact (rooted.settled inside).2
        (Std.ExtTreeMap.mem_iff_isSome_getElem?.mpr (known ▸ rfl))
    · exact (rooted.settled inside).2 before
  rejected := by
    intro other gone
    rcases Std.ExtTreeMap.mem_insert.mp gone with same | before
    · rw [Std.LawfulEqOrd.eq_of_compare same] at known
      exact rooted.rejected (Std.ExtTreeMap.mem_iff_isSome_getElem?.mpr (known ▸ rfl))
    · exact rooted.rejected before
  last := rooted.last
  rooted := rooted.rooted
  recent := rooted.recent

theorem reject_events {id : UnitId} {after : Manager} {events : List Event}
    (done : manager.reject id = .ok (after, events)) :
    (∃ found, manager.rejected[id]? = some found ∧
      after = { manager with
        rejected := manager.rejected.insert id { found with awaiting := false } } ∧
      events = []) ∨ (after, events) = Manager.discard false manager id := by
  unfold reject at done
  obtain ⟨_, -, done⟩ := bind_eq_ok_iff.mp done
  cases known : manager.rejected[id]? with
  | some found =>
      simp only [known] at done
      cases done
      exact .inl ⟨found, rfl, rfl, rfl⟩
  | none =>
      simp only [known] at done
      split at done
      · simp [throw, throwThe, MonadExceptOf.throw] at done
      · simp [throw, throwThe, MonadExceptOf.throw] at done
      · exact .inr (Except.ok.inj done).symm

/-- A rejection that succeeds acknowledges an earlier one, or discards the branch of a unit. -/
theorem reject_cases {id : UnitId} {after : Manager} {events : List Event}
    (done : manager.reject id = .ok (after, events)) :
    (∃ found, manager.rejected[id]? = some found ∧
      after = { manager with
        rejected := manager.rejected.insert id { found with awaiting := false } }) ∨
      after = (Manager.discard false manager id).1 := by
  rcases reject_events done with ⟨found, known, same, -⟩ | same
  · exact .inl ⟨found, known, same⟩
  · exact .inr (congrArg Prod.fst same)

theorem Rooted.reject (rooted : manager.Rooted accepted) {id : UnitId} {after : Manager}
    {events : List Event} (done : manager.reject id = .ok (after, events)) :
    after.Rooted accepted := by
  rcases reject_cases done with ⟨found, known, rfl⟩ | rfl
  · exact rooted.acknowledge known false
  · exact rooted.discard false id

end Reject

end Manager

end DecisionLedger
