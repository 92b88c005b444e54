import DecisionLedger.Proofs.Claims
import Mathlib.Data.Set.Insert

/-! # What depends on a unit

With a unit go the pending units that extend it and the pending vertices that refer to it, and what
depends on those.  The walk of a branch follows the lists of a manager, some of which are stale;
what it takes out of a tree is the closure that the units themselves define.  A closure can be taken
out in parts: one root after another, out of what the roots before it have left.
-/

namespace DecisionLedger.Manager

/-- The pending units that go with some roots. -/
inductive Depends (manager : Manager) (roots : Set UnitId) : UnitId → Prop where
  | root {id : UnitId} : id ∈ roots → id ∈ manager.pending → Depends manager roots id
  | child {id : UnitId} {pending : PendingUnit} : manager.pending[id]? = some pending →
      Depends manager roots pending.unit.parent → Depends manager roots id
  | vertex {id edge : UnitId} {pending : PendingUnit} : manager.pending[id]? = some pending →
      edge ∈ pending.unit.body.edges → Depends manager roots edge → Depends manager roots id

theorem mem_pending_of_getElem? {manager : Manager} {id : UnitId} {pending : PendingUnit}
    (found : manager.pending[id]? = some pending) : id ∈ manager.pending := by
  rw [Std.ExtTreeMap.mem_iff_isSome_getElem?, found]
  rfl

namespace Depends

variable {manager : Manager} {roots others : Set UnitId} {id : UnitId}

theorem mem (depends : manager.Depends roots id) : id ∈ manager.pending := by
  cases depends with
  | root _ present => exact present
  | child found _ => exact mem_pending_of_getElem? found
  | vertex found _ _ => exact mem_pending_of_getElem? found

/-- Only pending roots count. -/
theorem of_roots (depends : manager.Depends roots id)
    (among : ∀ id ∈ roots, id ∈ manager.pending → id ∈ others) : manager.Depends others id := by
  induction depends with
  | root inside present => exact .root (among _ inside present) present
  | child found _ ih => exact .child found ih
  | vertex found edged _ ih => exact .vertex found edged ih

theorem congr_roots (same : ∀ id, id ∈ manager.pending → (id ∈ roots ↔ id ∈ others)) :
    manager.Depends roots id ↔ manager.Depends others id :=
  ⟨fun depends => depends.of_roots fun id inside present => (same id present).mp inside,
    fun depends => depends.of_roots fun id inside present => (same id present).mpr inside⟩

theorem mono (depends : manager.Depends roots id) (wider : roots ⊆ others) :
    manager.Depends others id :=
  depends.of_roots fun _ inside _ => wider inside

theorem exists_root (depends : manager.Depends roots id) : ∃ root, root ∈ roots := by
  induction depends with
  | root inside _ => exact ⟨_, inside⟩
  | child _ _ ih | vertex _ _ _ ih => exact ih

theorem mem_roots {unit : DecisionUnit} (depends : manager.Depends roots unit.id)
    (holds : manager.Holds unit) (parent : ¬manager.Depends roots unit.parent)
    (edges : ∀ edge ∈ unit.body.edges, ¬manager.Depends roots edge) : unit.id ∈ roots := by
  generalize same : unit.id = id at depends
  cases depends with
  | root inside _ => exact inside
  | child found below =>
      subst same
      rw [holds] at found
      cases found
      exact absurd below parent
  | vertex found edged below =>
      subst same
      rw [holds] at found
      cases found
      exact absurd below (edges _ edged)

end Depends

/-- Some units have left the pending ones, and the others are what they were. -/
structure Sheds (before after : Manager) (gone : UnitId → Prop) : Prop where
  left : ∀ {id}, gone id → id ∉ after.pending
  kept : ∀ {id}, ¬gone id → after.pending[id]? = before.pending[id]?

namespace Sheds

variable {before between after : Manager} {gone further : UnitId → Prop} {id : UnitId}
  {roots others : Set UnitId}

theorem refl (manager : Manager) : Sheds manager manager fun _ => False :=
  ⟨fun absurdity => absurdity.elim, fun _ => rfl⟩

theorem congr (sheds : Sheds before after gone) (same : ∀ id, gone id ↔ further id) :
    Sheds before after further :=
  ⟨fun left => sheds.left ((same _).mpr left), fun kept => sheds.kept (mt (same _).mp kept)⟩

theorem trans (first : Sheds before between gone) (second : Sheds between after further) :
    Sheds before after fun id => gone id ∨ further id where
  left := by
    intro id left
    by_cases later : further id
    · exact second.left later
    · intro present
      rw [Std.ExtTreeMap.mem_iff_isSome_getElem?, second.kept later,
        ← Std.ExtTreeMap.mem_iff_isSome_getElem?] at present
      exact first.left (left.resolve_right later) present
  kept := by
    intro id kept
    rw [second.kept (fun later => kept (.inr later)), first.kept (fun left => kept (.inl left))]

theorem mem_iff (sheds : Sheds before after gone) :
    id ∈ after.pending ↔ id ∈ before.pending ∧ ¬gone id := by
  constructor
  · intro present
    have stays : ¬gone id := fun left => sheds.left left present
    rw [Std.ExtTreeMap.mem_iff_isSome_getElem?, sheds.kept stays,
      ← Std.ExtTreeMap.mem_iff_isSome_getElem?] at present
    exact ⟨present, stays⟩
  · rintro ⟨present, stays⟩
    rw [Std.ExtTreeMap.mem_iff_isSome_getElem?, sheds.kept stays,
      ← Std.ExtTreeMap.mem_iff_isSome_getElem?]
    exact present

theorem getElem? (sheds : Sheds before after gone) {pending : PendingUnit}
    (found : after.pending[id]? = some pending) : before.pending[id]? = some pending := by
  rw [← sheds.kept fun left => sheds.left left (mem_pending_of_getElem? found)]
  exact found

theorem depends (sheds : Sheds before after gone) (depends : after.Depends roots id) :
    before.Depends roots id := by
  induction depends with
  | root inside present => exact .root inside (sheds.mem_iff.mp present).1
  | child found _ ih => exact .child (sheds.getElem? found) ih
  | vertex found edged _ ih => exact .vertex (sheds.getElem? found) edged ih

/-- Who depends on some roots depends on them still, unless something on the way has left. -/
theorem depends_or (sheds : Sheds before after gone)
    (passed : ∀ {id pending}, before.pending[id]? = some pending →
      (gone pending.unit.parent ∨ ∃ edge ∈ pending.unit.body.edges, gone edge) → gone id)
    (depends : before.Depends roots id) : gone id ∨ after.Depends roots id := by
  induction depends with
  | @root id inside present =>
      by_cases left : gone id
      · exact .inl left
      · exact .inr (.root inside (sheds.mem_iff.mpr ⟨present, left⟩))
  | @child id pending found _ ih =>
      by_cases left : gone id
      · exact .inl left
      · rcases ih with above | depends
        · exact .inl (passed found (.inl above))
        · exact .inr (.child ((sheds.kept left).trans found) depends)
  | @vertex id edge pending found edged _ ih =>
      by_cases left : gone id
      · exact .inl left
      · rcases ih with target | depends
        · exact .inl (passed found (.inr ⟨edge, edged, target⟩))
        · exact .inr (.vertex ((sheds.kept left).trans found) edged depends)

/-- The closure of some roots can be taken out in two parts. -/
theorem depends_union (sheds : Sheds before after (before.Depends roots)) :
    before.Depends (roots ∪ others) id ↔ before.Depends roots id ∨ after.Depends others id := by
  constructor
  · intro depends
    refine (sheds.depends_or (fun found left => ?_) depends).imp_right fun depends => ?_
    · rcases left with above | ⟨edge, edged, target⟩
      · exact .child found above
      · exact .vertex found edged target
    · refine depends.of_roots fun id inside present => inside.resolve_left fun root => ?_
      obtain ⟨earlier, stays⟩ := sheds.mem_iff.mp present
      exact stays (.root root earlier)
  · rintro (first | second)
    · exact first.mono Set.subset_union_left
    · exact (sheds.depends second).mono Set.subset_union_right

theorem depends_iff (sheds : Sheds before after gone)
    (apart : ∀ {id}, gone id → ¬before.Depends roots id) :
    after.Depends roots id ↔ before.Depends roots id := by
  constructor
  · exact sheds.depends
  · intro depends
    induction depends with
    | root inside present =>
        have own : before.Depends roots _ := .root inside present
        exact .root inside (sheds.mem_iff.mpr ⟨present, fun left => apart left own⟩)
    | child found below ih =>
        have own : before.Depends roots _ := .child found below
        exact .child ((sheds.kept fun left => apart left own).trans found) ih
    | vertex found edged below ih =>
        have own : before.Depends roots _ := .vertex found edged below
        exact .vertex ((sheds.kept fun left => apart left own).trans found) edged ih

theorem consumedBy (sheds : Sheds before after gone) (claimed : before.Claimed)
    (kept : after.Claimed) (key : StateKey) :
    after.consumedBy[key]? = before.consumedBy[key]?.filter after.isPending := by
  apply Option.ext
  intro id
  rw [kept.claimed, Option.filter_eq_some_iff, claimed.claimed, isPending,
    Std.ExtTreeMap.contains_iff_mem]
  constructor
  · rintro ⟨pending, found, consumes⟩
    exact ⟨⟨pending, sheds.getElem? found, consumes⟩, mem_pending_of_getElem? found⟩
  · rintro ⟨⟨pending, found, consumes⟩, present⟩
    exact ⟨pending, (sheds.kept (sheds.mem_iff.mp present).2).trans found, consumes⟩

end Sheds

/-- Some units have left, and the lists of children say so and nothing else. -/
structure Prunes (before after : Manager) (gone : UnitId → Prop) : Prop
    extends Sheds before after gone where
  children : ∀ above, after.children.of above =
    (before.children.of above).filter after.isPending

namespace Prunes

variable {before between after : Manager} {gone further : UnitId → Prop}

theorem congr (prunes : Prunes before after gone) (same : ∀ id, gone id ↔ further id) :
    Prunes before after further :=
  ⟨prunes.toSheds.congr same, prunes.children⟩

theorem trans (first : Prunes before between gone) (second : Prunes between after further) :
    Prunes before after fun id => gone id ∨ further id where
  toSheds := first.toSheds.trans second.toSheds
  children := by
    intro above
    rw [second.children, first.children, List.filter_filter]
    refine List.filter_congr fun child _ => ?_
    rw [Bool.and_eq_left_iff_imp, isPending, isPending, Std.ExtTreeMap.contains_iff_mem,
      Std.ExtTreeMap.contains_iff_mem]
    exact fun present => (second.mem_iff.mp present).1

end Prunes

section Branch

variable {manager : Manager} {accepted : List DecisionUnit} {root id : UnitId}

/-- A branch takes with it what depends on its root: the walk misses nothing, and what it visits by
a stale list is not pending. -/
theorem Linked.mem_branch_iff_depends (linked : manager.Linked accepted)
    (apart : ∀ unit ∈ accepted, unit.id ≠ root) (present : id ∈ manager.pending) :
    id ∈ manager.branch root ↔ manager.Depends {root} id := by
  constructor
  · intro inside
    have path := mem_branch_iff.mp inside
    clear inside
    induction path with
    | refl => exact .root rfl present
    | @tail above id path hangs ih =>
        rcases Links.mem_dependents.mp hangs with child | vertex
        · obtain ⟨unit, holds, rfl, rfl⟩ := linked.children child
          rcases linked.parent holds with ⟨parent, held, follows⟩ | ⟨parent, settled, same⟩
          · exact .child holds (ih (follows.parent_eq ▸ held.mem))
          · have outside := linked.accepted_not_mem_branch settled (apart parent settled)
            exact absurd (mem_branch_iff.mpr (same ▸ path)) outside
        · obtain ⟨target, held, rfl, ⟨unit, holds, rfl, edged⟩ | ⟨rejected, found, -⟩⟩ :=
            linked.references vertex
          · exact .vertex holds edged (ih held.mem)
          · have gone : id ∈ manager.rejected :=
              Std.ExtTreeMap.mem_iff_isSome_getElem?.mpr (found ▸ rfl)
            exact absurd present (linked.rejected gone)
  · intro depends
    clear present
    induction depends with
    | root same _ => exact Set.mem_singleton_iff.mp same ▸ manager.root_mem_branch _
    | child found below ih =>
        obtain ⟨unit, holds, rfl, rfl⟩ := linked.exists_of_getElem? found
        refine mem_branch_of_hangs ih (Links.mem_dependents.mpr (.inl ?_))
        exact linked.listed holds (.inl below.mem)
    | vertex found edged below ih =>
        obtain ⟨unit, holds, rfl, rfl⟩ := linked.exists_of_getElem? found
        obtain ⟨target, held, rfl⟩ := linked.mem_pending_iff.mp below.mem
        refine mem_branch_of_hangs ih (Links.mem_dependents.mpr (.inr ?_))
        exact linked.referenced holds held edged

variable (automatic : Bool)

theorem Linked.prunes_refl (linked : manager.Linked accepted) :
    Prunes manager manager fun _ => False where
  toSheds := .refl manager
  children := by
    intro above
    rw [eq_comm, List.filter_eq_self]
    intro child listed
    obtain ⟨unit, holds, rfl, -⟩ := linked.children listed
    exact Std.ExtTreeMap.contains_iff_mem.mpr holds.mem

theorem Linked.sheds_discard (linked : manager.Linked accepted)
    (apart : ∀ unit ∈ accepted, unit.id ≠ root) :
    Sheds manager (Manager.discard automatic manager root).1 (manager.Depends {root}) where
  left := by
    intro id depends present
    obtain ⟨before, outside⟩ := (mem_pending_discard automatic manager root).mp present
    exact outside ((linked.mem_branch_iff_depends apart before).mpr depends)
  kept := by
    intro id stays
    rw [pending_discard]
    split
    · rename_i inside
      by_cases present : id ∈ manager.pending
      · exact absurd ((linked.mem_branch_iff_depends apart present).mp inside) stays
      · rw [Std.ExtTreeMap.getElem?_eq_none present]
    · rfl

theorem Linked.childrenOf_discard (linked : manager.Linked accepted) (root above : UnitId) :
    (Manager.discard automatic manager root).1.children.of above =
      (manager.children.of above).filter (Manager.discard automatic manager root).1.isPending := by
  have remains : ∀ child ∈ manager.children.of above,
      (Manager.discard automatic manager root).1.isPending child =
        !(child ∈ manager.branch root && manager.isChild above child) := by
    intro child listed
    obtain ⟨unit, holds, rfl, under⟩ := linked.children listed
    have extending : manager.isChild above unit.id = true := by
      rw [isChild, holds]
      exact decide_eq_true under
    have present : unit.id ∈ (Manager.discard automatic manager root).1.pending ↔
        unit.id ∈ manager.pending ∧ unit.id ∉ manager.branch root :=
      mem_pending_discard automatic manager root
    rw [extending, Bool.and_true, Bool.eq_iff_iff, isPending, Std.ExtTreeMap.contains_iff_mem,
      present]
    simp [holds.mem]
  rw [children_discard]
  split
  · rename_i gone
    rw [eq_comm, List.filter_eq_nil_iff]
    intro child listed
    obtain ⟨unit, holds, rfl, under⟩ := linked.children listed
    have inside := mem_branch_of_hangs gone.1 (Links.mem_dependents.mpr (.inl listed))
    rw [isPending, Std.ExtTreeMap.contains_iff_mem, mem_pending_discard]
    exact fun stays => stays.2 inside
  · exact (List.filter_congr remains).symm

theorem Linked.prunes_discard (linked : manager.Linked accepted)
    (apart : ∀ unit ∈ accepted, unit.id ≠ root) :
    Prunes manager (Manager.discard automatic manager root).1 (manager.Depends {root}) where
  toSheds := linked.sheds_discard automatic apart
  children := linked.childrenOf_discard automatic root

theorem Linked.prunes_discardEach (linked : manager.Linked accepted) (roots : List UnitId)
    (apart : ∀ root ∈ roots, ∀ unit ∈ accepted, unit.id ≠ root) :
    Prunes manager (manager.sequence (Manager.discard automatic) roots).1
      (manager.Depends {id | id ∈ roots}) := by
  induction roots generalizing manager with
  | nil =>
      refine linked.prunes_refl.congr fun id => ⟨False.elim, fun depends => ?_⟩
      obtain ⟨root, inside⟩ := depends.exists_root
      exact absurd inside List.not_mem_nil
  | cons root rest ih =>
      have first := linked.prunes_discard automatic (apart root List.mem_cons_self)
      have later := ih (linked.discard automatic root)
        fun other inside => apart other (List.mem_cons_of_mem _ inside)
      have union : ({id | id ∈ root :: rest} : Set UnitId) = {root} ∪ {id | id ∈ rest} := by
        ext id
        exact List.mem_cons
      rw [union]
      exact (first.trans later).congr fun id => first.depends_union.symm

theorem Linked.rejected_of_depends (linked : manager.Linked accepted)
    (apart : ∀ unit ∈ accepted, unit.id ≠ root) (depends : manager.Depends {root} id)
    {pending : PendingUnit} (found : manager.pending[id]? = some pending) :
    (Manager.discard automatic manager root).1.rejected[id]? =
      some { unit := pending.unit, awaiting := automatic || id ≠ root } := by
  have inside := (linked.mem_branch_iff_depends apart depends.mem).mpr depends
  rw [rejected_discard, if_pos inside, found]

theorem Linked.rejected_of_stays (linked : manager.Linked accepted)
    (apart : ∀ unit ∈ accepted, unit.id ≠ root) (stays : ¬manager.Depends {root} id) :
    (Manager.discard automatic manager root).1.rejected[id]? = manager.rejected[id]? := by
  rw [rejected_discard]
  split
  · rename_i pending present
    split at present
    · rename_i inside
      have depends := (linked.mem_branch_iff_depends apart (mem_pending_of_getElem? present)).mp
        inside
      exact absurd depends stays
    · cases present
  · rfl

end Branch

end DecisionLedger.Manager
