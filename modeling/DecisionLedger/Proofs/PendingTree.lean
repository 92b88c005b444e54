import DecisionLedger.Proofs.Chronicle
import DecisionLedger.Proofs.Discarding
import DecisionLedger.Proofs.Examination

/-! # The tree of pending units

Every pending unit extends another pending unit or an accepted one, and the lists of a manager say
exactly which.  The lists of referring vertices may be stale: a vertex that was rejected stays
listed under its edges.  It does no harm, since a rejected unit that is higher than a pending one is
not forgotten, and so cannot come back while it is listed.
-/

namespace DecisionLedger.Manager

def Holds (manager : Manager) (unit : DecisionUnit) : Prop :=
  manager.pending[unit.id]? = some unit.held

theorem Holds.mem {manager : Manager} {unit : DecisionUnit} (holds : manager.Holds unit) :
    unit.id ∈ manager.pending := by
  rw [Std.ExtTreeMap.mem_iff_isSome_getElem?, holds]
  rfl

theorem Holds.eq_of_id {manager : Manager} {unit other : DecisionUnit}
    (holds : manager.Holds unit) (held : manager.Holds other) (same : unit.id = other.id) :
    unit = other := by
  rw [Holds, same, held] at holds
  exact (congrArg PendingUnit.unit (Option.some.inj holds)).symm

/-- How the pending units of a manager hang together above the accepted ones.  A branch may lack its
root: the last accepted unit or one that is about to be left behind. -/
structure Linked (manager : Manager) (accepted : List DecisionUnit) : Prop where
  keyed : ∀ {id : UnitId} {pending : PendingUnit}, manager.pending[id]? = some pending →
    id = pending.unit.id ∧ pending = pending.unit.held
  parent : ∀ {unit}, manager.Holds unit →
    (∃ above, manager.Holds above ∧ unit.Extends above) ∨
      ∃ above ∈ accepted, above.id = unit.parent
  edges : ∀ {unit}, manager.Holds unit → ∀ edge ∈ unit.body.edges,
    ∃ target, target.id = edge ∧ target.height < unit.height ∧
      (manager.Holds target ∨ target ∈ accepted)
  children : ∀ {above child}, child ∈ manager.children.of above →
    ∃ unit, manager.Holds unit ∧ unit.id = child ∧ unit.parent = above
  listed : ∀ {unit}, manager.Holds unit →
    (unit.parent ∈ manager.pending ∨
      ∃ tip, accepted.getLast? = some tip ∧ tip.id = unit.parent) →
    unit.id ∈ manager.children.of unit.parent
  references : ∀ {edge vertex}, vertex ∈ manager.referencedBy.of edge →
    ∃ target, manager.Holds target ∧ target.id = edge ∧
      ((∃ unit, manager.Holds unit ∧ unit.id = vertex ∧ edge ∈ unit.body.edges) ∨
        ∃ rejected, manager.rejected[vertex]? = some rejected ∧
          target.height < rejected.unit.height)
  referenced : ∀ {unit target}, manager.Holds unit → manager.Holds target →
    target.id ∈ unit.body.edges → unit.id ∈ manager.referencedBy.of target.id
  options : ∀ {unit other choice}, manager.Holds unit → manager.Holds other →
    unit.parent = other.parent → unit.body.choice? = some choice →
    other.body.choice? = some choice → unit = other
  settled : ∀ {unit}, unit ∈ accepted → unit.id ∉ manager.pending ∧ unit.id ∉ manager.rejected
  rejected : ∀ {id : UnitId}, id ∈ manager.rejected → id ∉ manager.pending

namespace Linked

variable {manager : Manager} {accepted : List DecisionUnit} {unit : DecisionUnit}

theorem exists_of_getElem? (linked : manager.Linked accepted) {id : UnitId} {pending : PendingUnit}
    (found : manager.pending[id]? = some pending) :
    ∃ unit, manager.Holds unit ∧ unit.id = id ∧ pending = unit.held := by
  obtain ⟨rfl, same⟩ := linked.keyed found
  refine ⟨pending.unit, ?_, rfl, same⟩
  rw [Holds, ← same]
  exact found

theorem mem_pending_iff (linked : manager.Linked accepted) {id : UnitId} :
    id ∈ manager.pending ↔ ∃ unit, manager.Holds unit ∧ unit.id = id := by
  constructor
  · intro present
    obtain ⟨pending, found⟩ := Option.isSome_iff_exists.mp
      (Std.ExtTreeMap.mem_iff_isSome_getElem?.mp present)
    obtain ⟨unit, holds, same, -⟩ := linked.exists_of_getElem? found
    exact ⟨unit, holds, same⟩
  · rintro ⟨unit, holds, rfl⟩
    exact holds.mem

theorem extends_of_parent (linked : manager.Linked accepted) {above : DecisionUnit}
    (holds : manager.Holds unit) (held : manager.Holds above) (under : unit.parent = above.id) :
    unit.Extends above := by
  rcases linked.parent holds with ⟨other, pending, follows⟩ | ⟨other, inside, same⟩
  · cases held.eq_of_id pending (under.symm.trans follows.parent_eq)
    exact follows
  · exact absurd (same.trans under ▸ held.mem) (linked.settled inside).1

theorem height_lt_of_edge (linked : manager.Linked accepted) {target : DecisionUnit}
    (holds : manager.Holds unit) (held : manager.Holds target)
    (edged : target.id ∈ unit.body.edges) : target.height < unit.height := by
  obtain ⟨other, same, lower, pending | inside⟩ := linked.edges holds _ edged
  · cases held.eq_of_id pending same.symm
    exact lower
  · exact absurd (same ▸ held.mem) (linked.settled inside).1

end Linked

section Discard

variable {manager : Manager} {accepted : List DecisionUnit} {unit : DecisionUnit}
  (automatic : Bool) (root : UnitId)

theorem holds_discard :
    (discard automatic manager root).1.Holds unit ↔
      manager.Holds unit ∧ unit.id ∉ manager.branch root := by
  rw [Holds, pending_discard]
  by_cases inside : unit.id ∈ manager.branch root <;> simp [inside, Holds]

theorem children_discard (other : UnitId) :
    (discard automatic manager root).1.children.of other =
      if other ∈ manager.branch root ∧ other ∈ manager.pending then []
      else (manager.children.of other).filter fun child =>
        !(child ∈ manager.branch root && manager.isChild other child) :=
  children_discardUnits root automatic manager _ other

theorem referencedBy_discard (other : UnitId) :
    (discard automatic manager root).1.referencedBy.of other =
      if other ∈ manager.branch root ∧ other ∈ manager.pending then []
      else manager.referencedBy.of other :=
  referencedBy_discardUnits root automatic manager _ other

theorem Linked.parent_not_mem_branch (linked : manager.Linked accepted)
    (holds : manager.Holds unit) {above : DecisionUnit} (held : manager.Holds above)
    (under : unit.parent = above.id) (outside : unit.id ∉ manager.branch root) :
    above.id ∉ manager.branch root := by
  intro inside
  have listed := linked.listed holds (.inl (under ▸ held.mem))
  rw [under] at listed
  exact outside (mem_branch_of_hangs inside (Links.mem_dependents.mpr (.inl listed)))

theorem Linked.edge_not_mem_branch (linked : manager.Linked accepted)
    (holds : manager.Holds unit) {target : DecisionUnit} (held : manager.Holds target)
    (edged : target.id ∈ unit.body.edges) (outside : unit.id ∉ manager.branch root) :
    target.id ∉ manager.branch root := by
  intro inside
  have listed := linked.referenced holds held edged
  exact outside (mem_branch_of_hangs inside (Links.mem_dependents.mpr (.inr listed)))

theorem mem_rejected_discard {id : UnitId}
    (present : id ∈ (discard automatic manager root).1.rejected) :
    id ∈ manager.rejected ∨ id ∈ manager.branch root ∧ id ∈ manager.pending := by
  rw [Std.ExtTreeMap.mem_iff_isSome_getElem?, rejected_discard] at present
  by_cases inside : id ∈ manager.branch root
  · cases found : manager.pending[id]? with
    | none =>
        rw [if_pos inside, found] at present
        exact .inl (Std.ExtTreeMap.mem_iff_isSome_getElem?.mpr present)
    | some pending =>
        refine .inr ⟨inside, ?_⟩
        rw [Std.ExtTreeMap.mem_iff_isSome_getElem?, found]
        rfl
  · rw [if_neg inside] at present
    exact .inl (Std.ExtTreeMap.mem_iff_isSome_getElem?.mpr present)

/-- Who is listed under an edge and taken out of the pending units is still known as rejected. -/
theorem Linked.references_discard (linked : manager.Linked accepted) {edge vertex : UnitId}
    {target : DecisionUnit} (held : manager.Holds target) (same : target.id = edge)
    (listed : vertex ∈ manager.referencedBy.of edge) :
    (∃ unit, (discard automatic manager root).1.Holds unit ∧ unit.id = vertex ∧
        edge ∈ unit.body.edges) ∨
      ∃ rejected, (discard automatic manager root).1.rejected[vertex]? = some rejected ∧
        target.height < rejected.unit.height := by
  obtain ⟨other, pending, here, known⟩ := linked.references listed
  cases held.eq_of_id pending (same.trans here.symm)
  rcases known with ⟨unit, holds, rfl, edged⟩ | ⟨rejected, found, lower⟩
  · by_cases inside : unit.id ∈ manager.branch root
    · right
      refine ⟨_, by rw [rejected_discard, if_pos inside, holds], ?_⟩
      exact linked.height_lt_of_edge holds held (same ▸ edged)
    · exact .inl ⟨unit, (holds_discard automatic root).mpr ⟨holds, inside⟩, rfl, edged⟩
  · right
    refine ⟨rejected, ?_, lower⟩
    have gone : vertex ∉ manager.pending := by
      apply linked.rejected
      rw [Std.ExtTreeMap.mem_iff_isSome_getElem?, found]
      rfl
    have absent :
        (if vertex ∈ manager.branch root then manager.pending[vertex]? else none) = none := by
      rw [Std.ExtTreeMap.getElem?_eq_none gone, ite_self]
    rw [rejected_discard, absent]
    exact found

/-- Discarding a branch leaves a tree: with a unit goes all that extends it or refers to it. -/
theorem Linked.discard (linked : manager.Linked accepted) :
    (discard automatic manager root).1.Linked accepted where
  keyed := by
    intro id pending found
    rw [pending_discard] at found
    split at found
    · cases found
    · exact linked.keyed found
  parent := by
    intro unit holds
    obtain ⟨held, outside⟩ := (holds_discard automatic root).mp holds
    rcases linked.parent held with ⟨above, pending, follows⟩ | rooted
    · refine .inl ⟨above, (holds_discard automatic root).mpr ⟨pending, ?_⟩, follows⟩
      exact linked.parent_not_mem_branch root held pending follows.parent_eq outside
    · exact .inr rooted
  edges := by
    intro unit holds edge edged
    obtain ⟨held, outside⟩ := (holds_discard automatic root).mp holds
    obtain ⟨target, same, lower, pending | inside⟩ := linked.edges held edge edged
    · refine ⟨target, same, lower, .inl ((holds_discard automatic root).mpr ⟨pending, ?_⟩)⟩
      exact linked.edge_not_mem_branch root held pending (same ▸ edged) outside
    · exact ⟨target, same, lower, .inr inside⟩
  children := by
    intro above child listed
    rw [children_discard] at listed
    split at listed
    · exact absurd listed List.not_mem_nil
    · obtain ⟨before, kept⟩ := List.mem_filter.mp listed
      obtain ⟨unit, holds, rfl, under⟩ := linked.children before
      have extending : manager.isChild above unit.id = true := by
        rw [isChild, holds]
        exact decide_eq_true under
      rw [extending, Bool.and_true, Bool.not_eq_true', decide_eq_false_iff_not] at kept
      exact ⟨unit, (holds_discard automatic root).mpr ⟨holds, kept⟩, rfl, under⟩
  listed := by
    intro unit holds rooted
    obtain ⟨held, outside⟩ := (holds_discard automatic root).mp holds
    have apart : ¬(unit.parent ∈ manager.branch root ∧ unit.parent ∈ manager.pending) := by
      rintro ⟨inside, present⟩
      obtain ⟨above, pending, same⟩ := linked.mem_pending_iff.mp present
      rw [← same] at inside
      exact linked.parent_not_mem_branch root held pending same.symm outside inside
    rw [children_discard, if_neg apart]
    refine List.mem_filter.mpr ⟨linked.listed held ?_, by simp [outside]⟩
    rcases rooted with present | tip
    · exact .inl ((mem_pending_discard automatic manager root).mp present).1
    · exact .inr tip
  references := by
    intro edge vertex listed
    rw [referencedBy_discard] at listed
    split at listed
    · exact absurd listed List.not_mem_nil
    · rename_i kept
      obtain ⟨target, held, same, -⟩ := linked.references listed
      have outside : target.id ∉ manager.branch root :=
        fun inside => kept ⟨same ▸ inside, same ▸ held.mem⟩
      exact ⟨target, (holds_discard automatic root).mpr ⟨held, outside⟩, same,
        linked.references_discard automatic root held same listed⟩
  referenced := by
    intro unit target holds held edged
    obtain ⟨before, -⟩ := (holds_discard automatic root).mp holds
    obtain ⟨present, outside⟩ := (holds_discard automatic root).mp held
    rw [referencedBy_discard, if_neg (fun gone => outside gone.1)]
    exact linked.referenced before present edged
  options := by
    intro unit other choice holds held
    exact linked.options ((holds_discard automatic root).mp holds).1
      ((holds_discard automatic root).mp held).1
  settled := by
    intro unit inside
    obtain ⟨notPending, notRejected⟩ := linked.settled inside
    refine ⟨fun present => notPending ((mem_pending_discard automatic manager root).mp present).1,
      fun present => ?_⟩
    rcases mem_rejected_discard automatic root present with before | ⟨-, pending⟩
    · exact notRejected before
    · exact notPending pending
  rejected := by
    intro id present pending
    obtain ⟨before, outside⟩ := (mem_pending_discard automatic manager root).mp pending
    rcases mem_rejected_discard automatic root present with gone | ⟨inside, -⟩
    · exact linked.rejected gone before
    · exact outside inside

theorem Linked.discardEach (linked : manager.Linked accepted) (roots : List UnitId) :
    (manager.sequence (Manager.discard automatic) roots).1.Linked accepted :=
  sequence_induction (fun after => after.Linked accepted)
    (fun root _ _ before => before.discard automatic root) linked

end Discard

end DecisionLedger.Manager
