import DecisionLedger.Manager.Rejection
import Mathlib.Logic.Relation

/-! # What a branch holds

The depth-first walk of a branch visits exactly what can be reached by following links down from its
root.  The walk puts the lists of visited units aside; since it never asks for them again, the
answer is that of the links it started with.
-/

namespace DecisionLedger

namespace Links

theorem mem_dependents {children referencedBy : Links} {unit dependent : UnitId} :
    dependent ∈ dependents children referencedBy unit ↔
      dependent ∈ children.of unit ∨ dependent ∈ referencedBy.of unit := by
  simp [dependents]

theorem dependents_erase {children referencedBy : Links} {unit other : UnitId}
    (different : unit ≠ other) :
    dependents (children.erase unit) (referencedBy.erase unit) other =
      dependents children referencedBy other := by
  simp only [dependents, of_erase, if_neg different]

theorem mem_reach_of_mem_stack {children referencedBy : Links} {visited : Std.ExtTreeSet UnitId}
    {stack : List UnitId} {unit : UnitId} (stacked : unit ∈ stack) (fresh : unit ∉ visited) :
    unit ∈ reach children referencedBy visited stack := by
  fun_induction reach children referencedBy visited stack with
  | case1 => simp at stacked
  | case2 children referencedBy visited top stack seen ih =>
      rcases List.mem_cons.mp stacked with rfl | deeper
      · exact absurd seen fresh
      · exact ih deeper fresh
  | case3 children referencedBy visited top stack unseen ih =>
      by_cases same : top = unit
      · exact same ▸ List.mem_cons_self
      · have deeper : unit ∈ stack := (List.mem_cons.mp stacked).resolve_left (Ne.symm same)
        refine List.mem_cons_of_mem _ (ih (List.mem_append_right _ deeper) ?_)
        simpa [Std.ExtTreeSet.mem_insert, same] using fresh

/-- The walk misses no dependent of a unit it visits, unless it was told to leave it out. -/
theorem mem_reach_of_dependent {children referencedBy : Links}
    {visited : Std.ExtTreeSet UnitId} {stack : List UnitId} {unit dependent : UnitId}
    (reached : unit ∈ reach children referencedBy visited stack)
    (depends : dependent ∈ dependents children referencedBy unit) (fresh : dependent ∉ visited) :
    dependent ∈ reach children referencedBy visited stack := by
  fun_induction reach children referencedBy visited stack with
  | case1 => simp at reached
  | case2 children referencedBy visited top stack seen ih => exact ih reached depends fresh
  | case3 children referencedBy visited top stack unseen ih =>
      by_cases repeated : top = dependent
      · exact repeated ▸ List.mem_cons_self
      have later : dependent ∉ visited.insert top := by
        simpa [Std.ExtTreeSet.mem_insert, repeated] using fresh
      apply List.mem_cons_of_mem
      by_cases same : top = unit
      · -- the dependents of the unit on top have just been stacked
        subst same
        apply mem_reach_of_mem_stack _ later
        exact List.mem_append_left _ (List.mem_reverse.mpr depends)
      · have deeper := (List.mem_cons.mp reached).resolve_left (Ne.symm same)
        exact ih deeper (by rwa [dependents_erase same]) later

/-- Whatever the walk visits hangs, over any number of links, on something it started from. -/
theorem path_of_mem_reach {children referencedBy : Links} {visited : Std.ExtTreeSet UnitId}
    {stack : List UnitId} {unit : UnitId}
    (reached : unit ∈ reach children referencedBy visited stack) :
    ∃ root ∈ stack, Relation.ReflTransGen
      (fun above below => below ∈ dependents children referencedBy above) root unit := by
  fun_induction reach children referencedBy visited stack with
  | case1 => simp at reached
  | case2 children referencedBy visited top stack seen ih =>
      obtain ⟨root, stacked, path⟩ := ih reached
      exact ⟨root, List.mem_cons_of_mem _ stacked, path⟩
  | case3 children referencedBy visited top stack unseen ih =>
      rcases List.mem_cons.mp reached with rfl | deeper
      · exact ⟨unit, List.mem_cons_self, .refl⟩
      · obtain ⟨root, stacked, path⟩ := ih deeper
        have widened : Relation.ReflTransGen
            (fun above below => below ∈ dependents children referencedBy above) root unit := by
          refine Relation.ReflTransGen.mono (fun above below linked => ?_) _ _ path
          by_cases same : top = above
          · simp [dependents, of_erase, same] at linked
          · rwa [dependents_erase same] at linked
        rcases List.mem_append.mp stacked with dependent | below
        · exact ⟨top, List.mem_cons_self, .head (List.mem_reverse.mp dependent) widened⟩
        · exact ⟨root, List.mem_cons_of_mem _ below, widened⟩

/-- What hangs on the root of a walk is visited, over any number of links, and nothing else. -/
theorem mem_reach_iff {children referencedBy : Links} {root unit : UnitId} :
    unit ∈ reach children referencedBy ∅ [root] ↔ Relation.ReflTransGen
      (fun above below => below ∈ dependents children referencedBy above) root unit := by
  constructor
  · intro reached
    obtain ⟨start, listed, path⟩ := path_of_mem_reach reached
    cases List.mem_singleton.mp listed
    exact path
  · intro path
    induction path with
    | refl => exact mem_reach_of_mem_stack List.mem_cons_self (by simp)
    | tail _ hangs ih => exact mem_reach_of_dependent ih hangs (by simp)

end Links

namespace Manager

/-- One unit is listed under another, as a child or as a vertex referring to it. -/
def Hangs (manager : Manager) (above below : UnitId) : Prop :=
  below ∈ Links.dependents manager.children manager.referencedBy above

theorem root_mem_branch (manager : Manager) (root : UnitId) : root ∈ manager.branch root :=
  Links.mem_reach_of_mem_stack List.mem_cons_self (by simp)

theorem mem_branch_of_hangs {manager : Manager} {root above below : UnitId}
    (inside : above ∈ manager.branch root) (hangs : manager.Hangs above below) :
    below ∈ manager.branch root :=
  Links.mem_reach_of_dependent inside hangs (by simp)

theorem mem_branch_iff {manager : Manager} {root unit : UnitId} :
    unit ∈ manager.branch root ↔ Relation.ReflTransGen manager.Hangs root unit :=
  Links.mem_reach_iff

theorem hangs_of_mem_branch {manager : Manager} {root unit : UnitId}
    (inside : unit ∈ manager.branch root) (below : unit ≠ root) :
    ∃ above ∈ manager.branch root, manager.Hangs above unit := by
  cases mem_branch_iff.mp inside with
  | refl => exact absurd rfl below
  | tail path hangs => exact ⟨_, mem_branch_iff.mpr path, hangs⟩

end Manager

end DecisionLedger
