import DecisionLedger.Proofs.Reach

/-! # The walk of a branch

The walk keeps a stack of what it has yet to look at and a set of what it has visited.  It is given
here turn by turn, over lists that never change; nothing is asked of these lists, which may repeat
themselves, run in circles or name units that nobody knows.
-/

namespace DecisionLedger.Links

/-- A walk on its way. -/
structure Walk where
  /-- What is yet to be looked at, the next unit first. -/
  stack : List UnitId
  visited : Std.ExtTreeSet UnitId
  /-- What was visited, in order. -/
  branch : List UnitId

namespace Walk

/-- A walk that is about to look at its root. -/
def start (root : UnitId) : Walk where
  stack := [root]
  visited := ∅
  branch := []

/-- Look at the next unit.  One that was visited is passed over; what hangs on any other is to be
looked at before the rest. -/
def step? (children referencedBy : Links) (walk : Walk) : Option Walk :=
  match walk.stack with
  | [] => none
  | unit :: stack =>
    if unit ∈ walk.visited then some { walk with stack }
    else
      some {
        stack := (dependents children referencedBy unit).reverse ++ stack
        visited := walk.visited.insert unit
        branch := walk.branch ++ [unit] }

end Walk

section Reach

variable {children referencedBy : Links} {visited : Std.ExtTreeSet UnitId}
  {stack : List UnitId} {unit : UnitId}

theorem not_mem_visited_of_mem_reach (reached : unit ∈ reach children referencedBy visited stack) :
    unit ∉ visited := by
  fun_induction reach children referencedBy visited stack with
  | case1 => simp at reached
  | case2 children referencedBy visited top stack seen ih => exact ih reached
  | case3 children referencedBy visited top stack unseen ih =>
      rcases List.mem_cons.mp reached with rfl | deeper
      · exact unseen
      · exact fun before => ih deeper (Std.ExtTreeSet.mem_insert.mpr (.inr before))

theorem nodup_reach : (reach children referencedBy visited stack).Nodup := by
  fun_induction reach children referencedBy visited stack with
  | case1 => exact List.nodup_nil
  | case2 children referencedBy visited top stack seen ih => exact ih
  | case3 children referencedBy visited top stack unseen ih =>
      refine List.nodup_cons.mpr ⟨fun again => ?_, ih⟩
      exact not_mem_visited_of_mem_reach again (by simp)

variable (stack) in
/-- The walk over lists that stay as they are visits what the walk visits that puts lists aside: the
list of a unit is asked for once only. -/
theorem steps_reach {allChildren allReferences : Links} (branch : List UnitId)
    (agree : ∀ unit ∉ visited, dependents allChildren allReferences unit =
      dependents children referencedBy unit) :
    ∃ seen, Relation.ReflTransGen
      (fun before after => Walk.step? allChildren allReferences before = some after)
      { stack, visited, branch }
      { stack := [], visited := seen,
        branch := branch ++ reach children referencedBy visited stack } := by
  fun_induction reach children referencedBy visited stack generalizing branch with
  | case1 children referencedBy visited =>
      rw [List.append_nil]
      exact ⟨visited, .refl⟩
  | case2 children referencedBy visited top stack seen ih =>
      obtain ⟨final, later⟩ := ih branch agree
      exact ⟨final, .head (by simp [Walk.step?, seen]) later⟩
  | case3 children referencedBy visited top stack unseen ih =>
      have still : ∀ unit ∉ visited.insert top, dependents allChildren allReferences unit =
          dependents (children.erase top) (referencedBy.erase top) unit := by
        intro unit fresh
        rw [Std.ExtTreeSet.mem_insert, not_or, Std.LawfulEqCmp.compare_eq_iff_eq] at fresh
        rw [agree unit fresh.2, dependents_erase fresh.1]
      obtain ⟨final, later⟩ := ih (branch ++ [top]) still
      rw [List.append_assoc, List.singleton_append] at later
      refine ⟨final, .head ?_ later⟩
      simp [Walk.step?, unseen, agree top unseen]

end Reach

/-- How a walk goes from a root, and what it visits. -/
structure Traverses (children referencedBy : Links) (root : UnitId) (branch : List UnitId) :
    Prop where
  /-- After finitely many turns nothing is left to be looked at. -/
  ends : ∃ last : Walk, Relation.ReflTransGen
      (fun before after => before.step? children referencedBy = some after)
      (Walk.start root) last ∧
    last.step? children referencedBy = none ∧ last.branch = branch
  /-- No unit is visited twice. -/
  once : branch.Nodup
  /-- What hangs on the root is visited, over however many lists, and nothing else. -/
  visits : ∀ {unit : UnitId}, unit ∈ branch ↔ Relation.ReflTransGen
    (fun above below => below ∈ dependents children referencedBy above) root unit

/-- Whatever the lists are, the walk of a branch ends, having visited once what hangs on the
root. -/
theorem traverses_reach (children referencedBy : Links) (root : UnitId) :
    Traverses children referencedBy root (reach children referencedBy ∅ [root]) where
  ends := by
    have agree : ∀ unit ∉ (∅ : Std.ExtTreeSet UnitId),
        dependents children referencedBy unit = dependents children referencedBy unit :=
      fun _ _ => rfl
    obtain ⟨seen, steps⟩ := steps_reach [root] [] agree
    exact ⟨_, steps, rfl, rfl⟩
  once := nodup_reach
  visits := mem_reach_iff

end DecisionLedger.Links
