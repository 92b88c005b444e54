import DecisionLedger.Proofs.Reach

/-! # What discarding leaves

Discarding takes the units of a branch out of a manager one after another.  Between two units the
links may point to what is gone, so the maps are described for a whole list of units at once, in
terms of the manager before the first of them.
-/

namespace DecisionLedger.Manager

/-- What verifying and rejecting leave alone. -/
def settings (manager : Manager) :
    Configuration × DecisionUnit × List DecisionUnit × Option HaltReason :=
  (manager.config, manager.lastAccepted, manager.recent, manager.halted)

theorem sequence_induction {α : Type} {act : Manager → α → Manager × List Event}
    {arguments : List α} {manager : Manager} (holds : Manager → Prop)
    (kept : ∀ argument ∈ arguments, ∀ before, holds before → holds (act before argument).1)
    (start : holds manager) : holds (manager.sequence act arguments).1 := by
  induction arguments generalizing manager with
  | nil => exact start
  | cons argument rest ih =>
      have first := kept argument List.mem_cons_self manager start
      exact ih (fun later inside => kept later (List.mem_cons_of_mem _ inside)) first

theorem sequence_cons {α : Type} (act : Manager → α → Manager × List Event) (manager : Manager)
    (argument : α) (rest : List α) :
    (manager.sequence act (argument :: rest)).1 =
      ((act manager argument).1.sequence act rest).1 := rfl

section OneUnit

variable (root : UnitId) (automatic : Bool) (manager : Manager) (unit : UnitId)

theorem settings_discardUnit :
    (discardUnit root automatic manager unit).1.settings = manager.settings := by
  unfold discardUnit
  split <;> rfl

theorem pending_discardUnit (other : UnitId) :
    (discardUnit root automatic manager unit).1.pending[other]? =
      if unit = other then none else manager.pending[other]? := by
  unfold discardUnit
  split
  · rename_i absent
    by_cases same : unit = other
    · subst same; simpa using absent
    · simp [same]
  · simp [Std.ExtTreeMap.getElem?_erase]

/-- Whether a pending unit extends a given one. -/
def isChild (manager : Manager) (parent child : UnitId) : Bool :=
  match manager.pending[child]? with
  | some pending => pending.unit.parent = parent
  | none => false

theorem children_discardUnit (other : UnitId) :
    (discardUnit root automatic manager unit).1.children.of other =
      if unit = other ∧ other ∈ manager.pending then []
      else (manager.children.of other).filter fun child =>
        !(child = unit && manager.isChild other child) := by
  unfold discardUnit
  cases found : manager.pending[unit]? with
  | none =>
      have absent : ¬(unit = other ∧ other ∈ manager.pending) := by
        rintro ⟨rfl, present⟩
        simp [Std.ExtTreeMap.mem_iff_isSome_getElem?, found] at present
      rw [if_neg absent, eq_comm, List.filter_eq_self]
      intro child _
      by_cases same : child = unit <;> simp [same, isChild, found]
  | some pending =>
      simp only [Links.of_drop, Links.of_erase]
      by_cases same : unit = other
      · subst same
        have present : unit ∈ manager.pending := by
          simp [Std.ExtTreeMap.mem_iff_isSome_getElem?, found]
        by_cases own : pending.unit.parent = unit <;> simp [present, own]
      · by_cases parent : pending.unit.parent = other
        · subst parent
          simp only [same, if_false, false_and, if_true]
          apply List.filter_congr
          intro child _
          by_cases here : child = unit <;> simp [here, isChild, found]
        · simp only [same, parent, if_false, false_and]
          rw [eq_comm, List.filter_eq_self]
          intro child _
          by_cases here : child = unit <;> simp [here, isChild, found, parent]

theorem referencedBy_discardUnit (other : UnitId) :
    (discardUnit root automatic manager unit).1.referencedBy.of other =
      if unit = other ∧ other ∈ manager.pending then [] else manager.referencedBy.of other := by
  unfold discardUnit
  cases found : manager.pending[unit]? with
  | none =>
      rw [if_neg]
      rintro ⟨rfl, present⟩
      simp [Std.ExtTreeMap.mem_iff_isSome_getElem?, found] at present
  | some pending =>
      simp only [Links.of_erase]
      by_cases same : unit = other
      · subst same
        simp [Std.ExtTreeMap.mem_iff_isSome_getElem?, found]
      · simp [same]

theorem rejected_discardUnit (other : UnitId) :
    (discardUnit root automatic manager unit).1.rejected[other]? =
      match (if unit = other then manager.pending[other]? else none) with
      | some pending => some { unit := pending.unit, awaiting := automatic || other ≠ root }
      | none => manager.rejected[other]? := by
  unfold discardUnit
  by_cases same : unit = other
  · subst same
    cases manager.pending[unit]? <;> simp
  · cases manager.pending[unit]? <;> simp [same, Std.ExtTreeMap.getElem?_insert]

theorem isChild_discardUnit (parent child : UnitId) :
    (discardUnit root automatic manager unit).1.isChild parent child =
      (child ≠ unit && manager.isChild parent child) := by
  rw [isChild, pending_discardUnit]
  by_cases same : child = unit
  · simp [same]
  · simp [same, Ne.symm same, isChild]

theorem mem_pending_discardUnit (other : UnitId) :
    other ∈ (discardUnit root automatic manager unit).1.pending ↔
      unit ≠ other ∧ other ∈ manager.pending := by
  rw [Std.ExtTreeMap.mem_iff_isSome_getElem?, pending_discardUnit,
    Std.ExtTreeMap.mem_iff_isSome_getElem?]
  by_cases same : unit = other <;> simp [same]

end OneUnit

section ManyUnits

variable (root : UnitId) (automatic : Bool) (manager : Manager) (units : List UnitId)

theorem pending_discardUnits (other : UnitId) :
    (manager.sequence (discardUnit root automatic) units).1.pending[other]? =
      if other ∈ units then none else manager.pending[other]? := by
  induction units generalizing manager with
  | nil => simp [sequence]
  | cons unit rest ih =>
      rw [sequence_cons, ih, pending_discardUnit]
      by_cases same : unit = other
      · simp [same]
      · simp [same, Ne.symm same]

theorem children_discardUnits (other : UnitId) :
    (manager.sequence (discardUnit root automatic) units).1.children.of other =
      if other ∈ units ∧ other ∈ manager.pending then []
      else (manager.children.of other).filter fun child =>
        !(child ∈ units && manager.isChild other child) := by
  induction units generalizing manager with
  | nil => simp [sequence, List.filter_eq_self.mpr]
  | cons unit rest ih =>
      rw [sequence_cons, ih, children_discardUnit]
      simp only [mem_pending_discardUnit, isChild_discardUnit]
      by_cases present : other ∈ manager.pending
      · by_cases same : unit = other
        · simp [same, present]
        · by_cases later : other ∈ rest
          · simp [same, later, present]
          · have elsewhere : other ∉ unit :: rest := by simp [Ne.symm same, later]
            rw [if_neg (by simp [later]), if_neg (by simp [same]), if_neg (by simp [elsewhere]),
              List.filter_filter]
            apply List.filter_congr
            intro child _
            by_cases here : child = unit <;> simp [here]
      · rw [if_neg (by simp [present]), if_neg (by simp [present]), if_neg (by simp [present]),
          List.filter_filter]
        apply List.filter_congr
        intro child _
        by_cases here : child = unit <;> simp [here]

theorem referencedBy_discardUnits (other : UnitId) :
    (manager.sequence (discardUnit root automatic) units).1.referencedBy.of other =
      if other ∈ units ∧ other ∈ manager.pending then [] else manager.referencedBy.of other := by
  induction units generalizing manager with
  | nil => simp [sequence]
  | cons unit rest ih =>
      rw [sequence_cons, ih, referencedBy_discardUnit]
      simp only [mem_pending_discardUnit]
      by_cases same : unit = other
      · simp [same]
      · simp [same, Ne.symm same]

theorem rejected_discardUnits (other : UnitId) :
    (manager.sequence (discardUnit root automatic) units).1.rejected[other]? =
      match (if other ∈ units then manager.pending[other]? else none) with
      | some pending => some { unit := pending.unit, awaiting := automatic || other ≠ root }
      | none => manager.rejected[other]? := by
  induction units generalizing manager with
  | nil => simp [sequence]
  | cons unit rest ih =>
      rw [sequence_cons, ih, pending_discardUnit, rejected_discardUnit]
      by_cases same : unit = other
      · simp [same]
      · simp [same, Ne.symm same]

end ManyUnits

section Branch

variable (automatic : Bool) (manager : Manager) (root : UnitId)

theorem settings_discard : (discard automatic manager root).1.settings = manager.settings :=
  sequence_induction (fun after => after.settings = manager.settings)
    (fun unit _ before same => (settings_discardUnit root automatic before unit).trans same) rfl

theorem settings_discardEach (roots : List UnitId) :
    (manager.sequence (discard automatic) roots).1.settings = manager.settings :=
  sequence_induction (fun after => after.settings = manager.settings)
    (fun root _ before same => (settings_discard automatic before root).trans same) rfl

theorem pending_discard (other : UnitId) :
    (discard automatic manager root).1.pending[other]? =
      if other ∈ manager.branch root then none else manager.pending[other]? :=
  pending_discardUnits root automatic manager _ other

theorem mem_pending_discard {other : UnitId} :
    other ∈ (discard automatic manager root).1.pending ↔
      other ∈ manager.pending ∧ other ∉ manager.branch root := by
  rw [Std.ExtTreeMap.mem_iff_isSome_getElem?, pending_discard,
    Std.ExtTreeMap.mem_iff_isSome_getElem?]
  by_cases inside : other ∈ manager.branch root <;> simp [inside]

theorem rejected_discard (other : UnitId) :
    (discard automatic manager root).1.rejected[other]? =
      match (if other ∈ manager.branch root then manager.pending[other]? else none) with
      | some pending => some { unit := pending.unit, awaiting := automatic || other ≠ root }
      | none => manager.rejected[other]? :=
  rejected_discardUnits root automatic manager _ other

end Branch

end DecisionLedger.Manager
