import DecisionLedger.Manager
import DecisionLedger.Shrinking

/-! # Rejecting units

A rejected unit takes with it all that depends on it: its pending children and the pending vertices
that refer to it, and what depends on those.
-/

namespace DecisionLedger

namespace Links

/-- What hangs on a unit, as a child or by an edge. -/
def dependents (children referencedBy : Links) (unit : UnitId) : List UnitId :=
  children.of unit ++ referencedBy.of unit

/-- The units of a branch in the order of a depth-first walk, the dependents of a unit taken from
the last to the first.  The lists of a unit once visited are put aside, so the walk ends. -/
def reach (children referencedBy : Links) (visited : Std.ExtTreeSet UnitId) :
    (stack : List UnitId) → List UnitId
  | [] => []
  | unit :: stack =>
    if unit ∈ visited then reach children referencedBy visited stack
    else
      unit :: reach (children.erase unit) (referencedBy.erase unit) (visited.insert unit)
        ((dependents children referencedBy unit).reverse ++ stack)
termination_by stack => (children.size + referencedBy.size, stack.length)
decreasing_by
  · exact Prod.Lex.right _ (by simp)
  · have fewerChildren := size_erase_le_size children unit
    have fewerReferences := size_erase_le_size referencedBy unit
    by_cases parent : unit ∈ children
    · have shrinks := size_erase_lt_of_mem parent
      exact Prod.Lex.left _ _ (by omega)
    · by_cases target : unit ∈ referencedBy
      · have shrinks := size_erase_lt_of_mem target
        exact Prod.Lex.left _ _ (by omega)
      · have noChildren : children.of unit = [] := by
          simp [of, Std.ExtTreeMap.getD_eq_fallback parent]
        have noReferences : referencedBy.of unit = [] := by
          simp [of, Std.ExtTreeMap.getD_eq_fallback target]
        have sameChildren : (children.erase unit).size = children.size := by
          rw [Std.ExtTreeMap.size_erase, if_neg]
          rwa [Std.ExtTreeMap.contains_iff_mem]
        have sameReferences : (referencedBy.erase unit).size = referencedBy.size := by
          rw [Std.ExtTreeMap.size_erase, if_neg]
          rwa [Std.ExtTreeMap.contains_iff_mem]
        rw [sameChildren, sameReferences]
        exact Prod.Lex.right _ (by simp [dependents, noChildren, noReferences])

end Links

namespace Manager

/-- Give up the inputs that a unit consumes. -/
def release (manager : Manager) (pending : PendingUnit) : Manager :=
  { manager with
    consumedBy := pending.consumed.foldl
      (fun claims key =>
        if claims[key]? = some pending.unit.id then claims.erase key else claims)
      manager.consumedBy }

/-- A unit and everything pending that depends on it. -/
def branch (manager : Manager) (root : UnitId) : List UnitId :=
  Links.reach manager.children manager.referencedBy ∅ [root]

/-- Reject one unit, if it is pending. -/
def discardUnit (root : UnitId) (automatic : Bool) (manager : Manager) (unit : UnitId) :
    Manager × List Event :=
  match manager.pending[unit]? with
  | none => (manager, [])
  | some pending =>
    let released := manager.release pending
    ({ released with
        pending := manager.pending.erase unit
        children := Links.drop (manager.children.erase unit) pending.unit.parent unit
        referencedBy := manager.referencedBy.erase unit
        rejected := manager.rejected.insert unit
          { unit := pending.unit, awaiting := automatic || unit ≠ root } },
      [.rejected manager.config.chain unit pending.unit.height])

/-- Do one thing after another to a manager and gather the events. -/
def sequence {α : Type} (act : Manager → α → Manager × List Event) (manager : Manager) :
    (arguments : List α) → Manager × List Event
  | [] => (manager, [])
  | argument :: rest =>
    let (next, events) := act manager argument
    let (final, later) := sequence act next rest
    (final, events ++ later)

/-- Reject a branch, on the manager's own account or as told to. -/
def discard (automatic : Bool) (manager : Manager) (root : UnitId) : Manager × List Event :=
  manager.sequence (discardUnit root automatic) (manager.branch root)

/-- Reject a pending unit with everything that depends on it.  A unit already rejected needs only to
be acknowledged. -/
def reject (manager : Manager) (unit : UnitId) : Except ManagerError (Manager × List Event) := do
  manager.ensureRunning
  match manager.rejected[unit]? with
  | some found =>
    pure ({ manager with
      rejected := manager.rejected.insert unit { found with awaiting := false } }, [])
  | none =>
    match manager.pending[unit]? with
    | none => throw (.notFound unit)
    | some { execution := .proposal _, .. } => throw (.rejectsProposal unit)
    | some _ => pure (manager.discard false unit)

end Manager

end DecisionLedger
