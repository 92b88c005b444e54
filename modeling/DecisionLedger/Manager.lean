import DecisionLedger.Event
import DecisionLedger.Manager.Error

/-! # Managers of pending units

The manager of a chain keeps every unit that is verified but not decided, with the diff that its
execution gave.  The pending units form a tree above the last accepted unit.  The manager also
remembers units decided lately, for as long as their height is within a window below the last
accepted one.
-/

namespace DecisionLedger

/-- The settings of a chain. -/
structure Configuration where
  chain : ChainId
  /-- The largest encoding of a unit. -/
  maxUnitSize : Nat := DecisionUnit.defaultMaxSize
  /-- How far below the last accepted unit decided units are remembered. -/
  window : UInt64 := 16
  /-- How many failures in a row of a listener that must not miss a unit halt the chain.  It is held
  against the count of `Registration.failures`, and like that one has no bound of 32 bits. -/
  threshold : Nat := 1
  logsEvents : Bool := false
  deriving Repr, DecidableEq

/-- What verifying a unit gave. -/
inductive Execution where
  /-- The effect of the transactions of a standard unit or vertex. -/
  | effect (diff : Diff)
  /-- Both ways of a proposal. -/
  | proposal (branches : Branches)
  /-- A choice; its effect is the matching branch of the parent. -/
  | option (choice : Choice)

/-- A unit that is verified and undecided. -/
structure PendingUnit where
  unit : DecisionUnit
  execution : Execution

namespace PendingUnit

/-- The inputs that no other pending unit may consume, in order. -/
def consumed (pending : PendingUnit) : List StateKey :=
  match pending.execution with
  | .effect diff => diff.consumed.toList
  | .proposal branches => branches.onCommit.consumed.toList
  | .option _ => []

end PendingUnit

/-- A unit rejected lately. -/
structure RejectedUnit where
  unit : DecisionUnit
  /-- Whether the manager rejected the unit by itself, and was not told to since. -/
  awaiting : Bool

/-- Units in order under the unit that they hang on. -/
abbrev Links := Std.ExtTreeMap UnitId (List UnitId)

namespace Links

def of (links : Links) (unit : UnitId) : List UnitId :=
  links.getD unit []

/-- Hang a unit under another, unless it hangs there already. -/
def add (links : Links) (unit child : UnitId) : Links :=
  let present := links.of unit
  links.insert unit (if child ∈ present then present else present ++ [child])

/-- Take a unit away from under another, if there is a list of that one. -/
def drop (links : Links) (unit child : UnitId) : Links :=
  links.modify unit (·.filter (· ≠ child))

def touch (links : Links) (unit : UnitId) : Links :=
  links.insertIfNew unit []

theorem of_insert (links : Links) (unit other : UnitId) (children : List UnitId) :
    Links.of (links.insert unit children) other =
      if unit = other then children else links.of other := by
  simp [of, Std.ExtTreeMap.getD_insert]

theorem of_erase (links : Links) (unit other : UnitId) :
    Links.of (links.erase unit) other = if unit = other then [] else links.of other := by
  simp [of, Std.ExtTreeMap.getD_erase]

theorem of_add (links : Links) (unit child other : UnitId) :
    (links.add unit child).of other =
      if unit = other then
        if child ∈ links.of unit then links.of unit else links.of unit ++ [child]
      else links.of other := by
  rw [add, of_insert]

theorem of_drop (links : Links) (unit child other : UnitId) :
    (links.drop unit child).of other =
      if unit = other then (links.of unit).filter (· ≠ child) else links.of other := by
  by_cases same : unit = other
  · subst same
    cases found : links[unit]? <;>
      simp [of, drop, Std.ExtTreeMap.getD_eq_getD_getElem?, found]
  · simp [of, drop, Std.ExtTreeMap.getD_eq_getD_getElem?, Std.ExtTreeMap.getElem?_modify, same]

/-- An empty list says as much as none. -/
@[simp] theorem of_touch (links : Links) (unit other : UnitId) :
    (links.touch unit).of other = links.of other := by
  rw [of, of, touch, Std.ExtTreeMap.getD_insertIfNew]
  split
  · rename_i fresh
    obtain ⟨same, absent⟩ := fresh
    rw [Std.LawfulEqOrd.eq_of_compare same] at absent
    rw [Std.ExtTreeMap.getD_eq_fallback absent]
  · rfl

end Links

/-- The pending and lately decided units of a chain. -/
structure Manager where
  config : Configuration
  pending : Std.ExtTreeMap UnitId PendingUnit
  /-- The pending children of pending units and of the last accepted unit. -/
  children : Links
  /-- The pending vertices that refer to a pending unit. -/
  referencedBy : Links
  /-- The pending unit that consumes an input. -/
  consumedBy : Std.ExtTreeMap StateKey UnitId
  rejected : Std.ExtTreeMap UnitId RejectedUnit
  /-- Units accepted lately, the oldest first and the last accepted one at the end. -/
  recent : List DecisionUnit
  lastAccepted : DecisionUnit
  halted : Option HaltReason

namespace Manager

/-- The manager of a chain whose last accepted unit is in a store. -/
def resume (config : Configuration) (store : Store) : Except ManagerError Manager :=
  if store.isFounded then
    match store.lastUnit with
    | .error error => .error (.storageFailure error)
    | .ok unit =>
      .ok {
        config
        pending := ∅
        children := (∅ : Links).insert unit.id []
        referencedBy := ∅
        consumedBy := ∅
        rejected := ∅
        recent := [unit]
        lastAccepted := unit
        halted := none }
  else .error .unfounded

def isPending (manager : Manager) (unit : UnitId) : Bool :=
  manager.pending.contains unit

def recent? (manager : Manager) (unit : UnitId) : Option DecisionUnit :=
  manager.recent.find? (·.id = unit)

/-- Whether a unit is accepted, lately or in the store. -/
def isAccepted (manager : Manager) (store : Store) (unit : UnitId) : Bool :=
  (manager.recent? unit).isSome || store.containsUnit unit

/-- Refuse every operation once the chain has halted. -/
def ensureRunning (manager : Manager) : Except ManagerError Unit :=
  match manager.halted with
  | some reason => .error (.halted reason)
  | none => .ok ()

/-- The layer that a pending unit adds.  A proposal changes nothing until it is decided; an option
has the matching branch of its proposal. -/
def layer? (manager : Manager) (pending : PendingUnit) : Option Diff :=
  match pending.execution with
  | .effect diff => some diff
  | .proposal branches => some branches.onAbort
  | .option choice =>
    match manager.pending[pending.unit.parent]? with
    | some { execution := .proposal branches, .. } => some (branches.branch choice)
    | _ => none

/-- All layers above the accepted state. -/
def versions (manager : Manager) (store : Store) : Versions where
  layers := manager.pending.filterMap fun _ pending => manager.layer? pending
  accepted := manager.lastAccepted.id
  state? := store.state?

/-- The pending child of a proposal that makes a choice. -/
def optionOf? (manager : Manager) (proposal : UnitId) (choice : Choice) : Option UnitId :=
  (manager.children.of proposal).find? fun child =>
    match manager.pending[child]? with
    | some { execution := .option other, .. } => other = choice
    | _ => false

/-- Halt, unless halted already, and say so. -/
def halt (manager : Manager) (reason : HaltReason) : Manager × List Event :=
  match manager.halted with
  | some _ => (manager, [])
  | none =>
    ({ manager with halted := some reason }, [.halted manager.config.chain reason.text])

end Manager

end DecisionLedger
