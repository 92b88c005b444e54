import DecisionLedger.Diff
import DecisionLedger.Shrinking

/-! # Views

What a unit sees is the stack of diffs above the accepted state along its parents.  The stack is
found by following parents from layer to layer; it ends at the accepted unit, or at a unit of which
nothing is known any more.
-/

namespace DecisionLedger

/-- All layers that parents may lead to, and the accepted state below them. -/
structure Versions where
  /-- The diffs of undecided units. -/
  layers : Std.ExtTreeMap UnitId Diff
  /-- The unit accepted last. -/
  accepted : UnitId
  /-- The accepted state. -/
  state? : StateKey → Option StateValue

/-- What lies under the lowest layer of a stack. -/
inductive Base where
  /-- The accepted state. -/
  | accepted
  /-- Nothing: the unit is neither undecided nor the one accepted last. -/
  | missing (unit : UnitId)
  deriving Repr, DecidableEq

/-- A stack of layers, the topmost first. -/
structure View where
  layers : List Diff
  base : Base
  /-- The accepted state. -/
  state? : StateKey → Option StateValue

/-- Why a transaction cannot be executed, or a record not be read. -/
inductive DiffError where
  /-- An input is consumed already. -/
  | doubleSpend (key : StateKey)
  /-- An input does not exist. -/
  | inputNotFound (key : StateKey)
  /-- A layer below is gone. -/
  | missingBase (unit : UnitId)
  deriving Repr, DecidableEq

namespace DiffError

def message : DiffError → String
  | doubleSpend key => s!"input {key.describe} is consumed more than once"
  | inputNotFound key => s!"input {key.describe} not found"
  | missingBase unit => s!"state of unit {unit} is no longer available"

end DiffError

namespace Versions

/-- Follow parents from a unit.  A layer once passed is put aside, so the walk ends. -/
def walk (layers : Std.ExtTreeMap UnitId Diff) (accepted cursor : UnitId) : List Diff × Base :=
  if known : cursor ∈ layers then
    let diff := layers[cursor]
    let below := walk (layers.erase cursor) accepted diff.parent
    (diff :: below.1, below.2)
  else
    ([], if cursor = accepted then .accepted else .missing cursor)
termination_by layers.size
decreasing_by exact size_erase_lt_of_mem known

theorem walk_of_mem {layers : Std.ExtTreeMap UnitId Diff} {cursor : UnitId}
    (known : cursor ∈ layers) (accepted : UnitId) :
    walk layers accepted cursor =
      let diff : Diff := layers[cursor]
      let below := walk (layers.erase cursor) accepted diff.parent
      (diff :: below.1, below.2) := by
  rw [walk, dif_pos known]

theorem walk_of_not_mem {layers : Std.ExtTreeMap UnitId Diff} {cursor : UnitId}
    (unknown : cursor ∉ layers) (accepted : UnitId) :
    walk layers accepted cursor =
      ([], if cursor = accepted then .accepted else .missing cursor) := by
  rw [walk, dif_neg unknown]

/-- What the children of a unit see. -/
def view (versions : Versions) (unit : UnitId) : View :=
  let (layers, base) := walk versions.layers versions.accepted unit
  { layers, base, state? := versions.state? }

end Versions

namespace View

/-- What the layers say of a record; without a word of theirs, the accepted state says it. -/
def read (view : View) (key : StateKey) : Except DiffError (Option StateValue) :=
  match view.layers.findSome? (·.local? key) with
  | some found => .ok found
  | none =>
    match view.base with
    | .accepted => .ok (view.state? key)
    | .missing unit => .error (.missingBase unit)

def consumes (view : View) (key : StateKey) : Except DiffError Bool :=
  if view.layers.any (·.consumes key) then .ok true
  else
    match view.base with
    | .accepted => .ok false
    | .missing unit => .error (.missingBase unit)

/-- A further layer on top. -/
def under (view : View) (diff : Diff) : View :=
  { view with layers := diff :: view.layers }

theorem read_under (view : View) (diff : Diff) (key : StateKey) :
    (view.under diff).read key =
      match diff.local? key with
      | some found => .ok found
      | none => view.read key := by
  cases found : diff.local? key <;> simp [read, under, found]

theorem consumes_under (view : View) (diff : Diff) (key : StateKey) :
    (view.under diff).consumes key =
      if diff.consumes key then .ok true else view.consumes key := by
  cases found : diff.consumes key <;> simp [consumes, under, found]

end View

namespace Diff

/-- Read a record through a diff on what lies below. -/
def get (diff : Diff) (versions : Versions) (key : StateKey) :
    Except DiffError (Option StateValue) :=
  ((versions.view diff.parent).under diff).read key

end Diff

end DecisionLedger
