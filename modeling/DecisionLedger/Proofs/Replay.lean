import DecisionLedger.Diff.Execution
import DecisionLedger.Proofs.Chronicle

/-! # Replaying a chronicle

What a chain's state ought to be can be said without diffs: start from a first state, and let every
accepted transaction delete its inputs and insert its outputs, one transaction after another.  An
input must be there when it is deleted.
-/

namespace DecisionLedger

/-- A state as one map. -/
abbrev FlatState := Std.ExtTreeMap StateKey StateValue

namespace FlatState

def consume (state : FlatState) (key : StateKey) : Option FlatState :=
  if key ∈ state then some (state.erase key) else none

/-- Delete the inputs of a transaction, then insert its outputs. -/
def perform (state : FlatState) (transaction : Transaction) : Option FlatState := do
  let consumed ← transaction.inputs.foldlM consume state
  pure (transaction.outputs.foldl (fun state (key, value) => state.insert key value) consumed)

/-- The state that a store is founded with. -/
def first (origin : StateUpdates) : FlatState :=
  origin.inserts.filter fun key _ => !origin.isDeleted key

end FlatState

namespace Body

/-- The transactions that are executed when a unit is verified.  Those of a proposal are its effect,
although it takes effect later or never. -/
def payload : Body → List Transaction
  | standard transactions | vertex _ transactions => transactions
  | proposal proposed => [proposed.effect]
  | commit | abort => []

end Body

namespace DecisionUnit

/-- The transactions that count once a unit is accepted, given the unit accepted next: its own, or
the effect of a proposal if that next unit commits it. -/
def decided (unit : DecisionUnit) (next : Option DecisionUnit) : List Transaction :=
  match unit.body with
  | .standard transactions | .vertex _ transactions => transactions
  | .proposal proposed => if next.map (·.body) = some .commit then [proposed.effect] else []
  | .commit | .abort => []

/-- The transactions that come to count when a unit is accepted on top of another. -/
def gain (tip unit : DecisionUnit) : List Transaction :=
  match unit.body with
  | .standard transactions | .vertex _ transactions => transactions
  | .commit => tip.body.payload
  | .proposal _ | .abort => []

end DecisionUnit

/-- All transactions that count in a list of accepted units, in order. -/
def decidedTransactions : List DecisionUnit → List Transaction
  | [] => []
  | unit :: rest => unit.decided rest.head? ++ decidedTransactions rest

/-- The state after the units of a list are accepted, unless an input is missing on the way. -/
def replay (origin : StateUpdates) (units : List DecisionUnit) : Option FlatState :=
  (decidedTransactions units).foldlM FlatState.perform (.first origin)

theorem DecisionUnit.decided_of_extends {tip unit : DecisionUnit} (follows : unit.Extends tip) :
    tip.decided (some unit) ++ unit.decided none = tip.decided none ++ tip.gain unit := by
  have options := follows.option_iff
  unfold decided gain
  cases below : tip.body <;> cases above : unit.body <;>
    simp_all [kind, Body.kind, Kind.isOption, Body.payload]

theorem DecisionUnit.exists_of_proposal {unit : DecisionUnit} (kind : unit.kind = .proposal) :
    ∃ proposed, unit.body = .proposal proposed := by
  unfold DecisionUnit.kind at kind
  cases body : unit.body with
  | proposal proposed => exact ⟨proposed, rfl⟩
  | standard | commit | abort | vertex => simp [body, Body.kind] at kind

theorem DecisionUnit.gain_of_proposal {tip unit : DecisionUnit} (kind : unit.kind = .proposal) :
    tip.gain unit = [] := by
  obtain ⟨proposed, body⟩ := unit.exists_of_proposal kind
  rw [gain, body]

theorem decidedTransactions_concat {units : List DecisionUnit} {tip unit : DecisionUnit}
    (last : units.getLast? = some tip) (follows : unit.Extends tip) :
    decidedTransactions (units ++ [unit]) = decidedTransactions units ++ tip.gain unit := by
  induction units with
  | nil => cases last
  | cons first rest ih =>
      cases rest with
      | nil =>
          cases last
          simpa [decidedTransactions] using DecisionUnit.decided_of_extends follows
      | cons second later =>
          have further := ih (by simpa [List.getLast?_cons_cons] using last)
          calc
            decidedTransactions (first :: second :: later ++ [unit])
              = first.decided (some second) ++
                  decidedTransactions (second :: later ++ [unit]) := rfl
            _ = first.decided (some second) ++
                  (decidedTransactions (second :: later) ++ tip.gain unit) := by rw [further]
            _ = decidedTransactions (first :: second :: later) ++ tip.gain unit :=
                  (List.append_assoc _ _ _).symm

theorem replay_concat (origin : StateUpdates) {units : List DecisionUnit}
    {tip unit : DecisionUnit} (last : units.getLast? = some tip) (follows : unit.Extends tip) :
    replay origin (units ++ [unit]) =
      (replay origin units).bind ((tip.gain unit).foldlM FlatState.perform) := by
  rw [replay, decidedTransactions_concat last follows, List.foldlM_append]
  rfl

theorem replay_genesis (origin : StateUpdates) :
    replay origin [.genesis] = some (.first origin) := rfl

end DecisionLedger
