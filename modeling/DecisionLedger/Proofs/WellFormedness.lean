import DecisionLedger.DecisionUnit.Fault
import Mathlib.Data.List.Forall2

/-! # Well-formed units

The check of a unit walks through its sequences and stops at the first element at fault, which may
depend on the elements before it.  What it accepts does not depend on any order: it is a condition
on the sizes and on which elements occur, so a unit stays acceptable, or unacceptable, however its
sequences are arranged.
-/

namespace DecisionLedger

section FirstFault

variable {α φ : Type} [Ord α] [Std.TransOrd α] [Std.LawfulEqOrd α]
  {fault : Std.ExtTreeSet α → α → Option φ} (passes : α → Prop)

/-- A check that refuses what occurs before, besides what it refuses anywhere, passes the lists
without repetition of which it refuses nothing. -/
theorem firstFaultAfter_eq_none_iff
    (checks : ∀ earlier element, fault earlier element = none ↔ passes element ∧ element ∉ earlier)
    {earlier : Std.ExtTreeSet α} {elements : List α} :
    firstFaultAfter fault earlier elements = none ↔
      elements.Nodup ∧ ∀ element ∈ elements, passes element ∧ element ∉ earlier := by
  induction elements generalizing earlier with
  | nil => simp [firstFaultAfter]
  | cons element rest ih =>
      have step : firstFaultAfter fault earlier (element :: rest) = none ↔
          fault earlier element = none ∧
            firstFaultAfter fault (earlier.insert element) rest = none := by
        cases found : fault earlier element <;> simp [firstFaultAfter, found]
      have apart : ∀ other, other ∉ earlier.insert element ↔ other ≠ element ∧ other ∉ earlier := by
        intro other
        simp [Std.ExtTreeSet.mem_insert, @eq_comm α other]
      rw [step, checks, ih]
      simp only [apart, List.nodup_cons, List.mem_cons]
      grind

theorem firstFault_eq_none_iff
    (checks : ∀ earlier element, fault earlier element = none ↔ passes element ∧ element ∉ earlier)
    {elements : List α} :
    firstFault fault elements = none ↔
      elements.Nodup ∧ ∀ element ∈ elements, passes element := by
  rw [firstFault, firstFaultAfter_eq_none_iff passes checks]
  simp

end FirstFault

namespace Transaction

/-- A transaction does something, and names no key and no chain twice for one purpose. -/
structure WellFormed (transaction : Transaction) : Prop where
  effective : transaction.inputs ≠ [] ∨ transaction.outputs ≠ [] ∨ transaction.requests ≠ []
  /-- No input is taken twice. -/
  inputs : transaction.inputs.Nodup
  /-- No key is created twice. -/
  outputs : (transaction.outputs.map Prod.fst).Nodup
  /-- No input is created again. -/
  apart : ∀ key ∈ transaction.outputs.map Prod.fst, key ∉ transaction.inputs
  /-- No chain is addressed twice. -/
  requests : (transaction.requests.map Prod.fst).Nodup

variable {transaction : Transaction}

theorem inputFault?_eq_none_iff : transaction.inputFault? = none ↔ transaction.inputs.Nodup := by
  rw [inputFault?, firstFault_eq_none_iff (fun _ => True) (by simp)]
  simp

theorem outputFault?_eq_none_iff :
    transaction.outputFault? = none ↔ (transaction.outputs.map Prod.fst).Nodup ∧
      ∀ key ∈ transaction.outputs.map Prod.fst, key ∉ transaction.inputs := by
  refine firstFault_eq_none_iff (fun key => key ∉ transaction.inputs) ?_
  intro earlier key
  by_cases taken : key ∈ transaction.inputs <;> simp [Std.ExtTreeSet.mem_ofList, taken]

theorem requestFault?_eq_none_iff :
    transaction.requestFault? = none ↔ (transaction.requests.map Prod.fst).Nodup := by
  rw [requestFault?, firstFault_eq_none_iff (fun _ => True) (by simp)]
  simp

theorem fault?_eq_none_iff : transaction.fault? = none ↔ transaction.WellFormed := by
  have idle : transaction.isEmpty = true ↔
      ¬(transaction.inputs ≠ [] ∨ transaction.outputs ≠ [] ∨ transaction.requests ≠ []) := by
    simp [isEmpty, and_assoc]
  have parts : transaction.fault? = none ↔ ¬transaction.isEmpty = true ∧
      transaction.inputFault? = none ∧ transaction.outputFault? = none ∧
        transaction.requestFault? = none := by
    unfold fault?
    split <;> simp_all
  rw [parts, idle, not_not, inputFault?_eq_none_iff, outputFault?_eq_none_iff,
    requestFault?_eq_none_iff]
  constructor
  · rintro ⟨effective, inputs, ⟨outputs, apart⟩, requests⟩
    exact ⟨effective, inputs, outputs, apart, requests⟩
  · rintro ⟨effective, inputs, outputs, apart, requests⟩
    exact ⟨effective, inputs, ⟨outputs, apart⟩, requests⟩

end Transaction

/-- What a body under a given parent must satisfy by itself. -/
def Body.WellFormed (parent : UnitId) : Body → Prop
  | .standard transactions =>
    transactions ≠ [] ∧ ∀ transaction ∈ transactions, transaction.WellFormed
  | .proposal proposed => proposed.effect.WellFormed
  | .commit | .abort => True
  | .vertex edges transactions =>
    (edges.Nodup ∧ parent ∉ edges) ∧ ∀ transaction ∈ transactions, transaction.WellFormed

namespace DecisionUnit

variable {unit : DecisionUnit} {limit : Nat} {parent : UnitId}

theorem transactionFault?_eq_none_iff {transactions : List Transaction} :
    transactionFault? transactions = none ↔
      ∀ transaction ∈ transactions, transaction.WellFormed := by
  simp [transactionFault?, Transaction.fault?_eq_none_iff]

theorem edgeFault?_eq_none_iff {edges : List UnitId} :
    edgeFault? parent edges = none ↔ edges.Nodup ∧ parent ∉ edges := by
  rw [edgeFault?, firstFault_eq_none_iff (fun edge => edge ≠ parent)]
  · grind
  · intro earlier edge
    by_cases same : edge = parent <;> simp [same]

theorem bodyFault?_eq_none_iff {body : Body} :
    bodyFault? parent body = none ↔ body.WellFormed parent := by
  cases body with
  | standard transactions =>
      cases transactions with
      | nil => simp [bodyFault?, Body.WellFormed]
      | cons first rest => simp [bodyFault?, Body.WellFormed, transactionFault?_eq_none_iff]
  | proposal proposed => simp [bodyFault?, Body.WellFormed, transactionFault?_eq_none_iff]
  | commit | abort => simp [bodyFault?, Body.WellFormed]
  | vertex edges transactions =>
      simp [bodyFault?, Body.WellFormed, edgeFault?_eq_none_iff, transactionFault?_eq_none_iff]

theorem fault?_eq_none_iff :
    unit.fault? limit = none ↔ unit.size ≤ limit ∧ unit.body.WellFormed unit.parent := by
  unfold fault?
  split
  · rename_i within
    simp [bodyFault?_eq_none_iff, within]
  · rename_i long
    simp [long]

end DecisionUnit

/-! ## Arrangements -/

namespace Format

variable {α β : Type} {format : Format α} {other : Format β} {related : α → α → Prop}
  {paired : β → β → Prop}

/-- Related values have encodings of one length, and one fits if the other does. -/
def Levels (format : Format α) (related : α → α → Prop) : Prop :=
  ∀ ⦃left right⦄, related left right →
    (format.encode left).length = (format.encode right).length ∧
      format.fits left = format.fits right

theorem levels_eq (format : Format α) : format.Levels Eq := by
  rintro value _ rfl
  exact ⟨rfl, rfl⟩

theorem Levels.pair (first : format.Levels related) (second : other.Levels paired) :
    (format.pair other).Levels fun left right =>
      related left.1 right.1 ∧ paired left.2 right.2 := by
  rintro left right ⟨front, back⟩
  obtain ⟨frontRoom, frontFits⟩ := first front
  obtain ⟨backRoom, backFits⟩ := second back
  simp [Format.pair, frontRoom, frontFits, backRoom, backFits]

theorem levels_perm (format : Format α) : (list format).Levels List.Perm := by
  intro left right order
  have room := (order.flatMap_right format.encode).length_eq
  have fit : left.all format.fits = right.all format.fits := order.all_eq
  simp only [list, List.length_append, order.length_eq, room, fit, and_self]

theorem Levels.forall₂ (level : format.Levels related) :
    (list format).Levels (List.Forall₂ related) := by
  intro left right pairs
  have parts : (left.flatMap format.encode).length = (right.flatMap format.encode).length ∧
      left.all format.fits = right.all format.fits := by
    induction pairs with
    | nil => exact ⟨rfl, rfl⟩
    | cons here _ ih =>
        obtain ⟨room, fit⟩ := level here
        simp [room, fit, ih]
  simp only [list, List.length_append, pairs.length_eq, parts, and_self]

end Format

namespace Transaction

/-- One transaction has the inputs, the outputs and the requests of another in some order. -/
structure Reorders (left right : Transaction) : Prop where
  inputs : left.inputs.Perm right.inputs
  outputs : left.outputs.Perm right.outputs
  requests : left.requests.Perm right.requests

/-- Transactions are those of another list in some order, each with its own parts in some order. -/
def Rearrange (left right : List Transaction) : Prop :=
  ∃ middle, left.Perm middle ∧ List.Forall₂ Reorders middle right

theorem format_levels : format.Levels Reorders := fun _ _ reorders =>
  (Format.levels_perm _).pair ((Format.levels_perm _).pair (Format.levels_perm _))
    ⟨reorders.inputs, reorders.outputs, reorders.requests⟩

theorem list_levels : (Format.list format).Levels Rearrange := by
  rintro left right ⟨middle, order, pairs⟩
  obtain ⟨room, fit⟩ := Format.levels_perm format order
  obtain ⟨sameRoom, sameFit⟩ := format_levels.forall₂ pairs
  exact ⟨room.trans sameRoom, fit.trans sameFit⟩

theorem Reorders.symm {left right : Transaction} (reorders : left.Reorders right) :
    right.Reorders left :=
  ⟨reorders.inputs.symm, reorders.outputs.symm, reorders.requests.symm⟩

theorem Reorders.wellFormed {left right : Transaction} (reorders : left.Reorders right)
    (sound : left.WellFormed) : right.WellFormed := by
  obtain ⟨inputs, outputs, requests⟩ := reorders
  have keys := outputs.map Prod.fst
  have nonempty {α : Type} {front back : List α} (order : front.Perm back) (some : front ≠ []) :
      back ≠ [] := by
    rintro rfl
    exact some order.eq_nil
  exact {
    effective := sound.effective.imp (nonempty inputs) (.imp (nonempty outputs) (nonempty requests))
    inputs := inputs.nodup_iff.mp sound.inputs
    outputs := keys.nodup_iff.mp sound.outputs
    apart := fun key created taken =>
      sound.apart key (keys.mem_iff.mpr created) (inputs.mem_iff.mpr taken)
    requests := (requests.map Prod.fst).nodup_iff.mp sound.requests }

theorem Reorders.wellFormed_iff {left right : Transaction} (reorders : left.Reorders right) :
    left.WellFormed ↔ right.WellFormed :=
  ⟨reorders.wellFormed, reorders.symm.wellFormed⟩

theorem wellFormed_iff_of_forall₂ {left right : List Transaction}
    (pairs : List.Forall₂ Reorders left right) :
    (∀ transaction ∈ left, transaction.WellFormed) ↔
      ∀ transaction ∈ right, transaction.WellFormed := by
  induction pairs with
  | nil => rfl
  | cons here _ ih => simp only [List.forall_mem_cons, here.wellFormed_iff, ih]

theorem wellFormed_iff_of_rearrange {left right : List Transaction}
    (rearranged : Rearrange left right) :
    (∀ transaction ∈ left, transaction.WellFormed) ↔
      ∀ transaction ∈ right, transaction.WellFormed := by
  obtain ⟨middle, order, pairs⟩ := rearranged
  simp only [order.mem_iff, wellFormed_iff_of_forall₂ pairs]

theorem ne_nil_iff_of_rearrange {left right : List Transaction}
    (rearranged : Rearrange left right) : left ≠ [] ↔ right ≠ [] := by
  obtain ⟨middle, order, pairs⟩ := rearranged
  simp only [← List.length_pos_iff, order.length_eq, pairs.length_eq]

end Transaction

namespace Body

/-- One body has the transactions and the edges of another in some order. -/
inductive Reorders : Body → Body → Prop where
  | standard {left right : List Transaction} : Transaction.Rearrange left right →
      Reorders (.standard left) (.standard right)
  | proposal {left right : Transaction} {prefersCommit : Bool} : left.Reorders right →
      Reorders (.proposal ⟨left, prefersCommit⟩) (.proposal ⟨right, prefersCommit⟩)
  | commit : Reorders .commit .commit
  | abort : Reorders .abort .abort
  | vertex {edges others : List UnitId} {left right : List Transaction} : edges.Perm others →
      Transaction.Rearrange left right → Reorders (.vertex edges left) (.vertex others right)

theorem format_levels : format.Levels Reorders := by
  intro left right reorders
  cases reorders with
  | standard rearranged =>
      obtain ⟨room, fit⟩ := Transaction.list_levels rearranged
      exact ⟨congrArg Nat.succ room, fit⟩
  | proposal reorders =>
      have level := Transaction.format_levels.pair Format.truth.levels_eq
      obtain ⟨room, fit⟩ := @level (_, _) (_, _) ⟨reorders, rfl⟩
      exact ⟨congrArg Nat.succ room, fit⟩
  | commit | abort => exact ⟨rfl, rfl⟩
  | vertex order rearranged =>
      have level := (Format.levels_perm Digest.format).pair Transaction.list_levels
      obtain ⟨room, fit⟩ := @level (_, _) (_, _) ⟨order, rearranged⟩
      exact ⟨congrArg Nat.succ room, fit⟩

theorem Reorders.wellFormed_iff {parent : UnitId} {left right : Body}
    (reorders : left.Reorders right) : left.WellFormed parent ↔ right.WellFormed parent := by
  cases reorders with
  | standard rearranged =>
      exact and_congr (Transaction.ne_nil_iff_of_rearrange rearranged)
        (Transaction.wellFormed_iff_of_rearrange rearranged)
  | proposal reorders => exact reorders.wellFormed_iff
  | commit | abort => rfl
  | vertex order rearranged =>
      exact and_congr (and_congr order.nodup_iff (not_congr order.mem_iff))
        (Transaction.wellFormed_iff_of_rearrange rearranged)

end Body

/-- One unit's fields are those of another, with the sequences in the body in some order. -/
structure UnitFields.Reorders (left right : UnitFields) : Prop where
  parent : left.parent = right.parent
  height : left.height = right.height
  timestamp : left.timestamp = right.timestamp
  body : left.body.Reorders right.body

theorem UnitFields.format_levels : format.Levels Reorders := fun _ _ reorders =>
  Digest.format.levels_eq.pair
    (Format.word.levels_eq.pair ((Format.option Format.word).levels_eq.pair Body.format_levels))
    ⟨reorders.parent, reorders.height, reorders.timestamp, reorders.body⟩

namespace DecisionUnit

/-- What the check of a unit against a limit decides. -/
structure Checked (unit : DecisionUnit) (limit : Nat) : Prop where
  /-- It accepts exactly the well-formed units within the limit. -/
  accepted_iff : unit.fault? limit = none ↔
    unit.bytes.length ≤ limit ∧ unit.body.WellFormed unit.parent
  /-- The same sequences in another order also make a unit, with the same verdict. -/
  reordered : ∀ fields, unit.fields.Reorders fields → ∃ other : DecisionUnit,
    other.fields = fields ∧ (other.fault? limit = none ↔ unit.fault? limit = none)

theorem checked (unit : DecisionUnit) (limit : Nat) : Checked unit limit where
  accepted_iff := fault?_eq_none_iff
  reordered := by
    intro fields reorders
    obtain ⟨room, fit⟩ := UnitFields.format_levels reorders
    let other := ofFields fields (fit.symm.trans unit.fits)
    have sizes : other.size = unit.size := by
      rw [size, size, unit.bytes_eq, room]
      rfl
    have parents : other.parent = unit.parent := reorders.parent.symm
    refine ⟨other, rfl, ?_⟩
    rw [fault?_eq_none_iff, fault?_eq_none_iff, sizes, parents]
    exact and_congr_right' reorders.body.wellFormed_iff.symm

end DecisionUnit

end DecisionLedger
