import DecisionLedger.Proofs.Examination
import DecisionLedger.Proofs.Ledger
import DecisionLedger.Proofs.WellFormedness

/-! # Diffs over a state

A diff over a state reads like the state that its transactions lead to, if they are performed one
after another.  The checks made when they are executed ensure that they can be performed, and the
changes that the diff makes to a store lead to the same state.
-/

namespace DecisionLedger

namespace Diff

/-- Reading through a diff on one state gives another state. -/
def Overlays (diff : Diff) (base after : FlatState) : Prop :=
  ∀ key, (diff.local? key).getD base[key]? = after[key]?

variable {diff : Diff} {base middle after : FlatState}

theorem overlays_empty (parent : UnitId) (timestamp : Option Timestamp) (base : FlatState) :
    (Diff.empty parent timestamp).Overlays base base := by
  intro key
  rw [local?_empty]
  rfl

theorem Overlays.put (overlays : diff.Overlays base after) (key : StateKey) (value : StateValue) :
    (diff.put key value).Overlays base (after.insert key value) := by
  intro other
  have same := overlays other
  rw [local?_put, Std.ExtTreeMap.getElem?_insert]
  by_cases here : key = other <;> simp [here, same]

theorem Overlays.delete (overlays : diff.Overlays base after) (key : StateKey) :
    (diff.delete key).Overlays base (after.erase key) := by
  intro other
  have same := overlays other
  rw [local?_delete, Std.ExtTreeMap.getElem?_erase]
  by_cases here : key = other <;> simp [here, same]

theorem Overlays.request (overlays : diff.Overlays base after) (chain : ChainId)
    (requests : AtomicRequests) : (diff.request chain requests).Overlays base after :=
  overlays

theorem Overlays.consumeAll {keys : List StateKey} (overlays : diff.Overlays base middle)
    (taken : keys.foldlM FlatState.consume middle = some after) :
    (keys.foldl (fun diff key => (diff.consume key).delete key) diff).Overlays base after := by
  induction keys generalizing diff middle with
  | nil =>
      cases taken
      exact overlays
  | cons key rest ih =>
      rw [List.foldlM_cons] at taken
      obtain ⟨next, first, later⟩ := Option.bind_eq_some_iff.mp taken
      unfold FlatState.consume at first
      split at first
      · cases first
        have consumed : (diff.consume key).Overlays base middle := overlays
        exact ih (consumed.delete key) later
      · cases first

theorem Overlays.putAll (overlays : diff.Overlays base after)
    (records : List (StateKey × StateValue)) :
    (records.foldl (fun diff (key, value) => diff.put key value) diff).Overlays base
      (records.foldl (fun state (key, value) => state.insert key value) after) := by
  induction records generalizing diff after with
  | nil => exact overlays
  | cons record rest ih => exact ih (overlays.put record.1 record.2)

theorem Overlays.requestAll (overlays : diff.Overlays base after)
    (requests : List (ChainId × AtomicRequests)) :
    (requests.foldl (fun diff (chain, requests) => diff.request chain requests) diff).Overlays
      base after := by
  induction requests generalizing diff with
  | nil => exact overlays
  | cons first rest ih => exact ih (overlays.request first.1 first.2)

theorem Overlays.record (overlays : diff.Overlays base middle) {transaction : Transaction}
    (performed : middle.perform transaction = some after) :
    (diff.record transaction).Overlays base after := by
  obtain ⟨consumed, taken, created⟩ := Option.bind_eq_some_iff.mp performed
  cases created
  exact ((overlays.consumeAll taken).putAll transaction.outputs).requestAll transaction.requests

/-- Recording transactions and performing them come to the same. -/
theorem Overlays.recordAll {transactions : List Transaction} (overlays : diff.Overlays base middle)
    (performed : transactions.foldlM FlatState.perform middle = some after) :
    (transactions.foldl Diff.record diff).Overlays base after := by
  induction transactions generalizing diff middle with
  | nil =>
      cases performed
      exact overlays
  | cons transaction rest ih =>
      rw [List.foldlM_cons] at performed
      obtain ⟨next, first, later⟩ := Option.bind_eq_some_iff.mp performed
      exact ih (overlays.record first) later

end Diff

section Executable

variable {below : View} {base middle : FlatState} {diff : Diff}

theorem FlatState.exists_consumeAll {keys : List StateKey} {state : FlatState}
    (distinct : keys.Nodup) (present : ∀ key ∈ keys, key ∈ state) :
    ∃ after, keys.foldlM FlatState.consume state = some after := by
  induction keys generalizing state with
  | nil => exact ⟨state, rfl⟩
  | cons key rest ih =>
      obtain ⟨once, distinct⟩ := List.nodup_cons.mp distinct
      have taken : state.consume key = some (state.erase key) :=
        if_pos (present key List.mem_cons_self)
      have remaining : ∀ other ∈ rest, other ∈ state.erase key := by
        intro other inside
        refine Std.ExtTreeMap.mem_erase.mpr
          ⟨fun same => once ?_, present other (List.mem_cons_of_mem _ inside)⟩
        rwa [Std.LawfulEqOrd.eq_of_compare same]
      obtain ⟨after, later⟩ := ih distinct remaining
      refine ⟨after, ?_⟩
      rw [List.foldlM_cons, taken]
      exact later

theorem Diff.mem_of_checkInput (reads : ∀ key, below.read key = .ok base[key]?)
    (overlays : diff.Overlays base middle) {key : StateKey}
    (checked : checkInput (below.under diff) key = .ok ()) : key ∈ middle := by
  obtain ⟨-, value, found⟩ := checkInput_eq_ok_iff.mp checked
  rw [Std.ExtTreeMap.mem_iff_isSome_getElem?, ← overlays key]
  rw [View.read_under] at found
  cases known : diff.local? key with
  | some record =>
      rw [known] at found
      rw [Option.getD_some, Except.ok.inj found]
      rfl
  | none =>
      simp only [known, reads key] at found
      rw [Option.getD_none, Except.ok.inj found]
      rfl

theorem Diff.exists_perform (reads : ∀ key, below.read key = .ok base[key]?)
    (overlays : diff.Overlays base middle) {transaction : Transaction} {next : Diff}
    (distinct : transaction.inputs.Nodup)
    (executed : executeOn below diff transaction = .ok next) :
    ∃ after, middle.perform transaction = some after := by
  obtain ⟨checked, -⟩ := executeOn_eq_ok_iff.mp executed
  obtain ⟨consumed, taken⟩ := FlatState.exists_consumeAll distinct
    (fun key inside => mem_of_checkInput reads overlays (checked key inside))
  refine ⟨transaction.outputs.foldl (fun state (key, value) => state.insert key value) consumed, ?_⟩
  rw [FlatState.perform, taken]
  rfl

/-- What can be executed on a view can be performed on the state that the view reads like. -/
theorem Diff.exists_performAll (reads : ∀ key, below.read key = .ok base[key]?)
    {transactions : List Transaction} {next : Diff} (overlays : diff.Overlays base middle)
    (distinct : ∀ transaction ∈ transactions, transaction.inputs.Nodup)
    (executed : transactions.foldlM (executeOn below) diff = .ok next) :
    ∃ after, transactions.foldlM FlatState.perform middle = some after := by
  induction transactions generalizing diff middle with
  | nil => exact ⟨middle, rfl⟩
  | cons transaction rest ih =>
      rw [List.foldlM_cons] at executed
      obtain ⟨recorded, first, later⟩ := bind_eq_ok_iff.mp executed
      obtain ⟨-, rfl⟩ := executeOn_eq_ok_iff.mp first
      obtain ⟨performed, done⟩ :=
        exists_perform reads overlays (distinct transaction List.mem_cons_self) first
      obtain ⟨after, further⟩ := ih (overlays.record done)
        (fun other inside => distinct other (List.mem_cons_of_mem _ inside)) later
      refine ⟨after, ?_⟩
      rw [List.foldlM_cons, done]
      exact further

end Executable

theorem DecisionUnit.nodup_inputs {unit : DecisionUnit} {limit : Nat}
    (sound : unit.fault? limit = none) {transaction : Transaction}
    (inside : transaction ∈ unit.body.payload) : transaction.inputs.Nodup := by
  obtain ⟨-, sound⟩ := fault?_eq_none_iff.mp sound
  cases body : unit.body with
  | standard transactions =>
      rw [body] at sound inside
      exact (sound.2 transaction inside).inputs
  | proposal proposed =>
      rw [body] at sound inside
      cases List.mem_singleton.mp inside
      exact sound.inputs
  | commit | abort =>
      rw [body] at inside
      exact absurd inside List.not_mem_nil
  | vertex edges transactions =>
      rw [body] at sound inside
      exact (sound.2 transaction inside).inputs

end DecisionLedger
