import DecisionLedger.Proofs.NodeHost
import DecisionLedger.Proofs.StateChanges

/-! # Amendments

An update set is built by insertions and deletions one after another.  It forgets their order, and
is written to a store insertions first.  That makes no difference: of each key it remembers the last
call alone, so no key is both inserted and deleted, and a store that it is written to becomes what
the calls themselves would make of it.
-/

namespace DecisionLedger

/-- A call on an update set. -/
inductive Amendment (κ ν : Type) where
  | insert (key : κ) (value : ν)
  | delete (key : κ)
  deriving Repr, DecidableEq

namespace Amendment

variable {κ ν : Type}

def key : Amendment κ ν → κ
  | insert key _ => key
  | delete key => key

/-- The value under the key of a call once the call is done. -/
def value? : Amendment κ ν → Option ν
  | insert _ value => some value
  | delete _ => none

def last? [DecidableEq κ] (calls : List (Amendment κ ν)) (key : κ) : Option (Amendment κ ν) :=
  (calls.filter (·.key = key)).getLast?

/-- What a call does to the accepted state if it is not put off. -/
def batch : Amendment StateKey StateValue → Batch
  | insert key value => .setState key value
  | delete key => .deleteState key

section Last

variable {calls : List (Amendment κ ν)} {call : Amendment κ ν} {key : κ}

theorem eq_insert_iff {value : ν} (here : call.key = key) :
    call = .insert key value ↔ call.value? = some value := by
  subst here
  cases call <;> simp [value?, Amendment.key]

theorem eq_delete_iff (here : call.key = key) : call = .delete key ↔ call.value? = none := by
  subst here
  cases call <;> simp [value?, Amendment.key]

variable [DecidableEq κ]

@[simp] theorem last?_nil (key : κ) : last? ([] : List (Amendment κ ν)) key = none := rfl

theorem last?_concat (calls : List (Amendment κ ν)) (call : Amendment κ ν) (key : κ) :
    last? (calls ++ [call]) key = if call.key = key then some call else last? calls key := by
  by_cases here : call.key = key <;> simp [last?, List.filter_append, here]

theorem key_of_last? (last : last? calls key = some call) : call.key = key := by
  have listed := List.mem_of_getLast? last
  simpa using (List.mem_filter.mp listed).2

end Last

theorem batch_eq (call : Amendment StateKey StateValue) :
    call.batch = [⟨.state call.key, call.value?⟩] := by
  cases call <;> rfl

end Amendment

namespace UpdateSet

variable {κ ν : Type} [Ord κ] [Std.TransOrd κ]

/-- An update set after one more call. -/
def amend (updates : UpdateSet κ ν) : Amendment κ ν → UpdateSet κ ν
  | .insert key value => updates.insert key value
  | .delete key => updates.delete key

/-- The update set that calls one after another make. -/
def ofAmendments (calls : List (Amendment κ ν)) : UpdateSet κ ν :=
  calls.foldl amend ∅

theorem ofAmendments_concat (calls : List (Amendment κ ν)) (call : Amendment κ ν) :
    ofAmendments (calls ++ [call]) = (ofAmendments calls).amend call :=
  List.foldl_append

/-- An update set says of every key what the last of some calls on it said, and nothing more. -/
structure Remembers [DecidableEq κ] (updates : UpdateSet κ ν) (calls : List (Amendment κ ν)) :
    Prop where
  /-- No key is both inserted and deleted. -/
  apart : ∀ key, ¬(key ∈ updates.inserts ∧ key ∈ updates.deletes)
  inserted : ∀ {key value},
    updates.inserts[key]? = some value ↔ Amendment.last? calls key = some (.insert key value)
  deleted : ∀ {key}, key ∈ updates.deletes ↔ Amendment.last? calls key = some (.delete key)

section Remembers

variable [Std.LawfulEqOrd κ] [DecidableEq κ]

theorem inserted?_amend (updates : UpdateSet κ ν) (call : Amendment κ ν) (key : κ) :
    (updates.amend call).inserted? key =
      if call.key = key then call.value? else updates.inserted? key := by
  cases call with
  | insert other value => exact inserted?_insert updates other key value
  | delete other => exact inserted?_delete updates other key

theorem isDeleted_amend (updates : UpdateSet κ ν) (call : Amendment κ ν) (key : κ) :
    (updates.amend call).isDeleted key =
      if call.key = key then call.value?.isNone else updates.isDeleted key := by
  cases call with
  | insert other value => exact isDeleted_insert updates other key value
  | delete other => exact isDeleted_delete updates other key

variable (calls : List (Amendment κ ν)) (key : κ)

theorem inserted?_ofAmendments :
    (ofAmendments calls).inserted? key = (Amendment.last? calls key).bind Amendment.value? := by
  induction calls using List.reverseRecOn with
  | nil => exact inserted?_empty key
  | append_singleton calls call ih =>
      rw [ofAmendments_concat, inserted?_amend, Amendment.last?_concat, ih]
      by_cases here : call.key = key <;> simp [here]

theorem isDeleted_ofAmendments :
    (ofAmendments calls).isDeleted key =
      (Amendment.last? calls key).any (·.value?.isNone) := by
  induction calls using List.reverseRecOn with
  | nil => exact isDeleted_empty key
  | append_singleton calls call ih =>
      rw [ofAmendments_concat, isDeleted_amend, Amendment.last?_concat, ih]
      by_cases here : call.key = key <;> simp [here]

theorem remembers_ofAmendments : (ofAmendments calls).Remembers calls := by
  have inserted (key : κ) := inserted?_ofAmendments calls key
  have deleted (key : κ) := isDeleted_ofAmendments calls key
  simp only [inserted?, isDeleted] at inserted deleted
  refine ⟨fun key => ?_, fun {key value} => ?_, fun {key} => ?_⟩
  · rw [Std.ExtTreeMap.mem_iff_isSome_getElem?, ← Std.ExtTreeSet.contains_iff_mem, inserted,
      deleted]
    cases last : Amendment.last? calls key with
    | none => simp
    | some call => cases call <;> simp [Amendment.value?]
  · rw [inserted]
    cases last : Amendment.last? calls key with
    | none => simp
    | some call =>
        simpa using (Amendment.eq_insert_iff (Amendment.key_of_last? last)).symm
  · rw [← Std.ExtTreeSet.contains_iff_mem, deleted]
    cases last : Amendment.last? calls key with
    | none => simp
    | some call =>
        simpa using (Amendment.eq_delete_iff (Amendment.key_of_last? last)).symm

end Remembers

end UpdateSet

namespace Store

def amend (store : Store) (calls : List (Amendment StateKey StateValue)) : Store :=
  calls.foldl (fun store call => store.apply call.batch) store

theorem amend_concat (store : Store) (calls : List (Amendment StateKey StateValue))
    (call : Amendment StateKey StateValue) :
    store.amend (calls ++ [call]) = (store.amend calls).apply call.batch :=
  List.foldl_append

theorem state?_amend (store : Store) (calls : List (Amendment StateKey StateValue))
    (key : StateKey) :
    (store.amend calls).state? key =
      ((Amendment.last? calls key).map Amendment.value?).getD (store.state? key) := by
  induction calls using List.reverseRecOn with
  | nil => rfl
  | append_singleton calls call ih =>
      rw [amend_concat, call.batch_eq, apply_cons, apply_nil, state?, raw?_change rfl,
        Amendment.last?_concat, ← state?, ih]
      by_cases here : call.key = key <;> simp [here]

theorem getElem?_apply_of_forall_ne {batch : Batch} {bytes : Bytes}
    (elsewhere : ∀ change ∈ batch, change.key.encode ≠ bytes) (store : Store) :
    (store.apply batch)[bytes]? = store[bytes]? := by
  induction batch generalizing store with
  | nil => rfl
  | cons change rest ih =>
      rw [apply_cons, ih (fun later inside => elsewhere later (List.mem_cons_of_mem _ inside)),
        change.getElem?_apply, if_neg (elsewhere change List.mem_cons_self)]

theorem getElem?_amend_of_forall_ne {bytes : Bytes}
    (elsewhere : ∀ key, (Key.state key).encode ≠ bytes) (store : Store)
    (calls : List (Amendment StateKey StateValue)) :
    (store.amend calls)[bytes]? = store[bytes]? := by
  induction calls using List.reverseRecOn with
  | nil => rfl
  | append_singleton calls call ih =>
      rw [amend_concat, getElem?_apply_of_forall_ne, ih]
      intro change inside
      rw [call.batch_eq, List.mem_singleton] at inside
      exact inside ▸ elsewhere call.key

/-- To write an update set makes of a store what the calls would make of it one after another. -/
theorem apply_updateState_ofAmendments (store : Store)
    (calls : List (Amendment StateKey StateValue)) :
    store.apply (.updateState (.ofAmendments calls)) = store.amend calls := by
  refine Std.ExtTreeMap.ext_getElem? fun bytes => ?_
  by_cases stateful : ∃ key, (Key.state key).encode = bytes
  · obtain ⟨key, rfl⟩ := stateful
    have written := state?_updateState store (.ofAmendments calls) key
    have performed := state?_amend store calls key
    rw [UpdateSet.isDeleted_ofAmendments, UpdateSet.inserted?_ofAmendments] at written
    refine written.trans (Eq.trans ?_ performed.symm)
    cases Amendment.last? calls key with
    | none => simp
    | some call => cases call <;> simp [Amendment.value?]
  · have elsewhere (key : StateKey) : (Key.state key).encode ≠ bytes :=
      fun same => stateful ⟨key, same⟩
    rw [getElem?_amend_of_forall_ne elsewhere, getElem?_apply_of_forall_ne]
    intro change inside
    rcases List.mem_append.mp inside with set | delete
    · obtain ⟨key, value, -, rfl⟩ := mem_setStates.mp set
      exact elsewhere key
    · obtain ⟨key, -, rfl⟩ := mem_deleteStates.mp delete
      exact elsewhere key

end Store

/-- Whatever the calls on a fresh update set, it remembers the last one on each key; and to stage it
in a batch and write that makes of the store what the calls would have made of it in the set's
place, performed one after another. -/
theorem UpdateSet.replays {κ ν : Type} [Ord κ] [Std.TransOrd κ] [Std.LawfulEqOrd κ]
    [DecidableEq κ] (calls : List (Amendment κ ν)) :
    (ofAmendments calls).Remembers calls ∧
      ∀ (calls : List (Amendment StateKey StateValue)) {disk written : Disk}
        {earlier later : Batch},
        disk.write (earlier ++ .updateState (.ofAmendments calls) ++ later) = .ok written →
        written.store = ((disk.store.apply earlier).amend calls).apply later := by
  refine ⟨remembers_ofAmendments calls, fun calls disk written earlier later done => ?_⟩
  rw [Disk.store_of_write done, Store.apply_append, Store.apply_append,
    Store.apply_updateState_ofAmendments]

namespace Amendment

/-- A key is set, deleted, and set again; another is set and deleted. -/
def course : List (Amendment StateKey StateValue) :=
  [.insert [7] [1], .delete [7], .insert [8] [2], .insert [7] [3], .delete [8]]

/-- The first key has its last value, and the second is deleted, in the set as on the disk. -/
theorem course_replayed :
    (UpdateSet.ofAmendments course).Remembers course ∧
      ∃ written, Disk.empty.write (.updateState (.ofAmendments course)) = .ok written ∧
        written.store = Store.empty.amend course ∧ written.store.state? [7] = some [3] ∧
        written.store.state? [8] = none := by
  obtain ⟨remembers, writes⟩ := UpdateSet.replays course
  have stored := @writes course .empty _ [] [] rfl
  refine ⟨remembers, _, rfl, stored, ?_, ?_⟩
  · exact (congrArg (Store.state? · [7]) stored).trans (Store.state?_amend .empty course [7])
  · exact (congrArg (Store.state? · [8]) stored).trans (Store.state?_amend .empty course [8])

end Amendment

end DecisionLedger
