import DecisionLedger.Proofs.Overlay

/-! # What accepting does to the state

An update set is written as insertions followed by deletions.  Diffs keep the two apart, so the
state after a diff is written reads like the diff on the state before.
-/

namespace DecisionLedger

namespace UpdateSet

/-- No key is both inserted and deleted. -/
def Disjoint (updates : StateUpdates) : Prop :=
  ∀ key, updates.isDeleted key = true → updates.inserted? key = none

theorem disjoint_empty : Disjoint ∅ := by
  intro key deleted
  simp at deleted

variable {updates : StateUpdates}

theorem Disjoint.insert (disjoint : updates.Disjoint) (key : StateKey) (value : StateValue) :
    (updates.insert key value).Disjoint := by
  intro other deleted
  rw [isDeleted_insert] at deleted
  rw [inserted?_insert]
  by_cases here : key = other
  · simp [here] at deleted
  · rw [if_neg here] at deleted ⊢
    exact disjoint other deleted

theorem Disjoint.delete (disjoint : updates.Disjoint) (key : StateKey) :
    (updates.delete key).Disjoint := by
  intro other deleted
  rw [isDeleted_delete] at deleted
  rw [inserted?_delete]
  by_cases here : key = other
  · rw [if_pos here]
  · rw [if_neg here] at deleted ⊢
    exact disjoint other deleted

end UpdateSet

namespace Diff

variable {diff : Diff}

theorem record_induction (keeps : Diff → Prop) (transaction : Transaction)
    (consume : ∀ diff key, keeps diff → keeps ((diff.consume key).delete key))
    (put : ∀ diff key value, keeps diff → keeps (diff.put key value))
    (request : ∀ diff chain requests, keeps diff → keeps (diff.request chain requests))
    (start : keeps diff) : keeps (diff.record transaction) := by
  unfold record
  refine List.foldlRecOn _ _ ?_ (fun diff before addressed _ => request diff _ _ before)
  refine List.foldlRecOn _ _ ?_ (fun diff before record _ => put diff _ _ before)
  exact List.foldlRecOn _ _ start (fun diff before key _ => consume diff key before)

theorem disjoint_record (disjoint : diff.updates.Disjoint) (transaction : Transaction) :
    (diff.record transaction).updates.Disjoint :=
  record_induction (fun diff => diff.updates.Disjoint) transaction
    (fun _ key before => before.delete key) (fun _ key value before => before.insert key value)
    (fun _ _ _ before => before) disjoint

theorem disjoint_recordAll (disjoint : diff.updates.Disjoint) (transactions : List Transaction) :
    (transactions.foldl record diff).updates.Disjoint := by
  induction transactions generalizing diff with
  | nil => exact disjoint
  | cons transaction rest ih => exact ih (disjoint_record disjoint transaction)

end Diff

theorem DecisionUnit.disjoint_effect (unit : DecisionUnit) : unit.effect.updates.Disjoint :=
  Diff.disjoint_recordAll UpdateSet.disjoint_empty _

theorem DecisionUnit.disjoint_branch (unit : DecisionUnit) (choice : Choice) :
    (unit.branch choice).updates.Disjoint := by
  cases choice with
  | commit => exact unit.disjoint_effect
  | abort => exact UpdateSet.disjoint_empty

namespace Store

/-- A variable has the value that all changes of it agree on. -/
theorem raw?_apply_of_agree {key : Key} (ledger : key.isLedger = true) {batch : Batch}
    {value : Option Bytes} (named : ∃ change ∈ batch, change.key = key)
    (agree : ∀ change ∈ batch, change.key = key → change.value = value) (store : Store) :
    (store.apply batch).raw? key = value := by
  induction batch generalizing store with
  | nil =>
      obtain ⟨change, inside, -⟩ := named
      exact absurd inside List.not_mem_nil
  | cons change rest ih =>
      rw [apply_cons]
      by_cases later : ∃ other ∈ rest, other.key = key
      · exact ih later (fun other inside => agree other (List.mem_cons_of_mem _ inside)) _
      · have here : change.key = key := by
          obtain ⟨other, inside, same⟩ := named
          rcases List.mem_cons.mp inside with rfl | deeper
          · exact same
          · exact absurd ⟨other, deeper, same⟩ later
        rw [raw?_apply_of_forall_ne ledger (fun other inside same => later ⟨other, inside, same⟩),
          raw?_change ledger, if_pos here]
        exact agree change List.mem_cons_self here

variable {updates : StateUpdates} {change : Change}

theorem mem_setStates :
    change ∈ (updates.inserts.toList.flatMap fun (key, value) => Batch.setState key value) ↔
      ∃ key value, updates.inserted? key = some value ∧ change = .put (.state key) value := by
  rw [List.mem_flatMap]
  constructor
  · rintro ⟨⟨key, value⟩, listed, inside⟩
    exact ⟨key, value, Std.ExtTreeMap.mem_toList_iff_getElem?_eq_some.mp listed,
      List.mem_singleton.mp inside⟩
  · rintro ⟨key, value, inserted, rfl⟩
    exact ⟨(key, value), Std.ExtTreeMap.mem_toList_iff_getElem?_eq_some.mpr inserted,
      List.mem_cons_self⟩

theorem mem_deleteStates :
    change ∈ updates.deletes.toList.flatMap Batch.deleteState ↔
      ∃ key, updates.isDeleted key = true ∧ change = .remove (.state key) := by
  rw [List.mem_flatMap]
  constructor
  · rintro ⟨key, listed, inside⟩
    exact ⟨key, Std.ExtTreeSet.contains_iff_mem.mpr (Std.ExtTreeSet.mem_toList.mp listed),
      List.mem_singleton.mp inside⟩
  · rintro ⟨key, deleted, rfl⟩
    exact ⟨key, Std.ExtTreeSet.mem_toList.mpr (Std.ExtTreeSet.contains_iff_mem.mp deleted),
      List.mem_cons_self⟩

/-- Deletions are written last, so of a key both inserted and deleted nothing is left. -/
theorem state?_updateState (store : Store) (updates : StateUpdates) (key : StateKey) :
    (store.apply (Batch.updateState updates)).state? key =
      if updates.isDeleted key then none else (updates.inserted? key).or (store.state? key) := by
  rw [Batch.updateState, apply_append, state?]
  by_cases deleted : updates.isDeleted key = true
  · rw [if_pos deleted]
    refine raw?_apply_of_agree rfl ⟨_, mem_deleteStates.mpr ⟨key, deleted, rfl⟩, rfl⟩ ?_ _
    intro change inside _
    obtain ⟨other, -, rfl⟩ := mem_deleteStates.mp inside
    rfl
  · rw [if_neg deleted, raw?_apply_of_forall_ne rfl]
    · cases inserted : updates.inserted? key with
      | some value =>
          refine raw?_apply_of_agree rfl ⟨_, mem_setStates.mpr ⟨key, value, inserted, rfl⟩, rfl⟩
            ?_ _
          intro change inside same
          obtain ⟨other, found, known, rfl⟩ := mem_setStates.mp inside
          cases same
          exact known.symm.trans inserted
      | none =>
          refine raw?_apply_of_forall_ne rfl (fun change inside same => ?_) _
          obtain ⟨other, found, known, rfl⟩ := mem_setStates.mp inside
          cases same
          exact absurd (known.symm.trans inserted) (by simp)
    · intro change inside same
      obtain ⟨other, known, rfl⟩ := mem_deleteStates.mp inside
      cases same
      exact deleted known

theorem tag_of_mem_updateState (inside : change ∈ Batch.updateState updates) :
    change.key.tag = 3 := by
  rcases List.mem_append.mp inside with set | delete
  · obtain ⟨key, value, -, rfl⟩ := mem_setStates.mp set
    rfl
  · obtain ⟨key, -, rfl⟩ := mem_deleteStates.mp delete
    rfl

theorem tag_of_mem_requestShared {chain : ChainId} {requests : AtomicRequests}
    (inside : change ∈ Batch.requestShared chain requests) : change.key.tag = 4 := by
  rcases List.mem_append.mp inside with remove | put
  · obtain ⟨key, -, rest⟩ := List.mem_flatMap.mp remove
    cases List.mem_singleton.mp rest
    rfl
  · obtain ⟨record, -, rest⟩ := List.mem_flatMap.mp put
    cases List.mem_singleton.mp rest
    rfl

theorem tag_of_mem_changes {diff : Diff} (inside : change ∈ diff.changes) :
    change.key.tag = 3 ∨ change.key.tag = 4 := by
  rcases List.mem_append.mp inside with update | request
  · exact .inl (tag_of_mem_updateState update)
  · obtain ⟨addressed, -, rest⟩ := List.mem_flatMap.mp request
    exact .inr (tag_of_mem_requestShared rest)

theorem state?_apply_of_tag {batch : Batch} (tagged : ∀ change ∈ batch, change.key.tag = 4)
    (store : Store) (key : StateKey) : (store.apply batch).state? key = store.state? key := by
  refine raw?_apply_of_forall_ne rfl (fun change inside same => ?_) store
  have four := tagged change inside
  rw [same] at four
  exact absurd four (by simp [Key.tag])

/-- Once a diff is written, the state reads like the diff on the state before. -/
theorem state?_changes {diff : Diff} (disjoint : diff.updates.Disjoint) (store : Store)
    (key : StateKey) :
    (store.apply diff.changes).state? key = (diff.local? key).getD (store.state? key) := by
  rw [Diff.changes, apply_append, state?_apply_of_tag, state?_updateState, Diff.local?]
  · by_cases deleted : diff.updates.isDeleted key = true
    · simp [deleted, disjoint key deleted]
    · cases diff.updates.inserted? key <;> simp [deleted]
  · intro change inside
    obtain ⟨addressed, -, rest⟩ := List.mem_flatMap.mp inside
    exact tag_of_mem_requestShared rest

end Store

end DecisionLedger
