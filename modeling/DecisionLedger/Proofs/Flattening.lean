import DecisionLedger.Proofs.Executing

/-! # Flattening diffs

A diff can be written into the diff below it, as it is written into a store.  Either way it goes key
by key, insertions first, so what comes out is right only because no diff both inserts and deletes a
key.  Every diff that is built by putting, deleting and executing is of that kind.
-/

namespace DecisionLedger

namespace UpdateSet

theorem eq_of_lookup {left right : StateUpdates}
    (inserted : ∀ key, left.inserted? key = right.inserted? key)
    (deleted : ∀ key, left.isDeleted key = right.isDeleted key) : left = right := by
  have inserts : left.inserts = right.inserts := Std.ExtTreeMap.ext_getElem? inserted
  have deletes : left.deletes = right.deletes := Std.ExtTreeSet.ext_contains deleted
  cases left
  cases right
  congr

theorem lastValue?_inserts (updates : StateUpdates) (key : StateKey) :
    lastValue? updates.inserts.toList key = updates.inserted? key := by
  cases last : lastValue? updates.inserts.toList key with
  | some value =>
      have listed := mem_of_lastValue? last
      exact (Std.ExtTreeMap.mem_toList_iff_getElem?_eq_some.mp listed).symm
  | none =>
      cases inserted : updates.inserted? key with
      | none => rfl
      | some value =>
          have listed := Std.ExtTreeMap.mem_toList_iff_getElem?_eq_some.mpr inserted
          exact absurd rfl (lastValue?_eq_none_iff.mp last _ listed)

theorem mem_toList_deletes {updates : StateUpdates} {key : StateKey} :
    key ∈ updates.deletes.toList ↔ updates.isDeleted key = true := by
  rw [Std.ExtTreeSet.mem_toList, isDeleted, Std.ExtTreeSet.contains_iff_mem]

end UpdateSet

namespace Diff

section Onto

variable (upper lower : Diff) (key : StateKey) (chain : ChainId)

theorem onto_eq :
    upper.onto lower =
      { lower with
        updates := (lower.updates.insertAll upper.updates.inserts.toList).deleteAll
          upper.updates.deletes.toList
        consumed := consumeAll lower.consumed upper.consumed.toList
        requests := lower.requests.extendAll upper.requests.toList } := by
  rw [onto, foldl_put, foldl_delete, foldl_consume, foldl_request]

theorem inserted?_onto :
    (upper.onto lower).updates.inserted? key =
      if upper.updates.isDeleted key then none
      else (upper.updates.inserted? key).or (lower.updates.inserted? key) := by
  simp only [onto_eq, UpdateSet.inserted?_deleteAll, UpdateSet.inserted?_insertAll,
    UpdateSet.lastValue?_inserts, UpdateSet.mem_toList_deletes]

theorem isDeleted_onto :
    (upper.onto lower).updates.isDeleted key =
      (upper.updates.isDeleted key ||
        ((upper.updates.inserted? key).isNone && lower.updates.isDeleted key)) := by
  simp only [onto_eq, UpdateSet.isDeleted_deleteAll, UpdateSet.isDeleted_insertAll,
    UpdateSet.lastValue?_inserts, UpdateSet.mem_toList_deletes]
  cases upper.updates.isDeleted key <;> simp

theorem mem_consumed_onto :
    key ∈ (upper.onto lower).consumed ↔ key ∈ lower.consumed ∨ key ∈ upper.consumed := by
  rw [onto_eq]
  exact mem_consumeAll.trans (or_congr_right Std.ExtTreeSet.mem_toList)

theorem getD_requests_onto :
    (upper.onto lower).requests.getD chain ∅ =
      lower.requests.getD chain ∅ ++ upper.requests.getD chain ∅ := by
  rw [onto_eq, ← AtomicRequests.gather_toList upper.requests]
  exact RequestMap.getD_extendAll _ _ chain

theorem mem_requests_onto :
    chain ∈ (upper.onto lower).requests ↔ chain ∈ lower.requests ∨ chain ∈ upper.requests := by
  rw [onto_eq]
  refine (RequestMap.mem_extendAll _ _ chain).trans (or_congr_right ?_)
  rw [Std.ExtTreeMap.map_fst_toList_eq_keys, Std.ExtTreeMap.mem_keys]

variable {upper lower}

/-- The upper diff has the first word, unless it says two things of one key. -/
theorem local?_onto (disjoint : upper.updates.Disjoint) :
    (upper.onto lower).local? key = (upper.local? key).or (lower.local? key) := by
  have apart := disjoint key
  rw [local?, local?, local?, inserted?_onto, isDeleted_onto]
  cases deleted : upper.updates.isDeleted key with
  | true => simp [apart deleted]
  | false => cases upper.updates.inserted? key <;> simp

theorem disjoint_onto (disjoint : lower.updates.Disjoint) :
    (upper.onto lower).updates.Disjoint := by
  intro key deleted
  have apart := disjoint key
  rw [isDeleted_onto] at deleted
  rw [inserted?_onto]
  cases above : upper.updates.isDeleted key with
  | true => rfl
  | false => simp_all

theorem onto_empty (disjoint : upper.updates.Disjoint) :
    upper.onto (empty upper.parent upper.timestamp) = upper := by
  have updates : (upper.onto (empty upper.parent upper.timestamp)).updates = upper.updates := by
    refine UpdateSet.eq_of_lookup (fun key => ?_) fun key => ?_
    · have apart := disjoint key
      rw [inserted?_onto]
      cases deleted : upper.updates.isDeleted key with
      | true => simp [apart deleted]
      | false => simp [empty]
    · rw [isDeleted_onto]
      simp [empty]
  have consumed : (upper.onto (empty upper.parent upper.timestamp)).consumed = upper.consumed := by
    refine Std.ExtTreeSet.ext_mem fun key => (mem_consumed_onto _ _ key).trans ?_
    simp [empty]
  have requests : (upper.onto (empty upper.parent upper.timestamp)).requests = upper.requests := by
    refine RequestMap.eq_of_getD (fun chain => (mem_requests_onto _ _ chain).trans ?_)
      fun chain => (getD_requests_onto _ _ chain).trans ?_ <;> simp [empty]
  rw [onto_eq] at updates consumed requests ⊢
  cases upper
  simp_all [empty]

end Onto

/-- Diffs that come of putting records, deleting them and executing transactions. -/
inductive Built : Diff → Prop where
  | empty (parent : UnitId) (timestamp : Option Timestamp) : Built (.empty parent timestamp)
  | put {diff : Diff} (key : StateKey) (value : StateValue) : Built diff →
      Built (diff.put key value)
  | delete {diff : Diff} (key : StateKey) : Built diff → Built (diff.delete key)
  | execute {diff after : Diff} {versions : Versions} {transaction : Transaction} : Built diff →
      diff.execute versions transaction = .ok after → Built after

theorem Built.disjoint {diff : Diff} (built : diff.Built) : diff.updates.Disjoint := by
  induction built with
  | empty parent timestamp => exact UpdateSet.disjoint_empty
  | put key value _ ih => exact ih.insert key value
  | delete key _ ih => exact ih.delete key
  | execute _ executed ih =>
      obtain ⟨-, rfl⟩ := executeOn_eq_ok_iff.mp executed
      exact disjoint_record ih _

/-- What comes of writing a diff into the one that it lies on. -/
structure Flattens (versions : Versions) (lower upper : Diff) : Prop where
  /-- It reads like the two diffs on top of each other. -/
  reads : ∀ key, ∃ value, (upper.onto lower).get versions key = .ok value ∧
    upper.get versions key = .ok value
  consumed : ∀ key, key ∈ (upper.onto lower).consumed ↔
    key ∈ lower.consumed ∨ key ∈ upper.consumed
  /-- The requests of the upper diff to a chain follow those of the lower one. -/
  requests : ∀ chain, (upper.onto lower).requests.getD chain ∅ =
    lower.requests.getD chain ∅ ++ upper.requests.getD chain ∅
  addressed : ∀ chain, chain ∈ (upper.onto lower).requests ↔
    chain ∈ lower.requests ∨ chain ∈ upper.requests
  /-- It stands in the place of the lower diff. -/
  place : (upper.onto lower).parent = lower.parent ∧
    (upper.onto lower).timestamp = lower.timestamp
  /-- Written into an empty diff in its own place, the upper diff is copied. -/
  copies : upper.onto (empty upper.parent upper.timestamp) = upper
  /-- It changes the accepted state as one batch of both does. -/
  written : ∀ (store : Store) (key : StateKey),
    (store.apply (lower.changes ++ upper.changes)).state? key =
      (store.apply (upper.onto lower).changes).state? key

/-- A diff that is written into the one below it does there what it did on top. -/
theorem flattens_onto {versions : Versions} {lower upper : Diff} {below : List Diff}
    (first : lower.Built) (second : upper.Built)
    (lies : versions.layers[upper.parent]? = some lower)
    (reaches : Versions.Reaches versions.layers versions.accepted lower.parent below) :
    Flattens versions lower upper where
  reads := by
    intro key
    have above := Versions.Reaches.layer lies reaches
    have same : (upper.onto lower).parent = lower.parent := by rw [onto_eq]
    refine ⟨_, ?_, above.get_eq key⟩
    rw [Versions.Reaches.get_eq (same ▸ reaches), List.findSome?_cons, List.findSome?_cons,
      List.findSome?_cons, local?_onto key second.disjoint]
    cases upper.local? key <;> rfl
  consumed := mem_consumed_onto upper lower
  requests := getD_requests_onto upper lower
  addressed := mem_requests_onto upper lower
  place := by
    rw [onto_eq]
    exact ⟨rfl, rfl⟩
  copies := onto_empty second.disjoint
  written := by
    intro store key
    rw [Store.apply_append, Store.state?_changes second.disjoint,
      Store.state?_changes first.disjoint, Store.state?_changes (disjoint_onto first.disjoint),
      local?_onto key second.disjoint]
    cases upper.local? key <;> rfl

end Diff

namespace Spending

def lower : Diff :=
  (Diff.empty (.filled 0) none).put [1] [5]

def versions : Versions where
  layers := (∅ : Std.ExtTreeMap UnitId Diff).insert (.filled 1) lower
  accepted := .filled 0
  state? _ := none

def spending : Transaction where
  inputs := [[1]]
  outputs := [([2], [6])]
  requests := []

def upper : Diff :=
  (Diff.empty (.filled 1) none).record spending

theorem reaches_lower :
    Versions.Reaches versions.layers versions.accepted lower.parent [] :=
  .accepted (by simp [versions, show Digest.filled 1 ≠ Digest.filled 0 by decide])

theorem lies : versions.layers[upper.parent]? = some lower := by
  rw [upper, Diff.parent_record]
  simp [versions, Diff.empty]

theorem built : upper.Built := by
  have reaches : Versions.Reaches versions.layers versions.accepted
      (Diff.empty (.filled 1) none).parent [lower] :=
    .layer (by simp [versions, Diff.empty]) reaches_lower
  have read : (Diff.empty (.filled 1) none).get versions [1] = .ok (some [5]) := by
    rw [reaches.get_eq]
    simp [lower, Diff.local?_put]
  refine .execute (.empty _ _)
    ((Diff.execute_eq_ok_iff reaches).mpr ⟨fun key inside fault => ?_, rfl⟩)
  obtain rfl : key = [1] := List.mem_singleton.mp inside
  rintro (⟨layer, inside, consumed⟩ | ⟨-, missing⟩)
  · simp only [List.mem_cons, List.not_mem_nil, or_false] at inside
    rcases inside with rfl | rfl <;> simp [lower, Diff.empty, Diff.put] at consumed
  · rw [read] at missing
    cases missing

/-- Neither the key nor that it was created is left in the diff that both are flattened into. -/
theorem spending_flattened :
    lower.Built ∧ upper.Built ∧ versions.layers[upper.parent]? = some lower ∧
      Versions.Reaches versions.layers versions.accepted lower.parent [] ∧
      (upper.onto lower).get versions [1] = .ok none ∧
      (upper.onto lower).get versions [2] = .ok (some [6]) := by
  have lowerBuilt : lower.Built := .put _ _ (.empty _ _)
  have flattens := Diff.flattens_onto lowerBuilt built lies reaches_lower
  have stacked := (Diff.recorded_record versions spending (Diff.empty (.filled 1) none)).reads
  obtain ⟨gone, flat, upper⟩ := flattens.reads [1]
  obtain ⟨there, beside, above⟩ := flattens.reads [2]
  refine ⟨lowerBuilt, built, lies, reaches_lower, ?_, ?_⟩
  · rw [flat, ← upper]
    exact stacked [1]
  · rw [beside, ← above]
    exact stacked [2]

end Spending

end DecisionLedger
