import DecisionLedger.Proofs.StateChanges

/-! # What a transaction records

A diff is written to record by record, and the last word on a key stands.  So what a diff holds
after a transaction can be read off the transaction: the last output of a key, then the inputs, then
what the diff held before; and the requests to each chain come after those made to it before.
-/

namespace DecisionLedger

def lastValue? (records : List (StateKey × StateValue)) (key : StateKey) : Option StateValue :=
  (records.findRev? (·.1 = key)).map (·.2)

section Last

variable {σ β : Type} {key : StateKey}

@[simp] theorem lastValue?_nil (key : StateKey) : lastValue? [] key = none := rfl

theorem lastValue?_cons (record : StateKey × StateValue) (rest : List (StateKey × StateValue))
    (key : StateKey) :
    lastValue? (record :: rest) key =
      (lastValue? rest key).or (if record.1 = key then some record.2 else none) := by
  unfold lastValue?
  rw [List.findRev?]
  cases rest.findRev? (·.1 = key) with
  | some found => simp
  | none => by_cases here : record.1 = key <;> simp [here]

theorem lastValue?_append (first second : List (StateKey × StateValue)) (key : StateKey) :
    lastValue? (first ++ second) key = (lastValue? second key).or (lastValue? first key) := by
  induction first with
  | nil => simp
  | cons record rest ih => simp [lastValue?_cons, ih, Option.or_assoc]

theorem mem_of_lastValue? {records : List (StateKey × StateValue)} {value : StateValue}
    (last : lastValue? records key = some value) : (key, value) ∈ records := by
  induction records with
  | nil => simp at last
  | cons record rest ih =>
      rw [lastValue?_cons, Option.or_eq_some_iff] at last
      rcases last with later | ⟨-, here⟩
      · exact List.mem_cons_of_mem _ (ih later)
      · obtain ⟨rfl, rfl⟩ : record.1 = key ∧ record.2 = value := by simpa using here
        exact List.mem_cons_self

theorem lastValue?_eq_none_iff {records : List (StateKey × StateValue)} :
    lastValue? records key = none ↔ ∀ record ∈ records, record.1 ≠ key := by
  induction records with
  | nil => simp
  | cons record rest ih => simp [lastValue?_cons, ih, and_comm]

theorem foldl_records (view : σ → β) (answer : StateValue → β)
    {write : σ → StateKey × StateValue → σ} (writes : ∀ state record,
      view (write state record) = if record.1 = key then answer record.2 else view state)
    (records : List (StateKey × StateValue)) (state : σ) :
    view (records.foldl write state) = ((lastValue? records key).map answer).getD (view state) := by
  induction records generalizing state with
  | nil => rfl
  | cons record rest ih =>
      rw [List.foldl_cons, ih, lastValue?_cons, writes]
      cases lastValue? rest key with
      | some later => rfl
      | none => by_cases here : record.1 = key <;> simp [here]

theorem foldl_keys (view : σ → β) (gone : β) {erase : σ → StateKey → σ}
    (erases : ∀ state other, view (erase state other) = if other = key then gone else view state)
    (keys : List StateKey) (state : σ) :
    view (keys.foldl erase state) = if key ∈ keys then gone else view state := by
  induction keys generalizing state with
  | nil => simp
  | cons first rest ih =>
      rw [List.foldl_cons, ih, erases]
      by_cases later : key ∈ rest
      · simp [later]
      · by_cases here : first = key <;> simp [later, here, Ne.symm]

end Last

namespace AtomicRequests

variable (first second third : AtomicRequests)

@[simp] theorem empty_append : (∅ : AtomicRequests) ++ first = first := by
  cases first
  rfl

@[simp] theorem append_empty : first ++ (∅ : AtomicRequests) = first := by
  cases first
  exact congrArg₂ AtomicRequests.mk (List.append_nil _) (List.append_nil _)

theorem append_assoc : first ++ second ++ third = first ++ (second ++ third) :=
  congrArg₂ AtomicRequests.mk (List.append_assoc _ _ _) (List.append_assoc _ _ _)

/-- The requests that address a chain, in order. -/
def gather (chain : ChainId) : List (ChainId × AtomicRequests) → AtomicRequests
  | [] => ∅
  | (address, requests) :: rest =>
    if address = chain then requests ++ gather chain rest else gather chain rest

theorem gather_append (chain : ChainId) (earlier later : List (ChainId × AtomicRequests)) :
    gather chain (earlier ++ later) = gather chain earlier ++ gather chain later := by
  induction earlier with
  | nil => simp [gather]
  | cons addressed rest ih =>
      rw [List.cons_append, gather, gather, ih]
      split <;> simp [append_assoc]

section Gather

variable {chain : ChainId} {requests : AtomicRequests}
  {addressed : List (ChainId × AtomicRequests)}

theorem gather_of_forall_ne (elsewhere : ∀ other ∈ addressed, other.1 ≠ chain) :
    gather chain addressed = ∅ := by
  induction addressed with
  | nil => rfl
  | cons first rest ih =>
      obtain ⟨here, later⟩ := List.forall_mem_cons.mp elsewhere
      rw [gather, if_neg here, ih later]

theorem gather_of_mem (distinct : addressed.Pairwise fun first second => first.1 ≠ second.1)
    (inside : (chain, requests) ∈ addressed) : gather chain addressed = requests := by
  induction addressed with
  | nil => simp at inside
  | cons first rest ih =>
      obtain ⟨apart, distinct⟩ := List.pairwise_cons.mp distinct
      rcases List.mem_cons.mp inside with rfl | later
      · rw [gather, if_pos rfl, gather_of_forall_ne fun other listed => (apart other listed).symm,
          append_empty]
      · rw [gather, if_neg (apart _ later), ih distinct later]

theorem distinct_toList (requests : RequestMap) :
    requests.toList.Pairwise fun first second => first.1 ≠ second.1 :=
  Std.ExtTreeMap.distinct_keys_toList.imp (by simp)

theorem gather_toList (requests : RequestMap) (chain : ChainId) :
    gather chain requests.toList = requests.getD chain ∅ := by
  cases found : requests[chain]? with
  | none =>
      rw [Std.ExtTreeMap.getD_eq_getD_getElem?, found]
      apply gather_of_forall_ne
      rintro ⟨chain, further⟩ listed rfl
      rw [Std.ExtTreeMap.mem_toList_iff_getElem?_eq_some.mp listed] at found
      cases found
  | some further =>
      rw [Std.ExtTreeMap.getD_eq_getD_getElem?, found]
      have listed := Std.ExtTreeMap.mem_toList_iff_getElem?_eq_some.mpr found
      exact gather_of_mem (distinct_toList requests) listed

end Gather

end AtomicRequests

namespace RequestMap

def extendAll (requests : RequestMap) (addressed : List (ChainId × AtomicRequests)) : RequestMap :=
  addressed.foldl (fun requests (chain, further) => requests.extend chain further) requests

variable (requests : RequestMap) (addressed : List (ChainId × AtomicRequests)) (chain : ChainId)

theorem getD_extendAll :
    (requests.extendAll addressed).getD chain ∅ =
      requests.getD chain ∅ ++ AtomicRequests.gather chain addressed := by
  induction addressed generalizing requests with
  | nil => simp [extendAll, AtomicRequests.gather]
  | cons first rest ih =>
      have further := ih (requests.extend first.1 first.2)
      rw [getD_extend] at further
      rw [AtomicRequests.gather]
      refine further.trans ?_
      by_cases here : first.1 = chain
      · simp [here, AtomicRequests.append_assoc]
      · simp [here]

theorem mem_extendAll :
    chain ∈ requests.extendAll addressed ↔ chain ∈ requests ∨ chain ∈ addressed.map (·.1) := by
  induction addressed generalizing requests with
  | nil => simp [extendAll]
  | cons first rest ih =>
      have extended : chain ∈ requests.extend first.1 first.2 ↔
          chain = first.1 ∨ chain ∈ requests := by
        rw [extend, Std.ExtTreeMap.mem_insert, Std.LawfulEqCmp.compare_eq_iff_eq, eq_comm]
      refine (ih (requests.extend first.1 first.2)).trans ?_
      rw [extended, List.map_cons, List.mem_cons, or_assoc, or_left_comm]

theorem eq_of_getD {left right : RequestMap} (chains : ∀ chain, chain ∈ left ↔ chain ∈ right)
    (same : ∀ chain, left.getD chain ∅ = right.getD chain ∅) : left = right := by
  apply Std.ExtTreeMap.ext_getElem?
  intro chain
  by_cases known : chain ∈ left
  · calc
      left[chain]? = some (left.getD chain ∅) := Std.ExtTreeMap.getElem?_eq_some_getD known
      _ = some (right.getD chain ∅) := by rw [same chain]
      _ = right[chain]? :=
        (Std.ExtTreeMap.getElem?_eq_some_getD ((chains chain).mp known)).symm
  · have neither : chain ∉ right := fun present => known ((chains chain).mpr present)
    rw [Std.ExtTreeMap.getElem?_eq_none known, Std.ExtTreeMap.getElem?_eq_none neither]

end RequestMap

namespace UpdateSet

def insertAll (updates : StateUpdates) (records : List (StateKey × StateValue)) : StateUpdates :=
  records.foldl (fun updates (key, value) => updates.insert key value) updates

def deleteAll (updates : StateUpdates) (keys : List StateKey) : StateUpdates :=
  keys.foldl delete updates

variable (updates : StateUpdates) (records : List (StateKey × StateValue)) (keys : List StateKey)
  (key : StateKey)

theorem inserted?_insertAll :
    (updates.insertAll records).inserted? key =
      (lastValue? records key).or (updates.inserted? key) := by
  have last := foldl_records (·.inserted? key) some
    (fun updates record => inserted?_insert updates record.1 key record.2) records updates
  refine last.trans ?_
  cases lastValue? records key <;> rfl

theorem isDeleted_insertAll :
    (updates.insertAll records).isDeleted key =
      ((lastValue? records key).isNone && updates.isDeleted key) := by
  have last := foldl_records (·.isDeleted key) (fun _ => false)
    (fun updates record => isDeleted_insert updates record.1 key record.2) records updates
  refine last.trans ?_
  cases lastValue? records key <;> simp

theorem inserted?_deleteAll :
    (updates.deleteAll keys).inserted? key =
      if key ∈ keys then none else updates.inserted? key :=
  foldl_keys (·.inserted? key) none
    (fun updates other => inserted?_delete updates other key) keys updates

theorem isDeleted_deleteAll :
    (updates.deleteAll keys).isDeleted key =
      if key ∈ keys then true else updates.isDeleted key :=
  foldl_keys (·.isDeleted key) true
    (fun updates other => isDeleted_delete updates other key) keys updates

end UpdateSet

namespace Diff

def consumeAll (consumed : Std.ExtTreeSet StateKey) (keys : List StateKey) :
    Std.ExtTreeSet StateKey :=
  keys.foldl Std.ExtTreeSet.insert consumed

theorem mem_consumeAll {consumed : Std.ExtTreeSet StateKey} {keys : List StateKey}
    {key : StateKey} : key ∈ consumeAll consumed keys ↔ key ∈ consumed ∨ key ∈ keys := by
  induction keys generalizing consumed with
  | nil => simp [consumeAll]
  | cons first rest ih =>
      have later : key ∈ consumeAll (consumed.insert first) rest ↔
          key ∈ consumed.insert first ∨ key ∈ rest := ih
      refine later.trans ?_
      rw [Std.ExtTreeSet.mem_insert, Std.LawfulEqCmp.compare_eq_iff_eq, List.mem_cons, eq_comm,
        or_assoc, or_left_comm]

section Parts

variable (diff : Diff)

theorem foldl_put (records : List (StateKey × StateValue)) :
    records.foldl (fun diff (key, value) => diff.put key value) diff =
      { diff with updates := diff.updates.insertAll records } := by
  induction records generalizing diff with
  | nil => rfl
  | cons record rest ih => exact ih (diff.put record.1 record.2)

theorem foldl_delete (keys : List StateKey) :
    keys.foldl delete diff = { diff with updates := diff.updates.deleteAll keys } := by
  induction keys generalizing diff with
  | nil => rfl
  | cons key rest ih => exact ih (diff.delete key)

theorem foldl_consume (keys : List StateKey) :
    keys.foldl consume diff = { diff with consumed := consumeAll diff.consumed keys } := by
  induction keys generalizing diff with
  | nil => rfl
  | cons key rest ih => exact ih (diff.consume key)

theorem foldl_request (addressed : List (ChainId × AtomicRequests)) :
    addressed.foldl (fun diff (chain, requests) => diff.request chain requests) diff =
      { diff with requests := diff.requests.extendAll addressed } := by
  induction addressed generalizing diff with
  | nil => rfl
  | cons first rest ih => exact ih (diff.request first.1 first.2)

theorem foldl_take (keys : List StateKey) :
    keys.foldl (fun diff key => (diff.consume key).delete key) diff =
      { diff with updates := diff.updates.deleteAll keys,
                  consumed := consumeAll diff.consumed keys } := by
  induction keys generalizing diff with
  | nil => rfl
  | cons key rest ih => exact ih ((diff.consume key).delete key)

/-- Each part of a diff after a transaction, by itself. -/
theorem record_eq (transaction : Transaction) :
    diff.record transaction =
      { diff with
        updates := (diff.updates.deleteAll transaction.inputs).insertAll transaction.outputs
        consumed := consumeAll diff.consumed transaction.inputs
        requests := diff.requests.extendAll transaction.requests } := by
  rw [record, foldl_take, foldl_put, foldl_request]

end Parts

theorem local?_record (diff : Diff) (transaction : Transaction) (key : StateKey) :
    (diff.record transaction).local? key =
      match lastValue? transaction.outputs key with
      | some value => some (some value)
      | none => if key ∈ transaction.inputs then some none else diff.local? key := by
  rw [record_eq, local?, local?]
  dsimp only
  rw [UpdateSet.inserted?_insertAll, UpdateSet.isDeleted_insertAll, UpdateSet.inserted?_deleteAll,
    UpdateSet.isDeleted_deleteAll]
  cases lastValue? transaction.outputs key with
  | some value => rfl
  | none => by_cases inside : key ∈ transaction.inputs <;> simp [inside]

theorem mem_consumed_record {diff : Diff} {transaction : Transaction} {key : StateKey} :
    key ∈ (diff.record transaction).consumed ↔ key ∈ diff.consumed ∨ key ∈ transaction.inputs := by
  rw [record_eq]
  exact mem_consumeAll

theorem getD_requests_record (diff : Diff) (transaction : Transaction) (chain : ChainId) :
    (diff.record transaction).requests.getD chain ∅ =
      diff.requests.getD chain ∅ ++ AtomicRequests.gather chain transaction.requests := by
  rw [record_eq]
  exact RequestMap.getD_extendAll _ _ chain

theorem mem_requests_record {diff : Diff} {transaction : Transaction} {chain : ChainId} :
    chain ∈ (diff.record transaction).requests ↔
      chain ∈ diff.requests ∨ chain ∈ transaction.requests.map (·.1) := by
  rw [record_eq]
  exact RequestMap.mem_extendAll _ _ chain

end Diff

end DecisionLedger
