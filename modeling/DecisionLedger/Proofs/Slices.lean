import DecisionLedger.Proofs.Filing
import Mathlib.Algebra.GroupWithZero.Nat

/-! # Slices of an index

A range of an index is a slice of what the index holds.  It is refused for its count or its start
alone: whatever lies between the start and the end of the index is there.  So whoever reads page
after page, each from where the one before ended, until one is refused, has read everything once.
-/

namespace DecisionLedger

theorem mapM_range_eq_ok {ε α : Type} {ask : Nat → Except ε α} {answers : List α}
    (answered : ∀ place (inside : place < answers.length), ask place = .ok answers[place]) :
    (List.range answers.length).mapM ask = .ok answers := by
  induction answers using List.reverseRecOn with
  | nil => rfl
  | append_singleton earlier last ih =>
      have before := ih fun place inside => by
        have here := answered place (by simp; omega)
        rwa [List.getElem_append_left inside] at here
      have final := answered earlier.length (by simp)
      rw [List.getElem_concat_length rfl] at final
      rw [List.length_append, List.length_singleton, List.range_succ, List.mapM_append, before]
      simp [final, bind, Except.bind, pure, Except.pure]

namespace Index

/-- Pages of some sizes, each from where the one before ended, until one is refused. -/
def pages (index : Index) (store : Store) :
    AcceptIndex → List UInt64 → List (List Container) × Option IndexerError
  | _, [] => ([], none)
  | start, size :: sizes =>
    match index.range store start size with
    | .error error => ([], some error)
    | .ok page =>
      let further := pages index store (start + UInt64.ofNat page.length) sizes
      (page :: further.1, further.2)

/-- What can be read of an index in ranges. -/
structure Slices (index : Index) (store : Store) (containers : List Container) : Prop where
  distinct : (containers.map (·.id)).Nodup
  /-- A range can be read if its count is one of those allowed and something is at its start. -/
  succeeds : ∀ start count, (∃ slice, index.range store start count = .ok slice) ↔
    1 ≤ count.toNat ∧ count.toNat ≤ 1024 ∧ start.toNat < containers.length
  slice : ∀ {start count slice}, index.range store start count = .ok slice →
    slice = containers.extract start.toNat (min (start.toNat + count.toNat) containers.length)
  /-- Nothing else is said of a range that cannot be read. -/
  refusal : ∀ {start count error}, index.range store start count = .error error →
    ¬(1 ≤ count.toNat ∧ count.toNat ≤ 1024) ∧ error = .invalidCount count 1024 ∨
      containers.length ≤ start.toNat ∧
        error = .invalidStart start (UInt64.ofNat containers.length)
  /-- The words for the rest of the index, the end of a range and the positions in it are the
  numbers. -/
  exact : ∀ {start count : UInt64}, start.toNat < containers.length →
    let rest := UInt64.ofNat containers.length - start
    rest.toNat = containers.length - start.toNat ∧
      (start + min count rest).toNat = min (start.toNat + count.toNat) containers.length ∧
      ∀ offset < (min count rest).toNat, (start + UInt64.ofNat offset).toNat = start.toNat + offset
  /-- Pages of any sizes that are allowed, up to a refusal, are everything. -/
  paged : ∀ sizes : List UInt64, (∀ size ∈ sizes, 1 ≤ size.toNat ∧ size.toNat ≤ 1024) →
    let answers := index.pages store 0 sizes
    answers.1.flatten = containers.take (sizes.map UInt64.toNat).sum ∧
      (answers.2.isSome → answers.1.flatten = containers) ∧
      (containers.length < sizes.length → answers.2.isSome)

section Slices

variable {index : Index} {store : Store} {containers : List Container} {start count : UInt64}

theorem toNat_rest (room : containers.length < UInt64.size)
    (inside : start.toNat < containers.length) :
    (UInt64.ofNat containers.length - start).toNat = containers.length - start.toNat := by
  have word := UInt64.toNat_ofNat_of_lt' room
  rw [UInt64.toNat_sub_of_le _ _ (UInt64.le_iff_toNat_le.mpr (by omega)), word]

theorem toNat_min (left right : UInt64) : (min left right).toNat = min left.toNat right.toNat := by
  change (if left ≤ right then left else right).toNat = _
  by_cases below : left ≤ right
  · rw [if_pos below, Nat.min_eq_left (UInt64.le_iff_toNat_le.mp below)]
  · rw [UInt64.le_iff_toNat_le] at below
    rw [if_neg (mt UInt64.le_iff_toNat_le.mp below), Nat.min_eq_right (by omega)]

theorem toNat_add_ofNat {offset : Nat} (small : start.toNat + offset < UInt64.size) :
    (start + UInt64.ofNat offset).toNat = start.toNat + offset := by
  rw [UInt64.toNat_add, UInt64.toNat_ofNat_of_lt' (by omega), Nat.mod_eq_of_lt small]

theorem count_refused_iff :
    (count = 0 || rangeLimit < count) = true ↔ ¬(1 ≤ count.toNat ∧ count.toNat ≤ 1024) := by
  rw [Bool.or_eq_true, decide_eq_true_eq, decide_eq_true_eq, UInt64.lt_iff_toNat_lt,
    ← UInt64.toNat_inj]
  change count.toNat = 0 ∨ 1024 < count.toNat ↔ _
  omega

/-- A range is refused, or it is the slice. -/
theorem Numbers.range_eq (numbers : index.Numbers store containers)
    (room : containers.length < UInt64.size) (start count : UInt64) :
    index.range store start count =
      if 1 ≤ count.toNat ∧ count.toNat ≤ 1024 then
        if start.toNat < containers.length then
          .ok ((containers.drop start.toNat).take count.toNat)
        else .error (.invalidStart start (UInt64.ofNat containers.length))
      else .error (.invalidCount count 1024) := by
  have word := UInt64.toNat_ofNat_of_lt' room
  unfold range
  rw [numbers.next]
  by_cases allowed : 1 ≤ count.toNat ∧ count.toNat ≤ 1024
  case neg =>
    rw [if_neg allowed, if_pos (count_refused_iff.mpr allowed)]
    rfl
  rw [if_pos allowed, if_neg fun refused => count_refused_iff.mp refused allowed]
  simp only [IndexerError.ofRead, bind, Except.bind]
  by_cases inside : start.toNat < containers.length
  case neg =>
    rw [if_neg inside, if_pos (UInt64.le_iff_toNat_le.mpr (by omega))]
    rfl
  rw [if_pos inside, if_neg (by rw [UInt64.le_iff_toNat_le]; omega)]
  have length : (min count (UInt64.ofNat containers.length - start)).toNat =
      ((containers.drop start.toNat).take count.toNat).length := by
    rw [toNat_min, toNat_rest room inside, List.length_take, List.length_drop]
  rw [length]
  refine mapM_range_eq_ok fun offset within => ?_
  have short : start.toNat + offset < containers.length := by
    simp at within
    omega
  rw [numbers.byIndex_eq, toNat_add_ofNat (short.trans room)]
  simp [short]

theorem toNat_next (room : containers.length < UInt64.size)
    (reached : start.toNat ≤ containers.length) (size : Nat) :
    let page := (containers.drop start.toNat).take size
    (start + UInt64.ofNat page.length).toNat = start.toNat + page.length ∧
      start.toNat + page.length ≤ containers.length ∧
      containers.drop (start.toNat + page.length) = (containers.drop start.toNat).drop size := by
  have length : ((containers.drop start.toNat).take size).length =
      min size (containers.length - start.toNat) := by
    rw [List.length_take, List.length_drop]
  dsimp only
  rw [length]
  have within : start.toNat + min size (containers.length - start.toNat) ≤ containers.length := by
    omega
  refine ⟨toNat_add_ofNat (within.trans_lt room), within, ?_⟩
  rw [List.drop_drop, List.drop_eq_drop_iff]
  omega

/-- The pages from a position on are what the index has from there on. -/
theorem Numbers.pages_eq (numbers : index.Numbers store containers)
    (room : containers.length < UInt64.size) {sizes : List UInt64}
    (allowed : ∀ size ∈ sizes, 1 ≤ size.toNat ∧ size.toNat ≤ 1024) (start : UInt64)
    (reached : start.toNat ≤ containers.length) :
    let answers := index.pages store start sizes
    answers.1.flatten = (containers.drop start.toNat).take (sizes.map UInt64.toNat).sum ∧
      (answers.2.isSome → answers.1.flatten = containers.drop start.toNat) ∧
      (containers.length < start.toNat + sizes.length → answers.2.isSome) := by
  induction sizes generalizing start with
  | nil =>
      refine ⟨by simp [pages], fun refused => ?_, fun beyond => ?_⟩
      · cases refused
      · simp at beyond
        omega
  | cons size sizes ih =>
      have here := allowed size List.mem_cons_self
      rw [pages, numbers.range_eq room, if_pos here]
      by_cases inside : start.toNat < containers.length
      case neg =>
        rw [if_neg inside]
        simp [List.drop_of_length_le (Nat.le_of_not_lt inside)]
      rw [if_pos inside]
      dsimp only
      have some : 0 < ((containers.drop start.toNat).take size.toNat).length := by
        rw [List.length_take, List.length_drop]
        omega
      obtain ⟨next, within, after⟩ := toNat_next room reached size.toNat
      have rest := ih (fun size inside => allowed size (List.mem_cons_of_mem _ inside)) _
        (next.trans_le within)
      rw [next, after] at rest
      obtain ⟨taken, whole, far⟩ := rest
      refine ⟨?_, fun refused => ?_, fun beyond => far ?_⟩
      · rw [List.flatten_cons, taken, List.map_cons, List.sum_cons, List.take_add]
      · rw [List.flatten_cons, whole refused, List.take_append_drop]
      · simp at beyond
        omega

theorem Numbers.slices (numbers : index.Numbers store containers)
    (room : containers.length < UInt64.size) : index.Slices store containers where
  distinct := numbers.distinct
  succeeds start count := by
    rw [numbers.range_eq room]
    split_ifs with allowed inside
    · simp [allowed, inside]
    · simp [inside]
    · simp [← and_assoc, allowed]
  slice {start count slice} read := by
    rw [numbers.range_eq room] at read
    split_ifs at read
    obtain rfl := Except.ok.inj read
    rw [List.extract_eq_take_drop, List.take_eq_take_iff, List.length_drop]
    omega
  refusal {start count error} read := by
    rw [numbers.range_eq room] at read
    split_ifs at read with allowed inside
    · exact .inr ⟨Nat.le_of_not_lt inside, (Except.error.inj read).symm⟩
    · exact .inl ⟨allowed, (Except.error.inj read).symm⟩
  exact {start count} inside := by
    have rest := toNat_rest room inside
    have least := toNat_min count (UInt64.ofNat containers.length - start)
    rw [rest] at least
    refine ⟨rest, ?_, fun offset within => toNat_add_ofNat ?_⟩
    · have word : UInt64.ofNat (min count (UInt64.ofNat containers.length - start)).toNat =
          min count (UInt64.ofNat containers.length - start) := UInt64.ofNat_toNat
      rw [← word, toNat_add_ofNat] <;> omega
    · omega
  paged sizes allowed := by
    simpa using numbers.pages_eq room allowed 0 (Nat.zero_le _)

end Slices

/-- Ranges of an index that starts empty are after any history slices of what the index took, in the
order in which it was first taken, and pages up to a refusal are all of it. -/
theorem slices_run (index : Index) (disk : String) (node : Node)
    (empty : ∀ key, index.owns key = true → (node.store disk).raw? key = none)
    (filings : List (Filing index disk))
    (room : (index.catalogue (Filing.deliveredAll filings node)).length < UInt64.size) :
    index.Slices ((Filing.run filings node).store disk)
      (index.catalogue (Filing.deliveredAll filings node)) :=
  (Filing.numbers_run filings (numbers_nil empty) room).slices room

end Index

namespace Filing

def tripled : DecisionUnit :=
  let transaction (byte : UInt8) : Transaction :=
    { inputs := [], outputs := [([0xaa], [byte])], requests := [] }
  .ofFields { parent := DecisionUnit.genesis.id, height := 1, timestamp := none,
              body := .standard [transaction 1, transaction 2, transaction 3] } (by decide)

/-- A unit that repeats a transaction, then one that has it again and two others. -/
def growth : List (Filing transactions "disk") :=
  [.make transactions "disk", .take 5 0 1 doubled, .take 7 0 1 tripled]

set_option maxRecDepth 100000 in
theorem length_growth :
    (transactions.catalogue (deliveredAll growth (.empty 0))).length = 3 := by
  decide +kernel

theorem slices_growth :
    ((∀ key, transactions.owns key = true → ((Node.empty 0).store "disk").raw? key = none) ∧
      (transactions.catalogue (deliveredAll growth (.empty 0))).length < UInt64.size) ∧
    (∃ slice, transactions.range ((run growth (.empty 0)).store "disk") 1 1024 = .ok slice) ∧
    (transactions.pages ((run growth (.empty 0)).store "disk") 0 [2, 7, 1, 1]).1.flatten =
      transactions.catalogue (deliveredAll growth (.empty 0)) := by
  have empty : ∀ key, transactions.owns key = true →
      ((Node.empty 0).store "disk").raw? key = none := by
    intro key _
    simp [Node.store, Node.disk, Node.empty, Disk.empty, Store.empty, Store.raw?]
  have room : (transactions.catalogue (deliveredAll growth (.empty 0))).length < UInt64.size := by
    rw [length_growth]
    decide
  have slices := transactions.slices_run "disk" (.empty 0) empty growth room
  refine ⟨⟨empty, room⟩, (slices.succeeds 1 1024).mpr ?_, ?_⟩
  · rw [length_growth]
    decide
  · obtain ⟨-, whole, refused⟩ := slices.paged [2, 7, 1, 1] (by simp)
    exact whole (refused (by rw [length_growth]; decide))

end Filing

end DecisionLedger
