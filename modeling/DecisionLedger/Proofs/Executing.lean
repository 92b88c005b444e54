import DecisionLedger.Proofs.Descent
import DecisionLedger.Proofs.Lineage
import DecisionLedger.Proofs.Recording

/-! # What executing a transaction comes to

A transaction is checked input by input on the diff as it stands, and recorded only if every input
passes.  An input is refused for being consumed already, which a key can be although it can be read:
whoever creates a consumed key again does not make it available again.
-/

namespace DecisionLedger

namespace Diff

/-- A key is consumed by a diff or by a layer below it. -/
def Spent (diff : Diff) (below : List Diff) (key : StateKey) : Prop :=
  ∃ layer ∈ diff :: below, key ∈ layer.consumed

/-- What is wrong with an input of a transaction on a diff. -/
@[mk_iff]
inductive Faulty (diff : Diff) (versions : Versions) (below : List Diff) (key : StateKey) :
    DiffError → Prop where
  | spent : diff.Spent below key → Faulty diff versions below key (.doubleSpend key)
  | unreadable : ¬diff.Spent below key → diff.get versions key = .ok none →
      Faulty diff versions below key (.inputNotFound key)

/-- What may fail, and change a diff in place. -/
abbrev Act := ExceptT DiffError (StateM Diff)

/-- Check one input of a transaction on the diff as it is by then. -/
def checkInPlace (versions : Versions) (key : StateKey) : Act Unit := do
  let diff ← MonadState.get
  ExceptT.mk (pure (checkInput ((versions.view diff.parent).under diff) key))

/-- Execute a transaction by changing a diff bit by bit: look at it once for each input, and then
write to it once for each input, output and set of requests. -/
def executeInPlace (versions : Versions) (transaction : Transaction) : Act Unit := do
  transaction.inputs.forM (checkInPlace versions)
  transaction.inputs.forM fun key => modify fun diff => (diff.consume key).delete key
  transaction.outputs.forM fun (key, value) => modify fun diff => diff.put key value
  transaction.requests.forM fun (chain, requests) => modify fun diff => diff.request chain requests

section InPlace

variable {α β : Type}

theorem run_bind (first : Act α) (next : α → Act β) (diff : Diff) :
    (first >>= next).run diff =
      match first.run diff with
      | (.ok value, after) => (next value).run after
      | (.error problem, after) => (.error problem, after) := by
  have unfolded : (first >>= next).run diff =
      match first.run diff with
      | (outcome, after) => (ExceptT.bindCont next outcome).run after := rfl
  rw [unfolded]
  rcases first.run diff with ⟨problem | value, after⟩ <;> rfl

theorem run_checkInPlace (versions : Versions) (key : StateKey) (diff : Diff) :
    (checkInPlace versions key).run diff =
      (checkInput ((versions.view diff.parent).under diff) key, diff) := rfl

theorem run_checkAll (versions : Versions) (keys : List StateKey) (diff : Diff) :
    (keys.forM (checkInPlace versions)).run diff =
      (keys.forM (checkInput ((versions.view diff.parent).under diff)), diff) := by
  induction keys with
  | nil => rfl
  | cons key rest ih =>
      have checks : (key :: rest).forM (checkInput ((versions.view diff.parent).under diff)) =
          (checkInput ((versions.view diff.parent).under diff) key >>= fun _ =>
            rest.forM (checkInput ((versions.view diff.parent).under diff))) := rfl
      refine (run_bind _ _ diff).trans ?_
      rw [run_checkInPlace, checks]
      cases checkInput ((versions.view diff.parent).under diff) key with
      | error problem => rfl
      | ok done => exact ih

theorem run_modifyAll (values : List α) (change : Diff → α → Diff) (diff : Diff) :
    (values.forM (fun value => modify (change · value)) : Act Unit).run diff =
      (.ok (), values.foldl change diff) := by
  induction values generalizing diff with
  | nil => rfl
  | cons value rest ih => exact ih (change diff value)

theorem run_executeInPlace (versions : Versions) (transaction : Transaction) (diff : Diff) :
    (executeInPlace versions transaction).run diff =
      match diff.execute versions transaction with
      | .ok after => (.ok (), after)
      | .error problem => (.error problem, diff) := by
  rw [executeInPlace, run_bind, run_checkAll, execute, executeOn]
  cases transaction.inputs.forM (checkInput ((versions.view diff.parent).under diff)) with
  | error problem => rfl
  | ok done =>
      dsimp only
      rw [run_bind, run_modifyAll]
      dsimp only
      rw [run_bind, run_modifyAll]
      dsimp only
      rw [run_modifyAll]
      rfl

end InPlace

section Faults

variable {versions : Versions} {diff : Diff} {below : List Diff} {key : StateKey}
  {problem : DiffError} {transaction : Transaction}

theorem spent_iff : diff.Spent below key ↔ (diff :: below).any (·.consumes key) = true := by
  simp [Spent, consumes]

variable (reaches : Versions.Reaches versions.layers versions.accepted diff.parent below)
include reaches

theorem consumes_of_reaches :
    ((versions.view diff.parent).under diff).consumes key =
      .ok ((diff :: below).any (·.consumes key)) := by
  rw [View.consumes_under, reaches.consumes_eq]
  cases taken : diff.consumes key <;> simp [taken]

/-- Whether a key is spent is asked before whether it is there. -/
theorem checkInput_eq {found : Option StateValue} (read : diff.get versions key = .ok found) :
    checkInput ((versions.view diff.parent).under diff) key =
      if (diff :: below).any (·.consumes key) then .error (.doubleSpend key)
      else found.elim (.error (.inputNotFound key)) fun _ => .ok () := by
  rw [get] at read
  rw [checkInput, consumes_of_reaches reaches, read]
  cases (diff :: below).any (·.consumes key) with
  | true => rfl
  | false => cases found <;> rfl

theorem checkInput_eq_error_iff :
    checkInput ((versions.view diff.parent).under diff) key = .error problem ↔
      diff.Faulty versions below key problem := by
  have read := reaches.get_eq key
  generalize ((diff :: below).findSome? (·.local? key)).getD (versions.state? key) = found at read
  rw [checkInput_eq reaches read, faulty_iff, spent_iff, read]
  cases (diff :: below).any (·.consumes key) with
  | true => simp [eq_comm]
  | false => cases found <;> simp [eq_comm]

theorem checkInput_eq_ok_iff_not_faulty :
    checkInput ((versions.view diff.parent).under diff) key = .ok () ↔
      ∀ problem, ¬diff.Faulty versions below key problem := by
  simp only [← checkInput_eq_error_iff reaches]
  cases checkInput ((versions.view diff.parent).under diff) key <;> simp

theorem execute_eq_error_iff :
    diff.execute versions transaction = .error problem ↔
      ∃ before key after, transaction.inputs = before ++ key :: after ∧
        (∀ earlier ∈ before, ∀ fault, ¬diff.Faulty versions below earlier fault) ∧
        diff.Faulty versions below key problem := by
  have recorded : (pure (diff.record transaction) : Except DiffError Diff) ≠ .error problem := nofun
  simp only [execute, executeOn, bind_eq_error_iff, forM_eq_error_iff, recorded, and_false,
    exists_false, or_false, checkInput_eq_error_iff reaches,
    checkInput_eq_ok_iff_not_faulty reaches]

theorem execute_eq_ok_iff {after : Diff} :
    diff.execute versions transaction = .ok after ↔
      (∀ key ∈ transaction.inputs, ∀ fault, ¬diff.Faulty versions below key fault) ∧
        after = diff.record transaction := by
  simp only [execute, executeOn_eq_ok_iff, checkInput_eq_ok_iff_not_faulty reaches]

end Faults

/-- How a diff comes after another by a transaction that is executed on it. -/
structure Recorded (versions : Versions) (transaction : Transaction) (before after : Diff) :
    Prop where
  /-- The last output of a key is read; without one an input is absent, and all else is read as it
  was before. -/
  reads : ∀ key, after.get versions key =
    match lastValue? transaction.outputs key with
    | some value => .ok (some value)
    | none => if key ∈ transaction.inputs then .ok none else before.get versions key
  consumed : ∀ key, key ∈ after.consumed ↔ key ∈ before.consumed ∨ key ∈ transaction.inputs
  /-- The requests to a chain follow those made to it before. -/
  requests : ∀ chain, after.requests.getD chain ∅ =
    before.requests.getD chain ∅ ++ AtomicRequests.gather chain transaction.requests
  addressed : ∀ chain, chain ∈ after.requests ↔
    chain ∈ before.requests ∨ chain ∈ transaction.requests.map (·.1)
  parent : after.parent = before.parent
  timestamp : after.timestamp = before.timestamp

theorem recorded_record (versions : Versions) (transaction : Transaction) (diff : Diff) :
    Recorded versions transaction diff (diff.record transaction) where
  reads := by
    intro key
    rw [get, get, parent_record, View.read_under, View.read_under, local?_record]
    cases lastValue? transaction.outputs key with
    | some value => rfl
    | none => by_cases inside : key ∈ transaction.inputs <;> simp [inside]
  consumed _ := mem_consumed_record
  requests := getD_requests_record diff transaction
  addressed _ := mem_requests_record
  parent := parent_record diff transaction
  timestamp := by rw [record_eq]

/-- What executing a transaction comes to on a diff that lies on the layers `below`. -/
structure Executing (versions : Versions) (below : List Diff) (diff : Diff)
    (transaction : Transaction) : Prop where
  /-- It fails for the first faulty input, and for what is wrong with that. -/
  fails : ∀ {problem}, diff.execute versions transaction = .error problem ↔
    ∃ before key after, transaction.inputs = before ++ key :: after ∧
      (∀ earlier ∈ before, ∀ fault, ¬diff.Faulty versions below earlier fault) ∧
      diff.Faulty versions below key problem
  succeeds : (∃ after, diff.execute versions transaction = .ok after) ↔
    ∀ key ∈ transaction.inputs, ∀ fault, ¬diff.Faulty versions below key fault
  /-- Whoever executes it in place has the same diff in hand after a failure. -/
  unchanged : ∀ {problem}, diff.execute versions transaction = .error problem →
    (executeInPlace versions transaction).run diff = (.error problem, diff)
  changed : ∀ {after}, diff.execute versions transaction = .ok after →
    (executeInPlace versions transaction).run diff = (.ok (), after) ∧
      Recorded versions transaction diff after

/-- Wherever parents lead to the accepted state, a transaction is recorded, or refused for its first
faulty input and not recorded at all. -/
theorem executing_of_reaches (versions : Versions) (diff : Diff) (transaction : Transaction)
    {below : List Diff}
    (reaches : Versions.Reaches versions.layers versions.accepted diff.parent below) :
    diff.Executing versions below transaction where
  fails := execute_eq_error_iff reaches
  succeeds := by simp only [execute_eq_ok_iff reaches, exists_and_left, exists_eq, and_true]
  unchanged := by
    intro problem failed
    rw [run_executeInPlace, failed]
  changed := by
    intro after executed
    obtain ⟨-, rfl⟩ := (execute_eq_ok_iff reaches).mp executed
    exact ⟨by rw [run_executeInPlace, executed], recorded_record versions transaction diff⟩

end Diff

namespace Recreation

/-- A layer on the accepted state in which a key is consumed. -/
def layer : Diff :=
  (Diff.empty (.filled 0) none).record { inputs := [[1]], outputs := [], requests := [] }

/-- A diff on that layer in which the key is created again. -/
def diff : Diff :=
  (Diff.empty (.filled 1) none).put [1] [9]

def versions : Versions where
  layers := (∅ : Std.ExtTreeMap UnitId Diff).insert (.filled 1) layer
  accepted := .filled 0
  state? _ := none

def taking : Transaction where
  inputs := [[1]]
  outputs := []
  requests := []

/-- The key can be read again, but not consumed again. -/
theorem taking_refused :
    Versions.Reaches versions.layers versions.accepted diff.parent [layer] ∧
      diff.get versions [1] = .ok (some [9]) ∧
      diff.execute versions taking = .error (.doubleSpend [1]) := by
  have apart : Digest.filled 1 ≠ Digest.filled 0 := by decide
  have reaches : Versions.Reaches versions.layers versions.accepted diff.parent [layer] :=
    .layer (by simp [versions, diff, Diff.empty, Diff.put])
      (.accepted (by simp [versions, apart]))
  have spent : diff.Spent [layer] [1] :=
    ⟨layer, by simp, Diff.mem_consumed_record.mpr (.inr (by simp))⟩
  refine ⟨reaches, ?_, ?_⟩
  · rw [Diff.get, View.read_under, diff, Diff.local?_put, if_pos rfl]
  · exact (Diff.executing_of_reaches versions diff taking reaches).fails.mpr
      ⟨[], [1], [], rfl, fun _ inside => absurd inside List.not_mem_nil, .spent spent⟩

end Recreation

end DecisionLedger
