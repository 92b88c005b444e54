import DecisionLedger.Proofs.Preservation

/-! # Founding and resuming

Founding a store writes a chronicle of genesis alone and the first state.  A manager that resumes
on a store takes the last unit of the chronicle that the store records, and has nothing pending.
-/

namespace DecisionLedger

namespace Store

theorem lists_empty : Store.empty.Lists [] where
  unit? id := by
    have absent : Store.empty.raw? (.unit id) = none := Std.ExtTreeMap.getElem?_empty
    rw [Store.unit?, absent]
    rfl
  unitAtHeight? height := by
    have absent : Store.empty.raw? (.unitAtHeight height) = none := Std.ExtTreeMap.getElem?_empty
    rw [Store.unitAtHeight?, value?, absent]
    rfl

theorem found_eq (origin : StateUpdates) :
    Batch.found origin = [DecisionUnit.genesis].flatMap Batch.place ++
      (Batch.setLastAccepted DecisionUnit.genesis.id ++ Batch.updateState origin) := by
  simp [Batch.found, Batch.place]

theorem records_found (origin : StateUpdates) :
    (Store.empty.apply (Batch.found origin)).Records [.genesis] := by
  rw [found_eq, apply_append]
  exact (lists_empty.placeAll Chronicle.start).finish rfl
    (fun change inside => .inl (tag_of_mem_updateState inside))

theorem state?_found (origin : StateUpdates) (key : StateKey) :
    (Store.empty.apply (Batch.found origin)).state? key = (FlatState.first origin)[key]? := by
  have absent : Store.empty.state? key = none := Std.ExtTreeMap.getElem?_empty
  rw [found_eq, ← List.append_assoc, apply_append, state?_updateState, state?_place, absent,
    FlatState.first, Std.ExtTreeMap.getElem?_filter', UpdateSet.inserted?]
  by_cases deleted : origin.isDeleted key = true
  · cases origin.inserts[key]? <;> simp [deleted]
  · cases origin.inserts[key]? <;> simp [deleted, Option.filter]

theorem Records.lastUnit_eq {store : Store} {units : List DecisionUnit} {tip : DecisionUnit}
    (records : store.Records units) (chronicle : Chronicle units)
    (last : units.getLast? = some tip) : store.isFounded = true ∧ store.lastUnit = .ok tip := by
  obtain ⟨other, same, stored⟩ := records.lastAccepted
  rw [last] at same
  cases same
  constructor
  · by_contra missing
    have absent : store.raw? .lastAccepted = none := by
      rw [isFounded, has, Bool.not_eq_true] at missing
      rw [raw?, Std.ExtTreeMap.getElem?_eq_none_of_contains_eq_false missing]
    rw [Store.lastAccepted, value?, absent] at stored
    cases stored
  · rw [lastUnit, stored]
    dsimp only
    rw [records.unit?, chronicle.find?_id (List.mem_of_getLast? last)]

end Store

namespace Manager

/-- A manager with nothing pending on a last accepted unit. -/
def initial (config : Configuration) (unit : DecisionUnit) : Manager where
  config
  pending := ∅
  children := (∅ : Links).insert unit.id []
  referencedBy := ∅
  consumedBy := ∅
  rejected := ∅
  recent := [unit]
  lastAccepted := unit
  halted := none

variable {config : Configuration} {store : Store} {accepted : List DecisionUnit}
  {tip : DecisionUnit}

theorem resume_eq (records : store.Records accepted) (chronicle : Chronicle accepted)
    (last : accepted.getLast? = some tip) : resume config store = .ok (initial config tip) := by
  obtain ⟨founded, stored⟩ := records.lastUnit_eq chronicle last
  rw [resume, if_pos founded, stored]
  rfl

theorem not_holds_initial (unit : DecisionUnit) : ¬(initial config tip).Holds unit := by
  intro holds
  exact absurd holds.mem Std.ExtTreeMap.not_mem_empty

theorem children_initial (above : UnitId) : (initial config tip).children.of above = [] := by
  have inserted : (initial config tip).children.of above =
      if tip.id = above then [] else Links.of ∅ above :=
    Links.of_insert ∅ tip.id above []
  rw [inserted]
  split
  · rfl
  · simp [Links.of]

theorem rooted_initial (last : accepted.getLast? = some tip) :
    (initial config tip).Rooted accepted where
  keyed := by
    intro id pending found
    simp [initial] at found
  parent holds := absurd holds (not_holds_initial _)
  edges holds := absurd holds (not_holds_initial _)
  children := by
    intro above child listed
    rw [children_initial] at listed
    exact absurd listed List.not_mem_nil
  listed holds := absurd holds (not_holds_initial _)
  references := by
    intro edge vertex listed
    simp [initial, Links.of] at listed
  referenced holds := absurd holds (not_holds_initial _)
  options holds := absurd holds (not_holds_initial _)
  settled _ := ⟨Std.ExtTreeMap.not_mem_empty, Std.ExtTreeMap.not_mem_empty⟩
  rejected gone := absurd gone Std.ExtTreeMap.not_mem_empty
  last := last
  rooted holds := absurd holds (not_holds_initial _)
  recent := by
    intro unit remembered
    cases List.mem_singleton.mp remembered
    exact List.mem_of_getLast? last

theorem sound_found (config : Configuration) (origin : StateUpdates)
    (founded : (Store.empty.apply (Batch.found origin)).SameLedger store) :
    (initial config .genesis).Sound origin store [.genesis] where
  rooted := rooted_initial rfl
  chronicle := Chronicle.start
  records := (Store.records_found origin).of_sameLedger founded
  undecided := by
    intro kind
    cases kind
  state := by
    refine ⟨_, replay_genesis origin, fun key => ?_⟩
    exact (founded (.state key) rfl).trans (Store.state?_found origin key)
  executable holds := absurd holds (not_holds_initial _)

end Manager

end DecisionLedger
