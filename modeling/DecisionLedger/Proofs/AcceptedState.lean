import DecisionLedger.Proofs.Session

/-! # The accepted state

The state in a store is a replay of the units that the store has accepted.  Those are read from the
store itself, height by height.
-/

namespace DecisionLedger

namespace Store

/-- The accepted unit of a height, if the store has one that can be read. -/
def acceptedAt? (store : Store) (height : Height) : Option DecisionUnit :=
  match store.unitAtHeight? height with
  | .ok (some id) =>
    match store.unit? id with
    | .ok found => found
    | .error _ => none
  | _ => none

/-- The accepted units of all heights up to the last, if none is missing. -/
def acceptedUpTo? (store : Store) (last : Height) : Option (List DecisionUnit) :=
  (List.range (last.toNat + 1)).mapM fun height => store.acceptedAt? (.ofNat height)

variable {store : Store} {units : List DecisionUnit}

theorem Lists.acceptedAt?_eq (lists : store.Lists units) (chronicle : Chronicle units)
    (height : Height) : store.acceptedAt? height = units[height.toNat]? := by
  rw [acceptedAt?, lists.unitAtHeight?]
  cases found : units[height.toNat]? with
  | none => rfl
  | some unit =>
      dsimp only [Option.map_some]
      rw [lists.unit?_of_mem chronicle (List.mem_of_getElem? found)]

theorem mapM_range_eq {α : Type} (read : Nat → Option α) (values : List α)
    (reads : ∀ position, position < values.length → read position = values[position]?) :
    (List.range values.length).mapM read = some values := by
  induction values using List.reverseRecOn with
  | nil => rfl
  | append_singleton front last ih =>
      have earlier : (List.range front.length).mapM read = some front := by
        apply ih
        intro position below
        rw [reads position (by simp; omega), List.getElem?_append_left below]
      have final : read front.length = some last := by
        rw [reads front.length (by simp)]
        simp
      rw [List.length_append, List.length_singleton, List.range_succ, List.mapM_append, earlier]
      simp [final]

theorem Records.acceptedUpTo?_eq (records : store.Records units) (chronicle : Chronicle units)
    {tip : DecisionUnit} (last : units.getLast? = some tip) :
    store.acceptedUpTo? tip.height = some units := by
  have length := chronicle.height_getLast last
  have bound := tip.height.toNat_lt
  rw [acceptedUpTo?, length]
  apply mapM_range_eq
  intro position below
  have word : (UInt64.ofNat position).toNat = position := by
    rw [UInt64.toNat_ofNat']
    exact Nat.mod_eq_of_lt (by omega)
  rw [records.acceptedAt?_eq chronicle, word]

end Store

/-- After any calls, the accepted units can be replayed from the first state, each input there when
it is taken, and the state in the store is what the replay gives. -/
theorem Start.replay_run {ω : Type} {host : LawfulHost ω} {config : Configuration}
    {origin : StateUpdates} (start : Start host config origin) (steps : List (Step host)) :
    let (manager, world) := start.run steps
    ∃ units state, (host.store world).acceptedUpTo? manager.lastAccepted.height = some units ∧
      replay origin units = some state ∧
      ∀ key, (host.store world).state? key = state[key]? := by
  obtain ⟨accepted, sound⟩ := start.sound_run steps
  obtain ⟨state, replayed, reads⟩ := sound.state
  have listed := sound.records.acceptedUpTo?_eq sound.chronicle sound.rooted.last
  exact ⟨accepted, state, listed, replayed, reads⟩

end DecisionLedger
