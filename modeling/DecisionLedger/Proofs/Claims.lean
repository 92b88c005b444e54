import DecisionLedger.Proofs.Recording
import DecisionLedger.Proofs.Tenure

/-! # Claimed inputs

A pending unit claims the inputs that it consumes, so no two pending units consume the same one.
Claims are made when a unit is held, and given up wherever a unit leaves the pending ones.
-/

namespace DecisionLedger

namespace Diff

theorem mem_consumed_recordAll {transactions : List Transaction} {diff : Diff} {key : StateKey} :
    key ∈ (transactions.foldl record diff).consumed ↔
      key ∈ diff.consumed ∨ ∃ transaction ∈ transactions, key ∈ transaction.inputs := by
  induction transactions generalizing diff with
  | nil => simp
  | cons transaction rest ih =>
      rw [List.foldl_cons, ih, mem_consumed_record, or_assoc]
      simp

end Diff

theorem DecisionUnit.mem_consumed_held {unit : DecisionUnit} {key : StateKey} :
    key ∈ unit.held.consumed ↔ ∃ transaction ∈ unit.body.payload, key ∈ transaction.inputs := by
  have recorded : key ∈ unit.effect.consumed ↔
      ∃ transaction ∈ unit.body.payload, key ∈ transaction.inputs := by
    rw [effect, Diff.mem_consumed_recordAll]
    simp [Diff.empty]
  rw [PendingUnit.consumed, held_execution]
  cases body : unit.body with
  | standard | vertex | proposal =>
      simp only [execution, body, Std.ExtTreeSet.mem_toList]
      rw [recorded, body]
  | commit | abort => simp [execution, body, Body.payload]

namespace Manager

section Keys

variable (claims : Std.ExtTreeMap StateKey UnitId) (keys : List StateKey) (id : UnitId)
  (key : StateKey)

theorem getElem?_claimEach :
    (keys.foldl (fun claims key => claims.insert key id) claims)[key]? =
      if key ∈ keys then some id else claims[key]? := by
  refine foldl_keys (fun claims : Std.ExtTreeMap StateKey UnitId => claims[key]?) (some id)
    (fun claims other => ?_) keys claims
  simp [Std.ExtTreeMap.getElem?_insert]

/-- Whoever gives up keys gives up those that it holds. -/
theorem getElem?_releaseEach :
    (keys.foldl (fun claims key => if claims[key]? = some id then claims.erase key else claims)
      claims)[key]? =
      if key ∈ keys ∧ claims[key]? = some id then none else claims[key]? := by
  induction keys generalizing claims with
  | nil => simp
  | cons first rest ih =>
      rw [List.foldl_cons, ih]
      by_cases held : claims[first]? = some id
      · rw [if_pos held, Std.ExtTreeMap.getElem?_erase]
        by_cases here : first = key
        · subst here
          simp [held]
        · simp [here, Ne.symm here]
      · rw [if_neg held]
        by_cases here : first = key
        · subst here
          simp [held]
        · simp [Ne.symm here]

end Keys

/-- Every pending unit is kept under its ID, and claims exactly what it consumes. -/
structure Claimed (manager : Manager) : Prop where
  keyed : ∀ {id : UnitId} {pending : PendingUnit}, manager.pending[id]? = some pending →
    pending.unit.id = id
  claimed : ∀ {key : StateKey} {id : UnitId}, manager.consumedBy[key]? = some id ↔
    ∃ pending, manager.pending[id]? = some pending ∧ key ∈ pending.consumed

section Claimed

variable {manager after : Manager} {store : Store} {id other : UnitId} {key : StateKey}
  {pending further : PendingUnit}

theorem Claimed.eq_of_consumed (claimed : manager.Claimed)
    (found : manager.pending[id]? = some pending) (known : manager.pending[other]? = some further)
    (consumes : key ∈ pending.consumed) (claims : key ∈ further.consumed) : id = other := by
  have first := claimed.claimed.mpr ⟨pending, found, consumes⟩
  have second := claimed.claimed.mpr ⟨further, known, claims⟩
  rw [first] at second
  exact Option.some.inj second

theorem Claimed.leave (claimed : manager.Claimed) (found : manager.pending[id]? = some pending)
    (left : after.pending = manager.pending.erase id)
    (released : after.consumedBy = (manager.release pending).consumedBy) : after.Claimed := by
  have own := claimed.keyed found
  constructor
  · intro other further known
    rw [left, Std.ExtTreeMap.getElem?_erase] at known
    split at known
    · cases known
    · exact claimed.keyed known
  · intro key other
    have given : after.consumedBy[key]? =
        if key ∈ pending.consumed ∧ manager.consumedBy[key]? = some id then none
        else manager.consumedBy[key]? := by
      rw [released, ← own]
      exact getElem?_releaseEach manager.consumedBy pending.consumed pending.unit.id key
    rw [given, left, Std.ExtTreeMap.getElem?_erase]
    by_cases same : id = other
    · subst same
      constructor
      · intro holder
        split at holder
        · cases holder
        · rename_i kept
          obtain ⟨again, here, consumes⟩ := claimed.claimed.mp holder
          rw [found] at here
          cases here
          exact absurd ⟨consumes, holder⟩ kept
      · rintro ⟨_, gone, -⟩
        simp at gone
    · have apart : ¬compare id other = .eq := by simpa using same
      rw [if_neg apart, ← claimed.claimed]
      constructor
      · intro holder
        split at holder
        · cases holder
        · exact holder
      · intro holder
        rw [if_neg, holder]
        rintro ⟨-, mine⟩
        rw [holder] at mine
        exact same (Option.some.inj mine).symm

theorem Claimed.discardUnit (claimed : manager.Claimed) (root : UnitId) (automatic : Bool)
    (unit : UnitId) : (Manager.discardUnit root automatic manager unit).1.Claimed := by
  unfold Manager.discardUnit
  split
  · exact claimed
  · rename_i pending found
    exact claimed.leave found rfl rfl

theorem Claimed.discard (claimed : manager.Claimed) (automatic : Bool) (root : UnitId) :
    (Manager.discard automatic manager root).1.Claimed :=
  sequence_induction Claimed (fun unit _ _ before => before.discardUnit root automatic unit) claimed

theorem Claimed.settleUnit (claimed : manager.Claimed) {unit : DecisionUnit}
    (holds : manager.Holds unit) : (manager.settleUnit unit.held).1.Claimed := by
  have departed : (manager.depart unit.held).Claimed := claimed.leave holds rfl rfl
  have alone : ((manager.depart unit.held).sequence (Manager.discard true)
      (manager.siblings unit.id)).1.Claimed :=
    sequence_induction Claimed (fun root _ _ before => before.discard true root) departed
  rw [settleUnit_eq]
  exact ⟨alone.keyed, alone.claimed⟩

theorem getElem?_consumedBy_hold {unit : DecisionUnit} : (manager.hold unit.held).consumedBy[key]? =
    if key ∈ unit.held.consumed then some unit.id else manager.consumedBy[key]? :=
  getElem?_claimEach manager.consumedBy unit.held.consumed unit.id key

theorem Claimed.hold (claimed : manager.Claimed) {parent unit : DecisionUnit}
    (unknown : manager.Unknown store unit.id) (admits : manager.Admits store parent unit) :
    (manager.hold unit.held).Claimed := by
  have absent : manager.pending[unit.id]? = none :=
    Std.ExtTreeMap.getElem?_eq_none unknown.notPending
  constructor
  · intro other further known
    rw [getElem?_pending_hold] at known
    split at known
    · rename_i same
      cases known
      exact same
    · exact claimed.keyed known
  · intro key other
    have free : key ∈ unit.held.consumed → manager.consumedBy[key]? = none := by
      intro consumes
      have unclaimed := List.find?_eq_none.mp admits.unclaimed key consumes
      rw [Std.ExtTreeMap.contains_iff_mem] at unclaimed
      exact Std.ExtTreeMap.getElem?_eq_none unclaimed
    rw [getElem?_consumedBy_hold, getElem?_pending_hold]
    by_cases consumes : key ∈ unit.held.consumed
    · rw [if_pos consumes]
      constructor
      · intro same
        rw [if_pos (Option.some.inj same)]
        exact ⟨_, rfl, consumes⟩
      · rintro ⟨further, known, claims⟩
        split at known
        · rename_i same
          rw [same]
        · -- the key was free, so nobody else consumes it
          have taken := claimed.claimed.mpr ⟨further, known, claims⟩
          rw [free consumes] at taken
          cases taken
    · rw [if_neg consumes, claimed.claimed]
      by_cases same : unit.id = other
      · subst same
        rw [absent, if_pos rfl]
        constructor
        · rintro ⟨_, missing, -⟩
          cases missing
        · rintro ⟨_, here, claims⟩
          cases here
          exact absurd claims consumes
      · rw [if_neg same]

theorem Claimed.turn {origin : StateUpdates} {accepted further : List DecisionUnit}
    (sound : manager.Sound origin store accepted) (turn : manager.Turn store after further)
    (claimed : manager.Claimed) : after.Claimed := by
  induction turn with
  | rest => exact claimed
  | hold unknown admits => exact claimed.hold unknown admits
  | acknowledge known => exact ⟨claimed.keyed, claimed.claimed⟩
  | discard root => exact claimed.discard false root
  | settle plans =>
      exact sound.rooted.settle_induction (fun manager _ => manager.Claimed)
        (fun root _ before => before.discard true root)
        (fun _ next before => before.settleUnit next.holds) plans claimed
  | halt reason _ ih =>
      unfold Manager.halt
      split
      · exact ih
      · exact ⟨ih.keyed, ih.claimed⟩

theorem claimed_initial (config : Configuration) (tip : DecisionUnit) :
    (initial config tip).Claimed := by
  constructor
  · intro id pending found
    simp [initial] at found
  · intro key id
    simp [initial]

/-- What a unit consumed is free once a turn has taken the unit away. -/
theorem Claimed.free_of_leaves (claimed : manager.Claimed) (kept : after.Claimed)
    {accepted : List DecisionUnit} (linked : after.Linked accepted)
    {further : List DecisionUnit} (turn : manager.Turn store after further)
    (found : manager.pending[id]? = some pending) (gone : id ∉ after.pending)
    (consumes : key ∈ pending.consumed) : after.consumedBy[key]? = none := by
  rcases turn.grows_or_shrinks with grows | shrinks
  · exact absurd (grows (Std.ExtTreeMap.mem_iff_isSome_getElem?.mpr (found ▸ rfl))) gone
  · cases holder : after.consumedBy[key]? with
    | none => rfl
    | some other =>
        obtain ⟨still, known, claims⟩ := kept.claimed.mp holder
        obtain ⟨unit, holds, rfl, rfl⟩ := linked.exists_of_getElem? known
        have same := claimed.eq_of_consumed found (shrinks holds) consumes claims
        exact absurd (same ▸ holds.mem) gone

end Claimed

end Manager

end DecisionLedger
