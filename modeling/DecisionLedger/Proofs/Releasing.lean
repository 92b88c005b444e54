import DecisionLedger.Proofs.Displacement

/-! # Inputs given up

What a unit consumed is free as soon as the operation that decided the unit returns.  A rejection
that succeeds takes out a unit with its branch; an acceptance that is written takes out what it
accepts and whatever it leaves behind.  Nothing becomes pending meanwhile, so nobody can have
claimed the inputs again.
-/

namespace DecisionLedger

/-- A unit is not pending after an operation, and what it consumed before is free. -/
structure Relinquishes (before after : Manager) (id : UnitId) : Prop where
  gone : id ∉ after.pending
  free : ∀ {pending : PendingUnit}, before.pending[id]? = some pending →
    ∀ key ∈ pending.consumed, after.consumedBy[key]? = none

/-- Which inputs are claimed in a situation, and which are free after a step. -/
structure Claims {ω : Type} (host : LawfulHost ω) (situation : Manager × ω) : Prop where
  /-- An input is claimed by exactly the pending unit whose execution consumes it. -/
  claimed : ∀ {key : StateKey} {id : UnitId}, situation.1.consumedBy[key]? = some id ↔
    ∃ pending, situation.1.pending[id]? = some pending ∧ key ∈ pending.consumed
  /-- What an execution consumes are the inputs of the unit's transactions, those of the effect if
  the unit is a proposal. -/
  inputs : ∀ {id : UnitId} {pending : PendingUnit}, situation.1.pending[id]? = some pending →
    ∀ key, key ∈ pending.consumed ↔
      ∃ transaction ∈ pending.unit.body.payload, key ∈ transaction.inputs
  exclusive : ∀ {id other : UnitId} {pending further : PendingUnit},
    situation.1.pending[id]? = some pending → situation.1.pending[other]? = some further →
    id ≠ other → pending.consumed.Disjoint further.consumed
  /-- What a unit consumed is free as soon as it is no longer pending. -/
  freed : ∀ (step : Step host) {id : UnitId} {pending : PendingUnit},
    situation.1.pending[id]? = some pending → id ∉ (step.perform situation).1.pending →
    ∀ key ∈ pending.consumed, (step.perform situation).1.consumedBy[key]? = none
  /-- A rejection that succeeds takes out the unit and all that depends on it. -/
  rejected : ∀ {id : UnitId}, (Call.reject id).answer host situation = .ok () →
    ∀ other, other = id ∨ situation.1.Depends {id} other →
      Relinquishes situation.1 (((Call.reject id).step host).perform situation).1 other
  /-- An acceptance that is written takes out the units that it accepts, an option with its
  proposal, and their rivals with all that depends on these. -/
  accepted : ∀ {id : UnitId}, Manager.Committed ((Call.accept id).answer host situation) →
    ∃ units rivals, situation.1.Advance id units rivals ∧
      ∀ other, (∃ unit ∈ units, unit.id = other) ∨ situation.1.Depends rivals other →
        Relinquishes situation.1 (((Call.accept id).step host).perform situation).1 other

namespace Manager

/-- Whatever a rejection that succeeds is asked to take out, is not pending afterwards. -/
theorem Linked.not_pending_of_reject {manager after : Manager} {accepted : List DecisionUnit}
    (linked : manager.Linked accepted) {id other : UnitId} {events : List Event}
    (done : manager.reject id = .ok (after, events))
    (goes : other = id ∨ manager.Depends {id} other) : other ∉ after.pending := by
  by_cases present : id ∈ manager.pending
  · -- a pending unit is not remembered as rejected, so its branch is discarded
    obtain ⟨unit, holds, rfl⟩ := linked.mem_pending_iff.mp present
    have sheds := linked.sheds_discard false (linked.ne_of_holds holds)
    have depends : manager.Depends {unit.id} other := by
      rcases goes with rfl | depends
      · exact .root (Set.mem_singleton _) present
      · exact depends
    rcases reject_cases done with ⟨found, known, -⟩ | rfl
    · have remembered : unit.id ∈ manager.rejected :=
        Std.ExtTreeMap.mem_iff_isSome_getElem?.mpr (known ▸ rfl)
      exact absurd present (linked.rejected remembered)
    · exact sheds.left depends
  · have alone : other = id := by
      refine goes.resolve_right fun depends => ?_
      have rootless : manager.Depends ∅ other := depends.of_roots fun root inside pending =>
        absurd (Set.mem_singleton_iff.mp inside ▸ pending) present
      obtain ⟨root, inside⟩ := rootless.exists_root
      exact Set.notMem_empty root inside
    subst alone
    rcases reject_cases done with ⟨found, -, rfl⟩ | rfl
    · exact present
    · exact fun stays => present ((mem_pending_discard false manager _).mp stays).1

end Manager

/-- Whoever is not pending after a step relinquishes what it consumed before. -/
theorem Step.relinquishes {ω : Type} {host : LawfulHost ω} {origin : StateUpdates}
    {accepted : List DecisionUnit} (step : Step host) {situation : Manager × ω}
    (sound : situation.1.Sound origin (host.store situation.2) accepted)
    (claimed : situation.1.Claimed) {id : UnitId}
    (gone : id ∉ (step.perform situation).1.pending) :
    Relinquishes situation.1 (step.perform situation).1 id := by
  obtain ⟨further, turn, next⟩ := step.turn_perform situation sound
  refine ⟨gone, fun found key consumes => ?_⟩
  exact claimed.free_of_leaves (claimed.turn sound turn) next.rooted.toLinked turn found gone
    consumes

/-- After any calls, inputs are claimed by the pending units that consume them and by no other, and
whoever a call decides gives its inputs up with that call. -/
theorem Tenure.claims_run {ω : Type} {host : LawfulHost ω} {config : Configuration}
    {origin : StateUpdates} (tenure : Tenure host config origin) (steps : List (Step host)) :
    Claims host (tenure.run steps) := by
  obtain ⟨accepted, sound, byId, recent⟩ := tenure.recalls_run steps
  have claimed := tenure.claimed_run steps
  generalize tenure.run steps = situation at *
  have linked := sound.rooted.toLinked
  refine { claimed := claimed.claimed, inputs := fun found key => ?_,
           exclusive := fun found known apart => ?_, freed := ?_, rejected := ?_, accepted := ?_ }
  · obtain ⟨unit, -, -, rfl⟩ := linked.exists_of_getElem? found
    exact unit.mem_consumed_held
  · exact fun key consumes claims => apart (claimed.eq_of_consumed found known consumes claims)
  · exact fun step _ _ found gone => (step.relinquishes sound claimed gone).free found
  · intro id answered other goes
    refine ((Call.reject id).step host).relinquishes sound claimed ?_
    dsimp only [Call.answer] at answered
    dsimp only [Call.step, Step.perform]
    cases done : situation.1.reject id with
    | error error =>
        rw [done] at answered
        cases answered
    | ok result => exact linked.not_pending_of_reject done goes
  · intro id committed
    obtain ⟨units, rivals, advance, displaces⟩ := sound.displaces_accept byId recent claimed
      (Manager.accept_cases host _ id _) committed
    refine ⟨units, rivals, advance, fun other goes => ?_⟩
    refine ((Call.accept id).step host).relinquishes sound claimed fun stays => ?_
    obtain ⟨-, apart, independent⟩ := displaces.pending.mp stays
    rcases goes with ⟨unit, inside, same⟩ | depends
    · exact apart unit inside same
    · exact independent depends

end DecisionLedger
