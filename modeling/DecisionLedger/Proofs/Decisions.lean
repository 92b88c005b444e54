import DecisionLedger.Proofs.Atomicity
import DecisionLedger.Proofs.Standing
import DecisionLedger.Proofs.Withdrawal

/-! # What an acceptance comes to

Where a unit stands decides what becomes of the wish to accept it, before anything is written.  A
unit that is not pending, a proposal, and a unit that does not stand on the last accepted one are
refused.  Any other unit is written, in one write, and nothing is refused after that: what was
planned is pending still when it is settled.
-/

namespace DecisionLedger

def Host.writing {ω : Type} (host : Host ω) (write : Batch → ω → Except WriteError ω) : Host ω :=
  { host with write }

theorem Host.deliverAll_writing {ω : Type} (host : Host ω)
    (write : Batch → ω → Except WriteError ω) (chain : ChainId) (units : List DecisionUnit)
    (world : ω) :
    (host.writing write).deliverAll chain units world = host.deliverAll chain units world := by
  induction units generalizing world with
  | nil => rfl
  | cons unit rest ih =>
      have same : (host.writing write).deliver = host.deliver := rfl
      rw [deliverAll, deliverAll, same]
      dsimp only
      rw [ih]

namespace Manager

/-- What has to stand on the last accepted unit if a unit is to be accepted: the unit itself, or the
pending proposal that it decides. -/
inductive Footing (manager : Manager) (id : UnitId) : DecisionUnit → Prop where
  | unit {pending : PendingUnit} : manager.pending[id]? = some pending →
      pending.unit.kind = .standard ∨ pending.unit.kind = .vertex →
      Footing manager id pending.unit
  | option {pending proposal : PendingUnit} : manager.pending[id]? = some pending →
      pending.unit.kind.isOption = true → manager.pending[pending.unit.parent]? = some proposal →
      proposal.unit.kind = .proposal → Footing manager id proposal.unit

/-- A proposal is pending under an identifier. -/
def Proposes (manager : Manager) (id : UnitId) : Prop :=
  ∃ pending, manager.pending[id]? = some pending ∧ pending.unit.kind = .proposal

theorem Proposes.mem {manager : Manager} {id : UnitId} (proposes : manager.Proposes id) :
    id ∈ manager.pending := by
  obtain ⟨pending, found, -⟩ := proposes
  exact mem_pending_of_getElem? found

section Footing

variable {manager : Manager} {id : UnitId} {base other : DecisionUnit}

theorem Footing.mem (footing : manager.Footing id base) : id ∈ manager.pending := by
  cases footing with
  | unit found _ | option found _ _ _ => exact mem_pending_of_getElem? found

theorem Footing.not_proposes (footing : manager.Footing id base) : ¬manager.Proposes id := by
  rintro ⟨pending, found, kind⟩
  cases footing with
  | unit here plain =>
      rw [here, Option.some.injEq] at found
      simp [found, kind] at plain
  | option here option _ _ =>
      rw [here, Option.some.injEq] at found
      simp [found, kind, Kind.isOption] at option

theorem Footing.unique (footing : manager.Footing id base) (again : manager.Footing id other) :
    base = other := by
  cases footing with
  | unit here plain =>
      cases again with
      | unit found _ =>
          rw [here, Option.some.injEq] at found
          rw [found]
      | option found option _ _ =>
          rw [here, Option.some.injEq] at found
          rcases plain with kind | kind <;> simp [← found, kind, Kind.isOption] at option
  | option here option below _ =>
      cases again with
      | unit found plain =>
          rw [here, Option.some.injEq] at found
          rcases plain with kind | kind <;> simp [found, kind, Kind.isOption] at option
      | option found _ again _ =>
          rw [here, Option.some.injEq] at found
          rw [found, again, Option.some.injEq] at below
          rw [below]

end Footing

/-- What comes of planning to accept a unit. -/
inductive Verdict (manager : Manager) (id : UnitId) : Except ManagerError AcceptPlan → Prop where
  | absent : id ∉ manager.pending → Verdict manager id (.error (.notFound id))
  | undecided : manager.Proposes id → Verdict manager id (.error (.acceptsProposal id))
  | early {base : DecisionUnit} : manager.Footing id base →
      base.parent ≠ manager.lastAccepted.id →
      Verdict manager id (.error (.outOfOrder base.id manager.lastAccepted.id))
  | ready {base : DecisionUnit} {plan : AcceptPlan} : manager.Footing id base →
      base.parent = manager.lastAccepted.id → Verdict manager id (.ok plan)

section Verdict

variable {manager : Manager} {id other blamed tip : UnitId}
  {outcome : Except ManagerError AcceptPlan}

theorem Verdict.notFound_iff (verdict : manager.Verdict id outcome) :
    outcome = .error (.notFound other) ↔ other = id ∧ id ∉ manager.pending := by
  cases verdict with
  | absent missing => simp [missing, eq_comm]
  | undecided proposes => simp [proposes.mem]
  | early footing _ => simp [footing.mem]
  | ready footing _ => simp [footing.mem]

theorem Verdict.acceptsProposal_iff (verdict : manager.Verdict id outcome) :
    outcome = .error (.acceptsProposal other) ↔ other = id ∧ manager.Proposes id := by
  cases verdict with
  | absent missing =>
      have nothing : ¬manager.Proposes id := fun proposes => missing proposes.mem
      simp [nothing]
  | undecided proposes => simp [proposes, eq_comm]
  | early footing _ => simp [footing.not_proposes]
  | ready footing _ => simp [footing.not_proposes]

theorem Verdict.outOfOrder_iff (verdict : manager.Verdict id outcome) :
    outcome = .error (.outOfOrder blamed tip) ↔ tip = manager.lastAccepted.id ∧
      ∃ base, manager.Footing id base ∧ base.id = blamed ∧
        base.parent ≠ manager.lastAccepted.id := by
  constructor
  · rintro rfl
    cases verdict with
    | early footing apart => exact ⟨rfl, _, footing, rfl, apart⟩
  · rintro ⟨rfl, base, footing, rfl, apart⟩
    cases verdict with
    | absent missing => exact absurd footing.mem missing
    | undecided proposes => exact absurd proposes footing.not_proposes
    | early again _ => rw [footing.unique again]
    | ready again top => exact absurd (footing.unique again ▸ top) apart

theorem Verdict.exists_plan (verdict : manager.Verdict id outcome) (present : id ∈ manager.pending)
    (decidable : ¬manager.Proposes id)
    (placed : ∀ base, manager.Footing id base → base.parent = manager.lastAccepted.id) :
    ∃ plan, outcome = .ok plan := by
  cases verdict with
  | absent missing => exact absurd present missing
  | undecided proposes => exact absurd proposes decidable
  | early footing apart => exact absurd (placed _ footing) apart
  | @ready _ plan => exact ⟨plan, rfl⟩

end Verdict

section Plan

variable {origin : StateUpdates} {manager : Manager} {store : Store}
  {accepted : List DecisionUnit} {id : UnitId}

theorem Sound.exists_footing (sound : manager.Sound origin store accepted)
    (present : id ∈ manager.pending) (decidable : ¬manager.Proposes id) :
    ∃ base, manager.Footing id base := by
  obtain ⟨unit, holds, rfl⟩ := sound.rooted.mem_pending_iff.mp present
  cases kind : unit.kind with
  | standard => exact ⟨unit, .unit holds (.inl kind)⟩
  | vertex => exact ⟨unit, .unit holds (.inr kind)⟩
  | proposal => exact absurd ⟨unit.held, holds, kind⟩ decidable
  | commit | abort =>
      have option : unit.held.unit.kind.isOption = true := by
        rw [DecisionUnit.held_unit, kind]
        rfl
      obtain ⟨proposal, below, proposed⟩ := sound.standing.options holds option
      exact ⟨proposal.unit, .option holds option below proposed⟩

theorem plan_of_proposes (proposes : manager.Proposes id) (rooted : manager.Rooted accepted) :
    manager.plan store id = .error (.acceptsProposal id) := by
  obtain ⟨pending, found, kind⟩ := proposes
  obtain ⟨unit, -, -, rfl⟩ := rooted.exists_of_getElem? found
  rw [DecisionUnit.held_unit] at kind
  obtain ⟨branches, execution, -⟩ := DecisionUnit.exists_execution_of_proposal kind
  simp only [Manager.plan, found, DecisionUnit.held_execution, execution]

/-- No edge of a plain unit that stands on the last accepted one is in the way, and the parent of an
option is a proposal. -/
theorem Footing.verdict {base : DecisionUnit} (footing : manager.Footing id base)
    (rooted : manager.Rooted accepted) (lists : store.Lists accepted) :
    manager.Verdict id (manager.plan store id) := by
  cases footing with
  | unit found plain =>
      obtain ⟨unit, holds, rfl, rfl⟩ := rooted.exists_of_getElem? found
      have execution : unit.execution = .effect unit.effect :=
        DecisionUnit.execution_eq_effect_iff.mpr ⟨plain, rfl⟩
      by_cases top : unit.parent = manager.lastAccepted.id
      · obtain ⟨plan, planned, -⟩ :=
          rooted.plan_unit lists (rooted.next_of_parent holds top) execution
        rw [planned]
        exact .ready (.unit found plain) top
      · have refused : manager.plan store unit.id =
            .error (.outOfOrder unit.id manager.lastAccepted.id) := by
          simp only [Manager.plan, found, DecisionUnit.held_execution, execution, planUnit,
            DecisionUnit.held_unit, top, decide_false, Bool.false_and, Bool.false_eq_true, if_false]
        rw [refused]
        exact .early (.unit found plain) top
  | option found option below proposed =>
      obtain ⟨unit, holds, rfl, rfl⟩ := rooted.exists_of_getElem? found
      obtain ⟨proposal, held, under, rfl⟩ := rooted.exists_of_getElem? below
      rw [DecisionUnit.held_unit] at option below proposed
      obtain ⟨choice, chosen⟩ := DecisionUnit.exists_choice_of_isOption option
      by_cases top : proposal.parent = manager.lastAccepted.id
      · obtain ⟨plan, planned, -⟩ :=
          (rooted.next_of_parent held top).plan_option proposed ⟨holds, under.symm, chosen⟩
        rw [planned]
        exact .ready (.option found option below proposed) top
      · have execution := DecisionUnit.execution_eq_option_iff.mpr chosen
        obtain ⟨branches, asks, -⟩ := DecisionUnit.exists_execution_of_proposal proposed
        have refused : manager.plan store unit.id =
            .error (.outOfOrder proposal.id manager.lastAccepted.id) := by
          simp only [Manager.plan, found, DecisionUnit.held_execution, execution, planOption, below,
            asks, DecisionUnit.held_unit, top, if_false]
        rw [refused]
        exact .early (.option found option below proposed) top

theorem Sound.verdict (sound : manager.Sound origin store accepted) (id : UnitId) :
    manager.Verdict id (manager.plan store id) := by
  by_cases present : id ∈ manager.pending
  · by_cases proposes : manager.Proposes id
    · rw [plan_of_proposes proposes sound.rooted]
      exact .undecided proposes
    · obtain ⟨base, footing⟩ := sound.exists_footing present proposes
      exact footing.verdict sound.rooted sound.records.toLists
  · have missing := Std.ExtTreeMap.getElem?_eq_none present
    rw [Manager.plan, missing]
    exact .absent present

end Plan

section Accept

variable {ω : Type} {host : Host ω} {manager : Manager} {id : UnitId} {world : ω}

theorem settleWritten_writing (write : Batch → ω → Except WriteError ω) (plan : AcceptPlan)
    (written : ω) :
    manager.settleWritten (host.writing write) plan written =
      manager.settleWritten host plan written := by
  unfold settleWritten
  dsimp only
  rw [host.deliverAll_writing]
  rfl

theorem accept_error_iff (running : manager.halted = none) {error : ManagerError}
    (refusal : error.isRefusal = true) :
    (manager.accept host id world).1 = .error error ↔
      manager.plan (host.store world) id = .error error := by
  cases planned : manager.plan (host.store world) id with
  | error problem => simp [accept_of_refused running planned]
  | ok plan =>
      rw [accept_of_planned running planned]
      refine ⟨fun failed => ?_, nofun⟩
      cases written : host.write plan.batch world with
      | error problem =>
          rw [written] at failed
          cases failed
          cases refusal
      | ok after =>
          rw [written] at failed
          have answered : (manager.settleWritten host plan after).1 = .ok () ∨
              ∃ failures, (manager.settleWritten host plan after).1 =
                .error (.listenerFailures failures) := settleWritten_answer plan after
          rcases answered with heard | ⟨failures, heard⟩
          · exact absurd (heard.symm.trans failed) nofun
          · cases heard.symm.trans failed
            cases refusal

end Accept

end Manager

/-- A planned acceptance asks for one write, of its batch, and goes by what comes of that. -/
structure WritesOnce {ω : Type} (host : LawfulHost ω) (situation : Manager × ω) (id : UnitId)
    (plan : AcceptPlan) : Prop where
  /-- However there is written, no other write is asked for. -/
  once : ∀ write : Batch → ω → Except WriteError ω,
    situation.1.accept (host.toHost.writing write) id situation.2 =
      match write plan.batch situation.2 with
      | .error problem =>
        (.error (.storageFailure (.unwritable problem)),
          { situation.1 with halted := some (.commitFailed problem) },
          host.publish (.halted situation.1.config.chain (HaltReason.commitFailed problem).text)
            situation.2)
      | .ok written => situation.1.settleWritten host.toHost plan written
  /-- Once it is written, a unit is accepted, though listeners may fail. -/
  accepted : ∀ written : ω,
    (situation.1.settleWritten host.toHost plan written).1 = .ok () ∨
      ∃ failures, (situation.1.settleWritten host.toHost plan written).1 =
        .error (.listenerFailures failures)
  /-- Every unit of the plan is pending when it is settled. -/
  settles : ∃ events,
    (situation.1.sequence (Manager.discard true) plan.dismissed.toList).1.settleEach
      (plan.accepted.map (·.unit.id)) = .ok ((situation.1.settle plan).1, events)
  settled : ∀ written : ω,
    (situation.1.settleWritten host.toHost plan written).2.1 = { (situation.1.settle plan).1 with
      halted := (situation.1.settleWritten host.toHost plan written).2.1.halted }
  recorded : ∀ {written : ω}, host.write plan.batch situation.2 = .ok written →
    (host.store written).lastUnit = .ok (situation.1.settle plan).1.lastAccepted

/-- What the wish to accept a unit comes to. -/
structure Decides {ω : Type} (host : LawfulHost ω) (situation : Manager × ω) (id : UnitId) :
    Prop where
  notFound : ∀ {other : UnitId},
    (Call.accept id).answer host situation = .error (.notFound other) ↔
      other = id ∧ id ∉ situation.1.pending
  acceptsProposal : ∀ {other : UnitId},
    (Call.accept id).answer host situation = .error (.acceptsProposal other) ↔
      other = id ∧ situation.1.Proposes id
  outOfOrder : ∀ {blamed tip : UnitId},
    (Call.accept id).answer host situation = .error (.outOfOrder blamed tip) ↔
      tip = situation.1.lastAccepted.id ∧ ∃ base, situation.1.Footing id base ∧ base.id = blamed ∧
        base.parent ≠ situation.1.lastAccepted.id
  /-- Whatever is neither refused for one of these reasons is written. -/
  written : id ∈ situation.1.pending → ¬situation.1.Proposes id →
    (∀ base, situation.1.Footing id base → base.parent = situation.1.lastAccepted.id) →
    ∃ plan, situation.1.plan (host.store situation.2) id = .ok plan ∧
      WritesOnce host situation id plan
  /-- A refusal comes before any write, and changes nothing. -/
  refused : ∀ {error : ManagerError}, error.isRefusal = true →
    (Call.accept id).answer host situation = .error error →
    ∀ write : Batch → ω → Except WriteError ω,
      situation.1.accept (host.toHost.writing write) id situation.2 = (.error error, situation)
  /-- An acceptance fails in no other way. -/
  errors : ∀ {error : ManagerError}, (Call.accept id).answer host situation = .error error →
    (∃ other, error = .notFound other) ∨ (∃ other, error = .acceptsProposal other) ∨
      (∃ blamed tip, error = .outOfOrder blamed tip) ∨
      (∃ problem, error = .storageFailure (.unwritable problem)) ∨
      ∃ failures, error = .listenerFailures failures
  /-- Whatever is pending and no proposal is a plain unit, or decides a pending proposal. -/
  placed : id ∈ situation.1.pending → ¬situation.1.Proposes id →
    ∃ base, situation.1.Footing id base
  /-- The edges of a unit that stands on the last accepted one are accepted. -/
  edges : ∀ {pending : PendingUnit}, situation.1.pending[id]? = some pending →
    pending.unit.parent = situation.1.lastAccepted.id → ∀ edge ∈ pending.unit.body.edges,
    situation.1.isAccepted (host.store situation.2) edge = true
  /-- However it ends, the store and the manager agree on what was accepted last, and nothing that
  is pending is stored. -/
  abreast :
    let after := ((Call.accept id).step host).perform situation
    (host.store after.2).lastUnit = .ok after.1.lastAccepted ∧
      ∀ unit ∈ after.1.pending, (host.store after.2).containsUnit unit = false

section Decides

variable {ω : Type} {host : LawfulHost ω} {origin : StateUpdates} {manager : Manager} {world : ω}
  {accepted : List DecisionUnit} {id : UnitId}

theorem Manager.Sound.lastUnit_eq {store : Store} (sound : manager.Sound origin store accepted) :
    store.lastUnit = .ok manager.lastAccepted :=
  (sound.records.lastUnit_eq sound.chronicle sound.rooted.last).2

theorem Manager.Sound.writesOnce (sound : manager.Sound origin (host.store world) accepted)
    (running : manager.halted = none) {plan : AcceptPlan}
    (planned : manager.plan (host.store world) id = .ok plan) :
    WritesOnce host (manager, world) id plan := by
  obtain ⟨unit, -, plans⟩ := sound.rooted.plan_cases sound.records.toLists planned
  refine { once := ?_, accepted := ?_, settles := ?_, settled := ?_, recorded := ?_ }
  · intro write
    have again : manager.plan ((host.toHost.writing write).store world) id = .ok plan := planned
    rw [Manager.accept_of_planned running again]
    simp only [Manager.settleWritten_writing]
    rfl
  · exact Manager.settleWritten_answer plan
  · exact ⟨_, sound.rooted.settleEach_eq plans⟩
  · exact Manager.settleWritten_manager plan
  · intro written wrote
    have keeps := (sound.settle plans).keeps.of_sameLedger (host.written wrote)
    exact (keeps.records.lastUnit_eq keeps.chronicle (sound.settle plans).rooted.last).2

theorem Manager.Sound.decides (sound : manager.Sound origin (host.store world) accepted)
    (running : manager.halted = none) (id : UnitId) : Decides host (manager, world) id := by
  have verdict := sound.verdict id
  refine { notFound := ?_, acceptsProposal := ?_, outOfOrder := ?_, written := ?_, refused := ?_,
           errors := ?_, placed := ?_, edges := ?_, abreast := ?_ }
  · intro other
    exact (Manager.accept_error_iff running rfl).trans verdict.notFound_iff
  · intro other
    exact (Manager.accept_error_iff running rfl).trans verdict.acceptsProposal_iff
  · intro blamed tip
    exact (Manager.accept_error_iff running rfl).trans verdict.outOfOrder_iff
  · intro present decidable placed
    obtain ⟨plan, planned⟩ := verdict.exists_plan present decidable placed
    exact ⟨plan, planned, sound.writesOnce running planned⟩
  · intro error refusal failed write
    have planned := (Manager.accept_error_iff running refusal).mp failed
    have again : manager.plan ((host.toHost.writing write).store world) id = .error error := planned
    exact Manager.accept_of_refused running again
  · intro error failed
    rcases (failed ▸ Call.outcome host (.accept id) (manager, world)
      sound.records.toLists).error_cases with
      ⟨reason, halted, -⟩ | refusal | written | heard
    · rw [running] at halted
      cases halted
    · have planned := (Manager.accept_error_iff running refusal).mp failed
      rw [planned] at verdict
      cases verdict with
      | absent => exact .inl ⟨_, rfl⟩
      | undecided => exact .inr (.inl ⟨_, rfl⟩)
      | early => exact .inr (.inr (.inl ⟨_, _, rfl⟩))
    · exact .inr (.inr (.inr (.inl written)))
    · exact .inr (.inr (.inr (.inr heard)))
  · exact sound.exists_footing
  · intro pending found top
    obtain ⟨unit, holds, -, rfl⟩ := sound.rooted.exists_of_getElem? found
    exact sound.rooted.isAccepted_of_edge sound.records.toLists
      (sound.rooted.next_of_parent holds top)
  · obtain ⟨further, later⟩ := Step.sound_run [(Call.accept id).step host] sound
    refine ⟨later.lastUnit_eq, fun unit present => Bool.eq_false_iff.mpr fun stored => ?_⟩
    obtain ⟨settled, inside, rfl⟩ := later.records.toLists.containsUnit_iff.mp stored
    exact (later.rooted.settled inside).1 present

end Decides

/-- After any calls, where a unit stands decides what becomes of the wish to accept it. -/
theorem Tenure.decides_run {ω : Type} {host : LawfulHost ω} {config : Configuration}
    {origin : StateUpdates} (tenure : Tenure host config origin) (steps : List (Step host))
    (running : (tenure.run steps).1.halted = none) (id : UnitId) :
    Decides host (tenure.run steps) id := by
  obtain ⟨accepted, sound⟩ := tenure.sound_run steps
  exact sound.decides running id

namespace Crossing

set_option maxRecDepth 100000 in
theorem vertex_apart : left.id ≠ (begun.run verified).1.lastAccepted.id := by
  decide +kernel

/-- The vertex is refused as long as the unit below it is not accepted. -/
theorem vertex_decided :
    Decides LawfulHost.bare (begun.run verified) vertex.id ∧
      (Call.accept vertex.id).answer LawfulHost.bare (begun.run verified) =
        .error (.outOfOrder vertex.id (begun.run verified).1.lastAccepted.id) := by
  obtain ⟨running, -, -, present, -⟩ := verified_eq
  obtain ⟨pending, found, same⟩ := Option.map_eq_some_iff.mp present
  have decides := begun.decides_run verified running vertex.id
  have kind : vertex.kind = .vertex := rfl
  have below : vertex.parent = left.id := rfl
  have footing : (begun.run verified).1.Footing vertex.id pending.unit :=
    .unit found (.inr (same ▸ kind))
  refine ⟨decides, decides.outOfOrder.mpr ⟨rfl, pending.unit, footing, ?_, ?_⟩⟩
  · rw [same]
  · rw [same, below]
    exact vertex_apart

end Crossing

end DecisionLedger
