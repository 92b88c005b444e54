import DecisionLedger.Proofs.EventStream
import DecisionLedger.Proofs.Likeness

/-! # The window

How far back a manager remembers decided units is a matter of memory alone.  Two managers that
differ in nothing else, and are called alike, hold the same units, write, deliver and publish the
same, and give the same answers, but for what they say of units that were rejected: one may have
forgotten a rejection that the other remembers, yet what was rejected is refused by either.
-/

namespace DecisionLedger

namespace Call

/-- Answers that two managers give to one call: the same, unless one of them speaks of something
rejected that the other may have forgotten. -/
inductive Agrees (left right : Manager) :
    Call → Except ManagerError Unit → Except ManagerError Unit → Prop where
  | same (call : Call) (answer : Except ManagerError Unit) : Agrees left right call answer answer
  | refused {unit : DecisionUnit} {mine theirs : ManagerError} :
      mine.namesRejected = true ∨ theirs.namesRejected = true →
      Agrees left right (.verify unit) (.error mine) (.error theirs)
  | forgotten {id : UnitId} : id ∈ left.rejected → id ∉ right.rejected →
      Agrees left right (.reject id) (.ok ()) (.error (.notFound id))
  | remembered {id : UnitId} : id ∉ left.rejected → id ∈ right.rejected →
      Agrees left right (.reject id) (.error (.notFound id)) (.ok ())

/-- What a verification or a rejection gives to two managers whose answers agree. -/
inductive Concurs (left right : Manager) : Call → Except ManagerError (Manager × List Event) →
    Except ManagerError (Manager × List Event) → Prop where
  | done {call : Call} {mine theirs : Manager} {events : List Event} : mine.Alike theirs →
      Concurs left right call (.ok (mine, events)) (.ok (theirs, events))
  | refused {call : Call} (error : ManagerError) :
      Concurs left right call (.error error) (.error error)
  | named {unit : DecisionUnit} {mine theirs : ManagerError} :
      mine.namesRejected = true ∨ theirs.namesRejected = true →
      Concurs left right (.verify unit) (.error mine) (.error theirs)
  | forgotten {id : UnitId} {mine : Manager} : id ∈ left.rejected → id ∉ right.rejected →
      mine.Alike right → Concurs left right (.reject id) (.ok (mine, [])) (.error (.notFound id))
  | remembered {id : UnitId} {theirs : Manager} : id ∉ left.rejected → id ∈ right.rejected →
      left.Alike theirs →
      Concurs left right (.reject id) (.error (.notFound id)) (.ok (theirs, []))

end Call

namespace Manager

/-- What two managers say of one unit: the same, unless it was rejected and one of them has
forgotten it. -/
inductive SameFinding (id : UnitId) : Except ManagerError (DecisionUnit × UnitStatus) →
    Except ManagerError (DecisionUnit × UnitStatus) → Prop where
  | same (found : Except ManagerError (DecisionUnit × UnitStatus)) : SameFinding id found found
  | forgotten (unit : DecisionUnit) :
      SameFinding id (.ok (unit, .rejected)) (.error (.notFound id))
  | remembered (unit : DecisionUnit) :
      SameFinding id (.error (.notFound id)) (.ok (unit, .rejected))

/-- What a manager in step with its store says of the units that were ever pending: each is known,
or so low that it is forgotten, and nothing else is held or remembered. -/
structure Traces (origin : StateUpdates) (store : Store) (accepted : List DecisionUnit)
    (seen : DecisionUnit → Prop) (manager : Manager) : Prop where
  sound : manager.Sound origin store accepted
  byId : manager.RecallsById
  held : ∀ {unit}, manager.Holds unit → seen unit
  recalled : ∀ {unit}, manager.Recalls unit → seen unit
  known : ∀ {unit}, seen unit → manager.Knows accepted unit ∨ manager.IsPast unit.height

/-- Two managers in step with one store that differ only in what they remember. -/
structure Twins (origin : StateUpdates) (store : Store) (accepted : List DecisionUnit)
    (seen : DecisionUnit → Prop) (left right : Manager) : Prop where
  alike : left.Alike right
  first : left.Traces origin store accepted seen
  second : right.Traces origin store accepted seen

section Twins

variable {origin : StateUpdates} {manager after left right : Manager} {store other : Store}
  {accepted further : List DecisionUnit} {seen : DecisionUnit → Prop} {id : UnitId}

theorem Traces.turn (traces : manager.Traces origin store accepted seen)
    (next : after.Sound origin other (accepted ++ further))
    (turn : manager.Turn store after further) :
    after.Traces origin other (accepted ++ further) fun unit => seen unit ∨ after.Holds unit where
  sound := next
  byId := turn.recallsById traces.sound traces.byId
  held := .inr
  recalled := by
    rintro unit ⟨found, known, rfl⟩
    rcases (turn.recalls_cases traces.sound traces.byId known).2 with recalls | holds
    · exact .inl (traces.recalled recalls)
    · exact .inl (traces.held holds)
  known := by
    rintro unit (before | holds)
    · exact turn.knows_or_past traces.sound (traces.known before)
    · exact .inl (.inl holds)

theorem Sound.traces_initial {config : Configuration} {tip : DecisionUnit}
    (sound : (initial config tip).Sound origin store accepted) :
    (initial config tip).Traces origin store accepted fun _ => False where
  sound := sound
  byId := (recalls_initial config tip).1
  held := not_holds_initial _
  recalled := by
    rintro unit ⟨found, known, -⟩
    simp [initial] at known
  known := False.elim

theorem Twins.symm (twins : Twins origin store accepted seen left right) :
    Twins origin store accepted seen right left :=
  ⟨twins.alike.symm, twins.second, twins.first⟩

/-- A unit that was rejected is refused, even if the rejection is forgotten: it is too low to extend
anything that is pending or accepted last. -/
theorem Twins.examine_of_forgotten (twins : Twins origin store accepted seen left right)
    {unit : DecisionUnit} (unique : ∀ {other}, seen other → other.id = unit.id → other = unit)
    (remembered : unit.id ∈ left.rejected) (forgotten : unit.id ∉ right.rejected) :
    ∃ error, right.examine store unit = .error error := by
  cases examined : right.examine store unit with
  | error error => exact ⟨error, rfl⟩
  | ok candidate =>
      exfalso
      obtain ⟨-, parent, admits⟩ := examine_eq_ok_iff.mp examined
      obtain ⟨found, known⟩ :=
        Option.isSome_iff_exists.mp (Std.ExtTreeMap.mem_iff_isSome_getElem?.mp remembered)
      have same := twins.first.byId known
      have before : seen found.unit := twins.first.recalled ⟨found, same ▸ known, rfl⟩
      rw [unique before same] at before
      rcases twins.second.known before with (holds | inside | recalls) | past
      · have held := twins.alike.holds_iff.mp holds
        exact twins.first.sound.rooted.rejected remembered held.mem
      · exact (twins.first.sound.rooted.settled inside).2 remembered
      · exact forgotten recalls.mem
      · exact not_isPast_of_lt (twins.second.sound.rooted.height_lt_of_admits admits) past

theorem Twins.verify (twins : Twins origin store accepted seen left right) {unit : DecisionUnit}
    (unique : ∀ {other}, seen other → other.id = unit.id → other = unit) :
    Call.Concurs left right (.verify unit) (left.verify store unit) (right.verify store unit) := by
  have forgets := twins.examine_of_forgotten unique
  have remembers := twins.symm.examine_of_forgotten unique
  obtain ⟨alike, ⟨sound, -⟩, ⟨also, -⟩⟩ := twins
  have accepts := sound.rooted.isAccepted_eq also.rooted sound.records.toLists unit.id
  have examines := alike.examine_cases sound.rooted also.rooted sound.chronicle
    sound.records.toLists unit
  unfold Manager.verify isPending
  rw [alike.ensureRunning_eq, accepts, alike.pending_eq, alike.chain_eq]
  cases left.ensureRunning with
  | error error => exact .refused error
  | ok done =>
      simp only [bind, Except.bind]
      split
      · exact .done alike
      simp only [Std.ExtTreeMap.contains_iff_mem]
      by_cases mine : unit.id ∈ left.rejected
      · rw [if_pos mine]
        by_cases theirs : unit.id ∈ right.rejected
        · rw [if_pos theirs]
          exact .refused _
        · obtain ⟨error, refused⟩ := forgets mine theirs
          rw [if_neg theirs, refused]
          exact .named (.inl rfl)
      · rw [if_neg mine]
        by_cases theirs : unit.id ∈ right.rejected
        · obtain ⟨error, refused⟩ := remembers theirs mine
          rw [if_pos theirs, refused]
          exact .named (.inr rfl)
        rw [if_neg theirs]
        rcases examines with same | ⟨own, other, refused, likewise, named⟩
        · rw [same]
          cases left.examine store unit with
          | error error => exact .refused error
          | ok candidate => exact .done (alike.hold candidate)
        · rw [refused, likewise]
          exact .named named

theorem exists_acknowledge (running : manager.ensureRunning = .ok ())
    (remembered : id ∈ manager.rejected) :
    ∃ rejected, manager.reject id = .ok ({ manager with rejected }, []) := by
  obtain ⟨found, known⟩ :=
    Option.isSome_iff_exists.mp (Std.ExtTreeMap.mem_iff_isSome_getElem?.mp remembered)
  refine ⟨manager.rejected.insert id { found with awaiting := false }, ?_⟩
  rw [Manager.reject, running, known]
  rfl

theorem Alike.recall (alike : left.Alike right) (rejected : Std.ExtTreeMap UnitId RejectedUnit) :
    Alike { left with rejected } right := by
  cases alike with
  | intro window forgotten recent => exact .intro window forgotten recent

theorem Twins.reject_of_forgotten (twins : Twins origin store accepted seen left right)
    (running : left.ensureRunning = .ok ()) (remembered : id ∈ left.rejected)
    (forgotten : id ∉ right.rejected) :
    ∃ mine, left.reject id = .ok (mine, []) ∧ right.reject id = .error (.notFound id) ∧
      mine.Alike right := by
  obtain ⟨rejected, acknowledged⟩ := exists_acknowledge running remembered
  have absent := Std.ExtTreeMap.getElem?_eq_none (twins.first.sound.rooted.rejected remembered)
  have unknown := Std.ExtTreeMap.getElem?_eq_none forgotten
  have halts := twins.alike.ensureRunning_eq.trans running
  refine ⟨{ left with rejected }, acknowledged, ?_, twins.alike.recall rejected⟩
  rw [Manager.reject, halts, unknown, twins.alike.pending_eq, absent]
  rfl

/-- Twins reject the same units, but one may acknowledge a rejection that the other has
forgotten. -/
theorem Twins.reject (twins : Twins origin store accepted seen left right) (id : UnitId) :
    Call.Concurs left right (.reject id) (left.reject id) (right.reject id) := by
  have alike := twins.alike
  have halts := alike.ensureRunning_eq
  cases running : left.ensureRunning with
  | error error =>
      rw [running] at halts
      rw [Manager.reject, Manager.reject, running, halts]
      exact .refused error
  | ok done =>
      rw [running] at halts
      by_cases mine : id ∈ left.rejected <;> by_cases theirs : id ∈ right.rejected
      · obtain ⟨rejected, done⟩ := exists_acknowledge running mine
        obtain ⟨recalled, also⟩ := exists_acknowledge halts theirs
        rw [done, also]
        exact .done ((alike.recall rejected).symm.recall recalled).symm
      · obtain ⟨after, done, refused, still⟩ := twins.reject_of_forgotten running mine theirs
        rw [done, refused]
        exact .forgotten mine theirs still
      · obtain ⟨after, done, refused, still⟩ := twins.symm.reject_of_forgotten halts theirs mine
        rw [done, refused]
        exact .remembered mine theirs still.symm
      · unfold Manager.reject
        rw [running, halts, Std.ExtTreeMap.getElem?_eq_none mine,
          Std.ExtTreeMap.getElem?_eq_none theirs, alike.pending_eq]
        simp only [bind, Except.bind]
        split
        · exact .refused _
        · exact .refused _
        · obtain ⟨discarded, events⟩ := Alike.discard false id alike
          have done : Call.Concurs left right (.reject id) (.ok (left.discard false id))
              (.ok ((right.discard false id).1, (left.discard false id).2)) := .done discarded
          rw [events] at done
          exact done

theorem Alike.finds_iff (alike : left.Alike right) {unit : DecisionUnit} {status : UnitStatus}
    (decided : status ≠ .rejected) :
    right.Finds accepted unit status ↔ left.Finds accepted unit status := by
  cases status with
  | processing => exact alike.holds_iff
  | accepted | unverified => rfl
  | rejected => exact absurd rfl decided

theorem Twins.lookup (twins : Twins origin store accepted seen left right)
    (unique : ∀ {unit other}, seen unit → seen other → other.id = unit.id → other = unit)
    (id : UnitId) : SameFinding id (left.lookup store id) (right.lookup store id) := by
  obtain ⟨alike, first, second⟩ := twins
  rcases first.sound.lookup_cases first.byId id with
    ⟨unit, status, found, rfl, finds⟩ | ⟨missing, -⟩
  · by_cases gone : status = .rejected
    · subst gone
      rw [found]
      rcases second.sound.lookup_cases second.byId unit.id with
        ⟨own, status, here, same, also⟩ | ⟨absent, -⟩
      · by_cases gone : status = .rejected
        · subst gone
          rw [here, unique (first.recalled finds) (second.recalled also) same]
          exact .same _
        · have held := (alike.finds_iff gone).mp also
          exact absurd (first.sound.finds_unique finds held same.symm).2.symm gone
      · rw [absent]
        exact .forgotten unit
    · have held := (alike.finds_iff gone).mpr finds
      rw [found, (second.sound.lookup_eq_ok_iff second.byId).mpr ⟨rfl, held⟩]
      exact .same _
  · rcases second.sound.lookup_cases second.byId id with
      ⟨own, status, here, rfl, also⟩ | ⟨absent, -⟩
    · by_cases gone : status = .rejected
      · subst gone
        rw [missing, here]
        exact .remembered own
      · have held := (alike.finds_iff gone).mp also
        rw [(first.sound.lookup_eq_ok_iff first.byId).mpr ⟨rfl, held⟩] at missing
        cases missing
    · rw [missing, absent]
      exact .same _

end Twins

section Accept

variable {ω : Type} {host : LawfulHost ω} {left right : Manager} {world : ω} {unit : UnitId}

theorem Alike.accept (alike : left.Alike right)
    (plans : right.plan (host.store world) unit = left.plan (host.store world) unit) :
    (left.accept host.toHost unit world).2.1.Alike (right.accept host.toHost unit world).2.1 ∧
      (right.accept host.toHost unit world).1 = (left.accept host.toHost unit world).1 ∧
      (right.accept host.toHost unit world).2.2 = (left.accept host.toHost unit world).2.2 := by
  have threshold : right.config.threshold = left.config.threshold := by
    rw [alike.config_eq]
  unfold Manager.accept
  rw [alike.ensureRunning_eq, plans, alike.chain_eq, threshold]
  cases left.ensureRunning with
  | error error => exact ⟨alike, rfl, rfl⟩
  | ok done =>
      cases left.plan (host.store world) unit with
      | error error => exact ⟨alike, rfl, rfl⟩
      | ok plan =>
          dsimp only
          cases host.write plan.batch world with
          | error problem =>
              obtain ⟨halted, events⟩ := Alike.halt (.commitFailed problem) alike
              dsimp only
              rw [events]
              exact ⟨halted, rfl, rfl⟩
          | ok written =>
              obtain ⟨settled, events⟩ := Alike.settle plan alike
              dsimp only
              rw [events]
              cases host.deliverAll left.config.chain (plan.accepted.map (·.unit))
                  (host.publishAll (right.settle plan).2 written) with
              | mk failed delivered =>
                  cases failed with
                  | none => exact ⟨settled, rfl, rfl⟩
                  | some failures =>
                      dsimp only
                      split
                      · obtain ⟨halted, further⟩ :=
                          Alike.halt (.listenerFailed failures) settled
                        rw [further]
                        exact ⟨halted, rfl, rfl⟩
                      · exact ⟨settled, rfl, rfl⟩

end Accept

end Manager

section Run

variable {ω : Type} {host : LawfulHost ω} {config : Configuration} {origin : StateUpdates}
  {accepted : List DecisionUnit} {seen : DecisionUnit → Prop} {left right : Manager} {world : ω}

/-- What a call comes to with one manager and with another, beginning in one world. -/
structure Call.Parallel (call : Call) (left right : Manager)
    (mine theirs : Except ManagerError Unit × Manager × ω) : Prop where
  answers : call.Agrees left right mine.1 theirs.1
  alike : mine.2.1.Alike theirs.2.1
  world : theirs.2.2 = mine.2.2

theorem Call.Concurs.conclude {call : Call}
    {mine theirs : Except ManagerError (Manager × List Event)}
    (concurs : call.Concurs left right mine theirs) (alike : left.Alike right)
    (host : LawfulHost ω) (world : ω) :
    call.Parallel left right (mine.map fun _ => (), Step.conclude host (left, world) mine)
      (theirs.map fun _ => (), Step.conclude host (right, world) theirs) := by
  cases concurs with
  | done still => exact ⟨.same _ _, still, rfl⟩
  | refused error => exact ⟨.same _ _, alike, rfl⟩
  | named named => exact ⟨.refused named, alike, rfl⟩
  | forgotten recalled forgotten still => exact ⟨.forgotten recalled forgotten, still, rfl⟩
  | remembered forgotten recalled still => exact ⟨.remembered forgotten recalled, still, rfl⟩

/-- Twins stay alike in every call, and so does their world. -/
theorem Manager.Twins.parallel
    (twins : Twins origin (host.store world) accepted seen left right) (call : Call)
    (unique : ∀ {unit other}, unit ∈ (call.step host).given → seen other →
      other.id = unit.id → other = unit) :
    call.Parallel left right
      (call.answer host (left, world), (call.step host).perform (left, world))
      (call.answer host (right, world), (call.step host).perform (right, world)) := by
  cases call with
  | verify unit =>
      have verified := twins.verify (unique (List.mem_singleton_self unit))
      exact verified.conclude twins.alike host world
  | accept unit =>
      have plans := twins.alike.plan_eq twins.first.sound.rooted twins.second.sound.rooted
        twins.first.sound.records.toLists unit
      obtain ⟨alike, answers, same⟩ := twins.alike.accept plans
      have answered : (Call.accept unit).answer host (right, world) =
          (Call.accept unit).answer host (left, world) := answers
      refine ⟨?_, alike, same⟩
      rw [answered]
      exact .same _ _
  | reject id => exact (twins.reject id).conclude twins.alike host world

theorem Step.holds_perform (step : Step host) (situation : Manager × ω)
    (sound : situation.1.Sound origin (host.store situation.2) accepted) {unit : DecisionUnit}
    (holds : (step.perform situation).1.Holds unit) :
    situation.1.Holds unit ∨ unit ∈ step.given := by
  cases step with
  | verify given =>
      dsimp only [perform, conclude] at holds
      cases done : situation.1.verify (host.store situation.2) given with
      | error error =>
          rw [done] at holds
          exact .inl holds
      | ok outcome =>
          rw [done] at holds
          rcases Manager.verify_cases done with same | ⟨held, unknown, -⟩
          · exact .inl (same ▸ holds)
          · rw [held] at holds
            refine ((Manager.holds_hold unknown.notPending).mp holds).symm.imp_right ?_
            exact fun same => List.mem_singleton.mpr same
  | accept id =>
      have accepting := Manager.accept_cases host situation.1 id situation.2
      dsimp only [perform] at holds
      generalize situation.1.accept host.toHost id situation.2 = result at accepting holds
      cases accepting with
      | refused => exact .inl holds
      | unwritten => exact .inl ((Manager.holds_halt _).mp holds)
      | committed planned _ final =>
          obtain ⟨decided, -, plans⟩ := sound.rooted.plan_cases sound.records.toLists planned
          rcases final with rfl | ⟨reason, rfl⟩
          · exact .inl (Manager.Holds.of_settle plans holds)
          · exact .inl (Manager.Holds.of_settle plans ((Manager.holds_halt reason).mp holds))
  | reject id =>
      dsimp only [perform, conclude] at holds
      cases done : situation.1.reject id with
      | error error =>
          rw [done] at holds
          exact .inl holds
      | ok outcome =>
          rw [done] at holds
          exact .inl (Manager.Holds.of_reject done holds)
  | drift change kept => exact .inl holds

theorem Manager.Twins.perform
    (twins : Twins origin (host.store world) accepted seen left right) (step : Step host)
    (unique : ∀ {unit other}, unit ∈ step.given → seen other → other.id = unit.id →
      other = unit) :
    (step.perform (right, world)).2 = (step.perform (left, world)).2 ∧
      ∃ later, Twins origin (host.store (step.perform (left, world)).2) later
        (fun unit => seen unit ∨ (step.perform (left, world)).1.Holds unit)
        (step.perform (left, world)).1 (step.perform (right, world)).1 := by
  have moved : (step.perform (left, world)).1.Alike (step.perform (right, world)).1 ∧
      (step.perform (right, world)).2 = (step.perform (left, world)).2 := by
    rcases Call.exists_step step with ⟨call, rfl⟩ | ⟨change, kept, rfl⟩
    · have parallel := twins.parallel call unique
      exact ⟨parallel.alike, parallel.world⟩
    · exact ⟨twins.alike, rfl⟩
  obtain ⟨alike, same⟩ := moved
  obtain ⟨further, turn, next⟩ := step.turn_perform (left, world) twins.first.sound
  obtain ⟨others, also, after⟩ := step.turn_perform (right, world) twins.second.sound
  have mine := twins.first.turn next turn
  have theirs := twins.second.turn after also
  -- both accepted the same, since one store keeps what either accepted
  rw [same] at theirs
  have agreed := mine.sound.accepted_unique theirs.sound alike.lastAccepted_eq.symm
  rw [← agreed] at theirs
  refine ⟨same, _, alike, mine, ?_⟩
  simp only [alike.holds_iff] at theirs
  exact theirs

/-- Twins are twins after any steps, in one world, if no two of the units that were pending or are
given to them have one ID. -/
theorem Manager.Twins.run (twins : Twins origin (host.store world) accepted seen left right)
    (steps : List (Step host))
    (unique : ∀ {unit other}, seen unit ∨ unit ∈ Step.givenAll steps →
      seen other ∨ other ∈ Step.givenAll steps → other.id = unit.id → other = unit) :
    (Step.run steps (right, world)).2 = (Step.run steps (left, world)).2 ∧
      ∃ later known, (∀ {unit}, known unit → seen unit ∨ unit ∈ Step.givenAll steps) ∧
        Twins origin (host.store (Step.run steps (left, world)).2) later known
          (Step.run steps (left, world)).1 (Step.run steps (right, world)).1 := by
  induction steps generalizing left right world accepted seen with
  | nil => exact ⟨rfl, accepted, seen, .inl, twins⟩
  | cons step rest ih =>
      have given : Step.givenAll (step :: rest) = step.given ++ Step.givenAll rest := rfl
      simp only [given, List.mem_append] at unique ⊢
      obtain ⟨same, further, next⟩ := twins.perform step fun inside before =>
        unique (.inr (.inl inside)) (.inl before)
      have fresh {unit : DecisionUnit}
          (known : seen unit ∨ (step.perform (left, world)).1.Holds unit) :
          seen unit ∨ unit ∈ step.given :=
        known.elim .inl fun holds =>
          (step.holds_perform (left, world) twins.first.sound holds).imp_left twins.first.held
      have place {unit : DecisionUnit} (known : (seen unit ∨
          (step.perform (left, world)).1.Holds unit) ∨ unit ∈ Step.givenAll rest) :
          seen unit ∨ unit ∈ step.given ∨ unit ∈ Step.givenAll rest :=
        (or_assoc.mp (known.imp_left fresh))
      obtain ⟨final, later, known, within, still⟩ :=
        ih next fun inside among => unique (place inside) (place among)
      have moved : Step.run (step :: rest) (right, world) =
          Step.run rest ((step.perform (right, world)).1, (step.perform (left, world)).2) :=
        congrArg (Step.run rest) (Prod.ext rfl same)
      rw [moved]
      exact ⟨final, later, known, fun told => place (within told), still⟩

/-- The same tenure with another window. -/
def Tenure.rewindow (tenure : Tenure host config origin) (window : UInt64) :
    Tenure host { config with window } origin where
  world := tenure.world
  served := tenure.served
  manager := { tenure.manager with config := { config with window } }
  resumed := by
    have resumed := tenure.resumed
    unfold Manager.resume at resumed ⊢
    split at resumed
    · rw [if_pos ‹_›]
      cases last : (host.store tenure.world).lastUnit with
      | error error =>
          rw [last] at resumed
          cases resumed
      | ok unit =>
          rw [last] at resumed
          rw [← Except.ok.inj resumed]
    · cases resumed

/-- What two managers of one tenure do, hold and say in the same steps if their windows differ. -/
structure Tenure.Windowed (tenure : Tenure host config origin) (window : UInt64)
    (steps : List (Step host)) : Prop where
  pending : ((tenure.rewindow window).run steps).1.pending = (tenure.run steps).1.pending
  children : ((tenure.rewindow window).run steps).1.children = (tenure.run steps).1.children
  referencedBy : ((tenure.rewindow window).run steps).1.referencedBy =
    (tenure.run steps).1.referencedBy
  consumedBy : ((tenure.rewindow window).run steps).1.consumedBy = (tenure.run steps).1.consumedBy
  lastAccepted : ((tenure.rewindow window).run steps).1.lastAccepted =
    (tenure.run steps).1.lastAccepted
  halted : ((tenure.rewindow window).run steps).1.halted = (tenure.run steps).1.halted
  /-- The whole world is the same: the store, and all that the listeners and the receivers of events
  have made of what they were told. -/
  world : ((tenure.rewindow window).run steps).2 = (tenure.run steps).2
  /-- Everything written, delivered and published is the same, in the same order. -/
  requests : (host.journal.run (tenure.rewindow window) [] steps).2.2 =
    (host.journal.run tenure [] steps).2.2
  lookup : ∀ id, Manager.SameFinding id (host.lookup (tenure.run steps) id)
    (host.lookup ((tenure.rewindow window).run steps) id)
  /-- The answers to the next call agree, if no unit that it gives shares its ID with another one
  that was given before. -/
  answers : ∀ call : Call, (∀ unit ∈ (call.step host).given, ∀ other ∈ Step.givenAll steps,
      other.id = unit.id → other = unit) →
    call.Agrees (tenure.run steps).1 ((tenure.rewindow window).run steps).1
      (call.answer host (tenure.run steps)) (call.answer host ((tenure.rewindow window).run steps))

theorem Tenure.twins (tenure : Tenure host config origin) (window : UInt64) :
    ∃ accepted, Manager.Twins origin (host.store tenure.world) accepted (fun _ => False)
      tenure.manager (tenure.rewindow window).manager := by
  obtain ⟨accepted, tip, fresh, sound⟩ := tenure.begins
  obtain ⟨others, top, begun, also⟩ := (tenure.rewindow window).begins
  have alike : tenure.manager.Alike (tenure.rewindow window).manager := by
    have own : tenure.manager.config = config := congrArg Manager.config fresh
    have same : (tenure.rewindow window).manager =
        { tenure.manager with config := { tenure.manager.config with window } } := by
      rw [own]
      rfl
    rw [same]
    exact .intro window tenure.manager.rejected tenure.manager.recent
  have agreed := sound.accepted_unique also alike.lastAccepted_eq.symm
  subst agreed
  refine ⟨accepted, alike, ?_, ?_⟩
  · rw [fresh] at sound ⊢
    exact sound.traces_initial
  · rw [begun] at also ⊢
    exact also.traces_initial

theorem Observer.givenAll_lift {τ : Type} (observer : Observer host τ) (steps : List (Step host)) :
    Step.givenAll (steps.map observer.lift) = Step.givenAll steps := by
  have same (step : Step host) : (observer.lift step).given = step.given := by
    cases step <;> rfl
  rw [Step.givenAll, List.flatMap_map]
  exact congrArg (List.flatMap · steps) (funext same)

/-- The window is only a bound on memory: whatever it is, the same calls make pending, write,
deliver and publish the same, and succeed alike; and only what is said of rejected units differs.
IDs are digests, and it is assumed that none is shared: two given units with one ID are the same
unit, however often it is given. -/
theorem Tenure.window_run (tenure : Tenure host config origin) (window : UInt64)
    (steps : List (Step host)) (unique : ∀ unit ∈ Step.givenAll steps,
      ∀ other ∈ Step.givenAll steps, other.id = unit.id → other = unit) :
    tenure.Windowed window steps := by
  obtain ⟨accepted, begin⟩ := tenure.twins window
  have apart {unit other : DecisionUnit} (inside : False ∨ unit ∈ Step.givenAll steps)
      (among : False ∨ other ∈ Step.givenAll steps) (same : other.id = unit.id) : other = unit :=
    unique unit (inside.resolve_left id) other (among.resolve_left id) same
  obtain ⟨world, later, known, within, twins⟩ := begin.run steps apart
  have given {unit : DecisionUnit} (inside : known unit) : unit ∈ Step.givenAll steps :=
    (within inside).resolve_left id
  have watched : Manager.Twins origin (host.journal.lawful.store (tenure.world, [])) accepted
      (fun _ => False) tenure.manager (tenure.rewindow window).manager := begin
  have noted := (watched.run (steps.map host.journal.lift) (by
    rw [host.journal.givenAll_lift]
    exact apart)).1
  have moved : (tenure.rewindow window).run steps =
      (((tenure.rewindow window).run steps).1, (tenure.run steps).2) := Prod.ext rfl world
  have alike : (tenure.run steps).1.Alike ((tenure.rewindow window).run steps).1 := twins.alike
  refine { pending := alike.pending_eq, children := alike.children_eq,
           referencedBy := alike.referencedBy_eq, consumedBy := alike.consumedBy_eq,
           lastAccepted := alike.lastAccepted_eq, halted := alike.halted_eq, world := world,
           requests := congrArg Prod.snd noted, lookup := fun id => ?_,
           answers := fun call new => ?_ }
  · rw [moved]
    exact twins.lookup (fun inside among => unique _ (given inside) _ (given among)) id
  · rw [moved]
    exact (twins.parallel call fun inside before => new _ inside _ (given before)).answers

end Run

namespace Forgetful

/-- Beside the option that is accepted there is a unit, which is given to the manager again, and
rejected again. -/
def retried : List (Step LawfulHost.bare) :=
  verified ++ [.accept option.id, .verify beside, .reject beside.id]

set_option maxRecDepth 100000 in
theorem distinct_retried : ∀ unit ∈ Step.givenAll retried, ∀ other ∈ Step.givenAll retried,
    other.id = unit.id → other = unit := by
  decide +kernel

/-- The unit beside is forgotten in one run and remembered in the other; nothing else differs. -/
theorem retried_windowed :
    (∀ unit ∈ Step.givenAll retried, ∀ other ∈ Step.givenAll retried,
      other.id = unit.id → other = unit) ∧ begun.Windowed 3 retried :=
  ⟨distinct_retried, begun.window_run 3 retried distinct_retried⟩

end Forgetful

end DecisionLedger
