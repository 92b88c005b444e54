import DecisionLedger.Proofs.Announcing
import DecisionLedger.Proofs.Delivery

/-! # The stream of events

The events of a run tell of each unit that it was verified and then, at most once, that it was
accepted or rejected.  So they tell which units are pending, and which were committed in what order.
The acceptances of a call come after all rejections of the call.
-/

namespace DecisionLedger

namespace Event

def isAcceptance : Event → Bool
  | accepted .. => true
  | verified .. | rejected .. | halted .. => false

/-- What may be told of one unit. -/
inductive Story (chain : ChainId) (id : UnitId) : List Event → Prop where
  | untold : Story chain id []
  | pending (height : Height) (kind : Kind) : Story chain id [.verified chain id height kind]
  | accepted (height : Height) (kind : Kind) :
      Story chain id [.verified chain id height kind, .accepted chain id height kind]
  | rejected (height : Height) (kind : Kind) :
      Story chain id [.verified chain id height kind, .rejected chain id height]

theorem isAcceptance_of_isRejection {event : Event} (rejection : event.isRejection = true) :
    event.isAcceptance = false := by
  cases event <;> first | rfl | cases rejection

end Event

/-- The units that a step gives to a manager to verify. -/
def Step.given {ω : Type} {host : LawfulHost ω} : Step host → List DecisionUnit
  | verify unit => [unit]
  | accept _ | reject _ | drift _ _ => []

namespace Manager

/-- What a manager may become in a step, the units accepted on the way, and what it announces. -/
inductive Tells (manager : Manager) (store : Store) (given : List DecisionUnit) :
    Manager → List DecisionUnit → List Event → Prop where
  | rest : Tells manager store given manager [] []
  | hold {parent unit : DecisionUnit} : unit ∈ given → manager.Unknown store unit.id →
      manager.Admits store parent unit →
      Tells manager store given (manager.hold unit.held) []
        [.verify manager.config.chain unit]
  | acknowledge {id : UnitId} {found : RejectedUnit} : manager.rejected[id]? = some found →
      Tells manager store given
        { manager with
          rejected := manager.rejected.insert id { found with awaiting := false } } [] []
  | discard (root : UnitId) :
      Tells manager store given (Manager.discard false manager root).1 []
        (Manager.discard false manager root).2
  | settle {unit : DecisionUnit} {plan : AcceptPlan} : manager.Plans unit plan →
      Tells manager store given (manager.settle plan).1 (plan.accepted.map (·.unit))
        (manager.settle plan).2
  | halt {after : Manager} {further : List DecisionUnit} {events : List Event}
      (reason : HaltReason) : Tells manager store given after further events →
      Tells manager store given (after.halt reason).1 further
        (events ++ (after.halt reason).2)

/-- What is announced of a unit is what became of it. -/
structure Reports (chain : ChainId) (manager : Manager) (given : List DecisionUnit)
    (after : Manager) (further : List DecisionUnit) (events : List Event) : Prop where
  begun : ∀ {unit}, unit.id ∉ manager.pending → after.Holds unit →
    unit ∈ given ∧ Event.about unit.id events = [.verify chain unit]
  stays : ∀ {unit}, manager.Holds unit → unit.id ∈ after.pending → after.Holds unit
  ended : ∀ {unit}, manager.Holds unit → unit.id ∉ after.pending →
    (unit ∈ further ∧ Event.about unit.id events = [.accept chain unit]) ∨
      (unit ∉ further ∧ Event.about unit.id events = [.reject chain unit])
  silent : ∀ {id : UnitId}, (id ∈ manager.pending ↔ id ∈ after.pending) →
    Event.about id events = []

section Tells

variable {chain : ChainId} {origin : StateUpdates} {manager after : Manager}
  {store other : Store} {accepted further given : List DecisionUnit} {events : List Event}

theorem Tells.turn (tells : manager.Tells store given after further events) :
    manager.Turn store after further := by
  induction tells with
  | rest => exact .rest
  | hold _ unknown admits => exact .hold unknown admits
  | acknowledge known => exact .acknowledge known
  | discard root => exact .discard root
  | settle plans => exact .settle plans
  | halt reason _ ih => exact .halt reason ih

theorem Tells.of_verify {unit : DecisionUnit}
    (done : manager.verify store unit = .ok (after, events)) :
    manager.Tells store [unit] after [] events := by
  rcases verify_events done with ⟨rfl, rfl⟩ | ⟨rfl, rfl, unknown, parent, admits⟩
  · exact .rest
  · exact .hold List.mem_cons_self unknown admits

theorem Tells.of_reject {id : UnitId} (done : manager.reject id = .ok (after, events)) :
    manager.Tells store given after [] events := by
  rcases reject_events done with ⟨found, known, rfl, rfl⟩ | same
  · exact .acknowledge known
  · obtain ⟨rfl, rfl⟩ := Prod.mk.inj same
    exact .discard id

theorem Ends.reports (ends : Ends chain manager after further events) :
    Reports chain manager given after further events where
  begun absent holds := absurd (ends.mem holds.mem) absent
  stays := ends.stays
  ended := ends.told
  silent := by
    intro id same
    by_cases present : id ∈ manager.pending
    · exact ends.silent (.inr (same.mp present))
    · exact ends.silent (.inl present)

theorem reports_hold {unit : DecisionUnit} (own : manager.config.chain = chain)
    (inside : unit ∈ given) (fresh : unit.id ∉ manager.pending) :
    Reports chain manager given (manager.hold unit.held) further
      [.verify manager.config.chain unit] where
  begun := by
    intro other absent holds
    rcases (holds_hold fresh).mp holds with rfl | before
    · rw [own]
      exact ⟨inside, Event.about_of_eq rfl⟩
    · exact absurd before.mem absent
  stays holds _ := (holds_hold fresh).mpr (.inr holds)
  ended holds gone := absurd (mem_pending_hold.mpr (.inr holds.mem)) gone
  silent := by
    intro id same
    refine Event.about_of_ne rfl ?_
    rintro rfl
    exact fresh (same.mpr (mem_pending_hold.mpr (.inl rfl)))

theorem unit?_of_mem_halt (manager : Manager) (reason : HaltReason) :
    ∀ event ∈ (manager.halt reason).2, event.unit? = none := by
  intro event inside
  unfold Manager.halt at inside
  split at inside
  · cases inside
  · cases List.mem_singleton.mp inside
    rfl

theorem Tells.reports (sound : manager.Sound origin store accepted)
    (own : manager.config.chain = chain)
    (tells : manager.Tells store given after further events) :
    Reports chain manager given after further events := by
  induction tells with
  | rest => exact (Ends.refl chain manager).reports
  | acknowledge known =>
      have rests : Reports chain manager given manager [] [] := (Ends.refl chain manager).reports
      exact ⟨rests.begun, rests.stays, rests.ended, rests.silent⟩
  | hold inside unknown _ => exact reports_hold own inside unknown.notPending
  | discard root => exact (ends_discard false own root).reports
  | settle plans => exact (sound.rooted.ends_settle own plans).reports
  | @halt after further events reason _ ih =>
      have quiet (id : UnitId) : Event.about id (after.halt reason).2 = [] :=
        Event.about_of_unit?_eq_none (unit?_of_mem_halt after reason) id
      have same : (after.halt reason).1.pending = after.pending := pending_halt after reason
      refine ⟨fun absent holds => ?_, fun holds present => ?_, fun holds gone => ?_,
        fun unchanged => ?_⟩
      · rw [Event.about_append, quiet, List.append_nil]
        exact ih.begun absent ((holds_halt reason).mp holds)
      · exact (holds_halt reason).mpr (ih.stays holds (same ▸ present))
      · rw [Event.about_append, quiet, List.append_nil]
        exact ih.ended holds (same ▸ gone)
      · rw [Event.about_append, quiet, List.append_nil]
        exact ih.silent (same ▸ unchanged)

theorem Tells.acceptances (sound : manager.Sound origin store accepted)
    (own : manager.config.chain = chain)
    (tells : manager.Tells store given after further events) :
    events.filter Event.isAcceptance = further.map (Event.accept chain) := by
  induction tells with
  | rest | acknowledge | hold => rfl
  | discard root =>
      refine List.filter_eq_nil_iff.mpr fun event inside => ?_
      rw [Event.isAcceptance_of_isRejection (isRejection_of_mem_discard false _ root event inside)]
      exact Bool.false_ne_true
  | settle plans =>
      obtain ⟨rejections, rejected, same⟩ := sound.rooted.settle_events own plans
      have none : rejections.filter Event.isAcceptance = [] := by
        refine List.filter_eq_nil_iff.mpr fun event inside => ?_
        rw [Event.isAcceptance_of_isRejection (rejected event inside)]
        exact Bool.false_ne_true
      rw [same, List.filter_append, none, List.nil_append, List.filter_eq_self]
      intro event inside
      obtain ⟨unit, -, rfl⟩ := List.mem_map.mp inside
      rfl
  | @halt after _ _ reason _ ih =>
      have none : (after.halt reason).2.filter Event.isAcceptance = [] := by
        unfold Manager.halt
        split <;> rfl
      rw [List.filter_append, none, List.append_nil]
      exact ih

/-- Whatever is rejected in a turn is announced before anything that is accepted in it. -/
theorem Tells.ordered (sound : manager.Sound origin store accepted)
    (tells : manager.Tells store given after further events) :
    ∃ before later, events = before ++ later ∧ (∀ event ∈ before, event.isAcceptance = false) ∧
      ∀ event ∈ later, event.isRejection = false := by
  induction tells with
  | rest | acknowledge => exact ⟨[], [], rfl, by simp, by simp⟩
  | hold => exact ⟨[], _, rfl, by simp, by simp [Event.verify, Event.isRejection]⟩
  | discard root =>
      refine ⟨_, [], (List.append_nil _).symm, fun event inside => ?_, by simp⟩
      exact Event.isAcceptance_of_isRejection (isRejection_of_mem_discard false _ root event inside)
  | settle plans =>
      obtain ⟨rejections, rejected, same⟩ := sound.rooted.settle_events rfl plans
      refine ⟨rejections, _, same, fun event inside => ?_, fun event inside => ?_⟩
      · exact Event.isAcceptance_of_isRejection (rejected event inside)
      · obtain ⟨unit, -, rfl⟩ := List.mem_map.mp inside
        rfl
  | @halt after _ _ reason _ ih =>
      obtain ⟨before, later, rfl, accepts, rejects⟩ := ih
      refine ⟨before, later ++ (after.halt reason).2, List.append_assoc .., accepts, ?_⟩
      intro event inside
      rcases List.mem_append.mp inside with old | new
      · exact rejects event old
      · unfold Manager.halt at new
        split at new
        · cases new
        · cases List.mem_singleton.mp new
          rfl

end Tells

/-- What has been told of one unit fits what has become of it. -/
inductive Told (chain : ChainId) (known : List DecisionUnit) (manager : Manager)
    (accepted : List DecisionUnit) : UnitId → List Event → Prop where
  | untold {id : UnitId} : id ∉ manager.pending → Told chain known manager accepted id []
  | pending {unit : DecisionUnit} : unit ∈ known → manager.Holds unit →
      Told chain known manager accepted unit.id [.verify chain unit]
  | accepted {unit : DecisionUnit} : unit ∈ accepted →
      Told chain known manager accepted unit.id [.verify chain unit, .accept chain unit]
  | rejected {unit : DecisionUnit} : unit ∈ known → unit.id ∉ manager.pending →
      manager.Barred accepted unit →
      Told chain known manager accepted unit.id [.verify chain unit, .reject chain unit]

section Told

variable {chain : ChainId} {origin : StateUpdates} {manager after : Manager}
  {store other : Store} {accepted further known given : List DecisionUnit}
  {events earlier : List Event} {id : UnitId}

theorem Told.story (told : Told chain known manager accepted id events) :
    Event.Story chain id events := by
  cases told with
  | untold => exact .untold
  | @pending unit => exact .pending unit.height unit.kind
  | @accepted unit => exact .accepted unit.height unit.kind
  | @rejected unit => exact .rejected unit.height unit.kind

/-- What a turn announces goes on with the story of each unit.  Without a second unit of the same ID
a unit that was rejected does not become pending again, even if it is forgotten. -/
theorem Told.next (told : Told chain known manager accepted id earlier)
    (sound : manager.Sound origin store accepted)
    (next : after.Sound origin other (accepted ++ further))
    (tells : manager.Tells store given after further events)
    (own : manager.config.chain = chain)
    (unique : ∀ unit ∈ known ++ given, ∀ other ∈ known ++ given,
      unit.id = id → other.id = id → unit = other) :
    Told chain (known ++ given) after (accepted ++ further) id
      (earlier ++ Event.about id events) := by
  have reports := tells.reports sound own
  cases told with
  | untold absent =>
      by_cases present : id ∈ after.pending
      · obtain ⟨unit, holds, rfl⟩ := next.rooted.mem_pending_iff.mp present
        obtain ⟨inside, about⟩ := reports.begun absent holds
        rw [about]
        exact .pending (List.mem_append_right _ inside) holds
      · rw [reports.silent ⟨fun held => absurd held absent, fun held => absurd held present⟩]
        exact .untold present
  | @pending unit inside holds =>
      by_cases present : unit.id ∈ after.pending
      · rw [reports.silent ⟨fun _ => present, fun _ => holds.mem⟩]
        exact .pending (List.mem_append_left _ inside) (reports.stays holds present)
      · rcases reports.ended holds present with ⟨taken, about⟩ | ⟨left, about⟩
        · rw [about]
          exact .accepted (List.mem_append_right _ taken)
        · rw [about]
          refine .rejected (List.mem_append_left _ inside) present ?_
          refine tells.turn.barred sound holds (fun held => present held.mem) fun accepted => ?_
          rcases List.mem_append.mp accepted with old | new
          · exact (sound.rooted.settled old).1 holds.mem
          · exact left new
  | @accepted unit inside =>
      have settled := (sound.rooted.settled inside).1
      have still := (next.rooted.settled (List.mem_append_left _ inside)).1
      rw [reports.silent ⟨fun held => absurd held settled, fun held => absurd held still⟩]
      exact .accepted (List.mem_append_left _ inside)
  | @rejected unit inside gone barred =>
      have later := barred.turn sound next tells.turn
      have absent : unit.id ∉ after.pending := by
        intro present
        obtain ⟨other, holds, same⟩ := next.rooted.mem_pending_iff.mp present
        obtain ⟨new, -⟩ := reports.begun (same ▸ gone) holds
        have only := unique unit (List.mem_append_left _ inside) other
          (List.mem_append_right _ new) rfl same
        exact later.notHolds (only ▸ holds)
      rw [reports.silent ⟨fun held => absurd held gone, fun held => absurd held absent⟩]
      exact .rejected (List.mem_append_left _ inside) absent later

/-- The last that was told of a unit is that it was verified just if it is pending. -/
def Current (chain : ChainId) (manager : Manager) (events : List Event) : Prop :=
  ∀ id, id ∈ manager.pending ↔
    ∃ height kind, (Event.about id events).getLast? = some (.verified chain id height kind)

theorem Current.next (current : Current chain manager earlier)
    (sound : manager.Sound origin store accepted)
    (next : after.Sound origin other (accepted ++ further))
    (tells : manager.Tells store given after further events)
    (own : manager.config.chain = chain) : Current chain after (earlier ++ events) := by
  have reports := tells.reports sound own
  intro id
  rw [Event.about_append]
  by_cases before : id ∈ manager.pending
  · by_cases present : id ∈ after.pending
    · rw [reports.silent ⟨fun _ => present, fun _ => before⟩, List.append_nil]
      simp only [present, true_iff]
      exact (current id).mp before
    · obtain ⟨unit, holds, rfl⟩ := sound.rooted.mem_pending_iff.mp before
      simp only [present, false_iff, not_exists]
      intro height kind last
      rcases reports.ended holds present with ⟨-, about⟩ | ⟨-, about⟩
      · rw [about, List.getLast?_concat] at last
        cases last
      · rw [about, List.getLast?_concat] at last
        cases last
  · by_cases present : id ∈ after.pending
    · obtain ⟨unit, holds, rfl⟩ := next.rooted.mem_pending_iff.mp present
      rw [(reports.begun before holds).2, List.getLast?_concat]
      simp only [present, true_iff]
      exact ⟨unit.height, unit.kind, rfl⟩
    · rw [reports.silent ⟨fun held => absurd held before, fun held => absurd held present⟩,
        List.append_nil]
      simp only [present, false_iff]
      exact fun told => before ((current id).mpr told)

end Told

end Manager

section Run

variable {ω : Type} {host : LawfulHost ω} {config : Configuration} {origin : StateUpdates}

def Request.events (requests : List Request) : List Event :=
  requests.filterMap Request.event?

theorem Request.events_append (earlier later : List Request) :
    events (earlier ++ later) = events earlier ++ events later :=
  List.filterMap_append

theorem Request.events_published (events : List Event) :
    Request.events (events.map .published) = events := by
  rw [Request.events, List.filterMap_map]
  exact List.filterMap_some

theorem Request.events_delivered (chain : ChainId) (units : List DecisionUnit) :
    Request.events (units.map (.delivered chain)) = [] := by
  rw [Request.events, List.filterMap_map, List.filterMap_eq_nil_iff]
  exact fun _ _ => rfl

variable {accepted : List DecisionUnit}

theorem LawfulHost.events_settled (host : LawfulHost ω) (chain : ChainId)
    (units : List DecisionUnit) (events : List Event) (batch : Batch) (world : ω)
    (requests : List Request) :
    Request.events (host.journal.watched.deliverAll chain units
        (host.journal.watched.publishAll events (world, requests ++ [.wrote batch]))).2.2 =
      Request.events requests ++ events := by
  have silent : Request.events [.wrote batch] = [] := rfl
  have noted := journal_deliverAll host chain units
    (host.journal.watched.publishAll events (world, requests ++ [.wrote batch]))
  rw [journal_publishAll] at noted
  rw [noted]
  simp only [Request.events_append, Request.events_published, Request.events_delivered, silent,
    List.append_nil]

theorem Manager.Sound.tells_accept {manager : Manager} {world : ω × List Request}
    (sound : manager.Sound origin (host.store world.1) accepted) (unit : UnitId) :
    ∃ events, manager.Tells (host.store world.1) []
        (manager.accept host.journal.watched unit world).2.1
        ((Step.accept unit : Step host).committed (manager, world.1)) events ∧
      Request.events (manager.accept host.journal.watched unit world).2.2.2 =
        Request.events world.2 ++ events := by
  have same : host.journal.watched.store world = host.store world.1 := rfl
  unfold Manager.accept
  dsimp only [Step.committed]
  rw [same]
  cases manager.ensureRunning with
  | error error => exact ⟨[], .rest, (List.append_nil _).symm⟩
  | ok done =>
      cases planned : manager.plan (host.store world.1) unit with
      | error error => exact ⟨[], .rest, (List.append_nil _).symm⟩
      | ok plan =>
          obtain ⟨decided, -, plans⟩ := sound.rooted.plan_cases sound.records.toLists planned
          dsimp only
          cases wrote : host.write plan.batch world.1 with
          | error problem =>
              have failed : host.journal.watched.write plan.batch world = .error problem := by
                simp [LawfulHost.journal, wrote]
              rw [failed]
              refine ⟨_, .halt (.commitFailed problem) .rest, ?_⟩
              dsimp only
              rw [LawfulHost.journal_publishAll, Request.events_append, Request.events_published]
              rfl
          | ok written =>
              have stored : host.journal.watched.write plan.batch world =
                  .ok (written, world.2 ++ [.wrote plan.batch]) := by
                simp [LawfulHost.journal, wrote]
              rw [stored]
              dsimp only
              have told := LawfulHost.events_settled host manager.config.chain
                (plan.accepted.map (·.unit)) (manager.settle plan).2 plan.batch written world.2
              cases heard : host.journal.watched.deliverAll manager.config.chain
                  (plan.accepted.map (·.unit)) (host.journal.watched.publishAll
                    (manager.settle plan).2 (written, world.2 ++ [.wrote plan.batch])) with
              | mk failed delivered =>
                  rw [heard] at told
                  cases failed with
                  | none => exact ⟨_, .settle plans, told⟩
                  | some failures =>
                      dsimp only
                      split
                      · refine ⟨_, .halt (.listenerFailed failures) (.settle plans), ?_⟩
                        rw [LawfulHost.journal_publishAll, Request.events_append,
                          Request.events_published, told, List.append_assoc]
                      · exact ⟨_, .settle plans, told⟩

/-- Every step announces what becomes of the units in it. -/
theorem Step.tells (step : Step host) (situation : Manager × ω × List Request)
    (sound : situation.1.Sound origin (host.store situation.2.1) accepted) :
    ∃ events, situation.1.Tells (host.store situation.2.1) step.given
        ((host.journal.lift step).perform situation).1
        (step.committed (Observer.bare situation)) events ∧
      Request.events ((host.journal.lift step).perform situation).2.2 =
        Request.events situation.2.2 ++ events := by
  obtain ⟨manager, world⟩ := situation
  have concluded {outcome : Manager × List Event} :
      Request.events (conclude host.journal.lawful (manager, world) (.ok outcome)).2.2 =
        Request.events world.2 ++ outcome.2 := by
    dsimp only [conclude]
    have noted : (host.journal.lawful.publishAll outcome.2 world).2 = _ :=
      LawfulHost.journal_publishAll outcome.2 world
    rw [noted, Request.events_append, Request.events_published]
  cases step with
  | accept unit => exact sound.tells_accept unit
  | drift change kept => exact ⟨[], .rest, (List.append_nil _).symm⟩
  | verify unit =>
      have same : host.journal.lawful.store world = host.store world.1 := rfl
      dsimp only [Observer.lift, perform]
      rw [same]
      cases done : manager.verify (host.store world.1) unit with
      | error error => exact ⟨[], .rest, (List.append_nil _).symm⟩
      | ok outcome => exact ⟨outcome.2, .of_verify done, concluded⟩
  | reject unit =>
      dsimp only [Observer.lift, perform]
      cases done : manager.reject unit with
      | error error => exact ⟨[], .rest, (List.append_nil _).symm⟩
      | ok outcome => exact ⟨outcome.2, .of_reject done, concluded⟩

variable {accepted : List DecisionUnit}

/-- The events that a manager has published in some steps. -/
def Tenure.events (tenure : Tenure host config origin) (steps : List (Step host)) : List Event :=
  Request.events (host.journal.run tenure [] steps).2.2

/-- The units that a manager was given to verify in some steps. -/
def Step.givenAll (steps : List (Step host)) : List DecisionUnit :=
  steps.flatMap Step.given

/-- The events of a run are in step with the manager and with what it committed. -/
structure Tenure.Heralds (tenure : Tenure host config origin) (first : List DecisionUnit)
    (steps : List (Step host)) : Prop where
  sound : (tenure.run steps).1.Sound origin (host.store (tenure.run steps).2)
    (first ++ tenure.committed steps)
  named : (tenure.run steps).1.config = config
  current : (tenure.run steps).1.Current config.chain (tenure.events steps)
  accepted : (tenure.events steps).filter Event.isAcceptance =
    (tenure.committed steps).map (Event.accept config.chain)
  told : ∀ {id : UnitId}, (∀ unit ∈ Step.givenAll steps, ∀ other ∈ Step.givenAll steps,
      unit.id = id → other.id = id → unit = other) →
    Manager.Told config.chain (Step.givenAll steps) (tenure.run steps).1
      (first ++ tenure.committed steps) id (Event.about id (tenure.events steps))

theorem Tenure.events_concat (tenure : Tenure host config origin) (steps : List (Step host))
    (step : Step host) {first : List DecisionUnit}
    (sound : (tenure.run steps).1.Sound origin (host.store (tenure.run steps).2) first) :
    ∃ events, tenure.events (steps ++ [step]) = tenure.events steps ++ events ∧
      (tenure.run steps).1.Tells (host.store (tenure.run steps).2) step.given
        (tenure.run (steps ++ [step])).1 (step.committed (tenure.run steps)) events := by
  have bare := host.journal.bare_runTenure tenure [] steps
  have moved := host.journal.bare_runTenure tenure [] (steps ++ [step])
  rw [← bare] at sound ⊢
  rw [← moved, Observer.run_concat]
  obtain ⟨events, tells, published⟩ := step.tells (host.journal.run tenure [] steps) sound
  refine ⟨events, ?_, tells⟩
  rw [Tenure.events, Observer.run_concat]
  exact published

theorem Tenure.heralds (tenure : Tenure host config origin) :
    ∃ first, (tenure.manager.Sound origin (host.store tenure.world) first) ∧
      ∀ steps, tenure.Heralds first steps := by
  obtain ⟨first, tip, fresh, sound⟩ := tenure.begins
  refine ⟨first, sound, fun steps => ?_⟩
  have begun : (tenure.run []).1 = .initial config tip := fresh
  have empty (id : UnitId) : id ∉ (tenure.run []).1.pending := by
    rw [begun]
    exact Std.ExtTreeMap.not_mem_empty
  induction steps using List.reverseRecOn with
  | nil =>
      refine ⟨?_, by rw [begun]; rfl, fun id => ?_, rfl, fun _ => .untold (empty _)⟩
      · have none : tenure.committed [] = [] := rfl
        rw [none, List.append_nil]
        exact sound
      · have silent : Event.about id (tenure.events []) = [] := rfl
        simp [empty id, silent]
  | append_singleton steps step ih =>
      have own := congrArg Configuration.chain ih.named
      obtain ⟨events, published, tells⟩ := tenure.events_concat steps step ih.sound
      have further : tenure.committed (steps ++ [step]) =
          tenure.committed steps ++ step.committed (tenure.run steps) :=
        Step.committedAll_concat steps step _
      have given : Step.givenAll (steps ++ [step]) = Step.givenAll steps ++ step.given := by
        rw [Step.givenAll, List.flatMap_append, List.flatMap_singleton]
        rfl
      have performed : tenure.run (steps ++ [step]) = step.perform (tenure.run steps) :=
        Step.run_concat steps step _
      have next : (tenure.run (steps ++ [step])).1.Sound origin
          (host.store (tenure.run (steps ++ [step])).2)
          ((first ++ tenure.committed steps) ++ step.committed (tenure.run steps)) := by
        rw [performed]
        exact step.sound_committed (tenure.run steps) ih.sound
      refine ⟨?_, (tells.turn.config_eq ih.sound).trans ih.named, ?_, ?_, fun unique => ?_⟩
      · rw [further, ← List.append_assoc]
        exact next
      · rw [published]
        exact ih.current.next ih.sound next tells own
      · rw [published, List.filter_append, ih.accepted, tells.acceptances ih.sound own, further,
          List.map_append]
      · rw [given] at unique ⊢
        have before := ih.told fun unit inside other among =>
          unique unit (List.mem_append_left _ inside) other (List.mem_append_left _ among)
        rw [published, Event.about_append, further, ← List.append_assoc]
        exact before.next ih.sound next tells own unique

/-- What the events of a run say, and what they say of the next call. -/
structure Broadcast (tenure : Tenure host config origin) (steps : List (Step host)) : Prop where
  /-- A unit is verified, and then at most once accepted or rejected, if no two units with its ID
  were given to the manager. -/
  story : ∀ id, (∀ unit ∈ Step.givenAll steps, ∀ other ∈ Step.givenAll steps,
      unit.id = id → other.id = id → unit = other) →
    Event.Story config.chain id (Event.about id (tenure.events steps))
  /-- The pending units are those of which nothing was said since they were verified. -/
  pending : ∀ id, id ∈ (tenure.run steps).1.pending ↔
    ∃ height kind, (Event.about id (tenure.events steps)).getLast? =
      some (.verified config.chain id height kind)
  /-- The units said to be accepted are those committed, in order. -/
  accepted : (tenure.events steps).filter Event.isAcceptance =
    (tenure.committed steps).map (Event.accept config.chain)
  /-- Their heights go up one by one. -/
  consecutive : Consecutive tenure.manager.lastAccepted (tenure.committed steps)
  /-- They are what the store holds beyond what it held at first. -/
  stored : ∀ id, (host.store (tenure.run steps).2).containsUnit id = true ↔
    (host.store tenure.world).containsUnit id = true ∨
      ∃ unit ∈ tenure.committed steps, unit.id = id
  /-- In the next step all rejections are published before any acceptance. -/
  ordered : ∀ step : Step host, ∃ before later,
    tenure.events (steps ++ [step]) = tenure.events steps ++ (before ++ later) ∧
      (∀ event ∈ before, event.isAcceptance = false) ∧
      ∀ event ∈ later, event.isRejection = false
  /-- An open channel keeps what is published for its receiver. -/
  received : ∀ hooked : Bool,
    ((Outlet.sendAll { channel := .open [], isHooked := hooked }
      (tenure.events steps)).drain).1 = tenure.events steps

theorem Outlet.channel_sendAll (outlet : Outlet) {waiting : List Event}
    (receives : outlet.channel = .open waiting) (events : List Event) :
    (outlet.sendAll events).channel = .open (waiting ++ events) := by
  induction events generalizing outlet waiting with
  | nil => simp [sendAll, receives]
  | cons event rest ih =>
      have sent : (outlet.send event).1.channel = .open (waiting ++ [event]) := by
        cases event <;> simp [send, receives, Channel.publish]
      rw [List.append_cons]
      exact ih _ sent

/-- In every run the published events tell the story of each unit, in step with the manager and with
what it committed. -/
theorem Tenure.broadcast_run (tenure : Tenure host config origin) (steps : List (Step host)) :
    Broadcast tenure steps := by
  obtain ⟨first, sound, heralds⟩ := tenure.heralds
  have now := heralds steps
  refine { story := fun id unique => (now.told unique).story, pending := now.current,
           accepted := now.accepted, consecutive := ?_, stored := ?_, ordered := ?_,
           received := ?_ }
  · refine now.sound.chronicle.consecutive sound.rooted.last sound.undecided ?_
    intro top last
    rw [now.sound.rooted.last] at last
    cases last
    exact now.sound.undecided
  · intro id
    rw [now.sound.records.containsUnit_iff, sound.records.containsUnit_iff]
    constructor
    · rintro ⟨unit, inside, same⟩
      exact (List.mem_append.mp inside).imp (fun old => ⟨unit, old, same⟩)
        fun new => ⟨unit, new, same⟩
    · rintro (⟨unit, old, same⟩ | ⟨unit, new, same⟩)
      · exact ⟨unit, List.mem_append_left _ old, same⟩
      · exact ⟨unit, List.mem_append_right _ new, same⟩
  · intro step
    obtain ⟨events, published, tells⟩ := tenure.events_concat steps step now.sound
    obtain ⟨before, later, rfl, accepts, rejects⟩ := tells.ordered now.sound
    exact ⟨before, later, published, accepts, rejects⟩
  · intro hooked
    have channel := Outlet.channel_sendAll { channel := .open [], isHooked := hooked } rfl
      (tenure.events steps)
    rw [Outlet.drain, channel]
    rfl

end Run

end DecisionLedger
