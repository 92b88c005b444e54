import DecisionLedger.Proofs.Hearings

/-! # Listeners hear what is accepted

From its registration to its deregistration a listener takes every unit that is accepted on its
chain, once and in order, whatever other listeners and the store do.
-/

namespace DecisionLedger

/-- Units accepted one after another on top of a decided unit, up to a decided one. -/
structure Consecutive (tip : DecisionUnit) (units : List DecisionUnit) : Prop where
  /-- Each is one higher than the one before. -/
  heights : units.map (·.height.toNat) = List.range' (tip.height.toNat + 1) units.length
  linked : (tip :: units).IsChain fun parent unit => unit.parent = parent.id
  distinct : (units.map (·.id)).Nodup
  /-- A proposal comes right before an option of it. -/
  decided : ∀ {position : Nat} {proposal : DecisionUnit}, units[position]? = some proposal →
    proposal.kind = .proposal →
    ∃ option, units[position + 1]? = some option ∧ option.kind.isOption = true ∧
      option.parent = proposal.id
  /-- An option comes right after its proposal. -/
  proposed : ∀ {position : Nat} {option : DecisionUnit}, units[position]? = some option →
    option.kind.isOption = true →
    ∃ above proposal, position = above + 1 ∧ units[above]? = some proposal ∧
      proposal.kind = .proposal ∧ option.parent = proposal.id

section Consecutive

variable {tip : DecisionUnit} {earlier later : List DecisionUnit}

/-- What a chronicle goes on with between two decided units is consecutive. -/
theorem Chronicle.consecutive (chronicle : Chronicle (earlier ++ later))
    (last : earlier.getLast? = some tip) (undecided : tip.kind ≠ .proposal)
    (closed : ∀ top, (earlier ++ later).getLast? = some top → top.kind ≠ .proposal) :
    Consecutive tip later := by
  obtain ⟨front, rfl⟩ := List.getLast?_eq_some_iff.mp last
  have linked : (tip :: later).IsChain fun parent unit => unit.Extends parent := by
    have whole := chronicle.linked
    rw [List.append_assoc] at whole
    exact whole.right_of_append
  have high (position : Nat) (inside : position < later.length) :
      later[position].height.toNat = tip.height.toNat + 1 + position := by
    have below : (front ++ [tip] ++ later)[front.length]? = some tip := by simp
    have here : (front ++ [tip] ++ later)[front.length + 1 + position]? =
        some later[position] := by
      rw [List.getElem?_append_right (by simp)]
      simp [List.getElem?_eq_getElem inside]
    have lower := (chronicle.getElem?_eq_some_iff.mp below).2
    have higher := (chronicle.getElem?_eq_some_iff.mp here).2
    omega
  have follows {position : Nat} (inside : position + 1 < later.length) :
      later[position + 1].Extends later[position] :=
    (List.isChain_cons.mp linked).2.getElem position inside
  refine { heights := ?_, linked := linked.imp fun _ _ follows => follows.parent_eq,
           distinct := ?_, decided := ?_, proposed := ?_ }
  · apply List.ext_getElem (by simp)
    intro position left right
    rw [List.getElem_map, List.getElem_range', high]
    omega
  · have distinct := chronicle.distinct
    rw [List.map_append] at distinct
    exact distinct.of_append_right
  · intro position proposal found kind
    obtain ⟨inside, rfl⟩ := List.getElem?_eq_some_iff.mp found
    have more : position + 1 < later.length := by
      by_contra final
      refine closed later[position] ?_ kind
      rw [List.getLast?_append, List.getLast?_eq_getElem?,
        show later.length - 1 = position by omega, found]
      rfl
    have above := follows more
    exact ⟨later[position + 1], List.getElem?_eq_getElem more, above.option_iff.mpr kind,
      above.parent_eq⟩
  · intro position option found kind
    obtain ⟨inside, rfl⟩ := List.getElem?_eq_some_iff.mp found
    cases position with
    | zero =>
        have first : later.head? = some later[0] := by rw [List.head?_eq_getElem?, found]
        exact absurd (((List.isChain_cons.mp linked).1 _ first).option_iff.mp kind) undecided
    | succ above =>
        have below := follows inside
        exact ⟨above, later[above], rfl, List.getElem?_eq_getElem _, below.option_iff.mp kind,
          below.parent_eq⟩

end Consecutive

/-- A run of a manager whose units go to a listener group, on which listeners of any chain may be
registered and deregistered between the calls, while only the manager notifies those of its own. -/
structure Audition {ℓ ω : Type} (host : GroupHost ℓ ω) (config : Configuration)
    (origin : StateUpdates) where
  tenure : Tenure host.toLawfulHost config origin
  steps : List (Step host.toLawfulHost)
  ticketed : (host.group tenure.world).Ticketed
  orderly : ∀ {moment : Nat} {change : ω → ω} {kept}, steps[moment]? = some (.drift change kept) →
    let world := (tenure.run (steps.take moment)).2
    (host.group world).Changes config.chain (host.group (change world))

namespace Audition

variable {ℓ ω : Type} {host : GroupHost ℓ ω} {config : Configuration} {origin : StateUpdates}
  (audition : Audition host config origin)

/-- The manager, its world and all calls of listeners after some of the steps. -/
def after (moment : Nat) : Manager × ω × List Hearing :=
  host.audit.run audition.tenure [] (audition.steps.take moment)

def group (moment : Nat) : Registry ℓ :=
  host.group (audition.after moment).2.1

/-- The units in the store after some of the steps, up to the last accepted one. -/
def committed (moment : Nat) : Option (List DecisionUnit) :=
  (host.store (audition.after moment).2.1).acceptedUpTo?
    (audition.after moment).1.lastAccepted.height

/-- The units passed to the listener of a ticket in some of the steps. -/
def heard (moment : Nat) (ticket : Nat) : List DecisionUnit :=
  ((audition.after moment).2.2.filter (·.ticket = ticket)).map (·.unit)

theorem after_succ {moment : Nat} {step : Step host.toLawfulHost}
    (taken : audition.steps[moment]? = some step) :
    audition.after (moment + 1) = (host.audit.lift step).perform (audition.after moment) := by
  rw [after, List.take_add_one, taken, Option.toList_some, Observer.run_concat]
  rfl

theorem sound_after (moment : Nat) :
    ∃ accepted, (audition.after moment).1.Sound origin
      (host.store (audition.after moment).2.1) accepted :=
  host.audit.sound_run audition.tenure [] _

theorem config_after (moment : Nat) : (audition.after moment).1.config = config := by
  have same := audition.tenure.config_run (audition.steps.take moment)
  rwa [← host.audit.bare_runTenure audition.tenure []] at same

/-- In a step everyone registered hears of what is accepted, and the group only evolves. -/
theorem progress {moment : Nat} (more : moment < audition.steps.length) :
    ∃ accepted further,
      (audition.after moment).1.Sound origin (host.store (audition.after moment).2.1) accepted ∧
      (audition.after (moment + 1)).1.Sound origin
        (host.store (audition.after (moment + 1)).2.1) (accepted ++ further) ∧
      (audition.after (moment + 1)).2.2 = (audition.after moment).2.2 ++
        further.flatMap ((audition.group moment).calls config.chain) ∧
      (audition.group moment).Evolves (audition.group (moment + 1)) ∧
      ((audition.group moment).Ticketed → (audition.group (moment + 1)).Ticketed) := by
  have taken := List.getElem?_eq_getElem more
  generalize audition.steps[moment] = step at taken
  obtain ⟨accepted, sound⟩ := audition.sound_after moment
  obtain ⟨further, -, next⟩ :=
    (host.audit.lift step).turn_perform (audition.after moment) sound
  refine ⟨accepted, further, sound, ?_⟩
  rw [group, group, audition.after_succ taken]
  refine ⟨next, ?_⟩
  rcases Call.exists_step step with ⟨call, rfl⟩ | ⟨change, kept, rfl⟩
  · rw [Call.lift_step] at next ⊢
    have outcome := call.outcome host.audit.lawful _ sound.records.toLists
    have heard := outcome.hears sound next
    rw [audition.config_after] at heard
    have roster := call.roster_step host (Observer.bare (audition.after moment))
      sound.records.toLists
    rw [← host.audit.bare_perform, Call.lift_step] at roster
    exact ⟨heard, .of_roster roster.symm, fun ticketed => ticketed.of_roster roster.symm⟩
  · have changes := audition.orderly taken
    rw [← host.audit.bare_runTenure audition.tenure []] at changes
    obtain rfl := sound.further_eq_nil next rfl
    exact ⟨(List.append_nil _).symm, changes.evolves, changes.ticketed⟩

theorem ticketed_group {moment : Nat} (reached : moment ≤ audition.steps.length) :
    (audition.group moment).Ticketed := by
  induction moment with
  | zero => exact audition.ticketed
  | succ moment ih =>
      obtain ⟨-, -, -, -, -, -, ticketed⟩ := audition.progress reached
      exact ticketed (ih (Nat.le_of_succ_le reached))

theorem evolves_group {early late : Nat} (order : early ≤ late)
    (reached : late ≤ audition.steps.length) :
    (audition.group early).Evolves (audition.group late) := by
  induction late, order using Nat.le_induction with
  | base => exact .refl _
  | succ late order ih =>
      obtain ⟨-, -, -, -, -, evolves, -⟩ := audition.progress reached
      exact (ih (Nat.le_of_succ_le reached)).trans evolves

theorem committed_eq {moment : Nat} {accepted : List DecisionUnit}
    (sound : (audition.after moment).1.Sound origin (host.store (audition.after moment).2.1)
      accepted) : audition.committed moment = some accepted :=
  sound.records.acceptedUpTo?_eq sound.chronicle sound.rooted.last

theorem heard_succ {moment : Nat} (more : moment < audition.steps.length) (ticket : Nat) :
    ∃ accepted further, audition.committed moment = some accepted ∧
      audition.committed (moment + 1) = some (accepted ++ further) ∧
      ((audition.group moment).Serves config.chain ticket →
        audition.heard (moment + 1) ticket = audition.heard moment ticket ++ further) ∧
      (¬(audition.group moment).Serves config.chain ticket →
        audition.heard (moment + 1) ticket = audition.heard moment ticket) := by
  obtain ⟨accepted, further, sound, next, heard, -, -⟩ := audition.progress more
  have ticketed := audition.ticketed_group (Nat.le_of_lt more)
  refine ⟨accepted, further, audition.committed_eq sound, audition.committed_eq next, ?_, ?_⟩
  · intro serves
    rw [Audition.heard, heard, List.filter_append, List.map_append, List.filter_flatMap]
    simp only [ticketed.filter_calls_of_serves serves]
    simp [Audition.heard, List.map_flatMap]
  · intro idle
    rw [Audition.heard, heard, List.filter_append, List.map_append, List.filter_flatMap]
    simp only [Registry.filter_calls_of_not_serves idle]
    simp [Audition.heard]

/-- A ticket serves from one moment of the run on, up to another one, and what its listener has
heard by a third one is what was committed in between. -/
structure Spell (ticket moment first past : Nat) : Prop where
  ordered : first ≤ past
  begun : first ≤ moment
  ended : past ≤ moment + 1
  serves : ∀ other ≤ moment, (audition.group other).Serves config.chain ticket ↔
    first ≤ other ∧ other < past
  heard : ∃ accepted, audition.committed first = some accepted ∧
    audition.committed (min past moment) = some (accepted ++ audition.heard moment ticket)

section Spell

variable {audition} {ticket moment first past : Nat}

theorem Spell.of_serving (spell : audition.Spell ticket moment first past)
    (more : moment < audition.steps.length)
    (serving : (audition.group moment).Serves config.chain ticket) :
    ∃ later, audition.Spell ticket (moment + 1) first later := by
  obtain ⟨accepted, further, before, after, heard, -⟩ := audition.heard_succ more ticket
  obtain ⟨started, committed, told⟩ := spell.heard
  have inside := (spell.serves moment (Nat.le_refl _)).mp serving
  have ended := spell.ended
  -- a spell that includes the last moment is still open, so it takes in what this step commits
  obtain rfl : past = moment + 1 := by omega
  rw [Nat.min_eq_right (Nat.le_succ _), before, Option.some.injEq] at told
  have total : audition.committed (moment + 1) =
      some (started ++ audition.heard (moment + 1) ticket) := by
    rw [after, heard serving, told, List.append_assoc]
  by_cases still : (audition.group (moment + 1)).Serves config.chain ticket
  · refine ⟨moment + 2, by omega, by omega, by omega, fun other reached => ?_, started, committed,
      ?_⟩
    · rcases Nat.lt_or_eq_of_le reached with earlier | rfl
      · rw [spell.serves other (by omega)]
        omega
      · simp only [still, true_iff]
        omega
    · rw [Nat.min_eq_right (by omega)]
      exact total
  · refine ⟨moment + 1, by omega, by omega, by omega, fun other reached => ?_, started, committed,
      ?_⟩
    · rcases Nat.lt_or_eq_of_le reached with earlier | rfl
      · exact spell.serves other (by omega)
      · simp [still]
    · rw [Nat.min_eq_right (by omega)]
      exact total

theorem Spell.of_idle (spell : audition.Spell ticket moment first past)
    (more : moment < audition.steps.length)
    (idle : ¬(audition.group moment).Serves config.chain ticket) :
    ∃ sooner later, audition.Spell ticket (moment + 1) sooner later := by
  obtain ⟨accepted, further, -, after, -, silent⟩ := audition.heard_succ more ticket
  obtain ⟨started, committed, told⟩ := spell.heard
  have begun := spell.begun
  have closed : past ≤ moment := by
    by_contra remains
    exact idle ((spell.serves moment (Nat.le_refl _)).mpr ⟨begun, by omega⟩)
  by_cases serving : (audition.group (moment + 1)).Serves config.chain ticket
  · -- the ticket was issued in this step, so the spell before it was empty
    have fresh : (audition.group moment).nextTicket ≤ ticket := by
      by_contra issued
      have evolves := audition.evolves_group (Nat.le_succ moment) more
      exact idle (evolves.serves (by omega) serving)
    have never : ∀ other ≤ moment, ¬(audition.group other).Serves config.chain ticket := by
      intro other earlier served
      have issued := (audition.ticketed_group (by omega)).lt_of_serves served
      have grows := (audition.evolves_group earlier (Nat.le_of_lt more)).grows
      omega
    have empty : audition.heard moment ticket = [] := by
      obtain rfl : first = past := by
        by_contra apart
        have ordered := spell.ordered
        exact never first begun ((spell.serves first begun).mpr ⟨Nat.le_refl _, by omega⟩)
      rw [Nat.min_eq_left closed, committed, Option.some.injEq] at told
      exact List.append_right_eq_self.mp told.symm
    refine ⟨moment + 1, moment + 2, by omega, by omega, by omega, fun other reached => ?_,
      accepted ++ further, after, ?_⟩
    · rcases Nat.lt_or_eq_of_le reached with earlier | rfl
      · have unserved := never other (by omega)
        simp only [unserved, false_iff]
        omega
      · simp [serving]
    · rw [Nat.min_eq_right (by omega), silent idle, empty, List.append_nil]
      exact after
  · refine ⟨first, past, spell.ordered, by omega, by omega, fun other reached => ?_, started,
      committed, ?_⟩
    · rcases Nat.lt_or_eq_of_le reached with earlier | rfl
      · exact spell.serves other (by omega)
      · simp only [serving, false_iff]
        omega
    · rw [silent idle, Nat.min_eq_left (by omega)]
      rwa [Nat.min_eq_left closed] at told

end Spell

/-- By any moment of the run, a ticket has had one spell at most. -/
theorem exists_spell (ticket : Nat) {moment : Nat} (reached : moment ≤ audition.steps.length) :
    ∃ first past, audition.Spell ticket moment first past := by
  induction moment with
  | zero =>
      obtain ⟨accepted, sound⟩ := audition.sound_after 0
      have silent : audition.heard 0 ticket = [] := rfl
      have told : audition.committed 0 = some (accepted ++ audition.heard 0 ticket) := by
        rw [silent, List.append_nil]
        exact audition.committed_eq sound
      by_cases serving : (audition.group 0).Serves config.chain ticket
      · refine ⟨0, 1, by omega, by omega, by omega, fun other start => ?_, accepted,
          audition.committed_eq sound, told⟩
        obtain rfl := Nat.le_zero.mp start
        simp [serving]
      · refine ⟨0, 0, by omega, by omega, by omega, fun other start => ?_, accepted,
          audition.committed_eq sound, told⟩
        obtain rfl := Nat.le_zero.mp start
        simp [serving]
  | succ moment ih =>
      obtain ⟨first, past, spell⟩ := ih (Nat.le_of_succ_le reached)
      by_cases serving : (audition.group moment).Serves config.chain ticket
      · obtain ⟨later, longer⟩ := spell.of_serving reached serving
        exact ⟨first, later, longer⟩
      · exact spell.of_idle reached serving

theorem consecutive_of_committed {early late : Nat} {earlier later : List DecisionUnit}
    (before : audition.committed early = some earlier)
    (after : audition.committed late = some (earlier ++ later)) :
    ∃ tip, earlier.getLast? = some tip ∧ Consecutive tip later := by
  obtain ⟨accepted, start⟩ := audition.sound_after early
  rw [audition.committed_eq start, Option.some.injEq] at before
  subst before
  obtain ⟨total, stop⟩ := audition.sound_after late
  rw [audition.committed_eq stop, Option.some.injEq] at after
  subst after
  refine ⟨_, start.rooted.last, stop.chronicle.consecutive start.rooted.last start.undecided ?_⟩
  intro top last
  rw [stop.rooted.last, Option.some.injEq] at last
  exact last ▸ stop.undecided

theorem registration_unique {early late : Nat} (order : early ≤ late)
    (reached : late ≤ audition.steps.length) {left right : Registration ℓ}
    (inside : left ∈ (audition.group early).registrations)
    (held : right ∈ (audition.group late).registrations) (same : left.ticket = right.ticket) :
    left.Becomes right := by
  have ticketed := audition.ticketed_group (order.trans reached)
  rcases (audition.evolves_group order reached).origin right held with
    fresh | ⟨earlier, known, becomes⟩
  · have issued := ticketed.below left inside
    omega
  · rw [ticketed.eq_of_ticket inside known (same.trans becomes.ticket_eq)]
    exact becomes

/-- A manager passes what it accepts to the listeners of its chain. -/
structure Delivers : Prop where
  /-- The calls of listeners were noted in a run as it is. -/
  bare : ∀ moment, Observer.bare (audition.after moment) =
    audition.tenure.run (audition.steps.take moment)
  /-- In each step, every unit that is committed is passed to everyone registered, in order. -/
  calls : ∀ {moment : Nat}, moment < audition.steps.length → ∃ accepted further,
    audition.committed moment = some accepted ∧
    audition.committed (moment + 1) = some (accepted ++ further) ∧
    (audition.after (moment + 1)).2.2 = (audition.after moment).2.2 ++
      further.flatMap ((audition.group moment).calls config.chain)
  /-- A failed write passes nothing to anyone. -/
  unwritten : ∀ {unit : UnitId} {plan : AcceptPlan} {problem : WriteError} (moment : Nat),
    let (manager, world, heard) := audition.after moment
    manager.plan (host.store world) unit = .ok plan → host.write plan.batch world = .error problem →
    ((Step.accept unit : Step host.audit.lawful).perform (audition.after moment)).2.2 = heard
  /-- A ticket is that of one registration of one listener. -/
  tickets : ∀ {early late : Nat} {left right : Registration ℓ}, early ≤ late →
    late ≤ audition.steps.length → left ∈ (audition.group early).registrations →
    right ∈ (audition.group late).registrations → left.ticket = right.ticket → left.Becomes right
  /-- A listener is registered for a while, and hears what is committed in that while. -/
  heard : ∀ ticket : Nat, ∃ first past, first ≤ past ∧
    (∀ moment ≤ audition.steps.length,
      (audition.group moment).Serves config.chain ticket ↔ first ≤ moment ∧ moment < past) ∧
    ∃ accepted tip units, audition.committed first = some accepted ∧
      accepted.getLast? = some tip ∧ audition.committed past = some (accepted ++ units) ∧
      audition.heard audition.steps.length ticket = units ∧ Consecutive tip units

/-- In any run, every listener of the chain hears what is accepted from its registration to its
deregistration. -/
theorem delivers_run : audition.Delivers := by
  refine { bare := ?_, calls := ?_, unwritten := ?_, tickets := ?_, heard := ?_ }
  · exact fun moment => host.audit.bare_runTenure audition.tenure [] _
  · intro moment more
    obtain ⟨accepted, further, sound, next, heard, -⟩ := audition.progress more
    exact ⟨accepted, further, audition.committed_eq sound, audition.committed_eq next, heard⟩
  · exact fun moment planned refused => host.silent_of_unwritten planned refused
  · intro early late left right order reached inside held same
    exact audition.registration_unique order reached inside held same
  · intro ticket
    obtain ⟨first, past, spell⟩ := audition.exists_spell ticket (Nat.le_refl _)
    obtain ⟨accepted, before, told⟩ := spell.heard
    have clipped : audition.after (min past audition.steps.length) = audition.after past := by
      rw [after, after, ← List.take_take, List.take_length]
    rw [committed, clipped] at told
    obtain ⟨tip, last, consecutive⟩ := audition.consecutive_of_committed before told
    exact ⟨first, past, spell.ordered, spell.serves, accepted, tip, _, before, last, told, rfl,
      consecutive⟩

end Audition

end DecisionLedger
