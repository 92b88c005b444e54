import DecisionLedger.Proofs.Rosters

/-! # What listeners answer

A registry counts for every listener how many notifications in a row it has failed to take.  If all
answers of the listeners are noted, the counters and the reported failures can be read off the
notes.
-/

namespace DecisionLedger

/-- What a listener answered when it was called through a registration. -/
structure Testimony extends Hearing where
  name : String
  /-- Why the listener did not take the unit, if it did not. -/
  problem : Option AcceptError
  /-- Whether the listener must not miss a unit. -/
  critical : Bool

/-- How many notifications in a row the listener of a ticket has failed to take, since the last one
that it took or since it was registered. -/
def streak (history : List Testimony) (ticket : Nat) : Nat :=
  ((history.filter (·.ticket = ticket)).reverse.takeWhile (·.problem.isSome)).length

/-- What is reported of an answer, if it is a failure. -/
def Testimony.failure? (testimony : Testimony) (consecutive : Nat) : Option ListenerFailure :=
  testimony.problem.map fun error =>
    { name := testimony.name, unit := testimony.unit.id, error, critical := testimony.critical,
      consecutive }

/-- What is reported of the answers that follow a history, each failure with its number in a row. -/
def reports (history : List Testimony) : List Testimony → List ListenerFailure
  | [] => []
  | testimony :: rest =>
    let noted := history ++ [testimony]
    (testimony.failure? (streak noted testimony.ticket)).toList ++ reports noted rest

section Streak

variable {further : List Testimony} {ticket : Nat}

/-- A failure counts up, and a success sets the count back. -/
theorem streak_concat (history : List Testimony) (testimony : Testimony) :
    streak (history ++ [testimony]) testimony.ticket =
      if testimony.problem.isSome then streak history testimony.ticket + 1 else 0 := by
  have own : (history ++ [testimony]).filter (·.ticket = testimony.ticket) =
      history.filter (·.ticket = testimony.ticket) ++ [testimony] := by
    simp
  rw [streak, own, List.reverse_append, List.reverse_singleton, List.singleton_append,
    List.takeWhile_cons]
  split <;> rfl

theorem streak_append_of_ne (history : List Testimony)
    (apart : ∀ testimony ∈ further, testimony.ticket ≠ ticket) :
    streak (history ++ further) ticket = streak history ticket := by
  have silent : further.filter (·.ticket = ticket) = [] := by simpa using apart
  rw [streak, List.filter_append, silent, List.append_nil, streak]

theorem streak_of_ne (apart : ∀ testimony ∈ further, testimony.ticket ≠ ticket) :
    streak further ticket = 0 :=
  streak_append_of_ne [] apart

theorem reports_append (history earlier later : List Testimony) :
    reports history (earlier ++ later) =
      reports history earlier ++ reports (history ++ earlier) later := by
  induction earlier generalizing history with
  | nil => simp [reports]
  | cons testimony rest ih => simp [reports, ih]

theorem reports_eq_nil_iff {history new : List Testimony} :
    reports history new = [] ↔ ∀ testimony ∈ new, testimony.problem = none := by
  induction new generalizing history with
  | nil => simp [reports]
  | cons testimony rest ih => simp [reports, ih, Testimony.failure?]

/-- Two failures, a success and a failure of one listener, between which another one succeeds. -/
example :
    let answer (ticket : Nat) (problem : Option AcceptError) : Testimony :=
      ⟨⟨ticket, 0, .genesis⟩, "listener", problem, true⟩
    (reports [] [answer 0 (some .closed), answer 1 none, answer 0 (some .closed), answer 0 none,
      answer 0 (some .closed)]).map (·.consecutive) = [1, 2, 1] := by
  rfl

end Streak

namespace NotifyError

/-- The error of a notification with the given failures, if there are any. -/
def gather (chain : ChainId) (failures : List ListenerFailure) : Option NotifyError :=
  if failures.isEmpty then none else some { chain, failures }

theorem merge_gather (chain : ChainId) (earlier later : List ListenerFailure) :
    merge (gather chain earlier) (gather chain later) = gather chain (earlier ++ later) := by
  cases earlier <;> cases later <;> simp [gather, merge]

theorem gather_eq_some_iff {chain : ChainId} {failures : List ListenerFailure}
    {error : NotifyError} :
    gather chain failures = some error ↔ failures ≠ [] ∧ error = { chain, failures } := by
  cases failures <;> simp [gather, eq_comm]

end NotifyError

namespace Registration

variable {ℓ : Type}

/-- A registration whose listener knows it, whatever has failed. -/
def attested (registration : Registration ℓ) : Registration (Registration ℓ) where
  ticket := registration.ticket
  chain := registration.chain
  name := registration.name
  listener := registration.settled
  draining := registration.draining
  failures := registration.failures

def answered (registration : Registration ℓ) (problem : Option AcceptError) : Registration ℓ :=
  { registration with
    failures := if problem.isSome then registration.failures + 1 else 0 }

/-- What is noted of an answer. -/
def testimony (registration : Registration ℓ) (chain : ChainId) (unit : DecisionUnit)
    (problem : Option AcceptError) (critical : Bool) : Testimony where
  ticket := registration.ticket
  chain
  unit
  name := registration.name
  problem
  critical

end Registration

/-- The same listeners, noting by registration what they answer. -/
def Listening.attesting {ℓ ω : Type} (listening : Listening ℓ ω) :
    Listening (Registration ℓ) (ω × List Testimony) where
  accept registration chain unit world :=
    let (problem, after) := listening.accept registration.listener chain unit world.1
    (problem, after, world.2 ++
      [registration.testimony chain unit problem (listening.critical registration.listener after)])
  critical registration world := listening.critical registration.listener world.1

namespace Registry

variable {ℓ ω : Type}

def attested (registry : Registry ℓ) : Registry (Registration ℓ) where
  registrations := registry.registrations.map (·.attested)
  nextTicket := registry.nextTicket

def unattested (registry : Registry (Registration ℓ)) : Registry ℓ where
  registrations := registry.registrations.map fun registration =>
    { ticket := registration.ticket, chain := registration.chain, name := registration.name,
      listener := registration.listener.listener, draining := registration.draining,
      failures := registration.failures }
  nextTicket := registry.nextTicket

@[simp] theorem unattested_attested (registry : Registry ℓ) :
    registry.attested.unattested = registry := by
  obtain ⟨registrations, nextTicket⟩ := registry
  simp [attested, unattested, Registration.attested, Registration.settled, Function.comp_def]

/-- How a notification goes: what those that are called answer, what is reported of it, and what
becomes of the registrations. -/
inductive Polled (chain : ChainId) (unit : DecisionUnit) : List (Registration ℓ) →
    List (Registration ℓ) → List ListenerFailure → List Testimony → Prop where
  | nil : Polled chain unit [] [] [] []
  | idle {registration : Registration ℓ} {rest notified failures new} :
      registration.isActiveOn chain = false → Polled chain unit rest notified failures new →
      Polled chain unit (registration :: rest) (registration :: notified) failures new
  | called {registration : Registration ℓ} {rest notified failures new} (problem critical) :
      registration.isActiveOn chain = true → Polled chain unit rest notified failures new →
      Polled chain unit (registration :: rest) (registration.answered problem :: notified)
        (((registration.testimony chain unit problem critical).failure?
          (registration.failures + 1)).toList ++ failures)
        (registration.testimony chain unit problem critical :: new)

section Notify

variable (listening : Listening ℓ ω) {chain : ChainId} {unit : DecisionUnit}

variable (chain unit) in
theorem notifyEach_attesting (registrations : List (Registration ℓ)) (world : ω)
    (history : List Testimony) :
    let (notified, failures, final) := notifyEach listening chain unit registrations world
    ∃ new, notifyEach listening.attesting chain unit (registrations.map (·.attested))
        (world, history) = (notified.map (·.attested), failures, final, history ++ new) ∧
      Polled chain unit registrations notified failures new := by
  induction registrations generalizing world history with
  | nil => exact ⟨[], by simp [notifyEach], .nil⟩
  | cons registration rest ih =>
      rw [List.map_cons, notifyEach, notifyEach]
      have same : registration.attested.isActiveOn chain = registration.isActiveOn chain := rfl
      rw [same]
      by_cases active : registration.isActiveOn chain = true
      · rw [if_pos active, if_pos active]
        cases taken : listening.accept registration.listener chain unit world with
        | mk problem after =>
            have noted : listening.attesting.accept registration.attested.listener chain unit
                (world, history) = (problem, after, history ++ [registration.testimony chain unit
                  problem (listening.critical registration.listener after)]) := by
              simp [Listening.attesting, Registration.attested, Registration.settled,
                Registration.testimony, taken]
            rw [noted]
            obtain ⟨new, told, polled⟩ := ih after (history ++ [registration.testimony chain unit
              problem (listening.critical registration.listener after)])
            dsimp only at told ⊢
            rw [told]
            have called := Polled.called problem
              (listening.critical registration.listener after) active polled
            rw [List.append_assoc]
            cases problem <;> exact ⟨_, rfl, called⟩
      · rw [if_neg active, if_neg active]
        obtain ⟨new, told, polled⟩ := ih world history
        dsimp only
        rw [told]
        exact ⟨new, rfl, .idle (eq_false_of_ne_true active) polled⟩

theorem notify_attesting (registry : Registry ℓ) (world : ω) (history : List Testimony) :
    let told := registry.notify listening chain unit world
    ∃ failures new, registry.attested.notify listening.attesting chain unit (world, history) =
        (told.1, told.2.1.attested, told.2.2, history ++ new) ∧
      told.1 = NotifyError.gather chain failures ∧
      Polled chain unit registry.registrations told.2.1.registrations failures new := by
  obtain ⟨new, told, polled⟩ :=
    notifyEach_attesting listening chain unit registry.registrations world history
  refine ⟨_, new, ?_, rfl, polled⟩
  rw [notify, attested, told]
  rfl

end Notify

section Polled

variable {chain : ChainId} {unit : DecisionUnit} {registrations notified : List (Registration ℓ)}
  {failures : List ListenerFailure} {history new : List Testimony}

theorem Polled.hearings (polled : Polled chain unit registrations notified failures new) :
    new.map (·.toHearing) = (registrations.filter (·.isActiveOn chain)).map fun registration =>
      ⟨registration.ticket, chain, unit⟩ := by
  induction polled with
  | nil => rfl
  | idle idle _ ih => rw [ih, List.filter_cons_of_neg (by simp [idle])]
  | called problem critical active _ ih =>
      rw [List.map_cons, ih, List.filter_cons_of_pos (by exact active)]
      rfl

theorem Polled.exists_registration
    (polled : Polled chain unit registrations notified failures new) :
    ∀ testimony ∈ new, ∃ registration ∈ registrations,
      registration.ticket = testimony.ticket ∧ registration.name = testimony.name := by
  induction polled with
  | nil => simp
  | idle _ _ ih =>
      intro testimony inside
      obtain ⟨registration, held, same⟩ := ih testimony inside
      exact ⟨registration, List.mem_cons_of_mem _ held, same⟩
  | called problem critical _ _ ih =>
      intro testimony inside
      rcases List.mem_cons.mp inside with rfl | inside
      · exact ⟨_, List.mem_cons_self, rfl, rfl⟩
      · obtain ⟨registration, held, same⟩ := ih testimony inside
        exact ⟨registration, List.mem_cons_of_mem _ held, same⟩

theorem Polled.ticket_ne (polled : Polled chain unit registrations notified failures new)
    {ticket : Nat} (unheld : ticket ∉ registrations.map (·.ticket)) :
    ∀ testimony ∈ new, testimony.ticket ≠ ticket := by
  intro testimony inside same
  obtain ⟨registration, held, known, -⟩ := polled.exists_registration testimony inside
  exact unheld (List.mem_map.mpr ⟨registration, held, known.trans same⟩)

/-- Counters that agree with a history give the numbers of what is reported, and agree with the
longer history afterwards. -/
theorem Polled.counts (polled : Polled chain unit registrations notified failures new)
    (distinct : (registrations.map (·.ticket)).Nodup)
    (counts : ∀ registration ∈ registrations, registration.chain = chain →
      registration.failures = streak history registration.ticket) :
    failures = reports history new ∧ ∀ registration ∈ notified, registration.chain = chain →
      registration.failures = streak (history ++ new) registration.ticket := by
  induction polled generalizing history with
  | nil => simp [reports]
  | idle idle polled ih =>
      obtain ⟨unheld, distinct⟩ := List.nodup_cons.mp distinct
      obtain ⟨own, others⟩ := List.forall_mem_cons.mp counts
      obtain ⟨reported, kept⟩ := ih distinct others
      refine ⟨reported, List.forall_mem_cons.mpr ⟨fun here => ?_, kept⟩⟩
      rw [own here, streak_append_of_ne history (polled.ticket_ne unheld)]
  | @called registration rest notified failures new problem critical active polled ih =>
      obtain ⟨unheld, distinct⟩ := List.nodup_cons.mp distinct
      obtain ⟨own, others⟩ := List.forall_mem_cons.mp counts
      have counted := own (Registration.chain_of_isActiveOn active)
      have answered := streak_concat history (registration.testimony chain unit problem critical)
      -- the answer counts for the registration that gave it, and for none of those that follow
      have still : ∀ other ∈ rest, other.chain = chain → other.failures =
          streak (history ++ [registration.testimony chain unit problem critical])
            other.ticket := by
        intro other held here
        rw [others other held here, streak_append_of_ne]
        simpa using fun same => unheld (List.mem_map.mpr ⟨other, held, same.symm⟩)
      obtain ⟨reported, kept⟩ := ih distinct still
      rw [← List.append_cons] at kept
      refine ⟨?_, List.forall_mem_cons.mpr ⟨fun _ => ?_, kept⟩⟩
      · rw [reports, answered, reported]
        cases problem <;> simp [Registration.testimony, Testimony.failure?, counted]
      · have own := streak_append_of_ne
          (history ++ [registration.testimony chain unit problem critical])
          (polled.ticket_ne unheld)
        rw [← List.append_cons] at own
        refine Eq.trans ?_ (own.trans answered).symm
        cases problem <;> simp [Registration.answered, Registration.testimony, counted]

end Polled

/-- A listener group whose counters agree with what the listeners of a chain have answered. -/
structure Tallies (registry : Registry ℓ) (chain : ChainId) (history : List Testimony) : Prop
    extends Ticketed registry where
  issued : ∀ testimony ∈ history, testimony.ticket < registry.nextTicket
  counts : ∀ registration ∈ registry.registrations, registration.chain = chain →
    registration.failures = streak history registration.ticket

/-- What comes of it to notify a chain of some units after a history: what its listeners answer, and
the registry afterwards. -/
structure Hearkens (chain : ChainId) (history : List Testimony) (before : Registry ℓ)
    (units : List DecisionUnit) (new : List Testimony) (after : Registry ℓ) : Prop where
  /-- Every unit is passed to everyone registered, in order. -/
  hearings : new.map (·.toHearing) = units.flatMap (before.calls chain)
  named : ∀ testimony ∈ new, ∃ registration ∈ before.registrations,
    registration.ticket = testimony.ticket ∧ registration.name = testimony.name
  roster : after.roster = before.roster
  tallies : after.Tallies chain (history ++ new)

section Tallies

variable {chain : ChainId} {registry before middle after : Registry ℓ} {history : List Testimony}

theorem Tallies.notify (tallies : registry.Tallies chain history) (listening : Listening ℓ ω)
    (unit : DecisionUnit) (world : ω) :
    let told := registry.notify listening chain unit world
    ∃ new, registry.attested.notify listening.attesting chain unit (world, history) =
        (told.1, told.2.1.attested, told.2.2, history ++ new) ∧
      told.1 = NotifyError.gather chain (reports history new) ∧
      registry.Hearkens chain history [unit] new told.2.1 := by
  obtain ⟨failures, new, told, failed, polled⟩ :=
    notify_attesting listening registry world history
  obtain ⟨rfl, counts⟩ := polled.counts tallies.distinct tallies.counts
  have roster := registry.roster_notify listening chain unit world
  refine ⟨new, told, failed, polled.hearings.trans (List.flatMap_singleton _ _).symm,
    polled.exists_registration, roster,
    { toTicketed := tallies.toTicketed.of_roster roster.symm, issued := ?_, counts }⟩
  intro testimony inside
  rw [nextTicket_of_roster roster]
  rcases List.mem_append.mp inside with old | answered
  · exact tallies.issued testimony old
  · obtain ⟨registration, held, ticket, -⟩ := polled.exists_registration testimony answered
    exact ticket ▸ tallies.below registration held

theorem Tallies.hearkens_nil (tallies : registry.Tallies chain history) :
    registry.Hearkens chain history [] [] registry where
  hearings := rfl
  named := by simp
  roster := rfl
  tallies := (List.append_nil history).symm ▸ tallies

theorem Hearkens.append {earlier later : List DecisionUnit} {first second : List Testimony}
    (hearkens : before.Hearkens chain history earlier first middle)
    (further : middle.Hearkens chain (history ++ first) later second after) :
    before.Hearkens chain history (earlier ++ later) (first ++ second) after where
  hearings := by
    rw [List.map_append, List.flatMap_append, hearkens.hearings, further.hearings,
      calls_of_roster hearkens.roster]
  named := by
    intro testimony inside
    rcases List.mem_append.mp inside with soon | late
    · exact hearkens.named testimony soon
    · obtain ⟨registration, held, ticket, name⟩ := further.named testimony late
      obtain ⟨known, there, becomes⟩ := mem_of_roster hearkens.roster.symm held
      exact ⟨known, there, becomes.ticket_eq.symm.trans ticket, becomes.name_eq.symm.trans name⟩
  roster := further.roster.trans hearkens.roster
  tallies := List.append_assoc history first second ▸ further.tallies

/-- What others do to a registry is not counted as an answer on the chain. -/
theorem Change.tallies (change : Change chain before after)
    (tallies : before.Tallies chain history) : after.Tallies chain history := by
  refine { toTicketed := change.ticketed tallies.toTicketed, issued := ?_, counts := ?_ }
  · exact fun testimony inside =>
      Nat.lt_of_lt_of_le (tallies.issued testimony inside) change.evolves.grows
  cases change with
  | registered done =>
      obtain rfl := eq_of_register done
      intro registration inside here
      rcases List.mem_append.mp inside with old | new
      · exact tallies.counts registration old here
      · cases List.mem_singleton.mp new
        -- a new ticket is one under which nobody has answered yet
        exact (streak_of_ne fun testimony inside =>
          Nat.ne_of_lt (tallies.issued testimony inside)).symm
  | @drained _ _ on name found done =>
      obtain ⟨-, rfl⟩ := eq_of_drain done
      intro registration inside here
      obtain ⟨earlier, held, rfl⟩ := List.mem_map.mp inside
      by_cases same : earlier.ticket = found.ticket
      · rw [if_pos same] at here ⊢
        exact tallies.counts earlier held here
      · rw [if_neg same] at here ⊢
        exact tallies.counts earlier held here
  | removed draining =>
      intro registration inside
      exact tallies.counts registration (List.mem_filter.mp inside).1
  | notified listening unit world apart =>
      intro registration inside here
      have own := mem_on.mpr ⟨inside, here⟩
      rw [on_notify_of_ne _ _ _ apart] at own
      exact tallies.counts registration (mem_on.mp own).1 here

theorem Changes.tallies (changes : Changes chain before after)
    (tallies : before.Tallies chain history) : after.Tallies chain history := by
  induction changes with
  | refl => exact tallies
  | tail _ change ih => exact change.tallies ih

end Tallies

end Registry

end DecisionLedger
