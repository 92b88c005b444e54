import DecisionLedger.Registry
import Mathlib.Data.List.Nodup
import Mathlib.Logic.Relation

/-! # Who is notified

A registration is known by its ticket.  A notification calls the listener of every active
registration of its chain once, whoever fails; and whatever else happens to a registry, a
registration that has ended never begins again.
-/

namespace DecisionLedger

/-- A call of a listener through a registration. -/
structure Hearing where
  ticket : Nat
  chain : ChainId
  unit : DecisionUnit
  deriving DecidableEq

namespace Registration

variable {ℓ : Type}

/-- A registration whatever has failed. -/
def settled (registration : Registration ℓ) : Registration ℓ :=
  { registration with failures := 0 }

/-- A registration whose listener knows the ticket. -/
def tagged (registration : Registration ℓ) : Registration (Nat × ℓ) where
  ticket := registration.ticket
  chain := registration.chain
  name := registration.name
  listener := (registration.ticket, registration.listener)
  draining := registration.draining
  failures := registration.failures

/-- A registration may count failures, and it may begin to drain; nothing else of it changes. -/
structure Becomes (before after : Registration ℓ) : Prop where
  ticket_eq : after.ticket = before.ticket
  chain_eq : after.chain = before.chain
  name_eq : after.name = before.name
  listener_eq : after.listener = before.listener
  drains : before.draining = true → after.draining = true

theorem Becomes.refl (registration : Registration ℓ) : registration.Becomes registration :=
  ⟨rfl, rfl, rfl, rfl, id⟩

theorem Becomes.trans {first second third : Registration ℓ} (left : first.Becomes second)
    (right : second.Becomes third) : first.Becomes third where
  ticket_eq := right.ticket_eq.trans left.ticket_eq
  chain_eq := right.chain_eq.trans left.chain_eq
  name_eq := right.name_eq.trans left.name_eq
  listener_eq := right.listener_eq.trans left.listener_eq
  drains := right.drains ∘ left.drains

theorem Becomes.of_settled {before after : Registration ℓ}
    (same : before.settled = after.settled) : before.Becomes after := by
  cases before
  cases after
  cases same
  exact ⟨rfl, rfl, rfl, rfl, id⟩

theorem Becomes.isActiveOn {before after : Registration ℓ} (becomes : before.Becomes after)
    {chain : ChainId} (active : after.isActiveOn chain = true) :
    before.isActiveOn chain = true := by
  simp only [Registration.isActiveOn, Bool.and_eq_true, decide_eq_true_eq, Bool.not_eq_true',
    becomes.chain_eq] at active ⊢
  refine ⟨active.1, ?_⟩
  by_contra draining
  exact absurd (becomes.drains (by simpa using draining)) (by simp [active.2])

end Registration

def Listening.recording {ℓ ω : Type} (listening : Listening ℓ ω) :
    Listening (Nat × ℓ) (ω × List Hearing) where
  accept listener chain unit world :=
    let (outcome, after) := listening.accept listener.2 chain unit world.1
    (outcome, after, world.2 ++ [⟨listener.1, chain, unit⟩])
  critical listener world := listening.critical listener.2 world.1

namespace Registry

variable {ℓ ω : Type} {registry before after : Registry ℓ} {chain : ChainId} {unit : DecisionUnit}
  {ticket : Nat}

/-- Who is registered, whatever has failed. -/
def roster (registry : Registry ℓ) : Registry ℓ :=
  { registry with registrations := registry.registrations.map (·.settled) }

/-- The calls that are to be made of an accepted unit, in order. -/
def calls (registry : Registry ℓ) (chain : ChainId) (unit : DecisionUnit) : List Hearing :=
  (registry.registrations.filter (·.isActiveOn chain)).map fun registration =>
    ⟨registration.ticket, chain, unit⟩

/-- Whether the units of a chain go to the listener of a ticket. -/
def Serves (registry : Registry ℓ) (chain : ChainId) (ticket : Nat) : Prop :=
  ∃ registration ∈ registry.registrations,
    registration.ticket = ticket ∧ registration.isActiveOn chain = true

instance (registry : Registry ℓ) (chain : ChainId) (ticket : Nat) :
    Decidable (registry.Serves chain ticket) :=
  inferInstanceAs (Decidable (∃ registration ∈ registry.registrations,
    registration.ticket = ticket ∧ registration.isActiveOn chain = true))

def tagged (registry : Registry ℓ) : Registry (Nat × ℓ) where
  registrations := registry.registrations.map (·.tagged)
  nextTicket := registry.nextTicket

def untagged (registry : Registry (Nat × ℓ)) : Registry ℓ where
  registrations := registry.registrations.map fun registration =>
    { ticket := registration.ticket, chain := registration.chain, name := registration.name,
      listener := registration.listener.2, draining := registration.draining,
      failures := registration.failures }
  nextTicket := registry.nextTicket

@[simp] theorem untagged_tagged (registry : Registry ℓ) : registry.tagged.untagged = registry := by
  obtain ⟨registrations, nextTicket⟩ := registry
  simp [tagged, untagged, Registration.tagged, Function.comp_def]

section Notify

variable (listening : Listening ℓ ω) (chain : ChainId) (unit : DecisionUnit)

theorem notifyEach_recording (registrations : List (Registration ℓ)) (world : ω)
    (heard : List Hearing) :
    notifyEach listening.recording chain unit (registrations.map (·.tagged)) (world, heard) =
      let (notified, failures, final) := notifyEach listening chain unit registrations world
      (notified.map (·.tagged), failures, final,
        heard ++ (registrations.filter (·.isActiveOn chain)).map fun registration =>
          ⟨registration.ticket, chain, unit⟩) := by
  induction registrations generalizing world heard with
  | nil => simp [notifyEach]
  | cons registration rest ih =>
      rw [List.map_cons, notifyEach, notifyEach]
      have tagged : registration.tagged.isActiveOn chain = registration.isActiveOn chain := rfl
      rw [tagged]
      by_cases active : registration.isActiveOn chain = true
      · rw [if_pos active, if_pos active]
        cases taken : listening.accept registration.listener chain unit world with
        | mk outcome after =>
            have noted : listening.recording.accept registration.tagged.listener chain unit
                (world, heard) =
                  (outcome, after, heard ++ [⟨registration.ticket, chain, unit⟩]) := by
              simp [Listening.recording, Registration.tagged, taken]
            rw [noted]
            dsimp only
            rw [ih]
            cases outcome <;> simp [active, Registration.tagged, Listening.recording]
      · rw [if_neg active, if_neg active, ih]
        simp [active]

theorem notify_recording (registry : Registry ℓ) (world : ω) (heard : List Hearing) :
    registry.tagged.notify listening.recording chain unit (world, heard) =
      let (failed, after, final) := registry.notify listening chain unit world
      (failed, after.tagged, final, heard ++ registry.calls chain unit) := by
  rw [notify, tagged, notifyEach_recording]
  rfl

theorem settled_notifyEach (registrations : List (Registration ℓ)) (world : ω) :
    (notifyEach listening chain unit registrations world).1.map (·.settled) =
      registrations.map (·.settled) := by
  induction registrations generalizing world with
  | nil => rfl
  | cons registration rest ih =>
      rw [notifyEach]
      split
      · dsimp only
        split <;> exact congrArg (registration.settled :: ·) (ih _)
      · exact congrArg (registration.settled :: ·) (ih world)

theorem roster_notify (registry : Registry ℓ) (world : ω) :
    (registry.notify listening chain unit world).2.1.roster = registry.roster :=
  congrArg (Registry.mk · registry.nextTicket)
    (settled_notifyEach listening chain unit registry.registrations world)

end Notify

section Roster

theorem calls_roster (registry : Registry ℓ) (chain : ChainId) (unit : DecisionUnit) :
    registry.roster.calls chain unit = registry.calls chain unit := by
  have active : ((·.isActiveOn chain) ∘ (·.settled) : Registration ℓ → Bool) =
      (·.isActiveOn chain) := rfl
  rw [calls, calls, roster, List.filter_map, List.map_map, active]
  rfl

theorem calls_of_roster (same : before.roster = after.roster) : before.calls = after.calls := by
  funext chain unit
  rw [← calls_roster, same, calls_roster]

theorem nextTicket_of_roster (same : before.roster = after.roster) :
    before.nextTicket = after.nextTicket :=
  show before.roster.nextTicket = after.roster.nextTicket from same ▸ rfl

theorem mem_of_roster (same : before.roster = after.roster) {registration : Registration ℓ}
    (inside : registration ∈ after.registrations) :
    ∃ earlier ∈ before.registrations, earlier.Becomes registration := by
  have settled := List.mem_map_of_mem (f := (·.settled)) inside
  have registrations : before.registrations.map (·.settled) = after.registrations.map (·.settled) :=
    congrArg Registry.registrations same
  rw [← registrations] at settled
  obtain ⟨earlier, held, same⟩ := List.mem_map.mp settled
  exact ⟨earlier, held, .of_settled same⟩

end Roster

/-- Every registration has a ticket of its own, below the next one. -/
structure Ticketed (registry : Registry ℓ) : Prop where
  below : ∀ registration ∈ registry.registrations, registration.ticket < registry.nextTicket
  distinct : (registry.registrations.map (·.ticket)).Nodup

/-- Whoever is registered later was registered before, or has a new ticket. -/
structure Evolves (before after : Registry ℓ) : Prop where
  grows : before.nextTicket ≤ after.nextTicket
  origin : ∀ registration ∈ after.registrations, before.nextTicket ≤ registration.ticket ∨
    ∃ earlier ∈ before.registrations, earlier.Becomes registration

section Evolves

theorem Evolves.refl (registry : Registry ℓ) : registry.Evolves registry :=
  ⟨Nat.le_refl _, fun registration inside => .inr ⟨registration, inside, .refl registration⟩⟩

theorem Evolves.trans {first second third : Registry ℓ} (left : first.Evolves second)
    (right : second.Evolves third) : first.Evolves third where
  grows := Nat.le_trans left.grows right.grows
  origin := by
    intro registration inside
    rcases right.origin registration inside with fresh | ⟨middle, held, becomes⟩
    · exact .inl (Nat.le_trans left.grows fresh)
    · rcases left.origin middle held with fresh | ⟨earlier, known, became⟩
      · exact .inl (becomes.ticket_eq ▸ fresh)
      · exact .inr ⟨earlier, known, became.trans becomes⟩

theorem Evolves.of_roster (same : before.roster = after.roster) : before.Evolves after where
  grows := Nat.le_of_eq (nextTicket_of_roster same)
  origin _ inside := .inr (mem_of_roster same inside)

theorem Ticketed.of_roster (ticketed : before.Ticketed) (same : before.roster = after.roster) :
    after.Ticketed where
  below := by
    intro registration inside
    obtain ⟨earlier, held, becomes⟩ := mem_of_roster same inside
    rw [becomes.ticket_eq, ← nextTicket_of_roster same]
    exact ticketed.below earlier held
  distinct := by
    have tickets : after.registrations.map (·.ticket) = before.registrations.map (·.ticket) := by
      have settled := congrArg (fun registry => registry.registrations.map (·.ticket)) same
      simp only [roster, List.map_map] at settled
      exact settled.symm
    rw [tickets]
    exact ticketed.distinct

theorem Evolves.serves (evolves : before.Evolves after) (issued : ticket < before.nextTicket)
    (serves : after.Serves chain ticket) : before.Serves chain ticket := by
  obtain ⟨registration, inside, rfl, active⟩ := serves
  rcases evolves.origin registration inside with fresh | ⟨earlier, held, becomes⟩
  · omega
  · exact ⟨earlier, held, becomes.ticket_eq.symm, becomes.isActiveOn active⟩

theorem Evolves.draining (evolves : before.Evolves after) (issued : ticket < before.nextTicket)
    (draining : ∀ registration ∈ before.registrations, registration.ticket = ticket →
      registration.draining = true) :
    ∀ registration ∈ after.registrations, registration.ticket = ticket →
      registration.draining = true := by
  rintro registration inside rfl
  rcases evolves.origin registration inside with fresh | ⟨earlier, held, becomes⟩
  · omega
  · exact becomes.drains (draining earlier held becomes.ticket_eq.symm)

/-- All that a registration changes: there is an active one more, under the next ticket. -/
theorem eq_of_register {on : ChainId} {name : String} {listener : ℓ} {tolerateDraining : Bool}
    (done : before.register on name listener tolerateDraining = .ok after) :
    after = {
      registrations := before.registrations ++
        [{ ticket := before.nextTicket, chain := on, name, listener, draining := false,
           failures := 0 }]
      nextTicket := before.nextTicket + 1 } := by
  dsimp only [register] at done
  split at done <;> cases done
  rfl

theorem eq_of_drain {on : ChainId} {name : String} {found : Registration ℓ}
    (done : before.drain on name = .ok (found, after)) :
    before.registrations.find? (·.isActiveAs on name) = some found ∧
      after = { before with
        registrations := before.registrations.map fun other =>
          if other.ticket = found.ticket then { other with draining := true } else other } := by
  unfold drain at done
  split at done <;> cases done
  exact ⟨by assumption, rfl⟩

theorem drain_eq_ok {on : ChainId} {name : String} {found : Registration ℓ}
    (done : before.drain on name = .ok (found, after)) :
    found ∈ before.registrations ∧ after.nextTicket = before.nextTicket ∧
      ∀ registration ∈ after.registrations, registration.ticket = found.ticket →
        registration.draining = true := by
  obtain ⟨known, rfl⟩ := eq_of_drain done
  refine ⟨List.mem_of_find?_eq_some known, rfl, fun registration inside same => ?_⟩
  obtain ⟨earlier, -, rfl⟩ := List.mem_map.mp inside
  split at same
  · rw [if_pos (by assumption)]
  · rename_i apart
    exact absurd same apart

theorem Ticketed.lt_of_serves (ticketed : registry.Ticketed)
    (serves : registry.Serves chain ticket) : ticket < registry.nextTicket := by
  obtain ⟨registration, inside, rfl, -⟩ := serves
  exact ticketed.below registration inside

theorem Ticketed.eq_of_ticket (ticketed : registry.Ticketed) {left right : Registration ℓ}
    (inside : left ∈ registry.registrations) (held : right ∈ registry.registrations)
    (same : left.ticket = right.ticket) : left = right :=
  List.inj_on_of_nodup_map ticketed.distinct inside held same

/-- A unit goes once to the listener of a ticket in use. -/
theorem Ticketed.filter_calls_of_serves (ticketed : registry.Ticketed)
    (serves : registry.Serves chain ticket) (unit : DecisionUnit) :
    (registry.calls chain unit).filter (·.ticket = ticket) = [⟨ticket, chain, unit⟩] := by
  have tickets : (registry.calls chain unit).map (·.ticket) =
      (registry.registrations.filter (·.isActiveOn chain)).map (·.ticket) := by
    rw [calls, List.map_map]
    rfl
  have distinct : (registry.calls chain unit).Nodup := by
    apply List.Nodup.of_map (·.ticket)
    rw [tickets]
    exact ticketed.distinct.sublist (List.filter_sublist.map _)
  have called : ⟨ticket, chain, unit⟩ ∈ registry.calls chain unit := by
    obtain ⟨registration, inside, rfl, active⟩ := serves
    exact List.mem_map.mpr ⟨registration, List.mem_filter.mpr ⟨inside, active⟩, rfl⟩
  have own : ∀ hearing ∈ registry.calls chain unit,
      decide (hearing.ticket = ticket) = (hearing == ⟨ticket, chain, unit⟩) := by
    intro hearing called
    obtain ⟨registration, -, rfl⟩ := List.mem_map.mp called
    rw [beq_eq_decide]
    simp
  rw [List.filter_congr own, List.filter_beq, List.count_eq_one_of_mem distinct called]
  rfl

theorem filter_calls_of_not_serves (idle : ¬registry.Serves chain ticket) (unit : DecisionUnit) :
    (registry.calls chain unit).filter (·.ticket = ticket) = [] := by
  rw [List.filter_eq_nil_iff]
  intro hearing called
  obtain ⟨registration, active, rfl⟩ := List.mem_map.mp called
  obtain ⟨inside, active⟩ := List.mem_filter.mp active
  simp only [decide_eq_true_eq]
  exact fun same => idle ⟨registration, inside, same, active⟩

end Evolves

/-- What others may do to a registry while a chain goes on: register a listener, begin or end a
deregistration, and notify the listeners of other chains. -/
inductive Change (chain : ChainId) : Registry ℓ → Registry ℓ → Prop where
  | registered {before after : Registry ℓ} {on : ChainId} {name : String} {listener : ℓ}
      {tolerateDraining : Bool} :
      before.register on name listener tolerateDraining = .ok after → Change chain before after
  | drained {before after : Registry ℓ} {on : ChainId} {name : String} {found : Registration ℓ} :
      before.drain on name = .ok (found, after) → Change chain before after
  | removed {before : Registry ℓ} {ticket : Nat} :
      (∀ registration ∈ before.registrations, registration.ticket = ticket →
        registration.draining = true) →
      Change chain before (before.remove ticket)
  | notified {ω : Type} {before : Registry ℓ} {other : ChainId} (listening : Listening ℓ ω)
      (unit : DecisionUnit) (world : ω) : other ≠ chain →
      Change chain before (before.notify listening other unit world).2.1

def Changes (chain : ChainId) : Registry ℓ → Registry ℓ → Prop :=
  Relation.ReflTransGen (Change chain)

section Changes

theorem Change.evolves (change : Change chain before after) : before.Evolves after := by
  cases change with
  | registered done =>
      obtain rfl := eq_of_register done
      refine ⟨Nat.le_succ _, fun registration inside => ?_⟩
      rcases List.mem_append.mp inside with old | new
      · exact .inr ⟨registration, old, .refl registration⟩
      · cases List.mem_singleton.mp new
        exact .inl (Nat.le_refl _)
  | drained done =>
      obtain ⟨-, rfl⟩ := eq_of_drain done
      refine ⟨Nat.le_refl _, fun registration inside => ?_⟩
      obtain ⟨earlier, held, rfl⟩ := List.mem_map.mp inside
      refine .inr ⟨earlier, held, ?_⟩
      split
      · exact ⟨rfl, rfl, rfl, rfl, fun _ => rfl⟩
      · exact .refl earlier
  | removed draining =>
      refine ⟨Nat.le_refl _, fun registration inside => ?_⟩
      exact .inr ⟨registration, (List.mem_filter.mp inside).1, .refl registration⟩
  | notified listening unit world apart => exact .of_roster (roster_notify _ _ _ _ _).symm

theorem Change.ticketed (change : Change chain before after) (ticketed : before.Ticketed) :
    after.Ticketed := by
  cases change with
  | registered done =>
      obtain rfl := eq_of_register done
      refine ⟨fun registration inside => ?_, ?_⟩
      · rcases List.mem_append.mp inside with old | new
        · exact Nat.lt_succ_of_lt (ticketed.below registration old)
        · cases List.mem_singleton.mp new
          exact Nat.lt_succ_self _
      · rw [List.map_append, List.nodup_append']
        refine ⟨ticketed.distinct, List.nodup_singleton _, ?_⟩
        intro ticket held new
        cases List.mem_singleton.mp new
        obtain ⟨registration, inside, same⟩ := List.mem_map.mp held
        exact Nat.ne_of_lt (ticketed.below registration inside) same
  | @drained _ _ on name found done =>
      obtain ⟨-, rfl⟩ := eq_of_drain done
      have tickets : ∀ registration : Registration ℓ,
          (if registration.ticket = found.ticket then { registration with draining := true }
            else registration).ticket = registration.ticket := by
        intro registration
        split <;> rfl
      refine ⟨fun registration inside => ?_, ?_⟩
      · obtain ⟨earlier, held, rfl⟩ := List.mem_map.mp inside
        rw [tickets]
        exact ticketed.below earlier held
      · rw [List.map_map]
        exact (List.map_congr_left fun registration _ => tickets registration) ▸ ticketed.distinct
  | removed draining =>
      refine ⟨fun registration inside => ?_, ?_⟩
      · exact ticketed.below registration (List.mem_filter.mp inside).1
      · exact ticketed.distinct.sublist (List.filter_sublist.map _)
  | notified listening unit world apart =>
      exact ticketed.of_roster (roster_notify _ _ _ _ _).symm

theorem Changes.evolves (changes : Changes chain before after) : before.Evolves after := by
  induction changes with
  | refl => exact .refl _
  | tail _ change ih => exact ih.trans change.evolves

theorem Changes.ticketed (changes : Changes chain before after) (ticketed : before.Ticketed) :
    after.Ticketed := by
  induction changes with
  | refl => exact ticketed
  | tail _ change ih => exact change.ticketed ih

end Changes

end Registry

end DecisionLedger
