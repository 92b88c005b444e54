import DecisionLedger.Proofs.Indifference
import DecisionLedger.Proofs.NodeHost
import DecisionLedger.Proofs.Rosters
import Mathlib.Logic.Function.Basic

/-! # Chains that share a listener group

Chains that keep to disks of their own share one group of listeners.  What is done on one of them
changes the registrations of no other chain, and no listener of another chain hears of it, as long
as no listener listens to two chains.
-/

namespace DecisionLedger

/-- A call that a listener receives. -/
inductive ListenerCall where
  | take (chain : ChainId) (unit : DecisionUnit) (acceptedAt : Instant)
  | cleanUp

/-- How listeners answer, given all the calls that they have received up to the one that they
answer. -/
structure Conduct (ℓ : Type) where
  takes : ℓ → List ListenerCall → Option AcceptError
  critical : ℓ → List ListenerCall → Bool
  cleansUp : ℓ → List ListenerCall → Option AcceptError

/-- What the steps of a chain answer. -/
inductive Reply where
  | called (outcome : Except ManagerError Unit)
  | registered (outcome : Except RegistryError Unit)
  | deregistered (problem : Option RegistryError)

/-- What a chain has for itself. -/
structure Side (ℓ : Type) where
  manager : Manager
  disk : Disk
  events : List Event := []
  replies : List Reply := []
  /-- The registrations that drain until they are removed. -/
  leaving : List (Registration ℓ) := []

namespace Side

variable {ℓ : Type}

def chain (side : Side ℓ) : ChainId :=
  side.manager.config.chain

def reply (side : Side ℓ) (reply : Reply) : Side ℓ :=
  { side with replies := side.replies ++ [reply] }

end Side

/-- What the chains share. -/
structure Commons (ℓ : Type) where
  group : Registry ℓ
  /-- The calls that each listener has received, the oldest first. -/
  heard : ℓ → List ListenerCall

/-- What may be done on a chain. -/
inductive Deed (ℓ : Type) where
  | call (call : Call)
  | register (name : String) (listener : ℓ) (tolerateDraining : Bool)
  /-- Begin to deregister a listener: it drains. -/
  | drain (name : String)
  /-- End a deregistration that has begun: the listener cleans up, and is removed. -/
  | finish (position : Nat)
  /-- Something happens to the disk, which may begin to fail. -/
  | disturb (change : Disk → Disk)

namespace Conduct

variable {ℓ : Type} [DecidableEq ℓ] (conduct : Conduct ℓ) (acceptedAt : Instant)

def listening : Listening ℓ (ℓ → List ListenerCall) where
  accept listener chain unit heard :=
    let calls := heard listener ++ [.take chain unit acceptedAt]
    (conduct.takes listener calls, Function.update heard listener calls)
  critical listener heard := conduct.critical listener (heard listener)

/-- The world of a chain's manager at a moment. -/
def host : LawfulHost (Side ℓ × Commons ℓ) where
  store scene := scene.1.disk.store
  write batch scene :=
    match scene.1.disk.write batch with
    | .error error => .error error
    | .ok disk => .ok ({ scene.1 with disk }, scene.2)
  deliver chain unit scene :=
    let (failed, group, heard) :=
      scene.2.group.notify (conduct.listening acceptedAt) chain unit scene.2.heard
    (failed, scene.1, { group, heard })
  publish event scene := ({ scene.1 with events := scene.1.events ++ [event] }, scene.2)
  written := by
    intro batch scene after done
    split at done
    · cases done
    · rename_i disk wrote
      cases done
      rw [Disk.store_of_write wrote]
      exact Store.SameLedger.refl _
  delivered _ _ scene := Store.SameLedger.refl scene.1.disk.store
  published _ scene := Store.SameLedger.refl scene.1.disk.store

end Conduct

/-- What a deed on a chain makes of the chain and of what it shares. -/
def Deed.perform {ℓ : Type} [DecidableEq ℓ] (conduct : Conduct ℓ) (time : Instant) (deed : Deed ℓ)
    (scene : Side ℓ × Commons ℓ) : Side ℓ × Commons ℓ :=
  let (side, commons) := scene
  match deed with
  | .call request =>
    let host := conduct.host time
    let (manager, after, shared) := (request.step host).perform (side.manager, scene)
    let outcome := request.answer host (side.manager, scene)
    ({ after with manager }.reply (.called outcome), shared)
  | .register name listener tolerateDraining =>
    match commons.group.register side.chain name listener tolerateDraining with
    | .error error => (side.reply (.registered (.error error)), commons)
    | .ok group => (side.reply (.registered (.ok ())), { commons with group })
  | .drain name =>
    match commons.group.drain side.chain name with
    | .error error => (side.reply (.deregistered (some error)), commons)
    | .ok (found, group) =>
      ({ side with leaving := side.leaving ++ [found] }, { commons with group })
  | .finish position =>
    match side.leaving[position]? with
    | none => (side, commons)
    | some registration =>
      let calls := commons.heard registration.listener ++ [.cleanUp]
      let problem := (conduct.cleansUp registration.listener calls).map fun error =>
        RegistryError.cleanup side.chain registration.name error
      ({ side with leaving := side.leaving.eraseIdx position }.reply (.deregistered problem),
        { group := commons.group.remove registration.ticket
          heard := Function.update commons.heard registration.listener calls })
  | .disturb change => ({ side with disk := change side.disk }, commons)

/-- Every listener is registered on a chain of its own. -/
def Registry.Owned {ℓ : Type} (owner : ℓ → ChainId) (registry : Registry ℓ) : Prop :=
  ∀ registration ∈ registry.registrations, owner registration.listener = registration.chain

/-- A deed registers no listener of another chain. -/
def Deed.Fits {ℓ : Type} (owner : ℓ → ChainId) (chain : ChainId) : Deed ℓ → Prop
  | .register _ listener _ => owner listener = chain
  | .call _ | .drain _ | .finish _ | .disturb _ => True

/-- A registration of a chain that drains, or has been removed. -/
structure Registry.Leaving {ℓ : Type} (owner : ℓ → ChainId) (chain : ChainId)
    (registry : Registry ℓ) (registration : Registration ℓ) : Prop where
  owned : owner registration.listener = chain
  below : registration.ticket < registry.nextTicket
  own : ∀ other ∈ registry.registrations, other.ticket = registration.ticket → other.chain = chain
  drains : ∀ other ∈ registry.registrations, other.ticket = registration.ticket →
    other.draining = true

/-- What holds of a chain and of what it shares between deeds. -/
structure Orderly {ℓ : Type} (owner : ℓ → ChainId) (scene : Side ℓ × Commons ℓ) : Prop where
  ticketed : scene.2.group.Ticketed
  owned : scene.2.group.Owned owner
  leaving : ∀ registration ∈ scene.1.leaving,
    scene.2.group.Leaving owner scene.1.chain registration

/-- What a deed on a chain keeps, and what it leaves alone of all other chains. -/
structure Advances {ℓ : Type} (owner : ℓ → ChainId) (before after : Side ℓ × Commons ℓ) :
    Prop where
  chain : after.1.chain = before.1.chain
  evolves : before.2.group.Evolves after.2.group
  orderly : Orderly owner after
  on : ∀ other, before.1.chain ≠ other → after.2.group.on other = before.2.group.on other
  heard : ∀ listener, owner listener ≠ before.1.chain →
    after.2.heard listener = before.2.heard listener

namespace Registry

variable {ℓ : Type} {owner : ℓ → ChainId} {chain : ChainId} {before after : Registry ℓ}
  {registration : Registration ℓ}

theorem Leaving.evolves (leaving : before.Leaving owner chain registration)
    (evolves : before.Evolves after) : after.Leaving owner chain registration where
  owned := leaving.owned
  below := Nat.lt_of_lt_of_le leaving.below evolves.grows
  own := by
    intro other inside same
    rcases evolves.origin other inside with fresh | ⟨earlier, held, becomes⟩
    · have below := leaving.below
      omega
    · rw [becomes.chain_eq]
      exact leaving.own earlier held (becomes.ticket_eq.symm.trans same)
  drains := evolves.draining leaving.below leaving.drains

theorem Owned.on (owned : before.Owned owner) :
    ∀ registration ∈ before.on chain, owner registration.listener = chain := by
  intro registration inside
  obtain ⟨held, here⟩ := mem_on.mp inside
  rw [owned registration held, here]

theorem Owned.of_roster (owned : before.Owned owner) (same : before.roster = after.roster) :
    after.Owned owner := by
  intro registration inside
  obtain ⟨earlier, held, becomes⟩ := mem_of_roster same inside
  rw [becomes.listener_eq, becomes.chain_eq]
  exact owned earlier held

end Registry

/-- What a call of a chain's manager leaves alone. -/
structure Bounded {ℓ : Type} (owner : ℓ → ChainId) (chain : ChainId)
    (before after : Side ℓ × Commons ℓ) : Prop where
  roster : before.2.group.roster = after.2.group.roster
  leaving : after.1.leaving = before.1.leaving
  on : ∀ other, chain ≠ other → after.2.group.on other = before.2.group.on other
  heard : ∀ listener, owner listener ≠ chain →
    after.2.heard listener = before.2.heard listener

theorem Orderly.bounded {ℓ : Type} {owner : ℓ → ChainId} {chain : ChainId}
    {before after : Side ℓ × Commons ℓ} (orderly : Orderly owner before)
    (bounded : Bounded owner chain before after)
    (chains : after.1.chain = before.1.chain) : Orderly owner after where
  ticketed := orderly.ticketed.of_roster bounded.roster
  owned := orderly.owned.of_roster bounded.roster
  leaving := by
    intro registration inside
    rw [chains]
    rw [bounded.leaving] at inside
    exact (orderly.leaving registration inside).evolves (.of_roster bounded.roster)

section Changes

variable {ℓ : Type} {owner : ℓ → ChainId} {side after : Side ℓ} {commons : Commons ℓ}
  {group : Registry ℓ} {heard : ℓ → List ListenerCall} {name : String}

theorem Registry.Owned.register {registry : Registry ℓ} {chain : ChainId} {listener : ℓ}
    {tolerateDraining : Bool} (owned : registry.Owned owner) (fits : owner listener = chain)
    (done : registry.register chain name listener tolerateDraining = .ok group) :
    group.Owned owner := by
  obtain rfl := eq_of_register done
  intro registration inside
  rcases List.mem_append.mp inside with old | new
  · exact owned registration old
  · cases List.mem_singleton.mp new
    exact fits

theorem Registry.Owned.of_evolves {registry : Registry ℓ} (owned : registry.Owned owner)
    (evolves : registry.Evolves group) (ticketed : group.Ticketed)
    (issued : group.nextTicket = registry.nextTicket) : group.Owned owner := by
  intro registration inside
  rcases evolves.origin registration inside with fresh | ⟨earlier, held, becomes⟩
  · have below := ticketed.below registration inside
    omega
  · rw [becomes.listener_eq, becomes.chain_eq]
    exact owned earlier held

/-- A deed that changes the group as others may advances a chain, if it is orderly about its own
listeners and deregistrations. -/
theorem Orderly.advances (orderly : Orderly owner (side, commons))
    (change : Registry.Change 0 commons.group group) (owned : group.Owned owner)
    (chain : after.chain = side.chain)
    (leaving : ∀ registration ∈ after.leaving, registration ∈ side.leaving ∨
      group.Leaving owner side.chain registration)
    (on : ∀ other, side.chain ≠ other → group.on other = commons.group.on other)
    (kept : ∀ listener, owner listener ≠ side.chain → heard listener = commons.heard listener) :
    Advances owner (side, commons) (after, { group, heard }) where
  chain := chain
  evolves := change.evolves
  orderly := by
    refine ⟨change.ticketed orderly.ticketed, owned, fun registration inside => ?_⟩
    change group.Leaving owner after.chain registration
    rw [chain]
    rcases leaving registration inside with before | now
    · exact (orderly.leaving registration before).evolves change.evolves
    · exact now
  on := on
  heard := kept

theorem Orderly.advances_alone (orderly : Orderly owner (side, commons))
    (chain : after.chain = side.chain) (leaving : after.leaving = side.leaving) :
    Advances owner (side, commons) (after, commons) where
  chain := chain
  evolves := .refl _
  orderly := by
    refine ⟨orderly.ticketed, orderly.owned, fun registration inside => ?_⟩
    change commons.group.Leaving owner after.chain registration
    rw [chain]
    exact orderly.leaving registration (leaving ▸ inside)
  on _ _ := rfl
  heard _ _ := rfl

theorem Orderly.advances_register (orderly : Orderly owner (side, commons)) {listener : ℓ}
    {tolerateDraining : Bool} (fits : owner listener = side.chain)
    (done : commons.group.register side.chain name listener tolerateDraining = .ok group)
    (reply : Reply) :
    Advances owner (side, commons) (side.reply reply, { commons with group }) := by
  refine orderly.advances (.registered done) (orderly.owned.register fits done) rfl
    (fun _ inside => .inl inside) (fun other apart => ?_) fun _ _ => rfl
  rw [Registry.on_of_register done, if_neg apart]

theorem Orderly.advances_drain (orderly : Orderly owner (side, commons))
    {found : Registration ℓ} (done : commons.group.drain side.chain name = .ok (found, group)) :
    Advances owner (side, commons)
      ({ side with leaving := side.leaving ++ [found] }, { commons with group }) := by
  have change : Registry.Change 0 commons.group group := .drained done
  obtain ⟨held, issued, draining⟩ := Registry.drain_eq_ok done
  obtain ⟨here, rfl⟩ : found ∈ commons.group.on side.chain ∧
      group = commons.group.drainAt found.ticket := by
    rw [Registry.drain_eq] at done
    split at done <;> cases done
    exact ⟨List.mem_of_find?_eq_some (by assumption), rfl⟩
  have own := (Registry.mem_on.mp here).2
  -- Only the registration that is found has its ticket, so no other chain's begins to drain.
  have unique : ∀ other ∈ commons.group.registrations, other.ticket = found.ticket →
      other = found := fun other inside same => orderly.ticketed.eq_of_ticket inside held same
  refine orderly.advances change
    (orderly.owned.of_evolves change.evolves (change.ticketed orderly.ticketed) issued) rfl
    (fun registration inside => ?_) (fun other apart => ?_) fun _ _ => rfl
  · rcases List.mem_append.mp inside with old | new
    · exact .inl old
    · cases List.mem_singleton.mp new
      have below : found.ticket < commons.group.nextTicket := orderly.ticketed.below found held
      refine .inr
        ⟨(orderly.owned found held).trans own, below, fun other inside same => ?_, draining⟩
      rcases change.evolves.origin other inside with fresh | ⟨earlier, known, becomes⟩
      · omega
      · rw [becomes.chain_eq, unique earlier known (becomes.ticket_eq.symm.trans same), own]
  · refine Registry.on_drainAt_of_apart fun registration inside same => apart ?_
    obtain ⟨known, there⟩ := Registry.mem_on.mp inside
    rw [← own, ← there, unique registration known same]

theorem Orderly.advances_remove (orderly : Orderly owner (side, commons))
    {registration : Registration ℓ}
    (leaving : commons.group.Leaving owner side.chain registration)
    (within : ∀ other ∈ after.leaving, other ∈ side.leaving) (chain : after.chain = side.chain)
    (kept : ∀ listener, owner listener ≠ side.chain → heard listener = commons.heard listener) :
    Advances owner (side, commons)
      (after, { group := commons.group.remove registration.ticket, heard }) := by
  have change : Registry.Change 0 commons.group (commons.group.remove registration.ticket) :=
    .removed leaving.drains
  refine orderly.advances change
    (orderly.owned.of_evolves change.evolves (change.ticketed orderly.ticketed) rfl) chain
    (fun other inside => .inl (within other inside)) (fun other apart => ?_) kept
  refine Registry.on_remove_of_apart fun third inside same => apart ?_
  obtain ⟨known, there⟩ := Registry.mem_on.mp inside
  exact (leaving.own third known same).symm.trans there

end Changes

section Calls

variable {ℓ : Type} [DecidableEq ℓ] {conduct : Conduct ℓ} {owner : ℓ → ChainId}
  {chain : ChainId} {time : Instant} {before after : Side ℓ × Commons ℓ}

/-- Who is notified for a chain notices nothing of what the listeners of others hear. -/
theorem Conduct.blind_apart (conduct : Conduct ℓ) (owner : ℓ → ChainId) (chain : ChainId)
    (time : Instant) (unit : DecisionUnit) (heard : ℓ → List ListenerCall) :
    Registry.Blind (conduct.listening time) chain unit (fun listener => owner listener = chain)
      fun left right => left = right ∧ ∀ listener, owner listener ≠ chain →
        left listener = heard listener where
  answer own same := by rw [same.1]
  after own same := by
    refine ⟨by rw [same.1], fun listener other => ?_⟩
    have apart : listener ≠ _ := fun equal => other (equal ▸ own)
    exact (Function.update_of_ne apart _ _).trans (same.2 listener other)
  critical own same := by rw [same.1]

theorem Conduct.respects_bounded (conduct : Conduct ℓ) (time : Instant) (chain : ChainId)
    (owned : before.2.group.Owned owner) :
    (conduct.host time).Respects chain fun left right =>
      left = right ∧ Bounded owner chain before left where
  store same := by rw [same.1]
  write := by
    rintro left _ batch ⟨rfl, bounded⟩
    dsimp only [Conduct.host]
    cases left.1.disk.write batch with
    | error error => exact .inl ⟨error, rfl, rfl⟩
    | ok disk =>
        exact .inr ⟨_, _, rfl, rfl, rfl, bounded.roster, bounded.leaving, bounded.on, bounded.heard⟩
  answer unit same := by rw [same.1]
  deliver := by
    rintro left _ unit ⟨rfl, bounded⟩
    have mine : ∀ registration ∈ left.2.group.registrations,
        registration.isActiveOn chain = true → owner registration.listener = chain := by
      intro registration inside active
      rw [(owned.of_roster bounded.roster) registration inside]
      exact Registration.chain_of_isActiveOn active
    obtain ⟨-, -, -, heard⟩ :=
      (conduct.blind_apart owner chain time unit before.2.heard).notifyEach
        left.2.group.registrations mine ⟨rfl, bounded.heard⟩
    refine ⟨rfl, ?_, bounded.leaving, fun other apart => ?_, heard⟩
    · exact bounded.roster.trans (Registry.roster_notify _ _ _ _ _).symm
    · exact (Registry.on_notify_of_ne _ _ _ apart _ _).trans (bounded.on other apart)
  publish := by
    rintro left _ event ⟨rfl, bounded⟩
    exact ⟨rfl, bounded.roster, bounded.leaving, bounded.on, bounded.heard⟩

theorem Advances.call (conduct : Conduct ℓ) (time : Instant) (orderly : Orderly owner before)
    (request : Call) :
    Advances owner before (Deed.perform conduct time (.call request) before) := by
  have bounded : Bounded owner before.1.chain before
      ((request.step (conduct.host time)).perform (before.1.manager, before)).2 :=
    (conduct.respects_bounded time before.1.chain orderly.owned).keeps request
      ⟨rfl, rfl, fun _ _ => rfl, fun _ _ => rfl⟩
  have config := request.config_perform (conduct.host time) before.1.manager before
  have chains := congrArg Configuration.chain config
  have still : Bounded owner before.1.chain before
      (Deed.perform conduct time (.call request) before) :=
    ⟨bounded.roster, bounded.leaving, bounded.on, bounded.heard⟩
  exact ⟨chains, .of_roster still.roster, orderly.bounded still chains, still.on, still.heard⟩

theorem advances_perform (conduct : Conduct ℓ) (time : Instant) (orderly : Orderly owner before)
    {deed : Deed ℓ} (fits : deed.Fits owner before.1.chain) :
    Advances owner before (deed.perform conduct time before) := by
  obtain ⟨side, commons⟩ := before
  cases deed with
  | call request => exact .call conduct time orderly request
  | disturb change => exact orderly.advances_alone rfl rfl
  | register name listener tolerateDraining =>
      dsimp only [Deed.perform]
      split
      · exact orderly.advances_alone rfl rfl
      · rename_i group done
        exact orderly.advances_register fits done _
  | drain name =>
      dsimp only [Deed.perform]
      split
      · exact orderly.advances_alone rfl rfl
      · rename_i found group done
        exact orderly.advances_drain done
  | finish position =>
      dsimp only [Deed.perform]
      split
      · exact orderly.advances_alone rfl rfl
      · rename_i registration found
        have leaving := orderly.leaving registration (List.mem_of_getElem? found)
        refine orderly.advances_remove leaving (fun other => List.mem_of_mem_eraseIdx) rfl
          fun listener elsewhere => ?_
        have apart : listener ≠ registration.listener :=
          fun same => elsewhere (same ▸ leaving.owned)
        exact Function.update_of_ne apart _ _

end Calls

end DecisionLedger
