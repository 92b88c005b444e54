import DecisionLedger.Proofs.Audience
import Mathlib.Logic.Equiv.Basic

/-! # The registrations of one chain

The chains of a node share one registry, but what is done to it for a chain reads and changes only
the registrations of that chain.  All that a chain can tell of the others are the numbers of its own
tickets, so registries are compared up to these.
-/

namespace DecisionLedger

namespace Registration

variable {ℓ : Type}

def retag (tickets : Equiv.Perm Nat) (registration : Registration ℓ) : Registration ℓ :=
  { registration with ticket := tickets registration.ticket }

/-- A registration that drains if it has a ticket. -/
def drainAt (ticket : Nat) (registration : Registration ℓ) : Registration ℓ :=
  if registration.ticket = ticket then { registration with draining := true } else registration

@[simp] theorem chain_drainAt (ticket : Nat) (registration : Registration ℓ) :
    (registration.drainAt ticket).chain = registration.chain := by
  unfold drainAt
  split <;> rfl

theorem drainAt_retag (tickets : Equiv.Perm Nat) (ticket : Nat) (registration : Registration ℓ) :
    (registration.retag tickets).drainAt (tickets ticket) =
      (registration.drainAt ticket).retag tickets := by
  by_cases same : registration.ticket = ticket <;> simp [drainAt, retag, same]

theorem chain_of_isActiveOn {registration : Registration ℓ} {chain : ChainId}
    (active : registration.isActiveOn chain = true) : registration.chain = chain := by
  simp only [isActiveOn, Bool.and_eq_true, decide_eq_true_eq] at active
  exact active.1

theorem isActiveOn_of_ne {registration : Registration ℓ} {chain : ChainId}
    (apart : registration.chain ≠ chain) : registration.isActiveOn chain = false := by
  simp [isActiveOn, apart]

end Registration

namespace Registry

variable {ℓ ω : Type}

def on (registry : Registry ℓ) (chain : ChainId) : List (Registration ℓ) :=
  registry.registrations.filter (·.chain = chain)

@[simp] theorem mem_on {registry : Registry ℓ} {chain : ChainId} {registration : Registration ℓ} :
    registration ∈ registry.on chain ↔
      registration ∈ registry.registrations ∧ registration.chain = chain := by
  simp [on]

section Changes

variable {registry after : Registry ℓ} {chain other : ChainId} {name : String} {listener : ℓ}
  {tolerateDraining : Bool} {found : Registration ℓ}

/-- Whether a name may not be registered. -/
def takes (registrations : List (Registration ℓ)) (name : String) (tolerateDraining : Bool) :
    Bool :=
  registrations.any fun other => other.name = name && (!other.draining || !tolerateDraining)

theorem register_eq (registry : Registry ℓ) (chain : ChainId) (name : String) (listener : ℓ)
    (tolerateDraining : Bool) :
    registry.register chain name listener tolerateDraining =
      if takes (registry.on chain) name tolerateDraining then .error (.duplicate chain name)
      else .ok {
        registrations := registry.registrations ++
          [{ ticket := registry.nextTicket, chain, name, listener, draining := false,
             failures := 0 }]
        nextTicket := registry.nextTicket + 1 } := by
  simp only [register, takes, on, List.any_filter, Bool.and_assoc]

theorem on_of_register (done : registry.register chain name listener tolerateDraining = .ok after)
    (other : ChainId) :
    after.on other = if chain = other then
      registry.on other ++ [{
        ticket := registry.nextTicket, chain, name, listener, draining := false, failures := 0 }]
      else registry.on other := by
  obtain rfl := eq_of_register done
  by_cases same : chain = other <;> simp [on, same]

def drainAt (registry : Registry ℓ) (ticket : Nat) : Registry ℓ :=
  { registry with registrations := registry.registrations.map (·.drainAt ticket) }

theorem drain_eq (registry : Registry ℓ) (chain : ChainId) (name : String) :
    registry.drain chain name =
      match (registry.on chain).find? (·.isActiveAs chain name) with
      | none => .error (.notFound chain name)
      | some found => .ok (found, registry.drainAt found.ticket) := by
  have own : (registry.on chain).find? (·.isActiveAs chain name) =
      registry.registrations.find? (·.isActiveAs chain name) := by
    rw [on, List.find?_filter]
    congr
    funext registration
    by_cases same : registration.chain = chain <;>
      simp [Registration.isActiveAs, Registration.isActiveOn, same]
  rw [drain, own]
  rfl

theorem on_drainAt (registry : Registry ℓ) (ticket : Nat) (chain : ChainId) :
    (registry.drainAt ticket).on chain = (registry.on chain).map (·.drainAt ticket) := by
  simp [on, drainAt, List.filter_map, Function.comp_def]

theorem on_remove (registry : Registry ℓ) (ticket : Nat) (chain : ChainId) :
    (registry.remove ticket).on chain = (registry.on chain).filter (·.ticket ≠ ticket) := by
  simp [on, remove, List.filter_filter, Bool.and_comm]

end Changes

section Notify

variable (listening : Listening ℓ ω) (chain : ChainId) {other : ChainId} (unit : DecisionUnit)

theorem notifyEach_on (registrations : List (Registration ℓ)) (world : ω) :
    let whole := notifyEach listening chain unit registrations world
    let own := notifyEach listening chain unit (registrations.filter (·.chain = chain)) world
    whole.1.filter (·.chain = chain) = own.1 ∧ whole.2 = own.2 := by
  induction registrations generalizing world with
  | nil => exact ⟨rfl, rfl⟩
  | cons registration rest ih =>
      by_cases here : registration.chain = chain
      · rw [List.filter_cons_of_pos (by simpa using here), notifyEach, notifyEach]
        by_cases active : registration.isActiveOn chain = true
        · rw [if_pos active, if_pos active]
          dsimp only
          obtain ⟨same, rest⟩ := ih (listening.accept registration.listener chain unit world).2
          cases (listening.accept registration.listener chain unit world).1 <;>
            simp [here, same, rest]
        · rw [if_neg active, if_neg active]
          obtain ⟨same, rest⟩ := ih world
          simp [here, same, rest]
      · have idle := Registration.isActiveOn_of_ne here
        rw [List.filter_cons_of_neg (by simpa using here), notifyEach, idle]
        obtain ⟨same, rest⟩ := ih world
        simp [here, same, rest]

theorem notify_on (registry : Registry ℓ) (world : ω) :
    let own := notifyEach listening chain unit (registry.on chain) world
    let after := registry.notify listening chain unit world
    after.1 = (if own.2.1.isEmpty then none else some { chain, failures := own.2.1 }) ∧
      after.2.1.on chain = own.1 ∧ after.2.2 = own.2.2 := by
  obtain ⟨notified, rest⟩ := notifyEach_on listening chain unit registry.registrations world
  have failures := congrArg Prod.fst rest
  refine ⟨?_, notified, congrArg Prod.snd rest⟩
  exact congrArg (fun failures : List ListenerFailure =>
    if failures.isEmpty then none else some ({ chain, failures } : NotifyError)) failures

theorem notifyEach_apart (apart : chain ≠ other) (registrations : List (Registration ℓ))
    (world : ω) :
    (notifyEach listening chain unit registrations world).1.filter (·.chain = other) =
      registrations.filter (·.chain = other) := by
  induction registrations generalizing world with
  | nil => rfl
  | cons registration rest ih =>
      rw [notifyEach]
      by_cases active : registration.isActiveOn chain = true
      · have elsewhere : registration.chain ≠ other := by
          rwa [Registration.chain_of_isActiveOn active]
        rw [if_pos active]
        dsimp only
        cases (listening.accept registration.listener chain unit world).1 <;> simp [elsewhere, ih]
      · rw [if_neg active]
        simp [List.filter_cons, ih]

theorem on_notify_of_ne (apart : chain ≠ other) (registry : Registry ℓ) (world : ω) :
    (registry.notify listening chain unit world).2.1.on other = registry.on other :=
  notifyEach_apart listening chain unit apart registry.registrations world

theorem notifyEach_retag (tickets : Equiv.Perm Nat) (registrations : List (Registration ℓ))
    (world : ω) :
    notifyEach listening chain unit (registrations.map (·.retag tickets)) world =
      let (notified, failures, final) := notifyEach listening chain unit registrations world
      (notified.map (·.retag tickets), failures, final) := by
  induction registrations generalizing world with
  | nil => rfl
  | cons registration rest ih =>
      have active : (registration.retag tickets).isActiveOn chain =
          registration.isActiveOn chain := rfl
      rw [List.map_cons, notifyEach, notifyEach, active]
      split
      · dsimp only [Registration.retag] at ih ⊢
        rw [ih]
        cases (listening.accept registration.listener chain unit world).1 <;> rfl
      · rw [ih]
        rfl

/-- Some listeners cannot tell two worlds apart, and leave them so. -/
structure Blind (among : ℓ → Prop) (alike : ω → ω → Prop) : Prop where
  answer : ∀ {listener left right}, among listener → alike left right →
    (listening.accept listener chain unit left).1 = (listening.accept listener chain unit right).1
  after : ∀ {listener left right}, among listener → alike left right →
    alike (listening.accept listener chain unit left).2
      (listening.accept listener chain unit right).2
  critical : ∀ {listener left right}, among listener → alike left right →
    listening.critical listener left = listening.critical listener right

variable {listening} {chain} {unit}

theorem Blind.notifyEach {among : ℓ → Prop} {alike : ω → ω → Prop}
    (blind : Blind listening chain unit among alike)
    (registrations : List (Registration ℓ))
    (mine : ∀ registration ∈ registrations, registration.isActiveOn chain = true →
      among registration.listener) {left right : ω} (same : alike left right) :
    let first := Registry.notifyEach listening chain unit registrations left
    let second := Registry.notifyEach listening chain unit registrations right
    first.1 = second.1 ∧ first.2.1 = second.2.1 ∧ alike first.2.2 second.2.2 := by
  induction registrations generalizing left right with
  | nil => exact ⟨rfl, rfl, same⟩
  | cons registration rest ih =>
      have others : ∀ registration ∈ rest, registration.isActiveOn chain = true →
          among registration.listener :=
        fun registration inside => mine registration (List.mem_cons_of_mem _ inside)
      rw [Registry.notifyEach, Registry.notifyEach]
      by_cases active : registration.isActiveOn chain = true
      · have own := mine registration List.mem_cons_self active
        obtain ⟨notified, failed, alike⟩ := ih others (blind.after own same)
        rw [if_pos active, if_pos active]
        dsimp only
        rw [blind.answer own same, notified, failed, blind.critical own (blind.after own same)]
        cases (listening.accept registration.listener chain unit right).1 <;>
          exact ⟨rfl, rfl, alike⟩
      · obtain ⟨notified, failed, alike⟩ := ih others same
        rw [if_neg active, if_neg active]
        dsimp only
        rw [notified, failed]
        exact ⟨rfl, rfl, alike⟩

end Notify

/-- Two registries have the same registrations of a chain, up to their tickets. -/
def Agrees (chain : ChainId) (tickets : Equiv.Perm Nat) (left right : Registry ℓ) : Prop :=
  right.on chain = (left.on chain).map (·.retag tickets)

/-- The same tickets, but for one that stands for another from now on. -/
def pair (tickets : Equiv.Perm Nat) (ticket other : Nat) : Equiv.Perm Nat :=
  tickets.trans (Equiv.swap (tickets ticket) other)

theorem retag_pair {tickets : Equiv.Perm Nat} {ticket other : Nat}
    {registration : Registration ℓ} (left : registration.ticket < ticket)
    (right : tickets registration.ticket < other) :
    registration.retag (pair tickets ticket other) = registration.retag tickets := by
  have apart : tickets registration.ticket ≠ tickets ticket :=
    fun same => Nat.ne_of_lt left (tickets.injective same)
  simp [Registration.retag, pair, Equiv.swap_apply_of_ne_of_ne apart (Nat.ne_of_lt right)]

section Agrees

variable {chain : ChainId} {tickets : Equiv.Perm Nat} {left right : Registry ℓ} {name : String}

theorem Agrees.refl (registry : Registry ℓ) : Agrees chain (Equiv.refl Nat) registry registry := by
  simp [Agrees, Registration.retag]

theorem Agrees.drainAt (agrees : Agrees chain tickets left right) (ticket : Nat) :
    Agrees chain tickets (left.drainAt ticket) (right.drainAt (tickets ticket)) := by
  rw [Agrees, on_drainAt, on_drainAt, agrees, List.map_map, List.map_map]
  exact List.map_congr_left fun registration _ => registration.drainAt_retag tickets ticket

theorem Agrees.remove (agrees : Agrees chain tickets left right) (ticket : Nat) :
    Agrees chain tickets (left.remove ticket) (right.remove (tickets ticket)) := by
  rw [Agrees, on_remove, on_remove, agrees, List.filter_map]
  simp [Function.comp_def, Registration.retag]

theorem Agrees.drain (agrees : Agrees chain tickets left right) (name : String) :
    (left.drain chain name = .error (.notFound chain name) ∧
        right.drain chain name = .error (.notFound chain name)) ∨
      ∃ found ∈ left.on chain,
        left.drain chain name = .ok (found, left.drainAt found.ticket) ∧
        right.drain chain name =
          .ok (found.retag tickets, right.drainAt (tickets found.ticket)) := by
  have active : ((·.isActiveAs chain name) ∘ (·.retag tickets) : Registration ℓ → Bool) =
      (·.isActiveAs chain name) := rfl
  rw [drain_eq, drain_eq, agrees, List.find?_map, active]
  cases known : (left.on chain).find? (·.isActiveAs chain name) with
  | none => exact .inl ⟨rfl, rfl⟩
  | some found => exact .inr ⟨found, List.mem_of_find?_eq_some known, rfl, rfl⟩

theorem Agrees.register (agrees : Agrees chain tickets left right) (ticketed : left.Ticketed)
    (other : right.Ticketed) (name : String) (listener : ℓ) (tolerateDraining : Bool) :
    (left.register chain name listener tolerateDraining = .error (.duplicate chain name) ∧
        right.register chain name listener tolerateDraining = .error (.duplicate chain name)) ∨
      ∃ grown widened, left.register chain name listener tolerateDraining = .ok grown ∧
        right.register chain name listener tolerateDraining = .ok widened ∧
        Agrees chain (pair tickets left.nextTicket right.nextTicket) grown widened := by
  have taken : takes (right.on chain) name tolerateDraining =
      takes (left.on chain) name tolerateDraining := by
    rw [agrees, takes, List.any_map]
    rfl
  -- Tickets that were issued before are below the new ones, and are paired as before.
  have kept : (left.on chain).map (·.retag (pair tickets left.nextTicket right.nextTicket)) =
      (left.on chain).map (·.retag tickets) := by
    refine List.map_congr_left fun registration inside => ?_
    have image : registration.retag tickets ∈ right.on chain :=
      agrees ▸ List.mem_map_of_mem inside
    exact retag_pair (ticketed.below _ (mem_on.mp inside).1) (other.below _ (mem_on.mp image).1)
  have first := register_eq left chain name listener tolerateDraining
  have second := register_eq right chain name listener tolerateDraining
  rw [taken] at second
  by_cases full : takes (left.on chain) name tolerateDraining = true
  · rw [if_pos full] at first second
    exact .inl ⟨first, second⟩
  · rw [if_neg full] at first second
    refine .inr ⟨_, _, first, second, ?_⟩
    rw [Agrees, on_of_register first, on_of_register second, if_pos rfl, if_pos rfl, agrees,
      List.map_append, kept]
    simp [Registration.retag, pair]

theorem Agrees.notify {listening : Listening ℓ ω} {unit : DecisionUnit} {among : ℓ → Prop}
    {alike : ω → ω → Prop} (agrees : Agrees chain tickets left right)
    (blind : Blind listening chain unit among alike)
    (mine : ∀ registration ∈ left.on chain, among registration.listener) {world other : ω}
    (same : alike world other) :
    let first := left.notify listening chain unit world
    let second := right.notify listening chain unit other
    first.1 = second.1 ∧ Agrees chain tickets first.2.1 second.2.1 ∧
      alike first.2.2 second.2.2 := by
  obtain ⟨registrations, failures, alike⟩ :=
    blind.notifyEach (left.on chain) (fun _ inside _ => mine _ inside) same
  obtain ⟨answer, notified, final⟩ := notify_on listening chain unit left world
  obtain ⟨reply, informed, last⟩ := notify_on listening chain unit right other
  rw [agrees, notifyEach_retag] at reply informed last
  dsimp only at answer notified final reply informed last ⊢
  rw [Agrees, answer, notified, final, reply, informed, last, registrations, failures]
  exact ⟨rfl, rfl, alike⟩

end Agrees

section Apart

variable {registry : Registry ℓ} {chain : ChainId} {ticket : Nat}
  (apart : ∀ registration ∈ registry.on chain, registration.ticket ≠ ticket)

include apart

theorem on_drainAt_of_apart : (registry.drainAt ticket).on chain = registry.on chain := by
  rw [on_drainAt]
  refine (List.map_congr_left fun registration inside => ?_).trans (List.map_id _)
  simp [Registration.drainAt, apart registration inside]

theorem on_remove_of_apart : (registry.remove ticket).on chain = registry.on chain := by
  rw [on_remove, List.filter_eq_self]
  simpa using apart

end Apart

end Registry

end DecisionLedger
