import DecisionLedger.Proofs.Rosters

/-! # The discipline of a registry

A deregistration begins, the listener cleans up, and the deregistration ends.  While it cleans up, a
listener may register and deregister others, and have them notified, so that the things done at a
registry come in any order.  At all times the registry is what was registered so far, in that order,
less what was deregistered.
-/

namespace DecisionLedger

/-- One thing that is done at a registry. -/
inductive Dealing (ℓ ω : Type) where
  | register (chain : ChainId) (name : String) (listener : ℓ) (tolerateDraining : Bool)
  /-- Begin to deregister the active listener of a name. -/
  | drain (chain : ChainId) (name : String)
  /-- End a deregistration, whatever came of the clean-up. -/
  | finish (ticket : Nat)
  | notify (listening : Listening ℓ ω) (chain : ChainId) (unit : DecisionUnit)
  | drift (change : ω → ω)

/-- A registry with all that has been done at it. -/
structure Reception (ℓ ω : Type) where
  registry : Registry ℓ
  world : ω
  /-- The registrations that were ever made, as they were made. -/
  made : List (Registration ℓ)
  /-- The tickets whose deregistration has begun. -/
  begun : List Nat
  /-- The tickets whose deregistration has ended. -/
  ended : List Nat
  /-- The calls of listeners. -/
  told : List Hearing

namespace Reception

variable {ℓ ω : Type}

def opening (world : ω) : Reception ℓ ω := ⟨.empty, world, [], [], [], []⟩

/-- Do one thing, and write down what came of it. -/
def deal (reception : Reception ℓ ω) : Dealing ℓ ω → Reception ℓ ω
  | .register chain name listener tolerateDraining =>
    match reception.registry.register chain name listener tolerateDraining with
    | .error _ => reception
    | .ok registry =>
      { reception with
        registry
        made := reception.made ++
          [{ ticket := reception.made.length, chain, name, listener, draining := false,
             failures := 0 }] }
  | .drain chain name =>
    match reception.registry.drain chain name with
    | .error _ => reception
    | .ok (found, registry) =>
      { reception with registry, begun := reception.begun ++ [found.ticket] }
  | .finish ticket =>
    if ticket ∈ reception.begun then
      { reception with
        registry := reception.registry.remove ticket
        ended := reception.ended ++ [ticket] }
    else reception
  | .notify listening chain unit =>
    let (_, registry, world) := reception.registry.notify listening chain unit reception.world
    let (_, _, _, told) := reception.registry.tagged.notify listening.recording chain unit
      (reception.world, reception.told)
    { reception with registry, world, told }
  | .drift change => { reception with world := change reception.world }

def run (reception : Reception ℓ ω) (dealings : List (Dealing ℓ ω)) : Reception ℓ ω :=
  dealings.foldl deal reception

theorem run_append (reception : Reception ℓ ω) (earlier later : List (Dealing ℓ ω)) :
    reception.run (earlier ++ later) = (reception.run earlier).run later :=
  List.foldl_append

theorem run_cons (reception : Reception ℓ ω) (dealing : Dealing ℓ ω)
    (dealings : List (Dealing ℓ ω)) :
    reception.run (dealing :: dealings) = (reception.deal dealing).run dealings := rfl

theorem deal_finish {reception : Reception ℓ ω} {ticket : Nat} (begun : ticket ∈ reception.begun) :
    reception.deal (.finish ticket) = { reception with
      registry := reception.registry.remove ticket
      ended := reception.ended ++ [ticket] } :=
  if_pos begun

/-- The registrations of a chain that were made and whose deregistration has not begun. -/
def standing (reception : Reception ℓ ω) (chain : ChainId) : List (Registration ℓ) :=
  reception.made.filter fun registration =>
    registration.chain = chain && registration.ticket ∉ reception.begun

/-- The registrations of a chain whose deregistration has begun and not ended. -/
def leaving (reception : Reception ℓ ω) (chain : ChainId) : List (Registration ℓ) :=
  reception.made.filter fun registration =>
    registration.chain = chain && (registration.ticket ∈ reception.begun &&
      registration.ticket ∉ reception.ended)

/-- The registry as it must be after all that has been done, whatever has failed. -/
def roll (reception : Reception ℓ ω) : Registry ℓ where
  registrations := (reception.made.filter (·.ticket ∉ reception.ended)).map fun registration =>
    { registration with draining := registration.ticket ∈ reception.begun }
  nextTicket := reception.made.length

end Reception

namespace Registry

variable {ℓ : Type} (registry : Registry ℓ)

theorem register_roster (chain : ChainId) (name : String) (listener : ℓ) (tolerateDraining : Bool) :
    registry.roster.register chain name listener tolerateDraining =
      (registry.register chain name listener tolerateDraining).map roster := by
  simp only [register, roster, List.any_map, Function.comp_def, Registration.settled]
  split <;> simp [Except.map, roster, Registration.settled]

theorem roster_drainAt (ticket : Nat) :
    (registry.drainAt ticket).roster = registry.roster.drainAt ticket := by
  have drained (registration : Registration ℓ) :
      (registration.drainAt ticket).settled = registration.settled.drainAt ticket := by
    by_cases same : registration.ticket = ticket <;>
      simp [Registration.drainAt, Registration.settled, same]
  simp [drainAt, roster, Function.comp_def, drained]

theorem drain_roster (chain : ChainId) (name : String) :
    registry.roster.drain chain name =
      (registry.drain chain name).map fun (found, after) => (found.settled, after.roster) := by
  have active : ((·.isActiveAs chain name) ∘ (·.settled) : Registration ℓ → Bool) =
      (·.isActiveAs chain name) := rfl
  rw [drain, drain, roster, List.find?_map, active]
  cases registry.registrations.find? (·.isActiveAs chain name) with
  | none => rfl
  | some found =>
      exact congrArg Except.ok (Prod.ext rfl (roster_drainAt registry found.ticket).symm)

theorem remove_roster (ticket : Nat) :
    (registry.remove ticket).roster = registry.roster.remove ticket := by
  simp [remove, roster, List.filter_map, Function.comp_def, Registration.settled]

theorem Ticketed.remove_eq {registry : Registry ℓ} (ticketed : registry.Ticketed)
    {front back : List (Registration ℓ)} {gone : Registration ℓ}
    (split : registry.registrations = front ++ gone :: back) :
    (registry.remove gone.ticket).registrations = front ++ back := by
  have once := ticketed.distinct
  rw [split, List.map_append, List.map_cons, List.nodup_middle, ← List.map_append,
    List.nodup_cons] at once
  rw [remove, split, List.filter_append, List.filter_cons_of_neg (by simp), ← List.filter_append,
    List.filter_eq_self]
  intro other inside
  rw [decide_eq_true_iff]
  exact fun same => once.1 (same ▸ List.mem_map_of_mem inside)

end Registry

namespace Reception

variable {ℓ ω : Type} {reception : Reception ℓ ω}

/-- What is true of a registry and of all that has been done at it. -/
structure Orderly (reception : Reception ℓ ω) : Prop where
  /-- The registry is as it must be. -/
  roster : reception.registry.roster = reception.roll
  numbered : reception.made.map (·.ticket) = List.range reception.made.length
  issued : ∀ ticket ∈ reception.begun, ticket < reception.made.length
  ended : ∀ ticket ∈ reception.ended, ticket ∈ reception.begun
  /-- Of two registrations of one name, the deregistration of one has begun. -/
  single : ∀ left ∈ reception.made, ∀ right ∈ reception.made, left.chain = right.chain →
    left.name = right.name → left.ticket ∉ reception.begun → right.ticket ∉ reception.begun →
    left = right

theorem orderly_opening (world : ω) : (opening world : Reception ℓ ω).Orderly where
  roster := rfl
  numbered := rfl
  issued := by simp [opening]
  ended := by simp [opening]
  single := by simp [opening]

section Orderly

theorem Orderly.lt_of_mem (orderly : reception.Orderly) {registration : Registration ℓ}
    (inside : registration ∈ reception.made) : registration.ticket < reception.made.length := by
  have numbered := List.mem_map_of_mem (f := (·.ticket)) inside
  rw [orderly.numbered] at numbered
  exact List.mem_range.mp numbered

theorem mem_roll {registration : Registration ℓ} :
    registration ∈ reception.roll.registrations ↔ ∃ earlier ∈ reception.made,
      earlier.ticket ∉ reception.ended ∧
        { earlier with draining := decide (earlier.ticket ∈ reception.begun) } = registration := by
  simp [roll, and_assoc]

theorem Orderly.register (orderly : reception.Orderly) (chain : ChainId) (name : String)
    (listener : ℓ) (tolerateDraining : Bool) :
    (reception.deal (.register chain name listener tolerateDraining)).Orderly := by
  dsimp only [deal]
  cases done : reception.registry.register chain name listener tolerateDraining with
  | error error => exact orderly
  | ok registry =>
      have rolled := Registry.register_roster reception.registry chain name listener
        tolerateDraining
      rw [done, orderly.roster, Registry.register_eq] at rolled
      split at rolled
      · cases rolled
      · rename_i free
        have unissued : reception.made.length ∉ reception.begun :=
          fun begun => Nat.lt_irrefl _ (orderly.issued _ begun)
        have unended : reception.made.length ∉ reception.ended :=
          fun ended => unissued (orderly.ended _ ended)
        -- whoever stands under the name would have taken it
        have vacant : ∀ other ∈ reception.made, other.chain = chain → other.name = name →
            other.ticket ∈ reception.begun := by
          intro other inside on named
          by_contra standing
          refine free (List.any_eq_true.mpr ⟨{ other with draining := false }, ?_, by simp [named]⟩)
          refine Registry.mem_on.mpr ⟨mem_roll.mpr ⟨other, inside, ?_, by simp [standing]⟩, on⟩
          exact fun ended => standing (orderly.ended _ ended)
        refine { roster := ?_, numbered := ?_, issued := fun ticket begun => ?_,
                 ended := orderly.ended, single := ?_ }
        · refine (Except.ok.inj rolled).symm.trans ?_
          simp [roll, unissued, unended, List.filter_append]
        · simp [orderly.numbered, List.range_succ]
        · have below := orderly.issued ticket begun
          simp only [List.length_append]
          omega
        · intro left held right inside on named first second
          rcases List.mem_append.mp held with old | new
          · rcases List.mem_append.mp inside with also | fresh
            · exact orderly.single left old right also on named first second
            · cases List.mem_singleton.mp fresh
              exact absurd (vacant left old on named) first
          · cases List.mem_singleton.mp new
            rcases List.mem_append.mp inside with also | fresh
            · exact absurd (vacant right also on.symm named.symm) second
            · exact (List.mem_singleton.mp fresh).symm

theorem Orderly.drain (orderly : reception.Orderly) (chain : ChainId) (name : String) :
    (reception.deal (.drain chain name)).Orderly := by
  dsimp only [deal]
  cases done : reception.registry.drain chain name with
  | error error => exact orderly
  | ok result =>
      obtain ⟨found, registry⟩ := result
      have rolled := Registry.drain_roster reception.registry chain name
      rw [done, orderly.roster, Registry.drain_eq] at rolled
      split at rolled
      · cases rolled
      · rename_i own known
        obtain ⟨same, drained⟩ := Prod.mk.inj (Except.ok.inj rolled)
        have ticket : own.ticket = found.ticket := same ▸ rfl
        have issued : found.ticket < reception.made.length := by
          obtain ⟨earlier, inside, -, origin⟩ :=
            mem_roll.mp (Registry.mem_on.mp (List.mem_of_find?_eq_some known)).1
          have below := orderly.lt_of_mem inside
          rwa [← ticket, ← origin]
        refine { roster := ?_, numbered := orderly.numbered, issued := ?_, ended := ?_,
                 single := ?_ }
        · refine drained.symm.trans ?_
          rw [ticket, Registry.drainAt, roll, List.map_map]
          refine congrArg (Registry.mk · _) (List.map_congr_left fun earlier _ => ?_)
          by_cases here : earlier.ticket = found.ticket <;>
            simp [Registration.drainAt, here]
        · intro other begun
          rcases List.mem_append.mp begun with before | new
          · exact orderly.issued other before
          · exact List.mem_singleton.mp new ▸ issued
        · exact fun other gone => List.mem_append_left _ (orderly.ended other gone)
        · intro left held right inside on named first second
          exact orderly.single left held right inside on named
            (fun begun => first (List.mem_append_left _ begun))
            (fun begun => second (List.mem_append_left _ begun))

theorem Orderly.finish (orderly : reception.Orderly) (ticket : Nat) :
    (reception.deal (.finish ticket)).Orderly := by
  dsimp only [deal]
  split
  · rename_i begun
    refine { roster := ?_, numbered := orderly.numbered, issued := orderly.issued, ended := ?_,
             single := orderly.single }
    · rw [Registry.remove_roster, orderly.roster]
      simp [roll, Registry.remove, List.filter_map, List.filter_filter, Function.comp_def, and_comm]
    · intro other ended
      rcases List.mem_append.mp ended with before | new
      · exact orderly.ended other before
      · exact List.mem_singleton.mp new ▸ begun
  · exact orderly

theorem Orderly.notify (orderly : reception.Orderly) (listening : Listening ℓ ω) (chain : ChainId)
    (unit : DecisionUnit) : (reception.deal (.notify listening chain unit)).Orderly where
  roster := (Registry.roster_notify listening chain unit _ _).trans orderly.roster
  numbered := orderly.numbered
  issued := orderly.issued
  ended := orderly.ended
  single := orderly.single

theorem Orderly.deal (orderly : reception.Orderly) (dealing : Dealing ℓ ω) :
    (reception.deal dealing).Orderly := by
  cases dealing with
  | register chain name listener tolerateDraining =>
      exact orderly.register chain name listener tolerateDraining
  | drain chain name => exact orderly.drain chain name
  | finish ticket => exact orderly.finish ticket
  | notify listening chain unit => exact orderly.notify listening chain unit
  | drift change => exact ⟨orderly.1, orderly.2, orderly.3, orderly.4, orderly.5⟩

theorem Orderly.run (orderly : reception.Orderly) (dealings : List (Dealing ℓ ω)) :
    (reception.run dealings).Orderly := by
  induction dealings generalizing reception with
  | nil => exact orderly
  | cons dealing rest ih => exact ih (orderly.deal dealing)

/-- Whoever is registered was made so, has not ended, and drains if that has begun. -/
theorem Orderly.exists_made (orderly : reception.Orderly) {registration : Registration ℓ}
    (inside : registration ∈ reception.registry.registrations) :
    ∃ earlier ∈ reception.made, earlier.ticket ∉ reception.ended ∧
      { earlier with draining := decide (earlier.ticket ∈ reception.begun) } =
        registration.settled := by
  refine mem_roll.mp ?_
  rw [← orderly.roster]
  exact List.mem_map_of_mem inside

theorem Orderly.ticketed (orderly : reception.Orderly) : reception.registry.Ticketed where
  below := by
    intro registration inside
    obtain ⟨earlier, made, -, same⟩ := orderly.exists_made inside
    have next : reception.registry.nextTicket = reception.made.length :=
      congrArg Registry.nextTicket orderly.roster
    have below := orderly.lt_of_mem made
    have ticket := congrArg (fun other : Registration ℓ => other.ticket) same
    dsimp only [Registration.settled] at ticket
    omega
  distinct := by
    have tickets := congrArg (fun registry => registry.registrations.map (·.ticket)) orderly.roster
    simp only [Registry.roster, roll, List.map_map] at tickets
    have once : (reception.made.map (·.ticket)).Nodup := orderly.numbered ▸ List.nodup_range
    refine (congrArg List.Nodup tickets).mpr ?_
    exact once.sublist (List.filter_sublist.map _)

/-- The active registrations of a chain are those that stand. -/
theorem Orderly.active (orderly : reception.Orderly) (chain : ChainId) :
    (reception.registry.registrations.filter (·.isActiveOn chain)).map (·.settled) =
      (reception.standing chain).map fun registration =>
        { registration with draining := false } := by
  have active : ((·.isActiveOn chain) ∘ (·.settled) : Registration ℓ → Bool) =
      (·.isActiveOn chain) := rfl
  have rolled : (reception.registry.registrations.filter (·.isActiveOn chain)).map (·.settled) =
      reception.roll.registrations.filter (·.isActiveOn chain) := by
    rw [← orderly.roster, Registry.roster, List.filter_map, active]
  have standing : reception.standing chain = (reception.made.filter fun registration =>
      registration.ticket ∉ reception.ended).filter fun registration =>
        registration.chain = chain && registration.ticket ∉ reception.begun := by
    rw [List.filter_filter, Reception.standing]
    refine List.filter_congr fun registration _ => ?_
    by_cases begun : registration.ticket ∈ reception.begun
    · simp [begun]
    · have stays : registration.ticket ∉ reception.ended :=
        fun ended => begun (orderly.ended _ ended)
      simp [begun, stays]
  rw [rolled, roll, List.filter_map, standing]
  have chosen : ((·.isActiveOn chain) ∘ fun registration : Registration ℓ =>
      { registration with draining := decide (registration.ticket ∈ reception.begun) }) =
        fun registration =>
          registration.chain = chain && registration.ticket ∉ reception.begun := by
    funext registration
    simp [Registration.isActiveOn]
  rw [chosen]
  refine List.map_congr_left fun registration inside => ?_
  have stands := (List.mem_filter.mp inside).2
  simp_all

theorem Orderly.exists_standing (orderly : reception.Orderly) {chain : ChainId}
    {registration : Registration ℓ} (inside : registration ∈ reception.registry.registrations)
    (active : registration.isActiveOn chain = true) :
    ∃ own ∈ reception.standing chain, own.ticket = registration.ticket ∧
      own.name = registration.name := by
  have settled : registration.settled ∈ (reception.registry.registrations.filter
      (·.isActiveOn chain)).map (·.settled) :=
    List.mem_map_of_mem (List.mem_filter.mpr ⟨inside, active⟩)
  rw [orderly.active] at settled
  obtain ⟨own, stands, same⟩ := List.mem_map.mp settled
  exact ⟨own, stands, (Registration.mk.inj same).1, (Registration.mk.inj same).2.2.1⟩

theorem mem_standing {chain : ChainId} {registration : Registration ℓ} :
    registration ∈ reception.standing chain ↔ registration ∈ reception.made ∧
      registration.chain = chain ∧ registration.ticket ∉ reception.begun := by
  simp [standing]

theorem mem_leaving {chain : ChainId} {registration : Registration ℓ} :
    registration ∈ reception.leaving chain ↔ registration ∈ reception.made ∧
      registration.chain = chain ∧ registration.ticket ∈ reception.begun ∧
        registration.ticket ∉ reception.ended := by
  simp [leaving]

theorem Orderly.eq_of_active (orderly : reception.Orderly) {chain : ChainId} {name : String}
    {left right : Registration ℓ} (held : left ∈ reception.registry.registrations)
    (inside : right ∈ reception.registry.registrations)
    (first : left.isActiveAs chain name = true) (second : right.isActiveAs chain name = true) :
    left = right := by
  simp only [Registration.isActiveAs, Bool.and_eq_true, decide_eq_true_eq] at first second
  obtain ⟨own, stands, ticket, named⟩ := orderly.exists_standing held first.1
  obtain ⟨other, also, another, called⟩ := orderly.exists_standing inside second.1
  obtain ⟨made, on, unbegun⟩ := mem_standing.mp stands
  obtain ⟨too, here, yet⟩ := mem_standing.mp also
  have same := orderly.single own made other too (on.trans here.symm)
    (named.trans (first.2.trans (called.trans second.2).symm)) unbegun yet
  exact orderly.ticketed.eq_of_ticket held inside (ticket.symm.trans (same ▸ another))

theorem Orderly.listeners (orderly : reception.Orderly) (chain : ChainId) :
    reception.registry.listeners chain = (reception.standing chain).map (·.name) := by
  have names := congrArg (List.map (·.name)) (orderly.active chain)
  rwa [List.map_map, List.map_map] at names

theorem Orderly.told_notify (orderly : reception.Orderly) (listening : Listening ℓ ω)
    (chain : ChainId) (unit : DecisionUnit) :
    (reception.deal (.notify listening chain unit)).told =
      reception.told ++ (reception.standing chain).map fun registration =>
        ⟨registration.ticket, chain, unit⟩ := by
  have tickets := congrArg (List.map fun registration : Registration ℓ =>
    (⟨registration.ticket, chain, unit⟩ : Hearing)) (orderly.active chain)
  rw [List.map_map, List.map_map] at tickets
  dsimp only [Reception.deal]
  rw [Registry.notify_recording]
  exact congrArg (reception.told ++ ·) tickets

end Orderly

/-- What comes later: whatever has begun or ended stays so, and whoever is called did not drain. -/
structure Follows (before after : Reception ℓ ω) : Prop where
  begun : ∀ {ticket}, ticket ∈ before.begun → ticket ∈ after.begun
  ended : ∀ {ticket}, ticket ∈ before.ended → ticket ∈ after.ended
  told : ∃ calls, after.told = before.told ++ calls ∧
    ∀ hearing ∈ calls, hearing.ticket ∉ before.begun

section Follows

variable {first second third : Reception ℓ ω}

theorem Follows.of_told (same : second.told = first.told)
    (begun : ∀ {ticket}, ticket ∈ first.begun → ticket ∈ second.begun)
    (ended : ∀ {ticket}, ticket ∈ first.ended → ticket ∈ second.ended) : first.Follows second :=
  ⟨begun, ended, [], by simp [same]⟩

theorem Follows.refl (reception : Reception ℓ ω) : reception.Follows reception :=
  .of_told rfl id id

theorem Follows.trans (left : first.Follows second) (right : second.Follows third) :
    first.Follows third where
  begun before := right.begun (left.begun before)
  ended before := right.ended (left.ended before)
  told := by
    obtain ⟨calls, told, silent⟩ := left.told
    obtain ⟨further, heard, quiet⟩ := right.told
    refine ⟨calls ++ further, by rw [heard, told, List.append_assoc], fun hearing called => ?_⟩
    rcases List.mem_append.mp called with early | late
    · exact silent hearing early
    · exact fun before => quiet hearing late (left.begun before)

theorem Orderly.follows_deal (orderly : reception.Orderly) (dealing : Dealing ℓ ω) :
    reception.Follows (reception.deal dealing) := by
  cases dealing with
  | register chain name listener tolerateDraining =>
      dsimp only [Reception.deal]
      split
      · exact .refl reception
      · exact .of_told rfl id id
  | drain chain name =>
      dsimp only [Reception.deal]
      split
      · exact .refl reception
      · exact .of_told rfl (List.mem_append_left _) id
  | finish ticket =>
      dsimp only [Reception.deal]
      split
      · exact .of_told rfl id (List.mem_append_left _)
      · exact .refl reception
  | notify listening chain unit =>
      refine ⟨id, id, _, orderly.told_notify listening chain unit, fun hearing called => ?_⟩
      obtain ⟨registration, stands, rfl⟩ := List.mem_map.mp called
      exact (mem_standing.mp stands).2.2
  | drift change => exact .of_told rfl id id

theorem Orderly.follows_run (orderly : reception.Orderly) (dealings : List (Dealing ℓ ω)) :
    reception.Follows (reception.run dealings) := by
  induction dealings generalizing reception with
  | nil => exact .refl reception
  | cons dealing rest ih => exact (orderly.follows_deal dealing).trans (ih (orderly.deal dealing))

end Follows

/-- How a registry keeps order. -/
structure Disciplined (reception : Reception ℓ ω) : Prop where
  /-- Of each name on a chain at most one registration is active. -/
  single : ∀ {chain name left right}, left ∈ reception.registry.registrations →
    right ∈ reception.registry.registrations → left.isActiveAs chain name = true →
    right.isActiveAs chain name = true → left = right
  /-- Whoever is registered has the chain, the name and the listener with which it was made, has not
  ended, and drains exactly if its deregistration has begun. -/
  kept : ∀ {registration}, registration ∈ reception.registry.registrations →
    ∃ earlier ∈ reception.made, earlier.ticket ∉ reception.ended ∧
      { earlier with draining := decide (earlier.ticket ∈ reception.begun) } =
        registration.settled
  /-- Those are listed that stand, in the order in which they were made. -/
  listeners : ∀ chain, reception.registry.listeners chain =
    (reception.standing chain).map (·.name)
  /-- Those are called that stand, in the same order. -/
  notified : ∀ listening chain unit, (reception.deal (.notify listening chain unit)).told =
    reception.told ++ (reception.standing chain).map fun registration =>
      ⟨registration.ticket, chain, unit⟩
  /-- To deregister a name begins with the registration that stands under it, if there is one. -/
  drains : ∀ chain name, (∃ own ∈ reception.standing chain, own.name = name ∧
      (reception.deal (.drain chain name)).begun = reception.begun ++ [own.ticket]) ∨
    (∀ own ∈ reception.standing chain, own.name ≠ name) ∧
      reception.registry.drain chain name = .error (.notFound chain name)
  /-- Whoever drains is not called again. -/
  silent : ∀ dealings, ∃ calls, (reception.run dealings).told = reception.told ++ calls ∧
    ∀ hearing ∈ calls, hearing.ticket ∉ reception.begun
  /-- A name can be registered if nobody stands under it, and nobody drains or that is tolerated. -/
  registers : ∀ chain name listener tolerateDraining,
    (∃ after, reception.registry.register chain name listener tolerateDraining = .ok after) ↔
      (∀ own ∈ reception.standing chain, own.name ≠ name) ∧
        (tolerateDraining = true ∨ ∀ own ∈ reception.leaving chain, own.name ≠ name)
  /-- A name under which everybody drains can be registered exactly if that is tolerated. -/
  reuses : ∀ chain name listener tolerateDraining,
    (∀ own ∈ reception.standing chain, own.name ≠ name) →
    (∃ own ∈ reception.leaving chain, own.name = name) →
    ((∃ after, reception.registry.register chain name listener tolerateDraining = .ok after) ↔
      tolerateDraining = true)
  /-- The end of a deregistration removes its registration and no other. -/
  removes : ∀ ticket ∈ reception.begun, ticket ∉ reception.ended → ∃ front gone back,
    reception.registry.registrations = front ++ gone :: back ∧ gone.ticket = ticket ∧
      gone.draining = true ∧
      (reception.deal (.finish ticket)).registry.registrations = front ++ back
  /-- Once a deregistration has ended, its registration is gone for good. -/
  gone : ∀ ticket ∈ reception.begun, ∀ dealings,
    ∀ registration ∈ ((reception.deal (.finish ticket)).run dealings).registry.registrations,
      registration.ticket ≠ ticket

section Disciplined

theorem Orderly.drains (orderly : reception.Orderly) (chain : ChainId) (name : String) :
    (∃ own ∈ reception.standing chain, own.name = name ∧
      (reception.deal (.drain chain name)).begun = reception.begun ++ [own.ticket]) ∨
    (∀ own ∈ reception.standing chain, own.name ≠ name) ∧
      reception.registry.drain chain name = .error (.notFound chain name) := by
  dsimp only [Reception.deal]
  cases done : reception.registry.drain chain name with
  | error problem =>
      unfold Registry.drain at done
      split at done
      · rename_i known
        cases done
        refine .inr ⟨fun own stands named => ?_, rfl⟩
        have listed : name ∈ reception.registry.listeners chain := by
          rw [orderly.listeners, ← named]
          exact List.mem_map_of_mem stands
        obtain ⟨registration, active, called⟩ := List.mem_map.mp listed
        obtain ⟨inside, active⟩ := List.mem_filter.mp active
        have missed := List.find?_eq_none.mp known registration inside
        simp [Registration.isActiveAs, active, called] at missed
      · cases done
  | ok result =>
      obtain ⟨found, registry⟩ := result
      obtain ⟨known, -⟩ := Registry.eq_of_drain done
      have active := List.find?_some known
      simp only [Registration.isActiveAs, Bool.and_eq_true, decide_eq_true_eq] at active
      obtain ⟨own, stands, ticket, named⟩ :=
        orderly.exists_standing (List.mem_of_find?_eq_some known) active.1
      exact .inl ⟨own, stands, named.trans active.2, by rw [ticket]⟩

theorem Orderly.registers (orderly : reception.Orderly) (chain : ChainId) (name : String)
    (listener : ℓ) (tolerateDraining : Bool) :
    (∃ after, reception.registry.register chain name listener tolerateDraining = .ok after) ↔
      (∀ own ∈ reception.standing chain, own.name ≠ name) ∧
        (tolerateDraining = true ∨ ∀ own ∈ reception.leaving chain, own.name ≠ name) := by
  have rolled := Registry.register_roster reception.registry chain name listener tolerateDraining
  rw [orderly.roster, Registry.register_eq] at rolled
  have answered : (∃ after, reception.registry.register chain name listener tolerateDraining =
      .ok after) ↔ Registry.takes (reception.roll.on chain) name tolerateDraining = false := by
    cases done : reception.registry.register chain name listener tolerateDraining <;>
      rw [done] at rolled <;> split at rolled <;> simp_all [Except.map]
  have taken : Registry.takes (reception.roll.on chain) name tolerateDraining = false ↔
      ∀ own ∈ reception.made, own.ticket ∉ reception.ended → own.chain = chain → own.name = name →
        own.ticket ∈ reception.begun ∧ tolerateDraining = true := by
    rw [Registry.takes, List.any_eq_false]
    constructor
    · intro free own made stays on named
      have absent := free _ (Registry.mem_on.mpr ⟨mem_roll.mpr ⟨own, made, stays, rfl⟩, on⟩)
      simpa [named] using absent
    · intro free registration inside
      obtain ⟨rolled, on⟩ := Registry.mem_on.mp inside
      obtain ⟨own, made, stays, rfl⟩ := mem_roll.mp rolled
      have absent := free own made stays on
      simpa using absent
  rw [answered, taken]
  constructor
  · refine fun free => ⟨fun own stands named => ?_, ?_⟩
    · obtain ⟨made, on, standing⟩ := mem_standing.mp stands
      exact standing (free own made (fun ended => standing (orderly.ended _ ended)) on named).1
    · by_cases tolerated : tolerateDraining = true
      · exact .inl tolerated
      · refine .inr fun own leaves named => ?_
        obtain ⟨made, on, -, stays⟩ := mem_leaving.mp leaves
        exact tolerated (free own made stays on named).2
  · rintro ⟨vacant, tolerated⟩ own made stays on named
    by_cases begun : own.ticket ∈ reception.begun
    · refine ⟨begun, tolerated.resolve_right fun quiet => ?_⟩
      exact quiet own (mem_leaving.mpr ⟨made, on, begun, stays⟩) named
    · exact absurd named (vacant own (mem_standing.mpr ⟨made, on, begun⟩))

theorem Orderly.removes (orderly : reception.Orderly) {ticket : Nat}
    (begun : ticket ∈ reception.begun) (going : ticket ∉ reception.ended) :
    ∃ front gone back, reception.registry.registrations = front ++ gone :: back ∧
      gone.ticket = ticket ∧ gone.draining = true ∧
      (reception.deal (.finish ticket)).registry.registrations = front ++ back := by
  have made : ticket ∈ reception.made.map (·.ticket) :=
    orderly.numbered ▸ List.mem_range.mpr (orderly.issued ticket begun)
  obtain ⟨earlier, inside, rfl⟩ := List.mem_map.mp made
  have rolled := mem_roll.mpr ⟨earlier, inside, going, rfl⟩
  rw [← orderly.roster] at rolled
  obtain ⟨gone, held, same⟩ := List.mem_map.mp rolled
  obtain ⟨front, back, split⟩ := List.append_of_mem held
  have ticket : gone.ticket = earlier.ticket := (Registration.mk.inj same).1
  refine ⟨front, gone, back, split, ticket, ?_, ?_⟩
  · exact (Registration.mk.inj same).2.2.2.2.1.trans (by simpa using begun)
  · rw [deal_finish begun, ← ticket]
    exact orderly.ticketed.remove_eq split

theorem Orderly.gone (orderly : reception.Orderly) {ticket : Nat}
    (begun : ticket ∈ reception.begun) (dealings : List (Dealing ℓ ω))
    {registration : Registration ℓ} (inside : registration ∈
      ((reception.deal (.finish ticket)).run dealings).registry.registrations) :
    registration.ticket ≠ ticket := by
  have finished := orderly.finish ticket
  obtain ⟨earlier, -, stays, same⟩ := (finished.run dealings).exists_made inside
  have ended : ticket ∈ (reception.deal (.finish ticket)).ended := by
    rw [deal_finish begun]
    exact List.mem_append_right _ List.mem_cons_self
  rintro rfl
  have ticket := congrArg (fun other : Registration ℓ => other.ticket) same
  exact stays (ticket ▸ (finished.follows_run dealings).ended ended)

theorem Orderly.disciplined (orderly : reception.Orderly) : reception.Disciplined where
  single := orderly.eq_of_active
  kept := orderly.exists_made
  listeners := orderly.listeners
  notified := orderly.told_notify
  drains := orderly.drains
  silent dealings := (orderly.follows_run dealings).told
  registers := orderly.registers
  reuses := by
    rintro chain name listener tolerateDraining vacant ⟨own, leaves, named⟩
    rw [orderly.registers]
    refine ⟨fun free => ?_, fun tolerated => ⟨vacant, .inl tolerated⟩⟩
    exact free.2.resolve_right fun quiet => quiet own leaves named
  removes _ begun going := orderly.removes begun going
  gone _ begun dealings _ inside := orderly.gone begun dealings inside

end Disciplined

end Reception

end DecisionLedger
