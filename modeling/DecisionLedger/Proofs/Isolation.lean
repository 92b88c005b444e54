import DecisionLedger.Proofs.Sharing
import Mathlib.Data.List.InsertIdx

/-! # Chains are isolated from each other

Whatever is done for the others that share a listener group with it, a chain answers, stores and
announces the same, and its listeners hear the same and fail as often in a row.
-/

namespace DecisionLedger

/-- Two chains are the same, and so is all that they can tell of what they share, up to tickets. -/
structure Agree {ℓ : Type} (owner : ℓ → ChainId) (chain : ChainId) (tickets : Equiv.Perm Nat)
    (left right : Side ℓ × Commons ℓ) : Prop where
  manager : right.1.manager = left.1.manager
  disk : right.1.disk = left.1.disk
  events : right.1.events = left.1.events
  replies : right.1.replies = left.1.replies
  leaving : right.1.leaving = left.1.leaving.map (·.retag tickets)
  group : Registry.Agrees chain tickets left.2.group right.2.group
  heard : ∀ listener, owner listener = chain →
    right.2.heard listener = left.2.heard listener

namespace Agree

variable {ℓ : Type} {owner : ℓ → ChainId} {chain : ChainId} {tickets : Equiv.Perm Nat}
  {left right : Side ℓ × Commons ℓ}

theorem same_chain (agree : Agree owner chain tickets left right) :
    right.1.chain = left.1.chain :=
  congrArg (fun manager : Manager => manager.config.chain) agree.manager

theorem reply (agree : Agree owner chain tickets left right) (reply : Reply) :
    Agree owner chain tickets (left.1.reply reply, left.2) (right.1.reply reply, right.2) :=
  { agree with replies := congrArg (· ++ [reply]) agree.replies }

end Agree

section Agree

variable {ℓ : Type} [DecidableEq ℓ] {owner : ℓ → ChainId} {chain : ChainId}
  {tickets : Equiv.Perm Nat} {left right : Side ℓ × Commons ℓ}

theorem Conduct.blind (conduct : Conduct ℓ) (owner : ℓ → ChainId) (chain : ChainId)
    (time : Instant) (unit : DecisionUnit) :
    Registry.Blind (conduct.listening time) chain unit (fun listener => owner listener = chain)
      fun left right => ∀ listener, owner listener = chain → right listener = left listener where
  answer own same := by simp only [listening, same _ own]
  after own same := by
    intro listener mine
    simp only [listening, same _ own, Function.update_apply]
    split
    · rfl
    · exact same listener mine
  critical own same := by simp only [listening, same _ own]

/-- A chain's manager cannot tell what agrees apart. -/
theorem Conduct.respects_agree (conduct : Conduct ℓ) (owner : ℓ → ChainId) (time : Instant)
    (chain : ChainId) (tickets : Equiv.Perm Nat) :
    (conduct.host time).Respects chain fun left right =>
      Agree owner chain tickets left right ∧ left.2.group.Owned owner where
  store same := by simp only [host, same.1.disk]
  write := by
    rintro left right batch ⟨agree, owned⟩
    dsimp only [Conduct.host]
    rw [agree.disk]
    cases left.1.disk.write batch with
    | error error => exact .inl ⟨error, rfl, rfl⟩
    | ok disk => exact .inr ⟨_, _, rfl, rfl, { agree with disk := rfl }, owned⟩
  answer := by
    rintro left right unit ⟨agree, owned⟩
    exact (agree.group.notify (conduct.blind owner chain time unit) owned.on agree.heard).1
  deliver := by
    rintro left right unit ⟨agree, owned⟩
    obtain ⟨-, group, heard⟩ :=
      agree.group.notify (conduct.blind owner chain time unit) owned.on agree.heard
    exact ⟨{ agree with group, heard }, owned.of_roster (Registry.roster_notify _ _ _ _ _).symm⟩
  publish := by
    rintro left right event ⟨agree, owned⟩
    exact ⟨{ agree with events := congrArg (· ++ [event]) agree.events }, owned⟩

theorem Agree.call (agree : Agree owner left.1.chain tickets left right)
    (owned : left.2.group.Owned owner) (conduct : Conduct ℓ) (time : Instant) (request : Call) :
    Agree owner left.1.chain tickets (Deed.perform conduct time (.call request) left)
      (Deed.perform conduct time (.call request) right) := by
  obtain ⟨answer, manager, same, -⟩ :=
    (conduct.respects_agree owner time left.1.chain tickets).call request ⟨agree, owned⟩
  simp only [Deed.perform, agree.manager]
  exact {
    manager := manager.symm
    disk := same.disk
    events := same.events
    replies := by
      simp only [Side.reply]
      rw [same.replies, answer]
    leaving := same.leaving
    group := same.group
    heard := same.heard }

section Deeds

variable (agree : Agree owner left.1.chain tickets left right) (conduct : Conduct ℓ)
  (time : Instant)

include agree

theorem Agree.register (orderly : Orderly owner left) (other : Orderly owner right)
    (name : String) (listener : ℓ) (tolerateDraining : Bool) :
    ∃ later, Agree owner left.1.chain later
      (Deed.perform conduct time (.register name listener tolerateDraining) left)
      (Deed.perform conduct time (.register name listener tolerateDraining) right) := by
  dsimp only [Deed.perform]
  rw [agree.same_chain]
  rcases agree.group.register orderly.ticketed other.ticketed name listener tolerateDraining
    with ⟨taken, also⟩ | ⟨grown, widened, done, also, group⟩
  · rw [taken, also]
    exact ⟨tickets, agree.reply _⟩
  · rw [done, also]
    refine ⟨_, { agree.reply (.registered (.ok ())) with
      group, leaving := agree.leaving.trans ?_ }⟩
    refine List.map_congr_left fun registration inside => (Registry.retag_pair ?_ ?_).symm
    · exact (orderly.leaving registration inside).below
    · exact (other.leaving _ (agree.leaving ▸ List.mem_map_of_mem inside)).below

theorem Agree.drain (name : String) :
    Agree owner left.1.chain tickets (Deed.perform conduct time (.drain name) left)
      (Deed.perform conduct time (.drain name) right) := by
  dsimp only [Deed.perform]
  rw [agree.same_chain]
  rcases agree.group.drain name with ⟨missing, also⟩ | ⟨found, inside, done, also⟩
  · rw [missing, also]
    exact agree.reply _
  · rw [done, also]
    refine { agree with group := agree.group.drainAt found.ticket, leaving := ?_ }
    simp [agree.leaving]

/-- The listener that is removed is the chain's own, so both have heard the same. -/
theorem Agree.finish (orderly : Orderly owner left) (position : Nat) :
    Agree owner left.1.chain tickets (Deed.perform conduct time (.finish position) left)
      (Deed.perform conduct time (.finish position) right) := by
  dsimp only [Deed.perform]
  rw [agree.leaving, List.getElem?_map]
  cases found : left.1.leaving[position]? with
  | none => exact agree
  | some registration =>
      have own := (orderly.leaving registration (List.mem_of_getElem? found)).owned
      have heard : right.2.heard (registration.retag tickets).listener =
        left.2.heard registration.listener := agree.heard _ own
      dsimp only [Option.map_some]
      rw [heard, agree.same_chain]
      refine { agree.reply _ with
        leaving := ?_, heard := fun listener mine => ?_,
        group := agree.group.remove registration.ticket }
      · simp [Side.reply, List.eraseIdx_map]
      · simp only [Registration.retag, Function.update_apply]
        split
        · rfl
        · exact agree.heard listener mine

theorem Agree.perform (orderly : Orderly owner left) (other : Orderly owner right)
    (deed : Deed ℓ) :
    ∃ later, Agree owner left.1.chain later (deed.perform conduct time left)
      (deed.perform conduct time right) := by
  cases deed with
  | call request => exact ⟨tickets, agree.call orderly.owned conduct time request⟩
  | register name listener tolerateDraining =>
      exact agree.register conduct time orderly other name listener tolerateDraining
  | drain name => exact ⟨tickets, agree.drain conduct time name⟩
  | finish position => exact ⟨tickets, agree.finish conduct time orderly position⟩
  | disturb change => exact ⟨tickets, { agree with disk := congrArg change agree.disk }⟩

end Deeds

end Agree

/-- A deed on one of several chains, at a moment. -/
structure Stride (κ ℓ : Type) where
  site : κ
  time : Instant
  deed : Deed ℓ

/-- Chains that share a listener group. -/
structure Community (κ ℓ : Type) where
  sides : κ → Side ℓ
  commons : Commons ℓ

namespace Community

section Views

variable {κ ℓ : Type} {owner : ℓ → ChainId} {left right : Community κ ℓ} {site : κ}

/-- Chains of different IDs, with listeners of their own in a group in good order. -/
structure Proper (owner : ℓ → ChainId) (community : Community κ ℓ) : Prop where
  distinct : ∀ {site other}, (community.sides site).chain = (community.sides other).chain →
    site = other
  orderly : ∀ site, Orderly owner (community.sides site, community.commons)

/-- Two communities are the same to a chain and its listeners. -/
structure Alike (owner : ℓ → ChainId) (site : κ) (left right : Community κ ℓ) : Prop where
  manager : (right.sides site).manager = (left.sides site).manager
  disk : (right.sides site).disk = (left.sides site).disk
  events : (right.sides site).events = (left.sides site).events
  replies : (right.sides site).replies = (left.sides site).replies
  /-- The chain's registrations, with their failures in a row, but for the tickets. -/
  registrations : ((right.commons.group.on (right.sides site).chain).map fun registration =>
      { registration with ticket := 0 }) =
    (left.commons.group.on (left.sides site).chain).map fun registration =>
      { registration with ticket := 0 }
  heard : ∀ listener, owner listener = (left.sides site).chain →
    right.commons.heard listener = left.commons.heard listener

theorem alike_of_agree {tickets : Equiv.Perm Nat}
    (agree : Agree owner (left.sides site).chain tickets (left.sides site, left.commons)
      (right.sides site, right.commons)) : Alike owner site left right where
  manager := agree.manager
  disk := agree.disk
  events := agree.events
  replies := agree.replies
  registrations := by
    have same : (right.sides site).chain = (left.sides site).chain := agree.same_chain
    have group : right.commons.group.on (left.sides site).chain = _ := agree.group
    rw [same, group, List.map_map]
    rfl
  heard := agree.heard

theorem proper_of_fresh {start : Community κ ℓ}
    (distinct : ∀ {site other}, (start.sides site).chain = (start.sides other).chain →
      site = other) (empty : start.commons.group = .empty)
    (fresh : ∀ site, (start.sides site).leaving = []) : Proper owner start where
  distinct := distinct
  orderly site := by
    refine ⟨?_, ?_, ?_⟩ <;> dsimp only
    · rw [empty]
      exact ⟨by simp [Registry.empty], by simp [Registry.empty]⟩
    · rw [empty]
      exact fun registration inside => by simp [Registry.empty] at inside
    · simp [fresh]

end Views

variable {κ ℓ : Type} [DecidableEq κ] [DecidableEq ℓ]

def perform (conduct : Conduct ℓ) (community : Community κ ℓ) (stride : Stride κ ℓ) :
    Community κ ℓ :=
  let (side, commons) :=
    stride.deed.perform conduct stride.time (community.sides stride.site, community.commons)
  { sides := Function.update community.sides stride.site side, commons }

def run (conduct : Conduct ℓ) (community : Community κ ℓ) (strides : List (Stride κ ℓ)) :
    Community κ ℓ :=
  strides.foldl (perform conduct) community

section Run

variable {conduct : Conduct ℓ} {owner : ℓ → ChainId} {left right : Community κ ℓ} {site : κ}
  {stride : Stride κ ℓ}

theorem scene_perform (conduct : Conduct ℓ) (community : Community κ ℓ) (stride : Stride κ ℓ) :
    ((community.perform conduct stride).sides stride.site,
        (community.perform conduct stride).commons) =
      stride.deed.perform conduct stride.time
        (community.sides stride.site, community.commons) := by
  simp [Community.perform]

theorem sides_perform_of_ne (conduct : Conduct ℓ) (community : Community κ ℓ)
    (apart : site ≠ stride.site) :
    (community.perform conduct stride).sides site = community.sides site := by
  simp [Community.perform, apart]

theorem Proper.advances (proper : Proper owner left) (conduct : Conduct ℓ)
    (fits : stride.deed.Fits owner (left.sides stride.site).chain) :
    Advances owner (left.sides stride.site, left.commons)
      ((left.perform conduct stride).sides stride.site, (left.perform conduct stride).commons) := by
  rw [scene_perform]
  exact advances_perform conduct stride.time (proper.orderly stride.site) fits

theorem chain_perform (proper : Proper owner left) (conduct : Conduct ℓ)
    (fits : stride.deed.Fits owner (left.sides stride.site).chain) (site : κ) :
    ((left.perform conduct stride).sides site).chain = (left.sides site).chain := by
  by_cases here : site = stride.site
  · subst here
    exact (proper.advances conduct fits).chain
  · rw [sides_perform_of_ne conduct left here]

theorem Proper.perform (proper : Proper owner left) (conduct : Conduct ℓ)
    (fits : stride.deed.Fits owner (left.sides stride.site).chain) :
    Proper owner (left.perform conduct stride) where
  distinct := by
    intro site other same
    rw [chain_perform proper conduct fits, chain_perform proper conduct fits] at same
    exact proper.distinct same
  orderly site := by
    have advances := proper.advances conduct fits
    by_cases here : site = stride.site
    · subst here
      exact advances.orderly
    · refine ⟨advances.orderly.ticketed, advances.orderly.owned, ?_⟩
      rw [sides_perform_of_ne conduct left here]
      exact fun registration inside =>
        ((proper.orderly site).leaving registration inside).evolves advances.evolves

theorem agree_apart {tickets : Equiv.Perm Nat}
    (agree : Agree owner (left.sides site).chain tickets (left.sides site, left.commons)
      (right.sides site, right.commons)) (proper : Proper owner left) (conduct : Conduct ℓ)
    (fits : stride.deed.Fits owner (left.sides stride.site).chain) (apart : site ≠ stride.site) :
    Agree owner (left.sides site).chain tickets
      ((left.perform conduct stride).sides site, (left.perform conduct stride).commons)
      (right.sides site, right.commons) := by
  have advances := proper.advances conduct fits
  have chains : (left.sides stride.site).chain ≠ (left.sides site).chain :=
    fun same => apart (proper.distinct same).symm
  rw [sides_perform_of_ne conduct left apart]
  refine { agree with group := ?_, heard := fun listener own => ?_ }
  · rw [Registry.Agrees, advances.on _ chains]
    exact agree.group
  · rw [advances.heard listener (own ▸ chains.symm)]
    exact agree.heard listener own

theorem agree_strides (conduct : Conduct ℓ) (proper : Proper owner left) (also : Proper owner right)
    {tickets : Equiv.Perm Nat}
    (agree : Agree owner (left.sides site).chain tickets (left.sides site, left.commons)
      (right.sides site, right.commons)) (strides : List (Stride κ ℓ))
    (fits : ∀ stride ∈ strides, stride.deed.Fits owner (left.sides stride.site).chain) :
    ∃ later, Agree owner ((left.run conduct strides).sides site).chain later
      ((left.run conduct strides).sides site, (left.run conduct strides).commons)
      ((right.run conduct (strides.filter (·.site = site))).sides site,
        (right.run conduct (strides.filter (·.site = site))).commons) := by
  induction strides generalizing left right tickets with
  | nil => exact ⟨tickets, agree⟩
  | cons stride rest ih =>
      have first := fits stride List.mem_cons_self
      have others : ∀ later ∈ rest,
          later.deed.Fits owner ((left.perform conduct stride).sides later.site).chain := by
        intro later inside
        rw [chain_perform proper conduct first]
        exact fits later (List.mem_cons_of_mem _ inside)
      have next := proper.perform conduct first
      -- Both runs do what is done on the chain, and only the left one what is done elsewhere.
      by_cases here : stride.site = site
      · subst here
        have same : (right.sides stride.site).chain = (left.sides stride.site).chain :=
          agree.same_chain
        obtain ⟨later, both⟩ := agree.perform conduct stride.time (proper.orderly _)
          (also.orderly _) stride.deed
        rw [← scene_perform, ← scene_perform] at both
        dsimp only at both
        rw [← chain_perform proper conduct first] at both
        rw [List.filter_cons_of_pos (by simp)]
        exact ih next (also.perform conduct (same ▸ first)) both others
      · have still := agree_apart agree proper conduct first (Ne.symm here)
        rw [← chain_perform proper conduct first] at still
        rw [List.filter_cons_of_neg (by simpa using here)]
        exact ih next also still others

/-- Whatever is done on other chains, in whatever order, a chain and its listeners are as if nothing
had been done but on this chain. -/
theorem isolated_run (conduct : Conduct ℓ) (owner : ℓ → ChainId) (start : Community κ ℓ)
    (proper : Proper owner start) (strides : List (Stride κ ℓ))
    (fits : ∀ stride ∈ strides, stride.deed.Fits owner (start.sides stride.site).chain)
    (site : κ) :
    Alike owner site (start.run conduct strides)
      (start.run conduct (strides.filter (·.site = site))) := by
  have agree : Agree owner (start.sides site).chain (Equiv.refl Nat)
      (start.sides site, start.commons) (start.sides site, start.commons) :=
    { manager := rfl, disk := rfl, events := rfl, replies := rfl, heard := fun _ _ => rfl,
      leaving := by simp [Registration.retag], group := .refl _ }
  obtain ⟨later, same⟩ := agree_strides conduct proper proper agree strides fits
  exact alike_of_agree same

/-- Two chains that go on beside each other. -/
def neighbours : Community Bool Bool where
  sides site := {
    manager := .initial { chain := if site then 1 else 2 } .genesis
    disk := { store := Store.empty.apply (Batch.found ∅), outage := none } }
  commons := { group := .empty, heard := fun _ => [] }

/-- The listener of the first chain takes nothing, that of the second chain everything. -/
def uneven : Conduct Bool where
  takes listener _ := if listener then some .closed else none
  critical _ _ := true
  cleansUp _ _ := none

def offspring : DecisionUnit :=
  .ofFields { parent := DecisionUnit.genesis.id, height := 1, timestamp := none,
              body := .standard [{ inputs := [], outputs := [([0x01], [0x02])], requests := [] }] }
    (by decide)

def errands (site : Bool) : List (Deed Bool) :=
  [.register "index" site false, .call (.verify offspring), .call (.accept offspring.id),
    .drain "index", .finish 0]

def turns : List (Stride Bool Bool) :=
  (errands true).zip (errands false) |>.flatMap fun (first, second) =>
    [⟨true, 0, first⟩, ⟨false, 0, second⟩]

theorem turns_fit : ∀ stride ∈ turns,
    stride.deed.Fits (if · then 1 else 2) (neighbours.sides stride.site).chain := by
  simp only [turns, errands, List.zip_cons_cons, List.zip_nil_left, List.flatMap_cons,
    List.flatMap_nil, List.cons_append, List.nil_append, List.forall_mem_cons]
  exact ⟨rfl, rfl, trivial, trivial, trivial, trivial, trivial, trivial, trivial, trivial, nofun⟩

set_option maxRecDepth 100000 in
/-- The first chain halts, and the second does not notice. -/
theorem neighbours_isolated :
    ((neighbours.run uneven turns).sides true).manager.halted.isSome = true ∧
      ((neighbours.run uneven turns).sides false).manager.halted = none ∧
      ((neighbours.run uneven turns).sides false).replies.length = 4 ∧
      Alike (if · then 1 else 2) false (neighbours.run uneven turns)
        (neighbours.run uneven (turns.filter (·.site = false))) := by
  refine ⟨by decide +kernel, by decide +kernel, by decide +kernel, ?_⟩
  have proper : Proper (if · then 1 else 2) neighbours :=
    proper_of_fresh (by decide) rfl fun _ => rfl
  exact isolated_run uneven _ neighbours proper turns turns_fit false

end Run

end Community

end DecisionLedger
