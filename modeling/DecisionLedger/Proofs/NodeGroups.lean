import DecisionLedger.Proofs.Delivery
import DecisionLedger.Proofs.NodeHost

/-! # Listener groups of a node

A manager on a node passes what it accepts to a listener group of the node.  Listeners come and go
there between its calls; when one is deregistered, it may have others registered, deregistered and
notified before it is gone.
-/

namespace DecisionLedger

theorem HostedManager.answer_calls (hosted : HostedManager) (node : Node) (unit : DecisionUnit)
    (id : UnitId) :
    (hosted.verify node unit).1 =
        (Call.verify unit).answer hosted.site.lawful (hosted.situation node) ∧
      (hosted.reject node id).1 =
        (Call.reject id).answer hosted.site.lawful (hosted.situation node) ∧
      (hosted.accept node id).1 =
        (Call.accept id).answer hosted.site.lawful (hosted.situation node) := by
  refine ⟨?_, ?_, rfl⟩
  · have store_eq : hosted.site.lawful.store (node, hosted.outlet) =
        node.store hosted.site.disk := rfl
    dsimp only [verify, adopt, situation, Call.answer]
    rw [store_eq]
    cases hosted.manager.verify (node.store hosted.site.disk) unit <;> rfl
  · dsimp only [reject, adopt, situation, Call.answer]
    cases hosted.manager.reject id <;> rfl

def Listening.beside {ℓ ω : Type} (listening : Listening ℓ ω) (τ : Type) :
    Listening ℓ (ω × τ) where
  accept listener chain unit world :=
    let (outcome, after) := listening.accept listener chain unit world.1
    (outcome, after, world.2)
  critical listener world := listening.critical listener world.1

namespace Registry

variable {ℓ ω τ : Type} (listening : Listening ℓ ω) (chain : ChainId) (unit : DecisionUnit)

theorem notifyEach_beside (registrations : List (Registration ℓ)) (world : ω) (rest : τ) :
    notifyEach (listening.beside τ) chain unit registrations (world, rest) =
      let (notified, failures, final) := notifyEach listening chain unit registrations world
      (notified, failures, final, rest) := by
  induction registrations generalizing world with
  | nil => rfl
  | cons registration later ih =>
      rw [notifyEach, notifyEach]
      split
      · cases taken : listening.accept registration.listener chain unit world with
        | mk outcome after =>
            have beside : (listening.beside τ).accept registration.listener chain unit
                (world, rest) = (outcome, after, rest) := by
              simp [Listening.beside, taken]
            rw [beside]
            dsimp only
            rw [ih]
            cases outcome <;> rfl
      · rw [ih]

theorem notify_beside (registry : Registry ℓ) (world : ω) (rest : τ) :
    registry.notify (listening.beside τ) chain unit (world, rest) =
      let (failed, after, final) := registry.notify listening chain unit world
      (failed, after, final, rest) := by
  rw [notify, notifyEach_beside]
  rfl

end Registry

namespace Node

variable {node : Node}

theorem group_setGroup (node : Node) (name other : String) (registry : Registry ListenerId) :
    (node.setGroup name registry).group other =
      if name = other then registry else node.group other := by
  rw [Node.group, setGroup, Std.ExtTreeMap.getD_insert]
  by_cases same : name = other <;> simp [same, Node.group]

theorem exists_eq_of_write {after : Node} {name : String} {batch : Batch}
    (done : node.write name batch = .ok after) : ∃ disks, after = { node with disks } := by
  unfold write at done
  split at done <;> cases done
  exact ⟨_, rfl⟩

theorem exists_eq_accept (acceptedAt : Instant) (id : ListenerId) (chain : ChainId)
    (unit : DecisionUnit) (node : Node) :
    ∃ disks notes, (accept acceptedAt id chain unit node).2 = { node with disks, notes } := by
  unfold Node.accept
  split
  · exact ⟨_, _, rfl⟩
  · split <;> exact ⟨_, _, rfl⟩
  · split
    · exact ⟨_, _, rfl⟩
    · split <;> exact ⟨_, _, rfl⟩

theorem exists_eq_notifyEach (acceptedAt : Instant) (chain : ChainId) (unit : DecisionUnit)
    (registrations : List (Registration ListenerId)) (node : Node) :
    ∃ disks notes, (Registry.notifyEach (listening acceptedAt) chain unit registrations
      node).2.2 = { node with disks, notes } := by
  induction registrations generalizing node with
  | nil => exact ⟨_, _, rfl⟩
  | cons registration rest ih =>
      rw [Registry.notifyEach]
      split
      · obtain ⟨disks, notes, taken⟩ :=
          exists_eq_accept acceptedAt registration.listener chain unit node
        have later := ih (accept acceptedAt registration.listener chain unit node).2
        rw [taken] at later
        dsimp only [listening] at later ⊢
        rw [taken]
        split <;> exact later
      · exact ih node

theorem notifyEach_apart (acceptedAt : Instant) (chain : ChainId) (unit : DecisionUnit)
    (registrations : List (Registration ListenerId)) (node : Node) :
    let after := (Registry.notifyEach (listening acceptedAt) chain unit registrations node).2.2
    after.groups = node.groups ∧ after.listeners = node.listeners := by
  obtain ⟨disks, notes, same⟩ := exists_eq_notifyEach acceptedAt chain unit registrations node
  rw [same]
  exact ⟨rfl, rfl⟩

end Node

/-- A manager on a node, with the listener group of its site. -/
def Site.groupHost (site : Site) : GroupHost ListenerId (Node × Outlet) where
  toLawfulHost := site.lawful
  group world := world.1.group site.group
  listening world := (Node.listening world.1.clock).beside Outlet
  regroup chain failed registry world :=
    let failures := match failed with
      | none => []
      | some error => error.failures
    ((world.1.setGroup site.group registry).report (failures.map (Registry.failureLine chain)),
      world.2)
  deliver_eq chain unit world := by
    obtain ⟨node, outlet⟩ := world
    dsimp only
    rw [Registry.notify_beside]
    rfl
  group_regroup chain failed registry world := by
    have same := Node.group_setGroup world.1 site.group site.group registry
    rw [if_pos rfl] at same
    exact same
  group_write := by
    intro batch world after done
    obtain ⟨node, stored, rfl⟩ := site.exists_of_write done
    obtain ⟨disks, rfl⟩ := Node.exists_eq_of_write stored
    rfl
  group_publish event world := rfl

namespace Node

/-- No listener of a node notifies a chain of a group when it is deregistered. -/
def Quiet (node : Node) (group : String) (chain : ChainId) : Prop :=
  ∀ {id : ListenerId} {probe : Probe}, node.listeners[id]? = some (.probe probe) →
    probe.action = some .notify → probe.group = group → probe.chain ≠ chain

theorem Quiet.addProbe {node : Node} {group : String} {chain : ChainId}
    (quiet : node.Quiet group chain) (probe : Probe) (idle : probe.action = none) :
    (node.addListener fun _ => .probe probe).2.Quiet group chain := by
  intro id other found acts
  simp only [addListener, Std.ExtTreeMap.getElem?_insert] at found
  split at found
  · cases found
    rw [idle] at acts
    cases acts
  · exact quiet found acts

/-- What is done to a node that leaves the ledgers alone, and changes a listener group as others may
while a chain goes on. -/
structure Meddles (group : String) (chain : ChainId) (before after : Node) : Prop where
  ledger : ∀ name, (before.store name).SameLedger (after.store name)
  quiet : before.Quiet group chain → after.Quiet group chain
  changes : before.Quiet group chain → (before.group group).Ticketed →
    (before.group group).Changes chain (after.group group)

section Meddles

variable {group : String} {chain : ChainId} {before middle after : Node}

theorem Meddles.trans (first : Meddles group chain before middle)
    (second : Meddles group chain middle after) : Meddles group chain before after where
  ledger name := (first.ledger name).trans (second.ledger name)
  quiet quiet := second.quiet (first.quiet quiet)
  changes quiet ticketed := by
    have changed := first.changes quiet ticketed
    exact changed.trans (second.changes (first.quiet quiet) (changed.ticketed ticketed))

theorem Meddles.of_eq (disks : after.disks = before.disks) (groups : after.groups = before.groups)
    (listeners : after.listeners = before.listeners) : Meddles group chain before after where
  ledger name := by
    rw [store_of_disks disks]
    exact Store.SameLedger.refl _
  quiet quiet := by
    intro id probe found
    exact quiet (listeners ▸ found)
  changes _ _ := by
    rw [Node.group, Node.group, groups]
    exact Relation.ReflTransGen.refl

theorem Meddles.refl (node : Node) : Meddles group chain node node := .of_eq rfl rfl rfl

theorem meddles_setGroup (name : String) (registry : Registry ListenerId)
    (changes : name = group → node.Quiet group chain → (node.group group).Ticketed →
      (node.group group).Changes chain registry) :
    Meddles group chain node (node.setGroup name registry) where
  ledger _ := Store.SameLedger.refl _
  quiet quiet := quiet
  changes quiet ticketed := by
    rw [group_setGroup]
    split
    · rename_i same
      exact changes same quiet ticketed
    · exact Relation.ReflTransGen.refl

theorem meddles_register (name : String) (on : ChainId) (listener : String) (id : ListenerId)
    (tolerateDraining : Bool) :
    Meddles group chain node (node.register name on listener id tolerateDraining).2 := by
  unfold register
  cases done : (node.group name).register on listener id tolerateDraining with
  | error error => exact .refl node
  | ok registry =>
      refine (meddles_setGroup name registry fun same _ _ => ?_).trans (.of_eq rfl rfl rfl)
      subst same
      exact .single (.registered done)

theorem meddles_notify (name : String) (on : ChainId) (unit : DecisionUnit)
    (acceptedAt : Instant) (apart : node.Quiet group chain → name = group → on ≠ chain) :
    Meddles group chain node (node.notify name on unit acceptedAt).2 := by
  have untouched := notifyEach_apart acceptedAt on unit (node.group name).registrations node
  refine ⟨fun disk => (sameElsewhere_notify name on unit acceptedAt node disk).sameLedger,
    fun quiet => ?_,
    fun quiet ticketed => ?_⟩
  · intro id probe found
    exact quiet (untouched.2 ▸ found)
  · have notified : (node.notify name on unit acceptedAt).2.group group =
        if name = group then ((node.group name).notify (listening acceptedAt) on unit node).2.1
        else (Registry.notifyEach (listening acceptedAt) on unit (node.group name).registrations
          node).2.2.group group := group_setGroup _ name group _
    rw [notified]
    split
    · rename_i same
      subst same
      exact .single (.notified (listening acceptedAt) unit node (apart quiet rfl))
    · rw [Node.group, Node.group, untouched.1]
      exact Relation.ReflTransGen.refl

/-- A listener may be changed as long as a probe that results acts as one did before. -/
theorem meddles_modifyListener (id : ListenerId) (change : Listener → Listener)
    (acts : ∀ {listener probe}, change listener = .probe probe → ∃ earlier : Probe,
      listener = .probe earlier ∧ earlier.action = probe.action ∧
        earlier.group = probe.group ∧ earlier.chain = probe.chain) (node : Node) :
    Meddles group chain node (node.modifyListener id change) where
  ledger _ := Store.SameLedger.refl _
  quiet quiet := by
    intro other probe found action named
    rw [modifyListener, Std.ExtTreeMap.getElem?_modify] at found
    split at found
    · obtain ⟨listener, known, same⟩ := Option.map_eq_some_iff.mp found
      obtain ⟨earlier, rfl, sameAction, sameGroup, sameChain⟩ := acts same
      rw [← sameChain]
      exact quiet known (sameAction.trans action) (sameGroup.trans named)
    · exact quiet found action named
  changes _ _ := Relation.ReflTransGen.refl

theorem meddles_closeIndex (id : ListenerId) (node : Node) :
    Meddles group chain node (node.closeIndex id) := by
  refine meddles_modifyListener id _ (fun {listener probe} same => ?_) node
  cases listener with
  | index hosted => cases same
  | probe earlier =>
      cases same
      exact ⟨probe, rfl, rfl, rfl, rfl⟩

theorem meddles_addProbe (probe : Probe) (still : probe.action ≠ some .notify) (node : Node) :
    Meddles group chain node (node.addListener fun _ => .probe probe).2 where
  ledger _ := Store.SameLedger.refl _
  quiet quiet := by
    intro id other found acts
    simp only [addListener, Std.ExtTreeMap.getElem?_insert] at found
    split at found
    · cases found
      exact absurd acts still
    · exact quiet found acts
  changes _ _ := Relation.ReflTransGen.refl

theorem meddles_act
    (deregister : String → ChainId → String → Node → Option RegistryError × Node)
    (meddles : ∀ name on listener node,
      Meddles group chain node (deregister name on listener node).2)
    {id : ListenerId} {probe : Probe} {action : ProbeAction}
    (found : node.listeners[id]? = some (.probe probe)) (acts : probe.action = some action) :
    Meddles group chain node (act deregister probe node action).2 := by
  cases action with
  | list => exact .refl node
  | notify =>
      have told : Meddles group chain node
          (node.notify probe.group probe.chain .genesis node.clock).2 :=
        meddles_notify _ _ _ _ fun quiet same => quiet found acts same
      dsimp only [act]
      split <;> (rename_i outcome; rwa [outcome] at told)
  | register name tolerateDraining =>
      have grown : Meddles group chain node (node.addListener fun _ => .probe { probe with
          failure := none, action := some .list, cleanupFailure := none }).2 :=
        meddles_addProbe _ (by simp) node
      have joined := grown.trans
        (meddles_register probe.group probe.chain name node.nextListener tolerateDraining)
      dsimp only [act]
      dsimp only [addListener] at joined ⊢
      split <;> (rename_i outcome; rwa [outcome] at joined)
  | deregister name =>
      have gone := meddles probe.group probe.chain name node
      dsimp only [act]
      split <;> (rename_i outcome; rwa [outcome] at gone)

theorem meddles_cleanUp
    (deregister : String → ChainId → String → Node → Option RegistryError × Node)
    (meddles : ∀ name on listener node,
      Meddles group chain node (deregister name on listener node).2)
    (id : ListenerId) (node : Node) : Meddles group chain node (cleanUp deregister id node).2 := by
  unfold cleanUp
  split
  · exact .refl node
  · exact meddles_closeIndex id node
  · rename_i probe found
    split
    · exact .refl node
    · rename_i action acts
      exact (meddles_act deregister meddles found acts).trans (.of_eq rfl rfl rfl)

theorem meddles_deregisterWithin (depth : Nat) (name : String) (on : ChainId) (listener : String)
    (node : Node) : Meddles group chain node (deregisterWithin depth name on listener node).2 := by
  induction depth generalizing name on listener node with
  | zero => exact .refl node
  | succ depth ih =>
      rw [deregisterWithin]
      cases drained : (node.group name).drain on listener with
      | error error => exact .refl node
      | ok result =>
          obtain ⟨registration, draining⟩ := result
          dsimp only
          have started : Meddles group chain node (node.setGroup name draining) := by
            refine meddles_setGroup name draining fun same _ _ => ?_
            subst same
            exact .single (.drained drained)
          -- the clean-up may itself deregister listeners, one level further down
          have cleaned := meddles_cleanUp (deregisterWithin depth) ih registration.listener
            (node.setGroup name draining)
          generalize (cleanUp (deregisterWithin depth) registration.listener
            (node.setGroup name draining)).2 = rest at cleaned ⊢
          refine ⟨(started.trans cleaned).ledger, (started.trans cleaned).quiet,
            fun quiet ticketed => ?_⟩
          have begun := started.changes quiet ticketed
          have further := cleaned.changes (started.quiet quiet) (begun.ticketed ticketed)
          have changed := begun.trans further
          have removed := group_setGroup rest name group
            ((rest.group name).remove registration.ticket)
          change Registry.Changes chain (node.group group)
            ((rest.setGroup name ((rest.group name).remove registration.ticket)).group group)
          rw [removed]
          split
          · rename_i same
            subst same
            obtain ⟨inside, next, draining⟩ := Registry.drain_eq_ok drained
            have evolves := further.evolves
            rw [group_setGroup, if_pos rfl] at evolves
            -- what goes is the registration that drains, whoever came or went in the clean-up
            refine changed.tail (.removed (evolves.draining ?_ draining))
            rw [next]
            exact ticketed.below registration inside
          · exact changed

theorem meddles_deregister (name : String) (on : ChainId) (listener : String) (node : Node) :
    Meddles group chain node (node.deregister name on listener).2 :=
  meddles_deregisterWithin _ name on listener node

theorem meddles_setFailure (id : ListenerId) (failure : Option AcceptError) (node : Node) :
    Meddles group chain node (node.setFailure id failure) := by
  refine meddles_modifyListener id _ (fun {listener probe} same => ?_) node
  cases listener with
  | index hosted => cases same
  | probe earlier =>
      cases same
      exact ⟨earlier, rfl, rfl, rfl, rfl⟩

end Meddles

end Node

/-- What may be done on a node between the calls of a manager. -/
inductive Errand where
  | register (group : String) (chain : ChainId) (name : String) (id : ListenerId)
    (tolerateDraining : Bool)
  | deregister (group : String) (chain : ChainId) (name : String)
  /-- Let a listener fail, or no longer. -/
  | upset (id : ListenerId) (failure : Option AcceptError)

namespace Errand

def run (errand : Errand) (node : Node) : Node :=
  match errand with
  | register group chain name id tolerateDraining =>
    (node.register group chain name id tolerateDraining).2
  | deregister group chain name => (node.deregister group chain name).2
  | upset id failure => node.setFailure id failure

theorem meddles (errand : Errand) (group : String) (chain : ChainId) (node : Node) :
    Node.Meddles group chain node (errand.run node) := by
  cases errand with
  | register on other name id tolerateDraining =>
      exact Node.meddles_register on other name id tolerateDraining
  | deregister on other name => exact node.meddles_deregister on other name
  | upset id failure => exact node.meddles_setFailure id failure

end Errand

namespace Site

variable {site : Site} {config : Configuration} {origin : StateUpdates}

def step (site : Site) : Call ⊕ Errand → Step site.lawful
  | .inl call => call.step site.lawful
  | .inr errand =>
    .drift (fun world => (errand.run world.1, world.2)) fun world =>
      (errand.meddles site.group 0 world.1).ledger site.disk

theorem listeners_of_write (site : Site) {batch : Batch} {world after : Node × Outlet}
    (done : site.lawful.write batch world = .ok after) :
    after.1.listeners = world.1.listeners := by
  obtain ⟨node, stored, rfl⟩ := site.exists_of_write done
  obtain ⟨disks, rfl⟩ := Node.exists_eq_of_write stored
  rfl

theorem listeners_deliver (site : Site) (chain : ChainId) (unit : DecisionUnit)
    (world : Node × Outlet) :
    (site.lawful.deliver chain unit world).2.1.listeners = world.1.listeners :=
  (Node.notifyEach_apart world.1.clock chain unit (world.1.group site.group).registrations
    world.1).2

/-- Calls and errands keep the tickets of a group apart, and make no listener notify others. -/
theorem ticketed_run (tenure : Tenure site.lawful config origin)
    (ticketed : (tenure.world.1.group site.group).Ticketed)
    (quiet : tenure.world.1.Quiet site.group config.chain) (tasks : List (Call ⊕ Errand)) :
    let node := (tenure.run (tasks.map site.step)).2.1
    (node.group site.group).Ticketed ∧ node.Quiet site.group config.chain := by
  induction tasks using List.reverseRecOn with
  | nil => exact ⟨ticketed, quiet⟩
  | append_singleton tasks task ih =>
      obtain ⟨ticketed, quiet⟩ := ih
      obtain ⟨accepted, sound⟩ := tenure.sound_run (tasks.map site.step)
      rw [List.map_append, List.map_singleton, Tenure.run, Step.run_concat]
      cases task with
      | inl call =>
          have roster := call.roster_step site.groupHost _ sound.records.toLists
          have listeners := (call.outcome site.lawful _ sound.records.toLists).view_eq
            (·.1.listeners) site.listeners_of_write site.listeners_deliver fun _ _ => rfl
          refine ⟨ticketed.of_roster roster.symm, fun {id probe} found => ?_⟩
          have known : (tenure.run (tasks.map site.step)).2.1.listeners[id]? =
            some (.probe probe) := listeners ▸ found
          exact quiet known
      | inr errand =>
          have meddles := errand.meddles site.group config.chain
            (tenure.run (tasks.map site.step)).2.1
          exact ⟨(meddles.changes quiet ticketed).ticketed ticketed, meddles.quiet quiet⟩

theorem orderly (tenure : Tenure site.lawful config origin)
    (ticketed : (tenure.world.1.group site.group).Ticketed)
    (quiet : tenure.world.1.Quiet site.group config.chain) (tasks : List (Call ⊕ Errand))
    {moment : Nat} {change : Node × Outlet → Node × Outlet} {kept}
    (taken : (tasks.map site.step)[moment]? = some (.drift change kept)) :
    let world := (tenure.run ((tasks.map site.step).take moment)).2
    (world.1.group site.group).Changes config.chain ((change world).1.group site.group) := by
  rw [List.getElem?_map] at taken
  obtain ⟨task, -, same⟩ := Option.map_eq_some_iff.mp taken
  rw [← List.map_take]
  obtain ⟨ticketed, quiet⟩ := ticketed_run tenure ticketed quiet (tasks.take moment)
  cases task with
  | inl call => cases call <;> cases same
  | inr errand =>
      cases same
      exact (errand.meddles site.group config.chain _).changes quiet ticketed

/-- Any calls of a manager at a site, with any errands in between, are an audition of the listeners
of the site. -/
def audition (tenure : Tenure site.lawful config origin)
    (ticketed : (tenure.world.1.group site.group).Ticketed)
    (quiet : tenure.world.1.Quiet site.group config.chain) (tasks : List (Call ⊕ Errand)) :
    Audition site.groupHost config origin where
  tenure
  steps := tasks.map site.step
  ticketed
  orderly taken := orderly tenure ticketed quiet tasks taken

end Site

namespace Recital

def site : Site := ⟨"disk", "group"⟩

def founded : Node :=
  (Node.empty 0).setDisk "disk" { store := Store.empty.apply (Batch.found ∅), outage := none }

theorem sameLedger_founded :
    (Store.empty.apply (Batch.found ∅)).SameLedger (founded.store site.disk) :=
  Store.SameLedger.refl _

theorem quiet_founded : founded.Quiet "group" 1 := by
  intro id probe found
  simp [founded, Node.setDisk, Node.empty] at found

def output (key : UInt8) : Transaction :=
  { inputs := [], outputs := [([key], [1])], requests := [] }

def first : DecisionUnit :=
  .ofFields { parent := DecisionUnit.genesis.id, height := 1, timestamp := none,
              body := .standard [output 0xa1] } (by decide)

def second : DecisionUnit :=
  .ofFields { parent := first.id, height := 2, timestamp := none,
              body := .standard [output 0xb2] } (by decide)

def third : DecisionUnit :=
  .ofFields { parent := second.id, height := 3, timestamp := none,
              body := .standard [output 0xc3] } (by decide)

def guest : Probe := { notes := 0, group := "group", chain := 1 }

def sceptic : Probe :=
  { notes := 1, failure := some (.unwritable ⟨"full"⟩), group := "group", chain := 1 }

def node : Node :=
  ((founded.addListener fun _ => .probe guest).2.addListener fun _ => .probe sceptic).2

theorem quiet_node : node.Quiet "group" 1 :=
  Node.Quiet.addProbe (quiet_founded.addProbe guest rfl) sceptic rfl

def begun : Tenure site.lawful { chain := 1 } ∅ :=
  (Start.ofFounded (node, ⟨.closed, false, []⟩) _ sameLedger_founded).tenure

/-- The sceptic listens all the time, the guest only while the second unit is accepted. -/
def tasks : List (Call ⊕ Errand) :=
  [.inr (.register "group" 1 "sceptic" 1 false), .inl (.verify first), .inl (.verify second),
    .inl (.verify third), .inl (.accept first.id), .inr (.register "group" 1 "guest" 0 false),
    .inl (.accept second.id), .inr (.deregister "group" 1 "guest"), .inl (.accept third.id)]

def audition : Audition site.groupHost { chain := 1 } ∅ :=
  site.audition begun ⟨nofun, .nil⟩ quiet_node tasks

set_option maxRecDepth 100000 in
theorem audition_eq :
    (¬(audition.group 5).Serves 1 1 ∧ (audition.group 6).Serves 1 1 ∧
      (audition.group 7).Serves 1 1 ∧ ¬(audition.group 8).Serves 1 1) ∧
    audition.committed 6 = some [.genesis, first] ∧
    audition.heard 9 0 = [first, second, third] ∧ audition.heard 9 1 = [second] := by
  decide +kernel

/-- The guest hears the unit that is accepted while it is registered, though the sceptic fails. -/
theorem guest_hears :
    (∀ moment ≤ 9, (audition.group moment).Serves 1 1 ↔ 6 ≤ moment ∧ moment < 8) ∧
      audition.heard 9 0 = [first, second, third] ∧ audition.heard 9 1 = [second] ∧
      Consecutive first [second] := by
  obtain ⟨⟨before, begins, lasts, ends⟩, decided, all, one⟩ := audition_eq
  obtain ⟨start, past, -, serves, accepted, tip, units, known, last, -, heard, consecutive⟩ :=
    audition.delivers_run.heard 1
  have length : audition.steps.length = 9 := rfl
  rw [length] at serves heard
  rw [serves _ (by decide)] at before begins lasts ends
  obtain rfl : start = 6 := by omega
  obtain rfl : past = 8 := by omega
  rw [decided] at known
  cases known
  cases last
  rw [one] at heard
  exact ⟨serves, all, one, heard ▸ consecutive⟩

end Recital

end DecisionLedger
