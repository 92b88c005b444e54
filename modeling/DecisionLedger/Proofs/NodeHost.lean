import DecisionLedger.Node.Chain
import DecisionLedger.Proofs.Layout
import DecisionLedger.Proofs.Session

/-! # A node as the world of a manager

The calls of a manager on a node are steps of a session: a write of the node is whole, and the
listeners of a node, though indices among them may write to the same disk, leave the ledger alone.
-/

namespace DecisionLedger

namespace Index

variable {index : Index} {disk written : Disk} {acceptedAt : Instant} {unit : DecisionUnit}

/-- Whether an index keeps its containers in a variable. -/
def owns (index : Index) : Key → Bool
  | .container chain contents _ | .position chain contents _ | .next chain contents =>
    chain = index.chain && contents.canonical = index.contents.canonical
  | _ => false

theorem isIndexed_of_owns {key : Key} (owned : index.owns key = true) : key.isIndexed = true := by
  cases key <;> first | rfl | cases owned

theorem owns_of_mem_place {next : AcceptIndex} {containers : List Container} {change : Change}
    (inside : change ∈ index.place next containers) : index.owns change.key = true := by
  induction containers generalizing next with
  | nil => exact absurd inside List.not_mem_nil
  | cons container rest ih =>
      rcases List.mem_append.mp inside with first | later
      · rcases List.mem_append.mp first with value | position
        · cases List.mem_singleton.mp value
          simp [owns, Change.put]
        · cases List.mem_singleton.mp position
          simp [owns, Change.put]
      · exact ih later

theorem owns_of_mem_additions {store : Store} {batch : Batch} {change : Change}
    (added : index.additions store acceptedAt unit = .ok batch) (inside : change ∈ batch) :
    index.owns change.key = true := by
  unfold additions at added
  obtain ⟨next, -, added⟩ := bind_eq_ok_iff.mp added
  obtain ⟨containers, -, added⟩ := bind_eq_ok_iff.mp added
  split at added
  · cases added
    exact absurd inside List.not_mem_nil
  · cases added
    rcases List.mem_append.mp inside with placed | counted
    · exact owns_of_mem_place placed
    · cases List.mem_singleton.mp counted
      simp [owns, Change.put]

end Index

theorem Disk.store_of_write {disk written : Disk} {batch : Batch}
    (done : disk.write batch = .ok written) : written.store = disk.store.apply batch := by
  unfold write at done
  split at done <;> cases done <;> rfl

theorem Index.accept_cases {index : Index} {disk written : Disk} {acceptedAt : Instant}
    {unit : DecisionUnit} (done : index.accept disk acceptedAt unit = .ok written) :
    ∃ batch, index.additions disk.store acceptedAt unit = .ok batch ∧
      written.store = disk.store.apply batch := by
  unfold Index.accept at done
  cases added : index.additions disk.store acceptedAt unit with
  | error error => simp [added] at done
  | ok batch =>
      refine ⟨batch, rfl, ?_⟩
      simp only [added] at done
      cases batch with
      | nil =>
          cases done
          rfl
      | cons change rest =>
          dsimp only at done
          cases stored : disk.write (change :: rest) with
          | error error => simp [stored] at done
          | ok after =>
              simp only [stored, Except.ok.injEq] at done
              exact done ▸ Disk.store_of_write stored

theorem Index.sameElsewhere_accept {index : Index} {disk written : Disk} {acceptedAt : Instant}
    {unit : DecisionUnit} (taken : index.accept disk acceptedAt unit = .ok written) :
    disk.store.SameElsewhere written.store := by
  obtain ⟨batch, added, stored⟩ := accept_cases taken
  rw [stored]
  exact Store.sameElsewhere_apply
    (fun change inside => isIndexed_of_owns (owns_of_mem_additions added inside)) _

namespace Node

variable {node : Node}

theorem store_setDisk (node : Node) (name other : String) (disk : Disk) :
    (node.setDisk name disk).store other =
      if name = other then disk.store else node.store other := by
  rw [store, Node.disk, setDisk, Std.ExtTreeMap.getD_insert]
  by_cases same : name = other
  · simp [same]
  · simp [same, store, Node.disk]

theorem store_of_disks {after : Node} (same : after.disks = node.disks) (name : String) :
    after.store name = node.store name := by
  rw [store, store, Node.disk, Node.disk, same]

theorem accept_of_hosted {hosted : HostedIndex} {acceptedAt : Instant} {id : ListenerId}
    {chain : ChainId} {unit : DecisionUnit}
    (listed : node.listeners[id]? = some (.index hosted)) (opened : hosted.isClosed = false) :
    accept acceptedAt id chain unit node =
      match hosted.index.accept (node.disk hosted.disk) acceptedAt unit with
      | .ok written => (none, node.setDisk hosted.disk written)
      | .error error => (some error, node) := by
  rw [accept, listed]
  exact if_neg (ne_true_of_eq_false opened)

/-- A listener refuses a unit and changes nothing, or takes it without touching a disk, or is an
open index that takes it. -/
theorem accept_cases (acceptedAt : Instant) (id : ListenerId) (chain : ChainId)
    (unit : DecisionUnit) (node : Node) :
    (∃ error, accept acceptedAt id chain unit node = (some error, node)) ∨
    (∃ after, accept acceptedAt id chain unit node = (none, after) ∧ after.disks = node.disks) ∨
    ∃ hosted written, node.listeners[id]? = some (.index hosted) ∧ hosted.isClosed = false ∧
      hosted.index.accept (node.disk hosted.disk) acceptedAt unit = .ok written ∧
      accept acceptedAt id chain unit node = (none, node.setDisk hosted.disk written) := by
  cases listed : node.listeners[id]? with
  | none => exact .inr (.inl ⟨node, by simp [accept, listed]⟩)
  | some listener =>
      cases listener with
      | probe probe =>
          cases failure : probe.failure with
          | some error => exact .inl ⟨error, by simp [accept, listed, failure]⟩
          | none =>
              exact .inr (.inl ⟨node.noteUnit probe.notes chain unit.id,
                by simp [accept, listed, failure], rfl⟩)
      | index hosted =>
          cases closed : hosted.isClosed with
          | true => exact .inl ⟨.closed, by simp [accept, listed, closed]⟩
          | false =>
              rw [accept_of_hosted listed closed]
              cases done : hosted.index.accept (node.disk hosted.disk) acceptedAt unit with
              | error error => exact .inl ⟨error, rfl⟩
              | ok written => exact .inr (.inr ⟨hosted, written, rfl, closed, done, rfl⟩)

theorem sameElsewhere_accept (acceptedAt : Instant) (id : ListenerId) (chain : ChainId)
    (unit : DecisionUnit) (node : Node) (name : String) :
    (node.store name).SameElsewhere ((accept acceptedAt id chain unit node).2.store name) := by
  rcases accept_cases acceptedAt id chain unit node with
    ⟨error, done⟩ | ⟨after, done, disks⟩ | ⟨hosted, written, -, -, taken, done⟩
  · rw [done]
    exact Store.SameElsewhere.refl _
  · rw [done, store_of_disks disks]
    exact Store.SameElsewhere.refl _
  · rw [done]
    dsimp only
    rw [store_setDisk]
    by_cases same : hosted.disk = name
    · subst same
      rw [if_pos rfl]
      exact Index.sameElsewhere_accept taken
    · rw [if_neg same]
      exact Store.SameElsewhere.refl _

theorem sameElsewhere_notifyEach (acceptedAt : Instant) (chain : ChainId) (unit : DecisionUnit)
    (registrations : List (Registration ListenerId)) (node : Node) (name : String) :
    (node.store name).SameElsewhere ((Registry.notifyEach (listening acceptedAt) chain unit
      registrations node).2.2.store name) := by
  induction registrations generalizing node with
  | nil => exact Store.SameElsewhere.refl _
  | cons registration rest ih =>
      rw [Registry.notifyEach]
      split
      · have taken := sameElsewhere_accept acceptedAt registration.listener chain unit node name
        have later := ih (accept acceptedAt registration.listener chain unit node).2
        dsimp only [listening] at later ⊢
        split <;> exact taken.trans later
      · exact ih node

theorem sameElsewhere_notify (group : String) (chain : ChainId) (unit : DecisionUnit)
    (acceptedAt : Instant) (node : Node) (name : String) :
    (node.store name).SameElsewhere ((node.notify group chain unit acceptedAt).2.store name) :=
  sameElsewhere_notifyEach acceptedAt chain unit (node.group group).registrations node name

theorem store_of_write {after : Node} {name : String} {batch : Batch}
    (done : node.write name batch = .ok after) :
    after.store name = (node.store name).apply batch := by
  unfold write at done
  cases written : (node.disk name).write batch with
  | error error => simp [written] at done
  | ok disk =>
      simp only [written, Except.ok.injEq] at done
      subst done
      rw [store_setDisk, if_pos rfl, Disk.store_of_write written]
      rfl

end Node

namespace Site

theorem exists_of_write (site : Site) {batch : Batch} {world after : Node × Outlet}
    (done : site.host.write batch world = .ok after) :
    ∃ node, world.1.write site.disk batch = .ok node ∧ after = (node, world.2) := by
  cases stored : world.1.write site.disk batch with
  | error error => simp [host, stored] at done
  | ok node =>
      simp only [host, stored, Except.ok.injEq] at done
      exact ⟨node, rfl, done.symm⟩

/-- The world of a manager on a node. -/
def lawful (site : Site) : LawfulHost (Node × Outlet) where
  toHost := site.host
  written := by
    intro batch world after done key _
    obtain ⟨node, stored, rfl⟩ := site.exists_of_write done
    exact congrArg (·.raw? key) (Node.store_of_write stored)
  delivered chain unit world :=
    (Node.sameElsewhere_notify site.group chain unit world.1.clock world.1 site.disk).sameLedger
  published event world := Store.SameLedger.refl _

end Site

theorem Disk.sameLedger_found {disk founded : Disk} {origin : StateUpdates} {unit : DecisionUnit}
    (bare : Store.empty.SameLedger disk.store) (done : disk.found origin = .ok (unit, founded)) :
    unit = .genesis ∧ (Store.empty.apply (Batch.found origin)).SameLedger founded.store := by
  have absent : disk.store.raw? .lastAccepted = none :=
    (bare .lastAccepted rfl).trans Std.ExtTreeMap.getElem?_empty
  have fresh : disk.store.isFounded = false := by
    rw [Store.isFounded, Store.has, Std.ExtTreeMap.contains_eq_isSome_getElem?]
    exact congrArg Option.isSome absent
  unfold found at done
  rw [fresh] at done
  cases written : disk.write (.found origin) with
  | error error => simp [written] at done
  | ok after =>
      simp only [written, Bool.false_eq_true, if_false, Except.ok.injEq, Prod.mk.injEq] at done
      obtain ⟨rfl, rfl⟩ := done
      rw [store_of_write written]
      exact ⟨rfl, bare.apply _⟩

namespace HostedManager

def situation (hosted : HostedManager) (node : Node) : Manager × Node × Outlet :=
  (hosted.manager, node, hosted.outlet)

/-- A manager that is started on a disk just founded begins a session. -/
theorem exists_start {disk founded : Disk} {node : Node} {site : Site} {config : Configuration}
    {outlet : Outlet} {hosted : HostedManager} {origin : StateUpdates} {unit : DecisionUnit}
    (bare : Store.empty.SameLedger disk.store) (done : disk.found origin = .ok (unit, founded))
    (started : start (node.setDisk site.disk founded) site config outlet = .ok hosted) :
    hosted.site = site ∧ ∃ begun : Start site.lawful config origin,
      begun.run [] = hosted.situation (node.setDisk site.disk founded) := by
  have store_eq : (node.setDisk site.disk founded).store site.disk = founded.store := by
    rw [Node.store_setDisk, if_pos rfl]
  unfold start at started
  cases resumed : Manager.resume config ((node.setDisk site.disk founded).store site.disk) with
  | error error => simp [resumed] at started
  | ok manager =>
      simp only [resumed, Except.ok.injEq] at started
      subst started
      refine ⟨rfl, ⟨(node.setDisk site.disk founded, outlet), ?_, manager, resumed⟩, rfl⟩
      have same := (Disk.sameLedger_found bare done).2
      rw [← store_eq] at same
      exact same

/-- The calls of a manager on a node are the steps of a session at its site. -/
theorem situation_calls (hosted : HostedManager) (node : Node) (unit : DecisionUnit)
    (id : UnitId) :
    (let (_, after, world) := hosted.verify node unit; after.situation world) =
        Step.perform (.verify unit : Step hosted.site.lawful) (hosted.situation node) ∧
      (let (_, after, world) := hosted.reject node id; after.situation world) =
        Step.perform (.reject id : Step hosted.site.lawful) (hosted.situation node) ∧
      (let (_, after, world) := hosted.accept node id; after.situation world) =
        Step.perform (.accept id : Step hosted.site.lawful) (hosted.situation node) := by
  refine ⟨?_, ?_, rfl⟩
  · have store_eq : hosted.site.lawful.store (node, hosted.outlet) =
        node.store hosted.site.disk := rfl
    dsimp only [verify, adopt, situation, Step.perform, Step.conclude]
    rw [store_eq]
    cases hosted.manager.verify (node.store hosted.site.disk) unit with
    | error error => rfl
    | ok outcome => rfl
  · dsimp only [reject, adopt, situation, Step.perform, Step.conclude]
    cases hosted.manager.reject id with
    | error error => rfl
    | ok outcome => rfl

end HostedManager

end DecisionLedger
