import DecisionLedger.Proofs.AcceptedState
import DecisionLedger.Proofs.Accounts

/-! # Indices in lockstep

A chain is registered with an indexer before anything is accepted on it.  As long as no index of the
chain fails to write, its indices say between any two operations of its manager what the ledger
says: the index of units has the unit of each height above genesis one position below, and that of
transactions each transaction that the units carry, at its first occurrence.
-/

namespace DecisionLedger

theorem eraseDupsBy_map {α β : Type} (same : β → β → Bool) (view : α → β) :
    ∀ values : List α, (values.map view).eraseDupsBy same =
      (values.eraseDupsBy fun one other => same (view one) (view other)).map view
  | [] => rfl
  | value :: rest => by
      rw [List.map_cons, List.eraseDupsBy_cons, List.eraseDupsBy_cons, List.map_cons,
        List.filter_map, eraseDupsBy_map]
      rfl
termination_by values => values.length
decreasing_by exact Nat.lt_succ_of_le (List.length_filter_le _ _)

/-- No index of a chain has failed to write: the answer to a call would name it. -/
def Account.WroteIndices (account : Account) (chain : ChainId) : Prop :=
  ∀ failure ∈ account.failures, ∀ contents : Contents,
    failure.name = contents.indexName chain → ¬failure.error.IsUnwritten

theorem Account.WroteIndices.of_ok {account : Account} (answered : account.answer = .ok ())
    (chain : ChainId) : account.WroteIndices chain := by
  intro failure inside
  rw [Account.failures, answered] at inside
  exact absurd inside List.not_mem_nil

section Delivery

variable {site : Site} {index : Index} {origin : StateUpdates} {manager after : Manager}
  {world final : Node × Outlet} {units accepted : List DecisionUnit} {containers : List Container}
  {answer : Except ManagerError Unit}

/-- An index that watches, and that no failure says has not written, has entered every unit that is
delivered. -/
theorem Site.deliverAll_numbers (site : Site) (world : Node × Outlet)
    (numbers : index.Numbers (world.1.store site.disk) containers)
    (room : (Container.enrol containers
      (index.containersOf (units.map (world.1.clock, ·)))).length < UInt64.size)
    (watches : units ≠ [] → world.1.Watches site index)
    (wrote : ∀ failure ∈ NotifyError.all (site.host.deliverAll index.chain units world).1,
      failure.name = index.name → ¬failure.error.IsUnwritten) :
    index.Numbers ((site.host.deliverAll index.chain units world).2.1.store site.disk)
      (Container.enrol containers (index.containersOf (units.map (world.1.clock, ·)))) := by
  induction units generalizing world containers with
  | nil => exact numbers
  | cons unit rest ih =>
      have told := watches (List.cons_ne_nil _ _)
      rw [List.map_cons, Index.containersOf, List.flatMap_cons, Container.enrol_append]
        at room ⊢
      dsimp only [Host.deliverAll] at wrote ⊢
      rw [NotifyError.all_merge] at wrote
      obtain ⟨held, first, -, entered⟩ := Node.notify_enters site world.1.clock numbers unit
        ((Container.length_le_enrol _ _).trans_lt room)
      rcases entered told with rfl | ⟨failure, inside, misses⟩
      · have clock : (site.host.deliver index.chain unit world).2.1.clock = world.1.clock := by
          obtain ⟨disks, notes, same⟩ := Node.exists_eq_notifyEach world.1.clock index.chain unit
            (world.1.group site.group).registrations world.1
          exact (congrArg (fun node : Node => node.clock) same :)
        have later := ih (site.host.deliver index.chain unit world).2 first
        rw [clock] at later
        refine later room (fun _ => ?_) fun failure inside => ?_
        · exact told.of_audience
            (world.1.audience_notify site.group index.chain unit world.1.clock)
        · exact wrote failure (List.mem_append_right _ inside)
      · exact absurd misses.declines.isUnwritten
          (wrote failure (List.mem_append_left _ inside) misses.name)

theorem Site.commits_numbers (named : manager.config.chain = index.chain)
    (sound : manager.Sound origin (world.1.store site.disk) accepted)
    (numbers : index.Numbers (world.1.store site.disk) containers)
    (room : (Container.enrol containers
      (index.containersOf (units.map (world.1.clock, ·)))).length < UInt64.size)
    (watches : units ≠ [] → world.1.Watches site index)
    (commits : Call.Commits site.lawful manager world units (answer, after, final))
    (wrote : (Account.mk units answer).WroteIndices index.chain) :
    index.Numbers (final.1.store site.disk)
      (Container.enrol containers (index.containersOf (units.map (world.1.clock, ·)))) := by
  obtain ⟨disks, log, outlet, outside, ⟨logged, last⟩, told⟩ :=
    commits_delivered named sound commits
  have untouched : index.Numbers (Node.store { world.1 with disks, log } site.disk) containers :=
    numbers.of_same fun key owned => outside key (by cases key <;> first | rfl | cases owned)
  rw [last]
  exact site.deliverAll_numbers ({ world.1 with disks, log }, outlet) untouched room watches
    fun failure inside => wrote failure (told inside) index.contents

end Delivery

/-- The transactions that units carry, each where it first occurs.  Those whose encodings have the
same digest are the same. -/
def DecisionUnit.distinctTransactions (units : List DecisionUnit) : List Transaction :=
  (units.flatMap (·.body.transactions)).eraseDupsBy (·.containerId == ·.containerId)

namespace Index

variable {deliveries : List (Instant × DecisionUnit)}

theorem catalogue_append (index : Index) (deliveries more : List (Instant × DecisionUnit)) :
    index.catalogue (deliveries ++ more) =
      Container.enrol (index.catalogue deliveries) (index.containersOf more) := by
  rw [catalogue, containersOf, List.flatMap_append, Container.enrol_append]
  rfl

theorem catalogue_units (chain : ChainId) (flavor : Flavor)
    (distinct : (deliveries.map (·.2.id)).Nodup) :
    (Index.mk chain (.units flavor)).catalogue deliveries = deliveries.map fun delivery =>
      { id := delivery.2.id, bytes := delivery.2.bytes, acceptedAt := delivery.1.stamp } := by
  have single : (Index.mk chain (.units flavor)).containersOf deliveries =
      deliveries.map fun delivery =>
        { id := delivery.2.id, bytes := delivery.2.bytes, acceptedAt := delivery.1.stamp } :=
    List.map_eq_flatMap.symm
  rw [catalogue, single, Container.enrol_of_nodup]
  · rfl
  · simpa [Function.comp_def] using distinct

theorem catalogue_transactions (chain : ChainId)
    (deliveries : List (Instant × DecisionUnit)) :
    ((Index.mk chain .transactions).catalogue deliveries).map
        (fun container => (container.id, container.bytes)) =
      (DecisionUnit.distinctTransactions (deliveries.map (·.2))).map fun transaction =>
        (transaction.containerId, transaction.encode) := by
  let carried : List (Instant × Transaction) :=
    deliveries.flatMap fun delivery => delivery.2.body.transactions.map (delivery.1, ·)
  let enter (entry : Instant × Transaction) : Container :=
    { id := entry.2.containerId, bytes := entry.2.encode, acceptedAt := entry.1.stamp }
  have entered : (Index.mk chain .transactions).containersOf deliveries = carried.map enter := by
    simp [containersOf, containers, carried, enter, List.map_flatMap, Function.comp_def]
  have plain : (deliveries.map (·.2)).flatMap (·.body.transactions) = carried.map (·.2) := by
    simp [carried, List.map_flatMap, List.flatMap_map, Function.comp_def]
  rw [catalogue, Container.enrol_eq_eraseDupsBy, DecisionUnit.distinctTransactions, entered, plain]
  simp [eraseDupsBy_map, enter, Function.comp_def]

end Index

/-- What may be done to a node while a chain runs on it.  The ledger of the chain and what its
indices hold stay as they are, and the indices that watch it are neither closed nor deregistered. -/
structure Node.Spares (site : Site) (chain : ChainId) (before after : Node) : Prop where
  ledger : (before.store site.disk).SameLedger (after.store site.disk)
  indices : ∀ contents,
    Index.SameVariables { chain, contents } (before.store site.disk) (after.store site.disk)
  watches : ∀ {contents}, before.Watches site { chain, contents } →
    after.Watches site { chain, contents }

theorem Node.Prepares.spares {site : Site} {before after : Node}
    (prepares : before.Prepares site after) (chain : ChainId) : before.Spares site chain after where
  ledger := prepares.marked.sameLedger
  indices _ := prepares.marked.sameVariables _
  watches := prepares.watches

/-- The states between operations of a node with a chain on a site: whether the chain is registered
with an indexer, the manager of the chain if it is started, and the node. -/
inductive Course (site : Site) (chain : ChainId) (flavor : Flavor) (origin : StateUpdates) :
    (registered : Bool) → Option HostedManager → Node → Prop where
  /-- The disk holds genesis alone. -/
  | founded {node : Node} : node.store site.disk = Store.empty.apply (Batch.found origin) →
      Course site chain flavor origin false none node
  /-- An indexer that indexes chains registers this one, which is new to it. -/
  | register {registered : Bool} {hosted : Option HostedManager} {node : Node}
      (indexer : HostedIndexer) (name : String) :
      Course site chain flavor origin registered hosted node →
      site = ⟨indexer.disk, indexer.group⟩ → indexer.indexer.config.enabled = true →
      chain ∉ indexer.indexer.indices → (indexer.register node name chain flavor).1 = .ok () →
      Course site chain flavor origin true hosted (indexer.register node name chain flavor).2.2
  | start {registered : Bool} {hosted : HostedManager} {node : Node} (config : Configuration)
      (outlet : Outlet) : Course site chain flavor origin registered none node →
      HostedManager.start node site { config with chain } outlet = .ok hosted →
      Course site chain flavor origin registered (some hosted) node
  /-- A call in which no index of the chain fails to write; nothing is accepted before the chain is
  registered. -/
  | call {registered : Bool} {hosted : HostedManager} {node : Node} (call : Call) :
      Course site chain flavor origin registered (some hosted) node →
      (registered = false → (hosted.account node call).committed = []) →
      (hosted.account node call).WroteIndices chain →
      Course site chain flavor origin registered (some (hosted.perform node call).2.1)
        (hosted.perform node call).2.2
  /-- Whatever else may be done to the node. -/
  | drift {registered : Bool} {hosted : Option HostedManager} {node after : Node} :
      Course site chain flavor origin registered hosted node → node.Spares site chain after →
      Course site chain flavor origin registered hosted after

/-- The ledger of a chain has what was delivered, and the indices of the chain have entered it. -/
structure Follows (site : Site) (chain : ChainId) (flavor : Flavor) (origin : StateUpdates)
    (registered : Bool) (hosted : Option HostedManager) (node : Node)
    (deliveries : List (Instant × DecisionUnit)) : Prop where
  keeps : (node.store site.disk).Keeps origin (.genesis :: deliveries.map (·.2))
  steady : ∀ running ∈ hosted, running.site = site ∧ running.manager.config.chain = chain ∧
    running.manager.Sound origin (node.store site.disk) (.genesis :: deliveries.map (·.2))
  numbers : ∀ contents ∈ Indexer.contentsOf flavor,
    ((Index.mk chain contents).catalogue deliveries).length < UInt64.size →
    (Index.mk chain contents).Numbers (node.store site.disk)
      ((Index.mk chain contents).catalogue deliveries)
  watches : registered = true → ∀ contents ∈ Indexer.contentsOf flavor,
    node.Watches site { chain, contents }
  unheard : registered = false → deliveries = []

section Course

variable {site : Site} {chain : ChainId} {flavor : Flavor} {origin : StateUpdates}
  {registered : Bool} {hosted : Option HostedManager} {running : HostedManager} {node after : Node}
  {deliveries : List (Instant × DecisionUnit)}

namespace Follows

theorem of_spares (follows : Follows site chain flavor origin registered hosted node deliveries)
    (spares : node.Spares site chain after) :
    Follows site chain flavor origin registered hosted after deliveries where
  keeps := follows.keeps.of_sameLedger spares.ledger
  steady running started := by
    obtain ⟨there, named, sound⟩ := follows.steady running started
    exact ⟨there, named, sound.of_sameLedger spares.ledger⟩
  numbers contents indexed room :=
    (follows.numbers contents indexed room).of_same (spares.indices contents)
  watches told contents indexed := spares.watches (follows.watches told contents indexed)
  unheard := follows.unheard

theorem founded (founded : node.store site.disk = Store.empty.apply (Batch.found origin)) :
    Follows site chain flavor origin false none node [] where
  keeps := by
    rw [founded]
    exact (Manager.sound_found { chain } origin (Store.SameLedger.refl _)).keeps
  steady := by simp
  numbers contents _ _ := by
    rw [founded]
    exact Index.numbers_found _ origin
  watches := by simp
  unheard _ := rfl

theorem start (follows : Follows site chain flavor origin registered none node deliveries)
    {config : Configuration} {outlet : Outlet}
    (started : HostedManager.start node site { config with chain } outlet = .ok running) :
    Follows site chain flavor origin registered (some running) node deliveries where
  keeps := follows.keeps
  steady := by
    obtain ⟨there, named, sound⟩ := HostedManager.sound_start follows.keeps started
    rintro _ ⟨⟩
    exact ⟨there, congrArg (·.chain) named, sound⟩
  numbers := follows.numbers
  watches := follows.watches
  unheard := follows.unheard

theorem call
    (follows : Follows site chain flavor origin registered (some running) node deliveries)
    (call : Call) (early : registered = false → (running.account node call).committed = [])
    (wrote : (running.account node call).WroteIndices chain) :
    ∃ more, Follows site chain flavor origin registered (some (running.perform node call).2.1)
      (running.perform node call).2.2 (deliveries ++ more) := by
  obtain ⟨rfl, named, sound⟩ := follows.steady running rfl
  obtain ⟨same, config, next, commits⟩ := running.commits_perform sound call
  generalize running.account node call = account at early wrote next commits
  generalize running.perform node call = result at same config next commits ⊢
  obtain ⟨units, answer⟩ := account
  obtain ⟨_, later, final⟩ := result
  dsimp only at *
  have audience := Site.audience_commits named sound commits
  have grown : .genesis :: (deliveries ++ units.map (node.clock, ·)).map (·.2) =
      (.genesis :: deliveries.map (·.2)) ++ units := by
    simp [Function.comp_def]
  refine ⟨units.map (node.clock, ·), ?_, ?_, ?_, ?_, ?_⟩
  · rw [grown]
    exact next.keeps
  · rintro _ ⟨⟩
    rw [grown]
    exact ⟨same, config ▸ named, next⟩
  · intro contents indexed room
    rw [Index.catalogue_append] at room ⊢
    have before := follows.numbers contents indexed ((Container.length_le_enrol _ _).trans_lt room)
    refine Site.commits_numbers named sound before room (fun accepts => ?_) commits wrote
    refine follows.watches (eq_true_of_ne_false fun unregistered => ?_) contents indexed
    exact accepts (early unregistered)
  · exact fun told contents indexed => (follows.watches told contents indexed).of_audience audience
  · intro unregistered
    rw [follows.unheard unregistered, early unregistered]
    rfl

end Follows

theorem Course.follows (course : Course site chain flavor origin registered hosted node) :
    ∃ deliveries, Follows site chain flavor origin registered hosted node deliveries := by
  induction course with
  | founded founded => exact ⟨[], .founded founded⟩
  | @register registered hosted node indexer name _ there enabled new done ih =>
      obtain ⟨deliveries, follows⟩ := ih
      obtain ⟨prepares, watches⟩ := HostedIndexer.watches_register
        ⟨indexer.disk, indexer.group⟩ enabled new name flavor node done
      subst there
      exact ⟨deliveries, { follows.of_spares (prepares.spares chain) with
        watches := fun _ => watches
        unheard := by simp }⟩
  | start _ _ _ started ih =>
      obtain ⟨deliveries, follows⟩ := ih
      exact ⟨deliveries, follows.start started⟩
  | call call _ early wrote ih =>
      obtain ⟨deliveries, follows⟩ := ih
      obtain ⟨more, next⟩ := follows.call call early wrote
      exact ⟨deliveries ++ more, next⟩
  | drift _ spares ih =>
      obtain ⟨deliveries, follows⟩ := ih
      exact ⟨deliveries, follows.of_spares spares⟩

end Course

/-- The indices of a chain say what its ledger says up to a height. -/
structure Store.Lockstep (store : Store) (chain : ChainId) (flavor : Flavor) (last : Height) :
    Prop where
  /-- The index of units holds one container for each height above genesis, each of the unit that
  is accepted there. -/
  units : ∃ containers, (Index.mk chain (.units flavor)).Answers store containers ∧
    containers.length = last.toNat ∧
    ∀ position (below : position < containers.length),
      ∃ unit, store.acceptedAt? (.ofNat (position + 1)) = some unit ∧
        containers[position].IsOf unit
  /-- On a graph, the index of transactions holds those of the accepted units, as long as there are
  positions for them. -/
  transactions : flavor = .graph → ∃ accepted, store.acceptedUpTo? last = some accepted ∧
    let listed := DecisionUnit.distinctTransactions accepted
    (listed.length < UInt64.size →
      ∃ containers, (Index.mk chain .transactions).Answers store containers ∧
        containers.map (fun container => (container.id, container.bytes)) =
          listed.map fun transaction => (transaction.containerId, transaction.encode))

section Lockstep

variable {site : Site} {chain : ChainId} {flavor : Flavor} {origin : StateUpdates}
  {registered : Bool} {running : HostedManager} {node : Node}
  {deliveries : List (Instant × DecisionUnit)}

theorem Follows.lockstep
    (follows : Follows site chain flavor origin registered (some running) node deliveries) :
    (node.store site.disk).Lockstep chain flavor running.manager.lastAccepted.height := by
  obtain ⟨-, -, sound⟩ := follows.steady running rfl
  have chronicle := follows.keeps.chronicle
  have records := follows.keeps.records
  have high := chronicle.height_getLast sound.rooted.last
  simp only [List.length_cons, List.length_map, Nat.add_right_cancel_iff] at high
  have bound := running.manager.lastAccepted.height.toNat_lt
  have distinct := chronicle.distinct
  simp only [List.map_cons, List.map_map, List.nodup_cons] at distinct
  have catalogue := Index.catalogue_units chain flavor distinct.2
  constructor
  · have room : ((Index.mk chain (.units flavor)).catalogue deliveries).length < UInt64.size := by
      rw [catalogue, List.length_map, UInt64.size]
      omega
    have numbers := follows.numbers (.units flavor) (by cases flavor <;> simp [Indexer.contentsOf])
      room
    refine ⟨_, numbers.answers room, by rw [catalogue, List.length_map, high], ?_⟩
    intro position below
    simp only [catalogue, List.length_map] at below
    refine ⟨deliveries[position].2, ?_, ?_⟩
    · have word : (UInt64.ofNat (position + 1)).toNat = position + 1 :=
        UInt64.toNat_ofNat_of_lt' (by rw [UInt64.size]; omega)
      rw [records.acceptedAt?_eq chronicle, word]
      simp [below]
    · simp [catalogue, Container.IsOf]
  · rintro rfl
    refine ⟨_, records.acceptedUpTo?_eq chronicle sound.rooted.last, fun room => ?_⟩
    have genesis : DecisionUnit.distinctTransactions (.genesis :: deliveries.map (·.2)) =
        DecisionUnit.distinctTransactions (deliveries.map (·.2)) := rfl
    rw [genesis] at room ⊢
    have listed := Index.catalogue_transactions chain deliveries
    have length := congrArg List.length listed
    simp only [List.length_map] at length
    rw [← length] at room
    have numbers := follows.numbers .transactions (by simp [Indexer.contentsOf]) room
    exact ⟨_, numbers.answers room, listed⟩

/-- Where a chain is registered before anything is accepted and no index of it fails to write, its
indices are in lockstep with its ledger between any two operations. -/
theorem Course.lockstep_run
    (course : Course site chain flavor origin registered (some running) node) :
    (node.store site.disk).Lockstep chain flavor running.manager.lastAccepted.height := by
  obtain ⟨deliveries, follows⟩ := course.follows
  exact follows.lockstep

end Lockstep

def HostedManager.performEach (hosted : HostedManager) (node : Node) :
    List Call → Option (HostedManager × Node)
  | [] => some (hosted, node)
  | call :: rest =>
    match hosted.perform node call with
    | (.ok (), after, final) => after.performEach final rest
    | (.error _, _, _) => none

theorem Course.call_each {site : Site} {chain : ChainId} {flavor : Flavor}
    {origin : StateUpdates} {hosted after : HostedManager} {node final : Node}
    (course : Course site chain flavor origin true (some hosted) node) {calls : List Call}
    (done : hosted.performEach node calls = some (after, final)) :
    Course site chain flavor origin true (some after) final := by
  induction calls generalizing hosted node with
  | nil =>
      cases done
      exact course
  | cons call rest ih =>
      rw [HostedManager.performEach] at done
      split at done
      · rename_i later between performed
        have answered : (hosted.account node call).answer = .ok () := congrArg (·.1) performed
        have next := course.call call (by simp) (.of_ok answered chain)
        rw [performed] at next
        exact ih next done
      · cases done

namespace Woven

def output (byte : UInt8) : Transaction :=
  { inputs := [], outputs := [([byte], [byte])], requests := [] }

/-- A vertex that carries a transaction twice. -/
def vertex : DecisionUnit :=
  .ofFields { parent := DecisionUnit.genesis.id, height := 1, timestamp := none,
              body := .vertex [] [output 1, output 2, output 1] } (by decide)

def proposal : DecisionUnit :=
  .ofFields { parent := vertex.id, height := 2, timestamp := none,
              body := .proposal { effect := output 3, prefersCommit := true } } (by decide)

def option : DecisionUnit :=
  .ofFields { parent := proposal.id, height := 3, timestamp := none, body := .commit } (by decide)

/-- A vertex that carries a transaction of the first one again. -/
def crown : DecisionUnit :=
  .ofFields { parent := option.id, height := 4, timestamp := none,
              body := .vertex [proposal.id] [output 2, output 4] } (by decide)

def site : Site := ⟨"disk", "group"⟩

def founded : Node :=
  (Node.empty 0).setDisk "disk" { store := Store.empty.apply (Batch.found ∅), outage := none }

def indexer : HostedIndexer where
  indexer := { config := {}, hasRunBefore := false }
  disk := "disk"
  group := "group"
  breaks := false

def booted : Node :=
  founded.setDisk "disk" { store := (founded.store "disk").apply .markHasRun, outage := none }

def admitted : Node :=
  (indexer.register booted "chain" 1 .graph).2.2

/-- A vertex is accepted, then an option with its proposal, then another vertex. -/
def calls : List Call :=
  [.verify vertex, .verify proposal, .verify option, .verify crown,
    .accept vertex.id, .accept option.id, .accept crown.id]

def last : Option (HostedManager × Node) :=
  (HostedManager.start admitted site { chain := 1 } ⟨.closed, false, []⟩).toOption.bind
    (·.performEach admitted calls)

theorem register_eq_ok : (indexer.register booted "chain" 1 .graph).1 = .ok () := by
  decide +kernel

theorem course_admitted : Course site 1 .graph ∅ true none admitted := by
  have start : founded.store site.disk = Store.empty.apply (Batch.found ∅) := by
    rw [founded, site, Node.store_setDisk, if_pos rfl]
  have created : HostedIndexer.create founded site.disk site.group {} false =
      .ok (indexer, booted) := rfl
  have prepares := (HostedIndexer.prepares_create created).1
  exact ((Course.founded start).drift (prepares.spares 1)).register indexer "chain" rfl rfl
    (by decide) register_eq_ok

set_option maxRecDepth 100000 in
theorem counts_last :
    last.map (fun (hosted, node) =>
      (hosted.manager.lastAccepted.height, (node.store site.disk).nextIndex 1 .transactions)) =
      some (4, .ok 3) := by
  decide +kernel

/-- The units up to height four carry five transactions, three of them different. -/
theorem woven_lockstep : ∃ hosted node, last = some (hosted, node) ∧
    hosted.manager.lastAccepted.height = 4 ∧
    (node.store site.disk).nextIndex 1 .transactions = .ok 3 ∧
    Course site 1 .graph ∅ true (some hosted) node ∧
    (node.store site.disk).Lockstep 1 .graph hosted.manager.lastAccepted.height := by
  obtain ⟨⟨hosted, node⟩, found, counts⟩ := Option.map_eq_some_iff.mp counts_last
  simp only [Prod.mk.injEq] at counts
  have course : Course site 1 .graph ∅ true (some hosted) node := by
    obtain ⟨begun, started, performed⟩ := Option.bind_eq_some_iff.mp found
    exact (course_admitted.start { chain := 1 } _ (toOption_eq_some_iff.mp started)).call_each
      performed
  exact ⟨hosted, node, found, counts.1, counts.2, course, course.lockstep_run⟩

end Woven

end DecisionLedger
