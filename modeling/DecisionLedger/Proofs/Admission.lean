import DecisionLedger.Node.Indexing
import DecisionLedger.Proofs.Coverage

/-! # Admitting a chain

An indexer that has just been created admits a chain or closes.  A chain that it admits is marked
incomplete or has its units watched, and nothing in the store changes but markers.
-/

namespace DecisionLedger

/-- Whether a variable is a marker of an indexer. -/
def Key.isMarker : Key → Bool
  | incomplete _ | previouslyIndexed _ | hasRun => true
  | _ => false

theorem Key.isMarker_canonical (key : Key) : key.canonical.isMarker = key.isMarker := by
  cases key <;> rfl

namespace Store

/-- A store in which markers may have been set, and nothing else changed. -/
structure Marked (store other : Store) : Prop where
  elsewhere : ∀ key : Key, key.isMarker = false → other.raw? key = store.raw? key
  kept : ∀ chain, store.isIncomplete chain = true → other.isIncomplete chain = true

variable {store other : Store}

theorem has_eq_isSome_raw? (store : Store) (key : Key) :
    store.has key = (store.raw? key).isSome := by
  rw [has, raw?, Std.ExtTreeMap.contains_eq_isSome_getElem?]

theorem Marked.refl (store : Store) : store.Marked store :=
  ⟨fun _ _ => rfl, fun _ incomplete => incomplete⟩

theorem Marked.trans {last : Store} (first : store.Marked other) (later : other.Marked last) :
    store.Marked last where
  elsewhere key ordinary := (later.elsewhere key ordinary).trans (first.elsewhere key ordinary)
  kept chain incomplete := later.kept chain (first.kept chain incomplete)

theorem Marked.sameLedger (marked : store.Marked other) : store.SameLedger other :=
  fun key ledger => marked.elsewhere key (by cases key <;> first | rfl | cases ledger)

theorem Marked.sameVariables (marked : store.Marked other) (index : Index) :
    index.SameVariables store other :=
  fun key owned => marked.elsewhere key (by cases key <;> first | rfl | cases owned)

theorem marked_put {key : Key} (marker : key.isMarker = true) (store : Store) :
    store.Marked (store.apply [.put key []]) where
  elsewhere other ordinary := by
    refine raw?_apply_of_apart (fun change inside same => ?_) store
    cases List.mem_singleton.mp inside
    rw [← other.isMarker_canonical, ← same, Key.isMarker_canonical] at ordinary
    exact Bool.false_ne_true (ordinary.symm.trans marker)
  kept chain incomplete := by
    rw [isIncomplete, has_eq_isSome_raw?] at incomplete ⊢
    rw [apply_cons, apply_nil, raw?_change_eq]
    split
    · rfl
    · exact incomplete

theorem isIncomplete_markIncomplete (store : Store) (chain : ChainId) :
    (store.apply (Batch.markIncomplete chain)).isIncomplete chain = true := by
  rw [isIncomplete, has_eq_isSome_raw?, Batch.markIncomplete, apply_cons, apply_nil,
    raw?_change_eq]
  simp [Change.put]

end Store

theorem Registry.registrations_of_register {ℓ : Type} {before after : Registry ℓ} {chain : ChainId}
    {name : String} {listener : ℓ} {tolerateDraining : Bool}
    (done : before.register chain name listener tolerateDraining = .ok after) :
    after.registrations = before.registrations ++ [{
      ticket := before.nextTicket, chain, name, listener, draining := false, failures := 0 }] := by
  dsimp only [register] at done
  split at done <;> cases done
  rfl

namespace Node

variable {node : Node}

/-- No listener does anything when it is deregistered. -/
def Inert (node : Node) : Prop :=
  ∀ (id : ListenerId) (probe : Probe), node.listeners[id]? = some (.probe probe) →
    probe.action = none

theorem Inert.closeIndex (inert : node.Inert) (id : ListenerId) : (node.closeIndex id).Inert := by
  intro other probe found
  rw [Node.closeIndex, modifyListener, Std.ExtTreeMap.getElem?_modify] at found
  split at found
  · obtain ⟨listener, known, same⟩ := Option.map_eq_some_iff.mp found
    cases listener with
    | index hosted => cases same
    | probe earlier =>
        cases same
        exact inert _ _ known
  · exact inert _ _ found

theorem Inert.deregister (inert : node.Inert) (group : String) (chain : ChainId) (name : String) :
    (node.deregister group chain name).2.disks = node.disks ∧
      (node.deregister group chain name).2.Inert := by
  rw [Node.deregister, deregisterWithin]
  cases drained : (node.group group).drain chain name with
  | error error => exact ⟨rfl, inert⟩
  | ok result =>
      dsimp only [cleanUp]
      split
      · exact ⟨rfl, inert⟩
      · exact ⟨rfl, inert.closeIndex _⟩
      · rename_i probe found
        rw [inert _ _ found]
        exact ⟨rfl, inert⟩

/-- Whether a chain on a site is marked incomplete or has its units watched. -/
def Attends (node : Node) (site : Site) (chain : ChainId) : Prop :=
  (node.store site.disk).isIncomplete chain = true ∨ node.Watches site (.ofUnits chain)

/-- What is done to a node where markers are set and listeners join. -/
structure Prepares (site : Site) (before after : Node) : Prop where
  marked : (before.store site.disk).Marked (after.store site.disk)
  inert : before.Inert → after.Inert
  watches : ∀ {index}, before.Watches site index → after.Watches site index

section Prepares

variable {site : Site} {before middle after : Node}

theorem Prepares.refl (node : Node) : Prepares site node node := ⟨.refl _, id, id⟩

theorem Prepares.trans (first : Prepares site before middle) (later : Prepares site middle after) :
    Prepares site before after where
  marked := first.marked.trans later.marked
  inert inert := later.inert (first.inert inert)
  watches watches := later.watches (first.watches watches)

theorem Prepares.report (prepares : Prepares site before after) (lines : List LogLine) :
    Prepares site before (after.report lines) :=
  ⟨prepares.marked, prepares.inert, prepares.watches⟩

theorem prepares_write {key : Key} (marker : key.isMarker = true)
    (done : before.write site.disk [.put key []] = .ok after) : Prepares site before after := by
  have marked := Store.marked_put marker (before.store site.disk)
  rw [← store_of_write done] at marked
  obtain ⟨disks, rfl⟩ := exists_eq_of_write done
  exact ⟨marked, id, id⟩

theorem prepares_addListener (make : ListenerId → Listener)
    (still : ∀ id probe, make id = .probe probe → probe.action = none) (node : Node) :
    Prepares site node (node.addListener make).2 where
  marked := .refl _
  inert inert := by
    intro id probe found
    simp only [addListener, Std.ExtTreeMap.getElem?_insert] at found
    split at found
    · exact still _ _ (Option.some.inj found)
    · exact inert _ _ found
  watches := by
    rintro index ⟨registration, inside, ⟨active, name, filed⟩, below⟩
    refine ⟨registration, inside, ⟨active, name, ?_⟩, Nat.lt_succ_of_lt below⟩
    have elsewhere : node.nextListener ≠ registration.listener := Nat.ne_of_gt below
    have same : (node.addListener make).2.listeners[registration.listener]? =
        node.listeners[registration.listener]? := by
      simp [addListener, Std.ExtTreeMap.getElem?_insert, elsewhere]
    rw [files, same]
    exact filed

theorem prepares_register (chain : ChainId) (name : String) (id : ListenerId)
    (tolerateDraining : Bool) (node : Node) :
    Prepares site node (node.register site.group chain name id tolerateDraining).2 := by
  unfold Node.register
  cases done : (node.group site.group).register chain name id tolerateDraining with
  | error error => exact .refl node
  | ok registry =>
      refine ⟨.refl _, fun inert => inert, ?_⟩
      rintro index ⟨registration, inside, serves, below⟩
      refine ⟨registration, ?_, serves, below⟩
      have put := node.group_setGroup site.group site.group registry
      rw [if_pos rfl] at put
      change registration ∈ ((node.setGroup site.group registry).group site.group).registrations
      rw [put, Registry.registrations_of_register done]
      exact List.mem_append_left _ inside

theorem watches_of_register {index : Index} {after : Node}
    (done : (node.addListener fun _ => .index { index, disk := site.disk }).2.register site.group
      index.chain index.name node.nextListener false = (.ok (), after)) :
    after.Watches site index := by
  let grown := (node.addListener fun _ => .index { index, disk := site.disk }).2
  unfold Node.register at done
  cases registered : (grown.group site.group).register index.chain index.name node.nextListener
      false with
  | error error =>
      rw [registered] at done
      cases done
  | ok registry =>
      rw [registered] at done
      cases done
      have put := grown.group_setGroup site.group site.group registry
      rw [if_pos rfl] at put
      let registration : Registration ListenerId :=
        { ticket := (grown.group site.group).nextTicket, chain := index.chain, name := index.name,
          listener := node.nextListener, draining := false, failures := 0 }
      refine ⟨registration, ?_, ⟨?_, rfl, ?_⟩, Nat.lt_succ_self _⟩
      · change registration ∈ ((grown.setGroup site.group registry).group site.group).registrations
        rw [put, Registry.registrations_of_register registered]
        exact List.mem_append_right _ List.mem_cons_self
      · simp [Registration.isActiveOn, registration]
      · refine files_iff.mpr ⟨{ index, disk := site.disk }, ?_, rfl, rfl, rfl, rfl⟩
        simp [addListener, setGroup, report, registration]

end Prepares

end Node

namespace HostedIndexer

variable {disk group : String}

theorem enlist_watches (site : Site) (index : Index) (node : Node) :
    let result := (host site.disk site.group).enlist index node
    Node.Prepares site node result.2 ∧
      ∀ id, result.1 = .ok id → result.2.Watches site index := by
  have grown : Node.Prepares site node
      (node.addListener fun _ => .index { index, disk := site.disk }).2 :=
    Node.prepares_addListener _ (fun _ _ made => by cases made) node
  have joined := grown.trans
    (Node.prepares_register index.chain index.name node.nextListener false _)
  dsimp only [host]
  cases registered : (node.addListener fun _ => .index { index, disk := site.disk }).2.register
      site.group index.chain index.name
      (node.addListener fun _ => .index { index, disk := site.disk }).1 false with
  | mk answer after =>
      have same : after = ((node.addListener fun _ => .index { index, disk := site.disk }).2
          |>.register site.group index.chain index.name node.nextListener false).2 :=
        congrArg Prod.snd registered.symm
      rw [← same] at joined
      cases answer with
      | error error => exact ⟨joined, fun _ refused => by cases refused⟩
      | ok done => exact ⟨joined, fun _ _ => Node.watches_of_register registered⟩

theorem enlistEach_watches (site : Site) (name : String) (chain : ChainId)
    (wanted : List Contents) (indexer : Indexer ListenerId) (node : Node) :
    let result := Indexer.enlistEach (host site.disk site.group) name chain wanted indexer node
    Node.Prepares site node result.2.2 ∧ (result.1 = .ok () →
      ∀ contents ∈ wanted, result.2.2.Watches site { chain, contents }) := by
  induction wanted generalizing indexer node with
  | nil => exact ⟨.refl node, by simp⟩
  | cons contents rest ih =>
      obtain ⟨joined, watches⟩ := enlist_watches site { chain, contents } node
      rw [Indexer.enlistEach]
      dsimp only
      split
      · rename_i error after enlisted
        rw [enlisted] at joined
        exact ⟨joined, fun done => by cases done⟩
      · rename_i handle after enlisted
        rw [enlisted] at joined watches
        refine ⟨(joined.report _).trans (ih _ _).1, fun done other inside => ?_⟩
        rcases List.mem_cons.mp inside with rfl | inside
        · exact (ih _ _).1.watches (watches handle rfl)
        · exact (ih _ _).2 done other inside

theorem disks_dismissEach (opened : List (OpenIndex ListenerId)) {node : Node}
    (inert : node.Inert) :
    (Indexer.dismissEach (host disk group) opened node).2.disks = node.disks := by
  induction opened generalizing node with
  | nil => rfl
  | cons first rest ih =>
      obtain ⟨disks, still⟩ := (inert.closeIndex first.handle).deregister group first.index.chain
        first.index.name
      rw [Indexer.dismissEach]
      dsimp only [host] at ih ⊢
      refine (ih ?_).trans ?_
      · split <;> exact still
      · split <;> exact disks

theorem disks_close (indexer : Indexer ListenerId) {node : Node} (inert : node.Inert) :
    (indexer.close (host disk group) node).2.2.disks = node.disks := by
  unfold Indexer.close
  split
  · rfl
  · exact disks_dismissEach _ inert

theorem skip_of_verdict {config : IndexerConfig} {ran incomplete indexed mark : Bool}
    (decided : config.verdict ran incomplete indexed = .skip mark) :
    config.enabled = false ∧ mark = !incomplete := by
  unfold IndexerConfig.verdict at decided
  split at decided
  · rename_i disabled
    split at decided <;> cases decided
    exact ⟨by simpa using disabled, rfl⟩
  · split at decided <;> cases decided

variable {site : Site} {node written : Node}

theorem prepares_writeIf {group : String} {wanted : Bool} {key : Key}
    (marker : key.isMarker = true)
    (done : Indexer.writeIf (host site.disk group) wanted [.put key []] node = .ok written) :
    Node.Prepares site node written := by
  unfold Indexer.writeIf at done
  split at done
  · exact Node.prepares_write marker done
  · cases done
    exact .refl node

theorem isIncomplete_of_writeIf {group : String} {chain : ChainId}
    (done : Indexer.writeIf (host site.disk group) (!(node.store site.disk).isIncomplete chain)
      (.markIncomplete chain) node = .ok written) :
    (written.store site.disk).isIncomplete chain = true := by
  cases known : (node.store site.disk).isIncomplete chain with
  | true => exact (prepares_writeIf rfl done).marked.kept chain known
  | false =>
      have stored : node.write site.disk (.markIncomplete chain) = .ok written := by
        simpa [Indexer.writeIf, host, known] using done
      rw [Node.store_of_write stored]
      exact Store.isIncomplete_markIncomplete _ chain

/-- A chain that is taken in is watched by all its indices, unless indexing is disabled: then it is
marked incomplete. -/
theorem watches_takeIn (site : Site) (indexer : Indexer ListenerId) (name : String)
    (chain : ChainId) (flavor : Flavor) (node : Node) :
    let result := indexer.takeIn (host site.disk site.group) name chain flavor node
    Node.Prepares site node result.2.2 ∧ (result.1 = .ok () →
      indexer.config.enabled = false ∧ (result.2.2.store site.disk).isIncomplete chain = true ∨
      ∀ contents ∈ Indexer.contentsOf flavor, result.2.2.Watches site { chain, contents }) := by
  dsimp only [Indexer.takeIn]
  split
  · exact ⟨.refl node, by simp⟩
  · rename_i mark decided
    split
    · exact ⟨.refl node, by simp⟩
    · rename_i written wrote
      obtain ⟨disabled, rfl⟩ := skip_of_verdict decided
      exact ⟨(prepares_writeIf rfl wrote).report _,
        fun _ => .inl ⟨disabled, (isIncomplete_of_writeIf wrote :)⟩⟩
  · rename_i mark decided
    split
    · exact ⟨.refl node, by simp⟩
    · rename_i written wrote
      obtain ⟨joined, watches⟩ :=
        enlistEach_watches site name chain (Indexer.contentsOf flavor) indexer written
      exact ⟨(prepares_writeIf rfl wrote).trans joined, fun done => .inr (watches done)⟩

theorem attends_takeIn (site : Site) (indexer : Indexer ListenerId) (name : String)
    (chain : ChainId) (flavor : Flavor) (node : Node) :
    let result := indexer.takeIn (host site.disk site.group) name chain flavor node
    Node.Prepares site node result.2.2 ∧ (result.1 = .ok () → result.2.2.Attends site chain) := by
  obtain ⟨prepares, taken⟩ := watches_takeIn site indexer name chain flavor node
  refine ⟨prepares, fun done => ?_⟩
  rcases taken done with ⟨-, marked⟩ | watches
  · exact .inl marked
  · cases flavor with
    | linear => exact .inr (watches (.units .linear) List.mem_cons_self)
    | graph => exact .inr (watches (.units .graph) List.mem_cons_self)

theorem watches_register (site : Site) {indexer : Indexer ListenerId}
    (enabled : indexer.config.enabled = true) {chain : ChainId} (new : chain ∉ indexer.indices)
    (name : String) (flavor : Flavor) (node : Node) :
    let result := indexer.register (host site.disk site.group) name chain flavor node
    result.1 = .ok () → Node.Prepares site node result.2.2 ∧
      ∀ contents ∈ Indexer.contentsOf flavor, result.2.2.Watches site { chain, contents } := by
  obtain ⟨prepares, taken⟩ := watches_takeIn site indexer name chain flavor node
  unfold Indexer.register
  rw [if_neg new]
  split
  · exact fun refused => by cases refused
  · split
    · rename_i admitted after admits
      rw [admits] at prepares taken
      exact fun _ => ⟨prepares, (taken rfl).resolve_left (by simp [enabled])⟩
    · dsimp only
      split <;> exact fun refused => by cases refused

theorem prepares_create {config : IndexerConfig} {breaks : Bool} {hosted : HostedIndexer}
    (done : create node site.disk site.group config breaks = .ok (hosted, written)) :
    Node.Prepares site node written ∧ site = ⟨hosted.disk, hosted.group⟩ ∧
      hosted.indexer.isClosed = false ∧ hosted.indexer.indices = ∅ := by
  unfold create Indexer.create at done
  dsimp only at done
  split at done
  · cases done
  · rename_i indexer after created
    cases done
    split at created
    · cases created
      exact ⟨.refl _, rfl, rfl, rfl⟩
    · split at created
      · rename_i stored wrote
        cases created
        exact ⟨Node.prepares_write rfl wrote, rfl, rfl, rfl⟩
      · cases created

/-- Where an indexer that has just been created registers a chain, it sets markers at most; a chain
that it admits is marked incomplete or has its units watched. -/
theorem attends_register (site : Site) {indexer : Indexer ListenerId}
    (opened : indexer.isClosed = false) (bare : indexer.indices = ∅) (name : String)
    (chain : ChainId) (flavor : Flavor) {node : Node} (inert : node.Inert) :
    let result := indexer.register (host site.disk site.group) name chain flavor node
    (node.store site.disk).Marked (result.2.2.store site.disk) ∧
      (result.1 = .ok () → result.2.2.Inert ∧ result.2.2.Attends site chain) := by
  obtain ⟨prepares, attends⟩ := attends_takeIn site indexer name chain flavor node
  unfold Indexer.register
  rw [opened, if_neg Bool.false_ne_true, if_neg (by simp [bare])]
  split
  · rename_i admitted after taken
    rw [taken] at prepares attends
    exact ⟨prepares.marked, fun done => ⟨prepares.inert inert, attends done⟩⟩
  · rename_i error admitted after taken
    rw [taken] at prepares
    -- the chain is not admitted, so the indexer closes, which no disk notices
    have closed (lines : List LogLine) :
        (admitted.close (host site.disk site.group) (after.report lines)).2.2.disks = after.disks :=
      disks_close admitted (prepares.inert inert)
    dsimp only
    split
    · rename_i shut final ended
      have same : final.disks = after.disks :=
        (congrArg (fun result => result.2.2.disks) ended.symm).trans (closed _)
      rw [Node.store_of_disks same]
      exact ⟨prepares.marked, by simp⟩
    · rename_i problem shut final ended
      have same : final.disks = after.disks :=
        (congrArg (fun result => result.2.2.disks) ended.symm).trans (closed _)
      refine ⟨?_, by simp⟩
      change (node.store site.disk).Marked (final.store site.disk)
      rw [Node.store_of_disks same]
      exact prepares.marked

end HostedIndexer

end DecisionLedger
