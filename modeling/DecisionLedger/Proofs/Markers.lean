import DecisionLedger.Proofs.Admission

/-! # The markers of an indexer

An indexer sets markers in the store of its node and clears none.  What it refuses to index it
refuses for the markers alone: it closes, registers no index and sets no marker.
-/

namespace DecisionLedger

namespace Store

variable {store other last : Store}

def SameMarkers (store other : Store) : Prop :=
  ∀ key : Key, key.isMarker = true → other.has key = store.has key

/-- Every marker that is set stays so. -/
def KeepsMarkers (store other : Store) : Prop :=
  ∀ key : Key, key.isMarker = true → store.has key = true → other.has key = true

theorem SameMarkers.refl (store : Store) : store.SameMarkers store :=
  fun _ _ => rfl

theorem SameMarkers.trans (first : store.SameMarkers other) (later : other.SameMarkers last) :
    store.SameMarkers last :=
  fun key marker => (later key marker).trans (first key marker)

theorem SameMarkers.keeps (same : store.SameMarkers other) : store.KeepsMarkers other :=
  fun key marker present => (same key marker).trans present

theorem KeepsMarkers.trans (first : store.KeepsMarkers other) (later : other.KeepsMarkers last) :
    store.KeepsMarkers last :=
  fun key marker present => later key marker (first key marker present)

theorem SameElsewhere.sameMarkers (same : store.SameElsewhere other) : store.SameMarkers other := by
  intro key marker
  have outside : key.isIndexed = false := by
    cases key <;> first | rfl | cases marker
  rw [has_eq_isSome_raw?, has_eq_isSome_raw?, same key outside]

theorem has_put (store : Store) (key other : Key) :
    (store.apply [.put key []]).has other =
      (decide (key.canonical = other.canonical) || store.has other) := by
  rw [has_eq_isSome_raw?, has_eq_isSome_raw?, apply_cons, apply_nil, raw?_change_eq]
  by_cases same : key.canonical = other.canonical <;> simp [same, Change.put]

theorem keepsMarkers_put (store : Store) (key : Key) :
    store.KeepsMarkers (store.apply [.put key []]) := by
  intro other _ present
  rw [has_put, present, Bool.or_true]

end Store

/-- The world of an indexer: its writes are whole, and nothing else touches the markers of the
store. -/
structure MarkerHost (ι ω : Type) extends IndexerHost ι ω where
  written : ∀ {batch world after}, write batch world = .ok after →
    ((store world).apply batch).SameMarkers (store after)
  enlisted : ∀ index world, (store world).SameMarkers (store (enlist index world).2)
  closed : ∀ handle world, (store world).SameMarkers (store (close handle world))
  dismissed : ∀ chain name world, (store world).SameMarkers (store (dismiss chain name world).2)
  reported : ∀ line world, (store world).SameMarkers (store (report line world))

/-- A host that notes which indices it is asked to register. -/
def IndexerHost.noting {ι ω : Type} (host : IndexerHost ι ω) :
    IndexerHost ι (ω × List Index) where
  store world := host.store world.1
  write batch world := (host.write batch world.1).map (·, world.2)
  enlist index world :=
    let (answer, after) := host.enlist index world.1
    (answer, after, world.2 ++ [index])
  close handle world := (host.close handle world.1, world.2)
  dismiss chain name world :=
    let (failed, after) := host.dismiss chain name world.1
    (failed, after, world.2)
  report line world := (host.report line world.1, world.2)

namespace Node

theorem disks_register (group : String) (chain : ChainId) (name : String) (id : ListenerId)
    (tolerateDraining : Bool) (node : Node) :
    (node.register group chain name id tolerateDraining).2.disks = node.disks := by
  unfold Node.register
  split <;> rfl

/-- What a listener does when it is deregistered reaches no variable of a store but those of
indices. -/
theorem sameElsewhere_cleanUp
    (deregister : String → ChainId → String → Node → Option RegistryError × Node)
    (deregisters : ∀ (group : String) (chain : ChainId) (name : String) (node : Node)
      (disk : String),
      (node.store disk).SameElsewhere ((deregister group chain name node).2.store disk))
    (id : ListenerId) (node : Node) (disk : String) :
    (node.store disk).SameElsewhere ((cleanUp deregister id node).2.store disk) := by
  unfold cleanUp
  split
  · exact .refl _
  · exact .refl _
  · rename_i probe found
    split
    · exact .refl _
    · rename_i action acts
      change (node.store disk).SameElsewhere ((act deregister probe node action).2.store disk)
      cases action with
      | list => exact .refl _
      | notify =>
          have told := sameElsewhere_notify probe.group probe.chain .genesis node.clock node disk
          dsimp only [act]
          split <;> (rename_i outcome; rwa [outcome] at told)
      | register name tolerateDraining =>
          have kept := disks_register probe.group probe.chain name node.nextListener
            tolerateDraining (node.addListener fun _ => .probe { probe with
              failure := none, action := some .list, cleanupFailure := none }).2
          dsimp only [act]
          dsimp only [addListener] at kept ⊢
          split <;>
            (rename_i outcome; rw [outcome] at kept; rw [store_of_disks kept]; exact .refl _)
      | deregister name =>
          have gone := deregisters probe.group probe.chain name node disk
          dsimp only [act]
          split <;> (rename_i outcome; rwa [outcome] at gone)

theorem sameElsewhere_deregister (group : String) (chain : ChainId) (name : String) (node : Node)
    (disk : String) :
    (node.store disk).SameElsewhere ((node.deregister group chain name).2.store disk) := by
  have within (depth : Nat) : ∀ (group : String) (chain : ChainId) (name : String) (node : Node)
      (disk : String), (node.store disk).SameElsewhere
        ((deregisterWithin depth group chain name node).2.store disk) := by
    induction depth with
    | zero => exact fun _ _ _ _ _ => .refl _
    | succ depth ih =>
        intro group chain name node disk
        rw [deregisterWithin]
        split
        · exact .refl _
        · exact sameElsewhere_cleanUp _ ih _ (node.setGroup group _) disk
  exact within _ group chain name node disk

end Node

namespace HostedIndexer

/-- On a node, nothing but the indexer touches its markers. -/
def marking (disk group : String) : MarkerHost ListenerId Node where
  toIndexerHost := host disk group
  written := by
    intro batch node after done key _
    rw [Store.has_eq_isSome_raw?, Store.has_eq_isSome_raw?]
    exact congrArg (fun store => (Store.raw? store key).isSome) (Node.store_of_write done)
  enlisted index node := by
    have kept := Node.disks_register group index.chain index.name node.nextListener false
      (node.addListener fun _ => .index { index, disk }).2
    dsimp only [host, Node.addListener] at kept ⊢
    split <;> (rename_i outcome; rw [outcome] at kept; rw [Node.store_of_disks kept]; exact .refl _)
  closed _ _ := .refl _
  dismissed chain name node :=
    (Node.sameElsewhere_deregister group chain name node disk).sameMarkers
  reported _ _ := .refl _

end HostedIndexer

namespace Indexer

variable {ι ω : Type}

section Calls

variable {host : MarkerHost ι ω} {indexer after : Indexer ι} {world final : ω} {chain : ChainId}

/-- What registering a chain may do to an indexer and its world. -/
structure Proceeds (host : MarkerHost ι ω) (chain : ChainId) (indexer : Indexer ι) (world : ω)
    (after : Indexer ι) (final : ω) : Prop where
  config : after.config = indexer.config
  ran : after.hasRunBefore = indexer.hasRunBefore
  keeps : (host.store world).KeepsMarkers (host.store final)
  known : ∀ other ∈ after.indices,
    other ∈ indexer.indices ∨ other = chain ∧ indexer.config.enabled = true

theorem Proceeds.of_same (same : (host.store world).SameMarkers (host.store final)) :
    Proceeds host chain indexer world indexer final where
  config := rfl
  ran := rfl
  keeps := same.keeps
  known _ inside := .inl inside

theorem Proceeds.trans {middle : Indexer ι} {between : ω}
    (first : Proceeds host chain indexer world middle between)
    (later : Proceeds host chain middle between after final) :
    Proceeds host chain indexer world after final where
  config := later.config.trans first.config
  ran := later.ran.trans first.ran
  keeps := first.keeps.trans later.keeps
  known other inside := by
    rcases later.known other inside with before | ⟨rfl, enabled⟩
    · exact first.known other before
    · exact .inr ⟨rfl, first.config ▸ enabled⟩

theorem Proceeds.bare (proceeds : Proceeds host chain indexer world after final)
    (bare : indexer.config.enabled = false → indexer.indices = ∅)
    (disabled : after.config.enabled = false) : after.indices = ∅ := by
  rw [proceeds.config] at disabled
  refine Std.ExtTreeMap.eq_empty_iff_forall_not_mem.mpr fun other inside => ?_
  rcases proceeds.known other inside with before | ⟨-, enabled⟩
  · simp [bare disabled] at before
  · exact Bool.false_ne_true (disabled.symm.trans enabled)

theorem keepsMarkers_writeIf {wanted : Bool} {key : Key}
    (done : writeIf host.toIndexerHost wanted [.put key []] world = .ok final) :
    (host.store world).KeepsMarkers (host.store final) := by
  unfold writeIf at done
  split at done
  · exact (Store.keepsMarkers_put _ key).trans (host.written done).keeps
  · cases done
    exact (Store.SameMarkers.refl _).keeps

theorem proceeds_enlistEach (host : MarkerHost ι ω) (name : String) (chain : ChainId)
    (wanted : List Contents) (indexer : Indexer ι) (world : ω)
    (enabled : indexer.config.enabled = true) :
    let result := enlistEach host.toIndexerHost name chain wanted indexer world
    Proceeds host chain indexer world result.2.1 result.2.2 := by
  induction wanted generalizing indexer world with
  | nil => exact .of_same (.refl _)
  | cons contents rest ih =>
      have joined := host.enlisted { chain, contents } world
      rw [enlistEach]
      dsimp only
      split
      · rename_i error failed enlisted
        rw [enlisted] at joined
        exact .of_same joined
      · rename_i handle grown enlisted
        rw [enlisted] at joined
        refine .trans ?_ (ih _ _ ?_)
        · refine ⟨rfl, rfl, (joined.trans (host.reported _ _)).keeps, fun other inside => ?_⟩
          rcases Std.ExtTreeMap.mem_insert.mp inside with same | before
          · exact .inr ⟨(Std.LawfulEqOrd.eq_of_compare same).symm, enabled⟩
          · exact .inl before
        · exact enabled

theorem enabled_of_verdict {config : IndexerConfig} {ran incomplete indexed mark : Bool}
    (decided : config.verdict ran incomplete indexed = .index mark) : config.enabled = true := by
  unfold IndexerConfig.verdict at decided
  split at decided
  · split at decided <;> cases decided
  · rename_i enabled
    simpa using enabled

theorem proceeds_takeIn (host : MarkerHost ι ω) (indexer : Indexer ι) (name : String)
    (chain : ChainId) (flavor : Flavor) (world : ω) :
    let result := indexer.takeIn host.toIndexerHost name chain flavor world
    Proceeds host chain indexer world result.2.1 result.2.2 := by
  dsimp only [takeIn]
  split
  · exact .of_same (.refl _)
  · split
    · exact .of_same (.refl _)
    · rename_i written wrote
      refine ⟨rfl, rfl, ?_, fun _ inside => .inl inside⟩
      exact (keepsMarkers_writeIf wrote).trans (host.reported _ _).keeps
  · rename_i mark decided
    split
    · exact .of_same (.refl _)
    · rename_i written wrote
      refine .trans ⟨rfl, rfl, keepsMarkers_writeIf wrote, fun _ inside => .inl inside⟩ ?_
      exact proceeds_enlistEach host name chain _ indexer written (enabled_of_verdict decided)

theorem sameMarkers_dismissEach (host : MarkerHost ι ω) (opened : List (OpenIndex ι)) (world : ω) :
    (host.store world).SameMarkers
      (host.store (dismissEach host.toIndexerHost opened world).2) := by
  induction opened generalizing world with
  | nil => exact .refl _
  | cons first rest ih =>
      have gone := (host.closed first.handle world).trans
        (host.dismissed first.index.chain first.index.name _)
      rw [dismissEach]
      dsimp only
      refine .trans ?_ (ih _)
      split
      · exact gone
      · exact gone.trans (host.reported _ _)

/-- What closing leaves of an indexer: it is closed and has no indices. -/
def shut (indexer : Indexer ι) : Indexer ι :=
  if indexer.isClosed then indexer else { indexer with isClosed := true, indices := ∅ }

theorem isClosed_shut (indexer : Indexer ι) : indexer.shut.isClosed = true := by
  unfold shut
  split <;> simp [*]

theorem indices_shut (opened : indexer.isClosed = false) : indexer.shut.indices = ∅ := by
  simp [shut, opened]

theorem mem_of_shut (inside : chain ∈ indexer.shut.indices) : chain ∈ indexer.indices := by
  unfold shut at inside
  split at inside
  · exact inside
  · simp at inside

theorem close_eq (host : MarkerHost ι ω) (indexer : Indexer ι) (world : ω) :
    ∃ answer final, indexer.close host.toIndexerHost world = (answer, indexer.shut, final) ∧
      (host.store world).SameMarkers (host.store final) := by
  cases opened : indexer.isClosed with
  | true => exact ⟨.ok (), world, by simp [close, shut, opened], .refl _⟩
  | false =>
      have same := sameMarkers_dismissEach host (indexer.indices.toList.flatMap Prod.snd) world
      simp only [close, shut, opened, Bool.false_eq_true, if_false]
      exact ⟨_, _, rfl, same⟩

theorem proceeds_shut (same : (host.store world).SameMarkers (host.store final)) :
    Proceeds host chain indexer world indexer.shut final := by
  refine ⟨?_, ?_, same.keeps, fun _ inside => .inl (mem_of_shut inside)⟩ <;>
    (unfold shut; split <;> rfl)

/-- What an indexer that could not register a chain does: it logs the error and closes. -/
def giveUp (host : IndexerHost ι ω) (indexer : Indexer ι) (name : String) (error : IndexerError)
    (world : ω) : Except IndexerError Unit × Indexer ι × ω :=
  let failure : LogLine := .error s!"failed to register chain {name} to indexer: {error.message}"
  match indexer.close host (host.report failure world) with
  | (.ok (), closed, final) => (.error error, closed, final)
  | (.error closeError, closed, final) =>
    (.error error, closed,
      host.report (.error s!"failed to close indexer: {closeError.message}") final)

theorem register_eq (host : IndexerHost ι ω) (indexer : Indexer ι) (name : String)
    (chain : ChainId) (flavor : Flavor) (world : ω) (opened : indexer.isClosed = false)
    (new : chain ∉ indexer.indices) :
    indexer.register host name chain flavor world =
      match indexer.takeIn host name chain flavor world with
      | (.ok (), admitted, after) => (.ok (), admitted, after)
      | (.error error, admitted, after) => admitted.giveUp host name error after := by
  rw [register, opened, if_neg Bool.false_ne_true, if_neg new]
  rfl

theorem giveUp_eq (host : MarkerHost ι ω) (indexer : Indexer ι) (name : String)
    (error : IndexerError) (world : ω) :
    ∃ final, indexer.giveUp host.toIndexerHost name error world =
        (.error error, indexer.shut, final) ∧
      (host.store world).SameMarkers (host.store final) := by
  dsimp only [giveUp]
  generalize LogLine.error (s!"failed to register chain {name} to indexer: {error.message}") = line
  obtain ⟨answer, after, closed, same⟩ := close_eq host indexer (host.report line world)
  have marked := (host.reported line world).trans same
  rw [closed]
  cases answer with
  | ok done => exact ⟨_, rfl, marked⟩
  | error problem => exact ⟨_, rfl, marked.trans (host.reported _ _)⟩

theorem proceeds_register (host : MarkerHost ι ω) (indexer : Indexer ι) (name : String)
    (chain : ChainId) (flavor : Flavor) (world : ω) :
    let result := indexer.register host.toIndexerHost name chain flavor world
    Proceeds host chain indexer world result.2.1 result.2.2 := by
  have taken := proceeds_takeIn host indexer name chain flavor world
  cases opened : indexer.isClosed with
  | true =>
      simp only [register, opened, if_true]
      exact .of_same (.refl _)
  | false =>
      by_cases known : chain ∈ indexer.indices
      · simp only [register, opened, known, Bool.false_eq_true, if_false, if_true]
        exact .of_same (host.reported _ _)
      · rw [register_eq _ _ _ _ _ _ opened known]
        dsimp only
        split
        · rename_i admitted after admits
          rw [admits] at taken
          exact taken
        · rename_i error admitted failed refused
          rw [refused] at taken
          obtain ⟨final, given, same⟩ := giveUp_eq host admitted name error failed
          rw [given]
          exact taken.trans (proceeds_shut same)

end Calls

section Refusal

variable {indexer : Indexer ι} {world : ω} {chain : ChainId} {reason : String}

theorem dismissEach_noting (host : IndexerHost ι ω) (opened : List (OpenIndex ι)) (world : ω)
    (notes : List Index) :
    dismissEach host.noting opened (world, notes) =
      let (failed, after) := dismissEach host opened world
      (failed, after, notes) := by
  induction opened generalizing world with
  | nil => rfl
  | cons first rest ih =>
      simp only [dismissEach, IndexerHost.noting] at ih ⊢
      cases (host.dismiss first.index.chain first.index.name
        (host.close first.handle world)).1 <;> simp only [ih]

theorem close_noting (host : IndexerHost ι ω) (indexer : Indexer ι) (world : ω)
    (notes : List Index) :
    indexer.close host.noting (world, notes) =
      let (answer, after, final) := indexer.close host world
      (answer, after, final, notes) := by
  unfold close
  split
  · rfl
  · dsimp only
    rw [dismissEach_noting]

theorem giveUp_noting (host : IndexerHost ι ω) (indexer : Indexer ι) (name : String)
    (error : IndexerError) (world : ω) (notes : List Index) :
    indexer.giveUp host.noting name error (world, notes) =
      let (answer, after, final) := indexer.giveUp host name error world
      (answer, after, final, notes) := by
  have reported (line : LogLine) :
      host.noting.report line (world, notes) = (host.report line world, notes) := rfl
  dsimp only [giveUp]
  rw [reported, close_noting]
  generalize indexer.close host (host.report
    (.error s!"failed to register chain {name} to indexer: {error.message}") world) = closing
  obtain ⟨answer, closed, final⟩ := closing
  cases answer <;> rfl

/-- What comes of registering a chain that an indexer refuses: the indexer closes, and it neither
registers an index nor sets a marker. -/
structure Refusal (host : MarkerHost ι ω) (indexer : Indexer ι) (world : ω) (name : String)
    (chain : ChainId) (flavor : Flavor) (reason : String) : Prop where
  answer : (indexer.register host.toIndexerHost name chain flavor world).1 =
    .error (.incompleteIndex chain reason)
  closes : (indexer.register host.toIndexerHost name chain flavor world).2.1.isClosed = true
  empties : (indexer.register host.toIndexerHost name chain flavor world).2.1.indices = ∅
  marksNone : (host.store world).SameMarkers
    (host.store (indexer.register host.toIndexerHost name chain flavor world).2.2)
  listsNone : ∀ notes, indexer.register host.noting name chain flavor (world, notes) =
    let (answer, after, final) := indexer.register host.toIndexerHost name chain flavor world
    (answer, after, final, notes)

theorem refusal_of_verdict (host : MarkerHost ι ω) (opened : indexer.isClosed = false)
    (new : chain ∉ indexer.indices) (name : String) (flavor : Flavor)
    (refused : indexer.config.verdict indexer.hasRunBefore ((host.store world).isIncomplete chain)
      ((host.store world).isPreviouslyIndexed chain) = .refuse reason) :
    Refusal host indexer world name chain flavor reason := by
  have plain : indexer.register host.toIndexerHost name chain flavor world =
      indexer.giveUp host.toIndexerHost name (.incompleteIndex chain reason) world := by
    rw [register_eq _ _ _ _ _ _ opened new, takeIn, refused]
  have noted (notes : List Index) :
      indexer.register host.noting name chain flavor (world, notes) =
        indexer.giveUp host.noting name (.incompleteIndex chain reason) (world, notes) := by
    have same : indexer.config.verdict indexer.hasRunBefore
        ((host.noting.store (world, notes)).isIncomplete chain)
        ((host.noting.store (world, notes)).isPreviouslyIndexed chain) = .refuse reason := refused
    rw [register_eq _ _ _ _ _ _ opened new, takeIn, same]
  obtain ⟨final, given, same⟩ := giveUp_eq host indexer name (.incompleteIndex chain reason) world
  refine ⟨?_, ?_, ?_, ?_, fun notes => ?_⟩
  · rw [plain, given]
  · rw [plain, given]
    exact isClosed_shut indexer
  · rw [plain, given]
    exact indices_shut opened
  · rw [plain, given]
    exact same
  · rw [noted, giveUp_noting, plain]

section Markers

variable (host : MarkerHost ι ω) (strict : indexer.config.allowsIncomplete = false)

include strict

theorem refusal_of_incomplete (opened : indexer.isClosed = false)
    (enabled : indexer.config.enabled = true) (ran : indexer.hasRunBefore = true)
    (incomplete : (host.store world).isIncomplete chain = true) (new : chain ∉ indexer.indices)
    (name : String) (flavor : Flavor) :
    Refusal host indexer world name chain flavor "the index is incomplete" := by
  refine refusal_of_verdict host opened new name flavor ?_
  simp [IndexerConfig.verdict, enabled, strict, incomplete, ran]

theorem refusal_of_indexed (opened : indexer.isClosed = false)
    (disabled : indexer.config.enabled = false) (bare : indexer.indices = ∅)
    (indexed : (host.store world).isPreviouslyIndexed chain = true) (name : String)
    (flavor : Flavor) :
    Refusal host indexer world name chain flavor
      "running with indexing disabled would make the index incomplete" := by
  refine refusal_of_verdict host opened (by simp [bare]) name flavor ?_
  simp [IndexerConfig.verdict, disabled, strict, indexed]

/-- No index of a chain that is marked incomplete is made once the node has run. -/
theorem not_mem_register (enabled : indexer.config.enabled = true)
    (ran : indexer.hasRunBefore = true)
    (incomplete : (host.store world).isIncomplete chain = true) (new : chain ∉ indexer.indices)
    (name : String) (other : ChainId) (flavor : Flavor) :
    chain ∉ (indexer.register host.toIndexerHost name other flavor world).2.1.indices := by
  intro inside
  have proceeds := proceeds_register host indexer name other flavor world
  rcases proceeds.known chain inside with before | ⟨rfl, -⟩
  · exact new before
  · cases opened : indexer.isClosed with
    | true =>
        simp only [register, opened, if_true] at inside
        exact new inside
    | false =>
        have refusal :=
          refusal_of_incomplete host strict opened enabled ran incomplete new name flavor
        simp [refusal.empties] at inside

end Markers

end Refusal

end Indexer

end DecisionLedger
