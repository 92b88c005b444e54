import DecisionLedger.Proofs.Markers

/-! # Indexers one after another

Indexers are created on one store one after another, each used only until the next.  Whatever they
are asked, and whichever writes fail, no marker is cleared.  An indexer that does not put up with an
incomplete index then refuses, without looking at anything but the markers, every chain that an
earlier one left incomplete, and one that does not index refuses every chain that was indexed.
-/

namespace DecisionLedger

/-- Indexers created on one store one after another. -/
structure Succession (ι ω : Type) where
  /-- How many indexers were created. -/
  count : Nat := 0
  /-- The indexer created last. -/
  current : Option (Indexer ι) := none
  world : ω

/-- What may happen while indexers come one after another: one is created, the last one is used, or
the world changes otherwise, but for the markers. -/
inductive Succession.Move {ι ω : Type} (host : MarkerHost ι ω) where
  | create (config : IndexerConfig)
  | register (name : String) (chain : ChainId) (flavor : Flavor)
  | close
  | drift (change : ω → ω)
    (kept : ∀ world, (host.store world).SameMarkers (host.store (change world)))

namespace Succession

variable {ι ω : Type} {host : MarkerHost ι ω} {chain : ChainId} {since : Nat}

/-- A succession after a move.  An indexer whose creation fails does not replace the last one. -/
def perform (succession : Succession ι ω) (move : Move host) : Succession ι ω :=
  match move, succession.current with
  | .create config, _ =>
    match Indexer.create host.toIndexerHost config succession.world with
    | .ok (indexer, world) => { count := succession.count + 1, current := some indexer, world }
    | .error _ => succession
  | .register name chain flavor, some indexer =>
    let (_, after, world) :=
      indexer.register host.toIndexerHost name chain flavor succession.world
    { succession with current := some after, world }
  | .close, some indexer =>
    let (_, after, world) := indexer.close host.toIndexerHost succession.world
    { succession with current := some after, world }
  | .drift change _, _ => { succession with world := change succession.world }
  | .register _ _ _, none | .close, none => succession

def run (succession : Succession ι ω) (moves : List (Move host)) : Succession ι ω :=
  moves.foldl perform succession

/-- All that a move may come to. -/
inductive Turn (host : MarkerHost ι ω) (before : Succession ι ω) : Succession ι ω → Prop where
  /-- Nothing happens, or nothing that touches the markers. -/
  | rest {world : ω} : (host.store before.world).SameMarkers (host.store world) →
      Turn host before { before with world }
  | create {config : IndexerConfig} {world : ω} :
      (host.store before.world).KeepsMarkers (host.store world) →
      (host.store world).hasRun = true →
      Turn host before {
        count := before.count + 1
        current := some { config, hasRunBefore := (host.store before.world).hasRun }
        world }
  | register {indexer : Indexer ι} (name : String) (chain : ChainId) (flavor : Flavor) :
      before.current = some indexer →
      Turn host before { before with
        current := some
          (indexer.register host.toIndexerHost name chain flavor before.world).2.1
        world := (indexer.register host.toIndexerHost name chain flavor before.world).2.2 }
  | close {indexer : Indexer ι} {world : ω} : before.current = some indexer →
      (host.store before.world).SameMarkers (host.store world) →
      Turn host before { before with current := some indexer.shut, world }

theorem turn_perform (succession : Succession ι ω) (move : Move host) :
    Turn host succession (succession.perform move) := by
  cases move with
  | drift change kept => exact .rest (kept _)
  | create config =>
      dsimp only [perform, Indexer.create]
      split
      · rename_i indexer world created
        split at created
        · rename_i ran
          cases created
          exact .create (Store.SameMarkers.refl _).keeps ran
        · split at created
          · rename_i written wrote
            cases created
            have marked := host.written wrote
            refine .create ((Store.keepsMarkers_put _ .hasRun).trans marked.keeps) ?_
            refine (marked .hasRun rfl).trans ?_
            rw [Batch.markHasRun, Store.has_put]
            simp
          · cases created
      · exact .rest (.refl _)
  | register name chain flavor =>
      cases current : succession.current with
      | none =>
          simp only [perform, current]
          exact .rest (.refl _)
      | some indexer =>
          simp only [perform, current]
          exact .register name chain flavor current
  | close =>
      cases current : succession.current with
      | none =>
          simp only [perform, current]
          exact .rest (.refl _)
      | some indexer =>
          obtain ⟨answer, world, closed, same⟩ := Indexer.close_eq host indexer succession.world
          simp only [perform, current, closed]
          exact .close current same

/-- What every move keeps: nothing is marked unless the node has run, it has run once an indexer was
created, and an indexer that does not index has no indices. -/
structure Sound (host : MarkerHost ι ω) (succession : Succession ι ω) : Prop where
  ran : ∀ key : Key, key.isMarker = true → (host.store succession.world).has key = true →
    (host.store succession.world).hasRun = true
  begun : ∀ indexer, succession.current = some indexer →
    (host.store succession.world).hasRun = true ∧
      (indexer.config.enabled = false → indexer.indices = ∅)

/-- What is so once a chain is marked incomplete, of the indexers that are created then. -/
structure Leaves (host : MarkerHost ι ω) (chain : ChainId) (since : Nat)
    (succession : Succession ι ω) : Prop where
  incomplete : (host.store succession.world).isIncomplete chain = true
  ran : (host.store succession.world).hasRun = true
  later : ∀ indexer, succession.current = some indexer → since < succession.count →
    indexer.hasRunBefore = true ∧ (indexer.config.enabled = true →
      indexer.config.allowsIncomplete = false → chain ∉ indexer.indices)

section Turn

variable {before after : Succession ι ω}

theorem Turn.keeps (turn : Turn host before after) :
    (host.store before.world).KeepsMarkers (host.store after.world) := by
  cases turn with
  | rest same => exact same.keeps
  | create keeps _ => exact keeps
  | register name chain flavor _ =>
      exact (Indexer.proceeds_register host _ name chain flavor _).keeps
  | close _ same => exact same.keeps

theorem Turn.hasRun (turn : Turn host before after)
    (ran : (host.store before.world).hasRun = true) : (host.store after.world).hasRun = true :=
  turn.keeps .hasRun rfl ran

theorem Turn.sound (turn : Turn host before after) (sound : Sound host before) :
    Sound host after := by
  have stays := turn.hasRun
  cases turn with
  | rest same =>
      constructor
      · intro key marker present
        exact stays (sound.ran key marker ((same key marker).symm.trans present))
      · intro indexer current
        exact (sound.begun indexer current).imp_left stays
  | create keeps ran =>
      constructor
      · exact fun _ _ _ => ran
      · intro indexer current
        cases current
        exact ⟨ran, fun _ => rfl⟩
  | @register indexer name chain flavor current =>
      obtain ⟨ran, bare⟩ := sound.begun indexer current
      constructor
      · exact fun _ _ _ => stays ran
      · intro after same
        cases same
        exact ⟨stays ran, (indexer.proceeds_register host name chain flavor before.world).bare bare⟩
  | @close indexer world current same =>
      obtain ⟨ran, bare⟩ := sound.begun indexer current
      constructor
      · exact fun _ _ _ => stays ran
      · intro after shut
        cases shut
        have proceeds : indexer.Proceeds host 0 before.world indexer.shut world :=
          Indexer.proceeds_shut same
        exact ⟨stays ran, proceeds.bare bare⟩

theorem Turn.leaves (turn : Turn host before after) (leaves : Leaves host chain since before) :
    Leaves host chain since after := by
  have marked := turn.keeps (.incomplete chain) rfl leaves.incomplete
  have stays := turn.hasRun leaves.ran
  cases turn with
  | rest same => exact ⟨marked, stays, leaves.later⟩
  | create keeps ran =>
      refine ⟨marked, stays, fun indexer current _ => ?_⟩
      cases current
      exact ⟨leaves.ran, fun _ _ => Std.ExtTreeMap.not_mem_empty⟩
  | @register indexer name other flavor current =>
      refine ⟨marked, stays, fun after same later => ?_⟩
      cases same
      obtain ⟨ran, unknown⟩ := leaves.later indexer current later
      have proceeds := indexer.proceeds_register host name other flavor before.world
      rw [proceeds.ran, proceeds.config]
      exact ⟨ran, fun enabled strict => Indexer.not_mem_register host strict enabled ran
        leaves.incomplete (unknown enabled strict) name other flavor⟩
  | @close indexer world current same =>
      refine ⟨marked, stays, fun after shut later => ?_⟩
      cases shut
      obtain ⟨ran, unknown⟩ := leaves.later indexer current later
      have proceeds : indexer.Proceeds host 0 before.world indexer.shut world :=
        Indexer.proceeds_shut same
      rw [proceeds.ran, proceeds.config]
      exact ⟨ran, fun enabled strict inside => unknown enabled strict (Indexer.mem_of_shut inside)⟩

end Turn

/-- What holds, whatever happens to a succession, of everything that happens later. -/
structure Policy (host : MarkerHost ι ω) (earlier later : Succession ι ω) : Prop where
  /-- No marker is ever cleared. -/
  kept : (host.store earlier.world).KeepsMarkers (host.store later.world)
  /-- Once a chain is marked incomplete, it is refused by every open indexer created later that
  indexes and does not put up with that. -/
  incomplete : ∀ {indexer : Indexer ι} {chain : ChainId} (name : String) (flavor : Flavor),
    (host.store earlier.world).isIncomplete chain = true → earlier.count < later.count →
    later.current = some indexer → indexer.isClosed = false → indexer.config.enabled = true →
    indexer.config.allowsIncomplete = false →
    indexer.Refusal host later.world name chain flavor "the index is incomplete"
  /-- Once a chain is marked as indexed, it is refused by every open indexer that does not index and
  does not put up with an incomplete index. -/
  indexed : ∀ {indexer : Indexer ι} {chain : ChainId} (name : String) (flavor : Flavor),
    (host.store earlier.world).isPreviouslyIndexed chain = true →
    later.current = some indexer → indexer.isClosed = false → indexer.config.enabled = false →
    indexer.config.allowsIncomplete = false →
    indexer.Refusal host later.world name chain flavor
      "running with indexing disabled would make the index incomplete"

section Run

variable {start before : Succession ι ω}

theorem run_induction {holds : Succession ι ω → Prop}
    (kept : ∀ {before after}, Turn host before after → holds before → holds after)
    (begun : holds start) (moves : List (Move host)) : holds (start.run moves) :=
  List.foldlRecOn moves perform begun fun _ held move _ => kept (turn_perform _ move) held

theorem sound_run (unmarked : ∀ key : Key, key.isMarker = true →
    (host.store start.world).has key = false) (fresh : start.current = none)
    (moves : List (Move host)) : Sound host (start.run moves) := by
  refine run_induction Turn.sound ⟨?_, ?_⟩ moves
  · intro key marker present
    simp [unmarked key marker] at present
  · simp [fresh]

theorem keeps_run (start : Succession ι ω) (moves : List (Move host)) :
    (host.store start.world).KeepsMarkers (host.store (start.run moves).world) := by
  have stays {before after : Succession ι ω} (turn : Turn host before after)
      (keeps : (host.store start.world).KeepsMarkers (host.store before.world)) :
      (host.store start.world).KeepsMarkers (host.store after.world) := keeps.trans turn.keeps
  exact run_induction stays (Store.SameMarkers.refl _).keeps moves

/-- On a store that starts without markers, the markers rule over all indexers that come one after
another. -/
theorem policy_run (host : MarkerHost ι ω) (world : ω)
    (unmarked : ∀ key : Key, key.isMarker = true → (host.store world).has key = false)
    (before after : List (Move host)) :
    let earlier := Succession.run { world } before
    Policy host earlier (earlier.run after) := by
  intro earlier
  have sound : Sound host earlier := sound_run unmarked rfl before
  have keeps := keeps_run earlier after
  refine ⟨keeps, ?_, ?_⟩
  · intro indexer chain name flavor incomplete created current opened enabled strict
    -- Who marked the chain had marked the node before: every later indexer knows that it has run.
    have ran := sound.ran (.incomplete chain) rfl incomplete
    have leaves : Leaves host chain earlier.count (earlier.run after) :=
      run_induction Turn.leaves ⟨incomplete, ran, fun _ _ later => absurd later (lt_irrefl _)⟩ after
    obtain ⟨before, unknown⟩ := leaves.later indexer current created
    exact Indexer.refusal_of_incomplete host strict opened enabled before leaves.incomplete
      (unknown enabled strict) name flavor
  · intro indexer chain name flavor indexed current opened disabled strict
    have later : Sound host (earlier.run after) := run_induction Turn.sound sound after
    exact Indexer.refusal_of_indexed host strict opened disabled
      ((later.begun indexer current).2 disabled) (keeps (.previouslyIndexed chain) rfl indexed)
      name flavor

def unindexed : List (Move (HostedIndexer.marking "disk" "group")) :=
  [.create { enabled := false }, .register "first" 1 .linear]

def reindexed : List (Move (HostedIndexer.marking "disk" "group")) :=
  [.create {}]

theorem refused_of_unindexed :
    let earlier := Succession.run { world := Node.empty 0 } unindexed
    let later := earlier.run reindexed
    (∀ key : Key, key.isMarker = true → ((Node.empty 0).store "disk").has key = false) ∧
      (earlier.world.store "disk").isIncomplete 1 = true ∧ earlier.count < later.count ∧
      ∃ indexer, later.current = some indexer ∧ indexer.isClosed = false ∧
        indexer.Refusal (HostedIndexer.marking "disk" "group") later.world "first" 1 .linear
          "the index is incomplete" := by
  have unmarked (key : Key) (_ : key.isMarker = true) :
      ((Node.empty 0).store "disk").has key = false := by
    simp [Node.store, Node.disk, Node.empty, Store.has, Disk.empty, Store.empty]
  have policy := policy_run (HostedIndexer.marking "disk" "group") (Node.empty 0) unmarked unindexed
    reindexed
  have incomplete : ((Succession.run { world := Node.empty 0 } unindexed).world.store
      "disk").isIncomplete 1 = true := by decide +kernel
  refine ⟨unmarked, incomplete, by decide +kernel, { config := {}, hasRunBefore := true }, rfl, rfl,
    ?_⟩
  exact policy.incomplete "first" .linear incomplete (by decide +kernel) rfl rfl rfl rfl

end Run

end Succession

end DecisionLedger
