import DecisionLedger.Proofs.Enlisting
import Mathlib.Logic.Relation

/-! # The end of an indexer

An indexer closes when it is told to, or when a chain cannot be registered, whichever of the steps
of that has failed.  Then all that it has ever registered is gone and stays so, what others have
registered is untouched, and the shutdown action was started once.  In between, others may do
anything but deregister what the indexer has registered.
-/

namespace DecisionLedger

/-- What an indexer is told to do. -/
inductive IndexerCall where
  | register (name : String) (chain : ChainId) (flavor : Flavor)
  | close
  deriving Repr, DecidableEq

namespace IndexerCall

variable {ι υ ω : Type}

def run (call : IndexerCall) (host : IndexerHost ι ω) (indexer : Indexer ι) (world : ω) :
    Except IndexerError Unit × Indexer ι × ω :=
  match call with
  | register name chain flavor => indexer.register host name chain flavor world
  | close => indexer.close host world

/-- What an indexer on a node does when it is told to. -/
def serve (call : IndexerCall) (hosted : HostedIndexer) (node : Node) :
    Except IndexerError Unit × HostedIndexer × Node :=
  match call with
  | register name chain flavor => hosted.register node name chain flavor
  | close => hosted.close node

def closes : IndexerCall → Except IndexerError Unit → Bool
  | register _ _ _, .ok () => false
  | register _ _ _, .error _ => true
  | close, _ => true

/-- What a closed indexer answers. -/
def refusal : IndexerCall → Except IndexerError Unit
  | register _ _ _ => .error .closed
  | close => .ok ()

theorem serve_eq (call : IndexerCall) (hosted : HostedIndexer) (node : Node) :
    call.serve hosted node =
      let (answer, indexer, after) :=
        call.run (HostedIndexer.host hosted.disk hosted.group) hosted.indexer node
      (answer, hosted.adopt indexer, after) := by
  cases call <;> rfl

theorem run_mirror {upper : IndexerHost ι υ} {lower : IndexerHost ι ω} {view : υ → ω}
    (mirrors : upper.Mirrors lower view) (call : IndexerCall) (indexer : Indexer ι) (world : υ) :
    (call.run upper indexer world).map id (Prod.map id view) =
      call.run lower indexer (view world) := by
  cases call with
  | register name chain flavor =>
      exact Indexer.register_mirror mirrors indexer name chain flavor world
  | close => exact Indexer.close_mirror mirrors indexer world

theorem run_of_closed {indexer : Indexer ι} (closed : indexer.isClosed = true)
    (call : IndexerCall) (host : IndexerHost ι ω) (world : ω) :
    call.run host indexer world = (call.refusal, indexer, world) := by
  cases call with
  | register name chain flavor => exact if_pos closed
  | close => exact if_pos closed

end IndexerCall

namespace Indexer

open HostedIndexer

variable {group : String} {indexer : Indexer ListenerId}
  {world : Node × List (Registration ListenerId)}

/-- What an indexer has registered is accounted for: an open one keeps it, and of a closed one
nothing is left. -/
inductive Accounted (group : String) (indexer : Indexer ListenerId)
    (world : Node × List (Registration ListenerId)) : Prop where
  | kept (opened : indexer.isClosed = false) (keeps : Keeps group indexer world)
  | vacated (closed : indexer.isClosed = true) (empty : indexer.indices = ∅)
      (vacates : Vacates group world)

theorem Accounted.keeps (accounted : Accounted group indexer world)
    (opened : indexer.isClosed = false) : Keeps group indexer world := by
  cases accounted with
  | kept _ keeps => exact keeps
  | vacated closed _ _ => exact absurd (opened.symm.trans closed) Bool.false_ne_true

theorem Accounted.vacates (accounted : Accounted group indexer world)
    (closed : indexer.isClosed = true) : indexer.indices = ∅ ∧ Vacates group world := by
  cases accounted with
  | kept opened _ => exact absurd (opened.symm.trans closed) Bool.false_ne_true
  | vacated _ empty vacates => exact ⟨empty, vacates⟩

theorem Accounted.minds {node : Node} (accounted : Accounted group indexer world)
    (minds : Node.Minds group world.2 world.1 node) :
    Accounted group indexer (node, world.2) := by
  cases accounted with
  | kept opened keeps => exact .kept opened (keeps.minds minds)
  | vacated closed empty vacates => exact .vacated closed empty (vacates.minds minds)

/-- What an indexer does when it is told to leaves whatever others have registered, and what the
indexer has registered is accounted for still. -/
theorem Accounted.run (accounted : Accounted group indexer world) (disk : String)
    (call : IndexerCall) :
    let result := call.run (tracking disk group) indexer world
    Accounted group result.2.1 result.2.2 ∧ Spares group world result.2.2 ∧
      (call.closes result.1 = true → result.2.1.isClosed = true) := by
  cases accounted with
  | vacated closed empty vacates =>
      rw [call.run_of_closed closed]
      exact ⟨.vacated closed empty vacates, ⟨rfl, fun _ _ => rfl⟩, fun _ => closed⟩
  | kept opened keeps =>
      cases call with
      | register name chain flavor =>
          have spec := keeps.register opened disk name chain flavor
          dsimp only [IndexerCall.run] at spec ⊢
          generalize indexer.register (tracking disk group) name chain flavor world = result
            at spec ⊢
          obtain ⟨answer, later, after⟩ := result
          obtain ⟨spares, spec⟩ := spec
          cases answer with
          | ok done => exact ⟨.kept spec.1 spec.2, spares, fun never => nomatch never⟩
          | error error =>
              obtain ⟨closed, empty, vacates⟩ := spec
              exact ⟨.vacated closed empty vacates, spares, fun _ => closed⟩
      | close =>
          obtain ⟨shut, -, vacates, spares⟩ := keeps.close disk opened
          dsimp only [IndexerCall.run]
          rw [shut]
          exact ⟨.vacated rfl rfl vacates, spares, fun _ => rfl⟩

end Indexer

/-- An indexer on a node, with all that it has registered. -/
structure Custody where
  hosted : HostedIndexer
  node : Node
  made : List (Registration ListenerId)
  /-- How often the shutdown action was started. -/
  started : Nat

namespace Custody

open HostedIndexer Indexer

variable {custody later : Custody}

def world (custody : Custody) : Node × List (Registration ListenerId) :=
  (custody.node, custody.made)

def starts (before after : HostedIndexer) : Bool :=
  before.shutdown != .started && after.shutdown == .started

/-- Have the indexer do what it is told, and write down what it registers. -/
def perform (custody : Custody) (call : IndexerCall) : Except IndexerError Unit × Custody :=
  let (answer, hosted, node) := call.serve custody.hosted custody.node
  let tracked := call.run (tracking custody.hosted.disk custody.hosted.group)
    custody.hosted.indexer custody.world
  (answer, { hosted, node, made := tracked.2.2.2,
             started := custody.started + (starts custody.hosted hosted).toNat })

/-- What may come next: the indexer does what it is told, its shutdown action is waited for, or
others do something. -/
inductive Moves (custody : Custody) : Custody → Prop where
  | call (call : IndexerCall) : Moves custody (custody.perform call).2
  | wait : Moves custody { custody with
      hosted := (custody.hosted.wait custody.node).2.1
      node := (custody.hosted.wait custody.node).2.2 }
  | others {node : Node}
      (minds : Node.Minds custody.hosted.group custody.made custody.node node) :
      Moves custody { custody with node }

/-- Whatever may come of an indexer. -/
abbrev Leads : Custody → Custody → Prop := Relation.ReflTransGen Moves

/-- An indexer is closed for good. -/
structure Down (custody : Custody) : Prop where
  closed : custody.hosted.indexer.isClosed = true
  started : custody.started = 1
  unitIndex : ∀ chain, custody.hosted.indexer.unitIndex? chain = none
  transactionIndex : ∀ chain, custody.hosted.indexer.transactionIndex? chain = none
  ordered : custody.node.Ordered custody.hosted.group
  absent : ∀ own ∈ custody.made, ∀ registration ∈
    (custody.node.group custody.hosted.group).registrations, registration.ticket ≠ own.ticket
  /-- Nothing that it has registered is called from now on, whatever is done in its group. -/
  silent : ∀ own ∈ custody.made, ∀ reception : Reception ListenerId Node, reception.Orderly →
    reception.registry = custody.node.group custody.hosted.group → reception.Silent own.ticket
  indices : ∀ own ∈ custody.made, custody.node.isIndexClosed own.listener = true
  refuses : ∀ call : IndexerCall, custody.perform call = (call.refusal, custody)

/-- How an indexer ends, which until then keeps what it has registered. -/
structure Teardown (custody : Custody) : Prop where
  started : custody.started = custody.hosted.indexer.isClosed.toNat
  registers : custody.hosted.indexer.isClosed = false → ∀ own ∈ custody.made,
    custody.node.Registers custody.hosted.group own
  /-- Once the indexer is told to close, or cannot register a chain, it is closed for good. -/
  closes : ∀ call : IndexerCall, call.closes (custody.perform call).1 = true →
    (custody.perform call).2.Down
  spares : ∀ call : IndexerCall,
    Spares custody.hosted.group custody.world (custody.perform call).2.world
  /-- It stays closed, and registers nothing more. -/
  remains : custody.hosted.indexer.isClosed = true → ∀ later, custody.Leads later →
    later.Down ∧ later.made = custody.made

/-- What an indexer has registered is accounted for, and its shutdown action was started once if it
is closed, and never before. -/
structure Sound (custody : Custody) : Prop where
  accounted : Accounted custody.hosted.group custody.hosted.indexer custody.world
  idle : custody.hosted.indexer.isClosed = false → custody.hosted.shutdown = .idle
  started : custody.started = custody.hosted.indexer.isClosed.toNat

section Perform

theorem perform_eq (custody : Custody) (call : IndexerCall) :
    custody.perform call =
      let (answer, indexer, world) := call.run
        (tracking custody.hosted.disk custody.hosted.group) custody.hosted.indexer custody.world
      let hosted := custody.hosted.adopt indexer
      (answer, { hosted, node := world.1, made := world.2,
                 started := custody.started + (starts custody.hosted hosted).toNat }) := by
  have mirrored := call.run_mirror
    (mirrors_tracking custody.hosted.disk custody.hosted.group) custody.hosted.indexer custody.world
  have node : custody.world.1 = custody.node := rfl
  rw [node] at mirrored
  rw [perform, IndexerCall.serve_eq, ← mirrored]
  rfl

theorem adopt_self (hosted : HostedIndexer) : hosted.adopt hosted.indexer = hosted := by
  simp [adopt]

theorem starts_self (hosted : HostedIndexer) : starts hosted hosted = false := by
  unfold starts
  cases hosted.shutdown <;> rfl

theorem perform_of_closed (closed : custody.hosted.indexer.isClosed = true) (call : IndexerCall) :
    custody.perform call = (call.refusal, custody) := by
  rw [perform_eq, call.run_of_closed closed]
  dsimp only
  rw [adopt_self, starts_self]
  rfl

end Perform

section Sound

theorem sound_create {node after : Node} {disk group : String} {config : IndexerConfig}
    {breaks : Bool} {hosted : HostedIndexer} (ordered : node.Ordered group)
    (created : HostedIndexer.create node disk group config breaks = .ok (hosted, after)) :
    Sound ⟨hosted, after, [], 0⟩ := by
  unfold HostedIndexer.create Indexer.create at created
  dsimp only [host] at created
  have fresh (disks : Std.ExtTreeMap String Disk) (hasRunBefore : Bool) :
      Sound ⟨{ indexer := { config, hasRunBefore }, disk, group, breaks },
        { node with disks }, [], 0⟩ := by
    refine ⟨.kept rfl ⟨ordered.deals (.of_group rfl), ?_, ?_, ?_, ?_, ?_⟩, fun _ => rfl, rfl⟩
    all_goals simp [world, Indexer.opened]
  by_cases ran : (node.store disk).hasRun = true
  · rw [if_pos ran] at created
    cases created
    exact fresh node.disks _
  · rw [if_neg ran] at created
    cases wrote : node.write disk .markHasRun with
    | error error => simp [wrote] at created
    | ok written =>
        obtain ⟨disks, rfl⟩ := Node.exists_eq_of_write wrote
        simp only [wrote, Except.ok.injEq, Prod.mk.injEq] at created
        obtain ⟨rfl, rfl⟩ := created
        exact fresh disks _

theorem Sound.perform (sound : custody.Sound) (call : IndexerCall) :
    (custody.perform call).2.Sound ∧
      Spares custody.hosted.group custody.world (custody.perform call).2.world ∧
      (call.closes (custody.perform call).1 = true →
        (custody.perform call).2.hosted.indexer.isClosed = true) := by
  cases state : custody.hosted.indexer.isClosed with
  | true =>
      rw [perform_of_closed state]
      exact ⟨sound, ⟨rfl, fun _ _ => rfl⟩, fun _ => state⟩
  | false =>
      have ran := sound.accounted.run custody.hosted.disk call
      have idle := sound.idle state
      have started := sound.started
      rw [perform_eq]
      dsimp only at ran ⊢
      generalize call.run (tracking custody.hosted.disk custody.hosted.group)
        custody.hosted.indexer custody.world = result at ran ⊢
      obtain ⟨answer, indexer, after⟩ := result
      obtain ⟨accounted, spares, closes⟩ := ran
      have shutdown : (custody.hosted.adopt indexer).shutdown =
          if indexer.isClosed then .started else .idle := by
        simp [adopt, state, idle]
      refine ⟨⟨accounted, fun opened => ?_, ?_⟩, spares, closes⟩
      · exact shutdown.trans (by rw [show indexer.isClosed = false from opened]; rfl)
      · dsimp only [starts]
        rw [started, state, idle, shutdown]
        change _ = indexer.isClosed.toNat
        cases indexer.isClosed <;> rfl

theorem Sound.down (sound : custody.Sound) (closed : custody.hosted.indexer.isClosed = true) :
    custody.Down := by
  obtain ⟨empty, vacates⟩ := sound.accounted.vacates closed
  refine ⟨closed, ?_, fun chain => ?_, fun chain => ?_, vacates.ordered,
    vacates.absent, fun own inside reception orderly same => ?_, vacates.closed,
    perform_of_closed closed⟩
  · rw [sound.started, closed]
    rfl
  · simp [unitIndex?, Indexer.find?, empty]
  · simp [transactionIndex?, Indexer.find?, empty]
  · refine orderly.silent (orderly.ended_of_absent ?_ ?_)
    · exact same ▸ vacates.issued own inside
    · exact same ▸ vacates.absent own inside

/-- Whatever comes next, what an indexer has registered is accounted for. -/
theorem Sound.moves (sound : custody.Sound) (moves : custody.Moves later) : later.Sound := by
  cases moves with
  | call call => exact (sound.perform call).1
  | others minds => exact ⟨sound.accounted.minds minds, sound.idle, sound.started⟩
  | wait =>
      obtain ⟨accounted, idle, started⟩ := sound
      unfold HostedIndexer.wait
      split
      · rename_i running
        refine ⟨accounted.minds (.of_disks _ _), fun opened => ?_, started⟩
        exact nomatch running.symm.trans (idle opened)
      · exact ⟨accounted, idle, started⟩
      · exact ⟨accounted, idle, started⟩

theorem Sound.leads (sound : custody.Sound) (leads : custody.Leads later) : later.Sound := by
  induction leads with
  | refl => exact sound
  | tail _ moves ih => exact ih.moves moves

theorem closed_of_moves (closed : custody.hosted.indexer.isClosed = true)
    (moves : custody.Moves later) :
    later.hosted.indexer.isClosed = true ∧ later.made = custody.made := by
  cases moves with
  | call call =>
      rw [perform_of_closed closed]
      exact ⟨closed, rfl⟩
  | others _ => exact ⟨closed, rfl⟩
  | wait =>
      unfold HostedIndexer.wait
      split <;> exact ⟨closed, rfl⟩

theorem closed_of_leads (closed : custody.hosted.indexer.isClosed = true)
    (leads : custody.Leads later) :
    later.hosted.indexer.isClosed = true ∧ later.made = custody.made := by
  induction leads with
  | refl => exact ⟨closed, rfl⟩
  | tail _ moves ih =>
      obtain ⟨still, same⟩ := closed_of_moves ih.1 moves
      exact ⟨still, same.trans ih.2⟩

theorem Sound.teardown (sound : custody.Sound) : custody.Teardown where
  started := sound.started
  registers opened := (sound.accounted.keeps opened).registers
  closes call closing :=
    have ⟨later, _, closed⟩ := sound.perform call
    later.down (closed closing)
  spares call := (sound.perform call).2.1
  remains closed _ leads :=
    have ⟨still, made⟩ := closed_of_leads closed leads
    ⟨(sound.leads leads).down still, made⟩

end Sound

/-- However an indexer ends that was created on a node and whose listener group is shared, all that
it has ever registered is gone for good, and what others have registered is there. -/
theorem teardown_run {node after : Node} {disk group : String} {config : IndexerConfig}
    {breaks : Bool} {hosted : HostedIndexer} (ordered : node.Ordered group)
    (created : HostedIndexer.create node disk group config breaks = .ok (hosted, after))
    (leads : Leads ⟨hosted, after, [], 0⟩ custody) : custody.Teardown :=
  ((sound_create ordered created).leads leads).teardown

/-- An index of the transactions of a chain. -/
def held : Index := { chain := 1, contents := .transactions }

/-- A node on which a probe has taken the name of that index, and others index another chain. -/
def shared : Node :=
  let probed := ((Node.empty 0).addListener fun id =>
    .probe { notes := id, group := "group", chain := 1 }).2
  let taken := (probed.register "group" 1 held.name 0 false).2
  let joined := (taken.addListener fun _ =>
    .index { index := { chain := 2, contents := .units .linear }, disk := "disk" }).2
  (joined.register "group" 2 "other" 1 false).2

/-- An indexer that has just been created there. -/
def opening : Custody where
  hosted := { indexer := { config := {}, hasRunBefore := false }, disk := "disk",
              group := "group", breaks := false }
  node := match shared.write "disk" .markHasRun with
    | .ok written => written
    | .error _ => shared
  made := []
  started := 0

def running : Custody := (opening.perform (.register "third" 3 .linear)).2

def told : Custody :=
  let notified := (running.node.notify "group" 3 .genesis 5).2
  { running with node := (notified.register "group" 4 "late" 0 false).2 }

def failing : Except IndexerError Unit × Custody := told.perform (.register "first" 1 .graph)

theorem ordered_shared : shared.Ordered "group" :=
  ((((Node.ordered_empty "group" 0).deals (.of_group rfl)).deals
    (Node.deals_register "group" 1 held.name 0 false)).deals (.of_group rfl)).deals
      (Node.deals_register "group" 2 "other" 1 false)

theorem leads_told : opening.Leads told := by
  let notified := (running.node.notify "group" 3 .genesis 5).2
  have notify : Node.Minds "group" running.made running.node notified :=
    Node.minds_notify (by decide +kernel) "group" 3 .genesis 5
  have register : Node.Minds "group" running.made notified
      (notified.register "group" 4 "late" 0 false).2 :=
    Node.minds_errand (by decide +kernel) (.register "group" 4 "late" 0 false)
      fun _ _ registers => registers.register "group" 4 "late" 0 false
  exact .tail (.tail (.single (.call (.register "third" 3 .linear))) (.others notify))
    (.others register)

set_option maxRecDepth 100000 in
/-- The first index of a further chain is registered, the second is not, and then none is. -/
theorem teardown_shared :
    (shared.Ordered "group" ∧
      HostedIndexer.create shared "disk" "group" {} false = .ok (opening.hosted, opening.node) ∧
      opening.Leads told) ∧
    failing.1 = .error (.registry (.duplicate 1 held.name)) ∧ failing.2.Down ∧
    failing.2.made.map (·.ticket) = [2, 4] ∧
    (failing.2.node.group "group").registrations.map (·.ticket) = [0, 1, 3] := by
  have created : HostedIndexer.create shared "disk" "group" {} false =
      .ok (opening.hosted, opening.node) := rfl
  have teardown := teardown_run ordered_shared created leads_told
  have answer : failing.1 = .error (.registry (.duplicate 1 held.name)) := by decide +kernel
  refine ⟨⟨ordered_shared, created, leads_told⟩, answer,
    teardown.closes (.register "first" 1 .graph) ?_, ?_, ?_⟩
  · exact (congrArg (IndexerCall.closes _) answer).trans rfl
  · decide +kernel
  · decide +kernel

end Custody

end DecisionLedger
