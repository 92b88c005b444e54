import DecisionLedger.Proofs.Accounts

/-! # Complete indices

A node runs on one disk again and again, and any write may fail.  In each run an indexer is created,
the chain is registered with it, and a manager of the chain goes on from where the last one stopped.
Unless the chain is marked incomplete, every unit that was accepted in any run is in the index of
the chain's units, or the call that accepted it answered that the index has failed to take it.
-/

namespace DecisionLedger

/-- How far a run of a node has come. -/
inductive Phase where
  /-- It has ended, or none has begun. -/
  | idle
  /-- An indexer is created. -/
  | begun (indexer : HostedIndexer)
  /-- The chain is registered with the indexer. -/
  | admitted (indexer : HostedIndexer)
  /-- A manager of the chain is started. -/
  | serving (indexer : HostedIndexer) (hosted : HostedManager)

/-- A node in one of its runs, and the calls that were answered in all of them. -/
structure Service where
  node : Node
  phase : Phase := .idle
  accounts : List Account := []

/-- What may happen to a node in service of a chain. -/
inductive Move where
  /-- A run begins, wherever the one before has come to: nothing is left of it but the disks. -/
  | boot (clock : Instant) (config : IndexerConfig) (breaks : Bool)
  | register (name : String) (flavor : Flavor)
  /-- The indexer is closed, and the run ends. -/
  | close
  | start (config : Configuration) (outlet : Outlet)
  | call (call : Call)
  /-- Writes begin to fail, now or later, or no longer fail. -/
  | fail (outage : Option Outage) (refuses : Batch → Option WriteError)
  | wait (clock : Instant)
  /-- A listener of any chain joins that does nothing when it is deregistered. -/
  | join (chain : ChainId) (name : String) (probe : Probe)

/-- A node that is started anew has its disks. -/
def Node.restart (node : Node) (clock : Instant) : Node :=
  { Node.empty clock with disks := node.disks }

namespace Service

/-- The units that were accepted in all runs, in order. -/
def committed (service : Service) : List DecisionUnit :=
  service.accounts.flatMap (·.committed)

section Perform

variable (site : Site) (chain : ChainId) (service : Service)

def boot (clock : Instant) (config : IndexerConfig) (breaks : Bool) : Service :=
  let blank := service.node.restart clock
  match HostedIndexer.create blank site.disk site.group config breaks with
  | .ok (indexer, node) => { service with node, phase := .begun indexer }
  | .error _ => { service with node := blank, phase := .idle }

/-- Register the chain; an indexer that does not admit it has closed, so the run ends. -/
def register (indexer : HostedIndexer) (name : String) (flavor : Flavor) : Service :=
  match indexer.register service.node name chain flavor with
  | (.ok (), registered, node) => { service with node, phase := .admitted registered }
  | (.error _, _, node) => { service with node, phase := .idle }

def start (indexer : HostedIndexer) (config : Configuration) (outlet : Outlet) : Service :=
  match HostedManager.start service.node site { config with chain } outlet with
  | .ok hosted => { service with phase := .serving indexer hosted }
  | .error _ => service

def answer (indexer : HostedIndexer) (hosted : HostedManager) (call : Call) : Service :=
  let situation := hosted.situation service.node
  let committed := (call.step hosted.site.lawful).committed situation
  let (answer, after, node) := hosted.perform service.node call
  { node, phase := .serving indexer after,
    accounts := service.accounts ++ [{ committed, answer }] }

def close (indexer : HostedIndexer) : Service :=
  { service with node := (indexer.close service.node).2.2, phase := .idle }

def fail (outage : Option Outage) (refuses : Batch → Option WriteError) : Service :=
  let disk : Disk := { store := service.node.store site.disk, outage, refuses }
  { service with node := service.node.setDisk site.disk disk }

def join (on : ChainId) (name : String) (probe : Probe) : Service :=
  let (id, grown) := service.node.addListener fun _ => .probe { probe with action := none }
  { service with node := (grown.register site.group on name id false).2 }

/-- A node in service of a chain on a site after a move.  What is out of turn does nothing: a chain
is registered once in a run, and first of all. -/
def perform (move : Move) : Service :=
  match move, service.phase with
  | .boot clock config breaks, _ => service.boot site clock config breaks
  | .register name flavor, .begun indexer => service.register chain indexer name flavor
  | .start config outlet, .admitted indexer => service.start site chain indexer config outlet
  | .call call, .serving indexer hosted => service.answer indexer hosted call
  | .close, .begun indexer => service.close indexer
  | .close, .admitted indexer => service.close indexer
  | .close, .serving indexer _ => service.close indexer
  | .fail outage refuses, _ => service.fail site outage refuses
  | .wait clock, _ => { service with node := { service.node with clock } }
  | .join on name probe, _ => service.join site on name probe
  | .register _ _, _ | .start _ _, _ | .call _, _ | .close, _ => service

end Perform

def run (site : Site) (chain : ChainId) (moves : List Move) (service : Service) : Service :=
  moves.foldl (perform site chain) service

end Service

/-- What is known of a node in a phase of a run, given the units accepted so far. -/
inductive Phase.Fits (site : Site) (chain : ChainId) (origin : StateUpdates) (node : Node)
    (accepted : List DecisionUnit) : Phase → Prop where
  | idle : Fits site chain origin node accepted .idle
  | begun {indexer : HostedIndexer} : node.Inert → site = ⟨indexer.disk, indexer.group⟩ →
      indexer.indexer.isClosed = false → indexer.indexer.indices = ∅ →
      Fits site chain origin node accepted (.begun indexer)
  | admitted {indexer : HostedIndexer} : node.Inert → node.Attends site chain →
      Fits site chain origin node accepted (.admitted indexer)
  | serving {indexer : HostedIndexer} {hosted : HostedManager} : node.Inert →
      node.Attends site chain → hosted.site = site → hosted.manager.config.chain = chain →
      hosted.manager.Sound origin (node.store site.disk) accepted →
      Fits site chain origin node accepted (.serving indexer hosted)

namespace Service

/-- What every move keeps: the disk keeps a ledger of what was accepted, and the index of the
chain's units holds nothing else; unless the chain is marked incomplete, what it misses was
reported. -/
structure Sound (site : Site) (chain : ChainId) (origin : StateUpdates) (service : Service)
    (containers : List Container) : Prop where
  keeps : (service.node.store site.disk).Keeps origin (.genesis :: service.committed)
  numbers : (Index.ofUnits chain).Numbers (service.node.store site.disk) containers
  own : ∀ container ∈ containers, ∃ unit ∈ service.committed, container.IsOf unit
  covers : (service.node.store site.disk).isIncomplete chain = false →
    ∀ account ∈ service.accounts, ∀ unit ∈ account.committed,
      Covers chain containers account.failures unit
  phase : service.phase.Fits site chain origin service.node (.genesis :: service.committed)

end Service

section Moves

variable {site : Site} {chain : ChainId} {origin : StateUpdates} {service : Service}
  {node after : Node} {phase : Phase} {accepted : List DecisionUnit} {containers : List Container}

theorem Node.Attends.of_prepares (attends : node.Attends site chain)
    (prepares : node.Prepares site after) : after.Attends site chain := by
  rcases attends with marked | watches
  · exact .inl (prepares.marked.kept chain marked)
  · exact .inr (prepares.watches watches)

theorem Phase.Fits.of_prepares (fits : phase.Fits site chain origin node accepted)
    (prepares : node.Prepares site after) : phase.Fits site chain origin after accepted := by
  cases fits with
  | idle => exact .idle
  | begun inert there opened bare => exact .begun (prepares.inert inert) there opened bare
  | admitted inert attends => exact .admitted (prepares.inert inert) (attends.of_prepares prepares)
  | serving inert attends there named sound =>
      exact .serving (prepares.inert inert) (attends.of_prepares prepares) there named
        (sound.of_sameLedger prepares.marked.sameLedger)

theorem Phase.Fits.inert (fits : phase.Fits site chain origin node accepted)
    (busy : phase ≠ .idle) : node.Inert := by
  cases fits with
  | idle => exact absurd rfl busy
  | begun inert => exact inert
  | admitted inert => exact inert
  | serving inert => exact inert

namespace Service

theorem Sound.of_marked (sound : service.Sound site chain origin containers)
    (marked : (service.node.store site.disk).Marked (node.store site.disk))
    (fits : phase.Fits site chain origin node (.genesis :: service.committed)) :
    Sound site chain origin { service with node, phase } containers where
  keeps := sound.keeps.of_sameLedger marked.sameLedger
  numbers := sound.numbers.of_same (marked.sameVariables _)
  own := sound.own
  covers complete := sound.covers (eq_false_of_ne_true fun incomplete =>
    absurd (marked.kept chain incomplete) (by simp [complete]))
  phase := fits

theorem Sound.of_prepares (sound : service.Sound site chain origin containers)
    (prepares : service.node.Prepares site node) :
    Sound site chain origin { service with node } containers :=
  sound.of_marked prepares.marked (sound.phase.of_prepares prepares)

theorem Sound.boot (sound : service.Sound site chain origin containers) (clock : Instant)
    (config : IndexerConfig) (breaks : Bool) :
    (service.boot site clock config breaks).Sound site chain origin containers := by
  have same : (service.node.restart clock).store site.disk = service.node.store site.disk :=
    Node.store_of_disks rfl _
  have inert : (service.node.restart clock).Inert := by
    intro id probe found
    simp [Node.restart, Node.empty] at found
  unfold Service.boot
  dsimp only
  split
  · rename_i indexer booted created
    obtain ⟨prepares, there, opened, bare⟩ := HostedIndexer.prepares_create created
    exact sound.of_marked (same ▸ prepares.marked) (.begun (prepares.inert inert) there opened bare)
  · refine sound.of_marked ?_ .idle
    rw [same]
    exact .refl _

theorem Sound.register (sound : service.Sound site chain origin containers)
    {indexer : HostedIndexer} (come : service.phase = .begun indexer) (name : String)
    (flavor : Flavor) :
    (service.register chain indexer name flavor).Sound site chain origin containers := by
  have fits := sound.phase
  rw [come] at fits
  cases fits with
  | begun inert there opened bare =>
      subst there
      obtain ⟨marked, attends⟩ := HostedIndexer.attends_register ⟨indexer.disk, indexer.group⟩
        opened bare name chain flavor inert
      unfold Service.register HostedIndexer.register
      dsimp only at marked attends
      generalize indexer.indexer.register _ name chain flavor service.node = result
        at marked attends
      obtain ⟨outcome, registered, node⟩ := result
      cases outcome with
      | error error => exact sound.of_marked marked .idle
      | ok done =>
          obtain ⟨still, attends⟩ := attends rfl
          exact sound.of_marked marked (.admitted still attends)

theorem Sound.start (sound : service.Sound site chain origin containers)
    {indexer : HostedIndexer} (come : service.phase = .admitted indexer) (config : Configuration)
    (outlet : Outlet) :
    (service.start site chain indexer config outlet).Sound site chain origin containers := by
  have fits := sound.phase
  rw [come] at fits
  cases fits with
  | admitted inert attends =>
      unfold Service.start
      split
      · rename_i hosted started
        obtain ⟨there, named, steady⟩ := HostedManager.sound_start sound.keeps started
        exact sound.of_marked (.refl _)
          (.serving inert attends there (congrArg (·.chain) named) steady)
      · exact sound

theorem Sound.close (sound : service.Sound site chain origin containers)
    (inert : service.node.Inert) (indexer : HostedIndexer) :
    (service.close indexer).Sound site chain origin containers := by
  have same : (indexer.close service.node).2.2.disks = service.node.disks :=
    HostedIndexer.disks_close indexer.indexer inert
  refine sound.of_marked ?_ .idle
  rw [Node.store_of_disks same]
  exact .refl _

theorem Sound.fail (sound : service.Sound site chain origin containers) (outage : Option Outage)
    (refuses : Batch → Option WriteError) :
    (service.fail site outage refuses).Sound site chain origin containers := by
  refine sound.of_prepares ⟨?_, id, id⟩
  rw [Node.store_setDisk, if_pos rfl]
  exact .refl _

theorem Sound.join (sound : service.Sound site chain origin containers) (on : ChainId)
    (name : String) (probe : Probe) :
    (service.join site on name probe).Sound site chain origin containers := by
  have grown : service.node.Prepares site
      (service.node.addListener fun _ => .probe { probe with action := none }).2 :=
    Node.prepares_addListener _ (fun _ _ made => by cases made; rfl) service.node
  exact sound.of_prepares
    (grown.trans (Node.prepares_register on name service.node.nextListener false _))

theorem committed_answer (service : Service) (indexer : HostedIndexer) (hosted : HostedManager)
    (call : Call) : (service.answer indexer hosted call).committed =
      service.committed ++ (hosted.account service.node call).committed := by
  simp [committed, answer, HostedManager.account]

theorem Sound.answer (sound : service.Sound site chain origin containers)
    {indexer : HostedIndexer} {hosted : HostedManager}
    (come : service.phase = .serving indexer hosted) (call : Call) :
    ∃ held, (service.answer indexer hosted call).Sound site chain origin held := by
  have fits := sound.phase
  rw [come] at fits
  cases fits with
  | serving inert attends there named steady =>
      subst there
      obtain ⟨same, config, next, commits⟩ := hosted.commits_perform steady call
      -- heights are words, so what is accepted never outgrows the positions of an index
      have room : containers.length + (hosted.account service.node call).committed.length <
          UInt64.size := by
        have held := sound.numbers.length_le sound.own
        have bound := next.chronicle.length_le
        simp only [List.cons_append, List.length_cons, List.length_append] at bound
        omega
      obtain ⟨audience, incomplete, held, numbers, grown, covered⟩ :=
        hosted.site.commits_covers named steady sound.numbers room commits
      refine ⟨held, ?_, numbers, ?_, ?_, ?_⟩
      · rw [committed_answer]
        exact next.keeps
      · rw [committed_answer]
        intro container inside
        rcases grown.new container inside with old | ⟨unit, listed, own⟩
        · obtain ⟨unit, listed, own⟩ := sound.own container old
          exact ⟨unit, List.mem_append_left _ listed, own⟩
        · exact ⟨unit, List.mem_append_right _ listed, own⟩
      · intro complete account inside unit listed
        have unmarked := incomplete.symm.trans complete
        rcases List.mem_append.mp inside with old | last
        · exact (sound.covers unmarked account old unit listed).mono grown.kept fun _ => id
        · cases List.mem_singleton.mp last
          refine covered (attends.resolve_left ?_) unit listed
          exact fun marked => Bool.false_ne_true (unmarked.symm.trans marked)
      · rw [committed_answer]
        have listeners : (service.answer indexer hosted call).node.listeners =
            service.node.listeners := congrArg (fun heard => heard.2.1) audience
        refine .serving ?_ ?_ same (config ▸ named) next
        · intro id probe found
          exact inert id probe (listeners ▸ found)
        · rcases attends with marked | watches
          · exact .inl (incomplete.trans marked)
          · exact .inr (watches.of_audience audience)

theorem Sound.perform (sound : service.Sound site chain origin containers) (move : Move) :
    ∃ held, (service.perform site chain move).Sound site chain origin held := by
  unfold Service.perform
  split
  · exact ⟨containers, sound.boot _ _ _⟩
  · rename_i come
    exact ⟨containers, sound.register come _ _⟩
  · rename_i come
    exact ⟨containers, sound.start come _ _⟩
  · rename_i come
    exact sound.answer come _
  · rename_i come
    exact ⟨containers, sound.close (sound.phase.inert (by simp [come])) _⟩
  · rename_i come
    exact ⟨containers, sound.close (sound.phase.inert (by simp [come])) _⟩
  · rename_i come
    exact ⟨containers, sound.close (sound.phase.inert (by simp [come])) _⟩
  · exact ⟨containers, sound.fail _ _⟩
  · exact ⟨containers, sound.of_prepares ⟨.refl _, id, id⟩⟩
  · exact ⟨containers, sound.join _ _ _⟩
  all_goals exact ⟨containers, sound⟩

theorem Sound.run (sound : service.Sound site chain origin containers) (moves : List Move) :
    ∃ held, (run site chain moves service).Sound site chain origin held := by
  induction moves generalizing service containers with
  | nil => exact ⟨containers, sound⟩
  | cons move rest ih =>
      obtain ⟨held, next⟩ := sound.perform move
      exact ih next

theorem sound_founded
    (founded : node.store site.disk = Store.empty.apply (Batch.found origin)) :
    Sound site chain origin { node } [] where
  keeps := by
    rw [founded]
    exact (Manager.sound_found { chain } origin (Store.SameLedger.refl _)).keeps
  numbers := by
    rw [founded]
    exact Index.numbers_found _ origin
  own := by simp
  covers _ := by simp
  phase := .idle

end Service

end Moves

namespace Service

theorem Sound.byId_of_mem {site : Site} {chain : ChainId} {origin : StateUpdates}
    {service : Service} {containers : List Container} {unit : DecisionUnit}
    (sound : service.Sound site chain origin containers) (accepted : unit ∈ service.committed)
    (indexed : unit.id ∈ containers.map (·.id)) :
    ∃ container, (Index.ofUnits chain).byId (service.node.store site.disk) unit.id =
      .ok container ∧ container.IsOf unit := by
  have chronicle := sound.keeps.chronicle
  have room : containers.length < UInt64.size := by
    have held := sound.numbers.length_le sound.own
    have bound := chronicle.length_le
    rw [List.length_cons] at bound
    omega
  cases found : containers.find? (·.id = unit.id) with
  | none =>
      obtain ⟨container, inside, same⟩ := List.mem_map.mp indexed
      exact absurd (List.find?_eq_none.mp found container inside) (by simp [same])
  | some container =>
      have named : container.id = unit.id := by simpa using List.find?_some found
      obtain ⟨other, listed, own⟩ := sound.own container (List.mem_of_find?_eq_some found)
      have same : other = unit := chronicle.eq_of_id (List.mem_cons_of_mem _ listed)
        (List.mem_cons_of_mem _ accepted) (own.1.symm.trans named)
      refine ⟨container, ?_, same ▸ own⟩
      rw [(sound.numbers.answers room).byId, found]
      rfl

/-- Whatever happens to a node that starts on a ledger just founded: unless the chain is marked
incomplete, every unit accepted is in the index of the chain's units, or the call that accepted it
has said that the index failed to take it. -/
theorem complete_run (site : Site) (chain : ChainId) (origin : StateUpdates) (node : Node)
    (founded : node.store site.disk = Store.empty.apply (Batch.found origin)) (moves : List Move) :
    let service := run site chain moves { node }
    (service.node.store site.disk).isIncomplete chain = false →
    ∀ id unit, (service.node.store site.disk).unit? id = .ok (some unit) →
      unit = .genesis ∨ ∃ account ∈ service.accounts, unit ∈ account.committed ∧
        ((∃ container, (Index.ofUnits chain).byId (service.node.store site.disk) unit.id =
            .ok container ∧ container.IsOf unit) ∨
          ∃ failure ∈ account.failures, failure.Reports chain unit) := by
  intro service complete id unit stored
  obtain ⟨held, sound⟩ := (@sound_founded site chain origin node founded).run moves
  change service.Sound site chain origin held at sound
  rw [sound.keeps.records.unit?, Except.ok.injEq] at stored
  rcases List.mem_cons.mp (List.mem_of_find?_eq_some stored) with rfl | accepted
  · exact .inl rfl
  · obtain ⟨account, inside, listed⟩ := List.mem_flatMap.mp accepted
    refine .inr ⟨account, inside, listed, ?_⟩
    rcases sound.covers complete account inside unit listed with indexed | reported
    · exact .inl (sound.byId_of_mem accepted indexed)
    · exact .inr reported

end Service

namespace Interrupted

def unit : DecisionUnit :=
  .ofFields { parent := DecisionUnit.genesis.id, height := 1, timestamp := none,
              body := .standard [{ inputs := [], outputs := [([0xaa], [1])], requests := [] }] }
    (by decide)

def site : Site := ⟨"disk", "group"⟩

def founded : Node :=
  (Node.empty 0).setDisk "disk"
    { store := Store.empty.apply (Batch.found ∅), outage := none }

/-- A run up to where the chain is registered. -/
def admission : List Move :=
  [.boot 0 {} false, .register "chain" .linear]

/-- The disk fills up between the write of the manager and that of the index, and another run goes
as far as the registration again. -/
def moves : List Move :=
  admission ++ [.start { chain := 1 } ⟨.closed, false, []⟩, .call (.verify unit),
    .fail (some ⟨"full", 1⟩) (fun _ => none), .call (.accept unit.id),
    .fail none (fun _ => none)] ++ admission

def before : Store :=
  (Service.run site 1 admission { node := founded }).node.store "disk"

def after : Store :=
  (Service.run site 1 moves { node := founded }).node.store "disk"

set_option maxRecDepth 100000 in
theorem lookups_after :
    after.isPreviouslyIndexed 1 = true ∧ after.isIncomplete 1 = false ∧
      after.unit? unit.id = .ok (some unit) ∧
      (Index.ofUnits 1).byId after unit.id = .error (.notIndexed unit.id) := by
  decide +kernel

set_option maxRecDepth 100000 in
/-- The unit is accepted while the chain is marked as indexed and not as incomplete, and the index
does not have it, not even when the next run has begun. -/
theorem unit_missed :
    before.isPreviouslyIndexed 1 = true ∧ before.unit? unit.id = .ok none ∧
      after.isPreviouslyIndexed 1 = true ∧ after.isIncomplete 1 = false ∧
      after.unit? unit.id = .ok (some unit) ∧
      (Index.ofUnits 1).byId after unit.id = .error (.notIndexed unit.id) := by
  have marked : before.isPreviouslyIndexed 1 = true ∧ before.unit? unit.id = .ok none := by
    decide +kernel
  exact ⟨marked.1, marked.2, lookups_after⟩

/-- The call that accepted the unit has said so. -/
theorem unit_reported :
    (founded.store site.disk = Store.empty.apply (Batch.found ∅) ∧
      after.isIncomplete 1 = false ∧ after.unit? unit.id = .ok (some unit)) ∧
    (unit = .genesis ∨ ∃ account ∈ (Service.run site 1 moves { node := founded }).accounts,
      unit ∈ account.committed ∧
        ((∃ container, (Index.ofUnits 1).byId after unit.id = .ok container ∧
            container.IsOf unit) ∨
          ∃ failure ∈ account.failures, failure.Reports 1 unit)) := by
  have start : founded.store site.disk = Store.empty.apply (Batch.found ∅) := by
    rw [founded, Node.store_setDisk]
    rfl
  obtain ⟨-, complete, stored, -⟩ := lookups_after
  exact ⟨⟨start, complete, stored⟩,
    Service.complete_run site 1 ∅ founded start moves complete unit.id unit stored⟩

end Interrupted

end DecisionLedger
