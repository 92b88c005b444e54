import DecisionLedger.Proofs.Admission
import DecisionLedger.Proofs.Agreement

/-! # Accounts

A call of a manager on a site commits some units and gives an answer.  If the index of the chain's
units is watching, it takes each of the units, or the answer names its failure.
-/

namespace DecisionLedger

theorem Diff.isLedger_changes (diff : Diff) : diff.changes.IsLedger := by
  intro change inside
  rcases Store.tag_of_mem_changes inside with tag | tag <;> simp [Key.isLedger_iff_tag, tag]

theorem Manager.Plans.isLedger_batch {manager : Manager} {unit : DecisionUnit} {plan : AcceptPlan}
    (plans : manager.Plans unit plan) : plan.batch.IsLedger := by
  have accepted : (Batch.setAccepted unit).IsLedger :=
    Batch.isLedger_append.mpr ⟨Batch.isLedger_place unit, Batch.isLedger_setLastAccepted unit.id⟩
  cases plans with
  | unit next execution =>
      exact Batch.isLedger_append.mpr ⟨accepted, unit.effect.isLedger_changes⟩
  | @option proposal _ choice next kind decides =>
      refine Batch.isLedger_append.mpr ⟨?_, (proposal.branch choice).isLedger_changes⟩
      exact Batch.isLedger_append.mpr ⟨Batch.isLedger_place proposal, accepted⟩

theorem Batch.isLedger_found (origin : StateUpdates) : (Batch.found origin).IsLedger := by
  have state : (Batch.updateState origin).IsLedger := fun _ inside =>
    Key.isLedger_iff_tag.mpr (by simp [Store.tag_of_mem_updateState inside])
  simp [Store.found_eq, isLedger_append, isLedger_place, isLedger_setLastAccepted, state]

theorem Index.numbers_found (index : Index) (origin : StateUpdates) :
    index.Numbers (Store.empty.apply (Batch.found origin)) [] := by
  refine numbers_nil fun key owned => ?_
  rw [Store.raw?_apply_of_ledger (Batch.isLedger_found origin)]
  · exact Std.ExtTreeMap.getElem?_empty
  · cases key <;> first | rfl | cases owned

/-- A call of a manager that was answered. -/
structure Account where
  /-- The units that were accepted in it. -/
  committed : List DecisionUnit
  answer : Except ManagerError Unit

def Account.failures (account : Account) : List ListenerFailure :=
  match account.answer with
  | .error (.listenerFailures error) => error.failures
  | _ => []

theorem Account.failures_elim (units : List DecisionUnit) (failed : Option NotifyError) :
    (Account.mk units (failed.elim (.ok ()) fun failures =>
      .error (.listenerFailures failures))).failures = NotifyError.all failed := by
  cases failed <;> rfl

theorem Store.isIncomplete_congr {store other : Store} {chain : ChainId}
    (same : other.raw? (.incomplete chain) = store.raw? (.incomplete chain)) :
    other.isIncomplete chain = store.isIncomplete chain := by
  rw [isIncomplete, isIncomplete, has_eq_isSome_raw?, has_eq_isSome_raw?, same]

namespace Site

variable {site : Site} {origin : StateUpdates} {manager after : Manager} {chain : ChainId}
  {world final : Node × Outlet} {units accepted : List DecisionUnit} {containers : List Container}
  {answer : Except ManagerError Unit}

theorem exists_eq_publishAll (site : Site) (events : List Event) (world : Node × Outlet) :
    ∃ log outlet, site.host.publishAll events world = ({ world.1 with log }, outlet) := by
  induction events generalizing world with
  | nil => exact ⟨_, _, rfl⟩
  | cons event rest ih => exact ih (site.host.publish event world)

/-- A write to the ledger, and what is published after it, leave alone who listens and whatever else
is stored. -/
theorem exists_eq_settled {batch : Batch} {written : Node × Outlet} (ledger : batch.IsLedger)
    (wrote : site.lawful.write batch world = .ok written) (events : List Event) :
    ∃ disks log outlet,
      site.lawful.publishAll events written = ({ world.1 with disks, log }, outlet) ∧
      ∀ key : Key, key.isLedger = false →
        (Node.store { world.1 with disks, log } site.disk).raw? key =
          (world.1.store site.disk).raw? key := by
  obtain ⟨node, stored, rfl⟩ := site.exists_of_write wrote
  have applied := Node.store_of_write stored
  obtain ⟨disks, rfl⟩ := Node.exists_eq_of_write stored
  obtain ⟨log, outlet, published⟩ :=
    site.exists_eq_publishAll events ({ world.1 with disks }, world.2)
  refine ⟨disks, log, outlet, published, fun key outside => ?_⟩
  exact (congrArg (·.raw? key) applied).trans (Store.raw?_apply_of_ledger ledger outside _)

/-- The units that a call commits are delivered once the ledger is written.  Before and after that,
who listens and whatever else is stored stay as they are, and the answer names the failures. -/
theorem commits_delivered (named : manager.config.chain = chain)
    (sound : manager.Sound origin (world.1.store site.disk) accepted)
    (commits : Call.Commits site.lawful manager world units (answer, after, final)) :
    ∃ disks log outlet,
      let ready : Node := { world.1 with disks, log }
      let delivered := site.host.deliverAll chain units (ready, outlet)
      (∀ key : Key, key.isLedger = false →
        (ready.store site.disk).raw? key = (world.1.store site.disk).raw? key) ∧
      (∃ log, final.1 = { delivered.2.1 with log }) ∧
      NotifyError.all delivered.1 ⊆ (Account.mk units answer).failures := by
  cases commits with
  | nothing events same =>
      obtain ⟨log, outlet, published⟩ := site.exists_eq_publishAll events world
      change site.lawful.publishAll events world = _ at published
      rw [published]
      exact ⟨world.1.disks, log, outlet, fun _ _ => rfl, ⟨log, rfl⟩, List.nil_subset _⟩
  | @plan _ plan written delivered failed _ events planned wrote heard same =>
      obtain ⟨unit, -, plans⟩ := sound.rooted.plan_cases sound.records.toLists planned
      obtain ⟨disks, log, outlet, announced, outside⟩ :=
        exists_eq_settled plans.isLedger_batch wrote (manager.settle plan).2
      obtain ⟨logged, left, published⟩ := site.exists_eq_publishAll events delivered
      change site.lawful.publishAll events delivered = _ at published
      rw [announced, named] at heard
      change site.host.deliverAll _ _ _ = _ at heard
      refine ⟨disks, log, outlet, outside, ⟨logged, ?_⟩, ?_⟩
      · rw [published, heard]
      · rw [Account.failures_elim, heard]
        exact List.Subset.refl _

theorem audience_commits (named : manager.config.chain = chain)
    (sound : manager.Sound origin (world.1.store site.disk) accepted)
    (commits : Call.Commits site.lawful manager world units (answer, after, final)) :
    final.1.audience site.group = world.1.audience site.group := by
  obtain ⟨disks, log, outlet, -, ⟨logged, last⟩, -⟩ := commits_delivered named sound commits
  rw [last]
  exact (site.deliverAll_apart chain units ({ world.1 with disks, log }, outlet)).1

theorem commits_covers (named : manager.config.chain = chain)
    (sound : manager.Sound origin (world.1.store site.disk) accepted)
    (numbers : (Index.ofUnits chain).Numbers (world.1.store site.disk) containers)
    (room : containers.length + units.length < UInt64.size)
    (commits : Call.Commits site.lawful manager world units (answer, after, final)) :
    final.1.audience site.group = world.1.audience site.group ∧
      (final.1.store site.disk).isIncomplete chain =
        (world.1.store site.disk).isIncomplete chain ∧
      ∃ held, (Index.ofUnits chain).Numbers (final.1.store site.disk) held ∧
        Container.Grows units containers held ∧
        (world.1.Watches site (.ofUnits chain) →
          ∀ unit ∈ units, Covers chain held (Account.mk units answer).failures unit) := by
  refine ⟨audience_commits named sound commits, ?_⟩
  obtain ⟨disks, log, outlet, outside, ⟨logged, last⟩, told⟩ :=
    commits_delivered named sound commits
  have untouched : (Index.ofUnits chain).Numbers
      (Node.store { world.1 with disks, log } site.disk) containers :=
    numbers.of_same fun key owned => outside key (by cases key <;> first | rfl | cases owned)
  obtain ⟨held, entered, grown, covered⟩ := site.deliverAll_covers
    ({ world.1 with disks, log }, outlet) untouched room
  obtain ⟨-, elsewhere⟩ := site.deliverAll_apart chain units ({ world.1 with disks, log }, outlet)
  rw [last]
  refine ⟨?_, held, entered, grown, fun watches unit inside => ?_⟩
  · exact Store.isIncomplete_congr ((elsewhere _ rfl).trans (outside _ rfl))
  · exact (covered watches unit inside).mono (fun _ here => here) fun failure here => told here

end Site

namespace HostedManager

def perform (hosted : HostedManager) (node : Node) :
    Call → Except ManagerError Unit × HostedManager × Node
  | .verify unit => hosted.verify node unit
  | .accept unit => hosted.accept node unit
  | .reject unit => hosted.reject node unit

theorem perform_eq (hosted : HostedManager) (node : Node) (call : Call) :
    let result := hosted.perform node call
    result.1 = call.answer hosted.site.lawful (hosted.situation node) ∧
      result.2.1.situation result.2.2 =
        (call.step hosted.site.lawful).perform (hosted.situation node) ∧
      result.2.1.site = hosted.site := by
  have site_adopt (outcome : Except ManagerError (Manager × List Event)) :
      (hosted.adopt node outcome).2.1.site = hosted.site := by cases outcome <;> rfl
  cases call with
  | verify unit =>
      obtain ⟨answer, -, -⟩ := hosted.answer_calls node unit unit.id
      obtain ⟨after, -, -⟩ := hosted.situation_calls node unit unit.id
      exact ⟨answer, after, site_adopt _⟩
  | reject id =>
      obtain ⟨-, answer, -⟩ := hosted.answer_calls node .genesis id
      obtain ⟨-, after, -⟩ := hosted.situation_calls node .genesis id
      exact ⟨answer, after, site_adopt _⟩
  | accept id => exact ⟨rfl, rfl, rfl⟩

/-- What a call of a manager on a node commits and answers. -/
def account (hosted : HostedManager) (node : Node) (call : Call) : Account where
  committed := (call.step hosted.site.lawful).committed (hosted.situation node)
  answer := (hosted.perform node call).1

section Steady

variable {hosted : HostedManager} {node : Node} {site : Site} {config : Configuration}
  {outlet : Outlet} {origin : StateUpdates} {accepted : List DecisionUnit}

theorem sound_start (keeps : (node.store site.disk).Keeps origin accepted)
    (started : start node site config outlet = .ok hosted) :
    hosted.site = site ∧ hosted.manager.config = config ∧
      hosted.manager.Sound origin (node.store site.disk) accepted := by
  unfold start at started
  split at started
  · rename_i manager resumed
    cases started
    obtain ⟨tip, rfl, sound⟩ := keeps.resumed resumed
    exact ⟨rfl, rfl, sound⟩
  · cases started

theorem commits_perform
    (sound : hosted.manager.Sound origin (node.store hosted.site.disk) accepted) (call : Call) :
    let result := hosted.perform node call
    let account := hosted.account node call
    result.2.1.site = hosted.site ∧ result.2.1.manager.config = hosted.manager.config ∧
      result.2.1.manager.Sound origin (result.2.2.store hosted.site.disk)
        (accepted ++ account.committed) ∧
      Call.Commits hosted.site.lawful hosted.manager (node, hosted.outlet) account.committed
        (account.answer, result.2.1.situation result.2.2) := by
  obtain ⟨answered, performed, same⟩ := hosted.perform_eq node call
  have commits := @Call.commits _ hosted.site.lawful call (hosted.situation node)
  have next := @Call.sound_committed _ hosted.site.lawful _ _ call (hosted.situation node) sound
  obtain ⟨further, turn, -⟩ := (call.step hosted.site.lawful).turn_perform
    (hosted.situation node) sound
  have config := turn.config_eq sound
  rw [← performed] at next config commits
  rw [← answered] at commits
  exact ⟨same, config, next, commits⟩

end Steady

end HostedManager

end DecisionLedger
