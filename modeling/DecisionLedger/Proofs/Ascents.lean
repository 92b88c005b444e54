import DecisionLedger.Proofs.Agreement

/-! # Ascents

What has been verified can be accepted: a path of pending units, from the last accepted unit up, is
accepted unit by unit.  Each acceptance rejects the branches beside the path with all that refers to
them.  No unit of the path goes with them, since the path depends on nothing else that is pending.
-/

namespace DecisionLedger

namespace Manager

section SelfContained

/-- Pending units that depend on nothing pending but one another. -/
structure SelfContained (manager : Manager) (units : List DecisionUnit) : Prop where
  holds : ∀ unit ∈ units, manager.Holds unit
  parent : ∀ unit ∈ units, unit.parent ∈ manager.pending →
    ∃ above ∈ units, above.id = unit.parent
  edges : ∀ unit ∈ units, ∀ edge ∈ unit.body.edges, edge ∈ manager.pending →
    ∃ target ∈ units, target.id = edge

variable {manager : Manager} {accepted units rest : List DecisionUnit} {unit : DecisionUnit}

/-- No branch that starts elsewhere runs through units that depend on nothing else. -/
theorem Linked.not_mem_branch_of_selfContained (linked : manager.Linked accepted)
    (contained : manager.SelfContained units) {root : UnitId}
    (outside : ∀ unit ∈ accepted ++ units, unit.id ≠ root) :
    ∀ unit ∈ units, unit.id ∉ manager.branch root := by
  suffices apart : ∀ {id}, Relation.ReflTransGen manager.Hangs root id →
      ∀ unit ∈ units, unit.id ≠ id from
    fun unit inside reached => apart (mem_branch_iff.mp reached) unit inside rfl
  intro id path
  induction path with
  | refl => exact fun unit inside => outside unit (List.mem_append_right _ inside)
  | @tail above _ path hangs ih =>
      rintro unit inside rfl
      have holds := contained.holds unit inside
      rcases Links.mem_dependents.mp hangs with child | vertex
      · obtain ⟨other, held, same, rfl⟩ := linked.children child
        cases holds.eq_of_id held same.symm
        rcases linked.parent holds with ⟨parent, pending, follows⟩ | ⟨parent, settled, same⟩
        · obtain ⟨member, among, here⟩ := contained.parent unit inside
            (follows.parent_eq ▸ pending.mem)
          exact ih member among here
        · refine linked.accepted_not_mem_branch settled ?_ (mem_branch_iff.mpr (same ▸ path))
          exact outside parent (List.mem_append_left _ settled)
      · obtain ⟨target, pending, rfl, ⟨other, held, same, edged⟩ | ⟨rejected, found, -⟩⟩ :=
          linked.references vertex
        · cases holds.eq_of_id held same.symm
          obtain ⟨member, among, here⟩ := contained.edges unit inside _ edged pending.mem
          exact ih member among here
        · refine linked.rejected ?_ holds.mem
          exact Std.ExtTreeMap.mem_iff_isSome_getElem?.mpr (found ▸ rfl)

theorem Linked.selfContained_discardEach (linked : manager.Linked accepted)
    (contained : manager.SelfContained units) (roots : List UnitId)
    (outside : ∀ root ∈ roots, ∀ unit ∈ accepted ++ units, unit.id ≠ root) :
    (manager.sequence (Manager.discard true) roots).1.SelfContained units := by
  refine (sequence_induction
    (fun after => after.Linked accepted ∧ after.SelfContained units) ?_ ⟨linked, contained⟩).2
  intro root inside before both
  obtain ⟨tree, whole⟩ := both
  have apart := tree.not_mem_branch_of_selfContained whole (outside root inside)
  have fewer : ∀ {id}, id ∈ (Manager.discard true before root).1.pending → id ∈ before.pending :=
    fun present => ((mem_pending_discard true before root).mp present).1
  refine ⟨tree.discard true root, fun unit member => ?_, fun unit member present => ?_,
    fun unit member edge edged present => ?_⟩
  · exact (holds_discard true root).mpr ⟨whole.holds unit member, apart unit member⟩
  · exact whole.parent unit member (fewer present)
  · exact whole.edges unit member edge edged (fewer present)

theorem SelfContained.depart (contained : manager.SelfContained (unit :: rest))
    (distinct : ∀ other ∈ rest, unit.id ≠ other.id) :
    (manager.depart unit.held).SelfContained rest := by
  have remains : ∀ {id : UnitId}, (∃ other ∈ unit :: rest, other.id = id) →
      id ∈ (manager.depart unit.held).pending → ∃ other ∈ rest, other.id = id := by
    rintro _ ⟨other, inside, rfl⟩ present
    rcases List.mem_cons.mp inside with rfl | later
    · exact absurd rfl (mem_pending_depart.mp present).2
    · exact ⟨other, later, rfl⟩
  refine ⟨fun other inside => ?_, fun other inside present => ?_,
    fun other inside edge edged present => ?_⟩
  · exact holds_depart.mpr
      ⟨contained.holds other (List.mem_cons_of_mem _ inside), distinct other inside⟩
  · exact remains (contained.parent other (List.mem_cons_of_mem _ inside)
      (mem_pending_depart.mp present).1) present
  · exact remains (contained.edges other (List.mem_cons_of_mem _ inside) edge edged
      (mem_pending_depart.mp present).1) present

theorem Rooted.selfContained_settleUnit (rooted : manager.Rooted accepted)
    (next : manager.Next unit) (contained : manager.SelfContained (unit :: rest))
    (distinct : ∀ other ∈ rest, unit.id ≠ other.id)
    (above : ∀ other ∈ rest, ∃ below ∈ unit :: rest, below.id = other.parent) :
    (manager.settleUnit unit.held).1.SelfContained rest := by
  have apart : ∀ root ∈ manager.siblings unit.id, ∀ other ∈ (accepted ++ [unit]) ++ rest,
      other.id ≠ root := by
    rintro root beside other inside rfl
    obtain ⟨listed, different⟩ := List.mem_filter.mp beside
    obtain ⟨sibling, holds, same, under⟩ := rooted.children listed
    rcases List.mem_append.mp inside with settled | later
    · rcases List.mem_append.mp settled with old | new
      · exact (rooted.settled old).1 (same ▸ holds.mem)
      · cases List.mem_singleton.mp new
        exact of_decide_eq_true different rfl
    · cases holds.eq_of_id (contained.holds other (List.mem_cons_of_mem _ later)) same
      obtain ⟨below, among, here⟩ := above _ later
      exact rooted.last_not_pending (here.trans under ▸ (contained.holds below among).mem)
  have alone := (rooted.depart next).selfContained_discardEach (contained.depart distinct)
    (manager.siblings unit.id) apart
  exact ⟨alone.holds, alone.parent, alone.edges⟩

end SelfContained

theorem exists_parent_of_isChain {unit : DecisionUnit} {rest : List DecisionUnit}
    (linked : (unit :: rest).IsChain fun below above => above.parent = below.id) :
    ∀ other ∈ rest, ∃ below ∈ unit :: rest, below.id = other.parent := by
  induction rest generalizing unit with
  | nil => exact fun other inside => absurd inside List.not_mem_nil
  | cons first later ih =>
      obtain ⟨under, further⟩ := List.isChain_cons_cons.mp linked
      intro other inside
      rcases List.mem_cons.mp inside with rfl | deeper
      · exact ⟨unit, List.mem_cons_self, under.symm⟩
      · obtain ⟨below, among, same⟩ := ih further other deeper
        exact ⟨below, List.mem_cons_of_mem _ among, same⟩

/-- The units of a path whose acceptance is asked for: a proposal is accepted with its option. -/
def decisions (path : List DecisionUnit) : List DecisionUnit :=
  path.filter fun unit => unit.kind ≠ .proposal

/-- A path of pending units up from the last accepted one.  It refers to nothing that is pending
elsewhere, and does not end with a question. -/
structure Ascent (manager : Manager) (store : Store) (path : List DecisionUnit) : Prop where
  holds : ∀ unit ∈ path, manager.Holds unit
  linked : (manager.lastAccepted :: path).IsChain fun below above => above.parent = below.id
  edges : ∀ unit ∈ path, ∀ edge ∈ unit.body.edges,
    store.containsUnit edge = true ∨ ∃ target ∈ path, target.id = edge
  decided : ∀ {top}, path.getLast? = some top → top.kind ≠ .proposal

section Ascent

variable {origin : StateUpdates} {manager : Manager} {store : Store}
  {accepted path rest : List DecisionUnit} {unit : DecisionUnit}

theorem Ascent.extends (ascent : manager.Ascent store path) (rooted : manager.Rooted accepted) :
    (manager.lastAccepted :: path).IsChain fun below above => above.Extends below := by
  refine ascent.linked.imp_of_mem_tail_imp ?_
  intro below above inside later under
  have holds := ascent.holds above later
  rcases List.mem_cons.mp inside with rfl | pending
  · exact rooted.rooted holds (under ▸ rooted.last_not_pending)
  · exact rooted.extends_of_parent holds (ascent.holds below pending) under

theorem Ascent.pairwise_height (ascent : manager.Ascent store path)
    (rooted : manager.Rooted accepted) :
    path.Pairwise fun lower higher => lower.height < higher.height := by
  refine (List.isChain_iff_pairwise.mp ?_)
  refine (ascent.extends rooted).tail.imp fun below above follows => ?_
  rw [UInt64.lt_iff_toNat_lt, follows.height_eq]
  omega

theorem Ascent.parent_eq (ascent : manager.Ascent store (unit :: rest)) :
    unit.parent = manager.lastAccepted.id :=
  (List.isChain_cons_cons.mp ascent.linked).1

theorem Ascent.distinct (ascent : manager.Ascent store path)
    (rooted : manager.Rooted accepted) :
    path.Pairwise fun lower higher => lower.id ≠ higher.id := by
  refine (ascent.pairwise_height rooted).imp_of_mem ?_
  intro lower higher inside among less same
  cases (ascent.holds lower inside).eq_of_id (ascent.holds higher among) same
  exact UInt64.lt_irrefl _ less

/-- What an edge of an ascent leads to is accepted, or lies below on the ascent. -/
theorem Ascent.edge_cases (ascent : manager.Ascent store path)
    (rooted : manager.Rooted accepted) (lists : store.Lists accepted) (inside : unit ∈ path)
    {edge : UnitId} (edged : edge ∈ unit.body.edges) :
    (∃ target ∈ accepted, target.id = edge) ∨
      ∃ target ∈ path, target.id = edge ∧ target.height < unit.height := by
  rcases ascent.edges unit inside edge edged with stored | ⟨target, among, rfl⟩
  · exact .inl (lists.containsUnit_iff.mp stored)
  · refine .inr ⟨target, among, rfl, ?_⟩
    exact rooted.height_lt_of_edge (ascent.holds unit inside) (ascent.holds target among) edged

theorem Ascent.selfContained (ascent : manager.Ascent store path)
    (rooted : manager.Rooted accepted) (lists : store.Lists accepted) :
    manager.SelfContained path := by
  refine ⟨ascent.holds, fun unit inside present => ?_, fun unit inside edge edged present => ?_⟩
  · cases path with
    | nil => exact absurd inside List.not_mem_nil
    | cons first rest =>
        rcases List.mem_cons.mp inside with rfl | later
        · exact absurd (ascent.parent_eq ▸ present) rooted.last_not_pending
        · exact exists_parent_of_isChain (List.isChain_cons_cons.mp ascent.linked).2 unit later
  · rcases ascent.edge_cases rooted lists inside edged with ⟨target, settled, rfl⟩ | found
    · exact absurd present (rooted.settled settled).1
    · obtain ⟨target, among, same, -⟩ := found
      exact ⟨target, among, same⟩

theorem Ascent.next (ascent : manager.Ascent store (unit :: rest))
    (rooted : manager.Rooted accepted) : manager.Next unit :=
  rooted.next_of_parent (ascent.holds unit List.mem_cons_self) ascent.parent_eq

end Ascent

section Acceptance

variable {origin : StateUpdates} {manager : Manager} {store other : Store}
  {accepted path rest : List DecisionUnit} {unit proposal option : DecisionUnit} {choice : Choice}

/-- There is a plan for the first decision of an ascent, for the units up to and with that one. -/
theorem Sound.exists_plan (sound : manager.Sound origin store accepted)
    (ascent : manager.Ascent store path) (present : path ≠ []) :
    ∃ unit plan rest, manager.plan store unit.id = .ok plan ∧ manager.Plans unit plan ∧
      path = plan.accepted.map (·.unit) ++ rest ∧ decisions path = unit :: decisions rest := by
  have rooted := sound.rooted
  have lists := sound.records.toLists
  cases path with
  | nil => exact absurd rfl present
  | cons first rest =>
      obtain ⟨follows, above⟩ := List.isChain_cons_cons.mp (ascent.extends rooted)
      cases kind : first.kind with
      | standard | vertex =>
          have execution : first.execution = .effect first.effect :=
            DecisionUnit.execution_eq_effect_iff.mpr ⟨by simp [kind], rfl⟩
          obtain ⟨plan, planned, plans, units⟩ :=
            rooted.plan_unit lists (ascent.next rooted) execution
          exact ⟨first, plan, rest, planned, plans, by simp [units], by simp [decisions, kind]⟩
      | commit | abort =>
          have option : first.kind.isOption = true := by rw [kind]; rfl
          exact absurd (follows.option_iff.mp option) sound.undecided
      | proposal =>
          cases rest with
          | nil => exact absurd kind (ascent.decided rfl)
          | cons second further =>
              obtain ⟨decides, -⟩ := List.isChain_cons_cons.mp above
              have option := decides.option_iff.mpr kind
              obtain ⟨choice, chosen⟩ := DecisionUnit.exists_choice_of_isOption option
              have chooses : manager.OptionOf first second choice :=
                ⟨ascent.holds second (List.mem_cons_of_mem _ List.mem_cons_self), decides.parent_eq,
                  chosen⟩
              obtain ⟨plan, planned, plans, units⟩ :=
                (ascent.next rooted).plan_option kind chooses
              have answers : second.kind ≠ .proposal := by
                intro asks
                rw [asks] at option
                cases option
              refine ⟨second, plan, further, planned, plans, by simp [units], ?_⟩
              simp [decisions, kind, answers]

theorem Ascent.selfContained_dismiss
    (ascent : manager.Ascent store (proposal :: option :: rest))
    (rooted : manager.Rooted accepted) (lists : store.Lists accepted)
    (decides : manager.OptionOf proposal option choice) :
    (manager.sequence (Manager.discard true)
      (manager.optionOf? proposal.id choice.other).toList).1.SelfContained
        (proposal :: option :: rest) := by
  refine rooted.selfContained_discardEach (ascent.selfContained rooted lists) _ ?_
  rintro root dismissed unit inside rfl
  obtain ⟨other, holds, same, under, taken⟩ :=
    rooted.exists_of_optionOf? (Option.mem_toList.mp dismissed)
  rcases List.mem_append.mp inside with settled | among
  · exact (rooted.settled settled).1 (same ▸ holds.mem)
  · cases holds.eq_of_id (ascent.holds unit among) same
    have follows := List.isChain_cons_cons.mp (ascent.extends rooted)
    rcases List.mem_cons.mp among with rfl | above
    · -- the proposal does not stand on itself
      exact rooted.last_not_pending (ascent.parent_eq ▸ under ▸ holds.mem)
    · rcases List.mem_cons.mp above with rfl | higher
      · have contrary := Option.some.inj (decides.choice_eq.symm.trans taken)
        cases choice <;> simp [Choice.other] at contrary
      · -- both options are as high as each other, and what follows is higher
        have level := (rooted.extends_of_parent holds
          (ascent.holds proposal List.mem_cons_self) under).height_eq
        have own := (List.isChain_cons_cons.mp follows.2).1.height_eq
        have heights := List.pairwise_cons.mp (ascent.pairwise_height rooted)
        have lower := List.rel_of_pairwise_cons heights.2 higher
        rw [UInt64.lt_iff_toNat_lt] at lower
        omega

theorem Ascent.selfContained_settle {plan : AcceptPlan}
    (ascent : manager.Ascent store (plan.accepted.map (·.unit) ++ rest))
    (rooted : manager.Rooted accepted) (lists : store.Lists accepted)
    (plans : manager.Plans unit plan) : (manager.settle plan).1.SelfContained rest := by
  have linked := ascent.linked.tail
  have distinct := ascent.distinct rooted
  cases plans with
  | unit next execution =>
      rw [settle_unit]
      exact rooted.selfContained_settleUnit next (ascent.selfContained rooted lists)
        (List.pairwise_cons.mp distinct).1 (exists_parent_of_isChain linked)
  | option next kind decides =>
      rw [settle_option]
      obtain ⟨decidedRooted, decidedNext, decidedOption⟩ := rooted.dismiss next kind decides rfl
      have top := decidedRooted.option_next decidedNext decidedOption
      obtain ⟨proposalApart, optionDistinct⟩ := List.pairwise_cons.mp distinct
      have above := decidedRooted.selfContained_settleUnit decidedNext
        (ascent.selfContained_dismiss rooted lists decides) proposalApart
        (exists_parent_of_isChain linked)
      exact (decidedRooted.settleUnit decidedNext).selfContained_settleUnit top above
        (List.pairwise_cons.mp optionDistinct).1
        (exists_parent_of_isChain (List.isChain_cons_cons.mp linked).2)

/-- What is left of an ascent once its first units are settled is an ascent. -/
theorem Ascent.settle {plan : AcceptPlan}
    (ascent : manager.Ascent store (plan.accepted.map (·.unit) ++ rest))
    (rooted : manager.Rooted accepted) (lists : store.Lists accepted)
    (plans : manager.Plans unit plan)
    (longer : other.Lists (accepted ++ plan.accepted.map (·.unit))) :
    (manager.settle plan).1.Ascent other rest where
  holds := (ascent.selfContained_settle rooted lists plans).holds
  linked := by
    rw [lastAccepted_settle plans]
    have linked := ascent.linked
    cases plans with
    | unit next execution => exact linked.tail
    | option next kind decides => exact linked.tail.tail
  edges := by
    intro unit inside edge edged
    rcases ascent.edge_cases rooted lists (List.mem_append_right _ inside) edged with
      ⟨target, settled, same⟩ | ⟨target, among, same, -⟩
    · exact .inl (longer.containsUnit_iff.mpr ⟨target, List.mem_append_left _ settled, same⟩)
    · rcases List.mem_append.mp among with first | later
      · exact .inl (longer.containsUnit_iff.mpr ⟨target, List.mem_append_right _ first, same⟩)
      · exact .inr ⟨target, later, same⟩
  decided := by
    intro top last
    apply ascent.decided
    rw [List.getLast?_append, last]
    rfl

end Acceptance

end Manager

section Run

variable {ω : Type} {host : LawfulHost ω} {origin : StateUpdates} {accepted : List DecisionUnit}
  {situation : Manager × ω}

/-- Nothing besides a manager is in the way of an acceptance: what it writes is written, and no
listener that must not miss a unit fails too often. -/
structure LawfulHost.Grants (host : LawfulHost ω) (situation : Manager × ω) (unit : UnitId) :
    Prop where
  written : ∀ {plan}, situation.1.plan (host.store situation.2) unit = .ok plan →
    ∃ after, host.write plan.batch situation.2 = .ok after
  heard : ∀ {failures}, (Call.accept unit).answer host situation =
    .error (.listenerFailures failures) → failures.isFatal situation.1.config.threshold = false

/-- A call committed what it was asked to, even if some listeners failed. -/
def Call.IsCommitted (answer : Except ManagerError Unit) : Prop :=
  answer = .ok () ∨ ∃ failures, answer = .error (.listenerFailures failures)

/-- What a granted acceptance comes to, if there is a plan for it. -/
structure Step.Settles (host : LawfulHost ω) (origin : StateUpdates) (situation : Manager × ω)
    (accepted : List DecisionUnit) (unit : UnitId) (plan : AcceptPlan) : Prop where
  answer : Call.IsCommitted ((Call.accept unit).answer host situation)
  committed : (Step.accept unit : Step host).committed situation = plan.accepted.map (·.unit)
  settled : ((Step.accept unit : Step host).perform situation).1 = (situation.1.settle plan).1
  sound : ((Step.accept unit : Step host).perform situation).1.Sound origin
    (host.store ((Step.accept unit : Step host).perform situation).2)
    (accepted ++ plan.accepted.map (·.unit))

theorem LawfulHost.Grants.settles {unit : DecisionUnit} {plan : AcceptPlan}
    (grants : host.Grants situation unit.id)
    (sound : situation.1.Sound origin (host.store situation.2) accepted)
    (running : situation.1.halted = none)
    (planned : situation.1.plan (host.store situation.2) unit.id = .ok plan)
    (plans : situation.1.Plans unit plan) :
    Step.Settles host origin situation accepted unit.id plan := by
  obtain ⟨manager, world⟩ := situation
  obtain ⟨written, wrote⟩ := grants.written planned
  have ready : manager.ensureRunning = .ok () := Manager.ensureRunning_eq_ok_iff.mpr running
  have settles := sound.settle plans
  have committed : (Step.accept unit.id : Step host).committed (manager, world) =
      plan.accepted.map (·.unit) := by
    simp only [Step.committed, ready, planned, wrote]
  cases heard : host.deliverAll manager.config.chain (plan.accepted.map (·.unit))
      (host.publishAll (manager.settle plan).2 written) with
  | mk failed delivered =>
      have ledger := settles.of_sameLedger (host.sameLedger_delivered wrote heard)
      cases failed with
      | none =>
          have done : manager.accept host.toHost unit.id world =
              (.ok (), (manager.settle plan).1, delivered) := by
            simp only [Manager.accept, ready, planned, wrote, heard]
          refine ⟨.inl (congrArg Prod.fst done), committed, congrArg (·.2.1) done, ?_⟩
          dsimp only [Step.perform]
          rw [done]
          exact ledger
      | some failures =>
          have answered : (manager.accept host.toHost unit.id world).1 =
              .error (.listenerFailures failures) := by
            simp only [Manager.accept, ready, planned, wrote, heard]
          have tolerable := grants.heard answered
          have done : manager.accept host.toHost unit.id world =
              (.error (.listenerFailures failures), (manager.settle plan).1, delivered) := by
            simp only [Manager.accept, ready, planned, wrote, heard, tolerable]
            rfl
          refine ⟨.inr ⟨failures, answered⟩, committed, congrArg (·.2.1) done, ?_⟩
          dsimp only [Step.perform]
          rw [done]
          exact ledger

theorem Step.Settles.lastAccepted_eq {unit : DecisionUnit} {plan : AcceptPlan}
    (settles : Step.Settles host origin situation accepted unit.id plan)
    (plans : situation.1.Plans unit plan) :
    ((Step.accept unit.id : Step host).perform situation).1.lastAccepted = unit :=
  (congrArg Manager.lastAccepted settles.settled).trans (Manager.lastAccepted_settle plans)

def Step.acceptEach (host : LawfulHost ω) (units : List DecisionUnit) : List (Step host) :=
  units.map fun unit => .accept unit.id

/-- A path is accepted whole, decision by decision. -/
structure Ascends (host : LawfulHost ω) (situation : Manager × ω) (path : List DecisionUnit) :
    Prop where
  /-- Each acceptance commits. -/
  answers : ∀ {before unit later}, Manager.decisions path = before ++ unit :: later →
    Call.IsCommitted ((Call.accept unit.id).answer host
      (Step.run (Step.acceptEach host before) situation))
  /-- After each, its unit is the last accepted one. -/
  tops : ∀ {before unit later}, Manager.decisions path = before ++ unit :: later →
    (Step.run (Step.acceptEach host (before ++ [unit])) situation).1.lastAccepted = unit
  /-- What is committed in all is the path. -/
  committed : Step.committedAll (Step.acceptEach host (Manager.decisions path)) situation = path
  /-- In the end the uppermost unit is the last accepted one. -/
  last : ∀ {top}, path.getLast? = some top →
    (Step.run (Step.acceptEach host (Manager.decisions path)) situation).1.lastAccepted = top
  stored : ∀ unit ∈ path,
    (host.store (Step.run (Step.acceptEach host (Manager.decisions path)) situation).2).containsUnit
      unit.id = true

theorem Ascends.nil (situation : Manager × ω) : Ascends host situation [] where
  answers split := absurd split (by simp [Manager.decisions])
  tops split := absurd split (by simp [Manager.decisions])
  committed := rfl
  last top := absurd top (by simp)
  stored _ inside := absurd inside List.not_mem_nil

/-- Once the first decision of a path is settled, the rest of the path is accepted from there. -/
theorem Ascends.cons {unit : DecisionUnit} {plan : AcceptPlan} {rest : List DecisionUnit}
    (settles : Step.Settles host origin situation accepted unit.id plan)
    (plans : situation.1.Plans unit plan)
    (first : Manager.decisions (plan.accepted.map (·.unit) ++ rest) =
      unit :: Manager.decisions rest)
    (above : Ascends host ((Step.accept unit.id : Step host).perform situation) rest) :
    Ascends host situation (plan.accepted.map (·.unit) ++ rest) where
  answers := by
    intro before other later split
    rw [first] at split
    cases before with
    | nil =>
        cases split
        exact settles.answer
    | cons _ before =>
        obtain ⟨rfl, further⟩ := List.cons.inj split
        exact above.answers further
  tops := by
    intro before other later split
    rw [first] at split
    cases before with
    | nil =>
        cases split
        exact settles.lastAccepted_eq plans
    | cons _ before =>
        obtain ⟨rfl, further⟩ := List.cons.inj split
        exact above.tops further
  committed := by
    rw [first]
    exact congrArg₂ (· ++ ·) settles.committed above.committed
  last := by
    intro top last
    rw [first]
    cases rest with
    | cons _ _ =>
        rw [List.getLast?_append_cons] at last
        exact above.last last
    | nil =>
        have uppermost : (plan.accepted.map (·.unit)).getLast? = some unit := by
          cases plans <;> rfl
        rw [List.append_nil, uppermost] at last
        cases last
        exact settles.lastAccepted_eq plans
  stored := by
    intro other inside
    rw [first]
    rcases List.mem_append.mp inside with accepted | later
    · obtain ⟨further, last⟩ := Step.sound_run
        (Step.acceptEach host (Manager.decisions rest)) settles.sound
      refine last.records.containsUnit_iff.mpr ⟨other, ?_, rfl⟩
      exact List.mem_append_left _ (List.mem_append_right _ accepted)
    · exact above.stored other later

theorem Manager.Sound.ascends {path : List DecisionUnit}
    (sound : situation.1.Sound origin (host.store situation.2) accepted)
    (running : situation.1.halted = none)
    (ascent : situation.1.Ascent (host.store situation.2) path)
    (granted : ∀ before unit later, Manager.decisions path = before ++ unit :: later →
      host.Grants (Step.run (Step.acceptEach host before) situation) unit.id) :
    Ascends host situation path := by
  induction calls : Manager.decisions path generalizing situation path accepted with
  | nil =>
      cases path with
      | nil => exact .nil situation
      | cons unit rest =>
          obtain ⟨_, _, _, -, -, -, decided⟩ := sound.exists_plan ascent (by simp)
          rw [calls] at decided
          cases decided
  | cons unit _ ih =>
      have present : path ≠ [] := by
        rintro rfl
        cases calls
      obtain ⟨_, plan, rest, planned, plans, rfl, first⟩ := sound.exists_plan ascent present
      obtain ⟨rfl, rfl⟩ := List.cons.inj (calls.symm.trans first)
      have grants : host.Grants situation unit.id := granted [] unit _ first
      have settles := grants.settles sound running planned plans
      refine .cons settles plans first (ih settles.sound ?_ ?_ ?_ rfl)
      · rw [settles.settled]
        exact (situation.1.settle_settings plan).1.trans running
      · have left := ascent.settle sound.rooted sound.records.toLists plans
          settles.sound.records.toLists
        rw [← settles.settled] at left
        exact left
      · intro before other later split
        exact granted (unit :: before) other later (first.trans (congrArg (unit :: ·) split))

/-- A verified branch stays acceptable: whenever a manager runs, it accepts any path of pending
units, decision by decision, if nothing besides it is in the way. -/
theorem Tenure.ascends_run {config : Configuration} (tenure : Tenure host config origin)
    (steps : List (Step host)) {path : List DecisionUnit}
    (running : (tenure.run steps).1.halted = none)
    (ascent : (tenure.run steps).1.Ascent (host.store (tenure.run steps).2) path)
    (granted : ∀ before unit later, Manager.decisions path = before ++ unit :: later →
      host.Grants (tenure.run (steps ++ Step.acceptEach host before)) unit.id) :
    Ascends host (tenure.run steps) path := by
  obtain ⟨accepted, sound⟩ := tenure.sound_run steps
  refine sound.ascends running ascent fun before unit later split => ?_
  rw [Tenure.run, ← Step.run_append]
  exact granted before unit later split

end Run

section Bare

variable {config : Configuration} {origin : StateUpdates}

theorem LawfulHost.grants_bare (situation : Manager × Store) (unit : UnitId) :
    bare.Grants situation unit where
  written _ := ⟨_, rfl⟩
  heard := by
    intro failures answered
    dsimp only [Call.answer] at answered
    have outcome : Call.Outcome bare situation.1 situation.2 (.accept unit) _ :=
      Call.outcome_accept situation.1 unit situation.2
    generalize situation.1.accept bare.toHost unit situation.2 = result at answered outcome
    cases outcome with
    | stopped | done | unwritten | heard => cases answered
    | refused _ refusal =>
        cases answered
        cases refusal
    | unheard _ _ _ told | fatal _ _ _ told =>
        rw [deliverAll_bare] at told
        cases told

end Bare

namespace Forgetful

/-- A vertex on the option, which refers to the proposal besides. -/
def crown : DecisionUnit :=
  .ofFields { parent := option.id, height := 3, timestamp := none,
              body := .vertex [proposal.id] [output 0xcc 3] } (by decide)

def raised : List (Step LawfulHost.bare) :=
  verified ++ [.verify crown]

set_option maxRecDepth 100000 in
theorem raised_eq :
    (begun.run raised).1.halted = none ∧
    (∀ unit ∈ [proposal, option, crown],
      (begun.run raised).1.pending[unit.id]?.map (·.unit) = some unit) ∧
    ((begun.run raised).1.lastAccepted :: [proposal, option, crown]).IsChain
      (fun below above => above.parent = below.id) ∧
    (∀ unit ∈ [proposal, option, crown], ∀ edge ∈ unit.body.edges,
      (LawfulHost.bare.store (begun.run raised).2).containsUnit edge = true ∨
        ∃ target ∈ [proposal, option, crown], target.id = edge) ∧
    crown.kind ≠ .proposal := by
  decide +kernel

/-- The proposal, the option and the vertex on it are accepted in two calls, and the unit beside
them does not stand in the way. -/
theorem crown_ascends :
    ((begun.run raised).1.halted = none ∧
      (begun.run raised).1.Ascent (LawfulHost.bare.store (begun.run raised).2)
        [proposal, option, crown] ∧
      ∀ before unit later,
        Manager.decisions [proposal, option, crown] = before ++ unit :: later →
        LawfulHost.bare.Grants
          (begun.run (raised ++ Step.acceptEach LawfulHost.bare before)) unit.id) ∧
    Ascends LawfulHost.bare (begun.run raised) [proposal, option, crown] := by
  obtain ⟨running, pending, linked, edges, decided⟩ := raised_eq
  have ascent : (begun.run raised).1.Ascent (LawfulHost.bare.store (begun.run raised).2)
      [proposal, option, crown] := by
    obtain ⟨accepted, sound⟩ := begun.sound_run raised
    refine ⟨fun unit inside => ?_, linked, edges, ?_⟩
    · obtain ⟨held, found, rfl⟩ := Option.map_eq_some_iff.mp (pending unit inside)
      rw [Manager.Holds, ← (sound.rooted.keyed found).2]
      exact found
    · intro top last
      cases last
      exact decided
  have granted : ∀ before unit later,
      Manager.decisions [proposal, option, crown] = before ++ unit :: later →
      LawfulHost.bare.Grants
        (begun.run (raised ++ Step.acceptEach LawfulHost.bare before)) unit.id :=
    fun _ unit _ _ => LawfulHost.grants_bare _ unit.id
  exact ⟨⟨running, ascent, granted⟩, begun.ascends_run raised running ascent granted⟩

end Forgetful

end DecisionLedger
