import DecisionLedger.Proofs.Settling

/-! # What a plan accepts

A plan accepts one unit that stands on the last accepted one, or a proposal that stands there
together with one of its options.  Either way the chronicle goes on, and the tree keeps a root.
-/

namespace DecisionLedger.Manager

section Survival

variable {manager : Manager} {accepted : List DecisionUnit} {unit : DecisionUnit} {root : UnitId}

theorem Linked.known_of_mem_branch (linked : manager.Linked accepted) {id : UnitId}
    (inside : id ∈ manager.branch root) (below : id ≠ root) :
    id ∈ manager.pending ∨ id ∈ manager.rejected := by
  obtain ⟨above, -, hangs⟩ := hangs_of_mem_branch inside below
  rcases Links.mem_dependents.mp hangs with child | vertex
  · obtain ⟨other, holds, rfl, -⟩ := linked.children child
    exact .inl holds.mem
  · obtain ⟨target, -, -, ⟨other, holds, rfl, -⟩ | ⟨rejected, found, -⟩⟩ := linked.references vertex
    · exact .inl holds.mem
    · exact .inr (Std.ExtTreeMap.mem_iff_isSome_getElem?.mpr (found ▸ rfl))

theorem Linked.accepted_not_mem_branch (linked : manager.Linked accepted) (inside : unit ∈ accepted)
    (apart : unit.id ≠ root) : unit.id ∉ manager.branch root := by
  intro reached
  rcases linked.known_of_mem_branch reached apart with present | gone
  · exact (linked.settled inside).1 present
  · exact (linked.settled inside).2 gone

theorem Linked.not_mem_branch_of_parent (linked : manager.Linked accepted)
    (holds : manager.Holds unit) (plain : unit.body.edges = []) (apart : unit.id ≠ root)
    (outside : unit.parent ∉ manager.branch root) : unit.id ∉ manager.branch root := by
  intro reached
  obtain ⟨above, inside, hangs⟩ := hangs_of_mem_branch reached apart
  rcases Links.mem_dependents.mp hangs with child | vertex
  · obtain ⟨other, held, same, under⟩ := linked.children child
    cases holds.eq_of_id held same.symm
    exact outside (under ▸ inside)
  · obtain ⟨target, -, -, ⟨other, held, same, edged⟩ | ⟨rejected, found, -⟩⟩ :=
      linked.references vertex
    · cases holds.eq_of_id held same.symm
      rw [plain] at edged
      exact absurd edged List.not_mem_nil
    · exact linked.rejected (Std.ExtTreeMap.mem_iff_isSome_getElem?.mpr (found ▸ rfl)) holds.mem

end Survival

/-- A pending option of a pending proposal. -/
structure OptionOf (manager : Manager) (proposal option : DecisionUnit) (choice : Choice) :
    Prop where
  holds : manager.Holds option
  parent_eq : option.parent = proposal.id
  choice_eq : option.body.choice? = some choice

theorem OptionOf.edges_eq {manager : Manager} {proposal option : DecisionUnit} {choice : Choice}
    (decides : manager.OptionOf proposal option choice) : option.body.edges = [] := by
  have chosen := decides.choice_eq
  cases body : option.body with
  | commit | abort => rfl
  | standard | proposal | vertex => simp [body, Body.choice?] at chosen

/-- How the acceptance of a unit is planned. -/
inductive Plans (manager : Manager) : DecisionUnit → AcceptPlan → Prop where
  | unit {unit : DecisionUnit} : manager.Next unit →
      unit.execution = .effect unit.effect →
      Plans manager unit {
        batch := Batch.setAccepted unit ++ unit.effect.changes
        dismissed := none
        accepted := [unit.held] }
  | option {proposal option : DecisionUnit} {choice : Choice} : manager.Next proposal →
      proposal.kind = .proposal → manager.OptionOf proposal option choice →
      Plans manager option {
        batch := Batch.setUnit proposal ++ Batch.setUnitAtHeight proposal.height proposal.id ++
          Batch.setAccepted option ++ (proposal.branch choice).changes
        dismissed := manager.optionOf? proposal.id choice.other
        accepted := [proposal.held, option.held] }

section Plan

variable {manager : Manager} {store : Store} {accepted : List DecisionUnit}

theorem Plans.getLast?_accepted {unit : DecisionUnit} {plan : AcceptPlan}
    (plans : manager.Plans unit plan) : (plan.accepted.map (·.unit)).getLast? = some unit := by
  cases plans <;> rfl

theorem edges_eq_of_proposal {unit : DecisionUnit} (proposal : unit.kind = .proposal) :
    unit.body.edges = [] := by
  obtain ⟨proposed, body⟩ := unit.exists_of_proposal proposal
  rw [body]
  rfl

theorem Rooted.planUnit_eq_ok (rooted : manager.Rooted accepted) (lists : store.Lists accepted)
    {unit : DecisionUnit} (holds : manager.Holds unit) {diff : Diff}
    (execution : unit.execution = .effect diff) {plan : AcceptPlan}
    (planned : manager.planUnit store unit.held diff = .ok plan) : manager.Plans unit plan := by
  obtain ⟨-, rfl⟩ := DecisionUnit.execution_eq_effect_iff.mp execution
  dsimp only [planUnit] at planned
  split at planned
  · rename_i ready
    cases planned
    rw [Bool.and_eq_true, decide_eq_true_iff, List.all_eq_true] at ready
    refine Plans.unit ⟨holds, ready.1, fun edge edged pending => ?_⟩ execution
    obtain ⟨target, inside, rfl⟩ := (isAccepted_iff rooted.recent lists).mp (ready.2 edge edged)
    exact (rooted.settled inside).1 pending
  · cases planned

theorem Rooted.planOption_eq_ok (rooted : manager.Rooted accepted) {option : DecisionUnit}
    (holds : manager.Holds option) {choice : Choice} (chosen : option.body.choice? = some choice)
    {plan : AcceptPlan} (planned : manager.planOption option.held choice = .ok plan) :
    manager.Plans option plan := by
  dsimp only [planOption] at planned
  rw [DecisionUnit.held_unit] at planned
  cases found : manager.pending[option.parent]? with
  | none => simp [found] at planned
  | some pending =>
      obtain ⟨proposal, held, same, rfl⟩ := rooted.exists_of_getElem? found
      simp only [found, DecisionUnit.held_execution] at planned
      cases execution : proposal.execution with
      | effect diff => simp [execution] at planned
      | option other => simp [execution] at planned
      | proposal branches =>
          obtain ⟨kind, branch⟩ := DecisionUnit.of_execution_eq_proposal execution
          simp only [execution] at planned
          split at planned
          · rename_i ready
            cases planned
            have next : manager.Next proposal := by
              refine ⟨held, ready, fun edge edged => ?_⟩
              rw [edges_eq_of_proposal kind] at edged
              exact absurd edged List.not_mem_nil
            rw [branch]
            exact Plans.option next kind ⟨holds, same.symm, chosen⟩
          · cases planned

theorem Rooted.plan_cases (rooted : manager.Rooted accepted) (lists : store.Lists accepted)
    {id : UnitId} {plan : AcceptPlan} (planned : manager.plan store id = .ok plan) :
    ∃ unit, unit.id = id ∧ manager.Plans unit plan := by
  unfold Manager.plan at planned
  cases found : manager.pending[id]? with
  | none => simp [found] at planned
  | some pending =>
      obtain ⟨unit, holds, same, rfl⟩ := rooted.exists_of_getElem? found
      refine ⟨unit, same, ?_⟩
      simp only [found, DecisionUnit.held_execution] at planned
      cases execution : unit.execution with
      | proposal branches => simp [execution] at planned
      | effect diff =>
          simp only [execution] at planned
          exact rooted.planUnit_eq_ok lists holds execution planned
      | option choice =>
          simp only [execution] at planned
          exact rooted.planOption_eq_ok holds (DecisionUnit.execution_eq_option_iff.mp execution)
            planned

/-- A unit that stands on the last accepted one is next: its edges are lower than it is, and all
that is pending is higher than the last accepted unit. -/
theorem Rooted.next_of_parent (rooted : manager.Rooted accepted) {unit : DecisionUnit}
    (holds : manager.Holds unit) (top : unit.parent = manager.lastAccepted.id) :
    manager.Next unit := by
  refine ⟨holds, top, fun edge edged present => ?_⟩
  obtain ⟨target, held, rfl⟩ := rooted.mem_pending_iff.mp present
  have lower := rooted.height_lt_of_edge holds held edged
  have above := rooted.height_lt held
  have height := (rooted.rooted holds (top ▸ rooted.last_not_pending)).height_eq
  rw [UInt64.lt_iff_toNat_lt] at lower above
  omega

theorem Rooted.isAccepted_of_edge (rooted : manager.Rooted accepted) (lists : store.Lists accepted)
    {unit : DecisionUnit} (next : manager.Next unit) :
    ∀ edge ∈ unit.body.edges, manager.isAccepted store edge = true := by
  intro edge edged
  refine (isAccepted_iff rooted.recent lists).mpr ?_
  obtain ⟨target, same, -, held | inside⟩ := rooted.edges next.holds edge edged
  · exact absurd (same ▸ held.mem) (next.edges edge edged)
  · exact ⟨target, inside, same⟩

theorem Rooted.plan_unit (rooted : manager.Rooted accepted) (lists : store.Lists accepted)
    {unit : DecisionUnit} (next : manager.Next unit)
    (execution : unit.execution = .effect unit.effect) :
    ∃ plan, manager.plan store unit.id = .ok plan ∧ manager.Plans unit plan ∧
      plan.accepted = [unit.held] := by
  have known := List.all_eq_true.mpr (rooted.isAccepted_of_edge lists next)
  have holds : manager.pending[unit.id]? = some unit.held := next.holds
  refine ⟨_, ?_, .unit next execution, rfl⟩
  simp only [Manager.plan, holds, DecisionUnit.held_execution, execution, planUnit,
    DecisionUnit.held_unit, next.parent_eq, known, decide_true, Bool.and_self, if_true]

theorem Next.plan_option {proposal option : DecisionUnit} {choice : Choice}
    (next : manager.Next proposal) (kind : proposal.kind = .proposal)
    (decides : manager.OptionOf proposal option choice) :
    ∃ plan, manager.plan store option.id = .ok plan ∧ manager.Plans option plan ∧
      plan.accepted = [proposal.held, option.held] := by
  have execution := DecisionUnit.execution_eq_option_iff.mpr decides.choice_eq
  obtain ⟨branches, proposed, branch⟩ := DecisionUnit.exists_execution_of_proposal kind
  have holds : manager.pending[option.id]? = some option.held := decides.holds
  have held : manager.pending[proposal.id]? = some proposal.held := next.holds
  refine ⟨_, ?_, .option next kind decides, rfl⟩
  simp only [Manager.plan, holds, DecisionUnit.held_execution, execution, planOption,
    DecisionUnit.held_unit, decides.parent_eq, held, proposed, next.parent_eq, if_true, branch]

end Plan

section Settle

variable {manager : Manager} {accepted : List DecisionUnit}
  {unit proposal option : DecisionUnit} {choice : Choice}

theorem Rooted.chronicle_next (rooted : manager.Rooted accepted) (chronicle : Chronicle accepted)
    (next : manager.Next unit) : Chronicle (accepted ++ [unit]) := by
  have follows := rooted.rooted next.holds (next.parent_eq ▸ rooted.last_not_pending)
  refine chronicle.extend rooted.last follows (fun old => ?_) (fun edge edged => ?_)
  · obtain ⟨earlier, inside, same⟩ := List.mem_map.mp old
    exact (rooted.settled inside).1 (same ▸ next.holds.mem)
  · obtain ⟨target, same, lower, held | inside⟩ := rooted.edges next.holds edge edged
    · exact absurd (same ▸ held.mem) (next.edges edge edged)
    · exact ⟨target, inside, same, lower⟩

/-- Beside a pending option there is at most one unit: the option not taken. -/
theorem Linked.optionOf?_other_iff (linked : manager.Linked accepted)
    (proposed : manager.Holds proposal) (kind : proposal.kind = .proposal)
    (decides : manager.OptionOf proposal option choice) (holds : manager.Holds unit) :
    manager.optionOf? proposal.id choice.other = some unit.id ↔
      unit.parent = proposal.id ∧ unit.id ≠ option.id := by
  constructor
  · intro found
    obtain ⟨other, held, same, under, taken⟩ := linked.exists_of_optionOf? found
    cases holds.eq_of_id held same.symm
    refine ⟨under, fun same => ?_⟩
    cases holds.eq_of_id decides.holds same
    have contrary := Option.some.inj (decides.choice_eq.symm.trans taken)
    cases choice <;> simp [Choice.other] at contrary
  · rintro ⟨under, apart⟩
    have follows := linked.extends_of_parent holds proposed under
    obtain ⟨taken, chosen⟩ :=
      DecisionUnit.exists_choice_of_isOption (follows.option_iff.mpr kind)
    have different : taken ≠ choice := by
      rintro rfl
      have own := linked.options holds decides.holds (under.trans decides.parent_eq.symm) chosen
        decides.choice_eq
      exact apart (congrArg DecisionUnit.id own)
    have contrary : taken = choice.other := by
      cases taken <;> cases choice <;> first | rfl | exact absurd rfl different
    have listed : unit.id ∈ manager.children.of proposal.id := by
      rw [← under]
      exact linked.listed holds (.inl (under ▸ proposed.mem))
    cases found : manager.optionOf? proposal.id choice.other with
    | none => exact absurd (contrary ▸ chosen) (not_option_of_optionOf? found holds listed)
    | some id =>
        obtain ⟨other, held, rfl, beside, opposite⟩ := linked.exists_of_optionOf? found
        rw [linked.options holds held (under.trans beside.symm) (contrary ▸ chosen) opposite]

/-- To reject the option not taken harms neither the proposal nor the option taken. -/
theorem Rooted.dismiss (rooted : manager.Rooted accepted) (next : manager.Next proposal)
    (kind : proposal.kind = .proposal) (decides : manager.OptionOf proposal option choice)
    {decided : Manager}
    (dismissal : (manager.sequence (Manager.discard true)
      (manager.optionOf? proposal.id choice.other).toList).1 = decided) :
    decided.Rooted accepted ∧ decided.Next proposal ∧
      decided.OptionOf proposal option choice := by
  subst dismissal
  cases found : manager.optionOf? proposal.id choice.other with
  | none => exact ⟨rooted, next, decides⟩
  | some dismissed =>
      have single : (manager.sequence (Manager.discard true) (some dismissed).toList).1 =
          (Manager.discard true manager dismissed).1 := rfl
      rw [single]
      obtain ⟨other, holds, rfl, under, -⟩ := rooted.exists_of_optionOf? found
      have tipOutside : proposal.parent ∉ manager.branch other.id := by
        rw [next.parent_eq]
        apply rooted.accepted_not_mem_branch (List.mem_of_getLast? rooted.last)
        exact fun same => rooted.last_not_pending (same ▸ holds.mem)
      have proposalOutside : proposal.id ∉ manager.branch other.id := by
        apply rooted.not_mem_branch_of_parent next.holds (edges_eq_of_proposal kind) _ tipOutside
        intro same
        cases next.holds.eq_of_id holds same
        exact rooted.last_not_pending (next.parent_eq ▸ under ▸ next.holds.mem)
      have optionOutside : option.id ∉ manager.branch other.id := by
        have apart := ((rooted.optionOf?_other_iff next.holds kind decides holds).mp found).2
        apply rooted.not_mem_branch_of_parent decides.holds decides.edges_eq apart.symm
        rw [decides.parent_eq]
        exact proposalOutside
      refine ⟨rooted.discard true _, ⟨?_, ?_, fun edge edged present => ?_⟩, ?_, ?_, ?_⟩
      · exact (holds_discard true _).mpr ⟨next.holds, proposalOutside⟩
      · rw [lastAccepted_discard]
        exact next.parent_eq
      · exact next.edges edge edged ((mem_pending_discard true manager _).mp present).1
      · exact (holds_discard true _).mpr ⟨decides.holds, optionOutside⟩
      · exact decides.parent_eq
      · exact decides.choice_eq

theorem Rooted.option_next (rooted : manager.Rooted accepted) (next : manager.Next proposal)
    (decides : manager.OptionOf proposal option choice) :
    (manager.settleUnit proposal.held).1.Next option := by
  have departed : (manager.depart proposal.held).Holds option := by
    refine holds_depart.mpr ⟨decides.holds, fun same => ?_⟩
    cases next.holds.eq_of_id decides.holds same
    exact rooted.last_not_pending (next.parent_eq ▸ decides.parent_eq ▸ next.holds.mem)
  have kept : ∀ root ∈ manager.siblings proposal.id, ∀ before : Manager,
      before.Linked (accepted ++ [proposal]) ∧ before.Holds option →
      (Manager.discard true before root).1.Linked (accepted ++ [proposal]) ∧
        (Manager.discard true before root).1.Holds option := by
    intro root beside before both
    obtain ⟨linked, holds⟩ := both
    obtain ⟨listed, apart⟩ := List.mem_filter.mp beside
    obtain ⟨sibling, held, rfl, under⟩ := rooted.children listed
    refine ⟨linked.discard true _, (holds_discard true _).mpr ⟨holds, ?_⟩⟩
    apply linked.not_mem_branch_of_parent holds decides.edges_eq
    · intro same
      cases decides.holds.eq_of_id held same
      exact rooted.last_not_pending (under ▸ decides.parent_eq ▸ next.holds.mem)
    · rw [decides.parent_eq]
      refine linked.accepted_not_mem_branch (List.mem_append_right _ List.mem_cons_self) ?_
      exact Ne.symm (of_decide_eq_true apart)
  have remains := sequence_induction
    (fun after => after.Linked (accepted ++ [proposal]) ∧ after.Holds option) kept
    ⟨rooted.depart next, departed⟩
  refine ⟨remains.2, decides.parent_eq, fun edge edged => ?_⟩
  rw [decides.edges_eq] at edged
  exact absurd edged List.not_mem_nil

theorem Holds.of_settleUnit {other : DecisionUnit}
    (holds : (manager.settleUnit unit.held).1.Holds other) : manager.Holds other := by
  have remains : ((manager.depart unit.held).sequence (Manager.discard true)
      (manager.siblings unit.id)).1.Holds other := holds
  exact (holds_depart.mp remains.of_discardEach.1).1

theorem settle_unit (manager : Manager) (batch : Batch) (unit : DecisionUnit) :
    (manager.settle { batch, dismissed := none, accepted := [unit.held] }).1 =
      (manager.settleUnit unit.held).1 := rfl

theorem settle_option (manager : Manager) (batch : Batch) (dismissed : Option UnitId)
    (proposal option : DecisionUnit) :
    (manager.settle { batch, dismissed, accepted := [proposal.held, option.held] }).1 =
      (((manager.sequence (discard true) dismissed.toList).1.settleUnit proposal.held).1.settleUnit
        option.held).1 := rfl

theorem lastAccepted_settle {plan : AcceptPlan} (plans : manager.Plans unit plan) :
    (manager.settle plan).1.lastAccepted = unit := by
  cases plans with
  | unit next execution => rfl
  | option next kind decides => rfl

theorem Holds.of_settle {plan : AcceptPlan} {other : DecisionUnit}
    (plans : manager.Plans unit plan) (holds : (manager.settle plan).1.Holds other) :
    manager.Holds other := by
  cases plans with
  | unit next execution =>
      rw [settle_unit] at holds
      exact holds.of_settleUnit
  | option next kind decides =>
      rw [settle_option] at holds
      exact holds.of_settleUnit.of_settleUnit.of_discardEach.1

/-- A settled plan leaves a tree on top of a longer chronicle. -/
theorem Rooted.settle (rooted : manager.Rooted accepted) (chronicle : Chronicle accepted)
    {plan : AcceptPlan} (plans : manager.Plans unit plan) :
    (manager.settle plan).1.Rooted (accepted ++ plan.accepted.map (·.unit)) ∧
      Chronicle (accepted ++ plan.accepted.map (·.unit)) := by
  cases plans with
  | unit next execution =>
      rw [settle_unit]
      exact ⟨rooted.settleUnit next, rooted.chronicle_next chronicle next⟩
  | option next kind decides =>
      rw [settle_option]
      obtain ⟨decidedRooted, decidedNext, decidedOption⟩ := rooted.dismiss next kind decides rfl
      have above := decidedRooted.settleUnit decidedNext
      have longer := decidedRooted.chronicle_next chronicle decidedNext
      have top := decidedRooted.option_next decidedNext decidedOption
      have final := above.settleUnit top
      have longest := above.chronicle_next longer top
      rw [List.append_assoc] at final longest
      exact ⟨final, longest⟩

end Settle

end DecisionLedger.Manager
