import DecisionLedger.Proofs.Agreement
import DecisionLedger.Proofs.Atomicity

/-! # What a turn announces

A manager says of a unit that it was verified when the unit becomes pending, and that it was
accepted or rejected when it stops being so.  A branch may lead to a unit along several links, but
the unit is pending on the first visit only, and nothing is said of it on the others.
-/

namespace DecisionLedger

namespace Event

def unit? : Event → Option UnitId
  | verified _ unit _ _ | accepted _ unit _ _ | rejected _ unit _ => some unit
  | halted .. => none

def isRejection : Event → Bool
  | rejected .. => true
  | verified .. | accepted .. | halted .. => false

/-- The events about one unit, in order. -/
def about (id : UnitId) (events : List Event) : List Event :=
  events.filter fun event => event.unit? = some id

def verify (chain : ChainId) (unit : DecisionUnit) : Event :=
  .verified chain unit.id unit.height unit.kind

def accept (chain : ChainId) (unit : DecisionUnit) : Event :=
  .accepted chain unit.id unit.height unit.kind

def reject (chain : ChainId) (unit : DecisionUnit) : Event :=
  .rejected chain unit.id unit.height

variable {id : UnitId} {chain : ChainId} {unit : DecisionUnit}

@[simp] theorem about_nil (id : UnitId) : about id [] = [] := rfl

@[simp] theorem about_append (id : UnitId) (earlier later : List Event) :
    about id (earlier ++ later) = about id earlier ++ about id later :=
  List.filter_append _ _

theorem about_of_eq {event : Event} (own : event.unit? = some id) : about id [event] = [event] := by
  simp [about, own]

theorem about_of_ne {event : Event} {other : UnitId} (own : event.unit? = some other)
    (different : other ≠ id) : about id [event] = [] := by
  simp [about, own, different]

theorem about_of_unit?_eq_none {events : List Event}
    (general : ∀ event ∈ events, event.unit? = none) (id : UnitId) : about id events = [] := by
  refine List.filter_eq_nil_iff.mpr fun event inside => ?_
  simp [general event inside]

end Event

namespace Manager

/-- Some pending units stop being so, and of each of these it is said why: it is among those that
are accepted, or it is rejected. -/
structure Ends (chain : ChainId) (manager after : Manager) (further : List DecisionUnit)
    (events : List Event) : Prop where
  kept : ∀ {id : UnitId}, id ∈ after.pending → after.pending[id]? = manager.pending[id]?
  taken : ∀ unit ∈ further, manager.Holds unit ∧ unit.id ∉ after.pending
  silent : ∀ {id : UnitId}, id ∉ manager.pending ∨ id ∈ after.pending → Event.about id events = []
  told : ∀ {unit}, manager.Holds unit → unit.id ∉ after.pending →
    (unit ∈ further ∧ Event.about unit.id events = [.accept chain unit]) ∨
      (unit ∉ further ∧ Event.about unit.id events = [.reject chain unit])

section Ends

variable {chain : ChainId} {manager middle after : Manager} {earlier later : List DecisionUnit}
  {before events : List Event} {unit : DecisionUnit}

theorem Ends.refl (chain : ChainId) (manager : Manager) : Ends chain manager manager [] [] where
  kept _ := rfl
  taken _ inside := absurd inside List.not_mem_nil
  silent _ := rfl
  told holds gone := absurd holds.mem gone

theorem Ends.mem (ends : Ends chain manager after later events) {id : UnitId}
    (present : id ∈ after.pending) : id ∈ manager.pending := by
  rw [Std.ExtTreeMap.mem_iff_isSome_getElem?, ← ends.kept present]
  exact Std.ExtTreeMap.mem_iff_isSome_getElem?.mp present

theorem Ends.stays (ends : Ends chain manager after later events) (holds : manager.Holds unit)
    (present : unit.id ∈ after.pending) : after.Holds unit :=
  (ends.kept present).trans holds

theorem Ends.holds (ends : Ends chain manager after later events) (holds : after.Holds unit) :
    manager.Holds unit :=
  (ends.kept holds.mem).symm.trans holds

/-- What stops being pending in one of two turns stops being so in both together. -/
theorem Ends.trans (first : Ends chain manager middle earlier before)
    (second : Ends chain middle after later events) :
    Ends chain manager after (earlier ++ later) (before ++ events) where
  kept present := (second.kept present).trans (first.kept (second.mem present))
  taken := by
    intro unit inside
    rcases List.mem_append.mp inside with old | new
    · obtain ⟨holds, gone⟩ := first.taken unit old
      exact ⟨holds, fun present => gone (second.mem present)⟩
    · obtain ⟨holds, gone⟩ := second.taken unit new
      exact ⟨first.holds holds, gone⟩
  silent := by
    intro id apart
    rw [Event.about_append]
    rcases apart with absent | present
    · rw [first.silent (.inl absent), second.silent (.inl fun held => absent (first.mem held))]
      rfl
    · rw [first.silent (.inr (second.mem present)), second.silent (.inr present)]
      rfl
  told := by
    intro unit holds gone
    rw [Event.about_append]
    by_cases present : unit.id ∈ middle.pending
    · rw [first.silent (.inr present), List.nil_append]
      refine (second.told (first.stays holds present) gone).imp ?_ ?_
      · exact fun told => ⟨List.mem_append_right _ told.1, told.2⟩
      · refine fun told => ⟨fun inside => ?_, told.2⟩
        rcases List.mem_append.mp inside with old | new
        · exact (first.taken unit old).2 present
        · exact told.1 new
    · rw [second.silent (.inl present), List.append_nil]
      refine (first.told holds present).imp ?_ ?_
      · exact fun told => ⟨List.mem_append_left _ told.1, told.2⟩
      · refine fun told => ⟨fun inside => ?_, told.2⟩
        rcases List.mem_append.mp inside with old | new
        · exact told.1 old
        · exact present (second.taken unit new).1.mem

theorem Ends.sequence {α : Type} {act : Manager → α → Manager × List Event}
    (acted : ∀ before argument, before.config.chain = chain →
      Ends chain before (act before argument).1 [] (act before argument).2)
    (named : ∀ before argument, (act before argument).1.config = before.config)
    (own : manager.config.chain = chain) (arguments : List α) :
    Ends chain manager (manager.sequence act arguments).1 []
      (manager.sequence act arguments).2 := by
  induction arguments generalizing manager with
  | nil => exact .refl chain manager
  | cons argument rest ih =>
      have next := congrArg Configuration.chain (named manager argument)
      exact (acted manager argument own).trans (ih (next.trans own))

theorem ends_discardUnit (root : UnitId) (automatic : Bool) (own : manager.config.chain = chain)
    (id : UnitId) :
    Ends chain manager (discardUnit root automatic manager id).1 []
      (discardUnit root automatic manager id).2 := by
  cases found : manager.pending[id]? with
  | none =>
      have rests : discardUnit root automatic manager id = (manager, []) := by
        simp [discardUnit, found]
      rw [rests]
      exact .refl chain manager
  | some pending =>
      have saying : (discardUnit root automatic manager id).2 =
          [.rejected chain id pending.unit.height] := by
        simp [discardUnit, found, own]
      have remains (other : UnitId) :
          other ∈ (discardUnit root automatic manager id).1.pending ↔
            id ≠ other ∧ other ∈ manager.pending :=
        mem_pending_discardUnit root automatic manager id other
      refine ⟨fun {other} present => ?_, fun _ inside => absurd inside List.not_mem_nil,
        fun {other} apart => ?_, fun {unit} holds gone => .inr ⟨List.not_mem_nil, ?_⟩⟩
      · rw [pending_discardUnit, if_neg ((remains other).mp present).1]
      · have different : id ≠ other := by
          rintro rfl
          rcases apart with absent | present
          · exact absent (Std.ExtTreeMap.mem_iff_isSome_getElem?.mpr (found ▸ rfl))
          · exact ((remains id).mp present).1 rfl
        rw [saying]
        exact Event.about_of_ne rfl different
      · have same : id = unit.id := by
          by_contra different
          exact gone ((remains unit.id).mpr ⟨different, holds.mem⟩)
        subst same
        rw [holds] at found
        cases found
        rw [saying]
        exact Event.about_of_eq rfl

theorem ends_discard (automatic : Bool) (own : manager.config.chain = chain) (root : UnitId) :
    Ends chain manager (Manager.discard automatic manager root).1 []
      (Manager.discard automatic manager root).2 :=
  .sequence (fun _ id own => ends_discardUnit root automatic own id)
    (fun before id => congrArg Prod.fst (settings_discardUnit root automatic before id)) own _

theorem ends_discardEach (automatic : Bool) (own : manager.config.chain = chain)
    (roots : List UnitId) :
    Ends chain manager (manager.sequence (Manager.discard automatic) roots).1 []
      (manager.sequence (Manager.discard automatic) roots).2 :=
  .sequence (fun _ root own => ends_discard automatic own root)
    (fun before root => congrArg Prod.fst (settings_discard automatic before root)) own roots

/-- The unit that is settled is accepted, and whatever else goes is rejected. -/
theorem ends_settleUnit (own : manager.config.chain = chain) (holds : manager.Holds unit) :
    Ends chain manager (manager.settleUnit unit.held).1 [unit]
      (manager.settleUnit unit.held).2 := by
  have named : (manager.depart unit.held).config.chain = chain := own
  have alone := ends_discardEach true named (manager.siblings unit.id)
  generalize rejections : (manager.depart unit.held).sequence (Manager.discard true)
    (manager.siblings unit.id) = pruned at alone
  have pending : (manager.settleUnit unit.held).1.pending = pruned.1.pending := by
    rw [← rejections]
    rfl
  have saying : (manager.settleUnit unit.held).2 = pruned.2 ++ [.accept chain unit] := by
    rw [← rejections, ← own]
    rfl
  have gone : unit.id ∉ pruned.1.pending :=
    fun present => (mem_pending_depart.mp (alone.mem present)).2 rfl
  have quiet : Event.about unit.id pruned.2 = [] :=
    alone.silent (.inl fun present => (mem_pending_depart.mp present).2 rfl)
  refine ⟨fun {id} present => ?_, fun other inside => ?_, fun {id} apart => ?_,
    fun {other} held left => ?_⟩
  · rw [pending] at present ⊢
    have different := (mem_pending_depart.mp (alone.mem present)).2
    rw [alone.kept present]
    simp [Manager.depart, DecisionUnit.held, Std.ExtTreeMap.getElem?_erase, different]
  · cases List.mem_singleton.mp inside
    exact ⟨holds, pending ▸ gone⟩
  · rw [pending] at apart
    have different : unit.id ≠ id := by
      rintro rfl
      rcases apart with absent | present
      · exact absent holds.mem
      · exact gone present
    have before : id ∉ (manager.depart unit.held).pending ∨ id ∈ pruned.1.pending :=
      apart.imp_left fun absent present => absent (mem_pending_depart.mp present).1
    rw [saying, Event.about_append, alone.silent before]
    exact Event.about_of_ne rfl different
  · rw [pending] at left
    rw [saying, Event.about_append]
    by_cases same : unit.id = other.id
    · cases holds.eq_of_id held same
      rw [quiet]
      exact .inl ⟨List.mem_cons_self, Event.about_of_eq rfl⟩
    · have apart : Event.about other.id [.accept chain unit] = [] := Event.about_of_ne rfl same
      rw [apart, List.append_nil]
      have departed := holds_depart.mpr ⟨held, same⟩
      refine .inr ⟨fun inside => ?_, ?_⟩
      · exact same (congrArg DecisionUnit.id (List.mem_singleton.mp inside).symm)
      · exact ((alone.told departed left).resolve_left fun told =>
          absurd told.1 List.not_mem_nil).2

end Ends

/-- The option not taken goes first, so none is left beside the option that is accepted. -/
theorem Rooted.siblings_option {manager decided : Manager} {accepted : List DecisionUnit}
    {proposal option : DecisionUnit} {choice : Choice} (rooted : manager.Rooted accepted)
    (next : manager.Next proposal) (kind : proposal.kind = .proposal)
    (decides : manager.OptionOf proposal option choice)
    (dismissal : (manager.sequence (Manager.discard true)
      (manager.optionOf? proposal.id choice.other).toList).1 = decided) :
    (decided.settleUnit proposal.held).1.siblings option.id = [] := by
  obtain ⟨decidedRooted, decidedNext, decidedOption⟩ := rooted.dismiss next kind decides dismissal
  have above := decidedRooted.settleUnit decidedNext
  refine List.filter_eq_nil_iff.mpr fun child listed => ?_
  obtain ⟨unit, holds, rfl, under⟩ := above.children listed
  have remains : decided.Holds unit := holds.of_settleUnit
  rw [← dismissal] at remains
  obtain ⟨before, kept⟩ := remains.of_discardEach
  by_cases same : unit.id = option.id
  · simp [same]
  · -- whoever else stands there was found, and discarded with its branch
    have found := (rooted.optionOf?_other_iff next.holds kind decides before).mpr ⟨under, same⟩
    rw [found] at kept
    exact absurd List.mem_cons_self kept

section Settle

variable {chain : ChainId} {manager : Manager} {accepted : List DecisionUnit}
  {unit : DecisionUnit} {plan : AcceptPlan}

theorem events_settle_unit (manager : Manager) (batch : Batch) (unit : DecisionUnit) :
    (manager.settle { batch, dismissed := none, accepted := [unit.held] }).2 =
      (manager.settleUnit unit.held).2 :=
  List.append_nil _

theorem events_settle_option (manager : Manager) (batch : Batch) (dismissed : Option UnitId)
    (proposal option : DecisionUnit) :
    (manager.settle { batch, dismissed, accepted := [proposal.held, option.held] }).2 =
      let decided := manager.sequence (discard true) dismissed.toList
      let above := decided.1.settleUnit proposal.held
      decided.2 ++ (above.2 ++ (above.1.settleUnit option.held).2) := by
  simp [settle, sequence]

theorem Rooted.ends_settle (rooted : manager.Rooted accepted)
    (own : manager.config.chain = chain) (plans : manager.Plans unit plan) :
    Ends chain manager (manager.settle plan).1 (plan.accepted.map (·.unit))
      (manager.settle plan).2 := by
  cases plans with
  | unit next execution =>
      rw [settle_unit, events_settle_unit]
      exact ends_settleUnit own next.holds
  | @option proposal _ choice next kind decides =>
      obtain ⟨decidedRooted, decidedNext, decidedOption⟩ := rooted.dismiss next kind decides rfl
      have top := decidedRooted.option_next decidedNext decidedOption
      have dismissed :=
        ends_discardEach true own (manager.optionOf? proposal.id choice.other).toList
      have named : (manager.sequence (Manager.discard true)
          (manager.optionOf? proposal.id choice.other).toList).1.config.chain = chain :=
        (congrArg (·.1.chain) (settings_discardEach true manager _)).trans own
      have first := ends_settleUnit named decidedNext.holds
      have second := ends_settleUnit
        ((congrArg Configuration.chain (config_settleUnit _ proposal.held)).trans named) top.holds
      rw [settle_option, events_settle_option]
      exact dismissed.trans (first.trans second)

theorem isRejection_of_mem_discard (automatic : Bool) (manager : Manager) (root : UnitId) :
    ∀ event ∈ (Manager.discard automatic manager root).2, event.isRejection = true := by
  refine sequence_events (fun event => event.isRejection = true)
    (fun before unit event inside => ?_) _ _
  unfold discardUnit at inside
  split at inside
  · cases inside
  · cases List.mem_singleton.mp inside
    rfl

theorem isRejection_of_mem_discardEach (automatic : Bool) (manager : Manager)
    (roots : List UnitId) :
    ∀ event ∈ (manager.sequence (Manager.discard automatic) roots).2, event.isRejection = true :=
  sequence_events _ (isRejection_of_mem_discard automatic) manager roots

theorem events_settleUnit (own : manager.config.chain = chain) (unit : DecisionUnit) :
    ∃ rejections : List Event, (∀ event ∈ rejections, event.isRejection = true) ∧
      (manager.settleUnit unit.held).2 = rejections ++ [.accept chain unit] := by
  subst own
  exact ⟨_, isRejection_of_mem_discardEach true (manager.depart unit.held)
    (manager.siblings unit.id), rfl⟩

theorem events_settleUnit_alone (own : manager.config.chain = chain)
    (alone : manager.siblings unit.id = []) :
    (manager.settleUnit unit.held).2 = [.accept chain unit] := by
  subst own
  have none : ((manager.depart unit.held).sequence (Manager.discard true)
      (manager.siblings unit.id)).2 = [] := by
    rw [alone]
    rfl
  exact congrArg (· ++ [_]) none

/-- When a plan is settled, first all is announced that is rejected, and then what is accepted. -/
theorem Rooted.settle_events (rooted : manager.Rooted accepted)
    (own : manager.config.chain = chain) (plans : manager.Plans unit plan) :
    ∃ rejections : List Event, (∀ event ∈ rejections, event.isRejection = true) ∧
      (manager.settle plan).2 =
        rejections ++ (plan.accepted.map (·.unit)).map (Event.accept chain) := by
  cases plans with
  | unit next execution =>
      rw [events_settle_unit]
      exact events_settleUnit own unit
  | @option proposal _ choice next kind decides =>
      have named : (manager.sequence (Manager.discard true)
          (manager.optionOf? proposal.id choice.other).toList).1.config.chain = chain :=
        (congrArg (·.1.chain) (settings_discardEach true manager _)).trans own
      obtain ⟨rejections, rejected, first⟩ := events_settleUnit named proposal
      have second := events_settleUnit_alone
        ((congrArg Configuration.chain (config_settleUnit _ proposal.held)).trans named)
        (rooted.siblings_option next kind decides rfl)
      refine ⟨(manager.sequence (Manager.discard true)
        (manager.optionOf? proposal.id choice.other).toList).2 ++ rejections, ?_, ?_⟩
      · intro event inside
        rcases List.mem_append.mp inside with dismissal | rejection
        · exact isRejection_of_mem_discardEach true _ _ event dismissal
        · exact rejected event rejection
      · rw [events_settle_option, List.append_assoc]
        dsimp only
        rw [first, second, List.append_assoc]
        rfl

end Settle

end Manager

end DecisionLedger
