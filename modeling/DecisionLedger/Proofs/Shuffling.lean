import DecisionLedger.Proofs.Displacement
import DecisionLedger.Proofs.Indifference
import DecisionLedger.Proofs.NodeHost
import DecisionLedger.Proofs.Rosters

/-! # The order of lists

A manager lists the units under a unit in the order in which they were verified.  The order shows in
the order of events and in what is asked of the lists themselves, and nowhere else: managers that
differ in it alone verify, plan, reject and settle alike, and differ in it alone afterwards.
-/

namespace DecisionLedger

namespace Links

variable {left right : Links}

theorem perm_add (same : ∀ unit, (left.of unit).Perm (right.of unit)) (unit child above : UnitId) :
    ((left.add unit child).of above).Perm ((right.add unit child).of above) := by
  simp only [of_add, (same unit).mem_iff]
  split
  · split
    · exact same unit
    · exact (same unit).append_right [child]
  · exact same above

theorem perm_addEach (same : ∀ unit, (left.of unit).Perm (right.of unit)) (units : List UnitId)
    (child above : UnitId) :
    ((units.foldl (fun links unit => links.add unit child) left).of above).Perm
      ((units.foldl (fun links unit => links.add unit child) right).of above) := by
  induction units generalizing left right with
  | nil => exact same above
  | cons unit rest ih => exact ih (perm_add same unit child)

theorem perm_erase (same : ∀ unit, (left.of unit).Perm (right.of unit)) (gone above : UnitId) :
    (Links.of (left.erase gone) above).Perm (Links.of (right.erase gone) above) := by
  simp only [of_erase]
  split
  · exact .refl []
  · exact same above

end Links

namespace Manager

/-- Two managers that differ at most in the order of the units under each unit. -/
inductive Shuffled (manager : Manager) : Manager → Prop where
  | intro (children referencedBy : Links) :
      (∀ unit, (manager.children.of unit).Perm (children.of unit)) →
      (∀ unit, (manager.referencedBy.of unit).Perm (referencedBy.of unit)) →
      Shuffled manager { manager with children, referencedBy }

/-- What is left of a manager once some units have been rejected one after another; `awaits` says
which of them await their own rejection. -/
structure Withers (awaits : UnitId → Bool) (before after : Manager) : Prop where
  settings : after.settings = before.settings
  kept : ∀ {id : UnitId}, id ∈ after.pending → after.pending[id]? = before.pending[id]?
  children : ∀ above,
    after.children.of above = (before.children.of above).filter after.isPending
  referencedBy : ∀ id : UnitId, after.referencedBy.of id =
    if id ∈ before.pending ∧ id ∉ after.pending then [] else before.referencedBy.of id
  rejected : ∀ id : UnitId, after.rejected[id]? =
    match before.pending[id]? with
    | some pending =>
      if id ∈ after.pending then before.rejected[id]?
      else some { unit := pending.unit, awaiting := awaits id }
    | none => before.rejected[id]?

section Withers

variable {awaits : UnitId → Bool} {before between after manager : Manager}
  {accepted : List DecisionUnit} {id root : UnitId}

theorem Withers.mem (withers : Withers awaits before after) (present : id ∈ after.pending) :
    id ∈ before.pending := by
  rw [Std.ExtTreeMap.mem_iff_isSome_getElem?, ← withers.kept present,
    ← Std.ExtTreeMap.mem_iff_isSome_getElem?]
  exact present

theorem Linked.withers_refl (linked : manager.Linked accepted) :
    Withers awaits manager manager where
  settings := rfl
  kept _ := rfl
  children := linked.prunes_refl.children
  referencedBy id := by simp
  rejected id := by
    cases found : manager.pending[id]? with
    | none => rfl
    | some pending => simp [mem_pending_of_getElem? found]

theorem Withers.trans (first : Withers awaits before between)
    (second : Withers awaits between after) : Withers awaits before after where
  settings := second.settings.trans first.settings
  kept present := (second.kept present).trans (first.kept (second.mem present))
  children := by
    intro above
    rw [second.children, first.children, List.filter_filter]
    refine List.filter_congr fun child _ => ?_
    rw [Bool.and_eq_left_iff_imp, isPending, isPending, Std.ExtTreeMap.contains_iff_mem,
      Std.ExtTreeMap.contains_iff_mem]
    exact second.mem
  referencedBy := by
    intro id
    have later : id ∈ after.pending → id ∈ between.pending := second.mem
    have earlier : id ∈ between.pending → id ∈ before.pending := first.mem
    rw [second.referencedBy, first.referencedBy]
    grind
  rejected := by
    intro id
    have later : id ∈ after.pending → id ∈ between.pending := second.mem
    rw [second.rejected, first.rejected]
    by_cases middle : id ∈ between.pending
    · rw [first.kept middle]
      cases before.pending[id]? <;> simp [middle]
    · rw [Std.ExtTreeMap.getElem?_eq_none middle]
      cases before.pending[id]? <;> simp [middle, mt later middle]

theorem Linked.withers_discard (linked : manager.Linked accepted) (automatic : Bool)
    (root : UnitId) :
    Withers (fun id => automatic || id ≠ root) manager
      (Manager.discard automatic manager root).1 where
  settings := settings_discard automatic manager root
  kept := by
    intro id present
    rw [pending_discard, if_neg ((mem_pending_discard automatic manager root).mp present).2]
  children := linked.childrenOf_discard automatic root
  referencedBy := by
    intro id
    rw [referencedBy_discard]
    refine if_congr ?_ rfl rfl
    rw [mem_pending_discard]
    tauto
  rejected := by
    intro id
    rw [rejected_discard]
    simp only [mem_pending_discard]
    by_cases inside : id ∈ manager.branch root
    · cases manager.pending[id]? <;> simp [inside]
    · cases found : manager.pending[id]? with
      | none => simp [inside]
      | some pending => simp [inside, mem_pending_of_getElem? found]

theorem Linked.withers_discardEach (linked : manager.Linked accepted) (roots : List UnitId) :
    Withers (fun _ => true) manager (manager.sequence (Manager.discard true) roots).1 := by
  induction roots generalizing manager with
  | nil => exact linked.withers_refl
  | cons root rest ih =>
      exact (linked.withers_discard true root).trans (ih (linked.discard true root))

end Withers

theorem eq_with_lists {left right : Manager} (settings : right.settings = left.settings)
    (pending : right.pending = left.pending) (consumedBy : right.consumedBy = left.consumedBy)
    (rejected : right.rejected = left.rejected) :
    right = { left with children := right.children, referencedBy := right.referencedBy } := by
  cases left
  cases right
  simp_all [Manager.settings]

namespace Shuffled

variable {left right : Manager} {accepted : List DecisionUnit}

theorem of_eq (settings : right.settings = left.settings) (pending : right.pending = left.pending)
    (consumedBy : right.consumedBy = left.consumedBy) (rejected : right.rejected = left.rejected)
    (children : ∀ unit, (left.children.of unit).Perm (right.children.of unit))
    (referencedBy : ∀ unit, (left.referencedBy.of unit).Perm (right.referencedBy.of unit)) :
    left.Shuffled right := by
  rw [eq_with_lists settings pending consumedBy rejected]
  exact .intro right.children right.referencedBy children referencedBy

theorem linked (shuffled : left.Shuffled right) (linked : left.Linked accepted) :
    right.Linked accepted := by
  cases shuffled with
  | intro children referencedBy sameChildren sameReferences =>
      exact {
        keyed := linked.keyed, parent := linked.parent, edges := linked.edges
        children := fun listed => linked.children ((sameChildren _).mem_iff.mpr listed)
        listed := fun holds attached =>
          (sameChildren _).mem_iff.mp (linked.listed holds attached)
        references := fun listed => linked.references ((sameReferences _).mem_iff.mpr listed)
        referenced := fun holds held edged =>
          (sameReferences _).mem_iff.mp (linked.referenced holds held edged)
        options := linked.options, settled := linked.settled, rejected := linked.rejected }

theorem claimed (shuffled : left.Shuffled right) (claimed : left.Claimed) : right.Claimed := by
  cases shuffled
  exact ⟨claimed.keyed, claimed.claimed⟩

theorem pending_eq (shuffled : left.Shuffled right) : right.pending = left.pending := by
  cases shuffled
  rfl

theorem settings_eq (shuffled : left.Shuffled right) : right.settings = left.settings := by
  cases shuffled
  rfl

theorem ensureRunning_eq (shuffled : left.Shuffled right) :
    right.ensureRunning = left.ensureRunning := by
  cases shuffled
  rfl

/-- What goes with some roots does not depend on the order of lists. -/
theorem depends (shuffled : left.Shuffled right) {roots : Set UnitId} {id : UnitId}
    (depends : right.Depends roots id) : left.Depends roots id := by
  have same : Sheds left right fun _ => False :=
    ⟨fun absurdity => absurdity.elim, fun _ => by rw [shuffled.pending_eq]⟩
  exact same.depends depends

theorem symm (shuffled : left.Shuffled right) : right.Shuffled left := by
  cases shuffled with
  | intro children referencedBy sameChildren sameReferences =>
      exact .of_eq rfl rfl rfl rfl (fun unit => (sameChildren unit).symm)
        fun unit => (sameReferences unit).symm

/-- What is left of two shuffled managers is shuffled, if the same units are left. -/
theorem wither {awaits : UnitId → Bool} {mine theirs : Manager} (shuffled : left.Shuffled right)
    (first : Withers awaits left mine) (second : Withers awaits right theirs)
    (same : ∀ id, id ∈ theirs.pending ↔ id ∈ mine.pending)
    (claimed : mine.Claimed) (others : theirs.Claimed) : mine.Shuffled theirs := by
  have pending : theirs.pending = mine.pending := by
    apply Std.ExtTreeMap.ext_getElem?
    intro id
    by_cases present : id ∈ mine.pending
    · rw [first.kept present, second.kept ((same id).mpr present), shuffled.pending_eq]
    · rw [Std.ExtTreeMap.getElem?_eq_none present,
        Std.ExtTreeMap.getElem?_eq_none (mt (same id).mp present)]
  have present : theirs.isPending = mine.isPending := by
    funext id
    rw [isPending, isPending, pending]
  refine of_eq ?_ pending ?_ ?_ (fun above => ?_) (fun id => ?_)
  · rw [first.settings, second.settings, shuffled.settings_eq]
  · apply Std.ExtTreeMap.ext_getElem?
    intro key
    apply Option.ext
    intro id
    rw [others.claimed, claimed.claimed, pending]
  · apply Std.ExtTreeMap.ext_getElem?
    intro id
    rw [first.rejected, second.rejected, pending]
    cases shuffled
    rfl
  · rw [first.children, second.children, present]
    cases shuffled with
    | intro children referencedBy sameChildren sameReferences =>
        exact (sameChildren above).filter mine.isPending
  · rw [first.referencedBy, second.referencedBy, pending, shuffled.pending_eq]
    split
    · exact .refl []
    · cases shuffled with
      | intro children referencedBy sameChildren sameReferences => exact sameReferences id

theorem discard (shuffled : left.Shuffled right) (linked : left.Linked accepted)
    (claimed : left.Claimed) (automatic : Bool) {root : UnitId}
    (apart : ∀ unit ∈ accepted, unit.id ≠ root) :
    (Manager.discard automatic left root).1.Shuffled (Manager.discard automatic right root).1 := by
  have other := shuffled.linked linked
  refine shuffled.wither (linked.withers_discard automatic root)
    (other.withers_discard automatic root) (fun id => ?_) (claimed.discard automatic root)
    ((shuffled.claimed claimed).discard automatic root)
  rw [(linked.prunes_discard automatic apart).mem_iff,
    (other.prunes_discard automatic apart).mem_iff,
    shuffled.pending_eq]
  exact and_congr_right' (not_congr ⟨shuffled.depends, shuffled.symm.depends⟩)

theorem discardEach (shuffled : left.Shuffled right) (linked : left.Linked accepted)
    (claimed : left.Claimed) {roots others : List UnitId} (same : roots.Perm others)
    (apart : ∀ root ∈ roots, ∀ unit ∈ accepted, unit.id ≠ root) :
    (left.sequence (Manager.discard true) roots).1.Shuffled
      (right.sequence (Manager.discard true) others).1 := by
  have other := shuffled.linked linked
  have kept : ∀ {manager : Manager} (roots : List UnitId), manager.Claimed →
      (manager.sequence (Manager.discard true) roots).1.Claimed := fun roots start =>
    sequence_induction Claimed (fun root _ _ before => before.discard true root) start
  refine shuffled.wither (linked.withers_discardEach roots) (other.withers_discardEach others)
    (fun id => ?_) (kept roots claimed) (kept others (shuffled.claimed claimed))
  have away : ∀ root ∈ others, ∀ unit ∈ accepted, unit.id ≠ root :=
    fun root inside => apart root (same.mem_iff.mpr inside)
  rw [(linked.prunes_discardEach true roots apart).mem_iff,
    (other.prunes_discardEach true others away).mem_iff, shuffled.pending_eq]
  have rootsEq : ({id | id ∈ others} : Set UnitId) = {id | id ∈ roots} := by
    ext root
    exact same.mem_iff.symm
  rw [rootsEq]
  exact and_congr_right' (not_congr ⟨shuffled.depends, shuffled.symm.depends⟩)

section Questions

variable {store : Store}

/-- A proposal has at most one pending option for a choice, wherever that is listed. -/
theorem optionOf?_of_eq (shuffled : left.Shuffled right) (linked : left.Linked accepted)
    {proposal id : UnitId} {choice : Choice} (found : left.optionOf? proposal choice = some id) :
    right.optionOf? proposal choice = some id := by
  have next := shuffled.linked linked
  obtain ⟨unit, holds, rfl, under, chosen⟩ := linked.exists_of_optionOf? found
  cases shuffled with
  | intro children referencedBy sameChildren sameReferences =>
      have listed : unit.id ∈ children.of proposal :=
        (sameChildren proposal).mem_iff.mp (List.mem_of_find?_eq_some found)
      cases also : optionOf? { left with children, referencedBy } proposal choice with
      | none => exact absurd chosen (not_option_of_optionOf? also holds listed)
      | some id =>
          obtain ⟨other, held, rfl, beside, taken⟩ := next.exists_of_optionOf? also
          rw [linked.options holds held (under.trans beside.symm) chosen taken]

theorem optionOf?_eq (shuffled : left.Shuffled right) (linked : left.Linked accepted) :
    right.optionOf? = left.optionOf? := by
  funext proposal choice
  apply Option.ext
  intro id
  exact ⟨shuffled.symm.optionOf?_of_eq (shuffled.linked linked), shuffled.optionOf?_of_eq linked⟩

theorem examine_eq (shuffled : left.Shuffled right) (linked : left.Linked accepted)
    (unit : DecisionUnit) : right.examine store unit = left.examine store unit := by
  have options := shuffled.optionOf?_eq linked
  cases shuffled with
  | intro children referencedBy sameChildren sameReferences =>
      unfold examine execute executeOption
      rw [options]
      rfl

theorem plan_eq (shuffled : left.Shuffled right) (linked : left.Linked accepted) (id : UnitId) :
    right.plan store id = left.plan store id := by
  have options := shuffled.optionOf?_eq linked
  cases shuffled with
  | intro children referencedBy sameChildren sameReferences =>
      unfold plan planOption
      rw [options]
      rfl

theorem read_eq (shuffled : left.Shuffled right) (unit : UnitId) (key : StateKey) :
    right.read store unit key = left.read store unit key := by
  cases shuffled
  rfl

theorem lookup_eq (shuffled : left.Shuffled right) (unit : UnitId) :
    right.lookup store unit = left.lookup store unit := by
  cases shuffled
  rfl

end Questions

section Acts

variable {store : Store}

theorem hold (shuffled : left.Shuffled right) (candidate : PendingUnit) :
    (left.hold candidate).Shuffled (right.hold candidate) := by
  cases shuffled with
  | intro children referencedBy sameChildren sameReferences =>
      exact .intro _ _ (Links.perm_add sameChildren _ _) (Links.perm_addEach sameReferences _ _)

theorem depart (shuffled : left.Shuffled right) (pending : PendingUnit) :
    (left.depart pending).Shuffled (right.depart pending) := by
  cases shuffled with
  | intro children referencedBy sameChildren sameReferences =>
      exact .intro _ _ (Links.perm_erase sameChildren _) (Links.perm_erase sameReferences _)

theorem ascend (shuffled : left.Shuffled right) (unit : DecisionUnit) (newest : Height) :
    ((left.ascend unit).evict newest).Shuffled ((right.ascend unit).evict newest) := by
  cases shuffled with
  | intro children referencedBy sameChildren sameReferences =>
      refine .intro _ _ (fun above => ?_) sameReferences
      simpa [Manager.ascend, evict] using sameChildren above

theorem halt (shuffled : left.Shuffled right) (reason : HaltReason) :
    (left.halt reason).1.Shuffled (right.halt reason).1 := by
  have same : right.halted = left.halted := congrArg (·.2.2.2) shuffled.settings_eq
  rcases Option.eq_none_or_eq_some left.halted with running | ⟨earlier, stopped⟩
  · rw [halt_of_running running, halt_of_running (same.trans running)]
    cases shuffled with
    | intro children referencedBy sameChildren sameReferences =>
        exact .intro _ _ sameChildren sameReferences
  · have rests {manager : Manager} (halted : manager.halted = some earlier) :
        (manager.halt reason).1 = manager := by
      simp [Manager.halt, halted]
    rw [rests stopped, rests (same.trans stopped)]
    exact shuffled

theorem siblings (shuffled : left.Shuffled right) (unit : UnitId) :
    (left.siblings unit).Perm (right.siblings unit) := by
  cases shuffled with
  | intro children referencedBy sameChildren sameReferences =>
      exact (sameChildren _).filter _

theorem settleUnit (shuffled : left.Shuffled right) (rooted : left.Rooted accepted)
    (claimed : left.Claimed) {unit : DecisionUnit} (next : left.Next unit) :
    (left.settleUnit unit.held).1.Shuffled (right.settleUnit unit.held).1 := by
  have departed : (left.depart unit.held).Claimed := claimed.leave next.holds rfl rfl
  have pruned := (shuffled.depart unit.held).discardEach (rooted.depart next) departed
    (shuffled.siblings unit.id) rooted.siblings_apart
  rw [settleUnit_eq, settleUnit_eq]
  exact pruned.ascend unit unit.height

theorem settle (shuffled : left.Shuffled right) (rooted : left.Rooted accepted)
    (claimed : left.Claimed) {unit : DecisionUnit} {plan : AcceptPlan}
    (plans : left.Plans unit plan) : (left.settle plan).1.Shuffled (right.settle plan).1 := by
  cases plans with
  | unit next execution => exact shuffled.settleUnit rooted claimed next
  | @option proposal _ choice next kind decides =>
      rw [settle_option, settle_option]
      obtain ⟨decidedRooted, decidedNext, decidedOption⟩ := rooted.dismiss next kind decides rfl
      have dismissed := shuffled.discardEach rooted.toLinked claimed
        (.refl (left.optionOf? proposal.id choice.other).toList) (by
          intro root inside
          obtain ⟨other, holds, rfl, -⟩ := rooted.exists_of_optionOf? (Option.mem_toList.mp inside)
          exact rooted.ne_of_holds holds)
      have given : (left.sequence (Manager.discard true)
          (left.optionOf? proposal.id choice.other).toList).1.Claimed :=
        sequence_induction Claimed (fun root _ _ before => before.discard true root) claimed
      exact (dismissed.settleUnit decidedRooted given decidedNext).settleUnit
        (decidedRooted.settleUnit decidedNext) (given.settleUnit decidedNext.holds)
        (decidedRooted.option_next decidedNext decidedOption)

end Acts

/-- Two outcomes are the same refusal, or leave managers that are shuffled. -/
inductive Matches : Except ManagerError (Manager × List Event) →
    Except ManagerError (Manager × List Event) → Prop where
  | refused (error : ManagerError) : Matches (.error error) (.error error)
  | done {mine theirs : Manager} {events others : List Event} : mine.Shuffled theirs →
      Matches (.ok (mine, events)) (.ok (theirs, others))

theorem verify (shuffled : left.Shuffled right) (linked : left.Linked accepted) (store : Store)
    (unit : DecisionUnit) : Matches (left.verify store unit) (right.verify store unit) := by
  have examined : right.examine store unit = left.examine store unit :=
    shuffled.examine_eq linked unit
  have known : right.isPending unit.id = left.isPending unit.id ∧
      right.isAccepted store unit.id = left.isAccepted store unit.id ∧
      right.rejected = left.rejected := by
    cases shuffled
    exact ⟨rfl, rfl, rfl⟩
  unfold Manager.verify
  rw [shuffled.ensureRunning_eq, examined, known.1, known.2.1, known.2.2]
  cases left.ensureRunning with
  | error error => exact .refused error
  | ok done =>
      dsimp only [bind, Except.bind]
      split
      · exact .done shuffled
      · split
        · exact .refused _
        · cases left.examine store unit with
          | error error => exact .refused error
          | ok candidate => exact .done (shuffled.hold candidate)

theorem reject (shuffled : left.Shuffled right) (linked : left.Linked accepted)
    (claimed : left.Claimed) (id : UnitId) : Matches (left.reject id) (right.reject id) := by
  have known : right.rejected = left.rejected := by
    cases shuffled
    rfl
  unfold Manager.reject
  rw [shuffled.ensureRunning_eq, known, shuffled.pending_eq]
  cases left.ensureRunning with
  | error error => exact .refused error
  | ok done =>
      dsimp only [bind, Except.bind]
      cases left.rejected[id]? with
      | some found =>
          refine .done ?_
          cases shuffled with
          | intro children referencedBy sameChildren sameReferences =>
              exact .intro _ _ sameChildren sameReferences
      | none =>
          cases found : left.pending[id]? with
          | none => exact .refused _
          | some pending =>
              obtain ⟨unit, holds, rfl, rfl⟩ := linked.exists_of_getElem? found
              dsimp only
              split
              · exact .refused _
              · exact .refused _
              · exact .done (shuffled.discard linked claimed false (linked.ne_of_holds holds))

end Shuffled

end Manager

/-- A host that cannot tell some worlds apart, and to which it is the same what is published. -/
structure Host.Deaf {ω : Type} (host : Host ω) (chain : ChainId) (alike : ω → ω → Prop) : Prop
    extends host.Respects chain alike where
  equivalence : Equivalence alike
  published : ∀ (event : Event) (world : ω), alike world (host.publish event world)

/-- Two managers that differ in the order of lists, in worlds that their host confuses. -/
structure Confused {ω : Type} (alike : ω → ω → Prop) (left right : Manager × ω) : Prop where
  shuffled : left.1.Shuffled right.1
  worlds : alike left.2 right.2

/-- A step that takes worlds that are alike to worlds that are alike, as every call does. -/
def Step.Heeds {ω : Type} {host : LawfulHost ω} (alike : ω → ω → Prop) : Step host → Prop
  | .drift change _ => ∀ {left right}, alike left right → alike (change left) (change right)
  | .verify _ | .accept _ | .reject _ => True

section Deaf

variable {ω : Type} {host : LawfulHost ω} {chain : ChainId} {alike : ω → ω → Prop}
  {left right : Manager × ω} {origin : StateUpdates} {accepted : List DecisionUnit}

theorem Host.Deaf.confuses (deaf : host.Deaf chain alike) (events others : List Event)
    {here there : ω} (same : alike here there) :
    alike (host.publishAll events here) (host.publishAll others there) := by
  have rests (events : List Event) (world : ω) : alike world (host.publishAll events world) := by
    induction events generalizing world with
    | nil => exact deaf.equivalence.refl world
    | cons event rest ih => exact deaf.equivalence.trans (deaf.published event world) (ih _)
  exact deaf.equivalence.trans (deaf.equivalence.symm (rests events here))
    (deaf.equivalence.trans same (rests others there))

theorem Confused.conclude (confused : Confused alike left right) (deaf : host.Deaf chain alike)
    {mine theirs : Except ManagerError (Manager × List Event)}
    (matching : Manager.Shuffled.Matches mine theirs) :
    (theirs.map fun _ => ()) = (mine.map fun _ => ()) ∧
      Confused alike (Step.conclude host left mine) (Step.conclude host right theirs) := by
  cases matching with
  | refused error => exact ⟨rfl, confused⟩
  | done shuffled => exact ⟨rfl, shuffled, deaf.confuses _ _ confused.worlds⟩

theorem Confused.accept (confused : Confused alike left right)
    (deaf : host.Deaf left.1.config.chain alike)
    (sound : left.1.Sound origin (host.store left.2) accepted) (claimed : left.1.Claimed)
    (id : UnitId) :
    (right.1.accept host.toHost id right.2).1 = (left.1.accept host.toHost id left.2).1 ∧
      Confused alike (left.1.accept host.toHost id left.2).2
        (right.1.accept host.toHost id right.2).2 := by
  have shuffled := confused.shuffled
  have config : right.1.config = left.1.config := congrArg Prod.fst shuffled.settings_eq
  unfold Manager.accept
  rw [shuffled.ensureRunning_eq, shuffled.plan_eq sound.rooted.toLinked, config,
    deaf.store confused.worlds]
  cases left.1.ensureRunning with
  | error error => exact ⟨rfl, confused⟩
  | ok done =>
      cases planned : left.1.plan (host.store right.2) id with
      | error error => exact ⟨rfl, confused⟩
      | ok plan =>
          rw [← deaf.store confused.worlds] at planned
          obtain ⟨unit, -, plans⟩ := sound.rooted.plan_cases sound.records.toLists planned
          have settled := shuffled.settle sound.rooted claimed plans
          dsimp only
          rcases deaf.write plan.batch confused.worlds with
            ⟨error, failed, also⟩ | ⟨first, second, written, also, worlds⟩
          · rw [failed, also]
            exact ⟨rfl, shuffled.halt _, deaf.confuses _ _ confused.worlds⟩
          · rw [written, also]
            obtain ⟨answer, final⟩ := deaf.deliverAll (plan.accepted.map (·.unit))
              (deaf.confuses (left.1.settle plan).2 (right.1.settle plan).2 worlds)
            dsimp only
            cases told : host.deliverAll left.1.config.chain (plan.accepted.map (·.unit))
                (host.publishAll (left.1.settle plan).2 first) with
            | mk failed delivered =>
                cases heard : host.deliverAll left.1.config.chain (plan.accepted.map (·.unit))
                    (host.publishAll (right.1.settle plan).2 second) with
                | mk missed reached =>
                    rw [told, heard] at answer final
                    dsimp only at answer
                    subst answer
                    cases failed with
                    | none => exact ⟨rfl, settled, final⟩
                    | some failures =>
                        dsimp only
                        split
                        · exact ⟨rfl, settled.halt _, deaf.confuses _ _ final⟩
                        · exact ⟨rfl, settled, final⟩

theorem Confused.call (confused : Confused alike left right)
    (deaf : host.Deaf left.1.config.chain alike)
    (sound : left.1.Sound origin (host.store left.2) accepted) (claimed : left.1.Claimed)
    (call : Call) :
    call.answer host right = call.answer host left ∧
      Confused alike ((call.step host).perform left) ((call.step host).perform right) := by
  have linked := sound.rooted.toLinked
  cases call with
  | accept id => exact confused.accept deaf sound claimed id
  | reject id => exact confused.conclude deaf (confused.shuffled.reject linked claimed id)
  | verify unit =>
      have matching := confused.shuffled.verify linked (host.store left.2) unit
      dsimp only [Call.answer, Call.step, Step.perform]
      rw [← deaf.store confused.worlds]
      exact confused.conclude deaf matching

theorem Confused.perform (confused : Confused alike left right)
    (deaf : host.Deaf left.1.config.chain alike)
    (sound : left.1.Sound origin (host.store left.2) accepted) (claimed : left.1.Claimed)
    {step : Step host} (heeds : step.Heeds alike) :
    Confused alike (step.perform left) (step.perform right) := by
  cases step with
  | verify unit => exact (confused.call deaf sound claimed (.verify unit)).2
  | accept id => exact (confused.call deaf sound claimed (.accept id)).2
  | reject id => exact (confused.call deaf sound claimed (.reject id)).2
  | drift change kept => exact ⟨confused.shuffled, heeds confused.worlds⟩

/-- Managers that differ in the order of lists differ in nothing else after any steps. -/
theorem Confused.run (confused : Confused alike left right)
    (deaf : host.Deaf left.1.config.chain alike)
    (sound : left.1.Sound origin (host.store left.2) accepted) (claimed : left.1.Claimed)
    (steps : List (Step host)) (heeds : ∀ step ∈ steps, step.Heeds alike) :
    Confused alike (Step.run steps left) (Step.run steps right) := by
  induction steps generalizing left right accepted with
  | nil => exact confused
  | cons step rest ih =>
      obtain ⟨further, turn, next⟩ := step.turn_perform left sound
      have config := turn.config_eq sound
      exact ih (confused.perform deaf sound claimed (heeds step List.mem_cons_self))
        (config ▸ deaf) next (claimed.turn sound turn)
        fun later inside => heeds later (List.mem_cons_of_mem step inside)

end Deaf

/-- Two nodes that differ in what they have logged alone. -/
inductive Node.Unlogged (node : Node) : Node → Prop where
  | intro (log : List LogLine) : Unlogged node { node with log }

namespace Node.Unlogged

variable {left right : Node}

theorem equivalence : Equivalence Unlogged where
  refl node := .intro node.log
  symm := by
    rintro left _ ⟨log⟩
    exact .intro left.log
  trans := by
    rintro left _ _ ⟨log⟩ ⟨further⟩
    exact .intro further

theorem report (unlogged : left.Unlogged right) (lines others : List LogLine) :
    (left.report lines).Unlogged (right.report others) := by
  cases unlogged
  exact .intro _

theorem setGroup (unlogged : left.Unlogged right) (group : String)
    (registry : Registry ListenerId) :
    (left.setGroup group registry).Unlogged (right.setGroup group registry) := by
  cases unlogged
  exact .intro _

theorem accept (unlogged : left.Unlogged right) (acceptedAt : Instant) (id : ListenerId)
    (chain : ChainId) (unit : DecisionUnit) :
    (Node.accept acceptedAt id chain unit left).1 = (Node.accept acceptedAt id chain unit right).1 ∧
      (Node.accept acceptedAt id chain unit left).2.Unlogged
        (Node.accept acceptedAt id chain unit right).2 := by
  obtain ⟨log⟩ := unlogged
  have same : Node.disk { left with log } = left.disk := rfl
  unfold Node.accept
  dsimp only
  rw [same]
  cases left.listeners[id]? with
  | none => exact ⟨rfl, .intro log⟩
  | some listener =>
      cases listener with
      | probe probe =>
          dsimp only
          cases probe.failure <;> exact ⟨rfl, .intro log⟩
      | index hosted =>
          dsimp only
          split
          · exact ⟨rfl, .intro log⟩
          · cases hosted.index.accept (left.disk hosted.disk) acceptedAt unit <;>
              exact ⟨rfl, .intro log⟩

/-- What listeners answer and do does not depend on the log. -/
theorem notify (unlogged : left.Unlogged right) (group : String) (chain : ChainId)
    (unit : DecisionUnit) (acceptedAt : Instant) :
    (left.notify group chain unit acceptedAt).1 = (right.notify group chain unit acceptedAt).1 ∧
      (left.notify group chain unit acceptedAt).2.Unlogged
        (right.notify group chain unit acceptedAt).2 := by
  have blind : Registry.Blind (Node.listening acceptedAt) chain unit (fun _ => True) Unlogged := by
    refine ⟨fun _ same => (same.accept _ _ _ _).1, fun _ same => (same.accept _ _ _ _).2, ?_⟩
    rintro listener left _ - ⟨log⟩
    rfl
  have groups : right.group group = left.group group := by
    cases unlogged
    rfl
  obtain ⟨notified, failed, after⟩ := blind.notifyEach (left.group group).registrations
    (fun _ _ _ => trivial) unlogged
  unfold Node.notify Registry.notify
  rw [groups]
  dsimp only at notified failed after ⊢
  rw [notified, failed]
  exact ⟨rfl, (after.setGroup group _).report _ _⟩

end Node.Unlogged

theorem Site.deaf (site : Site) (chain : ChainId) :
    site.lawful.Deaf chain fun left right => left.1.Unlogged right.1 where
  store := by
    rintro ⟨left, outlet⟩ ⟨_, other⟩ ⟨log⟩
    rfl
  write := by
    rintro ⟨left, outlet⟩ ⟨_, other⟩ batch ⟨log⟩
    have same : Node.disk { left with log } = left.disk := rfl
    dsimp only [Site.lawful, Site.host, Node.write]
    rw [same]
    cases (left.disk site.disk).write batch with
    | error error => exact .inl ⟨error, rfl, rfl⟩
    | ok written => exact .inr ⟨_, _, rfl, rfl, .intro log⟩
  answer := by
    rintro ⟨left, outlet⟩ ⟨_, other⟩ unit ⟨log⟩
    exact (Node.Unlogged.notify (.intro log) site.group chain unit left.clock).1
  deliver := by
    rintro ⟨left, outlet⟩ ⟨_, other⟩ unit ⟨log⟩
    exact (Node.Unlogged.notify (.intro log) site.group chain unit left.clock).2
  publish _ same := same.report _ _
  equivalence := ⟨fun world => Node.Unlogged.equivalence.refl world.1,
    Node.Unlogged.equivalence.symm, Node.Unlogged.equivalence.trans⟩
  published _ _ := .intro _

end DecisionLedger
