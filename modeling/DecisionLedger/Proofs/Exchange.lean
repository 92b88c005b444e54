import DecisionLedger.Proofs.Agreement
import DecisionLedger.Proofs.Eligibility
import DecisionLedger.Proofs.Shuffling

/-! # Units that do not stand on each other

Two units that become pending one after the other, and neither of which stands on the other, become
pending in the other order too.  What the order leaves behind is the order of lists, which no later
call depends on.
-/

namespace DecisionLedger

namespace Links

/-- There are lists for the same units, and they differ in order alone. -/
structure Reorders (left right : Links) : Prop where
  mem : ∀ {unit : UnitId}, unit ∈ right ↔ unit ∈ left
  perm : ∀ unit, (left.of unit).Perm (right.of unit)

theorem Reorders.refl (links : Links) : links.Reorders links :=
  ⟨Iff.rfl, fun unit => .refl (links.of unit)⟩

section Hang

variable {links : Links} {units others : List UnitId} {unit child below other above : UnitId}

theorem mem_add : above ∈ links.add unit child ↔ unit = above ∨ above ∈ links := by
  simp [add, Std.ExtTreeMap.mem_insert]

theorem mem_addEach :
    above ∈ units.foldl (fun links unit => links.add unit child) links ↔
      above ∈ units ∨ above ∈ links := by
  induction units generalizing links with
  | nil => simp
  | cons unit rest ih =>
      rw [List.foldl_cons, ih, mem_add, List.mem_cons]
      tauto

theorem perm_add_comm :
    (((links.add unit child).add below other).of above).Perm
      (((links.add below other).add unit child).of above) := by
  have swap : (links.of unit ++ [child, other]).Perm (links.of unit ++ [other, child]) :=
    (List.Perm.swap other child []).append_left _
  simp only [of_add]
  by_cases first : unit = above <;> by_cases second : below = above
  · subst first
    subst second
    by_cases child ∈ links.of below <;> by_cases other ∈ links.of below <;>
      by_cases child = other <;> simp_all [eq_comm]
  · simp [first, second]
  · simp [first, second]
  · simp [first, second]

theorem perm_addEach_add :
    (others.foldl (fun links below => links.add below other)
      (links.add unit child)).of above |>.Perm
      (((others.foldl (fun links below => links.add below other) links).add unit
        child).of above) := by
  induction others generalizing links with
  | nil => exact .refl _
  | cons below rest ih =>
      exact (perm_addEach (fun _ => perm_add_comm) rest other above).trans ih

theorem perm_addEach_comm :
    (others.foldl (fun links below => links.add below other)
      (units.foldl (fun links unit => links.add unit child) links)).of above |>.Perm
      ((units.foldl (fun links unit => links.add unit child)
        (others.foldl (fun links below => links.add below other) links)).of above) := by
  induction units generalizing links with
  | nil => exact .refl _
  | cons unit rest ih =>
      exact ih.trans (perm_addEach (fun _ => perm_addEach_add) rest child above)

end Hang

end Links

section Executions

variable {state : FlatState} {spent further : Set StateKey} {transactions : List Transaction}

/-- More is spent: the same transactions execute, as long as they take none of it. -/
theorem executes_union_iff : Executes state (spent ∪ further) transactions ↔
    Executes state spent transactions ∧
      ∀ transaction ∈ transactions, ∀ key ∈ transaction.inputs, key ∉ further := by
  constructor
  · intro executes
    refine ⟨?_, fun transaction inside key input later =>
      executes.unspent transaction inside key input (.inr later)⟩
    -- what is spent grows along the way, on both sides alike
    generalize wider : spent ∪ further = taken at executes
    induction executes generalizing spent with
    | nil => exact .nil
    | cons there performed _ ih =>
        subst wider
        refine .cons (fun key inside => ⟨(there key inside).1, ?_⟩) performed (ih ?_)
        · exact fun earlier => (there key inside).2 (.inl earlier)
        · exact Set.union_right_comm _ _ _
  · rintro ⟨executes, free⟩
    induction executes with
    | nil => exact .nil
    | @cons _ _ spent transaction rest there performed _ ih =>
        refine .cons (fun key inside => ⟨(there key inside).1, ?_⟩) performed ?_
        · rintro (earlier | later)
          · exact (there key inside).2 earlier
          · exact free transaction List.mem_cons_self key inside later
        · rw [Set.union_right_comm]
          exact ih fun other inside => free other (List.mem_cons_of_mem transaction inside)

end Executions

namespace DecisionUnit

/-- Two units, neither of which is the parent or an edge of the other. -/
structure Apart (first second : DecisionUnit) : Prop where
  distinct : first ≠ second
  parents : first.parent ≠ second.id ∧ second.parent ≠ first.id
  edges : second.id ∉ first.body.edges ∧ first.id ∉ second.body.edges

theorem Apart.symm {first second : DecisionUnit} (apart : first.Apart second) :
    second.Apart first :=
  ⟨apart.distinct.symm, apart.parents.symm, apart.edges.symm⟩

/-- Two units that can be pending at once: they take no input twice, and are not the same option of
one proposal. -/
structure Tolerates (first second : DecisionUnit) : Prop where
  inputs : ∀ transaction ∈ first.body.payload, ∀ key ∈ transaction.inputs,
    ∀ other ∈ second.body.payload, key ∉ other.inputs
  options : first.kind.isOption = true → first.parent = second.parent → first.kind ≠ second.kind

theorem Tolerates.symm {first second : DecisionUnit} (tolerates : first.Tolerates second) :
    second.Tolerates first where
  inputs other inside key input transaction among taken :=
    tolerates.inputs transaction among key taken other inside input
  options option under same :=
    tolerates.options (same ▸ option) under.symm same.symm

end DecisionUnit

namespace Manager

/-- Two managers that are the same but for the order of the units under each unit. -/
inductive Reordered (manager : Manager) : Manager → Prop where
  | intro (children referencedBy : Links) : manager.children.Reorders children →
      manager.referencedBy.Reorders referencedBy →
      Reordered manager { manager with children, referencedBy }

theorem Reordered.refl (manager : Manager) : manager.Reordered manager :=
  .intro manager.children manager.referencedBy (.refl _) (.refl _)

theorem Reordered.of_eq {left right : Manager} (settings : right.settings = left.settings)
    (pending : right.pending = left.pending) (consumedBy : right.consumedBy = left.consumedBy)
    (rejected : right.rejected = left.rejected) (children : left.children.Reorders right.children)
    (referencedBy : left.referencedBy.Reorders right.referencedBy) : left.Reordered right := by
  rw [eq_with_lists settings pending consumedBy rejected]
  exact .intro right.children right.referencedBy children referencedBy

theorem Reordered.shuffled {left right : Manager} (reordered : left.Reordered right) :
    left.Shuffled right := by
  cases reordered with
  | intro children referencedBy sameChildren sameReferences =>
      exact .intro children referencedBy sameChildren.perm sameReferences.perm

section Hold

variable {origin : StateUpdates} {manager : Manager} {store other : Store}
  {accepted line : List DecisionUnit} {first second parent above : DecisionUnit} {id : UnitId}

theorem pending_hold_of_ne (other : id ≠ first.id) :
    (manager.hold first.held).pending[id]? = manager.pending[id]? := by
  rw [getElem?_pending_hold, if_neg other.symm]

theorem Sound.read_hold (sound : manager.Sound origin store accepted)
    (unknown : manager.Unknown store first.id) (admits : manager.Admits store parent first)
    (known : manager.Holds above ∨ above = manager.lastAccepted) (own : second.parent = above.id)
    (key : StateKey) :
    (manager.hold first.held).read store second.parent key =
      manager.read store second.parent key := by
  obtain ⟨line, lineage, -⟩ := sound.rooted.lineage_of_parent known own
  have grown : (manager.hold first.held).Lineage accepted second.parent line :=
    lineage.transfer (fun held => (holds_hold unknown.notPending).mpr (.inr held)) (.root rfl)
  exact sound.read_congr (sound.hold unknown admits) lineage grown key

theorem spent_hold (fresh : first.id ∉ manager.pending) :
    (manager.hold first.held).spent = manager.spent ∪
      {key | ∃ transaction ∈ first.body.payload, key ∈ transaction.inputs} := by
  ext key
  constructor
  · rintro ⟨id, pending, found, takes⟩
    rw [getElem?_pending_hold] at found
    split at found
    · cases found
      exact .inr takes
    · exact .inl ⟨id, pending, found, takes⟩
  · rintro (⟨id, pending, found, takes⟩ | takes)
    · refine ⟨id, pending, ?_, takes⟩
      rw [getElem?_pending_hold, if_neg]
      · exact found
      · exact fun same => fresh (same ▸ mem_pending_of_getElem? found)
    · exact ⟨first.id, first.held, by rw [getElem?_pending_hold, if_pos rfl], takes⟩

/-- Who is eligible after a unit has joined, and does not stand on it, was eligible before; and the
unit tolerates it. -/
theorem Sound.eligible_of_hold (sound : manager.Sound origin store accepted)
    (unknown : manager.Unknown store first.id) (admits : manager.Admits store parent first)
    (apart : first.Apart second)
    (eligible : (manager.hold first.held).Eligible store above second) :
    manager.Eligible store above second ∧ first.Tolerates second := by
  obtain ⟨own, holds⟩ := eligible.known (sound.hold unknown admits).rooted.toLinked
  have known : manager.Holds above ∨ above = manager.lastAccepted := by
    refine holds.imp_left fun held => ((holds_hold unknown.notPending).mp held).resolve_left ?_
    rintro rfl
    exact apart.parents.2 own
  obtain ⟨state, reads, executes⟩ := eligible.executes
  rw [spent_hold unknown.notPending, executes_union_iff] at executes
  refine ⟨{ wellFormed := eligible.wellFormed
            found := pending_hold_of_ne apart.parents.2 ▸ eligible.found
            height := eligible.height, time := eligible.time, option := eligible.option
            vacant := fun option id pending found => ?_, edges := fun edge inside => ?_
            executes := ⟨state, fun key => ?_, executes.1⟩ }, ?_, ?_⟩
  · have other : id ≠ first.id :=
      fun same => unknown.notPending (same ▸ mem_pending_of_getElem? found)
    exact eligible.vacant option ((pending_hold_of_ne other).trans found)
  · have other : edge ≠ first.id := fun same => apart.edges.2 (same ▸ inside)
    exact pending_hold_of_ne other ▸ eligible.edges edge inside
  · rw [← reads key, sound.read_hold unknown admits known own]
  · exact fun transaction inside key input other among takes =>
      executes.2 other among key takes ⟨transaction, inside, input⟩
  · intro option beside same
    have here : (manager.hold first.held).pending[first.id]? = some first.held := by
      rw [getElem?_pending_hold, if_pos rfl]
    exact eligible.vacant (same ▸ option) here beside same

/-- Who was eligible stays so after a unit has joined on which it does not stand and which tolerates
it. -/
theorem Sound.eligible_hold (sound : manager.Sound origin store accepted)
    (unknown : manager.Unknown store first.id) (admits : manager.Admits store parent first)
    (apart : first.Apart second) (eligible : manager.Eligible store above second)
    (tolerates : first.Tolerates second) :
    (manager.hold first.held).Eligible store above second := by
  obtain ⟨own, known⟩ := eligible.known sound.rooted.toLinked
  obtain ⟨state, reads, executes⟩ := eligible.executes
  refine { wellFormed := eligible.wellFormed
           found := (pending_hold_of_ne apart.parents.2).symm ▸ eligible.found
           height := eligible.height, time := eligible.time, option := eligible.option
           vacant := fun option id pending found beside same => ?_
           edges := fun edge inside => ?_, executes := ⟨state, fun key => ?_, ?_⟩ }
  · rw [getElem?_pending_hold] at found
    split at found
    · cases found
      exact tolerates.options (same ▸ option) beside same
    · exact eligible.vacant option found beside same
  · have other : edge ≠ first.id := fun same => apart.edges.2 (same ▸ inside)
    exact (pending_hold_of_ne other).symm ▸ eligible.edges edge inside
  · rw [← reads key, sound.read_hold unknown admits known own]
  · rw [spent_hold unknown.notPending, executes_union_iff]
    refine ⟨executes, fun other among key takes => ?_⟩
    rintro ⟨transaction, inside, input⟩
    exact tolerates.inputs transaction inside key input other among takes

theorem referencedBy_hold_hold (unedged : first.id ∉ second.body.edges) :
    ((manager.hold first.held).hold second.held).referencedBy =
      (second.body.edges.filter manager.isPending).foldl
        (fun links edge => links.add edge second.id)
        ((first.body.edges.filter manager.isPending).foldl
          (fun links edge => links.add edge first.id) manager.referencedBy) := by
  have same : second.body.edges.filter (manager.hold first.held).isPending =
      second.body.edges.filter manager.isPending := by
    refine List.filter_congr fun edge inside => ?_
    have other : first.id ≠ edge := fun same => unedged (same ▸ inside)
    simp [isPending, hold, DecisionUnit.held, Std.ExtTreeMap.contains_insert, other]
  rw [← same]
  rfl

/-- Units that tolerate each other can be held in any order. -/
theorem reordered_hold_hold (distinct : first.id ≠ second.id)
    (edges : second.id ∉ first.body.edges ∧ first.id ∉ second.body.edges)
    (tolerates : first.Tolerates second) :
    ((manager.hold first.held).hold second.held).Reordered
      ((manager.hold second.held).hold first.held) := by
  have pending : ((manager.hold second.held).hold first.held).pending =
      ((manager.hold first.held).hold second.held).pending := by
    apply Std.ExtTreeMap.ext_getElem?
    intro id
    simp only [getElem?_pending_hold]
    grind
  have consumedBy : ((manager.hold second.held).hold first.held).consumedBy =
      ((manager.hold first.held).hold second.held).consumedBy := by
    apply Std.ExtTreeMap.ext_getElem?
    intro key
    have apart : ¬(key ∈ first.held.consumed ∧ key ∈ second.held.consumed) := by
      simp only [DecisionUnit.mem_consumed_held]
      rintro ⟨⟨transaction, inside, input⟩, other, among, takes⟩
      exact tolerates.inputs transaction inside key input other among takes
    simp only [getElem?_consumedBy_hold]
    grind
  refine .of_eq rfl pending consumedBy rfl ⟨fun {above} => ?_, fun above => Links.perm_add_comm⟩ ?_
  · change above ∈ (manager.children.add second.parent second.id).add first.parent first.id ↔
      above ∈ (manager.children.add first.parent first.id).add second.parent second.id
    simp only [Links.mem_add]
    tauto
  · rw [referencedBy_hold_hold edges.1, referencedBy_hold_hold edges.2]
    refine ⟨?_, fun above => Links.perm_addEach_comm⟩
    intro above
    simp only [Links.mem_addEach]
    tauto

theorem unknown_hold_iff : (manager.hold first.held).Unknown store id ↔
    first.id ≠ id ∧ manager.Unknown store id := by
  constructor
  · rintro ⟨notPending, notAccepted, notRejected⟩
    rw [mem_pending_hold, not_or] at notPending
    exact ⟨notPending.1, notPending.2, notAccepted, notRejected⟩
  · rintro ⟨other, notPending, notAccepted, notRejected⟩
    exact ⟨fun present => (mem_pending_hold.mp present).elim other notPending, notAccepted,
      notRejected⟩

theorem Sound.joins_of_sameLedger (sound : manager.Sound origin store accepted)
    (claimed : manager.Claimed) (same : store.SameLedger other)
    (unknown : manager.Unknown store first.id) (admits : manager.Admits store parent first) :
    manager.Unknown other first.id ∧ manager.Admits other parent first := by
  have next := sound.of_sameLedger same
  have eligible := sound.eligible_of_admits claimed admits
  refine ⟨⟨unknown.notPending, ?_, unknown.notRejected⟩, next.admits_of_eligible claimed ?_⟩
  · have notAccepted := unknown.notAccepted
    rwa [isAccepted_iff sound.rooted.recent sound.records.toLists,
      ← isAccepted_iff next.rooted.recent next.records.toLists] at notAccepted
  · have known := eligible.known sound.rooted.toLinked
    obtain ⟨line, lineage, -⟩ := sound.rooted.lineage_of_parent known.2 known.1
    exact { eligible with
            edges := fun edge inside => Store.unit?_congr (same (.unit edge) rfl) ▸
              eligible.edges edge inside
            executes := by
              obtain ⟨seen, sees, executes⟩ := eligible.executes
              exact ⟨seen, fun key => (sound.read_congr next lineage lineage key).trans (sees key),
                executes⟩ }

/-- Two units that join one after the other, neither of which stands on the other, tolerate each
other, and may join in the other order. -/
theorem Sound.exchange (sound : manager.Sound origin store accepted) (claimed : manager.Claimed)
    (apart : first.Apart second)
    (unknown : manager.Unknown store first.id) (admits : manager.Admits store parent first)
    (later : (manager.hold first.held).Unknown store second.id)
    (follows : (manager.hold first.held).Admits store above second) :
    first.Tolerates second ∧
      manager.Unknown store second.id ∧ manager.Admits store above second ∧
      (manager.hold second.held).Unknown store first.id ∧
      (manager.hold second.held).Admits store parent first := by
  obtain ⟨other, fresh⟩ := unknown_hold_iff.mp later
  have eligible :=
    (sound.hold unknown admits).eligible_of_admits (claimed.hold unknown admits) follows
  obtain ⟨possible, tolerates⟩ := sound.eligible_of_hold unknown admits apart eligible
  have early := sound.admits_of_eligible claimed possible
  have late := sound.eligible_hold fresh early apart.symm (sound.eligible_of_admits claimed admits)
    tolerates.symm
  exact ⟨tolerates, fresh, early, unknown_hold_iff.mpr ⟨other.symm, unknown⟩,
    (sound.hold fresh early).admits_of_eligible (claimed.hold fresh early) late⟩

end Hold

end Manager

section Adopts

variable {ω : Type}

def LawfulHost.afterVerify (host : LawfulHost ω) (unit : DecisionUnit) (situation : Manager × ω) :
    Manager × ω :=
  (Step.verify unit : Step host).perform situation

/-- A manager verifies a unit, and holds it then. -/
structure Adopts (host : LawfulHost ω) (unit : DecisionUnit) (before : Manager × ω) : Prop where
  answer : (Call.verify unit).answer host before = .ok ()
  holds : (host.afterVerify unit before).1.Holds unit

/-- A unit that is adopted was held already, or joins. -/
inductive Adopting (host : LawfulHost ω) (unit : DecisionUnit) (before : Manager × ω) :
    Manager × ω → Prop where
  | known : before.1.Holds unit → Adopting host unit before before
  | joins {parent : DecisionUnit} : before.1.Unknown (host.store before.2) unit.id →
      before.1.Admits (host.store before.2) parent unit →
      Adopting host unit before (before.1.hold unit.held,
        host.publish (.verified before.1.config.chain unit.id unit.height unit.kind) before.2)

variable {host : LawfulHost ω} {unit other parent first second : DecisionUnit}
  {before after left right : Manager × ω} {alike : ω → ω → Prop} {origin : StateUpdates}
  {accepted : List DecisionUnit}

theorem Adopting.running (adopting : Adopting host unit before after)
    (running : before.1.halted = none) : after.1.halted = none := by
  cases adopting <;> exact running

theorem Adopting.stays (adopting : Adopting host unit before after) (holds : before.1.Holds other) :
    after.1.Holds other := by
  cases adopting with
  | known => exact holds
  | joins unknown => exact (Manager.holds_hold unknown.notPending).mpr (.inr holds)

theorem Adopts.running (adopts : Adopts host unit before) : before.1.halted = none := by
  have answer := adopts.answer
  dsimp only [Call.answer, Manager.verify] at answer
  cases running : before.1.ensureRunning with
  | error error => simp [running, bind, Except.bind, Except.map] at answer
  | ok done => exact Manager.ensureRunning_eq_ok_iff.mp running

theorem Adopts.adopting (adopts : Adopts host unit before) :
    Adopting host unit before (host.afterVerify unit before) := by
  obtain ⟨answer, holds⟩ := adopts
  dsimp only [Call.answer, LawfulHost.afterVerify, Step.perform] at answer holds ⊢
  cases done : before.1.verify (host.store before.2) unit with
  | error error => simp [done, Except.map] at answer
  | ok outcome =>
      rw [done] at holds
      rcases Manager.verify_events done with ⟨rest, silent⟩ | ⟨held, said, unknown, _, admits⟩
      · rw [Step.conclude, rest, silent]
        exact .known (rest ▸ holds)
      · rw [Step.conclude, held, said]
        exact .joins unknown admits

theorem adopts_of_mem (answer : (Call.verify unit).answer host before = .ok ())
    (fresh : unit.id ∉ before.1.pending)
    (present : unit.id ∈ (host.afterVerify unit before).1.pending) : Adopts host unit before := by
  refine ⟨answer, ?_⟩
  dsimp only [Call.answer, LawfulHost.afterVerify, Step.perform] at answer present ⊢
  cases done : before.1.verify (host.store before.2) unit with
  | error error => simp [done, Except.map] at answer
  | ok outcome =>
      rw [done] at present
      rcases Manager.verify_cases done with rest | ⟨held, unknown, -⟩
      · exact absurd (rest ▸ present) fresh
      · rw [Step.conclude, held]
        exact (Manager.holds_hold unknown.notPending).mpr (.inl rfl)

theorem adopts_of_holds (running : before.1.halted = none) (holds : before.1.Holds unit) :
    Adopts host unit before ∧ host.afterVerify unit before = before := by
  have done : before.1.verify (host.store before.2) unit = .ok (before.1, []) := by
    have present : before.1.isPending unit.id = true :=
      Std.ExtTreeMap.contains_iff_mem.mpr holds.mem
    have ready : before.1.ensureRunning = .ok () := Manager.ensureRunning_eq_ok_iff.mpr running
    rw [Manager.verify, ready, present]
    rfl
  have same : host.afterVerify unit before = before := by
    rw [LawfulHost.afterVerify, Step.perform, done]
    rfl
  refine ⟨⟨?_, ?_⟩, same⟩
  · rw [Call.answer, done]
    rfl
  · rw [same]
    exact holds

theorem adopts_of_admits (running : before.1.halted = none)
    (unknown : before.1.Unknown (host.store before.2) unit.id)
    (admits : before.1.Admits (host.store before.2) parent unit) :
    Adopts host unit before ∧ host.afterVerify unit before = (before.1.hold unit.held,
      host.publish (.verified before.1.config.chain unit.id unit.height unit.kind) before.2) := by
  have done := Manager.verify_eq_of_unknown running unknown
  rw [Manager.examine_eq_ok_iff.mpr ⟨rfl, parent, admits⟩] at done
  have joined : host.afterVerify unit before = (before.1.hold unit.held,
      host.publish (.verified before.1.config.chain unit.id unit.height unit.kind) before.2) := by
    rw [LawfulHost.afterVerify, Step.perform, done]
    rfl
  refine ⟨⟨?_, ?_⟩, joined⟩
  · rw [Call.answer, done]
    rfl
  · rw [joined]
    exact (Manager.holds_hold unknown.notPending).mpr (.inl rfl)

theorem Adopts.exchange (adopts : Adopts host first before)
    (follows : Adopts host second (host.afterVerify first before)) (apart : first.Apart second)
    (sound : before.1.Sound origin (host.store before.2) accepted) (claimed : before.1.Claimed) :
    Adopts host second before ∧ Adopts host first (host.afterVerify second before) ∧
      (host.afterVerify second (host.afterVerify first before)).1.Reordered
        (host.afterVerify first (host.afterVerify second before)).1 := by
  have running := adopts.running
  have adopting := adopts.adopting
  have next := follows.adopting
  generalize host.afterVerify first before = middle at *
  cases adopting with
  | known held =>
      obtain ⟨again, rests⟩ : Adopts host first (host.afterVerify second before) ∧ _ :=
        adopts_of_holds (next.running running) (next.stays held)
      refine ⟨follows, again, ?_⟩
      rw [rests]
      exact .refl _
  | @joins parent unknown admits =>
      -- between the two the world hears of a unit, which does not change the ledger
      have quiet (unit : DecisionUnit) := host.published
        (.verified before.1.config.chain unit.id unit.height unit.kind) before.2
      generalize same : host.afterVerify second _ = after at *
      cases next with
      | known held =>
          have early : before.1.Holds second :=
            ((Manager.holds_hold unknown.notPending).mp held).resolve_left apart.distinct.symm
          obtain ⟨already, rests⟩ : Adopts host second before ∧ _ := adopts_of_holds running early
          obtain ⟨-, joined⟩ : Adopts host first before ∧ _ :=
            adopts_of_admits running unknown admits
          rw [rests, joined]
          exact ⟨already, adopts, .refl _⟩
      | joins later follows =>
          have middle := (sound.hold unknown admits).of_sameLedger (quiet first)
          obtain ⟨later, follows⟩ := middle.joins_of_sameLedger (claimed.hold unknown admits)
            (quiet first).symm later follows
          obtain ⟨tolerates, fresh, early, still, late⟩ :=
            sound.exchange claimed apart unknown admits later follows
          obtain ⟨ahead, joined⟩ : Adopts host second before ∧ _ :=
            adopts_of_admits running fresh early
          obtain ⟨still, late⟩ := (sound.hold fresh early).joins_of_sameLedger
            (claimed.hold fresh early) (quiet second) still late
          obtain ⟨behind, after⟩ : Adopts host first (before.1.hold second.held, _) ∧ _ :=
            adopts_of_admits running still late
          rw [joined, after]
          exact ⟨ahead, behind, Manager.reordered_hold_hold
            (Manager.unknown_hold_iff.mp later).1 ⟨apart.edges.1, apart.edges.2⟩ tolerates⟩

theorem Adopting.unheard (adopting : Adopting host unit before after) {chain : ChainId}
    (deaf : host.Deaf chain alike) : alike before.2 after.2 := by
  cases adopting with
  | known => exact deaf.equivalence.refl before.2
  | joins => exact deaf.published _ before.2

end Adopts

section Exchanges

variable {ω : Type} {host : LawfulHost ω} {alike : ω → ω → Prop} {origin : StateUpdates}
  {accepted : List DecisionUnit} {first second : DecisionUnit} {before left right : Manager × ω}

/-- Two situations that no call and no question tells apart. -/
structure Indistinct (host : LawfulHost ω) (left right : Manager × ω) : Prop where
  shuffled : left.1.Shuffled right.1
  store : host.store right.2 = host.store left.2
  answers : ∀ call : Call, call.answer host right = call.answer host left
  sees : ∀ unit key, host.sees right unit key = host.sees left unit key
  lookup : ∀ id, host.lookup right id = host.lookup left id

theorem Confused.indistinct (confused : Confused alike left right)
    (deaf : host.Deaf left.1.config.chain alike)
    (sound : left.1.Sound origin (host.store left.2) accepted) (claimed : left.1.Claimed) :
    Indistinct host left right where
  shuffled := confused.shuffled
  store := (deaf.store confused.worlds).symm
  answers call := (confused.call deaf sound claimed call).1
  sees unit key := by
    rw [LawfulHost.sees, LawfulHost.sees, ← deaf.store confused.worlds]
    exact confused.shuffled.read_eq unit key
  lookup id := by
    rw [LawfulHost.lookup, LawfulHost.lookup, ← deaf.store confused.worlds]
    exact confused.shuffled.lookup_eq id

/-- Two units are adopted in the other order too, and the order does not matter afterwards. -/
structure Exchanges (host : LawfulHost ω) (first second : DecisionUnit) (before : Manager × ω) :
    Prop where
  adopts : Adopts host second before
  follows : Adopts host first (host.afterVerify second before)
  /-- The managers are the same but for the order of lists. -/
  reordered : (host.afterVerify second (host.afterVerify first before)).1.Reordered
    (host.afterVerify first (host.afterVerify second before)).1
  /-- After the same further steps, nothing tells in which order the units were verified, unless the
  listeners or the disk take notice of the order of events. -/
  later : ∀ {alike : ω → ω → Prop}, host.Deaf before.1.config.chain alike →
    ∀ steps : List (Step host), (∀ step ∈ steps, step.Heeds alike) →
      Indistinct host (Step.run steps (host.afterVerify second (host.afterVerify first before)))
        (Step.run steps (host.afterVerify first (host.afterVerify second before)))

theorem Step.claimed_run (steps : List (Step host)) (situation : Manager × ω)
    (sound : situation.1.Sound origin (host.store situation.2) accepted)
    (claimed : situation.1.Claimed) :
    ∃ further, (Step.run steps situation).1.Sound origin
        (host.store (Step.run steps situation).2) (accepted ++ further) ∧
      (Step.run steps situation).1.Claimed ∧
      (Step.run steps situation).1.config = situation.1.config := by
  refine Step.run_induction (fun manager _ => manager.Claimed ∧ manager.config = situation.1.config)
    (fun sound _ turn before => ?_) steps situation sound ⟨claimed, rfl⟩
  exact ⟨before.1.turn sound turn, (turn.config_eq sound).trans before.2⟩

theorem Adopts.exchanges (adopts : Adopts host first before)
    (follows : Adopts host second (host.afterVerify first before)) (apart : first.Apart second)
    (sound : before.1.Sound origin (host.store before.2) accepted) (claimed : before.1.Claimed) :
    Exchanges host first second before := by
  obtain ⟨early, late, reordered⟩ := adopts.exchange follows apart sound claimed
  refine ⟨early, late, reordered, fun {alike} deaf steps heeds => ?_⟩
  have confused : Confused alike (host.afterVerify second (host.afterVerify first before))
      (host.afterVerify first (host.afterVerify second before)) := by
    have passes {unit other : DecisionUnit} (one : Adopts host unit before)
        (two : Adopts host other (host.afterVerify unit before)) :
        alike before.2 (host.afterVerify other (host.afterVerify unit before)).2 :=
      deaf.equivalence.trans (one.adopting.unheard deaf) (two.adopting.unheard deaf)
    exact ⟨reordered.shuffled, deaf.equivalence.trans
      (deaf.equivalence.symm (passes adopts follows)) (passes early late)⟩
  obtain ⟨_, verified, claims, config⟩ :=
    Step.claimed_run [.verify first, .verify second] before sound claimed
  obtain ⟨_, final, further, same⟩ := Step.claimed_run steps _ verified claims
  have hears : host.Deaf (host.afterVerify second (host.afterVerify first before)).1.config.chain
      alike := config.symm ▸ deaf
  exact (confused.run hears verified claims steps heeds).indistinct (same.symm ▸ hears) final
    further

end Exchanges

/-- After any calls, two units that become pending one after the other, and neither of which is the
parent or an edge of the other, become pending in the other order too; the order is seen in the
order of lists, and in nothing that the manager does or says later. -/
theorem Tenure.exchanges_run {ω : Type} {host : LawfulHost ω} {config : Configuration}
    {origin : StateUpdates} (tenure : Tenure host config origin) (steps : List (Step host))
    {first second : DecisionUnit} (apart : first.Apart second)
    (adopts : Adopts host first (tenure.run steps))
    (follows : Adopts host second (host.afterVerify first (tenure.run steps))) :
    Exchanges host first second (tenure.run steps) := by
  obtain ⟨accepted, sound⟩ := tenure.sound_run steps
  exact adopts.exchanges follows apart sound (tenure.claimed_run steps)

namespace Crossing

def rival : DecisionUnit :=
  .ofFields { parent := left.id, height := 2, timestamp := none,
              body := .vertex [right.id] [Forgetful.output 0xd4 4] } (by decide)

set_option maxRecDepth 100000 in
theorem rival_eq :
    (vertex.parent ≠ rival.id ∧ rival.parent ≠ vertex.id) ∧
    (rival.id ∉ vertex.body.edges ∧ vertex.id ∉ rival.body.edges) ∧
    ((Call.verify vertex).answer LawfulHost.bare (begun.run prepared)).toOption = some () ∧
    ((Call.verify rival).answer LawfulHost.bare
      (LawfulHost.bare.afterVerify vertex (begun.run prepared))).toOption = some () ∧
    vertex.id ∉ (begun.run prepared).1.pending ∧
    vertex.id ∈ (LawfulHost.bare.afterVerify vertex (begun.run prepared)).1.pending ∧
    rival.id ∉ (LawfulHost.bare.afterVerify vertex (begun.run prepared)).1.pending ∧
    rival.id ∈ (LawfulHost.bare.afterVerify rival
      (LawfulHost.bare.afterVerify vertex (begun.run prepared))).1.pending := by
  decide +kernel

/-- Two vertices with the same parent and the same edge may come in any order. -/
theorem vertices_exchange :
    vertex.Apart rival ∧ Adopts LawfulHost.bare vertex (begun.run prepared) ∧
    Adopts LawfulHost.bare rival (LawfulHost.bare.afterVerify vertex (begun.run prepared)) ∧
    Exchanges LawfulHost.bare vertex rival (begun.run prepared) := by
  obtain ⟨parents, edges, first, second, fresh, known, unheld, held⟩ := rival_eq
  have distinct : vertex ≠ rival :=
    fun same => absurd (congrArg (·.body.payload) same) (by decide)
  have apart : vertex.Apart rival := ⟨distinct, parents, edges⟩
  have adopts := adopts_of_mem (toOption_eq_some_iff.mp first) fresh known
  have follows := adopts_of_mem (toOption_eq_some_iff.mp second) unheld held
  exact ⟨apart, adopts, follows, begun.exchanges_run prepared apart adopts follows⟩

end Crossing

end DecisionLedger
