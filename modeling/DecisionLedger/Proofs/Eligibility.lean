import DecisionLedger.Proofs.Likeness
import DecisionLedger.Proofs.Withdrawal

/-! # What may become pending

A unit that nobody knows is verified exactly if it is eligible: well formed, in its place under its
parent and above its edges, and executable on what its parent sees.  An input may be consumed once
only; three parts of the code look after that, and together they refuse exactly what an earlier
transaction of the unit or another pending unit consumes.
-/

namespace DecisionLedger

/-- Transactions are performed one after another on a state, and none takes an input that is spent
or that an earlier one takes. -/
inductive Executes : FlatState → Set StateKey → List Transaction → Prop where
  | nil {state : FlatState} {spent : Set StateKey} : Executes state spent []
  | cons {state after : FlatState} {spent : Set StateKey} {transaction : Transaction}
      {rest : List Transaction} :
      (∀ key ∈ transaction.inputs, key ∈ state ∧ key ∉ spent) →
      state.perform transaction = some after →
      Executes after (spent ∪ {key | key ∈ transaction.inputs}) rest →
      Executes state spent (transaction :: rest)

section Execution

variable {below : View} {base middle : FlatState} {diff next : Diff} {spent taken : Set StateKey}
  {transactions : List Transaction} {key : StateKey}

theorem Executes.unspent (executes : Executes middle spent transactions) :
    ∀ transaction ∈ transactions, ∀ key ∈ transaction.inputs, key ∉ spent := by
  induction executes with
  | nil => exact fun _ inside => absurd inside List.not_mem_nil
  | cons there _ _ ih =>
      intro transaction inside key taken
      rcases List.mem_cons.mp inside with rfl | later
      · exact (there key taken).2
      · exact fun earlier => ih transaction later key taken (.inl earlier)

theorem Diff.checkInput_of_mem (reads : ∀ key, below.read key = .ok base[key]?)
    (overlays : diff.Overlays base middle) (present : key ∈ middle)
    (free : below.consumes key = .ok false) (fresh : key ∉ diff.consumed) :
    checkInput (below.under diff) key = .ok () := by
  have unconsumed : diff.consumes key = false := by
    rw [consumes, Bool.eq_false_iff]
    exact fun consumed => fresh (Std.ExtTreeSet.contains_iff_mem.mp consumed)
  refine checkInput_eq_ok_iff.mpr ⟨?_, middle[key], ?_⟩
  · rw [View.consumes_under, unconsumed]
    exact free
  · have same := overlays key
    rw [Std.ExtTreeMap.getElem?_eq_some_getElem present] at same
    rw [View.read_under, reads key, ← same]
    cases diff.local? key <;> rfl

/-- What executes on a state is executed on a view that reads like it, if nothing below consumes
what was not spent. -/
theorem Executes.exists_executeAll (executes : Executes middle taken transactions)
    (reads : ∀ key, below.read key = .ok base[key]?)
    (free : ∀ key ∉ spent, below.consumes key = .ok false)
    (overlays : diff.Overlays base middle) (wider : spent ⊆ taken)
    (own : ∀ key ∈ diff.consumed, key ∈ taken) :
    ∃ next, transactions.foldlM (Diff.executeOn below) diff = .ok next := by
  induction executes generalizing diff with
  | nil => exact ⟨diff, rfl⟩
  | @cons middle after taken transaction rest there performed _ ih =>
      have checked : ∀ key ∈ transaction.inputs,
          Diff.checkInput (below.under diff) key = .ok () := by
        intro key inside
        obtain ⟨present, unspent⟩ := there key inside
        exact Diff.checkInput_of_mem reads overlays present
          (free key fun earlier => unspent (wider earlier)) fun earlier => unspent (own key earlier)
      have first : Diff.executeOn below diff transaction = .ok (diff.record transaction) :=
        Diff.executeOn_eq_ok_iff.mpr ⟨checked, rfl⟩
      obtain ⟨next, later⟩ :=
        ih (overlays.record performed) (fun key earlier => .inl (wider earlier))
        fun key consumed => (Diff.mem_consumed_record.mp consumed).imp_left (own key)
      exact ⟨next, by rw [List.foldlM_cons, first]; exact later⟩

/-- What is executed on a view executes on the state that the view reads like, if no input was
spent. -/
theorem executes_of_executeAll
    (executed : transactions.foldlM (Diff.executeOn below) diff = .ok next)
    (reads : ∀ key, below.read key = .ok base[key]?) (overlays : diff.Overlays base middle)
    (distinct : ∀ transaction ∈ transactions, transaction.inputs.Nodup)
    (unspent : ∀ transaction ∈ transactions, ∀ key ∈ transaction.inputs, key ∉ spent)
    (own : ∀ key ∈ taken, key ∈ spent ∨ key ∈ diff.consumed) :
    Executes middle taken transactions := by
  induction transactions generalizing diff middle taken with
  | nil => exact .nil
  | cons transaction rest ih =>
      rw [List.foldlM_cons, bind_eq_ok_iff] at executed
      obtain ⟨recorded, first, later⟩ := executed
      obtain ⟨checked, rfl⟩ := Diff.executeOn_eq_ok_iff.mp first
      obtain ⟨after, performed⟩ :=
        Diff.exists_perform reads overlays (distinct transaction List.mem_cons_self) first
      refine .cons (fun key inside => ⟨?_, fun earlier => ?_⟩) performed ?_
      · exact Diff.mem_of_checkInput reads overlays (checked key inside)
      · rcases own key earlier with spent | consumed
        · exact unspent transaction List.mem_cons_self key inside spent
        · have fresh := (Diff.checkInput_eq_ok_iff.mp (checked key inside)).1
          have consumes : diff.consumes key = true := Std.ExtTreeSet.contains_iff_mem.mpr consumed
          simp [View.consumes_under, consumes] at fresh
      · refine ih later (overlays.record performed)
          (fun other inside => distinct other (List.mem_cons_of_mem _ inside))
          (fun other inside => unspent other (List.mem_cons_of_mem _ inside)) fun key earlier => ?_
        rw [Diff.mem_consumed_record]
        rcases earlier with before | input
        · exact (own key before).imp_right .inl
        · exact .inr (.inr input)

end Execution

theorem DecisionUnit.kind_eq_of_choice? {unit other : DecisionUnit} {choice : Choice}
    (chosen : unit.body.choice? = some choice) (taken : other.body.choice? = some choice) :
    unit.kind = other.kind := by
  rw [← taken, choice?_eq, choice?_eq] at chosen
  have option := isOption_of_choice? taken
  cases own : unit.kind <;> cases its : other.kind <;> simp_all [Kind.isOption]

namespace Manager

/-- The inputs that pending units consume. -/
def spent (manager : Manager) : Set StateKey :=
  {key | ∃ (id : UnitId) (pending : PendingUnit), manager.pending[id]? = some pending ∧
    ∃ transaction ∈ pending.unit.body.payload, key ∈ transaction.inputs}

section Spent

variable {origin : StateUpdates} {manager : Manager} {store : Store}
  {accepted line : List DecisionUnit} {unit top : DecisionUnit} {key : StateKey}

theorem Holds.mem_spent (holds : manager.Holds unit) (consumed : key ∈ unit.effect.consumed) :
    key ∈ manager.spent := by
  refine ⟨unit.id, unit.held, holds, ?_⟩
  rw [DecisionUnit.effect, Diff.mem_consumed_recordAll] at consumed
  exact consumed.resolve_left Std.ExtTreeSet.not_mem_empty

theorem Sound.mem_spent_of_overlay (sound : manager.Sound origin store accepted)
    (holds : manager.Holds unit) (known : manager.Holds top ∨ top = manager.lastAccepted)
    (follows : unit.Extends top) (consumed : (top.overlay unit).consumes key = true) :
    key ∈ manager.spent := by
  rw [Diff.consumes, Std.ExtTreeSet.contains_iff_mem] at consumed
  unfold DecisionUnit.overlay at consumed
  cases execution : unit.execution with
  | effect diff =>
      rw [execution] at consumed
      obtain ⟨-, rfl⟩ := DecisionUnit.execution_eq_effect_iff.mp execution
      exact holds.mem_spent consumed
  | proposal branches =>
      have onAbort : branches.onAbort = unit.branch .abort :=
        (DecisionUnit.of_execution_eq_proposal execution).2 .abort
      simp only [execution, onAbort] at consumed
      exact absurd consumed Std.ExtTreeSet.not_mem_empty
  | option choice =>
      rw [execution] at consumed
      have chosen := DecisionUnit.execution_eq_option_iff.mp execution
      have kind := follows.option_iff.mp (DecisionUnit.isOption_of_choice? chosen)
      cases choice with
      | commit => exact (sound.holds_of_proposal known kind).mem_spent consumed
      | abort => exact absurd consumed Std.ExtTreeSet.not_mem_empty

/-- No layer below consumes what is not spent. -/
theorem Sound.consumes_eq (sound : manager.Sound origin store accepted) {id : UnitId}
    (lineage : manager.Lineage accepted id line) (unspent : key ∉ manager.spent) :
    ((manager.versions store).view id).consumes key = .ok false := by
  induction lineage with
  | root tip =>
      subst tip
      have bare : manager.lastAccepted.id ∉ (manager.versions store).layers := by
        rw [Std.ExtTreeMap.mem_iff_isSome_getElem?, layers_versions,
          Std.ExtTreeMap.getElem?_eq_none sound.rooted.last_not_pending]
        exact Bool.false_ne_true
      have bottom : manager.lastAccepted.id = (manager.versions store).accepted := rfl
      rw [Versions.view, Versions.walk_of_not_mem bare]
      dsimp only
      rw [if_pos bottom]
      rfl
  | @child _ unit line holds same further ih =>
      subst same
      obtain ⟨top, last, follows, known⟩ := sound.rooted.extends_last holds further
      have layer := layer_of_holds store holds follows (sound.holds_of_proposal known)
      have fresh : (top.overlay unit).consumes key = false := by
        rw [Bool.eq_false_iff]
        exact fun consumed => unspent (sound.mem_spent_of_overlay holds known follows consumed)
      rw [Versions.view_of_layer sound.rooted.ranked_layers layer, View.consumes_under, fresh,
        sound.consumes_below known follows key]
      exact ih

end Spent

/-- What there must be to a unit that becomes pending under a parent. -/
structure Eligible (manager : Manager) (store : Store) (parent unit : DecisionUnit) : Prop where
  wellFormed : unit.fault? manager.config.maxUnitSize = none
  /-- The parent is pending, or accepted last. -/
  found : manager.pending[unit.parent]?.map (·.unit) = some parent ∨
    unit.parent = manager.lastAccepted.id ∧ parent = manager.lastAccepted
  height : unit.height.toNat = parent.height.toNat + 1
  time : ∀ {before after}, parent.timestamp = some before → unit.timestamp = some after →
    ¬after < before
  option : unit.kind.isOption = true ↔ parent.kind = .proposal
  /-- No pending unit under the same proposal makes the same choice. -/
  vacant : unit.kind.isOption = true → ∀ {id : UnitId} {pending : PendingUnit},
    manager.pending[id]? = some pending → pending.unit.parent = unit.parent →
    pending.unit.kind ≠ unit.kind
  /-- Every edge is pending or accepted, and lower. -/
  edges : ∀ edge ∈ unit.body.edges,
    (∃ target, manager.pending[edge]? = some target ∧ target.unit.height < unit.height) ∨
      ∃ target, store.unit? edge = .ok (some target) ∧ target.height < unit.height
  /-- The transactions execute on what the parent sees, and take nothing that is spent. -/
  executes : ∃ state : FlatState, (∀ key, manager.read store unit.parent key = .ok state[key]?) ∧
    Executes state manager.spent unit.body.payload

section Eligible

variable {origin : StateUpdates} {manager : Manager} {store : Store}
  {accepted : List DecisionUnit} {parent unit : DecisionUnit} {key : StateKey}

theorem Claimed.contains_iff_spent (claimed : manager.Claimed) (linked : manager.Linked accepted) :
    manager.consumedBy.contains key = true ↔ key ∈ manager.spent := by
  rw [Std.ExtTreeMap.contains_iff_mem, Std.ExtTreeMap.mem_iff_isSome_getElem?,
    Option.isSome_iff_exists]
  refine exists_congr fun id => claimed.claimed.trans (exists_congr fun pending => ?_)
  refine and_congr_right fun found => ?_
  obtain ⟨unit, -, -, rfl⟩ := linked.exists_of_getElem? found
  exact unit.mem_consumed_held

theorem Claimed.claimed?_eq_none_iff (claimed : manager.Claimed)
    (linked : manager.Linked accepted) :
    manager.claimed? unit.held.consumed = none ↔
      ∀ transaction ∈ unit.body.payload, ∀ key ∈ transaction.inputs, key ∉ manager.spent := by
  rw [claimed?, List.find?_eq_none]
  simp only [claimed.contains_iff_spent linked, DecisionUnit.mem_consumed_held]
  constructor
  · exact fun free transaction inside key input => free key ⟨transaction, inside, input⟩
  · rintro free key ⟨transaction, inside, input⟩
    exact free transaction inside key input

theorem Eligible.known (eligible : manager.Eligible store parent unit)
    (linked : manager.Linked accepted) :
    unit.parent = parent.id ∧ (manager.Holds parent ∨ parent = manager.lastAccepted) := by
  rcases eligible.found with above | ⟨tip, rfl⟩
  · obtain ⟨pending, found, rfl⟩ := Option.map_eq_some_iff.mp above
    obtain ⟨own, holds, same, rfl⟩ := linked.exists_of_getElem? found
    exact ⟨same.symm, .inl holds⟩
  · exact ⟨tip, .inr rfl⟩

theorem Sound.view_eq (sound : manager.Sound origin store accepted) {id : UnitId}
    {line : List DecisionUnit} (lineage : manager.Lineage accepted id line) :
    ∃ state : FlatState, (∀ key, manager.read store id key = .ok state[key]?) ∧
      ∀ key, ((manager.versions store).view id).read key = .ok state[key]? := by
  obtain ⟨state, replayed, reads⟩ := sound.read_eq lineage
  obtain ⟨same, again, views⟩ := sound.reads lineage
  rw [replayed] at again
  cases again
  exact ⟨state, reads, views⟩

theorem Sound.eligible_of_admits (sound : manager.Sound origin store accepted)
    (claimed : manager.Claimed) (admits : manager.Admits store parent unit) :
    manager.Eligible store parent unit where
  wellFormed := admits.wellFormed
  found := by
    rcases resolveParent_eq_ok admits.found with ⟨pending, found, rfl⟩ | ⟨-, tip, same⟩
    · exact .inl (by rw [found]; rfl)
    · exact .inr ⟨tip, same⟩
  height := admits.height
  time before after := UInt64.not_lt.mpr (admits.time before after)
  option := admits.option
  vacant := by
    intro option id pending found same kind
    obtain ⟨choice, chosen⟩ := DecisionUnit.exists_choice_of_isOption option
    obtain ⟨other, holds, rfl, rfl⟩ := sound.rooted.exists_of_getElem? found
    have taken := (DecisionUnit.choice?_congr kind).trans chosen
    exact sound.rooted.vacant_of_admits admits holds same chosen taken
  edges := by
    intro edge edged
    obtain ⟨below, known, lower⟩ := admits.edges edge edged
    obtain ⟨target, rfl, rfl, held | inside⟩ :=
      sound.rooted.exists_of_knownHeight? sound.rooted.recent sound.records.toLists known
    · exact .inl ⟨target.held, held, lower⟩
    · exact .inr ⟨target, sound.records.unit?_of_mem sound.chronicle inside, lower⟩
  executes := by
    obtain ⟨follows, known⟩ := sound.rooted.parent_of_admits admits
    obtain ⟨line, lineage, -⟩ := sound.rooted.lineage_of_parent (known.imp_right And.right)
      follows.parent_eq
    obtain ⟨state, reads, views⟩ := sound.view_eq lineage
    refine ⟨state, reads, executes_of_executeAll admits.executed views
      (Diff.overlays_empty unit.parent unit.timestamp state)
      (fun _ inside => unit.nodup_inputs admits.wellFormed inside) ?_ fun _ earlier => .inl earlier⟩
    exact (claimed.claimed?_eq_none_iff sound.rooted.toLinked).mp admits.unclaimed

theorem Sound.admits_of_eligible (sound : manager.Sound origin store accepted)
    (claimed : manager.Claimed) (eligible : manager.Eligible store parent unit) :
    manager.Admits store parent unit := by
  have known := eligible.known sound.rooted.toLinked
  obtain ⟨line, lineage, -⟩ := sound.rooted.lineage_of_parent known.2 known.1
  refine { wellFormed := eligible.wellFormed, found := ?_, height := eligible.height,
           time := fun before after => UInt64.not_lt.mp (eligible.time before after),
           option := eligible.option, vacant := ?_, edges := ?_, executed := ?_, unclaimed := ?_ }
  · rcases eligible.found with above | ⟨tip, rfl⟩
    · obtain ⟨pending, found, rfl⟩ := Option.map_eq_some_iff.mp above
      simp [resolveParent, found]
    · have absent := Std.ExtTreeMap.getElem?_eq_none sound.rooted.last_not_pending
      simp [resolveParent, tip, absent]
  · intro choice chosen
    cases found : manager.optionOf? parent.id choice with
    | none => rfl
    | some id =>
        obtain ⟨other, holds, rfl, under, taken⟩ := sound.rooted.exists_of_optionOf? found
        have kind := DecisionUnit.kind_eq_of_choice? taken chosen
        exact absurd kind (eligible.vacant (DecisionUnit.isOption_of_choice? chosen) holds
          (under.trans known.1.symm))
  · intro edge edged
    rcases eligible.edges edge edged with ⟨target, found, lower⟩ | ⟨target, stored, lower⟩
    · exact ⟨target.unit.height, by simp [knownHeight?, found], lower⟩
    · obtain ⟨inside, rfl⟩ := sound.records.mem_of_unit? stored
      refine ⟨target.height, ?_, lower⟩
      rw [sound.rooted.knownHeight?_eq sound.chronicle sound.records.toLists,
        Std.ExtTreeMap.getElem?_eq_none (sound.rooted.settled inside).1,
        sound.chronicle.find?_id inside]
      rfl
  · obtain ⟨state, reads, executes⟩ := eligible.executes
    obtain ⟨same, again, views⟩ := sound.view_eq lineage
    have own : same = state := by
      apply Std.ExtTreeMap.ext_getElem?
      intro key
      exact Except.ok.inj ((again key).symm.trans (reads key))
    subst own
    obtain ⟨next, executed⟩ := executes.exists_executeAll views
      (fun key unspent => sound.consumes_eq lineage unspent)
      (Diff.overlays_empty unit.parent unit.timestamp same) subset_rfl
      fun key consumed => absurd consumed Std.ExtTreeSet.not_mem_empty
    rw [executed, Diff.eq_foldl_of_executeAll executed]
    rfl
  · obtain ⟨state, -, executes⟩ := eligible.executes
    exact (claimed.claimed?_eq_none_iff sound.rooted.toLinked).mpr executes.unspent

end Eligible

section Hold

variable {manager : Manager} {store : Store} {accepted : List DecisionUnit}
  {unit parent : DecisionUnit}

theorem verify_eq_of_unknown (running : manager.halted = none)
    (unknown : manager.Unknown store unit.id) :
    manager.verify store unit = (manager.examine store unit).map fun candidate =>
      (manager.hold candidate, [.verified manager.config.chain unit.id unit.height unit.kind]) := by
  unfold Manager.verify ensureRunning isPending
  rw [running]
  simp only [bind, Except.bind, Std.ExtTreeMap.contains_iff_mem, Bool.or_eq_true,
    unknown.notPending, unknown.notAccepted, unknown.notRejected, if_false]
  cases manager.examine store unit <;> rfl

end Hold

end Manager

namespace Links

theorem of_addEach {links : Links} {units : List UnitId} {child above : UnitId}
    (fresh : child ∉ links.of above) :
    (units.foldl (fun links unit => links.add unit child) links).of above =
      if above ∈ units then links.of above ++ [child] else links.of above := by
  have appended : ∀ (units : List UnitId) {links : Links}, child ∈ links.of above →
      (units.foldl (fun links unit => links.add unit child) links).of above = links.of above := by
    intro units
    induction units with
    | nil => exact fun _ => rfl
    | cons unit rest ih =>
        intro links present
        have same : (links.add unit child).of above = links.of above := by
          rw [of_add]
          split
          · rename_i here
            rw [here, if_pos present]
          · rfl
        rw [List.foldl_cons, ih (same ▸ present), same]
  induction units generalizing links with
  | nil => simp
  | cons unit rest ih =>
      rw [List.foldl_cons]
      by_cases here : unit = above
      · subst here
        have added : (links.add unit child).of unit = links.of unit ++ [child] := by
          rw [of_add, if_pos rfl, if_neg fresh]
        rw [appended rest (by rw [added]; simp), added]
        simp
      · have same : (links.add unit child).of above = links.of above := by
          rw [of_add, if_neg here]
        rw [ih (same ▸ fresh), same]
        simp [Ne.symm here]

end Links

/-- What becoming pending changes, and what it leaves alone. -/
structure Joins {ω : Type} (host : LawfulHost ω) (unit : DecisionUnit)
    (before after : Manager × ω) :
    Prop where
  pending : ∀ id : UnitId, after.1.pending[id]? =
    if unit.id = id then some unit.held else before.1.pending[id]?
  /-- The unit is the last child of its parent. -/
  children : ∀ above : UnitId, after.1.childrenOf above =
    if unit.parent = above then before.1.childrenOf above ++ [unit.id]
    else before.1.childrenOf above
  /-- The unit is the last to refer to each edge of it that is pending. -/
  references : ∀ edge : UnitId, after.1.referencedBy.of edge =
    if edge ∈ unit.body.edges ∧ edge ∈ before.1.pending then
      before.1.referencedBy.of edge ++ [unit.id]
    else before.1.referencedBy.of edge
  claims : ∀ key : StateKey, after.1.consumedBy[key]? =
    if ∃ transaction ∈ unit.body.payload, key ∈ transaction.inputs then some unit.id
    else before.1.consumedBy[key]?
  rejected : after.1.rejected = before.1.rejected
  settings : after.1.settings = before.1.settings
  world : after.2 = host.publish
    (.verified before.1.config.chain unit.id unit.height unit.kind) before.2

section Joins

variable {ω : Type} {host : LawfulHost ω} {origin : StateUpdates} {manager : Manager} {world : ω}
  {accepted : List DecisionUnit} {unit parent : DecisionUnit}

theorem Manager.Linked.referencedBy_hold {store : Store} (linked : manager.Linked accepted)
    (unknown : manager.Unknown store unit.id) (edge : UnitId) :
    (manager.hold unit.held).referencedBy.of edge =
      if edge ∈ unit.body.edges ∧ edge ∈ manager.pending then
        manager.referencedBy.of edge ++ [unit.id]
      else manager.referencedBy.of edge := by
  have fresh : unit.id ∉ manager.referencedBy.of edge := by
    intro listed
    obtain ⟨target, -, -, ⟨other, holds, same, -⟩ | ⟨rejected, found, -⟩⟩ :=
      linked.references listed
    · exact unknown.notPending (same ▸ holds.mem)
    · exact unknown.notRejected (Std.ExtTreeMap.mem_iff_isSome_getElem?.mpr (found ▸ rfl))
  refine (Links.of_addEach fresh).trans (if_congr ?_ rfl rfl)
  rw [List.mem_filter, Manager.isPending, Std.ExtTreeMap.contains_iff_mem]
  exact Iff.rfl

theorem Manager.Linked.joins_hold (linked : manager.Linked accepted)
    (unknown : manager.Unknown (host.store world) unit.id) :
    Joins host unit (manager, world) (manager.hold unit.held,
      host.publish (.verified manager.config.chain unit.id unit.height unit.kind) world) where
  pending _ := Manager.getElem?_pending_hold
  children := by
    intro above
    have fresh : unit.id ∉ manager.children.of unit.parent := by
      intro listed
      obtain ⟨other, holds, same, -⟩ := linked.children listed
      exact unknown.notPending (same ▸ holds.mem)
    have added : (manager.hold unit.held).children.of above =
        (manager.children.add unit.parent unit.id).of above := rfl
    rw [Manager.childrenOf, added, Links.of_add, if_neg fresh]
    split
    · rename_i same
      rw [← same]
      rfl
    · rfl
  references := linked.referencedBy_hold unknown
  claims := by
    intro key
    exact Manager.getElem?_consumedBy_hold.trans (if_congr unit.mem_consumed_held rfl rfl)
  rejected := rfl
  settings := rfl
  world := rfl

end Joins

/-- After any calls, a manager that runs verifies a unit that it does not know exactly if the unit
is eligible; the unit joins the pending ones then, and nothing else changes. -/
theorem Tenure.eligible_run {ω : Type} {host : LawfulHost ω} {config : Configuration}
    {origin : StateUpdates} (tenure : Tenure host config origin) (steps : List (Step host))
    {unit : DecisionUnit} (running : (tenure.run steps).1.halted = none)
    (unknown : (tenure.run steps).1.Unknown (host.store (tenure.run steps).2) unit.id) :
    ((Call.verify unit).answer host (tenure.run steps) = .ok () ↔
      ∃ parent, (tenure.run steps).1.Eligible (host.store (tenure.run steps).2) parent unit) ∧
    ((Call.verify unit).answer host (tenure.run steps) = .ok () →
      Joins host unit (tenure.run steps)
        (((Call.verify unit).step host).perform (tenure.run steps))) := by
  obtain ⟨accepted, sound⟩ := tenure.sound_run steps
  have claimed := tenure.claimed_run steps
  generalize tenure.run steps = situation at *
  dsimp only [Call.answer, Call.step, Step.perform]
  rw [Manager.verify_eq_of_unknown running unknown]
  cases examined : situation.1.examine (host.store situation.2) unit with
  | error problem =>
      refine ⟨⟨nofun, ?_⟩, nofun⟩
      rintro ⟨parent, eligible⟩
      have admits := sound.admits_of_eligible claimed eligible
      rw [Manager.examine_eq_ok_iff.mpr ⟨rfl, parent, admits⟩] at examined
      cases examined
  | ok candidate =>
      obtain ⟨rfl, parent, admits⟩ := Manager.examine_eq_ok_iff.mp examined
      refine ⟨⟨fun _ => ⟨parent, sound.eligible_of_admits claimed admits⟩, fun _ => rfl⟩,
        fun _ => ?_⟩
      exact sound.rooted.joins_hold unknown

namespace Crossing

/-- The two units that the vertex stands on are pending, and the vertex is not known yet. -/
def prepared : List (Step LawfulHost.bare) :=
  [.verify left, .verify right]

set_option maxRecDepth 100000 in
theorem prepared_eq :
    (begun.run prepared).1.halted = none ∧
    vertex.id ∉ (begun.run prepared).1.pending ∧
    ¬(begun.run prepared).1.isAccepted (LawfulHost.bare.store (begun.run prepared).2) vertex.id ∧
    vertex.id ∉ (begun.run prepared).1.rejected ∧
    ((Call.verify vertex).answer LawfulHost.bare (begun.run prepared)).toOption = some () := by
  decide +kernel

/-- The vertex is eligible, and joins the units that it stands on. -/
theorem vertex_joins :
    (begun.run prepared).1.halted = none ∧
    (begun.run prepared).1.Unknown (LawfulHost.bare.store (begun.run prepared).2) vertex.id ∧
    (∃ parent, (begun.run prepared).1.Eligible (LawfulHost.bare.store (begun.run prepared).2)
      parent vertex) ∧
    Joins LawfulHost.bare vertex (begun.run prepared)
      (((Call.verify vertex).step LawfulHost.bare).perform (begun.run prepared)) := by
  obtain ⟨running, notPending, notAccepted, notRejected, answered⟩ := prepared_eq
  have unknown : (begun.run prepared).1.Unknown
      (LawfulHost.bare.store (begun.run prepared).2) vertex.id :=
    ⟨notPending, notAccepted, notRejected⟩
  have settled := begun.eligible_run prepared running unknown
  have verified := toOption_eq_some_iff.mp answered
  exact ⟨running, unknown, settled.1.mp verified, settled.2 verified⟩

end Crossing

end DecisionLedger
