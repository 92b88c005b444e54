import DecisionLedger.Proofs.Exchange
import DecisionLedger.Proofs.Offspring
import DecisionLedger.Proofs.Withdrawal
import Mathlib.Data.List.TakeWhile

/-! # References

A manager lists under a pending unit the vertices that refer to it.  A vertex joins the lists of its
pending edges when it becomes pending, and a list goes with its unit; but a vertex that is rejected
stays on the lists of its edges that are pending still.  So a list has every vertex that became
pending with an edge to the unit since the unit itself did.  Whoever is listed and not pending is
remembered as rejected, and nothing hangs under it, so no walk goes on from there.
-/

namespace DecisionLedger

namespace Links

variable {links : Links}

/-- All pairs of a unit and one that hangs under it. -/
def pairs (links : Links) : List (UnitId × UnitId) :=
  links.toList.flatMap fun entry => entry.2.map fun below => (entry.1, below)

theorem of_eq_of_mem_toList {above : UnitId} {units : List UnitId}
    (listed : (above, units) ∈ links.toList) : links.of above = units := by
  rw [of, Std.ExtTreeMap.getD_eq_getD_getElem?,
    Std.ExtTreeMap.mem_toList_iff_getElem?_eq_some.mp listed]
  rfl

theorem mem_of_of_mem_pairs {above below : UnitId} (paired : (above, below) ∈ links.pairs) :
    below ∈ links.of above := by
  obtain ⟨⟨unit, units⟩, listed, inside⟩ := List.mem_flatMap.mp paired
  obtain ⟨other, under, same⟩ := List.mem_map.mp inside
  cases same
  rwa [of_eq_of_mem_toList listed]

theorem nodup_pairs (once : ∀ above, (links.of above).Nodup) : links.pairs.Nodup := by
  refine List.nodup_flatMap.mpr ⟨?_, ?_⟩
  · rintro ⟨above, units⟩ listed
    have distinct := once above
    rw [of_eq_of_mem_toList listed] at distinct
    exact distinct.map fun _ _ same => congrArg Prod.snd same
  · refine Std.ExtTreeMap.distinct_keys_toList.imp fun {first second} apart pair inside also => ?_
    obtain ⟨left, -, rfl⟩ := List.mem_map.mp inside
    obtain ⟨right, -, same⟩ := List.mem_map.mp also
    exact apart (Std.LawfulEqOrd.compare_eq_iff_eq.mpr (congrArg Prod.fst same).symm)

end Links

namespace DecisionUnit

variable {target unit : DecisionUnit} {order : List DecisionUnit}

/-- What comes in an order of units from a given one on. -/
def onwards (target : DecisionUnit) (order : List DecisionUnit) : List DecisionUnit :=
  order.dropWhile (· ≠ target)

/-- The units that refer to a given one and come after it in an order. -/
def citations (target : DecisionUnit) (order : List DecisionUnit) : List UnitId :=
  ((target.onwards order).filter (target.id ∈ ·.body.edges)).map (·.id)

theorem onwards_concat (inside : target ∈ order) (unit : DecisionUnit) :
    target.onwards (order ++ [unit]) = target.onwards order ++ [unit] := by
  have found : ¬(order.dropWhile (· ≠ target)).isEmpty = true := by
    rw [List.isEmpty_iff, List.dropWhile_eq_nil_iff]
    exact fun none => of_decide_eq_true (none target inside) rfl
  rw [onwards, List.dropWhile_append, if_neg found]
  rfl

theorem onwards_concat_self (fresh : unit ∉ order) : unit.onwards (order ++ [unit]) = [unit] := by
  rw [onwards, List.dropWhile_append_of_pos]
  · simp
  · exact fun other inside => decide_eq_true fun same => fresh (same ▸ inside)

theorem mem_citations {id : UnitId} :
    id ∈ target.citations order ↔
      ∃ unit ∈ target.onwards order, target.id ∈ unit.body.edges ∧ unit.id = id := by
  simp only [citations, List.mem_map, List.mem_filter, decide_eq_true_eq, and_assoc]

theorem citations_concat (inside : target ∈ order) (unit : DecisionUnit) :
    target.citations (order ++ [unit]) =
      if target.id ∈ unit.body.edges then target.citations order ++ [unit.id]
      else target.citations order := by
  rw [citations, onwards_concat inside, List.filter_append, List.map_append, List.filter_singleton]
  by_cases edged : target.id ∈ unit.body.edges <;> simp [edged, citations]

theorem citations_concat_self (fresh : unit ∉ order) (alone : unit.id ∉ unit.body.edges) :
    unit.citations (order ++ [unit]) = [] := by
  rw [citations, onwards_concat_self fresh, List.filter_singleton]
  simp [alone]

end DecisionUnit

namespace Manager

section Turns

variable {origin : StateUpdates} {manager before between after : Manager} {store other : Store}
  {accepted further : List DecisionUnit} {unit target : DecisionUnit}

/-- Whoever is pending still was pending before, and has the list it had of those that refer to
it. -/
structure Retains (before after : Manager) : Prop where
  holds : ∀ {target}, after.Holds target → before.Holds target
  references : ∀ {target}, after.Holds target →
    after.referencedBy.of target.id = before.referencedBy.of target.id

theorem Retains.refl (manager : Manager) : Retains manager manager :=
  ⟨id, fun _ => rfl⟩

theorem Retains.trans (first : Retains before between) (second : Retains between after) :
    Retains before after where
  holds held := first.holds (second.holds held)
  references held := (second.references held).trans (first.references (second.holds held))

theorem retains_discard (automatic : Bool) (manager : Manager) (root : UnitId) :
    Retains manager (Manager.discard automatic manager root).1 where
  holds held := ((holds_discard automatic root).mp held).1
  references held := by
    rw [referencedBy_discard]
    exact if_neg fun gone => ((holds_discard automatic root).mp held).2 gone.1

theorem retains_settleUnit (manager : Manager) (unit : DecisionUnit) :
    Retains manager (manager.settleUnit unit.held).1 := by
  have departed : Retains manager (manager.depart unit.held) :=
    ⟨fun held => (holds_depart.mp held).1, fun held =>
      (Links.of_erase manager.referencedBy unit.id _).trans (if_neg (holds_depart.mp held).2)⟩
  have pruned : Retains manager ((manager.depart unit.held).sequence (Manager.discard true)
      (manager.siblings unit.id)).1 :=
    sequence_induction (fun after => Retains manager after)
      (fun root _ between earlier => earlier.trans (retains_discard true between root)) departed
  exact ⟨pruned.holds, pruned.references⟩

theorem referencedBy_halt (manager : Manager) (reason : HaltReason) :
    (manager.halt reason).1.referencedBy = manager.referencedBy := by
  unfold Manager.halt
  split <;> rfl

theorem Turn.retains (sound : manager.Sound origin store accepted)
    (turn : manager.Turn store after further)
    (shrinks : ∀ {unit}, after.Holds unit → manager.Holds unit) : Retains manager after := by
  induction turn with
  | rest => exact .refl manager
  | acknowledge => exact ⟨id, fun _ => rfl⟩
  | hold unknown _ =>
      have born := shrinks ((holds_hold unknown.notPending).mpr (.inl rfl))
      exact absurd born.mem unknown.notPending
  | discard root => exact retains_discard false manager root
  | settle plans =>
      exact sound.rooted.settle_induction (fun after _ => Retains manager after)
        (fun root _ earlier => earlier.trans (retains_discard true _ root))
        (fun _ _ earlier => earlier.trans (retains_settleUnit _ _)) plans (.refl manager)
  | halt reason _ ih =>
      have earlier := ih fun held => shrinks ((holds_halt reason).mpr held)
      refine ⟨shrinks, fun held => ?_⟩
      rw [referencedBy_halt]
      exact earlier.references ((holds_halt reason).mp held)

/-- Who becomes pending joins the lists of its pending edges, and no other list changes. -/
theorem Turn.referencedBy_of_bears (sound : manager.Sound origin store accepted)
    (turn : manager.Turn store after further) (fresh : unit.id ∉ manager.pending)
    (born : after.Holds unit) (edge : UnitId) :
    after.referencedBy.of edge =
      if edge ∈ unit.body.edges ∧ edge ∈ manager.pending then
        manager.referencedBy.of edge ++ [unit.id]
      else manager.referencedBy.of edge := by
  induction turn with
  | rest | acknowledge => exact absurd born.mem fresh
  | hold unknown _ =>
      rcases (holds_hold unknown.notPending).mp born with rfl | before
      · exact sound.rooted.referencedBy_hold unknown edge
      · exact absurd before.mem fresh
  | discard root => exact absurd ((holds_discard false root).mp born).1.mem fresh
  | settle plans => exact absurd (Holds.of_settle plans born).mem fresh
  | halt reason _ ih =>
      rw [referencedBy_halt]
      exact ih ((holds_halt reason).mp born)

/-- While a unit stays pending, nobody who refers to it is accepted, and nobody is forgotten. -/
theorem Turn.cited (sound : manager.Sound origin store accepted)
    (next : after.Sound origin other (accepted ++ further))
    (turn : manager.Turn store after further) (stays : after.Holds target)
    (edged : target.id ∈ unit.body.edges) (higher : target.height < unit.height)
    (known : manager.Holds unit ∨ manager.Recalls unit) :
    after.Holds unit ∨ after.Recalls unit := by
  have knows : manager.Knows accepted unit := known.imp_right .inr
  rcases turn.knows_or_past sound (.inl knows) with (holds | inside | recalls) | past
  · exact .inl holds
  · -- all edges of an accepted unit are accepted
    obtain ⟨settled, here, same, -⟩ := next.chronicle.edges unit inside _ edged
    exact absurd (same ▸ stays.mem) (next.rooted.settled here).1
  · exact .inr recalls
  · -- whatever refers to a pending unit stands above the last accepted one
    have above := UInt64.lt_trans (next.rooted.height_lt stays) higher
    exact absurd past (not_isPast_of_lt above)

end Turns

section Entries

variable {origin : StateUpdates} {manager after : Manager} {store : Store}
  {accepted further : List DecisionUnit} {unit : DecisionUnit}

theorem branch_of_barren {root : UnitId}
    (barren : Links.dependents manager.children manager.referencedBy root = []) :
    manager.branch root = [root] := by
  rw [branch, Links.reach, if_neg Std.ExtTreeSet.not_mem_empty, barren]
  simp [Links.reach]

/-- There are lists of referring vertices for pending units alone. -/
def Anchored (manager : Manager) : Prop :=
  ∀ edge ∈ manager.referencedBy, edge ∈ manager.pending

theorem Anchored.discardUnit (anchored : manager.Anchored) (root : UnitId) (automatic : Bool)
    (unit : UnitId) : (Manager.discardUnit root automatic manager unit).1.Anchored := by
  unfold Manager.discardUnit
  cases manager.pending[unit]? with
  | none => exact anchored
  | some pending =>
      intro edge inside
      obtain ⟨apart, before⟩ := Std.ExtTreeMap.mem_erase.mp inside
      exact Std.ExtTreeMap.mem_erase.mpr ⟨apart, anchored edge before⟩

theorem Anchored.discard (anchored : manager.Anchored) (automatic : Bool) (root : UnitId) :
    (Manager.discard automatic manager root).1.Anchored :=
  sequence_induction (fun after => after.Anchored)
    (fun unit _ _ before => before.discardUnit root automatic unit) anchored

theorem Anchored.settleUnit (anchored : manager.Anchored) (unit : DecisionUnit) :
    (manager.settleUnit unit.held).1.Anchored := by
  have departed : (manager.depart unit.held).Anchored := by
    intro edge inside
    obtain ⟨apart, before⟩ := Std.ExtTreeMap.mem_erase.mp inside
    exact Std.ExtTreeMap.mem_erase.mpr ⟨apart, anchored edge before⟩
  have pruned : ((manager.depart unit.held).sequence (Manager.discard true)
      (manager.siblings unit.id)).1.Anchored :=
    sequence_induction (fun after => after.Anchored)
      (fun root _ _ before => before.discard true root) departed
  exact pruned

theorem Anchored.hold (anchored : manager.Anchored) (unit : DecisionUnit) :
    (manager.hold unit.held).Anchored := by
  intro edge inside
  rcases Links.mem_addEach.mp inside with pending | before
  · have present := (List.mem_filter.mp pending).2
    exact mem_pending_hold.mpr (.inr (Std.ExtTreeMap.contains_iff_mem.mp present))
  · exact mem_pending_hold.mpr (.inr (anchored edge before))

theorem Turn.anchored (sound : manager.Sound origin store accepted)
    (turn : manager.Turn store after further) (anchored : manager.Anchored) : after.Anchored := by
  induction turn with
  | rest | acknowledge => exact anchored
  | hold => exact anchored.hold _
  | discard root => exact anchored.discard false root
  | settle plans =>
      exact sound.rooted.settle_induction (fun after _ => after.Anchored)
        (fun root _ before => before.discard true root)
        (fun _ _ before => before.settleUnit _) plans anchored
  | halt reason _ ih =>
      intro edge inside
      rw [referencedBy_halt] at inside
      rw [pending_halt]
      exact ih edge inside

theorem Anchored.of_eq_nil (anchored : manager.Anchored) {edge : UnitId}
    (absent : edge ∉ manager.pending) : manager.referencedBy.of edge = [] :=
  Std.ExtTreeMap.getD_eq_fallback fun present => absent (anchored edge present)

theorem anchored_initial (config : Configuration) (tip : DecisionUnit) :
    (initial config tip).Anchored :=
  fun _ inside => absurd inside Std.ExtTreeMap.not_mem_empty

end Entries

section Order

variable {origin : StateUpdates} {manager after : Manager} {store other : Store}
  {accepted further order : List DecisionUnit} {unit : DecisionUnit}

/-- An order of units that every list of referring vertices can be read off.  Whoever it says is on
the list of a pending unit is still known. -/
structure Cites (manager : Manager) (order : List DecisionUnit) : Prop where
  arrived : ∀ {target}, manager.Holds target → target ∈ order
  citing : ∀ {target}, manager.Holds target →
    manager.referencedBy.of target.id = target.citations order
  recalled : ∀ {target unit}, manager.Holds target → unit ∈ target.onwards order →
    target.id ∈ unit.body.edges →
    target.height < unit.height ∧ (manager.Holds unit ∨ manager.Recalls unit)

theorem Cites.thin (cites : manager.Cites order) (sound : manager.Sound origin store accepted)
    (next : after.Sound origin other (accepted ++ further))
    (turn : manager.Turn store after further) (thins : Thins manager after) :
    after.Cites order where
  arrived holds := cites.arrived (thins.holds holds)
  citing holds :=
    ((turn.retains sound thins.holds).references holds).trans (cites.citing (thins.holds holds))
  recalled holds inside edged := by
    obtain ⟨higher, known⟩ := cites.recalled (thins.holds holds) inside edged
    exact ⟨higher, turn.cited sound next holds edged higher known⟩

theorem Cites.bear (cites : manager.Cites order) (sound : manager.Sound origin store accepted)
    (next : after.Sound origin other (accepted ++ further))
    (turn : manager.Turn store after further) (bears : Bears manager after unit)
    (new : unit ∉ order) : after.Cites (order ++ [unit]) := by
  have born : after.Holds unit := bears.holds.mpr (.inl rfl)
  have joins := turn.referencedBy_of_bears sound bears.fresh born
  have lower {target : DecisionUnit} (held : after.Holds target)
      (edged : target.id ∈ unit.body.edges) : target.height < unit.height :=
    next.rooted.height_lt_of_edge born held edged
  refine ⟨fun {target} held => ?_, fun {target} held => ?_,
    fun {target cited} held inside edged => ?_⟩
  · rcases bears.holds.mp held with rfl | before
    · exact List.mem_append_right _ List.mem_cons_self
    · exact List.mem_append_left _ (cites.arrived before)
  · rw [joins]
    rcases bears.holds.mp held with rfl | before
    · -- nobody refers to a unit that was not pending, the unit itself no more than others
      have none : manager.referencedBy.of target.id = [] := by
        refine List.eq_nil_iff_forall_not_mem.mpr fun vertex listed => ?_
        obtain ⟨other, holds, same, -⟩ := sound.rooted.references listed
        exact bears.fresh (same ▸ holds.mem)
      have alone : target.id ∉ target.body.edges :=
        fun edged => UInt64.lt_irrefl _ (lower held edged)
      rw [if_neg (fun cited => alone cited.1), none, DecisionUnit.citations_concat_self new alone]
    · rw [DecisionUnit.citations_concat (cites.arrived before), ← cites.citing before]
      simp only [before.mem, and_true]
  · rcases bears.holds.mp held with rfl | before
    · rw [DecisionUnit.onwards_concat_self new] at inside
      cases List.mem_singleton.mp inside
      exact ⟨lower held edged, .inl held⟩
    · rw [DecisionUnit.onwards_concat (cites.arrived before)] at inside
      rcases List.mem_append.mp inside with earlier | last
      · obtain ⟨higher, known⟩ := cites.recalled before earlier edged
        exact ⟨higher, turn.cited sound next held edged higher known⟩
      · cases List.mem_singleton.mp last
        exact ⟨lower held edged, .inl born⟩

theorem cites_initial (config : Configuration) (tip : DecisionUnit) :
    (initial config tip).Cites [] where
  arrived held := absurd held.mem Std.ExtTreeMap.not_mem_empty
  citing held := absurd held.mem Std.ExtTreeMap.not_mem_empty
  recalled held := absurd held.mem Std.ExtTreeMap.not_mem_empty

end Order

section Referred

variable {origin : StateUpdates} {manager : Manager} {store : Store}
  {accepted order : List DecisionUnit} {unit other target : DecisionUnit}

theorem Linked.eq_of_id (linked : manager.Linked accepted)
    (known : manager.Holds unit ∨ manager.Recalls unit)
    (also : manager.Holds other ∨ manager.Recalls other) (same : unit.id = other.id) :
    unit = other := by
  rcases known with holds | recalls <;> rcases also with held | recalled
  · exact holds.eq_of_id held same
  · exact absurd (same ▸ holds.mem) (linked.rejected recalled.mem)
  · exact absurd (same ▸ held.mem) (linked.rejected recalls.mem)
  · obtain ⟨found, here, rfl⟩ := recalls
    obtain ⟨further, there, rfl⟩ := recalled
    rw [same, there] at here
    exact congrArg RejectedUnit.unit (Option.some.inj here).symm

theorem Cites.exists_of_mem (cites : manager.Cites order) (linked : manager.Linked accepted)
    {edge vertex : UnitId} (listed : vertex ∈ manager.referencedBy.of edge) :
    edge ∈ manager.pending ∧ ∃ unit, unit.id = vertex ∧ edge ∈ unit.body.edges ∧
      (manager.Holds unit ∨ manager.Recalls unit) := by
  obtain ⟨target, held, rfl, -⟩ := linked.references listed
  rw [cites.citing held, DecisionUnit.mem_citations] at listed
  obtain ⟨unit, inside, edged, same⟩ := listed
  exact ⟨held.mem, unit, same, edged, (cites.recalled held inside edged).2⟩

/-- A pending vertex is listed under those of its edges that are pending. -/
theorem Cites.mem_iff (cites : manager.Cites order) (linked : manager.Linked accepted)
    (holds : manager.Holds unit) {edge : UnitId} :
    unit.id ∈ manager.referencedBy.of edge ↔ edge ∈ unit.body.edges ∧ edge ∈ manager.pending := by
  constructor
  · intro listed
    obtain ⟨present, other, same, edged, known⟩ := cites.exists_of_mem linked listed
    cases linked.eq_of_id known (.inl holds) same
    exact ⟨edged, present⟩
  · rintro ⟨edged, present⟩
    obtain ⟨target, held, rfl⟩ := linked.mem_pending_iff.mp present
    exact linked.referenced holds held edged

theorem Cites.exists_rejected (cites : manager.Cites order) (linked : manager.Linked accepted)
    {edge vertex : UnitId} (listed : vertex ∈ manager.referencedBy.of edge)
    (absent : vertex ∉ manager.pending) :
    ∃ found, manager.rejected[vertex]? = some found ∧ edge ∈ found.unit.body.edges := by
  obtain ⟨-, unit, rfl, edged, holds | ⟨found, here, rfl⟩⟩ := cites.exists_of_mem linked listed
  · exact absurd holds.mem absent
  · exact ⟨found, here, edged⟩

/-- A list says who is pending with the edge exactly if nobody on it is remembered as rejected. -/
theorem Cites.exact_iff (cites : manager.Cites order) (linked : manager.Linked accepted)
    (edge : UnitId) :
    (∀ vertex, vertex ∈ manager.referencedBy.of edge ↔ edge ∈ manager.pending ∧
      ∃ pending, manager.pending[vertex]? = some pending ∧ edge ∈ pending.unit.body.edges) ↔
    ∀ vertex ∈ manager.referencedBy.of edge, vertex ∉ manager.rejected := by
  constructor
  · intro exactly vertex listed gone
    obtain ⟨-, pending, found, -⟩ := (exactly vertex).mp listed
    exact linked.rejected gone (mem_pending_of_getElem? found)
  · intro clean vertex
    constructor
    · intro listed
      obtain ⟨present, unit, rfl, edged, holds | recalls⟩ := cites.exists_of_mem linked listed
      · exact ⟨present, unit.held, holds, edged⟩
      · exact absurd recalls.mem (clean _ listed)
    · rintro ⟨present, pending, found, edged⟩
      obtain ⟨unit, holds, rfl, rfl⟩ := linked.exists_of_getElem? found
      exact (cites.mem_iff linked holds).mpr ⟨edged, present⟩

theorem Cites.dependents_eq_nil (cites : manager.Cites order) (rooted : manager.Rooted accepted)
    (anchored : manager.Anchored) (sparse : manager.Sparse manager.lastAccepted.id)
    {edge vertex : UnitId} (listed : vertex ∈ manager.referencedBy.of edge)
    (absent : vertex ∉ manager.pending) :
    Links.dependents manager.children manager.referencedBy vertex = [] := by
  obtain ⟨found, here, -⟩ := cites.exists_rejected rooted.toLinked listed absent
  have childless : vertex ∉ manager.children := by
    intro parent
    rcases sparse vertex parent with present | rfl
    · exact absent present
    · exact (rooted.settled (List.mem_of_getLast? rooted.last)).2
        (Std.ExtTreeMap.mem_iff_isSome_getElem?.mpr (here ▸ rfl))
  have none : manager.children.of vertex = [] := Std.ExtTreeMap.getD_eq_fallback childless
  rw [Links.dependents, none, anchored.of_eq_nil absent]
  rfl

theorem Cites.containsUnit_eq_false (cites : manager.Cites order)
    (sound : manager.Sound origin store accepted) {edge vertex : UnitId}
    (listed : vertex ∈ manager.referencedBy.of edge) : store.containsUnit vertex = false := by
  refine Bool.eq_false_iff.mpr fun stored => ?_
  obtain ⟨settled, past, rfl⟩ := sound.records.containsUnit_iff.mp stored
  obtain ⟨notPending, notRejected⟩ := sound.rooted.settled past
  obtain ⟨-, unit, same, -, holds | recalls⟩ := cites.exists_of_mem sound.rooted.toLinked listed
  · exact notPending (same ▸ holds.mem)
  · exact notRejected (same ▸ recalls.mem)

theorem Cites.nodup (cites : manager.Cites order) (linked : manager.Linked accepted)
    (anchored : manager.Anchored) (distinct : order.Nodup) (edge : UnitId) :
    (manager.referencedBy.of edge).Nodup := by
  by_cases present : edge ∈ manager.pending
  · obtain ⟨target, held, rfl⟩ := linked.mem_pending_iff.mp present
    have known {unit : DecisionUnit}
        (cited : unit ∈ (target.onwards order).filter (target.id ∈ ·.body.edges)) :
        manager.Holds unit ∨ manager.Recalls unit := by
      obtain ⟨inside, edged⟩ := List.mem_filter.mp cited
      exact (cites.recalled held inside (of_decide_eq_true edged)).2
    rw [cites.citing held]
    refine List.Nodup.map_on (fun unit cited other beside same => ?_)
      ((distinct.sublist (List.dropWhile_sublist _)).filter _)
    exact linked.eq_of_id (known cited) (known beside) same
  · rw [anchored.of_eq_nil present]
    exact List.nodup_nil

/-- There are at most as many references as the pending and the remembered units have edges. -/
theorem Cites.length_pairs_le (cites : manager.Cites order) (linked : manager.Linked accepted)
    (once : ∀ edge, (manager.referencedBy.of edge).Nodup) :
    manager.referencedBy.pairs.length ≤
      (manager.pending.toList.flatMap (·.2.unit.body.edges)).length +
        (manager.rejected.toList.flatMap (·.2.unit.body.edges)).length := by
  have among : manager.referencedBy.pairs ⊆
      (manager.pending.toList.flatMap fun entry => entry.2.unit.body.edges.map (·, entry.1)) ++
        manager.rejected.toList.flatMap fun entry => entry.2.unit.body.edges.map (·, entry.1) := by
    rintro ⟨edge, vertex⟩ paired
    obtain ⟨-, unit, rfl, edged, known⟩ :=
      cites.exists_of_mem linked (Links.mem_of_of_mem_pairs paired)
    have pair : (edge, unit.id) ∈ unit.body.edges.map (·, unit.id) :=
      List.mem_map_of_mem edged
    rcases known with holds | ⟨found, here, same⟩
    · exact List.mem_append_left _ (List.mem_flatMap.mpr
        ⟨(unit.id, unit.held), Std.ExtTreeMap.mem_toList_iff_getElem?_eq_some.mpr holds, pair⟩)
    · refine List.mem_append_right _ (List.mem_flatMap.mpr
        ⟨(unit.id, found), Std.ExtTreeMap.mem_toList_iff_getElem?_eq_some.mpr here, ?_⟩)
      rwa [same]
  have shorter := ((Links.nodup_pairs once).subperm among).length_le
  simpa only [List.length_append, List.length_flatMap, List.length_map] using shorter

end Referred

/-- The lists of referring vertices of a manager on its store, in which units became pending one
after another. -/
structure Referrals (manager : Manager) (store : Store) (arrivals : List DecisionUnit) : Prop where
  /-- The list of a pending unit has all vertices that became pending since it did and refer to it,
  in order, whether they are pending still or not. -/
  references : ∀ {id : UnitId} {pending : PendingUnit}, manager.pending[id]? = some pending →
    manager.referencedBy.of id = pending.unit.citations arrivals
  /-- A pending vertex is listed under those of its edges that are pending, and nowhere else. -/
  listed : ∀ {vertex : UnitId} {pending : PendingUnit},
    manager.pending[vertex]? = some pending → ∀ edge,
      vertex ∈ manager.referencedBy.of edge ↔
        edge ∈ pending.unit.body.edges ∧ edge ∈ manager.pending
  /-- Whoever else is listed had the edge, and is remembered as rejected. -/
  stale : ∀ {edge vertex : UnitId}, vertex ∈ manager.referencedBy.of edge →
    vertex ∉ manager.pending →
      ∃ found, manager.rejected[vertex]? = some found ∧ edge ∈ found.unit.body.edges
  /-- A list has exactly the pending vertices with the edge if nobody on it was rejected, and only
  then. -/
  exact_iff : ∀ edge,
    (∀ vertex, vertex ∈ manager.referencedBy.of edge ↔ edge ∈ manager.pending ∧
      ∃ pending, manager.pending[vertex]? = some pending ∧ edge ∈ pending.unit.body.edges) ↔
    ∀ vertex ∈ manager.referencedBy.of edge, vertex ∉ manager.rejected
  /-- Nothing hangs under whoever is listed and not pending. -/
  barren : ∀ {edge vertex : UnitId}, vertex ∈ manager.referencedBy.of edge →
    vertex ∉ manager.pending →
      Links.dependents manager.children manager.referencedBy vertex = []
  unsettled : ∀ {edge vertex : UnitId}, vertex ∈ manager.referencedBy.of edge →
    store.containsUnit vertex = false
  once : ∀ edge, (manager.referencedBy.of edge).Nodup
  entries : ∀ edge ∈ manager.referencedBy, edge ∈ manager.pending
  size : manager.referencedBy.pairs.length ≤
    (manager.pending.toList.flatMap (·.2.unit.body.edges)).length +
      (manager.rejected.toList.flatMap (·.2.unit.body.edges)).length

theorem Cites.referrals {origin : StateUpdates} {manager : Manager} {store : Store}
    {accepted order : List DecisionUnit} (cites : manager.Cites order) (distinct : order.Nodup)
    (sound : manager.Sound origin store accepted) (anchored : manager.Anchored)
    (sparse : manager.Sparse manager.lastAccepted.id) : manager.Referrals store order where
  references := by
    intro id pending found
    obtain ⟨unit, holds, rfl, rfl⟩ := sound.rooted.exists_of_getElem? found
    exact cites.citing holds
  listed := by
    intro vertex pending found edge
    obtain ⟨unit, holds, rfl, rfl⟩ := sound.rooted.exists_of_getElem? found
    exact cites.mem_iff sound.rooted.toLinked holds
  stale := cites.exists_rejected sound.rooted.toLinked
  exact_iff := cites.exact_iff sound.rooted.toLinked
  barren := cites.dependents_eq_nil sound.rooted anchored sparse
  unsettled := cites.containsUnit_eq_false sound
  once := cites.nodup sound.rooted.toLinked anchored distinct
  entries := anchored
  size := cites.length_pairs_le sound.rooted.toLinked
    (cites.nodup sound.rooted.toLinked anchored distinct)

end Manager

/-- After any calls, under a pending unit are listed the vertices that became pending since the unit
did and refer to it.  Those that are not pending any more were rejected, are remembered, and lead
nowhere. -/
theorem Tenure.referrals_run {ω : Type} {host : LawfulHost ω} {config : Configuration}
    {origin : StateUpdates} (tenure : Tenure host config origin) (steps : List (Step host)) :
    (tenure.run steps).1.Referrals (host.store (tenure.run steps).2) (tenure.arrivals steps) := by
  obtain ⟨accepted, tip, same, sound⟩ := tenure.begins
  have start : tenure.manager.Ranks accepted [] ∧ tenure.manager.Cites [] :=
    same ▸ ⟨Manager.ranks_initial config tip, Manager.cites_initial config tip⟩
  obtain ⟨further, later, ranks, cites⟩ := Step.arrivals_induction
    (fun manager accepted order => manager.Ranks accepted order ∧ manager.Cites order)
    (fun sound next turn bears before => by
      have ranks := before.1.bear sound next turn bears
      have apart := (List.nodup_append.mp ranks.distinct).2.2
      have new := fun inside => apart _ inside _ List.mem_cons_self rfl
      exact ⟨ranks, before.2.bear sound next turn bears new⟩)
    (fun sound next turn thins before =>
      ⟨before.1.thin sound next turn thins, before.2.thin sound next turn thins⟩)
    steps (tenure.manager, tenure.world) sound start
  obtain ⟨-, -, anchored, sparse⟩ := Tenure.run_induction
    (fun manager _ => manager.Anchored ∧ manager.Sparse manager.lastAccepted.id)
    (fun _ => ⟨Manager.anchored_initial config _, Manager.sparse_initial config _⟩)
    (fun sound _ turn before => ⟨turn.anchored sound before.1, turn.sparse sound before.2⟩)
    tenure steps
  exact cites.referrals ranks.distinct later anchored sparse

namespace Crossing

/-- The vertex is rejected, and the unit that it refers to stays pending. -/
def lingering : List (Step LawfulHost.bare) :=
  verified ++ [.reject vertex.id]

set_option maxRecDepth 100000 in
theorem dependents_vertex : Links.dependents (begun.run verified).1.children
    (begun.run verified).1.referencedBy vertex.id = [] := by
  decide +kernel

theorem run_lingering : (begun.run lingering).1 =
    (Manager.discardUnit vertex.id false (begun.run verified).1 vertex.id).1 := by
  obtain ⟨running, -, -, present, -⟩ := verified_eq
  obtain ⟨_, sound, -, -⟩ := begun.recalls_run verified
  have alone := Manager.branch_of_barren dependents_vertex
  obtain ⟨pending, found, same⟩ := Option.map_eq_some_iff.mp present
  have keyed := (sound.rooted.keyed found).2
  rw [same] at keyed
  have rejects := sound.rooted.reject_eq running (keyed ▸ found) (by decide)
  rw [Manager.discard, alone] at rejects
  rw [lingering, Tenure.run, Step.run_concat, ← Tenure.run]
  generalize begun.run verified = situation, vertex.id = id at rejects ⊢
  dsimp only [Step.perform]
  rw [rejects]
  rfl

set_option maxRecDepth 100000 in
theorem lingering_eq :
    right.id ∈ (begun.run lingering).1.pending ∧
      vertex.id ∉ (begun.run lingering).1.pending ∧
      (begun.run lingering).1.referencedBy.of right.id = [vertex.id] ∧
      ((begun.run lingering).1.pending.toList.flatMap (·.2.unit.body.edges)).length <
        (begun.run lingering).1.referencedBy.pairs.length := by
  rw [run_lingering]
  decide +kernel

/-- The vertex is listed still under the unit that it refers to, while no pending unit refers to
anything. -/
theorem vertex_lingers :
    let manager := (begun.run lingering).1
    right.id ∈ manager.pending ∧ vertex.id ∈ manager.referencedBy.of right.id ∧
      vertex.id ∉ manager.pending ∧
      (¬∀ id, id ∈ manager.referencedBy.of right.id ↔
        ∃ pending, manager.pending[id]? = some pending ∧ right.id ∈ pending.unit.body.edges) ∧
      ¬manager.referencedBy.pairs.length ≤
        (manager.pending.toList.flatMap (·.2.unit.body.edges)).length := by
  obtain ⟨present, absent, listed, larger⟩ := lingering_eq
  have inside : vertex.id ∈ (begun.run lingering).1.referencedBy.of right.id :=
    listed ▸ List.mem_cons_self
  refine ⟨present, inside, absent, fun exactly => ?_, Nat.not_le.mpr larger⟩
  obtain ⟨pending, found, -⟩ := (exactly vertex.id).mp inside
  exact absent (Manager.mem_pending_of_getElem? found)

end Crossing

end DecisionLedger
