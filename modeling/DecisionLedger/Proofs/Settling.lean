import DecisionLedger.Proofs.RootedTree

/-! # Settling what is accepted

A unit that is accepted leaves the pending ones, the branches beside it are discarded, and it
becomes the last accepted unit; then what is too far below is forgotten.  Each of these steps is
taken by itself here.
-/

namespace DecisionLedger.Manager

/-- Take a pending unit out of the tree, and no longer list what stands beside it. -/
def depart (manager : Manager) (pending : PendingUnit) : Manager :=
  { manager.release pending with
    pending := manager.pending.erase pending.unit.id
    referencedBy := manager.referencedBy.erase pending.unit.id
    children := manager.children.erase manager.lastAccepted.id }

/-- The units that stand beside a child of the last accepted unit. -/
def siblings (manager : Manager) (unit : UnitId) : List UnitId :=
  (manager.children.of manager.lastAccepted.id).filter (· ≠ unit)

/-- Let a unit be the last accepted one. -/
def ascend (manager : Manager) (unit : DecisionUnit) : Manager :=
  { manager with
    children := manager.children.touch unit.id
    lastAccepted := unit
    recent := manager.recent ++ [unit] }

theorem settleUnit_eq (manager : Manager) (unit : DecisionUnit) :
    (manager.settleUnit unit.held).1 =
      ((((manager.depart unit.held).sequence (discard true)
        (manager.siblings unit.id)).1).ascend unit).evict unit.height :=
  rfl

section Depart

variable {manager : Manager} {accepted : List DecisionUnit} {unit other : DecisionUnit}

theorem holds_depart :
    (manager.depart unit.held).Holds other ↔ manager.Holds other ∧ unit.id ≠ other.id := by
  have erased : (manager.depart unit.held).pending[other.id]? =
      if unit.id = other.id then none else manager.pending[other.id]? := by
    simp [depart, DecisionUnit.held, Std.ExtTreeMap.getElem?_erase]
  rw [Holds, erased]
  by_cases same : unit.id = other.id <;> simp [same, Holds]

theorem mem_pending_depart {id : UnitId} :
    id ∈ (manager.depart unit.held).pending ↔ id ∈ manager.pending ∧ unit.id ≠ id := by
  simp [depart, DecisionUnit.held, Std.ExtTreeMap.mem_erase, and_comm]

theorem mem_children_depart {above child : UnitId} :
    child ∈ (manager.depart unit.held).children.of above ↔
      child ∈ manager.children.of above ∧ manager.lastAccepted.id ≠ above := by
  have erased : (manager.depart unit.held).children.of above =
      if manager.lastAccepted.id = above then [] else manager.children.of above :=
    Links.of_erase manager.children manager.lastAccepted.id above
  rw [erased]
  by_cases same : manager.lastAccepted.id = above <;> simp [same]

theorem mem_referencedBy_depart {edge vertex : UnitId} :
    vertex ∈ (manager.depart unit.held).referencedBy.of edge ↔
      vertex ∈ manager.referencedBy.of edge ∧ unit.id ≠ edge := by
  have erased : (manager.depart unit.held).referencedBy.of edge =
      if unit.id = edge then [] else manager.referencedBy.of edge :=
    Links.of_erase manager.referencedBy unit.id edge
  rw [erased]
  by_cases same : unit.id = edge <;> simp [same]

/-- A unit may be accepted next: it is pending on the last accepted unit, and no edge of it is
pending. -/
structure Next (manager : Manager) (unit : DecisionUnit) : Prop where
  holds : manager.Holds unit
  parent_eq : unit.parent = manager.lastAccepted.id
  edges : ∀ edge ∈ unit.body.edges, edge ∉ manager.pending

theorem Rooted.last_not_pending (rooted : manager.Rooted accepted) :
    manager.lastAccepted.id ∉ manager.pending :=
  (rooted.settled (List.mem_of_getLast? rooted.last)).1

/-- Once the unit to accept has left, what stands beside it is no longer listed. -/
theorem Rooted.depart (rooted : manager.Rooted accepted) (next : manager.Next unit) :
    (manager.depart unit.held).Linked (accepted ++ [unit]) where
  keyed := by
    intro id pending found
    apply rooted.keyed
    by_cases same : unit.id = id
    · simp [Manager.depart, DecisionUnit.held, same] at found
    · simpa [Manager.depart, DecisionUnit.held, Std.ExtTreeMap.getElem?_erase, same] using found
  parent := by
    intro other holds
    obtain ⟨before, -⟩ := holds_depart.mp holds
    rcases rooted.parent before with ⟨above, held, follows⟩ | ⟨above, inside, same⟩
    · by_cases here : unit.id = above.id
      · exact .inr ⟨unit, List.mem_append_right _ List.mem_cons_self,
          here.trans follows.parent_eq.symm⟩
      · exact .inl ⟨above, holds_depart.mpr ⟨held, here⟩, follows⟩
    · exact .inr ⟨above, List.mem_append_left _ inside, same⟩
  edges := by
    intro other holds edge edged
    obtain ⟨before, -⟩ := holds_depart.mp holds
    obtain ⟨target, same, lower, held | inside⟩ := rooted.edges before edge edged
    · by_cases here : unit.id = target.id
      · cases next.holds.eq_of_id held here
        exact ⟨unit, same, lower, .inr (List.mem_append_right _ List.mem_cons_self)⟩
      · exact ⟨target, same, lower, .inl (holds_depart.mpr ⟨held, here⟩)⟩
    · exact ⟨target, same, lower, .inr (List.mem_append_left _ inside)⟩
  children := by
    intro above child listed
    obtain ⟨before, apart⟩ := mem_children_depart.mp listed
    obtain ⟨other, holds, rfl, under⟩ := rooted.children before
    refine ⟨other, holds_depart.mpr ⟨holds, fun same => apart ?_⟩, rfl, under⟩
    cases next.holds.eq_of_id holds same
    exact next.parent_eq.symm.trans under
  listed := by
    intro other holds attached
    obtain ⟨before, -⟩ := holds_depart.mp holds
    have pending : other.parent ∈ manager.pending := by
      rcases attached with present | ⟨tip, last, same⟩
      · exact (mem_pending_depart.mp present).1
      · rw [List.getLast?_concat] at last
        cases last
        exact same ▸ next.holds.mem
    refine mem_children_depart.mpr ⟨rooted.listed before (.inl pending), fun same => ?_⟩
    exact rooted.last_not_pending (same ▸ pending)
  references := by
    intro edge vertex listed
    obtain ⟨before, apart⟩ := mem_referencedBy_depart.mp listed
    obtain ⟨target, held, rfl, known⟩ := rooted.references before
    refine ⟨target, holds_depart.mpr ⟨held, apart⟩, rfl, ?_⟩
    rcases known with ⟨other, holds, same, edged⟩ | gone
    · refine .inl ⟨other, holds_depart.mpr ⟨holds, fun here => ?_⟩, same, edged⟩
      cases next.holds.eq_of_id holds here
      exact next.edges _ edged held.mem
    · exact .inr gone
  referenced := by
    intro other target holds held edged
    obtain ⟨present, apart⟩ := holds_depart.mp held
    exact mem_referencedBy_depart.mpr
      ⟨rooted.referenced (holds_depart.mp holds).1 present edged, apart⟩
  options := by
    intro left right choice holdsLeft holdsRight
    exact rooted.options (holds_depart.mp holdsLeft).1 (holds_depart.mp holdsRight).1
  settled := by
    intro other inside
    rcases List.mem_append.mp inside with old | new
    · obtain ⟨notPending, notRejected⟩ := rooted.settled old
      exact ⟨fun present => notPending (mem_pending_depart.mp present).1, notRejected⟩
    · cases List.mem_singleton.mp new
      exact ⟨fun present => (mem_pending_depart.mp present).2 rfl,
        fun gone => rooted.rejected gone next.holds.mem⟩
  rejected := by
    intro id gone present
    exact rooted.rejected gone (mem_pending_depart.mp present).1

end Depart

section DiscardEach

variable {manager : Manager} (automatic : Bool) (roots : List UnitId)

theorem Holds.of_discardEach {unit : DecisionUnit}
    (holds : (manager.sequence (discard automatic) roots).1.Holds unit) :
    manager.Holds unit ∧ unit.id ∉ roots := by
  induction roots generalizing manager with
  | nil => exact ⟨holds, List.not_mem_nil⟩
  | cons root rest ih =>
      obtain ⟨later, outside⟩ := ih holds
      obtain ⟨before, apart⟩ := (holds_discard automatic root).mp later
      refine ⟨before, fun inside => ?_⟩
      rcases List.mem_cons.mp inside with rfl | deeper
      · exact apart (manager.root_mem_branch _)
      · exact outside deeper

end DiscardEach

section Ascend

variable {manager : Manager} {accepted : List DecisionUnit} {unit : DecisionUnit}

theorem Rooted.height_lt (rooted : manager.Rooted accepted) (holds : manager.Holds unit) :
    manager.lastAccepted.height < unit.height := by
  induction steps : unit.height.toNat using Nat.strongRecOn generalizing unit with
  | ind height ih =>
      rw [UInt64.lt_iff_toNat_lt]
      by_cases present : unit.parent ∈ manager.pending
      · obtain ⟨above, held, same⟩ := rooted.mem_pending_iff.mp present
        have follows := rooted.extends_of_parent holds held same.symm
        have higher := follows.height_eq
        have lower := ih above.height.toNat (by omega) held rfl
        rw [UInt64.lt_iff_toNat_lt] at lower
        omega
      · have higher := (rooted.rooted holds present).height_eq
        omega

/-- To forget what is far below the last accepted unit keeps the tree: a rejected unit that is still
listed is as high as some pending unit. -/
theorem Rooted.evict (rooted : manager.Rooted accepted) :
    (manager.evict manager.lastAccepted.height).Rooted accepted where
  keyed := rooted.keyed
  parent := rooted.parent
  edges := rooted.edges
  children := rooted.children
  listed := rooted.listed
  references := by
    intro edge vertex listed
    obtain ⟨target, held, same, holds | ⟨rejected, found, lower⟩⟩ := rooted.references listed
    · exact ⟨target, held, same, .inl holds⟩
    · refine ⟨target, held, same, .inr ⟨rejected, ?_, lower⟩⟩
      have above := rooted.height_lt held
      have near : ¬manager.config.window <
          manager.lastAccepted.height.distance rejected.unit.height := by
        rw [UInt64.lt_iff_toNat_lt] at lower above
        rw [UInt64.lt_iff_toNat_lt, Height.toNat_distance]
        omega
      simp [Manager.evict, Std.ExtTreeMap.getElem?_filter, found, near]
  referenced := rooted.referenced
  options := rooted.options
  settled := by
    intro unit inside
    refine ⟨(rooted.settled inside).1, fun gone => (rooted.settled inside).2 ?_⟩
    exact Std.ExtTreeMap.mem_of_mem_filter gone
  rejected := by
    intro id gone
    exact rooted.rejected (Std.ExtTreeMap.mem_of_mem_filter gone)
  last := rooted.last
  rooted := rooted.rooted
  recent := by
    intro unit remembered
    exact rooted.recent unit ((List.dropWhile_suffix _).subset remembered)

theorem recent_discardEach (automatic : Bool) (manager : Manager) (roots : List UnitId) :
    (manager.sequence (discard automatic) roots).1.recent = manager.recent :=
  congrArg (·.2.2.1) (settings_discardEach automatic manager roots)

/-- With the branches beside the accepted unit gone, everything pending stands on that unit. -/
theorem Rooted.settleUnit (rooted : manager.Rooted accepted) (next : manager.Next unit) :
    (manager.settleUnit unit.held).1.Rooted (accepted ++ [unit]) := by
  rw [settleUnit_eq]
  have linked := (rooted.depart next).discardEach true (manager.siblings unit.id)
  generalize pruned :
    ((manager.depart unit.held).sequence (Manager.discard true) (manager.siblings unit.id)).1 =
      alone at linked
  have remains : ∀ {other}, alone.Holds other →
      manager.Holds other ∧ unit.id ≠ other.id ∧ other.id ∉ manager.siblings unit.id := by
    intro other holds
    rw [← pruned] at holds
    obtain ⟨departed, outside⟩ := holds.of_discardEach
    obtain ⟨before, apart⟩ := holds_depart.mp departed
    exact ⟨before, apart, outside⟩
  suffices ascended : (alone.ascend unit).Rooted (accepted ++ [unit]) by exact ascended.evict
  refine { keyed := linked.keyed, parent := linked.parent, edges := linked.edges, children := ?_,
           listed := ?_, references := linked.references, referenced := linked.referenced,
           options := linked.options, settled := linked.settled, rejected := linked.rejected,
           last := List.getLast?_concat, rooted := ?_, recent := ?_ }
  · intro above child listed
    exact linked.children (by simpa [ascend] using listed)
  · intro other holds attached
    simpa [ascend] using linked.listed holds attached
  · intro other holds unattached
    obtain ⟨before, apart, outside⟩ := remains holds
    rcases linked.parent holds with ⟨above, held, follows⟩ | ⟨above, inside, same⟩
    · exact absurd (follows.parent_eq ▸ held.mem) unattached
    · rcases List.mem_append.mp inside with old | new
      · -- what stood on the previous last unit was beside the accepted one
        have follows := rooted.rooted before (same ▸ (rooted.settled old).1)
        have listed := rooted.listed before (.inr ⟨_, rooted.last, follows.parent_eq.symm⟩)
        refine absurd (List.mem_filter.mpr ⟨?_, ?_⟩) outside
        · rw [← follows.parent_eq]
          exact listed
        · exact decide_eq_true (Ne.symm apart)
      · cases List.mem_singleton.mp new
        exact rooted.extends_of_parent before next.holds same.symm
  · intro other remembered
    rcases List.mem_append.mp remembered with old | new
    · rw [← pruned, recent_discardEach] at old
      exact List.mem_append_left _ (rooted.recent other old)
    · exact List.mem_append_right _ new

end Ascend

end DecisionLedger.Manager
