import DecisionLedger.Proofs.Agreement

/-! # Managers that remember differently

Two managers may differ in how far back they remember decided units, and in nothing else.  Whatever
is done to both, they differ in nothing else afterwards, and they announce the same.  What a manager
has forgotten of accepted units it finds in the store.
-/

namespace DecisionLedger

def ManagerError.namesRejected : ManagerError → Bool
  | alreadyRejected _ | invalidParent _ .rejected => true
  | _ => false

namespace Manager

/-- Two managers that differ at most in their window and in what they remember. -/
inductive Alike (manager : Manager) : Manager → Prop where
  | intro (window : UInt64) (rejected : Std.ExtTreeMap UnitId RejectedUnit)
      (recent : List DecisionUnit) :
      Alike manager { manager with config := { manager.config with window }, rejected, recent }

namespace Alike

variable {left right : Manager}

theorem symm (alike : left.Alike right) : right.Alike left := by
  cases alike with
  | intro window rejected recent => exact .intro left.config.window left.rejected left.recent

theorem pending_eq (alike : left.Alike right) : right.pending = left.pending := by
  cases alike
  rfl

theorem children_eq (alike : left.Alike right) : right.children = left.children := by
  cases alike
  rfl

theorem referencedBy_eq (alike : left.Alike right) : right.referencedBy = left.referencedBy := by
  cases alike
  rfl

theorem consumedBy_eq (alike : left.Alike right) : right.consumedBy = left.consumedBy := by
  cases alike
  rfl

theorem lastAccepted_eq (alike : left.Alike right) : right.lastAccepted = left.lastAccepted := by
  cases alike
  rfl

theorem halted_eq (alike : left.Alike right) : right.halted = left.halted := by
  cases alike
  rfl

theorem config_eq (alike : left.Alike right) :
    right.config = { left.config with window := right.config.window } := by
  cases alike
  rfl

theorem chain_eq (alike : left.Alike right) : right.config.chain = left.config.chain := by
  rw [alike.config_eq]

theorem holds_iff (alike : left.Alike right) {unit : DecisionUnit} :
    right.Holds unit ↔ left.Holds unit := by
  rw [Holds, Holds, alike.pending_eq]

/-- An act that does and says the same to managers that are alike. -/
def Respects {α : Type} (act : Manager → α → Manager × List Event) : Prop :=
  ∀ {left right : Manager} (argument : α), left.Alike right →
    (act left argument).1.Alike (act right argument).1 ∧
      (act left argument).2 = (act right argument).2

theorem sequence {α : Type} {act : Manager → α → Manager × List Event} (respects : Respects act) :
    Respects fun manager arguments => manager.sequence act arguments := by
  intro left right arguments alike
  induction arguments generalizing left right with
  | nil => exact ⟨alike, rfl⟩
  | cons argument rest ih =>
      obtain ⟨next, first⟩ := respects argument alike
      obtain ⟨final, later⟩ := ih next
      exact ⟨final, congrArg₂ (· ++ ·) first later⟩

theorem discardUnit (root : UnitId) (automatic : Bool) :
    Respects (Manager.discardUnit root automatic) := by
  intro left right unit alike
  cases alike with
  | intro window rejected recent =>
      unfold Manager.discardUnit
      cases found : left.pending[unit]? with
      | none => exact ⟨.intro window rejected recent, rfl⟩
      | some pending => exact ⟨.intro window _ recent, rfl⟩

theorem discard (automatic : Bool) : Respects (Manager.discard automatic) := by
  intro left right root alike
  have same : right.branch root = left.branch root := by
    rw [branch, branch, alike.children_eq, alike.referencedBy_eq]
  unfold Manager.discard
  rw [same]
  exact sequence (discardUnit root automatic) _ alike

theorem ascend (alike : left.Alike right) (unit : DecisionUnit) (newest : Height) :
    ((left.ascend unit).evict newest).Alike ((right.ascend unit).evict newest) := by
  cases alike with
  | intro window rejected recent => exact .intro window _ _

theorem settleUnit : Respects Manager.settleUnit := by
  intro left right pending alike
  have departed : (left.depart pending).Alike (right.depart pending) := by
    cases alike with
    | intro window rejected recent => exact .intro window rejected recent
  have beside : right.siblings pending.unit.id = left.siblings pending.unit.id := by
    rw [siblings, siblings, alike.children_eq, alike.lastAccepted_eq]
  obtain ⟨pruned, announced⟩ := sequence (discard true) (left.siblings pending.unit.id) departed
  have split (manager : Manager) : manager.settleUnit pending =
      let pruned := (manager.depart pending).sequence (Manager.discard true)
        (manager.siblings pending.unit.id)
      ((pruned.1.ascend pending.unit).evict pending.unit.height, pruned.2 ++
        [.accepted manager.config.chain pending.unit.id pending.unit.height pending.unit.kind]) :=
    rfl
  rw [split, split, beside, alike.chain_eq]
  exact ⟨pruned.ascend pending.unit pending.unit.height, congrArg (· ++ _) announced⟩

theorem settle : Respects Manager.settle := by
  intro left right plan alike
  obtain ⟨decided, dismissals⟩ := sequence (discard true) plan.dismissed.toList alike
  obtain ⟨settled, acceptances⟩ := sequence settleUnit plan.accepted decided
  exact ⟨settled, congrArg₂ (· ++ ·) dismissals acceptances⟩

theorem halt : Respects Manager.halt := by
  intro left right reason alike
  rcases Option.eq_none_or_eq_some left.halted with running | ⟨earlier, stopped⟩
  · rw [halt_of_running running, halt_of_running (alike.halted_eq.trans running), alike.chain_eq]
    refine ⟨?_, rfl⟩
    cases alike with
    | intro window rejected recent => exact .intro window rejected recent
  · have rests {manager : Manager} (halted : manager.halted = some earlier) :
        manager.halt reason = (manager, []) := by
      simp [Manager.halt, halted]
    rw [rests stopped, rests (alike.halted_eq.trans stopped)]
    exact ⟨alike, rfl⟩

theorem hold (alike : left.Alike right) (candidate : PendingUnit) :
    (left.hold candidate).Alike (right.hold candidate) := by
  cases alike with
  | intro window rejected recent => exact .intro window rejected recent

theorem ensureRunning_eq (alike : left.Alike right) :
    right.ensureRunning = left.ensureRunning := by
  rw [Manager.ensureRunning, Manager.ensureRunning, alike.halted_eq]

end Alike

section Recourse

variable {manager left right : Manager} {store : Store} {accepted : List DecisionUnit}

theorem Rooted.knownHeight?_eq (rooted : manager.Rooted accepted) (chronicle : Chronicle accepted)
    (lists : store.Lists accepted) (id : UnitId) :
    manager.knownHeight? store id = .ok (match manager.pending[id]? with
      | some pending => some pending.unit.height
      | none => (accepted.find? (·.id = id)).map (·.height)) := by
  unfold knownHeight?
  cases manager.pending[id]? with
  | some pending => rfl
  | none =>
      dsimp only
      cases found : manager.recent? id with
      | none =>
          dsimp only
          rw [lists.unit?]
      | some unit =>
          obtain ⟨inside, rfl⟩ := recent?_eq_some found
          rw [chronicle.find?_id (rooted.recent unit inside)]
          rfl

theorem Rooted.isAccepted_eq (rooted : left.Rooted accepted) (other : right.Rooted accepted)
    (lists : store.Lists accepted) (id : UnitId) :
    right.isAccepted store id = left.isAccepted store id := by
  rw [Bool.eq_iff_iff, isAccepted_iff rooted.recent lists, isAccepted_iff other.recent lists]

theorem Alike.plan_eq (alike : left.Alike right) (rooted : left.Rooted accepted)
    (other : right.Rooted accepted) (lists : store.Lists accepted) (id : UnitId) :
    right.plan store id = left.plan store id := by
  have accepts : right.isAccepted store = left.isAccepted store :=
    funext (rooted.isAccepted_eq other lists)
  have settled (pending : PendingUnit) (diff : Diff) :
      right.planUnit store pending diff = left.planUnit store pending diff := by
    unfold planUnit
    rw [accepts]
    cases alike
    rfl
  have optional (pending : PendingUnit) (choice : Choice) :
      right.planOption pending choice = left.planOption pending choice := by
    cases alike
    rfl
  unfold Manager.plan
  rw [alike.pending_eq]
  cases left.pending[id]? with
  | none => rfl
  | some pending =>
      dsimp only
      cases pending.execution with
      | proposal branches => rfl
      | effect diff => exact settled pending diff
      | option choice => exact optional pending choice

theorem Alike.execute_eq (alike : left.Alike right) (rooted : left.Rooted accepted)
    (other : right.Rooted accepted) (chronicle : Chronicle accepted)
    (lists : store.Lists accepted) (parent unit : DecisionUnit) :
    right.execute store parent unit = left.execute store parent unit := by
  have checks (edge : UnitId) :
      right.checkEdge store unit.height edge = left.checkEdge store unit.height edge := by
    unfold checkEdge
    rw [rooted.knownHeight?_eq chronicle lists, other.knownHeight?_eq chronicle lists,
      alike.pending_eq]
  have transacts (transactions : List Transaction) :
      right.executeTransactions store unit transactions =
        left.executeTransactions store unit transactions := by
    cases alike
    rfl
  unfold Manager.execute
  cases unit.body with
  | standard transactions => simp only [transacts]
  | vertex edges transactions => simp only [transacts, funext checks]
  | proposal proposed =>
      cases alike
      rfl
  | commit | abort =>
      cases alike
      rfl

/-- Where managers that are alike disagree on a parent, it is one that was rejected. -/
theorem Alike.resolveParent_cases (alike : left.Alike right) (rooted : left.Rooted accepted)
    (other : right.Rooted accepted) (lists : store.Lists accepted) (parent : UnitId) :
    right.resolveParent store parent = left.resolveParent store parent ∨
      ∃ mine theirs, left.resolveParent store parent = .error mine ∧
        right.resolveParent store parent = .error theirs ∧
        (mine.namesRejected = true ∨ theirs.namesRejected = true) := by
  have accepts := rooted.isAccepted_eq other lists parent
  unfold resolveParent
  rw [alike.pending_eq, alike.lastAccepted_eq, accepts]
  cases left.pending[parent]? with
  | some held => exact .inl rfl
  | none =>
      dsimp only
      by_cases tip : parent = left.lastAccepted.id
      · rw [if_pos tip, if_pos tip]
        exact .inl rfl
      rw [if_neg tip, if_neg tip]
      by_cases settled : left.isAccepted store parent = true
      · rw [if_pos settled, if_pos settled]
        exact .inl rfl
      rw [if_neg settled, if_neg settled]
      cases mine : left.rejected.contains parent <;> cases theirs : right.rejected.contains parent
      · exact .inl rfl
      · exact .inr ⟨_, _, rfl, rfl, .inr rfl⟩
      · exact .inr ⟨_, _, rfl, rfl, .inl rfl⟩
      · exact .inl rfl

/-- Where managers that are alike disagree on a unit, its parent was rejected, and both refuse. -/
theorem Alike.examine_cases (alike : left.Alike right) (rooted : left.Rooted accepted)
    (other : right.Rooted accepted) (chronicle : Chronicle accepted)
    (lists : store.Lists accepted) (unit : DecisionUnit) :
    right.examine store unit = left.examine store unit ∨
      ∃ mine theirs, left.examine store unit = .error mine ∧
        right.examine store unit = .error theirs ∧
        (mine.namesRejected = true ∨ theirs.namesRejected = true) := by
  have executes := alike.execute_eq rooted other chronicle lists
  have claims (keys : List StateKey) : right.claimed? keys = left.claimed? keys := by
    rw [claimed?, claimed?, alike.consumedBy_eq]
  have size : right.config.maxUnitSize = left.config.maxUnitSize := by
    rw [alike.config_eq]
  unfold examine
  simp only [executes, claims, size]
  cases unit.fault? left.config.maxUnitSize with
  | some fault => exact .inl rfl
  | none =>
      rcases alike.resolveParent_cases rooted other lists unit.parent with same | differs
      · rw [same]
        exact .inl rfl
      · obtain ⟨mine, theirs, first, second, named⟩ := differs
        rw [first, second]
        exact .inr ⟨mine, theirs, rfl, rfl, named⟩

end Recourse

end Manager

end DecisionLedger
