import DecisionLedger.Manager.Acceptance
import DecisionLedger.Proofs.Chronicle

/-! # The ledger part of a store

Some variables of a store are written by accepting only: the units, their heights, the last one, the
state and the shared memory.  Whatever else a store keeps lies under other keys, so these variables
can be told apart from it, and from each other.
-/

namespace DecisionLedger

namespace Key

def isLedger : Key → Bool
  | unit _ | unitAtHeight _ | lastAccepted | state _ | shared _ _ => true
  | container _ _ _ | position _ _ _ | next _ _ | incomplete _ | previouslyIndexed _ | hasRun =>
    false

theorem eq_of_encode_eq {key other : Key} (ledger : key.isLedger = true)
    (same : other.encode = key.encode) : other = key := by
  obtain ⟨tags, arguments⟩ := List.cons.inj same
  cases key <;> cases other <;> simp [isLedger, tag] at ledger tags
  case unit.unit id other => exact congrArg unit (Digest.ext arguments)
  case unitAtHeight.unitAtHeight height other =>
    exact congrArg unitAtHeight (Format.word.encode_injective rfl rfl arguments)
  case lastAccepted.lastAccepted => rfl
  case state.state key other => exact congrArg state arguments
  case shared.shared chain key other otherKey =>
    obtain ⟨chains, keys⟩ := List.append_inj arguments (by simp)
    rw [Format.word.encode_injective rfl rfl chains]
    exact congrArg (shared chain) keys

end Key

def Batch.place (unit : DecisionUnit) : Batch :=
  setUnit unit ++ setUnitAtHeight unit.height unit.id

namespace Store

/-- The same ledger, whatever else is stored. -/
def SameLedger (store other : Store) : Prop :=
  ∀ key : Key, key.isLedger = true → other.raw? key = store.raw? key

theorem SameLedger.refl (store : Store) : store.SameLedger store :=
  fun _ _ => rfl

theorem SameLedger.state?_eq {store other : Store} (same : store.SameLedger other)
    (key : StateKey) : other.state? key = store.state? key :=
  same (.state key) rfl

theorem SameLedger.trans {first second third : Store} (before : first.SameLedger second)
    (after : second.SameLedger third) : first.SameLedger third :=
  fun key ledger => (after key ledger).trans (before key ledger)

theorem raw?_change {key : Key} (ledger : key.isLedger = true) (change : Change) (store : Store) :
    raw? (change.apply store) key = if change.key = key then change.value else store.raw? key := by
  rw [raw?, change.getElem?_apply]
  by_cases same : change.key = key
  · rw [same, if_pos rfl, if_pos rfl]
  · rw [if_neg same, if_neg (fun encoded => same (Key.eq_of_encode_eq ledger encoded)), raw?]

theorem raw?_apply_of_forall_ne {key : Key} (ledger : key.isLedger = true) {batch : Batch}
    (elsewhere : ∀ change ∈ batch, change.key ≠ key) (store : Store) :
    (store.apply batch).raw? key = store.raw? key := by
  induction batch generalizing store with
  | nil => rfl
  | cons change rest ih =>
      rw [apply_cons, ih (fun later inside => elsewhere later (List.mem_cons_of_mem _ inside)),
        raw?_change ledger, if_neg (elsewhere change List.mem_cons_self)]

theorem SameLedger.apply {store other : Store} (same : store.SameLedger other) (batch : Batch) :
    (store.apply batch).SameLedger (other.apply batch) := by
  induction batch generalizing store other with
  | nil => exact same
  | cons change rest ih =>
      refine ih (fun key ledger => ?_)
      rw [raw?_change ledger, raw?_change ledger, same key ledger]

section Congruence

variable {store other : Store} {key : Key}

theorem value?_congr {α : Type} (same : other.raw? key = store.raw? key) (format : Format α) :
    other.value? key format = store.value? key format := by
  rw [value?, value?, same]

theorem unit?_congr {id : UnitId} (same : other.raw? (.unit id) = store.raw? (.unit id)) :
    other.unit? id = store.unit? id := by
  rw [unit?, unit?, same]

theorem lastAccepted_congr (same : other.raw? .lastAccepted = store.raw? .lastAccepted) :
    other.lastAccepted = store.lastAccepted := by
  rw [lastAccepted, lastAccepted, value?_congr same]

end Congruence

theorem containsUnit_eq_false_iff {store : Store} {id : UnitId} :
    store.containsUnit id = false ↔ store.unit? id = .ok none := by
  have present : store.containsUnit id = (store.raw? (.unit id)).isSome := by
    rw [containsUnit, has, raw?, Std.ExtTreeMap.contains_eq_isSome_getElem?]
  rw [present, unit?]
  cases store.raw? (.unit id) with
  | none => simp
  | some bytes =>
      dsimp only [Option.isSome_some]
      cases DecisionUnit.parseUnlimited bytes with
      | error fault => simp
      | ok unit => simp

end Store

namespace DecisionUnit

theorem parseUnlimited_bytes (unit : DecisionUnit) : parseUnlimited unit.bytes = .ok unit := by
  have read : UnitFields.format.decodeAll unit.bytes = .ok unit.fields :=
    (Format.decodeAll_eq_ok_iff _).mpr ⟨unit.fits, unit.bytes_eq⟩
  have same : ofFields unit.fields unit.fits = unit := DecisionUnit.ext rfl
  rw [parseUnlimited, read]
  dsimp only
  rw [dif_pos unit.fits, same, if_pos rfl]

end DecisionUnit

/-- A store keeps units under their IDs and their IDs under their heights, and no other unit. -/
structure Store.Lists (store : Store) (units : List DecisionUnit) : Prop where
  unit? : ∀ id, store.unit? id = .ok (units.find? (·.id = id))
  unitAtHeight? : ∀ height, store.unitAtHeight? height = .ok (units[height.toNat]?.map (·.id))

/-- A store keeps a chronicle and knows its last unit. -/
structure Store.Records (store : Store) (units : List DecisionUnit) : Prop
    extends store.Lists units where
  lastAccepted : ∃ tip, units.getLast? = some tip ∧ store.lastAccepted = .ok tip.id

namespace Store

variable {store other : Store} {units : List DecisionUnit} {unit : DecisionUnit}

theorem Lists.congr (lists : store.Lists units)
    (sameUnits : ∀ id, other.raw? (.unit id) = store.raw? (.unit id))
    (sameHeights : ∀ height,
      other.raw? (.unitAtHeight height) = store.raw? (.unitAtHeight height)) :
    other.Lists units where
  unit? id := (unit?_congr (sameUnits id)).trans (lists.unit? id)
  unitAtHeight? height := (value?_congr (sameHeights height) _).trans (lists.unitAtHeight? height)

theorem Records.of_sameLedger (records : store.Records units) (same : store.SameLedger other) :
    other.Records units where
  toLists := records.toLists.congr (fun id => same (.unit id) rfl)
    (fun height => same (.unitAtHeight height) rfl)
  lastAccepted := by
    obtain ⟨tip, last, stored⟩ := records.lastAccepted
    exact ⟨tip, last, (lastAccepted_congr (same .lastAccepted rfl)).trans stored⟩

theorem Lists.mem_of_unit? (lists : store.Lists units) {id : UnitId}
    (found : store.unit? id = .ok (some unit)) : unit ∈ units ∧ unit.id = id := by
  rw [lists.unit?] at found
  have stored := Except.ok.inj found
  exact ⟨List.mem_of_find?_eq_some stored, by simpa using List.find?_some stored⟩

theorem Lists.unit?_of_mem (lists : store.Lists units) (chronicle : Chronicle units)
    (inside : unit ∈ units) : store.unit? unit.id = .ok (some unit) := by
  rw [lists.unit?, chronicle.find?_id inside]

theorem Lists.containsUnit_iff (lists : store.Lists units) {id : UnitId} :
    store.containsUnit id = true ↔ ∃ unit ∈ units, unit.id = id := by
  rw [← not_iff_not, Bool.not_eq_true, containsUnit_eq_false_iff, lists.unit?,
    Except.ok.injEq, List.find?_eq_none]
  simp

theorem unit?_of_raw? {id : UnitId} (stored : store.raw? (.unit id) = some unit.bytes) :
    store.unit? id = .ok (some unit) := by
  rw [Store.unit?, stored]
  dsimp only
  rw [DecisionUnit.parseUnlimited_bytes]

theorem value?_digest {key : Key} {id : UnitId}
    (stored : store.raw? key = some (Digest.format.encode id)) :
    store.value? key Digest.format = .ok (some id) := by
  have read : Digest.format.decodeFront (Digest.format.encode id ++ []) = .ok id :=
    Digest.format.decodeFront_encode [] rfl
  rw [List.append_nil] at read
  rw [value?, stored]
  dsimp only
  rw [read]

theorem raw?_place (store : Store) (unit : DecisionUnit) (key : Key)
    (ledger : key.isLedger = true) :
    (store.apply (Batch.place unit)).raw? key =
      if .unitAtHeight unit.height = key then some (Digest.format.encode unit.id)
      else if .unit unit.id = key then some unit.bytes
      else store.raw? key := by
  simp only [Batch.place, Batch.setUnit, Batch.setUnitAtHeight, List.cons_append, List.nil_append,
    apply_cons, apply_nil]
  rw [raw?_change ledger, raw?_change ledger]
  rfl

theorem raw?_setLastAccepted {key : Key} (ledger : key.isLedger = true) (store : Store)
    (id : UnitId) :
    (store.apply (Batch.setLastAccepted id)).raw? key =
      if .lastAccepted = key then some (Digest.format.encode id) else store.raw? key := by
  simp only [Batch.setLastAccepted, apply_cons, apply_nil]
  rw [raw?_change ledger]
  rfl

/-- A unit is listed at the end when it is stored at the height that follows the last. -/
theorem Lists.place (lists : store.Lists units) (high : unit.height.toNat = units.length)
    (fresh : unit.id ∉ units.map (·.id)) :
    (store.apply (Batch.place unit)).Lists (units ++ [unit]) where
  unit? id := by
    by_cases same : unit.id = id
    · subst same
      have absent : units.find? (·.id = unit.id) = none := by
        rw [List.find?_eq_none]
        intro earlier inside equal
        exact fresh (List.mem_map.mpr ⟨earlier, inside, of_decide_eq_true equal⟩)
      have stored := raw?_place store unit (.unit unit.id) rfl
      rw [if_neg (by simp), if_pos rfl] at stored
      rw [unit?_of_raw? stored, List.find?_append, absent]
      simp
    · have untouched := raw?_place store unit (.unit id) rfl
      rw [if_neg (by simp), if_neg (by simpa using same)] at untouched
      rw [unit?_congr untouched, lists.unit?, List.find?_append]
      simp [same]
  unitAtHeight? height := by
    by_cases same : unit.height = height
    · subst same
      have stored := raw?_place store unit (.unitAtHeight unit.height) rfl
      rw [if_pos rfl] at stored
      rw [Store.unitAtHeight?, value?_digest stored, high]
      simp
    · have untouched := raw?_place store unit (.unitAtHeight height) rfl
      rw [if_neg (by simpa using same), if_neg (by simp)] at untouched
      have elsewhere : height.toNat ≠ units.length :=
        fun equal => same (UInt64.toNat_inj.mp (high.trans equal.symm))
      have listed : (units ++ [unit])[height.toNat]? = units[height.toNat]? := by
        rcases Nat.lt_or_gt_of_ne elsewhere with below | above
        · exact List.getElem?_append_left below
        · rw [List.getElem?_eq_none (by simp; omega), List.getElem?_eq_none (by omega)]
      rw [listed, ← lists.unitAtHeight? height]
      exact value?_congr untouched _

theorem Lists.finish (lists : store.Lists units) (last : units.getLast? = some unit) {batch : Batch}
    (stateOnly : ∀ change ∈ batch, change.key.tag = 3 ∨ change.key.tag = 4) :
    (store.apply (Batch.setLastAccepted unit.id ++ batch)).Records units := by
  have elsewhere : ∀ {key : Key}, key.tag < 3 → ∀ change ∈ batch, change.key ≠ key := by
    intro key low change inside equal
    have tagged := stateOnly change inside
    rw [equal] at tagged
    rcases tagged with three | four
    · rw [three] at low; exact absurd low (by decide)
    · rw [four] at low; exact absurd low (by decide)
  rw [apply_append]
  constructor
  · refine lists.congr (fun id => ?_) (fun height => ?_)
    · rw [raw?_apply_of_forall_ne rfl (elsewhere (by simp [Key.tag])), raw?_setLastAccepted rfl,
        if_neg (by simp)]
    · rw [raw?_apply_of_forall_ne rfl (elsewhere (by simp [Key.tag])), raw?_setLastAccepted rfl,
        if_neg (by simp)]
  · refine ⟨unit, last, ?_⟩
    have stored : ((store.apply (Batch.setLastAccepted unit.id)).apply batch).raw? .lastAccepted =
        some (Digest.format.encode unit.id) := by
      rw [raw?_apply_of_forall_ne rfl (elsewhere (by simp [Key.tag])), raw?_setLastAccepted rfl,
        if_pos rfl]
    rw [Store.lastAccepted, value?_digest stored]

theorem Lists.placeAll (lists : store.Lists units) {further : List DecisionUnit}
    (chronicle : Chronicle (units ++ further)) :
    (store.apply (further.flatMap Batch.place)).Lists (units ++ further) := by
  induction further generalizing store units with
  | nil =>
      rw [List.append_nil]
      exact lists
  | cons unit rest ih =>
      have inside : units.length < (units ++ unit :: rest).length := by simp
      have high := chronicle.height_getElem inside
      have distinct := chronicle.distinct
      rw [List.getElem_append_right (Nat.le_refl _)] at high
      simp only [Nat.sub_self, List.getElem_cons_zero] at high
      rw [List.map_append, List.nodup_append'] at distinct
      have fresh : unit.id ∉ units.map (·.id) :=
        fun old => distinct.2.2 old List.mem_cons_self
      have split : units ++ unit :: rest = (units ++ [unit]) ++ rest := by simp
      rw [split] at chronicle ⊢
      rw [List.flatMap_cons, apply_append]
      exact ih (lists.place high fresh) chronicle

end Store

end DecisionLedger
