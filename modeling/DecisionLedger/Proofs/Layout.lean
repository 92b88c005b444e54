import DecisionLedger.Proofs.Ledger

/-! # Which variables share a key

The key of an index variable does not say of which flavor the units of its chain are.  Apart from
that, no two variables share a key, so a batch leaves alone whatever it does not name.
-/

namespace DecisionLedger

namespace Bytes

theorem ofWord_inj {word other : UInt64} : ofWord word = ofWord other ↔ word = other :=
  ⟨Format.word.encode_injective rfl rfl, congrArg ofWord⟩

theorem ofWordBigEndian_inj {word other : UInt64} :
    ofWordBigEndian word = ofWordBigEndian other ↔ word = other := by
  rw [ofWordBigEndian, ofWordBigEndian, bigEndian, bigEndian, List.reverse_inj]
  exact ofWord_inj

theorem ofWord_append_inj {word other : UInt64} {rest behind : Bytes} :
    ofWord word ++ rest = ofWord other ++ behind ↔ word = other ∧ rest = behind := by
  constructor
  · intro same
    obtain ⟨words, rests⟩ := List.append_inj same (by simp)
    exact ⟨ofWord_inj.mp words, rests⟩
  · rintro ⟨rfl, rfl⟩
    rfl

end Bytes

/-- The same contents with the one flavor of units that stands for both. -/
def Contents.canonical : Contents → Contents
  | units _ => units .linear
  | transactions => transactions

theorem Contents.tag_eq_iff {contents other : Contents} :
    contents.tag = other.tag ↔ contents.canonical = other.canonical := by
  cases contents <;> cases other <;> simp [canonical, tag]

namespace Key

/-- The variable with canonical contents. -/
def canonical : Key → Key
  | container chain contents index => container chain contents.canonical index
  | position chain contents id => position chain contents.canonical id
  | next chain contents => next chain contents.canonical
  | key => key

/-- Whether a variable belongs to an index. -/
def isIndexed : Key → Bool
  | container _ _ _ | position _ _ _ | next _ _ => true
  | _ => false

theorem isIndexed_canonical (key : Key) : key.canonical.isIndexed = key.isIndexed := by
  cases key <;> rfl

theorem isLedger_canonical (key : Key) : key.canonical.isLedger = key.isLedger := by
  cases key <;> rfl

theorem isLedger_iff_tag {key : Key} : key.isLedger = true ↔ key.tag < 5 := by
  cases key <;> simp [isLedger, tag]

theorem isIndexed_of_isLedger {key : Key} (ledger : key.isLedger = true) :
    key.isIndexed = false := by
  cases key <;> first | rfl | cases ledger

theorem tag_canonical (key : Key) : key.canonical.tag = key.tag := by
  cases key <;> rfl

theorem arguments_eq_iff {key other : Key} (tags : key.tag = other.tag) :
    key.arguments = other.arguments ↔ key.canonical = other.canonical := by
  cases key <;> cases other <;> simp [tag] at tags <;>
    simp [arguments, canonical, Contents.tag_eq_iff, Bytes.ofWord_inj, Bytes.ofWordBigEndian_inj,
      Bytes.ofWord_append_inj, Digest.ext_iff]

/-- Variables share a key exactly if they differ in the flavor of units alone. -/
theorem encode_eq_iff {key other : Key} :
    key.encode = other.encode ↔ key.canonical = other.canonical := by
  rw [encode, encode, List.cons.injEq]
  constructor
  · rintro ⟨tags, arguments⟩
    exact (arguments_eq_iff tags).mp arguments
  · intro same
    have tags : key.tag = other.tag := by
      rw [← key.tag_canonical, same, tag_canonical]
    exact ⟨tags, (arguments_eq_iff tags).mpr same⟩

end Key

/-- Whether a batch writes to the ledger alone. -/
def Batch.IsLedger (batch : Batch) : Prop :=
  ∀ change ∈ batch, change.key.isLedger = true

theorem Batch.isLedger_append {batch rest : Batch} :
    (batch ++ rest).IsLedger ↔ batch.IsLedger ∧ rest.IsLedger := by
  simp [IsLedger, or_imp, forall_and]

theorem Batch.isLedger_place (unit : DecisionUnit) : (place unit).IsLedger := by
  simp [IsLedger, place, setUnit, setUnitAtHeight, Change.put, Key.isLedger]

theorem Batch.isLedger_setLastAccepted (id : UnitId) : (setLastAccepted id).IsLedger := by
  simp [IsLedger, setLastAccepted, Change.put, Key.isLedger]

namespace Store

variable {store : Store} {key : Key}

theorem raw?_change_eq (change : Change) (store : Store) (key : Key) :
    raw? (change.apply store) key =
      if change.key.canonical = key.canonical then change.value else store.raw? key := by
  rw [raw?, change.getElem?_apply, raw?]
  simp only [Key.encode_eq_iff]

theorem raw?_apply_of_apart {batch : Batch}
    (apart : ∀ change ∈ batch, change.key.canonical ≠ key.canonical) (store : Store) :
    (store.apply batch).raw? key = store.raw? key := by
  induction batch generalizing store with
  | nil => rfl
  | cons change rest ih =>
      rw [apply_cons, ih (fun later inside => apart later (List.mem_cons_of_mem _ inside)),
        raw?_change_eq, if_neg (apart change List.mem_cons_self)]

/-- The same variables, those of indices apart. -/
def SameElsewhere (store other : Store) : Prop :=
  ∀ key : Key, key.isIndexed = false → other.raw? key = store.raw? key

theorem SameElsewhere.refl (store : Store) : store.SameElsewhere store :=
  fun _ _ => rfl

theorem SameElsewhere.trans {first second third : Store} (before : first.SameElsewhere second)
    (after : second.SameElsewhere third) : first.SameElsewhere third :=
  fun key outside => (after key outside).trans (before key outside)

theorem SameElsewhere.sameLedger {other : Store} (same : store.SameElsewhere other) :
    store.SameLedger other :=
  fun key ledger => same key (Key.isIndexed_of_isLedger ledger)

theorem sameElsewhere_apply {batch : Batch}
    (indexed : ∀ change ∈ batch, change.key.isIndexed = true) (store : Store) :
    store.SameElsewhere (store.apply batch) := by
  intro key outside
  refine raw?_apply_of_apart (fun change inside same => ?_) store
  have inIndex := indexed change inside
  rw [← change.key.isIndexed_canonical, same, key.isIndexed_canonical, outside] at inIndex
  cases inIndex

theorem raw?_apply_of_ledger {batch : Batch} (ledger : batch.IsLedger)
    (outside : key.isLedger = false) (store : Store) :
    (store.apply batch).raw? key = store.raw? key := by
  refine raw?_apply_of_apart (fun change inside same => ?_) store
  have written := ledger change inside
  rw [← change.key.isLedger_canonical, same, key.isLedger_canonical, outside] at written
  cases written

theorem raw?_canonical {other : Key} (same : key.canonical = other.canonical) (store : Store) :
    store.raw? key = store.raw? other := by
  rw [raw?, raw?, Key.encode_eq_iff.mpr same]

theorem value?_of_encode {α : Type} {format : Format α} {value : α}
    (fit : format.fits value = true) (stored : store.raw? key = some (format.encode value)) :
    store.value? key format = .ok (some value) := by
  have read := format.decodeFront_encode [] fit
  rw [List.append_nil] at read
  rw [value?, stored]
  dsimp only
  rw [read]

end Store

end DecisionLedger
