import DecisionLedger.Proofs.Ledger

/-! # Reading back units

A unit and its encoding determine each other.  Reading accepts the encodings of units within the
size limit and nothing else, so building and reading undo each other, and the check that a unit is
written the way it was read never fails.
-/

namespace DecisionLedger

/-- Bytes encode the fields of a unit, each sequence of which has room for its length. -/
def UnitFields.Encodes (fields : UnitFields) (bytes : Bytes) : Prop :=
  format.fits fields = true ∧ bytes = format.encode fields

theorem UnitFields.Encodes.unique {left right : UnitFields} {bytes : Bytes}
    (mine : left.Encodes bytes) (theirs : right.Encodes bytes) : left = right :=
  format.encode_injective mine.1 theirs.1 (mine.2.symm.trans theirs.2)

namespace DecisionUnit

variable {fields : UnitFields} {bytes : Bytes} {limit : Nat} {unit : DecisionUnit}

theorem encodes (unit : DecisionUnit) : unit.fields.Encodes unit.bytes :=
  ⟨unit.fits, unit.bytes_eq⟩

theorem exists_of_encodes (encoded : fields.Encodes bytes) :
    ∃ unit : DecisionUnit, unit.fields = fields ∧ unit.bytes = bytes :=
  ⟨ofFields fields encoded.1, rfl, encoded.2.symm⟩

theorem build_eq_ok_iff :
    build fields limit = .ok unit ↔ unit.fields = fields ∧ unit.size ≤ limit := by
  unfold build
  constructor
  · intro built
    split at built
    · dsimp only at built
      split at built
      · rename_i within
        cases built
        exact ⟨rfl, within⟩
      · cases built
    · cases built
  · rintro ⟨rfl, within⟩
    have same : ofFields unit.fields unit.fits = unit := DecisionUnit.ext rfl
    rw [dif_pos unit.fits, same]
    exact if_pos within

/-- Without a limit, exactly the encodings of units are read. -/
theorem parseUnlimited_eq_ok_iff : parseUnlimited bytes = .ok unit ↔ unit.bytes = bytes := by
  constructor
  · intro read
    unfold parseUnlimited at read
    cases decoded : UnitFields.format.decodeAll bytes with
    | error problem =>
        rw [decoded] at read
        cases read
    | ok fields =>
        rw [decoded] at read
        dsimp only at read
        split at read
        · split at read
          · rename_i same
            cases read
            exact same
          · cases read
        · cases read
  · rintro rfl
    exact parseUnlimited_bytes unit

/-- What else is read is refused for what is wrong with it, never for being written otherwise. -/
theorem parseUnlimited_cases (bytes : Bytes) :
    (∃ unit, parseUnlimited bytes = .ok unit) ∨
      ∃ problem, parseUnlimited bytes = .error (.undecodable problem) := by
  cases decoded : UnitFields.format.decodeAll bytes with
  | error problem =>
      refine .inr ⟨problem, ?_⟩
      rw [parseUnlimited, decoded]
  | ok fields =>
      obtain ⟨unit, -, rfl⟩ :=
        exists_of_encodes ((Format.decodeAll_eq_ok_iff _).mp decoded)
      exact .inl ⟨unit, parseUnlimited_bytes unit⟩

theorem parse_eq_ok_iff :
    parse bytes limit = .ok unit ↔ bytes.length ≤ limit ∧ unit.bytes = bytes := by
  unfold parse
  split
  · rename_i within
    rw [parseUnlimited_eq_ok_iff, and_iff_right within]
  · rename_i long
    simp [long]

theorem parse_ne_notCanonical (bytes : Bytes) (limit : Nat) :
    parse bytes limit ≠ .error .notCanonical := by
  intro refused
  unfold parse at refused
  split at refused
  · rcases parseUnlimited_cases bytes with ⟨unit, read⟩ | ⟨problem, read⟩
    · rw [read] at refused
      cases refused
    · rw [read] at refused
      cases refused
  · cases refused

/-- How building and reading go together, for all bytes within all limits. -/
structure RoundTrips (bytes : Bytes) (limit : Nat) : Prop where
  /-- Exactly the encodings within the limit are read. -/
  read_iff : (∃ unit, parse bytes limit = .ok unit) ↔
    bytes.length ≤ limit ∧ ∃ fields : UnitFields, fields.Encodes bytes
  /-- What is read has the bytes given and their digest, and can be built again from its fields. -/
  read : ∀ {unit}, parse bytes limit = .ok unit →
    unit.bytes = bytes ∧ unit.id = Digest.hash bytes ∧
      ∀ {room}, unit.size ≤ room → build unit.fields room = .ok unit
  /-- What is built encodes its fields, and reads back from its bytes. -/
  built : ∀ {fields unit}, build fields limit = .ok unit →
    fields.Encodes unit.bytes ∧ unit.id = Digest.hash unit.bytes ∧
      ∀ {room}, unit.size ≤ room → parse unit.bytes room = .ok unit
  genesis : ∀ {room}, DecisionUnit.genesis.size ≤ room →
    parse DecisionUnit.genesis.bytes room = .ok .genesis
  /-- No two units have the same bytes. -/
  injective : ∀ {left right : UnitFields}, left.Encodes bytes → right.Encodes bytes → left = right
  canonical : parse bytes limit ≠ .error .notCanonical

theorem roundTrips (bytes : Bytes) (limit : Nat) : RoundTrips bytes limit where
  read_iff := by
    constructor
    · rintro ⟨unit, read⟩
      obtain ⟨within, rfl⟩ := parse_eq_ok_iff.mp read
      exact ⟨within, unit.fields, unit.encodes⟩
    · rintro ⟨within, fields, encoded⟩
      obtain ⟨unit, -, same⟩ := exists_of_encodes encoded
      exact ⟨unit, parse_eq_ok_iff.mpr ⟨within, same⟩⟩
  read := by
    intro unit read
    obtain ⟨-, rfl⟩ := parse_eq_ok_iff.mp read
    exact ⟨rfl, unit.id_eq, fun within => build_eq_ok_iff.mpr ⟨rfl, within⟩⟩
  built := by
    intro fields unit built
    obtain ⟨rfl, -⟩ := build_eq_ok_iff.mp built
    exact ⟨unit.encodes, unit.id_eq, fun within => parse_eq_ok_iff.mpr ⟨within, rfl⟩⟩
  genesis within := parse_eq_ok_iff.mpr ⟨within, rfl⟩
  injective := UnitFields.Encodes.unique
  canonical := parse_ne_notCanonical bytes limit

end DecisionUnit

end DecisionLedger
