import DecisionLedger.Bytes

/-! # Binary formats

A format writes values of one type as bytes and reads them back from the front of a byte string.
Reading accepts exactly what writing produces, and leaves the bytes behind the value: this is part
of the type, so a format put together from others keeps it.  Some values are too long for their
length field and do not fit their format; the law speaks of those that do.
-/

namespace DecisionLedger

/-- Why a byte string does not start with a value of a format. -/
inductive DecodeError where
  /-- The bytes end within the value. -/
  | truncated
  /-- Bytes follow a value that should end its input. -/
  | trailing
  /-- The byte that tells absence from presence is neither 0 nor 1. -/
  | optionTag (byte : UInt8)
  /-- The byte of a truth value is neither 0 nor 1. -/
  | truthTag (byte : UInt8)
  /-- No alternative has this number. -/
  | alternative (byte : UInt8)
  deriving Repr, DecidableEq

namespace DecodeError

def message : DecodeError → String
  | truncated => "Unexpected length of input"
  | trailing => "Not all bytes read"
  | optionTag byte =>
    "Invalid Option representation: " ++ toString byte.toNat ++ ". The first byte must be 0 or 1"
  | truthTag byte => "Invalid bool representation: " ++ toString byte.toNat
  | alternative byte => "Unexpected variant index: " ++ toString byte.toNat

end DecodeError

/-- What reading gives: a value and the bytes behind it. -/
abbrev Decoded (α : Type) := Except DecodeError (α × Bytes)

/-- A way to write values as bytes, and to read exactly what is written. -/
structure Format (α : Type) where
  /-- The bytes of a value. -/
  encode : α → Bytes
  /-- Read a value from the front. -/
  decode : Bytes → Decoded α
  /-- Whether every length within the value fits its length field. -/
  fits : α → Bool
  /-- What is written reads back, whatever follows. -/
  decode_encode : ∀ {value : α} (rest : Bytes), fits value = true →
    decode (encode value ++ rest) = .ok (value, rest)
  /-- What can be read was written. -/
  encode_of_decode : ∀ {bytes rest : Bytes} {value : α}, decode bytes = .ok (value, rest) →
    fits value = true ∧ bytes = encode value ++ rest

namespace Format

variable {α β : Type}

/-- Read a value that ends its input. -/
def decodeAll (format : Format α) (bytes : Bytes) : Except DecodeError α :=
  match format.decode bytes with
  | .error problem => .error problem
  | .ok (value, []) => .ok value
  | .ok (_, _ :: _) => .error .trailing

/-- Read a value and leave out what follows it. -/
def decodeFront (format : Format α) (bytes : Bytes) : Except DecodeError α :=
  (format.decode bytes).map Prod.fst

/-- Reading a whole input gives exactly the values whose encoding it is. -/
theorem decodeAll_eq_ok_iff (format : Format α) {bytes : Bytes} {value : α} :
    format.decodeAll bytes = .ok value ↔
      format.fits value = true ∧ bytes = format.encode value := by
  constructor
  · intro read
    unfold decodeAll at read
    split at read
    · simp at read
    · rename_i found decoded
      cases read
      simpa using format.encode_of_decode decoded
    · simp at read
  · rintro ⟨fit, rfl⟩
    have decoded := format.decode_encode [] fit
    rw [List.append_nil] at decoded
    simp [decodeAll, decoded]

theorem decodeFront_encode (format : Format α) {value : α} (rest : Bytes)
    (fit : format.fits value = true) :
    format.decodeFront (format.encode value ++ rest) = .ok value := by
  simp [decodeFront, format.decode_encode rest fit, Except.map]

theorem encode_injective (format : Format α) {left right : α} (leftFits : format.fits left = true)
    (rightFits : format.fits right = true) (same : format.encode left = format.encode right) :
    left = right := by
  have leftRead := format.decode_encode [] leftFits
  rw [same, format.decode_encode [] rightFits] at leftRead
  simp only [Except.ok.injEq, Prod.mk.injEq, and_true] at leftRead
  exact leftRead.symm

/-- The first `count` bytes of an input and the bytes behind them. -/
def split? (count : Nat) (bytes : Bytes) : Option (Bytes × Bytes) :=
  let front := bytes.take count
  if front.length = count then some (front, bytes.drop count) else none

theorem split?_eq_some_iff {count : Nat} {bytes front rest : Bytes} :
    split? count bytes = some (front, rest) ↔ front.length = count ∧ bytes = front ++ rest := by
  constructor
  · intro found
    simp only [split?] at found
    split at found
    · rename_i exact
      cases found
      exact ⟨exact, (List.take_append_drop count bytes).symm⟩
    · simp at found
  · rintro ⟨rfl, rfl⟩
    simp [split?]

/-- A value of fixed width that is made from its bytes and gives them back. -/
def fixed (width : Nat) (toBytes : α → Bytes) (ofBytes : (bytes : Bytes) → bytes.length = width → α)
    (length_toBytes : ∀ value, (toBytes value).length = width)
    (toBytes_ofBytes : ∀ bytes exact, toBytes (ofBytes bytes exact) = bytes)
    (ofBytes_toBytes : ∀ value, ofBytes (toBytes value) (length_toBytes value) = value) :
    Format α where
  encode := toBytes
  decode bytes :=
    match found : split? width bytes with
    | some (front, rest) => .ok (ofBytes front (split?_eq_some_iff.mp found).1, rest)
    | none => .error .truncated
  fits _ := true
  decode_encode := by
    intro value rest _
    have found : split? width (toBytes value ++ rest) = some (toBytes value, rest) :=
      split?_eq_some_iff.mpr ⟨length_toBytes value, rfl⟩
    split
    · rename_i front behind split
      rw [found] at split
      cases split
      rw [ofBytes_toBytes]
    · rename_i missing
      simp [found] at missing
  encode_of_decode := by
    intro bytes rest value read
    split at read
    · rename_i front behind found
      cases read
      exact ⟨rfl, by rw [toBytes_ofBytes]; exact (split?_eq_some_iff.mp found).2⟩
    · simp at read

/-- A word of 64 bits, the least significant byte first. -/
def word : Format UInt64 :=
  fixed 8 Bytes.ofWord (fun bytes _ => UInt64.ofNat (Bytes.ofLittleEndian bytes))
    Bytes.length_ofWord
    (by
      intro bytes exact
      have small := Bytes.ofLittleEndian_lt bytes
      rw [exact, Nat.pow_eq] at small
      have digits := Bytes.littleEndian_ofLittleEndian bytes
      rw [exact] at digits
      rw [Bytes.ofWord, UInt64.toNat_ofNat', Nat.mod_eq_of_lt (by omega), digits])
    (by
      intro value
      have small : value.toNat < Nat.pow 256 8 := value.toNat_lt
      rw [Bytes.ofWord, Bytes.ofLittleEndian_littleEndian 8 small]
      exact UInt64.ofNat_toNat)

/-- One more than the largest length that a length field holds. -/
def lengthLimit : Nat := 4294967296

/-- The field of 32 bits in front of a sequence. -/
def writeLength (length : Nat) : Bytes :=
  Bytes.littleEndian 4 length

def readLength (bytes : Bytes) : Decoded Nat :=
  match split? 4 bytes with
  | some (front, rest) => .ok (Bytes.ofLittleEndian front, rest)
  | none => .error .truncated

theorem readLength_writeLength {length : Nat} (rest : Bytes) (small : length < lengthLimit) :
    readLength (writeLength length ++ rest) = .ok (length, rest) := by
  have found : split? 4 (writeLength length ++ rest) = some (writeLength length, rest) :=
    split?_eq_some_iff.mpr ⟨Bytes.length_littleEndian 4 length, rfl⟩
  have back : Bytes.ofLittleEndian (writeLength length) = length :=
    Bytes.ofLittleEndian_littleEndian 4 small
  simp [readLength, found, back]

theorem writeLength_of_readLength {bytes rest : Bytes} {length : Nat}
    (read : readLength bytes = .ok (length, rest)) :
    length < lengthLimit ∧ bytes = writeLength length ++ rest := by
  unfold readLength at read
  split at read
  · rename_i front behind found
    cases read
    obtain ⟨exact, whole⟩ := split?_eq_some_iff.mp found
    have small := Bytes.ofLittleEndian_lt front
    have digits := Bytes.littleEndian_ofLittleEndian front
    rw [exact] at small digits
    exact ⟨small, by rw [writeLength, digits]; exact whole⟩
  · simp at read

/-- A byte string behind its length. -/
def bytes : Format Bytes where
  encode value := writeLength value.length ++ value
  decode input :=
    match readLength input with
    | .error problem => .error problem
    | .ok (length, behind) =>
      match split? length behind with
      | some (value, rest) => .ok (value, rest)
      | none => .error .truncated
  fits value := value.length < lengthLimit
  decode_encode := by
    intro value rest fit
    have found : split? value.length (value ++ rest) = some (value, rest) :=
      split?_eq_some_iff.mpr ⟨rfl, rfl⟩
    simp [readLength_writeLength _ (of_decide_eq_true fit), found]
  encode_of_decode := by
    intro input rest value read
    split at read
    · simp at read
    · rename_i length behind header
      split at read
      · rename_i found
        cases read
        obtain ⟨rfl, rfl⟩ := split?_eq_some_iff.mp found
        obtain ⟨small, rfl⟩ := writeLength_of_readLength header
        exact ⟨decide_eq_true small, by simp⟩
      · simp at read

/-- One value behind another. -/
def pair (first : Format α) (second : Format β) : Format (α × β) where
  encode value := first.encode value.1 ++ second.encode value.2
  decode input :=
    match first.decode input with
    | .error problem => .error problem
    | .ok (left, behind) =>
      match second.decode behind with
      | .error problem => .error problem
      | .ok (right, rest) => .ok ((left, right), rest)
  fits value := first.fits value.1 && second.fits value.2
  decode_encode := by
    rintro ⟨left, right⟩ rest fit
    rw [Bool.and_eq_true] at fit
    simp [List.append_assoc, first.decode_encode _ fit.1, second.decode_encode _ fit.2]
  encode_of_decode := by
    rintro input rest ⟨left, right⟩ read
    split at read
    · simp at read
    · rename_i leftRead
      split at read
      · simp at read
      · rename_i rightRead
        cases read
        obtain ⟨leftFits, rfl⟩ := first.encode_of_decode leftRead
        obtain ⟨rightFits, rfl⟩ := second.encode_of_decode rightRead
        simp [leftFits, rightFits]

/-- Another type whose values correspond one to one. -/
def transport (format : Format α) (pack : α → β) (unpack : β → α)
    (unpack_pack : ∀ value, unpack (pack value) = value)
    (pack_unpack : ∀ value, pack (unpack value) = value) : Format β where
  encode value := format.encode (unpack value)
  decode input :=
    match format.decode input with
    | .error problem => .error problem
    | .ok (value, rest) => .ok (pack value, rest)
  fits value := format.fits (unpack value)
  decode_encode := by
    intro value rest fit
    simp [format.decode_encode _ fit, pack_unpack]
  encode_of_decode := by
    intro input rest value read
    split at read
    · simp at read
    · rename_i decoded
      cases read
      simpa [unpack_pack] using format.encode_of_decode decoded

/-- Read `count` values; those already read are in `reversed`, the latest first. -/
def decodeMany (format : Format α) : (count : Nat) → (reversed : List α) → Bytes → Decoded (List α)
  | 0, reversed, rest => .ok (reversed.reverse, rest)
  | count + 1, reversed, input =>
    match format.decode input with
    | .error problem => .error problem
    | .ok (value, rest) => decodeMany format count (value :: reversed) rest

theorem decodeMany_flatMap_encode (format : Format α) (values reversed : List α) (rest : Bytes)
    (fit : ∀ value ∈ values, format.fits value = true) :
    format.decodeMany values.length reversed (values.flatMap format.encode ++ rest) =
      .ok (reversed.reverse ++ values, rest) := by
  induction values generalizing reversed with
  | nil => simp [decodeMany]
  | cons value values ih =>
    have here := fit value (by simp)
    have later := ih (value :: reversed) (fun other inside => fit other (by simp [inside]))
    simp [decodeMany, List.append_assoc, format.decode_encode _ here, later]

theorem flatMap_encode_of_decodeMany (format : Format α) {count : Nat} {reversed values : List α}
    {input rest : Bytes} (read : format.decodeMany count reversed input = .ok (values, rest)) :
    ∃ added, values = reversed.reverse ++ added ∧ added.length = count ∧
      (∀ value ∈ added, format.fits value = true) ∧
      input = added.flatMap format.encode ++ rest := by
  induction count generalizing reversed input with
  | zero =>
    simp only [decodeMany, Except.ok.injEq, Prod.mk.injEq] at read
    exact ⟨[], by simp [read]⟩
  | succ count ih =>
    simp only [decodeMany] at read
    split at read
    · simp at read
    · rename_i value behind decoded
      obtain ⟨fit, rfl⟩ := format.encode_of_decode decoded
      obtain ⟨added, rfl, rfl, addedFit, rfl⟩ := ih read
      refine ⟨value :: added, by simp, by simp, ?_, by simp⟩
      intro other inside
      rcases List.mem_cons.mp inside with rfl | later
      · exact fit
      · exact addedFit other later

/-- Values one behind another, with their number in front. -/
def list (format : Format α) : Format (List α) where
  encode values := writeLength values.length ++ values.flatMap format.encode
  decode input :=
    match readLength input with
    | .error problem => .error problem
    | .ok (count, behind) => format.decodeMany count [] behind
  fits values := values.length < lengthLimit && values.all format.fits
  decode_encode := by
    intro values rest fit
    rw [Bool.and_eq_true, List.all_eq_true] at fit
    simp [List.append_assoc, readLength_writeLength _ (of_decide_eq_true fit.1),
      format.decodeMany_flatMap_encode values [] rest fit.2]
  encode_of_decode := by
    intro input rest values read
    split at read
    · simp at read
    · rename_i count behind header
      obtain ⟨small, rfl⟩ := writeLength_of_readLength header
      obtain ⟨added, rfl, rfl, fit, rfl⟩ := format.flatMap_encode_of_decodeMany read
      rw [Bool.and_eq_true, List.all_eq_true]
      exact ⟨⟨decide_eq_true (by simpa using small), by simpa using fit⟩, by simp⟩

/-- A truth value as the byte 0 or 1. -/
def truth : Format Bool where
  encode
    | false => [0]
    | true => [1]
  decode
    | [] => .error .truncated
    | byte :: rest =>
      if byte = 0 then .ok (false, rest)
      else if byte = 1 then .ok (true, rest)
      else .error (.truthTag byte)
  fits _ := true
  decode_encode := by
    rintro (_ | _) rest _ <;> rfl
  encode_of_decode := by
    rintro (_ | ⟨byte, behind⟩) rest value read
    · simp at read
    · simp only at read
      split at read
      · rename_i zero
        cases read
        exact ⟨rfl, by rw [zero]; rfl⟩
      · split at read
        · rename_i one
          cases read
          exact ⟨rfl, by rw [one]; rfl⟩
        · simp at read

/-- A value that may be absent: the byte 0, or the byte 1 and the value. -/
def option (format : Format α) : Format (Option α) where
  encode
    | none => [0]
    | some value => 1 :: format.encode value
  decode
    | [] => .error .truncated
    | byte :: behind =>
      if byte = 0 then .ok (none, behind)
      else if byte = 1 then
        match format.decode behind with
        | .error problem => .error problem
        | .ok (value, rest) => .ok (some value, rest)
      else .error (.optionTag byte)
  fits
    | none => true
    | some value => format.fits value
  decode_encode := by
    rintro (_ | value) rest fit
    · rfl
    · simp [format.decode_encode rest fit]
  encode_of_decode := by
    rintro (_ | ⟨byte, behind⟩) rest value read
    · simp at read
    · simp only at read
      split at read
      · rename_i zero
        cases read
        exact ⟨rfl, by rw [zero]; rfl⟩
      · split at read
        · rename_i one
          split at read
          · simp at read
          · rename_i decoded
            cases read
            obtain ⟨fit, rfl⟩ := format.encode_of_decode decoded
            exact ⟨fit, by rw [one]; rfl⟩
        · simp at read

end Format

end DecisionLedger
