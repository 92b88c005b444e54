/-! # Byte strings

A byte string is a list of bytes, ordered lexicographically.  Fixed-width integers are written in
base 256, least significant digit first or last, and either direction reads back.
-/

namespace DecisionLedger

abbrev Bytes := List UInt8

namespace Bytes

/-- The bytes in decimal, separated by commas and put in brackets. -/
def describe (bytes : Bytes) : String :=
  "[" ++ ", ".intercalate (bytes.map fun byte => toString byte.toNat) ++ "]"

/-- The lowest `width` base-256 digits of a number, the least significant first. -/
def littleEndian : (width : Nat) → (value : Nat) → Bytes
  | 0, _ => []
  | width + 1, value => UInt8.ofNat value :: littleEndian width (value / 256)

/-- The lowest `width` base-256 digits of a number, the most significant first. -/
def bigEndian (width value : Nat) : Bytes :=
  (littleEndian width value).reverse

/-- The number whose base-256 digits are given, the least significant first. -/
def ofLittleEndian : Bytes → Nat
  | [] => 0
  | byte :: rest => byte.toNat + 256 * ofLittleEndian rest

/-- The eight bytes of a word, the least significant first. -/
def ofWord (word : UInt64) : Bytes :=
  littleEndian 8 word.toNat

def ofWordBigEndian (word : UInt64) : Bytes :=
  bigEndian 8 word.toNat

@[simp] theorem length_littleEndian (width value : Nat) :
    (littleEndian width value).length = width := by
  induction width generalizing value with
  | zero => rfl
  | succ width ih => simp [littleEndian, ih]

@[simp] theorem length_bigEndian (width value : Nat) : (bigEndian width value).length = width := by
  simp [bigEndian]

theorem ofLittleEndian_lt (bytes : Bytes) : ofLittleEndian bytes < Nat.pow 256 bytes.length := by
  induction bytes with
  | nil => simp [ofLittleEndian]
  | cons byte rest ih =>
    have small := byte.toNat_lt
    simp only [ofLittleEndian, List.length_cons, Nat.pow_eq, Nat.pow_succ] at ih ⊢
    omega

theorem ofLittleEndian_littleEndian (width : Nat) {value : Nat}
    (small : value < Nat.pow 256 width) :
    ofLittleEndian (littleEndian width value) = value := by
  induction width generalizing value with
  | zero =>
    simp only [Nat.pow_eq, Nat.pow_zero] at small
    simp only [littleEndian, ofLittleEndian]
    omega
  | succ width ih =>
    simp only [Nat.pow_eq, Nat.pow_succ] at small ih
    simp only [littleEndian, ofLittleEndian, UInt8.toNat_ofNat']
    rw [ih (by omega)]
    omega

theorem littleEndian_ofLittleEndian (bytes : Bytes) :
    littleEndian bytes.length (ofLittleEndian bytes) = bytes := by
  induction bytes with
  | nil => rfl
  | cons byte rest ih =>
    have small := byte.toNat_lt
    have quotient : (byte.toNat + 256 * ofLittleEndian rest) / 256 = ofLittleEndian rest := by omega
    have digit : UInt8.ofNat (byte.toNat + 256 * ofLittleEndian rest) = byte := by
      apply UInt8.toNat_inj.mp
      rw [UInt8.toNat_ofNat']
      omega
    simp only [List.length_cons, littleEndian, ofLittleEndian, quotient, digit, ih]

@[simp] theorem length_ofWord (word : UInt64) : (ofWord word).length = 8 := by
  simp [ofWord]

end Bytes

end DecisionLedger
