import DecisionLedger.Bytes.Base64
import DecisionLedger.Sha256

/-! # Digests

Units and indexed containers are identified by a 32-byte digest of their encoding.  Digests are
ordered as byte strings and shown in base64.
-/

namespace DecisionLedger

/-- A string of exactly 32 bytes. -/
structure Digest where
  bytes : Bytes
  length_bytes : bytes.length = 32
  deriving DecidableEq

abbrev UnitId := Digest

/-- The identity of an indexed container: a unit's ID or the digest of a transaction's encoding. -/
abbrev ContainerId := Digest

namespace Digest

@[ext] theorem ext {left right : Digest} (same : left.bytes = right.bytes) : left = right := by
  cases left; cases right; cases same; rfl

/-- The lexicographic order of the bytes. -/
instance : Ord Digest := ⟨compareOn bytes⟩

instance : Std.TransOrd Digest := inferInstanceAs (Std.TransCmp (compareOn bytes))

instance : Std.LawfulEqOrd Digest where
  compare_self := Std.ReflOrd.compare_self
  eq_of_compare same := ext (Std.LawfulEqOrd.eq_of_compare same)

def ofBytes? (bytes : Bytes) : Option Digest :=
  if length_bytes : bytes.length = 32 then some { bytes, length_bytes } else none

def hash (message : Bytes) : Digest where
  bytes := Sha256.hash message
  length_bytes := Sha256.length_hash message

def filled (byte : UInt8) : Digest where
  bytes := List.replicate 32 byte
  length_bytes := by simp

/-- The digest of zeros, which stands for the parent of a genesis unit. -/
def zero : Digest := filled 0

/-- The text of a digest: its base64 form. -/
def text (digest : Digest) : String :=
  Base64.encode digest.bytes

instance : ToString Digest := ⟨text⟩

instance : Repr Digest := ⟨fun digest _ => digest.text⟩

def labelledText (label : String) (digest : Digest) : String :=
  label ++ "(" ++ digest.text ++ ")"

end Digest

end DecisionLedger
