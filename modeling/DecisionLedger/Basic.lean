import DecisionLedger.Bytes

/-! # Vocabulary

The numbers and byte strings that the whole library speaks of.
-/

namespace DecisionLedger

/-- The number of a chain.  Chains share listeners but no units. -/
abbrev ChainId := UInt64

/-- The distance of a unit from genesis along its parents. -/
abbrev Height := UInt64

/-- Seconds since the epoch, as carried by a unit's header. -/
abbrev Timestamp := UInt64

/-- The position of a container in an index, counted from zero. -/
abbrev AcceptIndex := UInt64

/-- The key of a record in the accepted state or in another chain's shared memory. -/
abbrev StateKey := Bytes

/-- The value of such a record. -/
abbrev StateValue := Bytes

namespace Height

/-- The height `steps` above, if a word holds it. -/
def above? (height : Height) (steps : UInt64) : Option Height :=
  if height.toNat + steps.toNat < UInt64.size then some (height + steps) else none

theorem above?_eq_some_iff {height upper : Height} {steps : UInt64} :
    height.above? steps = some upper ↔ upper.toNat = height.toNat + steps.toNat := by
  unfold above?
  split
  · rename_i held
    have sum : (height + steps).toNat = height.toNat + steps.toNat :=
      (UInt64.toNat_add height steps).trans (Nat.mod_eq_of_lt held)
    rw [Option.some.injEq, ← sum, UInt64.toNat_inj, eq_comm]
  · rename_i lost
    have bound : upper.toNat < UInt64.size := upper.toNat_lt
    refine iff_of_false (by simp) fun same => ?_
    rw [same] at bound
    exact lost bound

/-- How far one height is above another, and zero if it is not. -/
def distance (upper lower : Height) : UInt64 :=
  if lower ≤ upper then upper - lower else 0

theorem toNat_distance (upper lower : Height) :
    (distance upper lower).toNat = upper.toNat - lower.toNat := by
  unfold distance
  split
  · rename_i above
    exact UInt64.toNat_sub_of_le _ _ above
  · rename_i below
    rw [UInt64.le_iff_toNat_le] at below
    simp
    omega

end Height

/-- One of the two ways to decide a proposal. -/
inductive Choice where
  | commit
  | abort
  deriving Repr, DecidableEq

namespace Choice

def other : Choice → Choice
  | commit => abort
  | abort => commit

def name : Choice → String
  | commit => "commit"
  | abort => "abort"

end Choice

end DecisionLedger
