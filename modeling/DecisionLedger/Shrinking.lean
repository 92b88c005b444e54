import Std.Data.ExtTreeMap

/-! # Maps that shrink

Walks that put aside what they have passed end because the map of what is left gets smaller.
-/

namespace DecisionLedger

variable {α β : Type} [Ord α] [Std.TransOrd α]

theorem size_erase_lt_of_mem {map : Std.ExtTreeMap α β} {key : α} (present : key ∈ map) :
    (map.erase key).size < map.size := by
  have positive : 0 < map.size := by
    rw [Nat.pos_iff_ne_zero]
    intro zero
    rw [← Std.ExtTreeMap.eq_empty_iff_size_eq_zero] at zero
    simp [zero] at present
  rw [Std.ExtTreeMap.size_erase, if_pos (Std.ExtTreeMap.contains_iff_mem.mpr present)]
  omega

theorem size_erase_le_size (map : Std.ExtTreeMap α β) (key : α) :
    (map.erase key).size ≤ map.size := by
  rw [Std.ExtTreeMap.size_erase]
  split <;> omega

end DecisionLedger
