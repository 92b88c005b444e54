import Std.Data.ExtTreeSet

/-! # The first fault of a list

Checks of lists such as "no element twice" look at each element together with the elements before
it, and report the first element at fault.
-/

namespace DecisionLedger

variable {α φ : Type} [Ord α] [Std.TransOrd α]

/-- The first fault of a list, where `fault` sees an element and the set of those before it, which
starts as `earlier`. -/
def firstFaultAfter (fault : (earlier : Std.ExtTreeSet α) → α → Option φ)
    (earlier : Std.ExtTreeSet α) : List α → Option φ
  | [] => none
  | element :: rest =>
    match fault earlier element with
    | some found => some found
    | none => firstFaultAfter fault (earlier.insert element) rest

/-- The first fault of a list, where `fault` sees an element and the set of those before it. -/
def firstFault (fault : (earlier : Std.ExtTreeSet α) → α → Option φ) (elements : List α) :
    Option φ :=
  firstFaultAfter fault ∅ elements

end DecisionLedger
