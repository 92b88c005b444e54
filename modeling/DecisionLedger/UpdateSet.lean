import DecisionLedger.Basic
import Std.Data.ExtTreeMap
import Std.Data.ExtTreeSet

/-! # Update sets

Insertions and deletions that take effect later.  Of an insertion and a deletion of one key the
later one stands, so no key has both.
-/

namespace DecisionLedger

/-- Changes to a map from `κ` to `ν`. -/
structure UpdateSet (κ ν : Type) [Ord κ] where
  /-- The values to insert. -/
  inserts : Std.ExtTreeMap κ ν
  /-- The keys to delete. -/
  deletes : Std.ExtTreeSet κ

namespace UpdateSet

variable {κ ν : Type} [Ord κ] [Std.TransOrd κ]

def empty : UpdateSet κ ν := ⟨∅, ∅⟩

instance : EmptyCollection (UpdateSet κ ν) := ⟨empty⟩

instance : Inhabited (UpdateSet κ ν) := ⟨∅⟩

/-- Insert a value, and no longer delete its key. -/
def insert (updates : UpdateSet κ ν) (key : κ) (value : ν) : UpdateSet κ ν where
  inserts := updates.inserts.insert key value
  deletes := updates.deletes.erase key

/-- Delete a key, and no longer insert a value for it. -/
def delete (updates : UpdateSet κ ν) (key : κ) : UpdateSet κ ν where
  inserts := updates.inserts.erase key
  deletes := updates.deletes.insert key

def inserted? (updates : UpdateSet κ ν) (key : κ) : Option ν :=
  updates.inserts[key]?

def isDeleted (updates : UpdateSet κ ν) (key : κ) : Bool :=
  updates.deletes.contains key

def isEmpty (updates : UpdateSet κ ν) : Bool :=
  updates.inserts.isEmpty && updates.deletes.isEmpty

@[simp] theorem inserted?_empty (key : κ) : (∅ : UpdateSet κ ν).inserted? key = none := by
  change (∅ : Std.ExtTreeMap κ ν)[key]? = none
  simp

@[simp] theorem isDeleted_empty (key : κ) : (∅ : UpdateSet κ ν).isDeleted key = false := by
  change (∅ : Std.ExtTreeSet κ).contains key = false
  simp

section Lookup

variable [Std.LawfulEqOrd κ] [DecidableEq κ]

theorem inserted?_insert (updates : UpdateSet κ ν) (key other : κ) (value : ν) :
    (updates.insert key value).inserted? other =
      if key = other then some value else updates.inserted? other := by
  simp [inserted?, insert, Std.ExtTreeMap.getElem?_insert]

theorem inserted?_delete (updates : UpdateSet κ ν) (key other : κ) :
    (updates.delete key).inserted? other =
      if key = other then none else updates.inserted? other := by
  simp [inserted?, delete, Std.ExtTreeMap.getElem?_erase]

theorem isDeleted_insert (updates : UpdateSet κ ν) (key other : κ) (value : ν) :
    (updates.insert key value).isDeleted other =
      if key = other then false else updates.isDeleted other := by
  by_cases same : key = other <;>
    simp [isDeleted, insert, Std.ExtTreeSet.contains_erase, same]

theorem isDeleted_delete (updates : UpdateSet κ ν) (key other : κ) :
    (updates.delete key).isDeleted other =
      if key = other then true else updates.isDeleted other := by
  by_cases same : key = other <;>
    simp [isDeleted, delete, Std.ExtTreeSet.contains_insert, same]

end Lookup

end UpdateSet

/-- Changes to a chain's accepted state. -/
abbrev StateUpdates := UpdateSet StateKey StateValue

end DecisionLedger
