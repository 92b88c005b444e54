import DecisionLedger.DecisionUnit
import DecisionLedger.Transaction.Fault

/-! # Making and checking units

A unit is built from fields or read from bytes, both within a size limit, and can be checked for
faults that show without any state.
-/

namespace DecisionLedger

/-- Why a unit is malformed. -/
inductive UnitFault where
  /-- The encoding is longer than the limit. -/
  | tooLarge (size limit : Nat)
  /-- The bytes encode no unit. -/
  | undecodable (problem : DecodeError)
  /-- The bytes differ from the encoding of the unit read from them. -/
  | notCanonical
  /-- A sequence is too long for its length field. -/
  | unencodable
  /-- A standard unit has nothing to apply. -/
  | emptyStandard
  /-- A vertex refers to its own parent. -/
  | parentAsEdge
  /-- A vertex refers to a unit twice. -/
  | repeatedEdge
  /-- A transaction of the unit is malformed. -/
  | transaction (fault : TransactionFault)
  deriving Repr, DecidableEq

namespace UnitFault

/-- What is wrong with the payload. -/
def reason : UnitFault → String
  | tooLarge size limit => s!"unit is {size} bytes, the maximum is {limit}"
  | undecodable problem => problem.message
  | notCanonical => "non-canonical unit encoding"
  | unencodable => "invalid input parameter"
  | emptyStandard => "standard unit has no transactions"
  | parentAsEdge => "vertex lists its parent as an edge"
  | repeatedEdge => "vertex lists the same edge twice"
  | transaction fault => fault.message

def message (fault : UnitFault) : String :=
  "malformed payload: " ++ fault.reason

end UnitFault

namespace DecisionUnit

/-- The unit with the given fields, if its encoding is within the limit. -/
def build (fields : UnitFields) (maxSize : Nat) : Except UnitFault DecisionUnit :=
  if fits : UnitFields.format.fits fields = true then
    let unit := ofFields fields fits
    if unit.size ≤ maxSize then .ok unit else .error (.tooLarge unit.size maxSize)
  else .error .unencodable

/-- The unit whose encoding is given, whatever its size. -/
def parseUnlimited (bytes : Bytes) : Except UnitFault DecisionUnit :=
  match UnitFields.format.decodeAll bytes with
  | .error problem => .error (.undecodable problem)
  | .ok fields =>
    if fits : UnitFields.format.fits fields = true then
      let unit := ofFields fields fits
      if unit.bytes = bytes then .ok unit else .error .notCanonical
    else .error .notCanonical

/-- The unit whose encoding is given, if it is within the limit. -/
def parse (bytes : Bytes) (maxSize : Nat) : Except UnitFault DecisionUnit :=
  if bytes.length ≤ maxSize then parseUnlimited bytes
  else .error (.tooLarge bytes.length maxSize)

def transactionFault? (transactions : List Transaction) : Option UnitFault :=
  (transactions.findSome? Transaction.fault?).map .transaction

/-- The first edge that is the parent or occurs before. -/
def edgeFault? (parent : UnitId) (edges : List UnitId) : Option UnitFault :=
  firstFault
    (fun earlier edge =>
      if edge = parent then some .parentAsEdge
      else if edge ∈ earlier then some .repeatedEdge
      else none)
    edges

/-- The fault of a malformed body under a given parent. -/
def bodyFault? (parent : UnitId) : Body → Option UnitFault
  | .standard [] => some .emptyStandard
  | .standard transactions => transactionFault? transactions
  | .proposal proposal => transactionFault? [proposal.effect]
  | .commit | .abort => none
  | .vertex edges transactions => edgeFault? parent edges <|> transactionFault? transactions

/-- The fault of a malformed unit: its size, then its body. -/
def fault? (unit : DecisionUnit) (maxSize : Nat) : Option UnitFault :=
  if unit.size ≤ maxSize then bodyFault? unit.parent unit.body
  else some (.tooLarge unit.size maxSize)

end DecisionUnit

end DecisionLedger
