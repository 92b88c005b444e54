import DecisionLedger.Transaction

/-! # Decision units

A decision unit is a block of a linear chain or a vertex of a graph.  Its header names the unit that
it extends, its height and perhaps a time; its body says what it does.  A unit is identified by the
digest of its encoding, and reading an encoding gives back the unit it was made from.
-/

namespace DecisionLedger

/-- What a unit does when it is decided. -/
inductive Body where
  /-- Apply transactions. -/
  | standard (transactions : List Transaction)
  /-- Ask to apply a transaction; an option extending the proposal decides. -/
  | proposal (proposal : Proposal)
  /-- Decide the parent proposal and apply its effect. -/
  | commit
  /-- Decide the parent proposal and drop its effect. -/
  | abort
  /-- Apply transactions, and refer to further units besides the parent. -/
  | vertex (edges : List UnitId) (transactions : List Transaction)
  deriving Repr, DecidableEq

/-- The alternative of a body, without its payload. -/
inductive Kind where
  | standard
  | proposal
  | commit
  | abort
  | vertex
  deriving Repr, DecidableEq

namespace Kind

def isOption : Kind → Bool
  | commit | abort => true
  | standard | proposal | vertex => false

def name : Kind → String
  | standard => "Standard"
  | proposal => "Proposal"
  | commit => "Commit"
  | abort => "Abort"
  | vertex => "Vertex"

end Kind

namespace Body

def kind : Body → Kind
  | standard _ => .standard
  | proposal _ => .proposal
  | commit => .commit
  | abort => .abort
  | vertex _ _ => .vertex

def choice? : Body → Option Choice
  | commit => some .commit
  | abort => some .abort
  | standard _ | proposal _ | vertex _ _ => none

/-- The units that a vertex refers to. -/
def edges : Body → List UnitId
  | vertex edges _ => edges
  | standard _ | proposal _ | commit | abort => []

/-- The transactions that take effect with the unit itself. -/
def transactions : Body → List Transaction
  | standard transactions | vertex _ transactions => transactions
  | proposal _ | commit | abort => []

end Body

namespace Digest

def format : Format Digest :=
  Format.fixed 32 Digest.bytes Digest.mk Digest.length_bytes (fun _ _ => rfl) (fun _ => rfl)

end Digest

namespace Body

/-- The number of the alternative, then its payload. -/
def format : Format Body where
  encode
    | standard transactions => 0 :: (Format.list Transaction.format).encode transactions
    | proposal proposed => 1 :: Proposal.format.encode proposed
    | commit => [2]
    | abort => [3]
    | vertex edges transactions =>
      4 :: ((Format.list Digest.format).pair (Format.list Transaction.format)).encode
        (edges, transactions)
  decode
    | [] => .error .truncated
    | tag :: payload =>
      if tag = 0 then
        match (Format.list Transaction.format).decode payload with
        | .error problem => .error problem
        | .ok (transactions, rest) => .ok (standard transactions, rest)
      else if tag = 1 then
        match Proposal.format.decode payload with
        | .error problem => .error problem
        | .ok (proposed, rest) => .ok (proposal proposed, rest)
      else if tag = 2 then .ok (commit, payload)
      else if tag = 3 then .ok (abort, payload)
      else if tag = 4 then
        let linked := (Format.list Digest.format).pair (Format.list Transaction.format)
        match linked.decode payload with
        | .error problem => .error problem
        | .ok ((edges, transactions), rest) => .ok (vertex edges transactions, rest)
      else .error (.alternative tag)
  fits
    | standard transactions => (Format.list Transaction.format).fits transactions
    | proposal proposed => Proposal.format.fits proposed
    | commit => true
    | abort => true
    | vertex edges transactions =>
      ((Format.list Digest.format).pair (Format.list Transaction.format)).fits (edges, transactions)
  decode_encode := by
    rintro (transactions | proposed | _ | _ | ⟨edges, transactions⟩) rest fit
    · simp [Format.decode_encode _ rest fit]
    · simp [Format.decode_encode _ rest fit]
    · rfl
    · rfl
    · simp [Format.decode_encode _ rest fit]
  encode_of_decode := by
    rintro (_ | ⟨tag, payload⟩) rest value read
    · simp at read
    · simp only at read
      split at read
      · rename_i tagged
        split at read
        · simp at read
        · rename_i decoded
          cases read
          obtain ⟨fit, rfl⟩ := Format.encode_of_decode _ decoded
          exact ⟨fit, by rw [tagged]; rfl⟩
      · split at read
        · rename_i tagged
          split at read
          · simp at read
          · rename_i decoded
            cases read
            obtain ⟨fit, rfl⟩ := Format.encode_of_decode _ decoded
            exact ⟨fit, by rw [tagged]; rfl⟩
        · split at read
          · rename_i tagged
            cases read
            exact ⟨rfl, by rw [tagged]; rfl⟩
          · split at read
            · rename_i tagged
              cases read
              exact ⟨rfl, by rw [tagged]; rfl⟩
            · split at read
              · rename_i tagged
                split at read
                · simp at read
                · rename_i decoded
                  cases read
                  obtain ⟨fit, rfl⟩ := Format.encode_of_decode _ decoded
                  exact ⟨fit, by rw [tagged]; rfl⟩
              · simp at read

end Body

/-- The fields of a unit that its encoding holds. -/
structure UnitFields where
  /-- The unit that this one extends. -/
  parent : UnitId
  height : Height
  /-- Absent in units of the format without times. -/
  timestamp : Option Timestamp
  body : Body
  deriving Repr, DecidableEq

namespace UnitFields

/-- Parent, height, time, body. -/
def format : Format UnitFields :=
  (Digest.format.pair (Format.word.pair ((Format.option Format.word).pair Body.format)))
    |>.transport (fun (parent, height, timestamp, body) => { parent, height, timestamp, body })
      (fun fields => (fields.parent, fields.height, fields.timestamp, fields.body))
      (fun _ => rfl) (fun _ => rfl)

end UnitFields

/-- A unit with its encoding and its identity. -/
structure DecisionUnit where
  fields : UnitFields
  bytes : Bytes
  id : UnitId
  /-- Every sequence in the unit is short enough to be encoded. -/
  fits : UnitFields.format.fits fields = true
  bytes_eq : bytes = UnitFields.format.encode fields
  id_eq : id = Digest.hash bytes
  deriving DecidableEq

namespace DecisionUnit

/-- The largest encoding that is accepted unless a limit is given. -/
def defaultMaxSize : Nat := 2097152

def ofFields (fields : UnitFields) (fits : UnitFields.format.fits fields = true) :
    DecisionUnit :=
  let bytes := UnitFields.format.encode fields
  { fields, bytes, id := Digest.hash bytes, fits, bytes_eq := rfl, id_eq := rfl }

@[ext] theorem ext {left right : DecisionUnit} (same : left.fields = right.fields) :
    left = right := by
  obtain ⟨_, _, _, _, rfl, rfl⟩ := left
  obtain ⟨_, _, _, _, rfl, rfl⟩ := right
  cases same
  rfl

def parent (unit : DecisionUnit) : UnitId := unit.fields.parent

def height (unit : DecisionUnit) : Height := unit.fields.height

def timestamp (unit : DecisionUnit) : Option Timestamp := unit.fields.timestamp

def body (unit : DecisionUnit) : Body := unit.fields.body

def kind (unit : DecisionUnit) : Kind := unit.body.kind

def size (unit : DecisionUnit) : Nat := unit.bytes.length

/-- The first unit of every chain: it extends nothing and does nothing. -/
def genesis : DecisionUnit :=
  ofFields { parent := .zero, height := 0, timestamp := none, body := .standard [] } rfl

end DecisionUnit

end DecisionLedger
