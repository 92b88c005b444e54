import DecisionLedger.DecisionUnit.Fault
import DecisionLedger.Store.Key
import Std.Data.ExtTreeMap

/-! # Stores

A store maps byte strings to byte strings.  Its typed readers decode the values of the variables;
all but units may be followed by further bytes, which are left out.
-/

namespace DecisionLedger

/-- The contents of a key-value store. -/
abbrev Store := Std.ExtTreeMap Bytes Bytes

/-- Why a variable cannot be read. -/
inductive ReadError where
  /-- The stored value is no value of the variable. -/
  | undecodable (key : Key) (problem : DecodeError)
  /-- A variable that must be present is absent. -/
  | absent (key : Key)
  /-- The stored unit is malformed. -/
  | malformedUnit (id : UnitId) (fault : UnitFault)
  deriving Repr, DecidableEq

namespace ReadError

def message : ReadError → String
  | undecodable key problem => s!"failed to deserialize {key.describe}: {problem.message}"
  | absent key => s!"expected {key.describe} to be stored, but it was not found"
  | malformedUnit id fault => s!"stored unit {id} is malformed: {fault.message}"

end ReadError

namespace Store

def empty : Store := ∅

/-- The bytes of a variable. -/
def raw? (store : Store) (key : Key) : Option Bytes :=
  store[key.encode]?

def has (store : Store) (key : Key) : Bool :=
  store.contains key.encode

/-- The value of a variable, if it is present. -/
def value? {α : Type} (store : Store) (key : Key) (format : Format α) :
    Except ReadError (Option α) :=
  match store.raw? key with
  | none => .ok none
  | some bytes =>
    match format.decodeFront bytes with
    | .ok value => .ok (some value)
    | .error problem => .error (.undecodable key problem)

def unit? (store : Store) (id : UnitId) : Except ReadError (Option DecisionUnit) :=
  match store.raw? (.unit id) with
  | none => .ok none
  | some bytes =>
    match DecisionUnit.parseUnlimited bytes with
    | .ok unit => .ok (some unit)
    | .error fault => .error (.malformedUnit id fault)

def containsUnit (store : Store) (id : UnitId) : Bool :=
  store.has (.unit id)

def unitAtHeight? (store : Store) (height : Height) : Except ReadError (Option UnitId) :=
  store.value? (.unitAtHeight height) Digest.format

/-- The ID of the unit accepted last. -/
def lastAccepted (store : Store) : Except ReadError UnitId :=
  match store.value? .lastAccepted Digest.format with
  | .ok (some id) => .ok id
  | .ok none => .error (.absent .lastAccepted)
  | .error problem => .error problem

def state? (store : Store) (key : StateKey) : Option StateValue :=
  store.raw? (.state key)

def shared? (store : Store) (chain : ChainId) (key : StateKey) : Option StateValue :=
  store.raw? (.shared chain key)

def container? (store : Store) (chain : ChainId) (contents : Contents) (index : AcceptIndex) :
    Except ReadError (Option Container) :=
  store.value? (.container chain contents index) Container.format

def position? (store : Store) (chain : ChainId) (contents : Contents) (id : ContainerId) :
    Except ReadError (Option AcceptIndex) :=
  store.value? (.position chain contents id) Format.word

/-- The number of containers in an index, which is also the position of the next one. -/
def nextIndex (store : Store) (chain : ChainId) (contents : Contents) :
    Except ReadError AcceptIndex :=
  (store.value? (.next chain contents) Format.word).map (·.getD 0)

def isIncomplete (store : Store) (chain : ChainId) : Bool :=
  store.has (.incomplete chain)

def isPreviouslyIndexed (store : Store) (chain : ChainId) : Bool :=
  store.has (.previouslyIndexed chain)

def hasRun (store : Store) : Bool :=
  store.has .hasRun

end Store

end DecisionLedger
