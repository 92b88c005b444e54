import DecisionLedger.Contents

/-! # The layout of a store

A store keeps every variable of a chain under a key of its own: one byte for the variable, then its
arguments.  Numbers in keys have the least significant byte first, except positions in an index,
which have it last so that the keys of an index sort in the order of acceptance.
-/

namespace DecisionLedger

/-- A variable of a store with its arguments. -/
inductive Key where
  /-- An accepted unit. -/
  | unit (id : UnitId)
  /-- The ID of the accepted unit of a height. -/
  | unitAtHeight (height : Height)
  /-- The ID of the unit accepted last. -/
  | lastAccepted
  /-- A record of the accepted state. -/
  | state (key : StateKey)
  /-- A record in the shared memory of a chain. -/
  | shared (chain : ChainId) (key : StateKey)
  /-- The container at a position of an index. -/
  | container (chain : ChainId) (contents : Contents) (index : AcceptIndex)
  /-- The position of a container in an index. -/
  | position (chain : ChainId) (contents : Contents) (id : ContainerId)
  | next (chain : ChainId) (contents : Contents)
  /-- Present if accepted units of a chain were never indexed. -/
  | incomplete (chain : ChainId)
  /-- Present if a chain was indexed before. -/
  | previouslyIndexed (chain : ChainId)
  /-- Present if the node ran before. -/
  | hasRun
  deriving Repr, DecidableEq

namespace Key

def tag : Key → UInt8
  | unit _ => 0
  | unitAtHeight _ => 1
  | lastAccepted => 2
  | state _ => 3
  | shared _ _ => 4
  | container _ _ _ => 5
  | position _ _ _ => 6
  | next _ _ => 7
  | incomplete _ => 8
  | previouslyIndexed _ => 9
  | hasRun => 10

/-- The arguments of a variable as bytes. -/
def arguments : Key → Bytes
  | unit id => id.bytes
  | unitAtHeight height => Bytes.ofWord height
  | lastAccepted => []
  | state key => key
  | shared chain key => Bytes.ofWord chain ++ key
  | container chain contents index =>
    Bytes.ofWord chain ++ contents.tag :: Bytes.ofWordBigEndian index
  | position chain contents id => Bytes.ofWord chain ++ contents.tag :: id.bytes
  | next chain contents => Bytes.ofWord chain ++ [contents.tag]
  | incomplete chain => Bytes.ofWord chain
  | previouslyIndexed chain => Bytes.ofWord chain
  | hasRun => []

/-- The bytes under which a store keeps a variable. -/
def encode (key : Key) : Bytes :=
  key.tag :: key.arguments

/-- A variable in words. -/
def describe : Key → String
  | unit id => s!"Unit {id}"
  | unitAtHeight height => s!"Unit at height {height}"
  | lastAccepted => "Last Accepted"
  | state key => s!"Accepted state of {key.describe}"
  | shared chain key => s!"Shared memory of {key.describe} on chain {chain}"
  | container chain contents index =>
    s!"Container {index} in the {contents.containerName} index of chain {chain}"
  | position chain contents id => s!"Index of {contents.containerName} {id} of chain {chain}"
  | next chain contents =>
    s!"Next accept index of the {contents.containerName} index of chain {chain}"
  | incomplete chain => s!"Index incomplete marker of chain {chain}"
  | previouslyIndexed chain => s!"Previously indexed marker of chain {chain}"
  | hasRun => "Has Run"

end Key

end DecisionLedger
