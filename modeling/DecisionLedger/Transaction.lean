import DecisionLedger.Basic
import DecisionLedger.Codec
import DecisionLedger.Digest

/-! # Transactions

A transaction consumes records of its chain's state, creates others, and asks for changes to the
shared memory of other chains.  A proposal carries one transaction, its effect, which counts only if
the proposal is committed.
-/

namespace DecisionLedger

/-- Records to put into one chain's shared memory, and keys to remove from it. -/
structure AtomicRequests where
  puts : List (StateKey × StateValue)
  removes : List StateKey
  deriving Repr, DecidableEq

namespace AtomicRequests

def empty : AtomicRequests := ⟨[], []⟩

instance : EmptyCollection AtomicRequests := ⟨empty⟩

/-- The requests of both, those of the first in front. -/
protected def append (first second : AtomicRequests) : AtomicRequests where
  puts := first.puts ++ second.puts
  removes := first.removes ++ second.removes

instance : Append AtomicRequests := ⟨AtomicRequests.append⟩

@[simp] theorem puts_append (first second : AtomicRequests) :
    (first ++ second).puts = first.puts ++ second.puts := rfl

@[simp] theorem removes_append (first second : AtomicRequests) :
    (first ++ second).removes = first.removes ++ second.removes := rfl

/-- Puts, then removes. -/
def format : Format AtomicRequests :=
  (Format.pair (Format.list (Format.pair Format.bytes Format.bytes)) (Format.list Format.bytes))
    |>.transport (fun (puts, removes) => { puts, removes })
      (fun requests => (requests.puts, requests.removes)) (fun _ => rfl) (fun _ => rfl)

end AtomicRequests

/-- A change to the state of its own chain and to the shared memory of others. -/
structure Transaction where
  /-- The keys of the records it consumes. -/
  inputs : List StateKey
  /-- The records it creates. -/
  outputs : List (StateKey × StateValue)
  /-- Its requests, each with the chain that they address. -/
  requests : List (ChainId × AtomicRequests)
  deriving Repr, DecidableEq

namespace Transaction

/-- Inputs, outputs, requests. -/
def format : Format Transaction :=
  (Format.pair (Format.list Format.bytes)
    (Format.pair (Format.list (Format.pair Format.bytes Format.bytes))
      (Format.list (Format.pair Format.word AtomicRequests.format))))
    |>.transport (fun (inputs, outputs, requests) => { inputs, outputs, requests })
      (fun transaction => (transaction.inputs, transaction.outputs, transaction.requests))
      (fun _ => rfl) (fun _ => rfl)

def encode (transaction : Transaction) : Bytes :=
  format.encode transaction

/-- The identity of a transaction as an indexed container: the digest of its encoding. -/
def containerId (transaction : Transaction) : Digest :=
  Digest.hash transaction.encode

end Transaction

/-- What a proposal unit carries. -/
structure Proposal where
  /-- The transaction that takes effect if the proposal is committed. -/
  effect : Transaction
  prefersCommit : Bool
  deriving Repr, DecidableEq

namespace Proposal

/-- The effect, then the preference. -/
def format : Format Proposal :=
  (Format.pair Transaction.format Format.truth)
    |>.transport (fun (effect, prefersCommit) => { effect, prefersCommit })
      (fun proposal => (proposal.effect, proposal.prefersCommit)) (fun _ => rfl) (fun _ => rfl)

/-- The choice that this node would make. -/
def preferred (proposal : Proposal) : Choice :=
  if proposal.prefersCommit then .commit else .abort

end Proposal

end DecisionLedger
