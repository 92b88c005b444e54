import DecisionLedger.FirstFault
import DecisionLedger.Transaction

/-! # Malformed transactions

The faults of a transaction that show without any state.
-/

namespace DecisionLedger

/-- Why a transaction is malformed. -/
inductive TransactionFault where
  /-- It has no input, no output and no request. -/
  | noEffect
  /-- An input occurs twice. -/
  | repeatedInput
  /-- An output has the key of an input. -/
  | recreatedInput
  /-- Two outputs have the same key. -/
  | repeatedOutput
  /-- Two request sets address the same chain. -/
  | repeatedChain (chain : ChainId)
  deriving Repr, DecidableEq

namespace TransactionFault

def message : TransactionFault → String
  | noEffect => "transaction has no effect"
  | repeatedInput => "transaction consumes the same input twice"
  | recreatedInput => "transaction re-creates one of its own inputs"
  | repeatedOutput => "transaction creates the same output twice"
  | repeatedChain chain => s!"transaction has two request sets for chain {chain}"

end TransactionFault

namespace Transaction

def inputFault? (transaction : Transaction) : Option TransactionFault :=
  firstFault (fun earlier key => if key ∈ earlier then some .repeatedInput else none)
    transaction.inputs

/-- The first output whose key is an input or occurs before. -/
def outputFault? (transaction : Transaction) : Option TransactionFault :=
  let inputs : Std.ExtTreeSet StateKey := .ofList transaction.inputs
  firstFault
    (fun earlier key =>
      if key ∈ inputs then some .recreatedInput
      else if key ∈ earlier then some .repeatedOutput
      else none)
    (transaction.outputs.map Prod.fst)

def requestFault? (transaction : Transaction) : Option TransactionFault :=
  firstFault (fun earlier chain => if chain ∈ earlier then some (.repeatedChain chain) else none)
    (transaction.requests.map Prod.fst)

def isEmpty (transaction : Transaction) : Bool :=
  transaction.inputs.isEmpty && transaction.outputs.isEmpty && transaction.requests.isEmpty

/-- The fault of a malformed transaction: of its inputs, then its outputs, then its requests. -/
def fault? (transaction : Transaction) : Option TransactionFault :=
  if transaction.isEmpty then some .noEffect
  else transaction.inputFault? <|> transaction.outputFault? <|> transaction.requestFault?

end Transaction

end DecisionLedger
