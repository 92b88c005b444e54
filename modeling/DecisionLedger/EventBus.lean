import DecisionLedger.Event

/-! # Event buses

The bus of a chain hands published events to the handlers of their kind: first the default one that
logs, if events are logged, and then the user's.  A handler that breaks ends the bus.
-/

namespace DecisionLedger

/-- A user's handler of one kind of event. -/
inductive Handler where
  /-- Note the event. -/
  | noting
  /-- Break. -/
  | breaking
  deriving Repr, DecidableEq

/-- The handlers of a chain. -/
structure EventHandlers where
  logs : Bool
  onVerified : Option Handler := none
  onAccepted : Option Handler := none
  onRejected : Option Handler := none
  onHalted : Option Handler := none
  deriving Repr, DecidableEq

namespace EventHandlers

def isEmpty (handlers : EventHandlers) : Bool :=
  !handlers.logs && handlers.onVerified.isNone && handlers.onAccepted.isNone &&
    handlers.onRejected.isNone && handlers.onHalted.isNone

/-- The user's handler for an event. -/
def handler? (handlers : EventHandlers) : Event → Option Handler
  | .verified _ _ _ _ => handlers.onVerified
  | .accepted _ _ _ _ => handlers.onAccepted
  | .rejected _ _ _ => handlers.onRejected
  | .halted _ _ => handlers.onHalted

end EventHandlers

/-- What a bus has done. -/
structure BusReport where
  /-- The lines that the default handlers logged. -/
  lines : List LogLine
  /-- The events that the user's handlers noted. -/
  noted : List Event
  /-- Whether a handler broke, and with it the bus. -/
  broken : Bool
  deriving Repr, DecidableEq

namespace BusReport

/-- What a bus does with events, the oldest first. -/
def ofEvents (handlers : EventHandlers) : List Event → BusReport
  | [] => { lines := [], noted := [], broken := false }
  | event :: rest =>
    let lines := if handlers.logs then [event.logLine] else []
    match handlers.handler? event with
    | some .breaking => { lines, noted := [], broken := true }
    | some .noting =>
      let later := ofEvents handlers rest
      { later with lines := lines ++ later.lines, noted := event :: later.noted }
    | none =>
      let later := ofEvents handlers rest
      { later with lines := lines ++ later.lines }

end BusReport

end DecisionLedger
