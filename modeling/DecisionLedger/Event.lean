import DecisionLedger.DecisionUnit
import DecisionLedger.Log

/-! # Events

A chain announces what has become of its units, and that it has halted.
-/

namespace DecisionLedger

/-- Something that happened on a chain. -/
inductive Event where
  /-- A unit became pending. -/
  | verified (chain : ChainId) (unit : UnitId) (height : Height) (kind : Kind)
  /-- A unit was accepted and committed. -/
  | accepted (chain : ChainId) (unit : UnitId) (height : Height) (kind : Kind)
  /-- A pending unit was rejected. -/
  | rejected (chain : ChainId) (unit : UnitId) (height : Height)
  /-- The chain stopped deciding. -/
  | halted (chain : ChainId) (reason : String)
  deriving Repr, DecidableEq

namespace Event

/-- The seven characters by which the log names a unit. -/
def shortName (unit : UnitId) : String :=
  String.ofList (unit.text.toList.take 7)

/-- The line that logs an event. -/
def logLine : Event → LogLine
  | verified chain unit height kind =>
    ⟨.info, .record "VerifyUnit" [toString chain, shortName unit, toString height, kind.name]⟩
  | accepted chain unit height kind =>
    ⟨.info, .record "AcceptUnit" [toString chain, shortName unit, toString height, kind.name]⟩
  | rejected chain unit height =>
    ⟨.info, .record "RejectUnit" [toString chain, shortName unit, toString height]⟩
  | halted chain reason => ⟨.error, .record "HaltChain" [toString chain, reason]⟩

end Event

/-- Where events are published to. -/
inductive Channel where
  /-- Nobody listens, and nobody is meant to. -/
  | closed
  /-- Events wait for a receiver, the oldest first. -/
  | open (waiting : List Event)
  /-- The receiver is gone. -/
  | disconnected
  deriving Repr, DecidableEq

namespace Channel

/-- Publish an event.  One that finds no receiver any more is dropped with a warning. -/
def publish (channel : Channel) (event : Event) : Channel × List LogLine :=
  match channel with
  | closed => (closed, [])
  | .open waiting => (.open (waiting ++ [event]), [])
  | disconnected => (disconnected, [.warning "event bus disconnected, dropping event"])

def drain : Channel → List Event × Channel
  | .open waiting => (waiting, .open [])
  | closed => ([], closed)
  | disconnected => ([], disconnected)

/-- Leave the receiving end.  A channel that is meant to have a receiver warns from then on. -/
def disconnect : Channel → Channel
  | .open _ => disconnected
  | closed => closed
  | disconnected => disconnected

end Channel

end DecisionLedger
