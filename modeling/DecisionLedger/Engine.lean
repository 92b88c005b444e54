import DecisionLedger.Manager.Acceptance
import DecisionLedger.Manager.Query
import DecisionLedger.Manager.Verification

/-! # Engines

An engine is the front of a chain's manager for the consensus that drives it.  It takes units of one
flavor only, and refuses everything once an operation on it was cut short.
-/

namespace DecisionLedger

namespace Flavor

def includes : Flavor → Kind → Bool
  | linear, .vertex => false
  | linear, _ => true
  | graph, .vertex => true
  | graph, _ => false

def name : Flavor → String
  | linear => "Linear"
  | graph => "Dag"

end Flavor

/-- Why an engine refuses an operation. -/
inductive EngineError where
  | wrongFlavor (flavor : Flavor) (kind : Kind)
  | manager (error : ManagerError)
  /-- An operation on the engine was cut short before. -/
  | poisoned (chain : ChainId)
  deriving Repr, DecidableEq

namespace EngineError

def message : EngineError → String
  | wrongFlavor flavor kind => s!"{kind.name} unit delivered to a {flavor.name} chain"
  | manager error => error.message
  | poisoned chain => s!"lock of chain {chain} is poisoned"

end EngineError

/-- A manager behind one flavor. -/
structure Engine where
  flavor : Flavor
  manager : Manager
  /-- Whether an operation was cut short. -/
  isPoisoned : Bool := false

namespace Engine

def chain (engine : Engine) : ChainId :=
  engine.manager.config.chain

/-- Refuse everything after an operation that was cut short. -/
def access (engine : Engine) : Except EngineError Manager :=
  if engine.isPoisoned then .error (.poisoned engine.chain) else .ok engine.manager

def ask {α : Type} (engine : Engine) (query : Manager → Except ManagerError α) :
    Except EngineError α := do
  let manager ← engine.access
  match query manager with
  | .ok value => pure value
  | .error error => throw (.manager error)

def verify (engine : Engine) (store : Store) (unit : DecisionUnit) :
    Except EngineError (Engine × List Event) := do
  let manager ← engine.access
  if engine.flavor.includes unit.kind then
    match manager.verify store unit with
    | .ok (next, events) => pure ({ engine with manager := next }, events)
    | .error error => throw (.manager error)
  else throw (.wrongFlavor engine.flavor unit.kind)

/-- Read a unit from its encoding and verify it. -/
def deliver (engine : Engine) (store : Store) (bytes : Bytes) :
    Except EngineError (UnitId × Engine × List Event) := do
  let manager ← engine.access
  match DecisionUnit.parse bytes manager.config.maxUnitSize with
  | .error fault => throw (.manager (.malformed fault))
  | .ok unit =>
    let (next, events) ← engine.verify store unit
    pure (unit.id, next, events)

def reject (engine : Engine) (unit : UnitId) : Except EngineError (Engine × List Event) := do
  let (next, events) ← engine.ask (·.reject unit)
  pure ({ engine with manager := next }, events)

def accept {ω : Type} (host : Host ω) (engine : Engine) (unit : UnitId) (world : ω) :
    Except EngineError Unit × Engine × ω :=
  match engine.access with
  | .error error => (.error error, engine, world)
  | .ok manager =>
    let (outcome, next, after) := manager.accept host unit world
    let result := match outcome with
      | .ok () => .ok ()
      | .error error => .error (.manager error)
    (result, { engine with manager := next }, after)

/-- How far a unit has come; one that the chain does not know is unverified. -/
def status (engine : Engine) (store : Store) (unit : UnitId) : Except EngineError UnitStatus :=
  engine.ask (·.status store unit)

end Engine

end DecisionLedger
