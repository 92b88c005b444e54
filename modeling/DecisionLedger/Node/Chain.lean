import DecisionLedger.Engine
import DecisionLedger.EventBus
import DecisionLedger.Node.Listening

/-! # Chains on a node

A chain runs on one disk and one listener group of a node.  Its events go out through an outlet; a
halt is logged first, and reported to the hook for fatal errors last.
-/

namespace DecisionLedger

/-- Where the events of a chain go. -/
structure Outlet where
  channel : Channel
  /-- Whether there is a hook for fatal errors. -/
  isHooked : Bool
  /-- The calls of the hook, the oldest first. -/
  fatal : List (ChainId × String) := []
  deriving Repr, DecidableEq

namespace Outlet

/-- Send out an event; give the lines logged on the way. -/
def send (outlet : Outlet) (event : Event) : Outlet × List LogLine :=
  let (channel, lines) := outlet.channel.publish event
  match event with
  | .halted chain reason =>
    let alarm : LogLine := .error s!"chain {chain} halted: {reason}"
    let called := if outlet.isHooked then [(chain, reason)] else []
    ({ outlet with channel, fatal := outlet.fatal ++ called }, alarm :: lines)
  | _ => ({ outlet with channel }, lines)

/-- The events that wait for their receiver, and the calls of the hook; both start anew. -/
def drain (outlet : Outlet) : List Event × List (ChainId × String) × Outlet :=
  let (events, channel) := outlet.channel.drain
  (events, outlet.fatal, { outlet with channel, fatal := [] })

def disconnect (outlet : Outlet) : Outlet :=
  { outlet with channel := outlet.channel.disconnect }

end Outlet

/-- Where on a node a chain runs. -/
structure Site where
  disk : String
  group : String
  deriving Repr, DecidableEq

namespace Site

/-- A node and the outlet of one chain as the world of that chain's manager. -/
def host (site : Site) : Host (Node × Outlet) where
  store world := world.1.store site.disk
  write batch world :=
    match world.1.write site.disk batch with
    | .ok written => .ok (written, world.2)
    | .error error => .error error
  deliver chain unit world :=
    let (failed, after) := world.1.notify site.group chain unit world.1.clock
    (failed, (after, world.2))
  publish event world :=
    let (outlet, lines) := world.2.send event
    (world.1.report lines, outlet)

end Site

/-- A manager on a node. -/
structure HostedManager where
  manager : Manager
  site : Site
  outlet : Outlet

namespace HostedManager

/-- Start a manager on what its disk holds. -/
def start (node : Node) (site : Site) (config : Configuration) (outlet : Outlet) :
    Except ManagerError HostedManager :=
  match Manager.resume config (node.store site.disk) with
  | .ok manager => .ok { manager, site, outlet }
  | .error error => .error error

/-- Take over the outcome of an operation, and publish its events. -/
def adopt (hosted : HostedManager) (node : Node)
    (outcome : Except ManagerError (Manager × List Event)) :
    Except ManagerError Unit × HostedManager × Node :=
  match outcome with
  | .error error => (.error error, hosted, node)
  | .ok (manager, events) =>
    let (after, outlet) := hosted.site.host.publishAll events (node, hosted.outlet)
    (.ok (), { hosted with manager, outlet }, after)

def verify (hosted : HostedManager) (node : Node) (unit : DecisionUnit) :
    Except ManagerError Unit × HostedManager × Node :=
  hosted.adopt node (hosted.manager.verify (node.store hosted.site.disk) unit)

def reject (hosted : HostedManager) (node : Node) (unit : UnitId) :
    Except ManagerError Unit × HostedManager × Node :=
  hosted.adopt node (hosted.manager.reject unit)

def accept (hosted : HostedManager) (node : Node) (unit : UnitId) :
    Except ManagerError Unit × HostedManager × Node :=
  let (outcome, manager, after, outlet) :=
    hosted.manager.accept hosted.site.host unit (node, hosted.outlet)
  (outcome, { hosted with manager, outlet }, after)

end HostedManager

/-- A chain on a node: an engine with an event bus. -/
structure HostedChain where
  engine : Engine
  site : Site
  outlet : Outlet
  handlers : EventHandlers

namespace HostedChain

/-- Start a chain on what its disk holds.  Without any handler there is no bus. -/
def start (node : Node) (site : Site) (flavor : Flavor) (config : Configuration)
    (handlers : EventHandlers) : Except ManagerError HostedChain :=
  match Manager.resume config (node.store site.disk) with
  | .error error => .error error
  | .ok manager =>
    let channel := if handlers.isEmpty then .closed else .open []
    .ok {
      engine := { flavor, manager }
      site
      outlet := { channel, isHooked := true }
      handlers }

/-- Take over an engine, and publish the events of its operation. -/
def adopt (hosted : HostedChain) (node : Node) (engine : Engine) (events : List Event) :
    HostedChain × Node :=
  let (after, outlet) := hosted.site.host.publishAll events (node, hosted.outlet)
  ({ hosted with engine, outlet }, after)

def deliver (hosted : HostedChain) (node : Node) (bytes : Bytes) :
    Except EngineError UnitId × HostedChain × Node :=
  match hosted.engine.deliver (node.store hosted.site.disk) bytes with
  | .error error => (.error error, hosted, node)
  | .ok (id, engine, events) => (.ok id, hosted.adopt node engine events)

def verify (hosted : HostedChain) (node : Node) (unit : DecisionUnit) :
    Except EngineError UnitId × HostedChain × Node :=
  match hosted.engine.verify (node.store hosted.site.disk) unit with
  | .error error => (.error error, hosted, node)
  | .ok (engine, events) => (.ok unit.id, hosted.adopt node engine events)

def reject (hosted : HostedChain) (node : Node) (unit : UnitId) :
    Except EngineError Unit × HostedChain × Node :=
  match hosted.engine.reject unit with
  | .error error => (.error error, hosted, node)
  | .ok (engine, events) => (.ok (), hosted.adopt node engine events)

def accept (hosted : HostedChain) (node : Node) (unit : UnitId) :
    Except EngineError Unit × HostedChain × Node :=
  let (outcome, engine, after, outlet) :=
    hosted.engine.accept hosted.site.host unit (node, hosted.outlet)
  (outcome, { hosted with engine, outlet }, after)

/-- Cut an operation on the engine short. -/
def poison (hosted : HostedChain) : HostedChain :=
  { hosted with engine := { hosted.engine with isPoisoned := true } }

/-- Stop the event bus once it has handled what was published.  Later events find no receiver. -/
def stop (hosted : HostedChain) (node : Node) : BusReport × HostedChain × Node :=
  let (events, channel) := hosted.outlet.channel.drain
  let report := BusReport.ofEvents hosted.handlers events
  let lines := if report.broken then
    [.error s!"event bus of chain {hosted.engine.chain} panicked"] else []
  (report, { hosted with outlet := { hosted.outlet with channel := channel.disconnect } },
    node.report lines)

end HostedChain

end DecisionLedger
