import DecisionLedger.Log
import DecisionLedger.Store.Disk

/-! # Listener registries

Listeners are registered on a chain under a name and notified of every unit accepted there, in the
order of registration.  Deregistration takes two steps.  First the registration starts draining and
is notified no more; then, after the listener has cleaned up, it is removed.  Each registration has
a ticket of its own, so a removal never hits a later registration of the same name.
-/

namespace DecisionLedger

/-- Why a listener did not take a unit. -/
inductive AcceptError where
  /-- The listener says why itself. -/
  | failed (reason : String)
  | unreadable (error : ReadError)
  | unwritable (error : WriteError)
  /-- The listener is closed. -/
  | closed
  deriving Repr, DecidableEq

namespace AcceptError

def message : AcceptError → String
  | failed reason => reason
  | unreadable error => error.message
  | unwritable error => error.message
  | closed => "listener is closed"

/-- An unreadable variable as a listener's error. -/
def ofRead {α : Type} : Except ReadError α → Except AcceptError α
  | .ok value => .ok value
  | .error error => .error (.unreadable error)

/-- The error of a listener that cannot write a variable: the value is too long for its length
field. -/
def unencodable (key : Key) : AcceptError :=
  .failed s!"failed to serialize {key.describe}: invalid input parameter"

end AcceptError

/-- Why a registration or deregistration failed. -/
inductive RegistryError where
  /-- The name is taken. -/
  | duplicate (chain : ChainId) (name : String)
  /-- No active listener has the name. -/
  | notFound (chain : ChainId) (name : String)
  /-- The listener is deregistered, but its cleanup failed. -/
  | cleanup (chain : ChainId) (name : String) (error : AcceptError)
  deriving Repr, DecidableEq

namespace RegistryError

def message : RegistryError → String
  | duplicate chain name => s!"listener {name} is already registered on chain {chain}"
  | notFound chain name => s!"no listener named {name} is registered on chain {chain}"
  | cleanup chain name error =>
    s!"cleanup of listener {name} on chain {chain} failed: {error.message}"

end RegistryError

/-- One listener's failure to take one unit. -/
structure ListenerFailure where
  name : String
  unit : UnitId
  error : AcceptError
  critical : Bool
  /-- How many notifications in a row have failed, with this one; a count without bound, as it is in
  `Registration.failures`. -/
  consecutive : Nat
  deriving Repr, DecidableEq

/-- The failures of one or more notifications on a chain. -/
structure NotifyError where
  chain : ChainId
  failures : List ListenerFailure
  deriving Repr, DecidableEq

namespace NotifyError

def message (error : NotifyError) : String :=
  s!"{error.failures.length} listener failure(s) on chain {error.chain}"

/-- Whether a listener that must not miss a unit has failed at least `threshold` times in a row. -/
def isFatal (error : NotifyError) (threshold : Nat) : Bool :=
  error.failures.any fun failure => failure.critical && threshold ≤ failure.consecutive

/-- The failures of both, if there are any. -/
def merge : Option NotifyError → Option NotifyError → Option NotifyError
  | none, later => later
  | some earlier, none => some earlier
  | some earlier, some later =>
    some { earlier with failures := earlier.failures ++ later.failures }

end NotifyError

/-- A listener under a name on a chain. -/
structure Registration (ℓ : Type) where
  /-- The number of the registration, never used again. -/
  ticket : Nat
  chain : ChainId
  name : String
  listener : ℓ
  draining : Bool
  /-- How many notifications in a row have failed.  The count has no bound: it agrees with a counter
  of 32 bits only as long as fewer than `2 ^ 32` failures come in a row. -/
  failures : Nat
  deriving Repr, DecidableEq

/-- All registrations in the order in which they were made. -/
structure Registry (ℓ : Type) where
  registrations : List (Registration ℓ)
  /-- The ticket of the next registration. -/
  nextTicket : Nat
  deriving Repr, DecidableEq

/-- How listeners act on a world of type `ω`. -/
structure Listening (ℓ ω : Type) where
  /-- Take an accepted unit. -/
  accept : ℓ → ChainId → DecisionUnit → ω → Option AcceptError × ω
  critical : ℓ → ω → Bool

namespace Registration

variable {ℓ : Type}

def isActiveOn (registration : Registration ℓ) (chain : ChainId) : Bool :=
  registration.chain = chain && !registration.draining

/-- Whether this is the active registration of a name on a chain. -/
def isActiveAs (registration : Registration ℓ) (chain : ChainId) (name : String) : Bool :=
  registration.isActiveOn chain && registration.name = name

end Registration

namespace Registry

variable {ℓ ω : Type}

def empty : Registry ℓ := ⟨[], 0⟩

def registerLine (chain : ChainId) (name : String) : LogLine :=
  ⟨.info, .record "RegisterAcceptor" [toString chain, name]⟩

def deregisterLine (chain : ChainId) (name : String) : LogLine :=
  ⟨.info, .record "DeregisterAcceptor" [toString chain, name]⟩

/-- Register a listener.  The name must not be taken by an active listener, nor by a draining one
unless that is tolerated. -/
def register (registry : Registry ℓ) (chain : ChainId) (name : String) (listener : ℓ)
    (tolerateDraining : Bool) : Except RegistryError (Registry ℓ) :=
  let taken := registry.registrations.any fun other =>
    other.chain = chain && other.name = name && (!other.draining || !tolerateDraining)
  if taken then .error (.duplicate chain name)
  else
    .ok {
      registrations := registry.registrations ++
        [{ ticket := registry.nextTicket, chain, name, listener, draining := false, failures := 0 }]
      nextTicket := registry.nextTicket + 1 }

/-- Begin to deregister the active listener of a name: from now on it drains. -/
def drain (registry : Registry ℓ) (chain : ChainId) (name : String) :
    Except RegistryError (Registration ℓ × Registry ℓ) :=
  match registry.registrations.find? (·.isActiveAs chain name) with
  | none => .error (.notFound chain name)
  | some found =>
    .ok (found, { registry with
      registrations := registry.registrations.map fun other =>
        if other.ticket = found.ticket then { other with draining := true } else other })

def remove (registry : Registry ℓ) (ticket : Nat) : Registry ℓ :=
  { registry with registrations := registry.registrations.filter (·.ticket ≠ ticket) }

/-- The names of the active listeners of a chain in the order of registration. -/
def listeners (registry : Registry ℓ) (chain : ChainId) : List String :=
  (registry.registrations.filter (·.isActiveOn chain)).map (·.name)

def activeCount (registry : Registry ℓ) : Nat :=
  registry.registrations.countP (!·.draining)

/-- Notify those of the given registrations that are active on a chain, one after another.  A
failure stops no one else; it counts up, and a success sets the count back to zero. -/
def notifyEach (listening : Listening ℓ ω) (chain : ChainId) (unit : DecisionUnit) :
    List (Registration ℓ) → ω → List (Registration ℓ) × List ListenerFailure × ω
  | [], world => ([], [], world)
  | registration :: rest, world =>
    if registration.isActiveOn chain then
      let (outcome, after) := listening.accept registration.listener chain unit world
      let (notified, failures, final) := notifyEach listening chain unit rest after
      match outcome with
      | none => ({ registration with failures := 0 } :: notified, failures, final)
      | some error =>
        let consecutive := registration.failures + 1
        let failure : ListenerFailure :=
          { name := registration.name, unit := unit.id, error,
            critical := listening.critical registration.listener after, consecutive }
        ({ registration with failures := consecutive } :: notified, failure :: failures, final)
    else
      let (notified, failures, final) := notifyEach listening chain unit rest world
      (registration :: notified, failures, final)

/-- Notify every active listener of a chain that a unit was accepted, in the order of
registration. -/
def notify (listening : Listening ℓ ω) (registry : Registry ℓ) (chain : ChainId)
    (unit : DecisionUnit) (world : ω) : Option NotifyError × Registry ℓ × ω :=
  let (registrations, failures, final) :=
    notifyEach listening chain unit registry.registrations world
  (if failures.isEmpty then none else some { chain, failures },
    { registry with registrations }, final)

def failureLine (chain : ChainId) (failure : ListenerFailure) : LogLine :=
  .warning (s!"listener {failure.name} of chain {chain} failed to accept unit {failure.unit}: " ++
    failure.error.message)

end Registry

end DecisionLedger
