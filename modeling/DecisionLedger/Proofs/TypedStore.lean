import DecisionLedger.Proofs.Admission
import DecisionLedger.Proofs.NodeHost

/-! # A store as variables

Behind its bytes, a store is a set of variables with arguments.  Each setter of a batch stages
operations on variables, and each reader asks for one.  After a batch is written, a reader gives
what the last staged operation on its variable gave it, and if there is none, what it gave before:
the layout of keys and values never shows.
-/

namespace DecisionLedger

/-- A reader of a store with its arguments; the index is the type of what it gives. -/
inductive Query : Type → Type where
  | unit (id : UnitId) : Query (Except ReadError (Option DecisionUnit))
  | containsUnit (id : UnitId) : Query Bool
  | unitAtHeight (height : Height) : Query (Except ReadError (Option UnitId))
  | lastAccepted : Query (Except ReadError UnitId)
  | state (key : StateKey) : Query (Option StateValue)
  | shared (chain : ChainId) (key : StateKey) : Query (Option StateValue)
  | container (chain : ChainId) (contents : Contents) (index : AcceptIndex) :
      Query (Except ReadError (Option Container))
  | position (chain : ChainId) (contents : Contents) (id : ContainerId) :
      Query (Except ReadError (Option AcceptIndex))
  | next (chain : ChainId) (contents : Contents) : Query (Except ReadError AcceptIndex)
  | isIncomplete (chain : ChainId) : Query Bool
  | isPreviouslyIndexed (chain : ChainId) : Query Bool
  | hasRun : Query Bool

/-- A change of one variable.  A container comes with room for the length of its bytes. -/
inductive Operation where
  | unit (unit : DecisionUnit)
  | unitAtHeight (height : Height) (id : UnitId)
  | lastAccepted (id : UnitId)
  /-- Set a record of the state, or delete it. -/
  | state (key : StateKey) (value : Option StateValue)
  /-- Put a record into the shared memory of a chain, or remove it. -/
  | shared (chain : ChainId) (key : StateKey) (value : Option StateValue)
  | container (chain : ChainId) (contents : Contents) (index : AcceptIndex) (container : Container)
      (fits : Container.format.fits container = true)
  | position (chain : ChainId) (contents : Contents) (id : ContainerId) (index : AcceptIndex)
  | next (chain : ChainId) (contents : Contents) (index : AcceptIndex)
  | incomplete (chain : ChainId)
  | previouslyIndexed (chain : ChainId)
  | hasRun

namespace Query

variable {α : Type}

def answer : {α : Type} → Query α → Store → α
  | _, .unit id, store => store.unit? id
  | _, .containsUnit id, store => store.containsUnit id
  | _, .unitAtHeight height, store => store.unitAtHeight? height
  | _, .lastAccepted, store => store.lastAccepted
  | _, .state key, store => store.state? key
  | _, .shared chain key, store => store.shared? chain key
  | _, .container chain contents index, store => store.container? chain contents index
  | _, .position chain contents id, store => store.position? chain contents id
  | _, .next chain contents, store => store.nextIndex chain contents
  | _, .isIncomplete chain, store => store.isIncomplete chain
  | _, .isPreviouslyIndexed chain, store => store.isPreviouslyIndexed chain
  | _, .hasRun, store => store.hasRun

/-- What a reader gives right after an operation on its variable with its arguments; nothing if the
operation is on another.  The flavor of units counts for nothing. -/
def given? : {α : Type} → Query α → Operation → Option α
  | _, .unit id, .unit set => if set.id = id then some (.ok (some set)) else none
  | _, .containsUnit id, .unit set => if set.id = id then some true else none
  | _, .unitAtHeight height, .unitAtHeight other set =>
    if other = height then some (.ok (some set)) else none
  | _, .lastAccepted, .lastAccepted set => some (.ok set)
  | _, .state key, .state other set => if other = key then some set else none
  | _, .shared chain key, .shared of other set =>
    if of = chain ∧ other = key then some set else none
  | _, .container chain contents index, .container of sort other set _ =>
    if of = chain ∧ sort.canonical = contents.canonical ∧ other = index then
      some (.ok (some set))
    else none
  | _, .position chain contents id, .position of sort other set =>
    if of = chain ∧ sort.canonical = contents.canonical ∧ other = id then
      some (.ok (some set))
    else none
  | _, .next chain contents, .next of sort set =>
    if of = chain ∧ sort.canonical = contents.canonical then some (.ok set) else none
  | _, .isIncomplete chain, .incomplete of => if of = chain then some true else none
  | _, .isPreviouslyIndexed chain, .previouslyIndexed of => if of = chain then some true else none
  | _, .hasRun, .hasRun => some true
  | _, _, _ => none

/-- What the last operation on a reader's variable gave it. -/
def last? (query : Query α) (operations : List Operation) : Option α :=
  (operations.filterMap query.given?).getLast?

/-- The variable that a reader asks for. -/
def key : {α : Type} → Query α → Key
  | _, .unit id => .unit id
  | _, .containsUnit id => .unit id
  | _, .unitAtHeight height => .unitAtHeight height
  | _, .lastAccepted => .lastAccepted
  | _, .state key => .state key
  | _, .shared chain key => .shared chain key
  | _, .container chain contents index => .container chain contents index
  | _, .position chain contents id => .position chain contents id
  | _, .next chain contents => .next chain contents
  | _, .isIncomplete chain => .incomplete chain
  | _, .isPreviouslyIndexed chain => .previouslyIndexed chain
  | _, .hasRun => .hasRun

theorem answer_congr (query : Query α) {store other : Store}
    (same : other.raw? query.key = store.raw? query.key) :
    query.answer other = query.answer store := by
  cases query with
  | unit id => exact Store.unit?_congr same
  | lastAccepted => exact Store.lastAccepted_congr same
  | state | shared => exact same
  | unitAtHeight | container | position => exact Store.value?_congr same _
  | next => exact congrArg (Except.map (·.getD 0)) (Store.value?_congr same Format.word)
  | containsUnit | isIncomplete | isPreviouslyIndexed | hasRun =>
      exact (Store.has_eq_isSome_raw? other _).trans
        ((congrArg Option.isSome same).trans (Store.has_eq_isSome_raw? store _).symm)

end Query

namespace Operation

def change : Operation → Change
  | .unit set => .put (.unit set.id) set.bytes
  | .unitAtHeight height set => .put (.unitAtHeight height) (Digest.format.encode set)
  | .lastAccepted set => .put .lastAccepted (Digest.format.encode set)
  | .state key set => ⟨.state key, set⟩
  | .shared chain key set => ⟨.shared chain key, set⟩
  | .container chain contents index set _ =>
    .put (.container chain contents index) (Container.format.encode set)
  | .position chain contents id set => .put (.position chain contents id) (Format.word.encode set)
  | .next chain contents set => .put (.next chain contents) (Format.word.encode set)
  | .incomplete chain => .put (.incomplete chain) []
  | .previouslyIndexed chain => .put (.previouslyIndexed chain) []
  | .hasRun => .put .hasRun []

end Operation

namespace Query

variable {α : Type} {query : Query α} {operation : Operation} {store : Store}

theorem given?_eq_none_iff : query.given? operation = none ↔
    operation.change.key.canonical ≠ query.key.canonical := by
  cases query <;> cases operation <;>
    simp [given?, key, Operation.change, Change.put, Key.canonical]

theorem answer_of_given {value : α} (given : query.given? operation = some value)
    (stored : store.raw? query.key = operation.change.value) : query.answer store = value := by
  have marked (present : (store.raw? query.key).isSome = true) : store.has query.key = true := by
    rwa [Store.has_eq_isSome_raw?]
  cases query <;> cases operation <;>
    simp only [given?, Option.ite_none_right_eq_some, Option.some.injEq, reduceCtorEq] at given
  case unit.unit id set =>
    obtain ⟨rfl, rfl⟩ := given
    exact Store.unit?_of_raw? stored
  case unitAtHeight.unitAtHeight =>
    obtain ⟨rfl, rfl⟩ := given
    exact Store.value?_digest stored
  case lastAccepted.lastAccepted set =>
    subst given
    have read : store.value? .lastAccepted Digest.format = _ := Store.value?_digest stored
    rw [answer, Store.lastAccepted, read]
  case state.state =>
    exact stored.trans given.2
  case shared.shared =>
    exact stored.trans given.2
  case container.container fits =>
    obtain ⟨-, rfl⟩ := given
    exact Store.value?_of_encode fits stored
  case position.position =>
    obtain ⟨-, rfl⟩ := given
    exact Store.value?_of_encode rfl stored
  case next.next set =>
    obtain ⟨-, rfl⟩ := given
    exact congrArg (Except.map (·.getD 0)) (Store.value?_of_encode rfl stored)
  case containsUnit.unit =>
    exact (marked (by rw [stored]; rfl)).trans given.2
  case isIncomplete.incomplete =>
    exact (marked (by rw [stored]; rfl)).trans given.2
  case isPreviouslyIndexed.previouslyIndexed =>
    exact (marked (by rw [stored]; rfl)).trans given.2
  case hasRun.hasRun =>
    exact (marked (by rw [stored]; rfl)).trans given

/-- One operation gives a reader its value, or leaves its answer alone. -/
theorem answer_change (query : Query α) (operation : Operation) (store : Store) :
    query.answer (operation.change.apply store) =
      (query.given? operation).getD (query.answer store) := by
  have written := Store.raw?_change_eq operation.change store query.key
  cases given : query.given? operation with
  | none =>
      rw [if_neg (given?_eq_none_iff.mp given)] at written
      exact query.answer_congr written
  | some value =>
      have addressed : operation.change.key.canonical = query.key.canonical := by
        by_contra apart
        simp [given?_eq_none_iff.mpr apart] at given
      rw [if_pos addressed] at written
      exact answer_of_given given written

/-- Of many operations, the last on its variable gives a reader its value. -/
theorem answer_changes (query : Query α) (operations : List Operation) (store : Store) :
    query.answer (store.apply (operations.map Operation.change)) =
      (query.last? operations).getD (query.answer store) := by
  induction operations generalizing store with
  | nil => rfl
  | cons operation rest ih =>
      rw [List.map_cons, Store.apply_cons, ih, answer_change]
      cases given : query.given? operation with
      | none => simp [last?, given]
      | some value => simp [last?, given, List.getLast?_cons]

end Query

/-! ## Setters -/

/-- A call that stages changes in a batch. -/
inductive Setter where
  | unit (set : DecisionUnit)
  | unitAtHeight (height : Height) (set : UnitId)
  | lastAccepted (set : UnitId)
  | accepted (set : DecisionUnit)
  | state (key : StateKey) (set : StateValue)
  | deleteState (key : StateKey)
  | updateState (updates : StateUpdates)
  | putShared (chain : ChainId) (key : StateKey) (set : StateValue)
  | removeShared (chain : ChainId) (key : StateKey)
  | requestShared (chain : ChainId) (requests : AtomicRequests)
  | container (chain : ChainId) (contents : Contents) (index : AcceptIndex) (set : Container)
  | position (chain : ChainId) (contents : Contents) (id : ContainerId) (set : AcceptIndex)
  | next (chain : ChainId) (contents : Contents) (set : AcceptIndex)
  | markIncomplete (chain : ChainId)
  | markPreviouslyIndexed (chain : ChainId)
  | markHasRun

namespace Setter

/-- What a call adds to the batch.  A container whose bytes are too long for their length field is
refused. -/
def batch : Setter → Batch
  | .unit set => .setUnit set
  | .unitAtHeight height set => .setUnitAtHeight height set
  | .lastAccepted set => .setLastAccepted set
  | .accepted set => .setAccepted set
  | .state key set => .setState key set
  | .deleteState key => .deleteState key
  | .updateState updates => .updateState updates
  | .putShared chain key set => .putShared chain key set
  | .removeShared chain key => .removeShared chain key
  | .requestShared chain requests => .requestShared chain requests
  | .container chain contents index set =>
    if Container.format.fits set then .setContainer chain contents index set else []
  | .position chain contents id set => .setPosition chain contents id set
  | .next chain contents set => .setNext chain contents set
  | .markIncomplete chain => .markIncomplete chain
  | .markPreviouslyIndexed chain => .markPreviouslyIndexed chain
  | .markHasRun => .markHasRun

/-- The operations that a call asks for, in order: an update of the state sets before it deletes,
and a request to shared memory removes before it puts. -/
def operations : Setter → List Operation
  | .unit set => [.unit set]
  | .unitAtHeight height set => [.unitAtHeight height set]
  | .lastAccepted set => [.lastAccepted set]
  | .accepted set => [.unit set, .unitAtHeight set.height set.id, .lastAccepted set.id]
  | .state key set => [.state key (some set)]
  | .deleteState key => [.state key none]
  | .updateState updates =>
    updates.inserts.toList.map (fun (key, set) => .state key (some set)) ++
      updates.deletes.toList.map (.state · none)
  | .putShared chain key set => [.shared chain key (some set)]
  | .removeShared chain key => [.shared chain key none]
  | .requestShared chain requests =>
    requests.removes.map (.shared chain · none) ++
      requests.puts.map (fun (key, set) => .shared chain key (some set))
  | .container chain contents index set =>
    if fits : Container.format.fits set = true then [.container chain contents index set fits]
    else []
  | .position chain contents id set => [.position chain contents id set]
  | .next chain contents set => [.next chain contents set]
  | .markIncomplete chain => [.incomplete chain]
  | .markPreviouslyIndexed chain => [.previouslyIndexed chain]
  | .markHasRun => [.hasRun]

theorem batch_eq (setter : Setter) : setter.batch = setter.operations.map Operation.change := by
  cases setter with
  | updateState updates =>
      simp only [batch, operations, Batch.updateState, List.map_append, List.map_map]
      simp only [List.map_eq_flatMap]
      rfl
  | requestShared chain requests =>
      simp only [batch, operations, Batch.requestShared, List.map_append, List.map_map]
      simp only [List.map_eq_flatMap]
      rfl
  | container chain contents index set =>
      by_cases fits : Container.format.fits set = true <;>
        simp [batch, operations, fits, Batch.setContainer, Operation.change]
  | _ => rfl

end Setter

/-- One store follows another by some calls: each reader gives what the last operation on its
variable gave it, or what it gave before. -/
def Store.Follows (before after : Store) (calls : List Setter) : Prop :=
  ∀ {α : Type} (query : Query α),
    query.answer after = (query.last? (calls.flatMap Setter.operations)).getD (query.answer before)

/-- What is staged in one batch and written shows in the readers, and nothing else does, for no two
variables share a key, the flavor of units apart. -/
theorem Disk.follows_of_write {disk written : Disk} {calls : List Setter}
    (done : disk.write (calls.flatMap Setter.batch) = .ok written) :
    disk.store.Follows written.store calls ∧
      ∀ key other : Key, key.encode = other.encode ↔ key.canonical = other.canonical := by
  have staged : calls.flatMap Setter.batch =
      (calls.flatMap Setter.operations).map Operation.change := by
    simp only [List.map_flatMap, ← Setter.batch_eq]
  refine ⟨fun query => ?_, fun _ _ => Key.encode_eq_iff⟩
  rw [Disk.store_of_write done, staged, query.answer_changes]

namespace Setter

def bare : Container := ⟨.zero, [], 5⟩

/-- A record put and removed again, and a container of blocks. -/
def sample : List Setter :=
  [.putShared 2 [7] [1], .container 1 (.units .linear) 0 bare, .next 1 (.units .graph) 1,
    .removeShared 2 [7]]

/-- The record is gone, the container is one of vertices too, and no transaction is counted. -/
theorem sample_follows :
    ∃ written, Disk.empty.write (sample.flatMap Setter.batch) = .ok written ∧
      written.store.shared? 2 [7] = none ∧
      written.store.container? 1 (.units .graph) 0 = .ok (some bare) ∧
      written.store.nextIndex 1 (.units .linear) = .ok 1 ∧
      written.store.nextIndex 1 .transactions = .ok 0 := by
  obtain ⟨follows, -⟩ := @Disk.follows_of_write .empty _ sample rfl
  exact ⟨_, rfl, follows (.shared 2 [7]), follows (.container 1 (.units .graph) 0),
    follows (.next 1 (.units .linear)), follows (.next 1 .transactions)⟩

end Setter

end DecisionLedger
