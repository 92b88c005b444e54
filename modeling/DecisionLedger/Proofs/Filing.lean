import DecisionLedger.Proofs.Catalogue

/-! # Indices over any history

Index values come and go on a node, and several may keep their containers in the same variables.
Whatever is called on them, and whichever writes fail, those variables hold the containers that were
taken, each once, in the order in which they were first taken.
-/

namespace DecisionLedger

namespace Index

variable {index other : Index} {store after : Store} {containers : List Container}

theorem Numbers.of_shares (numbers : index.Numbers store containers)
    (shares : index.Shares other) : other.Numbers store containers := by
  have same : ∀ {α : Type} {key mine : Key} {format : Format α} {value : Option α},
      mine.canonical = key.canonical → store.value? key format = .ok value →
      store.value? mine format = .ok value := by
    intro α key mine format value canonical read
    rw [Store.value?, Store.raw?_canonical canonical]
    rw [Store.value?] at read
    cases found : store.raw? key with
    | none => simpa [found] using read
    | some bytes =>
        cases decoded : format.decodeFront bytes with
        | error problem => simp [found, decoded] at read
        | ok content => simpa [found, decoded] using read
  refine ⟨⟨fun position => ?_, fun id => ?_, numbers.distinct⟩, ?_⟩
  · exact same (by simp [Key.canonical, shares.chain, shares.contents])
      (numbers.container? position)
  · exact same (by simp [Key.canonical, shares.chain, shares.contents]) (numbers.position? id)
  · have counted := numbers.next
    rw [Store.nextIndex] at counted ⊢
    cases read : store.value? (.next index.chain index.contents) Format.word with
    | error problem => simp [read, Except.map] at counted
    | ok value =>
        rw [read] at counted
        rw [same (by simp [Key.canonical, shares.chain, shares.contents]) read]
        exact counted

theorem Shares.trans {last : Index} (shares : index.Shares other) (further : other.Shares last) :
    index.Shares last :=
  ⟨further.chain.trans shares.chain, further.contents.trans shares.contents⟩

theorem Shares.symm (shares : index.Shares other) : other.Shares index :=
  ⟨shares.chain.symm, shares.contents.symm⟩

theorem Shares.containers_eq (shares : index.Shares other) (acceptedAt : Instant)
    (unit : DecisionUnit) :
    other.containers acceptedAt unit = index.containers acceptedAt unit := by
  have same := shares.contents
  unfold containers
  cases mine : index.contents <;> cases theirs : other.contents <;>
    simp_all [Contents.canonical]

theorem Refuses.of_shares {disk : Disk} {acceptedAt : Instant} {unit : DecisionUnit}
    {error : AcceptError} (refuses : other.Refuses disk acceptedAt unit error)
    (shares : index.Shares other) : index.Refuses disk acceptedAt unit error := by
  cases refuses with
  | unwritten further added refused => exact .unwritten (shares.trans further) added refused
  | tooLong key inside long =>
      exact .tooLong key (shares.containers_eq acceptedAt unit ▸ inside) long

/-- Two indices own a variable in common only if they share all of them. -/
theorem shares_of_owns {key mine : Key} (owned : index.owns key = true)
    (theirs : other.owns mine = true) (same : mine.canonical = key.canonical) :
    index.Shares other := by
  cases key <;> cases mine <;> simp [owns, Key.canonical] at owned theirs same
  all_goals
    constructor
    · grind
    · grind

theorem sameVariables_accept {disk written : Disk} {acceptedAt : Instant} {unit : DecisionUnit}
    (apart : ¬index.Shares other) (done : other.accept disk acceptedAt unit = .ok written) :
    index.SameVariables disk.store written.store := by
  obtain ⟨batch, added, stored⟩ := accept_cases done
  intro key owned
  rw [stored]
  refine Store.raw?_apply_of_apart (fun change inside same => apart ?_) _
  exact shares_of_owns owned (owns_of_mem_additions added inside) same

/-- What can be asked of an index that holds a list of containers, and the answers. -/
structure Answers (index : Index) (store : Store) (containers : List Container) : Prop where
  distinct : (containers.map (·.id)).Nodup
  next : store.nextIndex index.chain index.contents = .ok (UInt64.ofNat containers.length)
  container? : ∀ position,
    store.container? index.chain index.contents position = .ok containers[position.toNat]?
  /-- A container is at exactly one position. -/
  position? : ∀ id position,
    store.position? index.chain index.contents id = .ok (some position) ↔
      ∃ container, containers[position.toNat]? = some container ∧ container.id = id
  absent : ∀ id, store.position? index.chain index.contents id = .ok none ↔
    id ∉ containers.map (·.id)
  byIndex : ∀ position, index.byIndex store position =
    containers[position.toNat]?.elim (.error (.noContainer position)) .ok
  position : ∀ id, index.position store id =
    (containers.findIdx? (·.id = id)).elim (.error (.notIndexed id)) fun position =>
      .ok (UInt64.ofNat position)
  byId : ∀ id, index.byId store id =
    (containers.find? (·.id = id)).elim (.error (.notIndexed id)) .ok
  last : index.last store = containers.getLast?.elim (.error .noneAccepted) .ok

theorem findIdx?_id_iff (distinct : (containers.map (·.id)).Nodup) {id : ContainerId}
    {position : Nat} :
    containers.findIdx? (·.id = id) = some position ↔
      ∃ container, containers[position]? = some container ∧ container.id = id := by
  have here : ∀ {position}, containers.findIdx? (·.id = id) = some position →
      ∃ container, containers[position]? = some container ∧ container.id = id := by
    intro position found
    obtain ⟨inside, same, -⟩ := List.findIdx?_eq_some_iff_getElem.mp found
    exact ⟨_, List.getElem?_eq_getElem inside, of_decide_eq_true same⟩
  refine ⟨here, ?_⟩
  rintro ⟨container, listed, same⟩
  cases found : containers.findIdx? (·.id = id) with
  | none =>
      rw [List.findIdx?_eq_none_iff] at found
      exact absurd same (of_decide_eq_false (found container (List.mem_of_getElem? listed)))
  | some first =>
      obtain ⟨other, there, alike⟩ := here found
      have inside : first < (containers.map (·.id)).length := by
        simpa using (List.getElem?_eq_some_iff.mp there).1
      have one : first = position :=
        (List.getElem?_inj inside distinct).mp (by simp [listed, there, same, alike])
      rw [one]

theorem Numbers.byIndex_eq (numbers : index.Numbers store containers) (position : AcceptIndex) :
    index.byIndex store position =
      containers[position.toNat]?.elim (.error (.noContainer position)) .ok := by
  rw [byIndex, numbers.container?]
  cases containers[position.toNat]? <;> rfl

theorem Numbers.position_eq (numbers : index.Numbers store containers) (id : ContainerId) :
    index.position store id =
      (containers.findIdx? (·.id = id)).elim (.error (.notIndexed id)) fun position =>
        .ok (UInt64.ofNat position) := by
  rw [position, numbers.position?]
  cases containers.findIdx? (·.id = id) <;> rfl

theorem Numbers.answers (numbers : index.Numbers store containers)
    (room : containers.length < UInt64.size) : index.Answers store containers where
  distinct := numbers.distinct
  next := numbers.next
  container? := numbers.container?
  position? id position := by
    rw [numbers.position?, ← findIdx?_id_iff numbers.distinct, Except.ok.injEq,
      Option.map_eq_some_iff]
    constructor
    · rintro ⟨place, found, rfl⟩
      have inside := (List.findIdx?_eq_some_iff_getElem.mp found).1
      rw [UInt64.toNat_ofNat_of_lt' (inside.trans room), found]
    · exact fun found => ⟨_, found, UInt64.ofNat_toNat⟩
  absent id := by
    simp [numbers.position?]
  byIndex := numbers.byIndex_eq
  position := numbers.position_eq
  byId id := by
    rw [byId, numbers.position_eq]
    cases found : containers.findIdx? (·.id = id) with
    | none =>
        have missing : containers.find? (·.id = id) = none := by
          simpa [List.find?_eq_none, List.findIdx?_eq_none_iff] using found
        simp [missing, bind, Except.bind]
    | some place =>
        obtain ⟨inside, same, first⟩ := List.findIdx?_eq_some_iff_getElem.mp found
        have there : containers.find? (·.id = id) = some containers[place] := by
          rw [List.find?_eq_some_iff_getElem]
          exact ⟨same, place, inside, rfl, by simpa using first⟩
        have word : (UInt64.ofNat place).toNat = place :=
          UInt64.toNat_ofNat_of_lt' (inside.trans room)
        simp [there, bind, Except.bind, numbers.byIndex_eq, word, inside]
  last := by
    rw [last, numbers.next]
    cases empty : containers.length with
    | zero =>
        have nothing := List.length_eq_zero_iff.mp empty
        subst nothing
        rfl
    | succ count =>
        have below : count + 1 < UInt64.size := empty ▸ room
        have word : (UInt64.ofNat count).toNat = count := UInt64.toNat_ofNat_of_lt' (by omega)
        have before : UInt64.ofNat (count + 1) - 1 = UInt64.ofNat count := by
          simp [UInt64.ofNat_add]
        have positive : UInt64.ofNat (count + 1) ≠ 0 := by
          intro zero
          have same := UInt64.toNat_ofNat_of_lt' below
          rw [zero] at same
          simp at same
        simp only [IndexerError.ofRead, bind, Except.bind, if_neg positive, before,
          numbers.byIndex_eq, word]
        simp [List.getLast?_eq_getElem?, empty]

end Index

namespace Node

/-- Whether a listener is an open index that keeps containers in the variables of a given one on a
disk. -/
def files (node : Node) (index : Index) (disk : String) (id : ListenerId) : Bool :=
  match node.listeners[id]? with
  | some (.index hosted) =>
    !hosted.isClosed && hosted.disk = disk && hosted.index.chain = index.chain &&
      hosted.index.contents.canonical = index.contents.canonical
  | _ => false

variable {node : Node} {index : Index} {disk : String} {acceptedAt : Instant} {id : ListenerId}
  {chain : ChainId} {unit : DecisionUnit} {containers : List Container}

theorem files_iff : node.files index disk id = true ↔ ∃ hosted : HostedIndex,
    node.listeners[id]? = some (.index hosted) ∧ hosted.isClosed = false ∧ hosted.disk = disk ∧
      index.Shares hosted.index := by
  unfold files
  cases node.listeners[id]? with
  | none => simp
  | some listener =>
      cases listener with
      | probe probe => simp
      | index hosted =>
          simp only [Bool.and_eq_true, Bool.not_eq_true', decide_eq_true_eq, Option.some.injEq,
            Listener.index.injEq, and_assoc, exists_eq_left']
          constructor
          · rintro ⟨opened, on, chain, contents⟩
            exact ⟨opened, on, chain, contents⟩
          · rintro ⟨opened, on, shares⟩
            exact ⟨opened, on, shares.chain, shares.contents⟩

theorem accept_of_failed {error : AcceptError}
    (failed : (accept acceptedAt id chain unit node).1 = some error) :
    (accept acceptedAt id chain unit node).2 = node := by
  rcases accept_cases acceptedAt id chain unit node with
    ⟨problem, same⟩ | ⟨after, same, -⟩ | ⟨hosted, written, -, -, -, same⟩
  · rw [same]
  · rw [same] at failed
    cases failed
  · rw [same] at failed
    cases failed

theorem numbers_accept (numbers : index.Numbers (node.store disk) containers)
    (room : (Container.enrol containers (index.containers acceptedAt unit)).length < UInt64.size)
    (filed : node.files index disk id = true)
    (taken : (accept acceptedAt id chain unit node).1 = none) :
    index.Numbers ((accept acceptedAt id chain unit node).2.store disk)
      (Container.enrol containers (index.containers acceptedAt unit)) := by
  obtain ⟨hosted, listed, opened, rfl, shares⟩ := files_iff.mp filed
  rw [accept_of_hosted listed opened] at taken ⊢
  cases done : hosted.index.accept (node.disk hosted.disk) acceptedAt unit with
  | error error => simp [done] at taken
  | ok written =>
      dsimp only
      rw [store_setDisk, if_pos rfl, ← shares.containers_eq]
      rw [← shares.containers_eq] at room
      exact ((numbers.of_shares shares).accept room done).of_shares shares.symm

theorem sameVariables_accept (apart : node.files index disk id = false) :
    index.SameVariables (node.store disk)
      ((accept acceptedAt id chain unit node).2.store disk) := by
  have same : index.SameVariables (node.store disk) (node.store disk) := fun _ _ => rfl
  rcases accept_cases acceptedAt id chain unit node with
    ⟨error, done⟩ | ⟨after, done, disks⟩ | ⟨hosted, written, listed, opened, taken, done⟩
  · rwa [done]
  · rw [done]
    rwa [store_of_disks disks]
  · rw [done]
    dsimp only
    rw [store_setDisk]
    by_cases here : hosted.disk = disk
    · subst here
      rw [if_pos rfl]
      refine Index.sameVariables_accept (fun shares => ?_) taken
      have filed : node.files index hosted.disk id = true :=
        files_iff.mpr ⟨hosted, listed, opened, rfl, shares⟩
      simp [filed] at apart
    · rwa [if_neg here]

theorem accept_refuses (numbers : index.Numbers (node.store disk) containers)
    (filed : node.files index disk id = true) {error : AcceptError}
    (failed : (accept acceptedAt id chain unit node).1 = some error) :
    index.Refuses (node.disk disk) acceptedAt unit error := by
  obtain ⟨hosted, listed, opened, rfl, shares⟩ := files_iff.mp filed
  rw [accept_of_hosted listed opened] at failed
  split at failed
  · cases failed
  · rename_i refused
    cases failed
    exact ((numbers.of_shares shares).accept_refuses refused).of_shares shares

end Node

/-- What may happen around an index on a disk of a node. -/
inductive Filing (index : Index) (disk : String) where
  /-- An index value is made, the same or another, on any disk. -/
  | make (value : Index) (on : String)
  | close (id : ListenerId)
  /-- Writes of a disk begin to fail, now or later, or no longer fail. -/
  | fail (on : String) (outage : Option Outage) (refuses : Batch → Option WriteError)
  /-- Any listener takes a unit, or fails to. -/
  | take (acceptedAt : Instant) (id : ListenerId) (chain : ChainId) (unit : DecisionUnit)
  /-- Anything else that leaves the variables of the index alone. -/
  | drift (change : Node → Node)
    (kept : ∀ node, index.SameVariables (node.store disk) ((change node).store disk))

namespace Filing

variable {index : Index} {disk : String}

def perform (filing : Filing index disk) (node : Node) : Node :=
  match filing with
  | make value on => (node.addListener fun _ => .index { index := value, disk := on }).2
  | close id => node.closeIndex id
  | fail on outage refuses => node.setDisk on { store := node.store on, outage, refuses }
  | take acceptedAt id chain unit => (Node.accept acceptedAt id chain unit node).2
  | drift change _ => change node

/-- The unit that the index takes, with the moment. -/
def delivered (filing : Filing index disk) (node : Node) : List (Instant × DecisionUnit) :=
  match filing with
  | take acceptedAt id chain unit =>
    if node.files index disk id && (Node.accept acceptedAt id chain unit node).1.isNone then
      [(acceptedAt, unit)]
    else []
  | _ => []

def run (filings : List (Filing index disk)) (node : Node) : Node :=
  filings.foldl (fun node filing => filing.perform node) node

def deliveredAll : List (Filing index disk) → Node → List (Instant × DecisionUnit)
  | [], _ => []
  | filing :: rest, node => filing.delivered node ++ deliveredAll rest (filing.perform node)

end Filing

section Run

variable {index : Index} {disk : String} {node : Node} {containers : List Container}

def Index.containersOf (index : Index) (deliveries : List (Instant × DecisionUnit)) :
    List Container :=
  deliveries.flatMap fun delivery => index.containers delivery.1 delivery.2

theorem Filing.numbers_perform (filing : Filing index disk)
    (numbers : index.Numbers (node.store disk) containers)
    (room : (Container.enrol containers (index.containersOf (filing.delivered node))).length <
      UInt64.size) :
    index.Numbers ((filing.perform node).store disk)
      (Container.enrol containers (index.containersOf (filing.delivered node))) := by
  cases filing with
  | make value on => exact numbers
  | close id => exact numbers
  | fail on outage refuses =>
      refine numbers.of_same fun key _ => ?_
      rw [perform, Node.store_setDisk]
      by_cases same : on = disk <;> simp [same]
  | drift change kept => exact numbers.of_same (kept node)
  | take acceptedAt id chain unit =>
      cases filed : node.files index disk id with
      | false =>
          simp only [delivered, filed, Bool.false_and, Bool.false_eq_true, if_false]
          exact numbers.of_same (Node.sameVariables_accept filed)
      | true =>
          cases taken : (Node.accept acceptedAt id chain unit node).1 with
          | some error =>
              simp only [delivered, perform, filed, taken, Node.accept_of_failed taken]
              exact numbers
          | none =>
              simp [delivered, filed, taken, Index.containersOf] at room ⊢
              exact Node.numbers_accept numbers room filed taken

theorem Filing.numbers_run (filings : List (Filing index disk))
    (numbers : index.Numbers (node.store disk) containers)
    (room : (Container.enrol containers (index.containersOf (deliveredAll filings node))).length <
      UInt64.size) :
    index.Numbers ((run filings node).store disk)
      (Container.enrol containers (index.containersOf (deliveredAll filings node))) := by
  induction filings generalizing node containers with
  | nil => exact numbers
  | cons filing rest ih =>
      rw [deliveredAll, Index.containersOf, List.flatMap_append, Container.enrol_append] at room ⊢
      have first := filing.numbers_perform numbers
        ((Container.length_le_enrol _ _).trans_lt room)
      exact ih first room

/-- The containers of units taken one after another, of each identity the first. -/
def Index.catalogue (index : Index) (deliveries : List (Instant × DecisionUnit)) :
    List Container :=
  Container.enrol [] (index.containersOf deliveries)

end Run

namespace Filing

/-- The same transaction twice. -/
def doubled : DecisionUnit :=
  let transaction : Transaction := { inputs := [], outputs := [([0xaa], [1])], requests := [] }
  .ofFields { parent := DecisionUnit.genesis.id, height := 1, timestamp := none,
              body := .standard [transaction, transaction] } (by decide)

def transactions : Index where
  chain := 1
  contents := .transactions

/-- An index is made and fails to write, then takes a unit twice; another is made in its place. -/
def history : List (Filing transactions "disk") :=
  [.make transactions "disk", .fail "disk" (some ⟨"full", 0⟩) (fun _ => none), .take 5 0 1 doubled,
    .fail "disk" none (fun _ => none), .take 7 0 1 doubled, .close 0, .make transactions "disk",
    .take 9 1 1 doubled]

end Filing

end DecisionLedger
