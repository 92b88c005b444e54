import DecisionLedger.Proofs.Filing
import DecisionLedger.Proofs.NodeGroups
import Mathlib.Data.List.Perm.Subperm

/-! # What an index misses

An index listens to a group among others.  Of every unit that the group is notified of, the index
takes the container, or the failures that the notification gives say that it did not.
-/

namespace DecisionLedger

def Index.ofUnits (chain : ChainId) : Index where
  chain
  contents := .units .linear

def Container.IsOf (container : Container) (unit : DecisionUnit) : Prop :=
  container.id = unit.id ∧ container.bytes = unit.bytes

/-- A failure by which the index of a chain's units says that it did not take a unit. -/
structure ListenerFailure.Reports (failure : ListenerFailure) (chain : ChainId)
    (unit : DecisionUnit) : Prop where
  name : failure.name = (Index.ofUnits chain).name
  about : failure.unit = unit.id
  critical : failure.critical = true
  /-- Its write failed, or the unit is too long for a container. -/
  cause : (∃ problem, failure.error = .unwritable problem) ∨
    Format.lengthLimit ≤ unit.bytes.length

/-- The error of a listener that has not written what it was to write. -/
inductive AcceptError.IsUnwritten : AcceptError → Prop where
  | refused (problem : WriteError) : IsUnwritten (.unwritable problem)
  | tooLong (key : Key) : IsUnwritten (.unencodable key)

/-- Why an index that can be read does not take a unit: its write fails, or one of the containers of
the unit is too long to be written. -/
inductive Index.Declines (index : Index) (acceptedAt : Instant) (unit : DecisionUnit) :
    AcceptError → Prop where
  | refused (problem : WriteError) : Declines index acceptedAt unit (.unwritable problem)
  | tooLong (key : Key) {container : Container} : container ∈ index.containers acceptedAt unit →
      Container.format.fits container = false →
      Declines index acceptedAt unit (.unencodable key)

/-- A failure by which an index says that it did not take a unit. -/
structure ListenerFailure.Misses (failure : ListenerFailure) (index : Index)
    (acceptedAt : Instant) (unit : DecisionUnit) : Prop where
  name : failure.name = index.name
  about : failure.unit = unit.id
  critical : failure.critical = true
  declines : index.Declines acceptedAt unit failure.error

namespace NotifyError

def all (failed : Option NotifyError) : List ListenerFailure :=
  failed.elim [] (·.failures)

theorem all_merge (earlier later : Option NotifyError) :
    all (merge earlier later) = all earlier ++ all later := by
  cases earlier <;> cases later <;> simp [all, merge]

end NotifyError

namespace Container

theorem enrol_idem (known further : List Container) :
    enrol (enrol known further) further = enrol known further :=
  enrol_of_known fun _ inside => mem_enrol_iff.mpr (.inr (List.mem_map_of_mem inside))

theorem length_enrol_le (known further : List Container) :
    (enrol known further).length ≤ known.length + further.length := by
  induction further generalizing known with
  | nil => simp [enrol]
  | cons container rest ih =>
      rw [enrol]
      split
      · exact (ih known).trans (by simp)
      · exact (ih _).trans (by simp; omega)

end Container

namespace Index

variable {index : Index} {disk : Disk} {store : Store} {containers : List Container}
  {acceptedAt : Instant} {unit : DecisionUnit} {error : AcceptError}

theorem Refuses.declines (refuses : index.Refuses disk acceptedAt unit error) :
    index.Declines acceptedAt unit error := by
  cases refuses with
  | unwritten _ _ _ => exact .refused _
  | tooLong key inside long => exact .tooLong key inside long

theorem Declines.isUnwritten (declines : index.Declines acceptedAt unit error) :
    error.IsUnwritten := by
  cases declines with
  | refused problem => exact .refused problem
  | tooLong key => exact .tooLong key

theorem fits_ofUnits {chain : ChainId} {container : Container}
    (inside : container ∈ (ofUnits chain).containers acceptedAt unit) :
    container.IsOf unit ∧
      (Container.format.fits container = false → Format.lengthLimit ≤ unit.bytes.length) := by
  cases List.mem_singleton.mp inside
  refine ⟨⟨rfl, rfl⟩, fun long => ?_⟩
  simpa [Container.format, Format.transport, Format.pair, Format.bytes, Format.word,
    Format.fixed, Digest.format] using long

theorem Numbers.length_le (numbers : index.Numbers store containers) {units : List DecisionUnit}
    (own : ∀ container ∈ containers, ∃ unit ∈ units, container.IsOf unit) :
    containers.length ≤ units.length := by
  have known : containers.map (·.id) ⊆ units.map (·.id) := by
    intro id listed
    obtain ⟨container, inside, rfl⟩ := List.mem_map.mp listed
    obtain ⟨unit, held, same⟩ := own container inside
    exact List.mem_map.mpr ⟨unit, held, same.1.symm⟩
  simpa using (List.Nodup.subperm numbers.distinct known).length_le

end Index

theorem ListenerFailure.Misses.reports {failure : ListenerFailure} {chain : ChainId}
    {acceptedAt : Instant} {unit : DecisionUnit}
    (misses : failure.Misses (.ofUnits chain) acceptedAt unit) : failure.Reports chain unit where
  name := misses.name
  about := misses.about
  critical := misses.critical
  cause := by
    have declines := misses.declines
    generalize failure.error = error at declines
    cases declines with
    | refused problem => exact .inl ⟨problem, rfl⟩
    | tooLong key inside long => exact .inr ((Index.fits_ofUnits inside).2 long)

namespace Node

variable {node : Node} {index : Index} {chain : ChainId} {disk : String}
  {containers entered : List Container} {acceptedAt : Instant} {unit : DecisionUnit}

/-- A listener leaves the index as it is or enters the unit; if it is the index itself, it enters
the unit or fails and says why. -/
theorem accept_enters (numbers : index.Numbers (node.store disk) containers)
    (enters : Container.enrol containers (index.containers acceptedAt unit) = entered)
    (room : entered.length < UInt64.size) (id : ListenerId) (on : ChainId) :
    let result := accept acceptedAt id on unit node
    ∃ held, index.Numbers (result.2.store disk) held ∧
      (held = containers ∨ held = entered) ∧
      (node.files index disk id = true → held = entered ∨
        ∃ error, result.1 = some error ∧ index.Declines acceptedAt unit error) := by
  subst enters
  cases filed : node.files index disk id with
  | false =>
      exact ⟨containers, numbers.of_same (sameVariables_accept filed), .inl rfl,
        fun holds => absurd holds Bool.false_ne_true⟩
  | true =>
      cases taken : (accept acceptedAt id on unit node).1 with
      | none => exact ⟨_, numbers_accept numbers room filed taken, .inr rfl, fun _ => .inl rfl⟩
      | some error =>
          refine ⟨containers, ?_, .inl rfl, fun _ => .inr ⟨error, taken, ?_⟩⟩
          · rwa [accept_of_failed taken]
          · exact (accept_refuses numbers filed taken).declines

theorem isCritical_of_files {id : ListenerId} (filed : node.files index disk id = true) :
    isCritical id node = true := by
  obtain ⟨hosted, listed, -⟩ := files_iff.mp filed
  rw [isCritical, listed]

theorem files_congr {after : Node} (same : after.listeners = node.listeners) (index : Index)
    (disk : String) (id : ListenerId) : after.files index disk id = node.files index disk id := by
  rw [files, files, same]

/-- The units of the chain of an index go to it on a disk, through a registration in its name. -/
def Serves (node : Node) (index : Index) (disk : String) (registration : Registration ListenerId) :
    Prop :=
  registration.isActiveOn index.chain = true ∧ registration.name = index.name ∧
    node.files index disk registration.listener = true

theorem Serves.of_listeners {after : Node} {registration : Registration ListenerId}
    (serves : node.Serves index disk registration) (same : after.listeners = node.listeners) :
    after.Serves index disk registration := by
  refine ⟨serves.1, serves.2.1, ?_⟩
  rw [files_congr same]
  exact serves.2.2

/-- If those who are notified of a unit include an index of the chain, the index enters the unit or
a failure says that it did not. -/
theorem notifyEach_enters (numbers : index.Numbers (node.store disk) containers)
    (enters : Container.enrol containers (index.containers acceptedAt unit) = entered)
    (room : entered.length < UInt64.size) (registrations : List (Registration ListenerId)) :
    let result := Registry.notifyEach (listening acceptedAt) index.chain unit registrations node
    ∃ held, index.Numbers (result.2.2.store disk) held ∧
      (held = containers ∨ held = entered) ∧
      ((∃ registration ∈ registrations, node.Serves index disk registration) →
        held = entered ∨ ∃ failure ∈ result.2.1, failure.Misses index acceptedAt unit) := by
  induction registrations generalizing node containers with
  | nil => exact ⟨containers, numbers, .inl rfl, by simp⟩
  | cons registration rest ih =>
      rw [Registry.notifyEach]
      by_cases active : registration.isActiveOn index.chain = true
      · rw [if_pos active]
        obtain ⟨between, first, taken, own⟩ :=
          accept_enters numbers enters room registration.listener index.chain
        -- whether or not the first listener was the index, the rest lead to the same containers
        have still : Container.enrol between (index.containers acceptedAt unit) = entered := by
          rcases taken with rfl | rfl
          · exact enters
          · rw [← enters, Container.enrol_idem]
        have untouched : (accept acceptedAt registration.listener index.chain unit node).2.listeners
            = node.listeners := by
          obtain ⟨disks, notes, same⟩ :=
            exists_eq_accept acceptedAt registration.listener index.chain unit node
          rw [same]
        obtain ⟨held, later, grown, told⟩ := ih first still
        have whole : held = containers ∨ held = entered := by grind
        dsimp only [listening] at later told own ⊢
        split
        · rename_i passed
          refine ⟨held, later, whole, ?_⟩
          rintro ⟨other, inside, serves⟩
          rcases List.mem_cons.mp inside with rfl | inside
          · rcases own serves.2.2 with rfl | ⟨error, failed, -⟩
            · exact .inl (by grind)
            · rw [passed] at failed
              cases failed
          · exact told ⟨other, inside, serves.of_listeners untouched⟩
        · rename_i error failed
          refine ⟨held, later, whole, ?_⟩
          rintro ⟨other, inside, serves⟩
          rcases List.mem_cons.mp inside with rfl | inside
          · rcases own serves.2.2 with rfl | ⟨same, said, cause⟩
            · exact .inl (by grind)
            · rw [failed, Option.some.injEq] at said
              subst said
              have critical := isCritical_of_files (serves.of_listeners untouched).2.2
              exact .inr ⟨_, List.mem_cons_self, serves.2.1, rfl, critical, cause⟩
          · rcases told ⟨other, inside, serves.of_listeners untouched⟩ with rfl | missed
            · exact .inl rfl
            · obtain ⟨failure, inside, misses⟩ := missed
              exact .inr ⟨failure, List.mem_cons_of_mem _ inside, misses⟩
      · rw [if_neg active]
        obtain ⟨held, later, grown, told⟩ := ih numbers enters
        refine ⟨held, later, grown, fun serves => told ?_⟩
        obtain ⟨other, inside, serves⟩ := serves
        rcases List.mem_cons.mp inside with rfl | inside
        · exact absurd serves.1 active
        · exact ⟨other, inside, serves⟩

def audience (node : Node) (group : String) :
    Registry ListenerId × Std.ExtTreeMap ListenerId Listener × ListenerId :=
  ((node.group group).roster, node.listeners, node.nextListener)

theorem audience_notify (node : Node) (group : String) (chain : ChainId) (unit : DecisionUnit)
    (acceptedAt : Instant) :
    (node.notify group chain unit acceptedAt).2.audience group = node.audience group := by
  obtain ⟨disks, notes, same⟩ :=
    exists_eq_notifyEach acceptedAt chain unit (node.group group).registrations node
  have put : (node.notify group chain unit acceptedAt).2.group group =
      ((node.group group).notify (listening acceptedAt) chain unit node).2.1 :=
    (group_setGroup _ group group _).trans (if_pos rfl)
  have listeners : (node.notify group chain unit acceptedAt).2.listeners = node.listeners :=
    (congrArg (fun after : Node => after.listeners) same :)
  have next : (node.notify group chain unit acceptedAt).2.nextListener = node.nextListener :=
    (congrArg (fun after : Node => after.nextListener) same :)
  rw [audience, put, Registry.roster_notify, listeners, next, audience]

/-- The units of the chain of an index go to it on a site. -/
def Watches (node : Node) (site : Site) (index : Index) : Prop :=
  ∃ registration ∈ (node.group site.group).registrations,
    node.Serves index site.disk registration ∧ registration.listener < node.nextListener

theorem Watches.of_audience {after : Node} {site : Site}
    (watches : node.Watches site index)
    (same : after.audience site.group = node.audience site.group) : after.Watches site index := by
  simp only [audience, Prod.mk.injEq] at same
  obtain ⟨roster, listeners, next⟩ := same
  obtain ⟨registration, inside, ⟨active, name, filed⟩, below⟩ := watches
  obtain ⟨later, held, becomes⟩ := Registry.mem_of_roster roster inside
  refine ⟨later, held, ⟨becomes.isActiveOn active, becomes.name_eq.symm.trans name, ?_⟩, ?_⟩
  · rw [files_congr listeners, ← becomes.listener_eq]
    exact filed
  · rw [← becomes.listener_eq, next]
    exact below

end Node

/-- A list of containers that has grown by containers of units. -/
structure Container.Grows (units : List DecisionUnit) (containers held : List Container) :
    Prop where
  kept : ∀ container ∈ containers, container ∈ held
  new : ∀ container ∈ held, container ∈ containers ∨ ∃ unit ∈ units, container.IsOf unit
  length : held.length ≤ containers.length + units.length

namespace Container.Grows

variable {units more : List DecisionUnit} {containers held final : List Container}

theorem refl (containers : List Container) : Grows [] containers containers :=
  ⟨fun _ inside => inside, fun _ inside => .inl inside, Nat.le_refl _⟩

theorem append (first : Grows units containers held) (later : Grows more held final) :
    Grows (units ++ more) containers final where
  kept container inside := later.kept container (first.kept container inside)
  new container inside := by
    rcases later.new container inside with old | ⟨unit, listed, own⟩
    · rcases first.new container old with older | ⟨unit, listed, own⟩
      · exact .inl older
      · exact .inr ⟨unit, List.mem_append_left _ listed, own⟩
    · exact .inr ⟨unit, List.mem_append_right _ listed, own⟩
  length := by
    have := first.length
    have := later.length
    simp only [List.length_append]
    omega

theorem of_enters {chain : ChainId} {acceptedAt : Instant} {unit : DecisionUnit}
    (grown : held = containers ∨
      held = enrol containers ((Index.ofUnits chain).containers acceptedAt unit)) :
    Grows [unit] containers held := by
  obtain ⟨added, same, inside⟩ :=
    exists_enrol containers ((Index.ofUnits chain).containers acceptedAt unit)
  have length := length_enrol_le containers ((Index.ofUnits chain).containers acceptedAt unit)
  rcases grown with rfl | rfl
  · exact ⟨fun _ inside => inside, fun _ inside => .inl inside, Nat.le_add_right _ _⟩
  · refine ⟨fun container old => ?_, fun container here => ?_, length⟩
    · rw [same]
      exact List.mem_append_left _ old
    · rw [same] at here
      rcases List.mem_append.mp here with old | new
      · exact .inl old
      · exact .inr ⟨unit, List.mem_singleton_self _,
          (Index.fits_ofUnits (inside container new)).1⟩

end Container.Grows

/-- A unit is in an index, or a failure reports that it is not. -/
def Covers (chain : ChainId) (held : List Container) (failures : List ListenerFailure)
    (unit : DecisionUnit) : Prop :=
  unit.id ∈ held.map (·.id) ∨ ∃ failure ∈ failures, failure.Reports chain unit

section Deliver

variable {node : Node} {chain : ChainId} {containers : List Container} {units : List DecisionUnit}
  {unit : DecisionUnit}

theorem Covers.mono {held final : List Container} {failures more : List ListenerFailure}
    (covers : Covers chain held failures unit) (kept : ∀ container ∈ held, container ∈ final)
    (listed : ∀ failure ∈ failures, failure ∈ more) : Covers chain final more unit := by
  rcases covers with inside | ⟨failure, inside, reports⟩
  · obtain ⟨container, here, same⟩ := List.mem_map.mp inside
    exact .inl (List.mem_map.mpr ⟨container, kept container here, same⟩)
  · exact .inr ⟨failure, listed failure inside, reports⟩

theorem Node.notify_enters {index : Index} (site : Site) (acceptedAt : Instant)
    (numbers : index.Numbers (node.store site.disk) containers) (unit : DecisionUnit)
    (room : (Container.enrol containers (index.containers acceptedAt unit)).length <
      UInt64.size) :
    let result := node.notify site.group index.chain unit acceptedAt
    let entered := Container.enrol containers (index.containers acceptedAt unit)
    ∃ held, index.Numbers (result.2.store site.disk) held ∧
      (held = containers ∨ held = entered) ∧
      (node.Watches site index → held = entered ∨
        ∃ failure ∈ NotifyError.all result.1, failure.Misses index acceptedAt unit) := by
  obtain ⟨held, after, grown, told⟩ := notifyEach_enters numbers rfl room
    (node.group site.group).registrations
  have failures : NotifyError.all (node.notify site.group index.chain unit acceptedAt).1 =
      (Registry.notifyEach (listening acceptedAt) index.chain unit
        (node.group site.group).registrations node).2.1 := by
    dsimp only [Node.notify, Registry.notify]
    split
    · rename_i nothing
      exact (List.isEmpty_iff.mp nothing).symm
    · rfl
  refine ⟨held, after, grown, ?_⟩
  rintro ⟨registration, inside, serves, -⟩
  rw [failures]
  exact told ⟨registration, inside, serves⟩

theorem Node.notify_covers (site : Site) (acceptedAt : Instant)
    (numbers : (Index.ofUnits chain).Numbers (node.store site.disk) containers)
    (room : containers.length + 1 < UInt64.size) (unit : DecisionUnit) :
    let result := node.notify site.group chain unit acceptedAt
    ∃ held, (Index.ofUnits chain).Numbers (result.2.store site.disk) held ∧
      Container.Grows [unit] containers held ∧
      (node.Watches site (.ofUnits chain) →
        Covers chain held (NotifyError.all result.1) unit) := by
  have bound := Container.length_enrol_le containers
    ((Index.ofUnits chain).containers acceptedAt unit)
  have single : ((Index.ofUnits chain).containers acceptedAt unit).length = 1 := rfl
  have roomy : (Container.enrol containers
      ((Index.ofUnits chain).containers acceptedAt unit)).length < UInt64.size := by omega
  obtain ⟨held, after, grown, told⟩ := Node.notify_enters site acceptedAt numbers unit roomy
  refine ⟨held, after, .of_enters grown, fun watches => ?_⟩
  rcases told watches with rfl | ⟨failure, inside, misses⟩
  · exact .inl (Container.mem_enrol_iff.mpr (.inr List.mem_cons_self))
  · exact .inr ⟨failure, inside, misses.reports⟩

theorem Site.deliverAll_covers (site : Site) (world : Node × Outlet)
    (numbers : (Index.ofUnits chain).Numbers (world.1.store site.disk) containers)
    (room : containers.length + units.length < UInt64.size) :
    let result := site.host.deliverAll chain units world
    ∃ held, (Index.ofUnits chain).Numbers (result.2.1.store site.disk) held ∧
      Container.Grows units containers held ∧
      (world.1.Watches site (.ofUnits chain) →
        ∀ unit ∈ units, Covers chain held (NotifyError.all result.1) unit) := by
  induction units generalizing world containers with
  | nil => exact ⟨containers, numbers, .refl _, by simp⟩
  | cons unit rest ih =>
      rw [List.length_cons] at room
      obtain ⟨between, first, grown, covers⟩ :=
        Node.notify_covers site world.1.clock numbers (by omega) unit
      have more := grown.length
      rw [List.length_singleton] at more
      obtain ⟨held, after, further, covered⟩ := ih (site.host.deliver chain unit world).2 first
        (by omega)
      refine ⟨held, after, grown.append further, fun watches other inside => ?_⟩
      have still : (site.host.deliver chain unit world).2.1.Watches site (.ofUnits chain) :=
        watches.of_audience (world.1.audience_notify site.group chain unit world.1.clock)
      dsimp only [Host.deliverAll]
      rw [NotifyError.all_merge]
      rcases List.mem_cons.mp inside with rfl | inside
      · exact (covers watches).mono further.kept fun _ => List.mem_append_left _
      · exact (covered still other inside).mono (fun _ here => here)
          fun _ => List.mem_append_right _

theorem Site.deliverAll_apart (site : Site) (chain : ChainId) (units : List DecisionUnit)
    (world : Node × Outlet) :
    let after := (site.host.deliverAll chain units world).2.1
    after.audience site.group = world.1.audience site.group ∧
      (world.1.store site.disk).SameElsewhere (after.store site.disk) := by
  induction units generalizing world with
  | nil => exact ⟨rfl, .refl _⟩
  | cons unit rest ih =>
      obtain ⟨audience, same⟩ := ih (site.host.deliver chain unit world).2
      exact ⟨audience.trans (world.1.audience_notify site.group chain unit world.1.clock),
        (Node.sameElsewhere_notify site.group chain unit world.1.clock world.1 site.disk).trans
          same⟩

end Deliver

end DecisionLedger
