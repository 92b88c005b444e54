import DecisionLedger.Proofs.Deregistration

/-! # Neighbours on a node

Whatever is done on a node, be it to register, notify or deregister, an index stays the index it is
and is not opened again, and what is done at a listener group is done in order.  Only to deregister
may take away what somebody has registered.
-/

namespace DecisionLedger

namespace Node

variable {group : String} {node before middle after : Node} {id : ListenerId}

/-- Whatever was done at a listener group of a node was done in order. -/
def Ordered (group : String) (node : Node) : Prop :=
  ∃ reception : Reception ListenerId Node, reception.Orderly ∧
    reception.registry = node.group group

section Ordered

theorem ordered_empty (group : String) (clock : Instant) : (Node.empty clock).Ordered group :=
  ⟨.opening (Node.empty clock), Reception.orderly_opening _, by
    simp [Reception.opening, Node.group, Node.empty]⟩

theorem Ordered.deals (ordered : before.Ordered group) (deals : Deals group before after) :
    after.Ordered group := by
  obtain ⟨reception, orderly, same⟩ := ordered
  obtain ⟨dealings, dealt⟩ := deals
  exact ⟨_, orderly.run dealings, dealt reception orderly same⟩

theorem Ordered.ticketed (ordered : node.Ordered group) : (node.group group).Ticketed := by
  obtain ⟨reception, orderly, same⟩ := ordered
  exact same ▸ orderly.ticketed

theorem Ordered.eq_of_active (ordered : node.Ordered group) {chain : ChainId} {name : String}
    {left right : Registration ListenerId} (held : left ∈ (node.group group).registrations)
    (inside : right ∈ (node.group group).registrations)
    (first : left.isActiveAs chain name = true) (second : right.isActiveAs chain name = true) :
    left = right := by
  obtain ⟨reception, orderly, same⟩ := ordered
  rw [← same] at held inside
  exact orderly.eq_of_active held inside first second

end Ordered

/-- A listener that is an index stays the index it is, or is closed. -/
def KeepsIndex (id : ListenerId) (before after : Node) : Prop :=
  ∀ hosted : HostedIndex, before.listeners[id]? = some (.index hosted) →
    ∃ later : HostedIndex, after.listeners[id]? = some (.index later) ∧
      (hosted.isClosed = true → later.isClosed = true)

section KeepsIndex

theorem KeepsIndex.of_listener (same : after.listeners[id]? = before.listeners[id]?) :
    KeepsIndex id before after :=
  fun _ listed => ⟨_, same.trans listed, fun closed => closed⟩

theorem KeepsIndex.trans (first : KeepsIndex id before middle)
    (second : KeepsIndex id middle after) : KeepsIndex id before after := by
  intro hosted listed
  obtain ⟨between, known, closed⟩ := first hosted listed
  obtain ⟨later, found, stays⟩ := second between known
  exact ⟨later, found, stays ∘ closed⟩

theorem keepsIndex_closeIndex (node : Node) (other id : ListenerId) :
    KeepsIndex id node (node.closeIndex other) := by
  intro hosted listed
  by_cases same : other = id
  · subst same
    exact ⟨{ hosted with isClosed := true }, by simp [closeIndex, modifyListener, listed],
      fun _ => rfl⟩
  · refine KeepsIndex.of_listener ?_ hosted listed
    simp [closeIndex, modifyListener, Std.ExtTreeMap.getElem?_modify, same]

theorem isIndexClosed_closeIndex {hosted : HostedIndex}
    (listed : node.listeners[id]? = some (.index hosted)) :
    (node.closeIndex id).isIndexClosed id = true := by
  simp [isIndexClosed, closeIndex, modifyListener, listed]

theorem KeepsIndex.isIndexClosed (keeps : KeepsIndex id before after)
    (closed : before.isIndexClosed id = true) : after.isIndexClosed id = true := by
  unfold Node.isIndexClosed at closed
  split at closed
  · rename_i hosted listed
    obtain ⟨later, found, stays⟩ := keeps hosted listed
    rw [Node.isIndexClosed, found]
    exact stays closed
  · cases closed

end KeepsIndex

/-- The indices of a node stay what they are, and are not opened again. -/
structure Ages (before after : Node) : Prop where
  numbered : before.nextListener ≤ after.nextListener
  indices : ∀ id < before.nextListener, KeepsIndex id before after

section Ages

theorem Ages.of_listeners (listeners : after.listeners = before.listeners)
    (numbered : after.nextListener = before.nextListener) : Ages before after where
  numbered := Nat.le_of_eq numbered.symm
  indices _ _ := .of_listener (by rw [listeners])

theorem Ages.trans (first : Ages before middle) (second : Ages middle after) :
    Ages before after where
  numbered := first.numbered.trans second.numbered
  indices id below :=
    (first.indices id below).trans (second.indices id (below.trans_le first.numbered))

theorem ages_addListener (make : ListenerId → Listener) (node : Node) :
    Ages node (node.addListener make).2 where
  numbered := Nat.le_succ _
  indices id below := .of_listener (by
    simp [addListener, Std.ExtTreeMap.getElem?_insert, Nat.ne_of_gt below])

theorem ages_setFailure (id : ListenerId) (failure : Option AcceptError) (node : Node) :
    Ages node (node.setFailure id failure) where
  numbered := Nat.le_refl _
  indices other _ := by
    intro hosted listed
    refine ⟨hosted, ?_, fun closed => closed⟩
    rw [setFailure, modifyListener, Std.ExtTreeMap.getElem?_modify]
    split
    · rename_i same
      rw [Std.LawfulEqOrd.eq_of_compare same, listed]
      rfl
    · exact listed

theorem ages_register (group : String) (chain : ChainId) (name : String) (id : ListenerId)
    (tolerateDraining : Bool) :
    Ages node (node.register group chain name id tolerateDraining).2 := by
  unfold register
  split <;> exact .of_listeners rfl rfl

theorem ages_notify (group : String) (chain : ChainId) (unit : DecisionUnit)
    (acceptedAt : Instant) : Ages node (node.notify group chain unit acceptedAt).2 := by
  obtain ⟨disks, notes, same⟩ :=
    exists_eq_notifyEach acceptedAt chain unit (node.group group).registrations node
  unfold notify Registry.notify
  dsimp only
  rw [same]
  exact .of_listeners rfl rfl

theorem ages_act (deregister : String → ChainId → String → Node → Option RegistryError × Node)
    (ages : ∀ group chain name node, Ages node (deregister group chain name node).2)
    (probe : Probe) (action : ProbeAction) (node : Node) :
    Ages node (act deregister probe node action).2 := by
  cases action with
  | list => exact .of_listeners rfl rfl
  | notify =>
      have told : Ages node (node.notify probe.group probe.chain .genesis node.clock).2 :=
        ages_notify _ _ _ _
      dsimp only [act]
      split <;> (rename_i outcome; rwa [outcome] at told)
  | register name tolerateDraining =>
      have joined := (ages_addListener (fun _ => .probe { probe with
          failure := none, action := some .list, cleanupFailure := none }) node).trans
        (ages_register probe.group probe.chain name node.nextListener tolerateDraining)
      dsimp only [act]
      dsimp only [addListener] at joined ⊢
      split <;> (rename_i outcome; rwa [outcome] at joined)
  | deregister name =>
      have gone := ages probe.group probe.chain name node
      dsimp only [act]
      split <;> (rename_i outcome; rwa [outcome] at gone)

theorem ages_cleanUp (deregister : String → ChainId → String → Node → Option RegistryError × Node)
    (ages : ∀ group chain name node, Ages node (deregister group chain name node).2)
    (id : ListenerId) (node : Node) : Ages node (cleanUp deregister id node).2 := by
  unfold cleanUp
  split
  · exact .of_listeners rfl rfl
  · exact ⟨Nat.le_refl _, fun other _ => keepsIndex_closeIndex node id other⟩
  · split
    · exact .of_listeners rfl rfl
    · exact (ages_act deregister ages _ _ node).trans (.of_listeners rfl rfl)

theorem ages_deregisterWithin (depth : Nat) (group : String) (chain : ChainId) (name : String)
    (node : Node) : Ages node (deregisterWithin depth group chain name node).2 := by
  induction depth generalizing group chain name node with
  | zero => exact .of_listeners rfl rfl
  | succ depth ih =>
      rw [deregisterWithin]
      split
      · exact .of_listeners rfl rfl
      · rename_i found draining _
        have begun : Ages node (node.setGroup group draining) := .of_listeners rfl rfl
        have cleaned := ages_cleanUp (deregisterWithin depth) ih found.listener
          (node.setGroup group draining)
        exact (begun.trans cleaned).trans (.of_listeners rfl rfl)

theorem ages_errand (errand : Errand) (node : Node) : Ages node (errand.run node) := by
  cases errand with
  | register group chain name id tolerateDraining =>
      exact ages_register group chain name id tolerateDraining
  | deregister group chain name => exact ages_deregisterWithin _ group chain name node
  | upset id failure => exact ages_setFailure id failure node

end Ages

theorem deals_errand (errand : Errand) (node : Node) : Deals group node (errand.run node) := by
  cases errand with
  | register on chain name id tolerateDraining =>
      exact deals_register on chain name id tolerateDraining
  | deregister on chain name => exact deals_deregisterWithin _ on chain name node
  | upset id failure => exact .of_group rfl

/-- A registration is there and active, as it was made. -/
def Registers (group : String) (own : Registration ListenerId) (node : Node) : Prop :=
  ∃ registration ∈ (node.group group).registrations, registration.ticket = own.ticket ∧
    registration.listener = own.listener ∧ registration.isActiveAs own.chain own.name = true

section Registers

variable {own : Registration ListenerId}

theorem Registers.of_roster
    (same : (before.group group).roster = (after.group group).roster)
    (registers : before.Registers group own) : after.Registers group own := by
  obtain ⟨registration, inside, ticket, listener, active⟩ := registers
  have settled := List.mem_map_of_mem (f := (·.settled)) inside
  have listed : (before.group group).registrations.map (·.settled) =
      (after.group group).registrations.map (·.settled) := congrArg Registry.registrations same
  rw [listed] at settled
  obtain ⟨later, held, equal⟩ := List.mem_map.mp settled
  obtain ⟨sameTicket, sameChain, sameName, sameListener, sameDraining, -⟩ :=
    Registration.mk.inj equal
  refine ⟨later, held, sameTicket.trans ticket, sameListener.trans listener, ?_⟩
  rw [← active]
  simp [Registration.isActiveAs, Registration.isActiveOn, sameChain, sameName, sameDraining]

theorem Registers.register (registers : node.Registers group own) (on : String) (chain : ChainId)
    (name : String) (id : ListenerId) (tolerateDraining : Bool) :
    (node.register on chain name id tolerateDraining).2.Registers group own := by
  unfold Node.register
  cases done : (node.group on).register chain name id tolerateDraining with
  | error error => exact registers
  | ok registry =>
      have grouped : ((node.setGroup on registry).report
          [Registry.registerLine chain name]).group group =
            if on = group then registry else node.group group :=
        group_setGroup node on group registry
      dsimp only
      rw [Registers, grouped]
      by_cases same : on = group
      · subst same
        obtain ⟨registration, inside, rest⟩ := registers
        rw [if_pos rfl, Registry.eq_of_register done]
        exact ⟨registration, List.mem_append_left _ inside, rest⟩
      · rw [if_neg same]
        exact registers

theorem Registers.notify (registers : node.Registers group own) (on : String) (chain : ChainId)
    (unit : DecisionUnit) (acceptedAt : Instant) :
    (node.notify on chain unit acceptedAt).2.Registers group own := by
  have untouched := notifyEach_apart acceptedAt chain unit (node.group on).registrations node
  have grouped : (node.notify on chain unit acceptedAt).2.group group =
      if on = group then ((node.group on).notify (listening acceptedAt) chain unit node).2.1
      else (Registry.notifyEach (listening acceptedAt) chain unit (node.group on).registrations
        node).2.2.group group := group_setGroup _ on group _
  refine registers.of_roster ?_
  rw [grouped]
  by_cases same : on = group
  · subst same
    rw [if_pos rfl]
    exact (Registry.roster_notify (listening acceptedAt) chain unit _ _).symm
  · rw [if_neg same, Node.group, Node.group, untouched.1]

end Registers

/-- What may become of a node while an indexer does nothing: anything, as long as nobody deregisters
what the indexer has registered, and its indices stay indices and are not opened again. -/
structure Minds (group : String) (made : List (Registration ListenerId)) (before after : Node) :
    Prop where
  deals : Deals group before after
  kept : ∀ own ∈ made, before.Registers group own → after.Registers group own
  indices : ∀ own ∈ made, KeepsIndex own.listener before after
  numbered : before.nextListener ≤ after.nextListener

section Minds

variable {made : List (Registration ListenerId)}

theorem Minds.of_disks (disks : Std.ExtTreeMap String Disk) (log : List LogLine) :
    Minds group made node { node with disks, log } where
  deals := .of_group rfl
  kept _ _ registers := registers
  indices _ _ := .of_listener rfl
  numbered := Nat.le_refl _

theorem Minds.of_ages (numbered : ∀ own ∈ made, own.listener < before.nextListener)
    (deals : Deals group before after) (ages : Ages before after)
    (kept : ∀ own ∈ made, before.Registers group own → after.Registers group own) :
    Minds group made before after where
  deals := deals
  kept := kept
  indices own inside := ages.indices own.listener (numbered own inside)
  numbered := ages.numbered

theorem minds_addListener (numbered : ∀ own ∈ made, own.listener < node.nextListener)
    (make : ListenerId → Listener) : Minds group made node (node.addListener make).2 :=
  .of_ages numbered (.of_group rfl) (ages_addListener make node) fun _ _ registers => registers

theorem minds_notify (numbered : ∀ own ∈ made, own.listener < node.nextListener) (on : String)
    (chain : ChainId) (unit : DecisionUnit) (acceptedAt : Instant) :
    Minds group made node (node.notify on chain unit acceptedAt).2 :=
  .of_ages numbered (deals_notify on chain unit acceptedAt) (ages_notify on chain unit acceptedAt)
    fun _ _ registers => registers.notify on chain unit acceptedAt

theorem minds_errand (numbered : ∀ own ∈ made, own.listener < node.nextListener) (errand : Errand)
    (kept : ∀ own ∈ made, node.Registers group own → (errand.run node).Registers group own) :
    Minds group made node (errand.run node) :=
  .of_ages numbered (deals_errand errand node) (ages_errand errand node) kept

end Minds

end Node

end DecisionLedger
