import DecisionLedger.Proofs.Markers
import DecisionLedger.Proofs.Neighbours

/-! # What an indexer registers

An indexer on a node shares its listener group with others, who may hold the names of its indices.
All that it has registered is written down beside the node here, so that it can be told apart from
what others have registered.  While the indexer is open, every index that it has registered is among
its indices and listens; once it has closed, none of them does.
-/

namespace DecisionLedger

namespace IndexerHost

variable {ι υ ω : Type}

/-- One host does to its world, seen in some way, what another does to the world that is seen. -/
structure Mirrors (upper : IndexerHost ι υ) (lower : IndexerHost ι ω) (view : υ → ω) : Prop where
  store : ∀ world, upper.store world = lower.store (view world)
  write : ∀ batch world, (upper.write batch world).map view = lower.write batch (view world)
  enlist : ∀ index world,
    (upper.enlist index world).map id view = lower.enlist index (view world)
  close : ∀ handle world, view (upper.close handle world) = lower.close handle (view world)
  dismiss : ∀ chain name world,
    (upper.dismiss chain name world).map id view = lower.dismiss chain name (view world)
  report : ∀ line world, view (upper.report line world) = lower.report line (view world)

end IndexerHost

namespace Indexer

variable {ι υ ω : Type} {upper : IndexerHost ι υ} {lower : IndexerHost ι ω} {view : υ → ω}

/-- What an indexer logs of a dismissal. -/
def notice {ω : Type} (host : IndexerHost ι ω) (opened : OpenIndex ι)
    (failed : Option RegistryError) (world : ω) : ω :=
  match failed with
  | none => world
  | some error =>
    host.report
      (.error (s!"failed to deregister the {opened.index.contents.containerName} index of " ++
        s!"chain {opened.index.chain}: {error.message}"))
      world

theorem dismissEach_cons {ω : Type} (host : IndexerHost ι ω) (first : OpenIndex ι)
    (rest : List (OpenIndex ι)) (world : ω) :
    dismissEach host (first :: rest) world =
      let (failed, dismissed) :=
        host.dismiss first.index.chain first.index.name (host.close first.handle world)
      let (later, final) := dismissEach host rest (notice host first failed dismissed)
      (failed <|> later, final) :=
  rfl

section Mirrors

variable (mirrors : upper.Mirrors lower view)

include mirrors

theorem writeIf_mirror (wanted : Bool) (batch : Batch) (world : υ) :
    (writeIf upper wanted batch world).map view = writeIf lower wanted batch (view world) := by
  unfold writeIf
  cases wanted
  · rfl
  · exact mirrors.write batch world

theorem enlistEach_mirror (name : String) (chain : ChainId) (wanted : List Contents)
    (indexer : Indexer ι) (world : υ) :
    (enlistEach upper name chain wanted indexer world).map id (Prod.map id view) =
      enlistEach lower name chain wanted indexer (view world) := by
  induction wanted generalizing indexer world with
  | nil => rfl
  | cons contents rest ih =>
      rw [enlistEach, enlistEach]
      dsimp only
      rw [← mirrors.enlist]
      obtain ⟨answer, after⟩ := upper.enlist { chain, contents } world
      cases answer with
      | error error => rfl
      | ok handle =>
          dsimp only [Prod.map, id]
          rw [← mirrors.report]
          exact ih _ _

theorem takeIn_mirror (indexer : Indexer ι) (name : String) (chain : ChainId) (flavor : Flavor)
    (world : υ) :
    (indexer.takeIn upper name chain flavor world).map id (Prod.map id view) =
      indexer.takeIn lower name chain flavor (view world) := by
  dsimp only [takeIn]
  rw [← mirrors.store]
  split
  · rfl
  · rw [← writeIf_mirror mirrors]
    cases writeIf upper _ _ world with
    | error error => rfl
    | ok written => simp [Except.map, Prod.map, mirrors.report]
  · rw [← writeIf_mirror mirrors]
    cases writeIf upper _ _ world with
    | error error => rfl
    | ok written => exact enlistEach_mirror mirrors name chain _ indexer written

theorem notice_mirror (opened : OpenIndex ι) (failed : Option RegistryError) (world : υ) :
    view (notice upper opened failed world) = notice lower opened failed (view world) := by
  cases failed with
  | none => rfl
  | some error => exact mirrors.report _ world

theorem dismissEach_mirror (opened : List (OpenIndex ι)) (world : υ) :
    (dismissEach upper opened world).map id view = dismissEach lower opened (view world) := by
  induction opened generalizing world with
  | nil => rfl
  | cons first rest ih =>
      rw [dismissEach_cons, dismissEach_cons, ← mirrors.close, ← mirrors.dismiss]
      obtain ⟨failed, after⟩ := upper.dismiss first.index.chain first.index.name
        (upper.close first.handle world)
      dsimp only [Prod.map, id]
      rw [← notice_mirror mirrors, ← ih]
      rfl

theorem close_mirror (indexer : Indexer ι) (world : υ) :
    (indexer.close upper world).map id (Prod.map id view) = indexer.close lower (view world) := by
  unfold close
  split
  · rfl
  · dsimp only
    rw [← dismissEach_mirror mirrors]
    rfl

theorem giveUp_mirror (indexer : Indexer ι) (name : String) (error : IndexerError) (world : υ) :
    (indexer.giveUp upper name error world).map id (Prod.map id view) =
      indexer.giveUp lower name error (view world) := by
  dsimp only [giveUp]
  rw [← mirrors.report, ← close_mirror mirrors]
  obtain ⟨answer, closed, final⟩ := indexer.close upper (upper.report _ world)
  cases answer with
  | ok done => rfl
  | error problem => simp [Prod.map, mirrors.report]

/-- Where hosts mirror each other, so do the registrations of a chain. -/
theorem register_mirror (indexer : Indexer ι) (name : String) (chain : ChainId) (flavor : Flavor)
    (world : υ) :
    (indexer.register upper name chain flavor world).map id (Prod.map id view) =
      indexer.register lower name chain flavor (view world) := by
  by_cases opened : indexer.isClosed = true
  · simp [register, opened, Prod.map]
  by_cases known : chain ∈ indexer.indices
  · simp [register, opened, known, Prod.map, mirrors.report]
  rw [Bool.not_eq_true] at opened
  rw [register_eq _ _ _ _ _ _ opened known, register_eq _ _ _ _ _ _ opened known,
    ← takeIn_mirror mirrors]
  obtain ⟨answer, admitted, after⟩ := indexer.takeIn upper name chain flavor world
  cases answer with
  | ok done => rfl
  | error error => exact giveUp_mirror mirrors admitted name error after

end Mirrors

end Indexer

namespace Reception

variable {ℓ ω : Type} {reception : Reception ℓ ω} {ticket : Nat}

theorem Orderly.ended_of_absent (orderly : reception.Orderly)
    (issued : ticket < reception.registry.nextTicket)
    (absent : ∀ registration ∈ reception.registry.registrations, registration.ticket ≠ ticket) :
    ticket ∈ reception.ended := by
  by_contra stays
  have next : reception.registry.nextTicket = reception.made.length :=
    congrArg Registry.nextTicket orderly.roster
  have made : ticket ∈ reception.made.map (·.ticket) :=
    orderly.numbered ▸ List.mem_range.mpr (next ▸ issued)
  obtain ⟨earlier, inside, rfl⟩ := List.mem_map.mp made
  have rolled := mem_roll.mpr ⟨earlier, inside, stays, rfl⟩
  rw [← orderly.roster] at rolled
  obtain ⟨registration, held, same⟩ := List.mem_map.mp rolled
  exact absent registration held (Registration.mk.inj same).1

/-- A ticket is neither registered nor called, whatever is done at the registry from now on. -/
def Silent (reception : Reception ℓ ω) (ticket : Nat) : Prop :=
  ∀ dealings, (∀ registration ∈ (reception.run dealings).registry.registrations,
      registration.ticket ≠ ticket) ∧
    ∃ calls, (reception.run dealings).told = reception.told ++ calls ∧
      ∀ hearing ∈ calls, hearing.ticket ≠ ticket

theorem Orderly.silent (orderly : reception.Orderly) (ended : ticket ∈ reception.ended) :
    reception.Silent ticket := by
  intro dealings
  have follows := orderly.follows_run dealings
  constructor
  · rintro registration inside rfl
    obtain ⟨earlier, -, stays, same⟩ := (orderly.run dealings).exists_made inside
    have ticket : earlier.ticket = registration.ticket := (Registration.mk.inj same).1
    exact stays (ticket ▸ follows.ended ended)
  · obtain ⟨calls, told, quiet⟩ := follows.told
    refine ⟨calls, told, ?_⟩
    rintro hearing called rfl
    exact quiet hearing called (orderly.ended _ ended)

end Reception

namespace Node

variable {group : String} {before middle after : Node}

/-- Registrations have been struck off a listener group, and what else has changed is that indices
were closed. -/
structure Strikes (group : String) (gone : List Nat) (before after : Node) : Prop where
  registrations : (after.group group).registrations =
    (before.group group).registrations.filter (·.ticket ∉ gone)
  nextTicket : (after.group group).nextTicket = (before.group group).nextTicket
  elsewhere : ∀ other ≠ group, after.group other = before.group other
  keeps : ∀ id, KeepsIndex id before after
  nextListener : after.nextListener = before.nextListener

section Strikes

variable {gone further : List Nat}

theorem Strikes.of_groups (groups : after.groups = before.groups)
    (keeps : ∀ id, KeepsIndex id before after)
    (nextListener : after.nextListener = before.nextListener) : Strikes group [] before after where
  registrations := by simp [Node.group, groups]
  nextTicket := by simp [Node.group, groups]
  elsewhere other _ := by simp [Node.group, groups]
  keeps := keeps
  nextListener := nextListener

theorem Strikes.trans (first : Strikes group gone before middle)
    (second : Strikes group further middle after) :
    Strikes group (gone ++ further) before after where
  registrations := by
    rw [second.registrations, first.registrations, List.filter_filter]
    refine List.filter_congr fun registration _ => ?_
    simp [Bool.and_comm]
  nextTicket := second.nextTicket.trans first.nextTicket
  elsewhere other apart := (second.elsewhere other apart).trans (first.elsewhere other apart)
  keeps id := (first.keeps id).trans (second.keeps id)
  nextListener := second.nextListener.trans first.nextListener

theorem Strikes.report (strikes : Strikes group gone before after) (lines : List LogLine) :
    Strikes group gone before (after.report lines) where
  registrations := strikes.registrations
  nextTicket := strikes.nextTicket
  elsewhere := strikes.elsewhere
  keeps := strikes.keeps
  nextListener := strikes.nextListener

theorem remove_of_drain {registry draining : Registry ListenerId} {chain : ChainId}
    {name : String} {found : Registration ListenerId}
    (drained : registry.drain chain name = .ok (found, draining)) :
    draining.remove found.ticket = registry.remove found.ticket := by
  obtain ⟨-, rfl⟩ := Registry.eq_of_drain drained
  refine congrArg (Registry.mk · _) ?_
  dsimp only
  induction registry.registrations with
  | nil => rfl
  | cons first rest ih =>
      by_cases same : first.ticket = found.ticket <;> simpa [same] using ih

/-- A node once an index that was registered is closed and struck off. -/
def strike (group : String) (draining : Registry ListenerId) (found : Registration ListenerId)
    (node : Node) : Node :=
  let closed := (node.setGroup group draining).closeIndex found.listener
  closed.setGroup group ((closed.group group).remove found.ticket)

section Strike

variable {node : Node} {chain : ChainId} {name : String} {found : Registration ListenerId}
  {draining : Registry ListenerId} {hosted : HostedIndex}

theorem group_strike (drained : (node.group group).drain chain name = .ok (found, draining))
    (other : String) : (strike group draining found node).group other =
      if group = other then (node.group group).remove found.ticket else node.group other := by
  have drainer : ((node.setGroup group draining).closeIndex found.listener).group group =
      draining := (group_setGroup node group group draining).trans (if_pos rfl)
  refine (group_setGroup _ group other _).trans ?_
  rw [drainer, remove_of_drain drained]
  by_cases same : group = other
  · rw [if_pos same, if_pos same]
  · rw [if_neg same, if_neg same]
    exact (group_setGroup node group other draining).trans (if_neg same)

theorem strikes_strike (drained : (node.group group).drain chain name = .ok (found, draining)) :
    Strikes group [found.ticket] node (strike group draining found node) := by
  have grouped := group_strike drained
  refine ⟨?_, ?_, fun other apart => (grouped other).trans (if_neg (Ne.symm apart)),
    keepsIndex_closeIndex node found.listener, rfl⟩
  · refine (congrArg Registry.registrations ((grouped group).trans (if_pos rfl))).trans ?_
    exact List.filter_congr fun registration _ => by simp
  · exact (congrArg Registry.nextTicket ((grouped group).trans (if_pos rfl))).trans rfl

theorem deregister_of_index
    (drained : (node.group group).drain chain name = .ok (found, draining))
    (listed : node.listeners[found.listener]? = some (.index hosted)) :
    (node.deregister group chain name).2 =
      (strike group draining found node).report [Registry.deregisterLine chain name] := by
  have cleaned : cleanUp (deregisterWithin node.activeCount) found.listener
      (node.setGroup group draining) =
        (none, (node.setGroup group draining).closeIndex found.listener) := by
    have same : (node.setGroup group draining).listeners[found.listener]? =
        some (.index hosted) := listed
    rw [cleanUp, same]
  rw [deregister, deregisterWithin, drained]
  dsimp only
  rw [cleaned]
  rfl

end Strike

/-- To deregister a name under which an index listens, if anything does, is to close that index and
strike its registration off. -/
theorem deregister_cases (node : Node) (group : String) (chain : ChainId) (name : String)
    (indices : ∀ registration ∈ (node.group group).registrations,
      registration.isActiveAs chain name = true →
      ∃ hosted, node.listeners[registration.listener]? = some (.index hosted)) :
    (∀ registration ∈ (node.group group).registrations,
        ¬registration.isActiveAs chain name = true) ∧
      (node.deregister group chain name).2 = node ∨
    ∃ registration ∈ (node.group group).registrations,
      registration.isActiveAs chain name = true ∧
      Strikes group [registration.ticket] node (node.deregister group chain name).2 := by
  cases drained : (node.group group).drain chain name with
  | error error =>
      refine .inl ⟨fun registration inside => ?_, ?_⟩
      · unfold Registry.drain at drained
        split at drained
        · rename_i missing
          exact List.find?_eq_none.mp missing registration inside
        · cases drained
      · rw [deregister, deregisterWithin, drained]
  | ok result =>
      obtain ⟨found, draining⟩ := result
      obtain ⟨known, -⟩ := Registry.eq_of_drain drained
      have inside := List.mem_of_find?_eq_some known
      have active := List.find?_some known
      obtain ⟨hosted, listed⟩ := indices found inside active
      rw [deregister_of_index drained listed]
      exact .inr ⟨found, inside, active, (strikes_strike drained).report _⟩

end Strikes

end Node

namespace HostedIndexer

/-- The registration of an index as it is made. -/
def entry (group : String) (index : Index) (id : ListenerId) (node : Node) :
    Registration ListenerId where
  ticket := (node.group group).nextTicket
  chain := index.chain
  name := index.name
  listener := id
  draining := false
  failures := 0

def tracking (disk group : String) :
    IndexerHost ListenerId (Node × List (Registration ListenerId)) where
  store world := (host disk group).store world.1
  write batch world := ((host disk group).write batch world.1).map (·, world.2)
  enlist index world :=
    match (host disk group).enlist index world.1 with
    | (.error error, after) => (.error error, after, world.2)
    | (.ok id, after) => (.ok id, after, world.2 ++ [entry group index id world.1])
  close handle world := ((host disk group).close handle world.1, world.2)
  dismiss chain name world :=
    let (failed, after) := (host disk group).dismiss chain name world.1
    (failed, after, world.2)
  report line world := ((host disk group).report line world.1, world.2)

theorem mirrors_tracking (disk group : String) :
    (tracking disk group).Mirrors (host disk group) Prod.fst where
  store _ := rfl
  write batch world := by
    dsimp only [tracking]
    cases (host disk group).write batch world.1 <;> rfl
  enlist index world := by
    dsimp only [tracking]
    obtain ⟨answer, after⟩ := (host disk group).enlist index world.1
    cases answer <;> rfl
  close _ _ := rfl
  dismiss _ _ _ := rfl
  report _ _ := rfl

end HostedIndexer

namespace Indexer

open HostedIndexer

def opened {ι : Type} (indexer : Indexer ι) : List (OpenIndex ι) :=
  indexer.indices.toList.flatMap Prod.snd

variable {disk group : String} {indexer : Indexer ListenerId} {opened : List (OpenIndex ListenerId)}
  {world : Node × List (Registration ListenerId)}

/-- An index is to be dismissed wherever one that the indexer has registered still listens, and
nothing else listens under a name that is to be dismissed. -/
structure Awaits (group : String) (opened : List (OpenIndex ListenerId))
    (world : Node × List (Registration ListenerId)) : Prop where
  ordered : world.1.Ordered group
  own : ∀ registration ∈ (world.1.group group).registrations,
    registration.ticket ∈ world.2.map (·.ticket) →
    (∃ hosted, world.1.listeners[registration.listener]? = some (.index hosted)) ∧
      ∃ first ∈ opened, registration.isActiveAs first.index.chain first.index.name = true
  theirs : ∀ first ∈ opened, ∀ registration ∈ (world.1.group group).registrations,
    registration.isActiveAs first.index.chain first.index.name = true →
    registration.ticket ∈ world.2.map (·.ticket)
  indices : ∀ first ∈ opened, ∃ hosted, world.1.listeners[first.handle]? = some (.index hosted)

/-- What is left once indices are dismissed: nothing that the indexer has registered, and all that
others have. -/
structure Dismissed (group : String) (opened : List (OpenIndex ListenerId))
    (before after : Node × List (Registration ListenerId)) : Prop where
  made : after.2 = before.2
  ordered : after.1.Ordered group
  strikes : ∃ gone, (∀ ticket ∈ gone, ticket ∈ before.2.map (·.ticket)) ∧
    Node.Strikes group gone before.1 after.1
  absent : ∀ registration ∈ (after.1.group group).registrations,
    registration.ticket ∉ before.2.map (·.ticket)
  closed : ∀ first ∈ opened, after.1.isIndexClosed first.handle = true

theorem exists_notice_eq (disk group : String) (opened : OpenIndex ListenerId)
    (failed : Option RegistryError) (world : Node × List (Registration ListenerId)) :
    ∃ lines, notice (tracking disk group) opened failed world =
      (world.1.report lines, world.2) := by
  cases failed with
  | none => exact ⟨[], by simp [notice, Node.report]⟩
  | some error => exact ⟨_, rfl⟩

/-- A node once an index is closed and deregistered, and what comes of that is logged. -/
def dismissed (group : String) (first : OpenIndex ListenerId) (lines : List LogLine)
    (node : Node) : Node :=
  ((node.closeIndex first.handle).deregister group first.index.chain first.index.name).2.report
    lines

theorem deals_dismissed (group : String) (first : OpenIndex ListenerId) (lines : List LogLine)
    (node : Node) : node.Deals group (dismissed group first lines node) :=
  (Node.Deals.of_group rfl).trans ((Node.deals_deregisterWithin _ group first.index.chain
    first.index.name (node.closeIndex first.handle)).trans (.of_group rfl))

/-- To dismiss an index closes it and strikes off its registration, if it still listens. -/
theorem Awaits.strikes {first : OpenIndex ListenerId} {rest : List (OpenIndex ListenerId)}
    (awaits : Awaits group (first :: rest) world) (lines : List LogLine) :
    ∃ gone, (∀ ticket ∈ gone, ticket ∈ world.2.map (·.ticket)) ∧
      Node.Strikes group gone world.1 (dismissed group first lines world.1) ∧
      (dismissed group first lines world.1).isIndexClosed first.handle = true ∧
      ∀ registration ∈ ((dismissed group first lines world.1).group group).registrations,
        ¬registration.isActiveAs first.index.chain first.index.name = true := by
  obtain ⟨own, known⟩ := awaits.indices first List.mem_cons_self
  have shut := Node.isIndexClosed_closeIndex known
  have closed : Node.Strikes group [] world.1 (world.1.closeIndex first.handle) :=
    .of_groups rfl (Node.keepsIndex_closeIndex world.1 first.handle) rfl
  have cases := (world.1.closeIndex first.handle).deregister_cases group first.index.chain
    first.index.name fun registration inside active => by
      have own := awaits.theirs first List.mem_cons_self registration inside active
      obtain ⟨hosted, listed⟩ := (awaits.own registration inside own).1
      obtain ⟨later, found, -⟩ := closed.keeps registration.listener hosted listed
      exact ⟨later, found⟩
  rcases cases with ⟨missing, same⟩ | ⟨struck, inside, active, strikes⟩
  · rw [dismissed, same]
    exact ⟨[], fun _ absent => absurd absent List.not_mem_nil, closed.report lines, shut, missing⟩
  · refine ⟨_, fun ticket gone => ?_, (closed.trans strikes).report lines,
      (strikes.keeps first.handle).isIndexClosed shut, fun registration stays also => ?_⟩
    · rw [List.mem_singleton.mp gone]
      exact awaits.theirs first List.mem_cons_self struck inside active
    · have left : registration ∈ _ := strikes.registrations ▸ stays
      obtain ⟨before, apart⟩ := List.mem_filter.mp left
      cases awaits.ordered.eq_of_active before inside also active
      simp at apart

theorem Awaits.dismiss {first : OpenIndex ListenerId} {rest : List (OpenIndex ListenerId)}
    (awaits : Awaits group (first :: rest) world) (lines : List LogLine) :
    Awaits group rest (dismissed group first lines world.1, world.2) ∧
      (dismissed group first lines world.1).isIndexClosed first.handle = true ∧
      ∃ gone, (∀ ticket ∈ gone, ticket ∈ world.2.map (·.ticket)) ∧
        Node.Strikes group gone world.1 (dismissed group first lines world.1) := by
  obtain ⟨gone, own, strikes, closed, silent⟩ := awaits.strikes lines
  have kept : ∀ registration ∈ ((dismissed group first lines world.1).group group).registrations,
      registration ∈ (world.1.group group).registrations := by
    intro registration stays
    rw [strikes.registrations] at stays
    exact (List.mem_filter.mp stays).1
  refine ⟨⟨?_, ?_, ?_, ?_⟩, closed, gone, own, strikes⟩
  · exact awaits.ordered.deals (deals_dismissed group first lines world.1)
  · intro registration stays mine
    obtain ⟨⟨hosted, listed⟩, other, inside, active⟩ :=
      awaits.own registration (kept registration stays) mine
    obtain ⟨later, found, -⟩ := strikes.keeps registration.listener hosted listed
    refine ⟨⟨later, found⟩, other, (List.mem_cons.mp inside).resolve_left ?_, active⟩
    rintro rfl
    exact silent registration stays active
  · intro other inside registration stays
    exact awaits.theirs other (List.mem_cons_of_mem _ inside) registration (kept registration stays)
  · intro other inside
    obtain ⟨hosted, listed⟩ := awaits.indices other (List.mem_cons_of_mem _ inside)
    obtain ⟨later, found, -⟩ := strikes.keeps other.handle hosted listed
    exact ⟨later, found⟩

theorem Awaits.dismissEach (awaits : Awaits group opened world) (disk : String) :
    Dismissed group opened world (dismissEach (tracking disk group) opened world).2 := by
  induction opened generalizing world with
  | nil =>
      refine ⟨rfl, awaits.ordered, ⟨[], fun _ absent => absurd absent List.not_mem_nil,
        .of_groups rfl (fun _ => .of_listener rfl) rfl⟩, fun registration inside own => ?_,
        fun _ absent => absurd absent List.not_mem_nil⟩
      obtain ⟨-, first, absent, -⟩ := awaits.own registration inside own
      exact List.not_mem_nil absent
  | cons first rest ih =>
      rw [dismissEach_cons]
      obtain ⟨lines, noticed⟩ := exists_notice_eq disk group first
        ((world.1.closeIndex first.handle).deregister group first.index.chain first.index.name).1
        (((world.1.closeIndex first.handle).deregister group first.index.chain
          first.index.name).2, world.2)
      obtain ⟨remaining, shut, gone, own, strikes⟩ := awaits.dismiss lines
      dsimp only [tracking, HostedIndexer.host] at noticed ⊢
      rw [noticed]
      obtain ⟨made, ordered, ⟨further, also, later⟩, absent, closed⟩ := ih remaining
      refine ⟨made, ordered, ⟨gone ++ further, fun ticket inside => ?_, strikes.trans later⟩,
        absent, ?_⟩
      · exact (List.mem_append.mp inside).elim (own ticket) (also ticket)
      · intro other inside
        rcases List.mem_cons.mp inside with rfl | deeper
        · exact (later.keeps other.handle).isIndexClosed shut
        · exact closed other deeper

/-- A registration is that of an index. -/
def Stands (first : OpenIndex ListenerId) (own : Registration ListenerId) : Prop :=
  first.handle = own.listener ∧ first.index.chain = own.chain ∧ first.index.name = own.name

/-- All that an open indexer has registered is registered still, and is what it has. -/
structure Keeps (group : String) (indexer : Indexer ListenerId)
    (world : Node × List (Registration ListenerId)) : Prop where
  ordered : world.1.Ordered group
  listed : ∀ own ∈ world.2, ∃ first ∈ indexer.opened, Stands first own
  known : ∀ first ∈ indexer.opened, ∃ own ∈ world.2, Stands first own
  registers : ∀ own ∈ world.2, world.1.Registers group own
  indices : ∀ own ∈ world.2, ∃ hosted, world.1.listeners[own.listener]? = some (.index hosted)
  numbered : ∀ own ∈ world.2, own.listener < world.1.nextListener

/-- Nothing that a closed indexer has registered is there, and its indices are closed. -/
structure Vacates (group : String) (world : Node × List (Registration ListenerId)) : Prop where
  ordered : world.1.Ordered group
  issued : ∀ own ∈ world.2, own.ticket < (world.1.group group).nextTicket
  absent : ∀ own ∈ world.2, ∀ registration ∈ (world.1.group group).registrations,
    registration.ticket ≠ own.ticket
  closed : ∀ own ∈ world.2, world.1.isIndexClosed own.listener = true

/-- What others have registered in a group. -/
def theirs (group : String) (world : Node × List (Registration ListenerId)) :
    List (Registration ListenerId) :=
  (world.1.group group).registrations.filter (·.ticket ∉ world.2.map (·.ticket))

/-- Whatever others have registered anywhere is as it was. -/
structure Spares (group : String) (before after : Node × List (Registration ListenerId)) :
    Prop where
  theirs : theirs group after = theirs group before
  elsewhere : ∀ other ≠ group, after.1.group other = before.1.group other

theorem Spares.trans {before middle after : Node × List (Registration ListenerId)}
    (first : Spares group before middle) (second : Spares group middle after) :
    Spares group before after where
  theirs := second.theirs.trans first.theirs
  elsewhere other apart := (second.elsewhere other apart).trans (first.elsewhere other apart)

theorem Spares.of_groups {before after : Node} {made : List (Registration ListenerId)}
    (groups : after.groups = before.groups) : Spares group (before, made) (after, made) where
  theirs := by simp [Indexer.theirs, Node.group, groups]
  elsewhere other _ := by simp [Node.group, groups]

theorem Keeps.minds {node : Node} (keeps : Keeps group indexer world)
    (minds : Node.Minds group world.2 world.1 node) : Keeps group indexer (node, world.2) where
  ordered := keeps.ordered.deals minds.deals
  listed := keeps.listed
  known := keeps.known
  registers own inside := minds.kept own inside (keeps.registers own inside)
  indices := by
    intro own inside
    obtain ⟨hosted, known⟩ := keeps.indices own inside
    obtain ⟨later, found, -⟩ := minds.indices own inside hosted known
    exact ⟨later, found⟩
  numbered own inside := (keeps.numbered own inside).trans_le minds.numbered

theorem Vacates.minds {node : Node} (vacates : Vacates group world)
    (minds : Node.Minds group world.2 world.1 node) : Vacates group (node, world.2) := by
  obtain ⟨reception, orderly, same⟩ := vacates.ordered
  obtain ⟨dealings, dealt⟩ := minds.deals
  have now := dealt reception orderly same
  have ended : ∀ own ∈ world.2, own.ticket ∈ reception.ended := fun own inside =>
    orderly.ended_of_absent (same ▸ vacates.issued own inside) (same ▸ vacates.absent own inside)
  refine ⟨⟨_, orderly.run dealings, now⟩, fun own inside => ?_, fun own inside => ?_,
    fun own inside => (minds.indices own inside).isIndexClosed (vacates.closed own inside)⟩
  · have later := orderly.run dealings
    have begun := later.ended _ ((orderly.follows_run dealings).ended (ended own inside))
    have next : (reception.run dealings).registry.nextTicket =
        (reception.run dealings).made.length := congrArg Registry.nextTicket later.roster
    rw [← now, next]
    exact later.issued _ begun
  · rw [← now]
    exact (orderly.silent (ended own inside) dealings).1

theorem Keeps.awaits (keeps : Keeps group indexer world) : Awaits group indexer.opened world where
  ordered := keeps.ordered
  own := by
    intro registration inside mine
    obtain ⟨own, made, ticket⟩ := List.mem_map.mp mine
    obtain ⟨other, held, same, listener, active⟩ := keeps.registers own made
    cases keeps.ordered.ticketed.eq_of_ticket held inside (same.trans ticket)
    obtain ⟨first, opened, -, chain, name⟩ := keeps.listed own made
    exact ⟨listener ▸ keeps.indices own made, first, opened, chain ▸ name ▸ active⟩
  theirs := by
    intro first opened registration inside active
    obtain ⟨own, made, -, chain, name⟩ := keeps.known first opened
    obtain ⟨other, held, same, -, also⟩ := keeps.registers own made
    rw [← chain, ← name] at also
    cases keeps.ordered.eq_of_active held inside also active
    exact same ▸ List.mem_map_of_mem made
  indices := by
    intro first opened
    obtain ⟨own, made, handle, -⟩ := keeps.known first opened
    exact handle ▸ keeps.indices own made

theorem Dismissed.vacates {after : Node × List (Registration ListenerId)}
    (dismissed : Dismissed group indexer.opened world after) (keeps : Keeps group indexer world) :
    Vacates group after := by
  obtain ⟨made, ordered, ⟨gone, -, strikes⟩, absent, closed⟩ := dismissed
  rw [← made] at absent
  refine ⟨ordered, fun own inside => ?_, fun own inside registration stays same => ?_,
    fun own inside => ?_⟩
  · obtain ⟨registration, registered, ticket, -⟩ := keeps.registers own (made ▸ inside)
    rw [strikes.nextTicket, ← ticket]
    exact keeps.ordered.ticketed.below registration registered
  · exact absent registration stays (same ▸ List.mem_map_of_mem inside)
  · obtain ⟨first, opened, handle, -⟩ := keeps.listed own (made ▸ inside)
    exact handle ▸ closed first opened

theorem Dismissed.spares {after : Node × List (Registration ListenerId)}
    (dismissed : Dismissed group opened world after) : Spares group world after := by
  obtain ⟨made, -, ⟨gone, own, strikes⟩, -, -⟩ := dismissed
  refine ⟨?_, strikes.elsewhere⟩
  rw [theirs, made, strikes.registrations, List.filter_filter, theirs]
  refine List.filter_congr fun registration _ => ?_
  rw [Bool.and_eq_left_iff_imp, decide_eq_true_iff, decide_eq_true_iff]
  exact mt (own registration.ticket)

theorem Keeps.close (keeps : Keeps group indexer world) (disk : String)
    (opened : indexer.isClosed = false) :
    let result := indexer.close (tracking disk group) world
    result.2.1 = { indexer with isClosed := true, indices := ∅ } ∧ result.2.2.2 = world.2 ∧
      Vacates group result.2.2 ∧ Spares group world result.2.2 := by
  have dismissed := keeps.awaits.dismissEach disk
  rw [Indexer.close, opened, if_neg Bool.false_ne_true]
  exact ⟨rfl, dismissed.made, dismissed.vacates keeps, dismissed.spares⟩

section Register

theorem mem_opened {ι : Type} {indexer : Indexer ι} {first : OpenIndex ι} :
    first ∈ indexer.opened ↔ ∃ chain, first ∈ indexer.indices.getD chain [] := by
  simp only [Indexer.opened, List.mem_flatMap, Prod.exists,
    Std.ExtTreeMap.mem_toList_iff_getElem?_eq_some, Std.ExtTreeMap.getD_eq_getD_getElem?]
  constructor
  · rintro ⟨chain, listed, found, inside⟩
    exact ⟨chain, by rwa [found]⟩
  · rintro ⟨chain, inside⟩
    cases found : indexer.indices[chain]? with
    | none => simp [found] at inside
    | some listed => exact ⟨chain, listed, found, by simpa [found] using inside⟩

def grow {ι : Type} (indexer : Indexer ι) (chain : ChainId) (new : OpenIndex ι) : Indexer ι :=
  { indexer with
    indices := indexer.indices.insert chain (indexer.indices.getD chain [] ++ [new]) }

theorem mem_opened_grow {ι : Type} {indexer : Indexer ι} {chain : ChainId}
    {first new : OpenIndex ι} :
    first ∈ (indexer.grow chain new).opened ↔ first ∈ indexer.opened ∨ first = new := by
  simp only [mem_opened, grow, Std.ExtTreeMap.getD_insert]
  constructor
  · rintro ⟨other, inside⟩
    split at inside
    · exact (List.mem_append.mp inside).imp (fun old => ⟨chain, old⟩) List.mem_singleton.mp
    · exact .inl ⟨other, inside⟩
  · rintro (⟨other, inside⟩ | rfl)
    · refine ⟨other, ?_⟩
      split
      · rename_i same
        rw [Std.LawfulEqOrd.eq_of_compare same]
        exact List.mem_append_left _ inside
      · exact inside
    · exact ⟨chain, by simp⟩

theorem Keeps.report (keeps : Keeps group indexer world) (disk : String) (line : LogLine) :
    Keeps group indexer ((tracking disk group).report line world) :=
  keeps.minds (.of_disks world.1.disks _)

theorem Spares.report (disk group : String) (line : LogLine)
    (world : Node × List (Registration ListenerId)) :
    Spares group world ((tracking disk group).report line world) :=
  .of_groups rfl

theorem Keeps.write (keeps : Keeps group indexer world) {wanted : Bool} {batch : Batch}
    {after : Node × List (Registration ListenerId)}
    (done : writeIf (tracking disk group) wanted batch world = .ok after) :
    Keeps group indexer after ∧ Spares group world after := by
  have same : ∃ disks, after = ({ world.1 with disks }, world.2) := by
    cases wanted with
    | false =>
        cases done
        exact ⟨_, rfl⟩
    | true =>
        dsimp only [writeIf, tracking, HostedIndexer.host] at done
        cases wrote : world.1.write disk batch with
        | error error => simp [wrote, Except.map] at done
        | ok node =>
            obtain ⟨disks, rfl⟩ := Node.exists_eq_of_write wrote
            simp only [wrote, if_true, Except.map, Except.ok.injEq] at done
            exact ⟨disks, done.symm⟩
  obtain ⟨disks, rfl⟩ := same
  exact ⟨keeps.minds (.of_disks disks world.1.log), .of_groups rfl⟩

/-- A node with one listener more, which is an index on a disk. -/
def withIndex (disk : String) (index : Index) (node : Node) : Node :=
  (node.addListener fun _ => .index { index, disk }).2

/-- An index has been added to a node and registered. -/
structure Joins (group : String) (index : Index) (before after : Node) : Prop where
  deals : before.Deals group after
  registrations : (after.group group).registrations =
    (before.group group).registrations ++ [entry group index before.nextListener before]
  elsewhere : ∀ other ≠ group, after.group other = before.group other
  listeners : ∀ id < before.nextListener, after.listeners[id]? = before.listeners[id]?
  added : ∃ hosted, after.listeners[before.nextListener]? = some (.index hosted)
  nextListener : after.nextListener = before.nextListener + 1

theorem enlist_eq (disk group : String) (index : Index) (node : Node) :
    (host disk group).enlist index node =
      ((withIndex disk index node).register group index.chain index.name node.nextListener
        false).map (Except.map fun _ => node.nextListener) id := by
  dsimp only [host, withIndex, Node.addListener]
  generalize Node.register _ group index.chain index.name node.nextListener false = result
  obtain ⟨answer, after⟩ := result
  cases answer <;> rfl

/-- To register an index either fails, and then it is there but not registered, or registers it. -/
theorem enlist_cases (disk group : String) (index : Index) (node : Node) :
    (∃ error, (host disk group).enlist index node = (.error error, withIndex disk index node)) ∨
    ∃ after, (host disk group).enlist index node = (.ok node.nextListener, after) ∧
      Joins group index node after := by
  have same : (withIndex disk index node).group group = node.group group := rfl
  have grown : node.Deals group (withIndex disk index node) := .of_group rfl
  have deals := grown.trans
    (Node.deals_register group index.chain index.name node.nextListener false)
  rw [Node.register, same] at deals
  rw [enlist_eq, Node.register, same]
  cases done : (node.group group).register index.chain index.name node.nextListener false with
  | error error => exact .inl ⟨error, rfl⟩
  | ok registry =>
      rw [done] at deals
      have grouped := Node.group_setGroup (withIndex disk index node) group
      refine .inr ⟨_, rfl, deals, ?_, fun other apart => ?_, fun id earlier => ?_, ?_, rfl⟩
      · have here := (grouped group registry).trans (if_pos rfl)
        exact congrArg Registry.registrations (here.trans (Registry.eq_of_register done))
      · exact (grouped other registry).trans (if_neg (Ne.symm apart))
      · have apart : node.nextListener ≠ id := Nat.ne_of_gt earlier
        simp [withIndex, Node.addListener, Node.report, Node.setGroup,
          Std.ExtTreeMap.getElem?_insert, apart]
      · exact ⟨{ index, disk }, by simp [withIndex, Node.addListener, Node.report, Node.setGroup]⟩

section Joins

variable {index : Index} {node after : Node} {made : List (Registration ListenerId)}

theorem Joins.keeps (joins : Joins group index node after)
    (keeps : Keeps group indexer (node, made)) :
    Keeps group (indexer.grow index.chain { index, handle := node.nextListener })
      (after, made ++ [entry group index node.nextListener node]) where
  ordered := keeps.ordered.deals joins.deals
  listed := by
    intro own inside
    rcases List.mem_append.mp inside with old | new
    · obtain ⟨first, opened, stands⟩ := keeps.listed own old
      exact ⟨first, mem_opened_grow.mpr (.inl opened), stands⟩
    · obtain rfl := List.mem_singleton.mp new
      exact ⟨_, mem_opened_grow.mpr (.inr rfl), rfl, rfl, rfl⟩
  known := by
    intro first inside
    rcases mem_opened_grow.mp inside with old | rfl
    · obtain ⟨own, inside, stands⟩ := keeps.known first old
      exact ⟨own, List.mem_append_left _ inside, stands⟩
    · exact ⟨_, List.mem_append_right _ List.mem_cons_self, rfl, rfl, rfl⟩
  registers := by
    intro own inside
    rcases List.mem_append.mp inside with old | new
    · obtain ⟨registration, registered, rest⟩ := keeps.registers own old
      exact ⟨registration, joins.registrations ▸ List.mem_append_left _ registered, rest⟩
    · obtain rfl := List.mem_singleton.mp new
      refine ⟨_, joins.registrations ▸ List.mem_append_right _ List.mem_cons_self, rfl, rfl, ?_⟩
      simp [Registration.isActiveAs, Registration.isActiveOn, entry]
  indices := by
    intro own inside
    rcases List.mem_append.mp inside with old | new
    · obtain ⟨hosted, known⟩ := keeps.indices own old
      exact ⟨hosted, (joins.listeners _ (keeps.numbered own old)).trans known⟩
    · obtain rfl := List.mem_singleton.mp new
      exact joins.added
  numbered := by
    intro own inside
    have grown : after.nextListener = node.nextListener + 1 := joins.nextListener
    rcases List.mem_append.mp inside with old | new
    · exact grown ▸ Nat.lt_succ_of_lt (keeps.numbered own old)
    · obtain rfl := List.mem_singleton.mp new
      exact grown ▸ Nat.lt_succ_self _

theorem Joins.spares (joins : Joins group index node after)
    (keeps : Keeps group indexer (node, made)) :
    Spares group (node, made) (after, made ++ [entry group index node.nextListener node]) := by
  refine ⟨?_, joins.elsewhere⟩
  have older : (node.group group).registrations.filter (fun registration => registration.ticket ∉
      (made ++ [entry group index node.nextListener node]).map (·.ticket)) =
        theirs group (node, made) := by
    refine List.filter_congr fun registration inside => ?_
    have below := keeps.ordered.ticketed.below registration inside
    simp [entry, Nat.ne_of_lt below]
  rw [theirs, joins.registrations, List.filter_append, older, List.filter_eq_nil_iff.mpr,
    List.append_nil]
  intro registration new
  rw [List.mem_singleton.mp new]
  simp

end Joins

theorem Keeps.enlist (keeps : Keeps group indexer world) (disk : String) (index : Index) :
    let result := (tracking disk group).enlist index world
    Spares group world result.2 ∧
      match result.1 with
      | .error _ => Keeps group indexer result.2
      | .ok handle => Keeps group (indexer.grow index.chain { index, handle }) result.2 := by
  obtain ⟨node, made⟩ := world
  have minds : node.Minds group made (withIndex disk index node) :=
    Node.minds_addListener keeps.numbered _
  dsimp only [tracking]
  rcases enlist_cases disk group index node with ⟨error, failed⟩ | ⟨after, done, joins⟩
  · rw [failed]
    exact ⟨.of_groups rfl, keeps.minds minds⟩
  · rw [done]
    exact ⟨joins.spares keeps, joins.keeps keeps⟩

/-- What registering indices leaves of an indexer that was open: it keeps what it has registered,
and whatever others have registered is there. -/
theorem Keeps.enlistEach (keeps : Keeps group indexer world) (disk name : String)
    (chain : ChainId) (wanted : List Contents) :
    let result := enlistEach (tracking disk group) name chain wanted indexer world
    result.2.1.isClosed = indexer.isClosed ∧ Keeps group result.2.1 result.2.2 ∧
      Spares group world result.2.2 := by
  induction wanted generalizing indexer world with
  | nil => exact ⟨rfl, keeps, rfl, fun _ _ => rfl⟩
  | cons contents rest ih =>
      have enlisted := keeps.enlist disk { chain, contents }
      rw [Indexer.enlistEach]
      dsimp only at enlisted ⊢
      generalize (tracking disk group).enlist { chain, contents } world = result at enlisted ⊢
      obtain ⟨answer, after⟩ := result
      obtain ⟨spares, kept⟩ := enlisted
      cases answer with
      | error error => exact ⟨rfl, kept, spares⟩
      | ok handle =>
          obtain ⟨same, keeps, further⟩ := ih (kept.report disk _)
          exact ⟨same, keeps, spares.trans ((Spares.report disk group _ _).trans further)⟩

theorem Keeps.takeIn (keeps : Keeps group indexer world) (disk name : String) (chain : ChainId)
    (flavor : Flavor) :
    let result := indexer.takeIn (tracking disk group) name chain flavor world
    result.2.1.isClosed = indexer.isClosed ∧ Keeps group result.2.1 result.2.2 ∧
      Spares group world result.2.2 := by
  have stays : indexer.isClosed = indexer.isClosed ∧ Keeps group indexer world ∧
      Spares group world world := ⟨rfl, keeps, rfl, fun _ _ => rfl⟩
  dsimp only [Indexer.takeIn]
  split
  · exact stays
  · split
    · exact stays
    · rename_i written wrote
      obtain ⟨kept, spares⟩ := keeps.write wrote
      exact ⟨rfl, kept.report disk _, spares.trans (Spares.report disk group _ _)⟩
  · split
    · exact stays
    · rename_i written wrote
      obtain ⟨kept, spares⟩ := keeps.write wrote
      obtain ⟨same, further, also⟩ := kept.enlistEach disk name chain (contentsOf flavor)
      exact ⟨same, further, spares.trans also⟩

theorem Keeps.giveUp (keeps : Keeps group indexer world) (opened : indexer.isClosed = false)
    (disk name : String) (error : IndexerError) :
    let result := indexer.giveUp (tracking disk group) name error world
    result.1 = .error error ∧ result.2.1.isClosed = true ∧ result.2.1.indices = ∅ ∧
      Vacates group result.2.2 ∧ Spares group world result.2.2 := by
  dsimp only [Indexer.giveUp]
  have closing := (keeps.report disk
    (.error s!"failed to register chain {name} to indexer: {error.message}")).close disk opened
  dsimp only at closing
  generalize indexer.close (tracking disk group) ((tracking disk group).report
    (.error s!"failed to register chain {name} to indexer: {error.message}") world) = result
      at closing ⊢
  obtain ⟨answer, closed, final⟩ := result
  obtain ⟨rfl, -, vacates, spares⟩ := closing
  have whole := (Spares.report disk group _ _).trans spares
  cases answer with
  | ok done => exact ⟨rfl, rfl, rfl, vacates, whole⟩
  | error problem =>
      exact ⟨rfl, rfl, rfl, vacates.minds (.of_disks _ _),
        whole.trans (Spares.report disk group _ _)⟩

/-- What registering a chain leaves of an indexer that was open.  If it fails, the indexer is
closed, and nothing that it has registered is left. -/
theorem Keeps.register (keeps : Keeps group indexer world) (opened : indexer.isClosed = false)
    (disk name : String) (chain : ChainId) (flavor : Flavor) :
    let result := indexer.register (tracking disk group) name chain flavor world
    Spares group world result.2.2 ∧
      match result.1 with
      | .ok () => result.2.1.isClosed = false ∧ Keeps group result.2.1 result.2.2
      | .error _ => result.2.1.isClosed = true ∧ result.2.1.indices = ∅ ∧
        Vacates group result.2.2 := by
  by_cases known : chain ∈ indexer.indices
  · rw [Indexer.register, opened, if_neg Bool.false_ne_true, if_pos known]
    exact ⟨Spares.report disk group _ _, opened, keeps.report disk _⟩
  · rw [register_eq _ _ _ _ _ _ opened known]
    have taken := keeps.takeIn disk name chain flavor
    dsimp only at taken ⊢
    generalize indexer.takeIn (tracking disk group) name chain flavor world = result at taken ⊢
    obtain ⟨answer, admitted, after⟩ := result
    obtain ⟨same, kept, spares⟩ := taken
    cases answer with
    | ok done => exact ⟨spares, same.trans opened, kept⟩
    | error error =>
        obtain ⟨answer, closed, empty, vacates, further⟩ :=
          kept.giveUp (same.trans opened) disk name error
        dsimp only
        rw [answer]
        exact ⟨spares.trans further, closed, empty, vacates⟩

end Register

end Indexer

end DecisionLedger
