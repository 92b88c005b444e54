import DecisionLedger.Proofs.Discipline
import DecisionLedger.Proofs.NodeGroups
import Mathlib.Algebra.GroupWithZero.Nat

/-! # Deregistrations on a node

A listener of a node may have others registered, deregistered and notified while it cleans up after
its own deregistration.  However deep that goes, all that is done at a group is to begin and end
deregistrations, to register and to notify, and every deregistration that begins comes to its end.
-/

namespace DecisionLedger

namespace Node

/-- Whatever came before at a listener group of a node, there is a way to deal with it that makes of
it what it becomes. -/
def Deals (group : String) (before after : Node) : Prop :=
  ∃ dealings : List (Dealing ListenerId Node), ∀ reception : Reception ListenerId Node,
    reception.Orderly → reception.registry = before.group group →
    (reception.run dealings).registry = after.group group

section Deals

variable {group : String} {node before middle after : Node}

theorem Deals.of_group (same : after.group group = before.group group) :
    Deals group before after :=
  ⟨[], fun _ _ registry => registry.trans same.symm⟩

theorem Deals.trans (first : Deals group before middle) (second : Deals group middle after) :
    Deals group before after := by
  obtain ⟨dealings, earlier⟩ := first
  obtain ⟨further, later⟩ := second
  refine ⟨dealings ++ further, fun reception orderly same => ?_⟩
  rw [Reception.run_append]
  exact later _ (orderly.run dealings) (earlier reception orderly same)

theorem deals_register (name : String) (chain : ChainId) (listener : String) (id : ListenerId)
    (tolerateDraining : Bool) :
    Deals group node (node.register name chain listener id tolerateDraining).2 := by
  unfold register
  cases done : (node.group name).register chain listener id tolerateDraining with
  | error error => exact .of_group rfl
  | ok registry =>
      have grouped := group_setGroup node name group registry
      by_cases same : name = group
      · subst same
        refine ⟨[.register chain listener id tolerateDraining], fun reception _ here => ?_⟩
        rw [if_pos rfl] at grouped
        dsimp only [Reception.run, List.foldl, Reception.deal]
        rw [here, done]
        exact grouped.symm
      · rw [if_neg same] at grouped
        exact .of_group grouped

theorem deals_notify (name : String) (chain : ChainId) (unit : DecisionUnit)
    (acceptedAt : Instant) : Deals group node (node.notify name chain unit acceptedAt).2 := by
  have untouched := notifyEach_apart acceptedAt chain unit (node.group name).registrations node
  have grouped : (node.notify name chain unit acceptedAt).2.group group =
      if name = group then ((node.group name).notify (listening acceptedAt) chain unit node).2.1
      else (Registry.notifyEach (listening acceptedAt) chain unit (node.group name).registrations
        node).2.2.group group := group_setGroup _ name group _
  by_cases same : name = group
  · subst same
    rw [if_pos rfl] at grouped
    -- the notification finds the world as it is then
    refine ⟨[.drift fun _ => node, .notify (listening acceptedAt) chain unit],
      fun reception _ here => ?_⟩
    dsimp only [Reception.run, List.foldl, Reception.deal]
    rw [here]
    exact grouped.symm
  · rw [if_neg same] at grouped
    exact .of_group (grouped.trans (congrArg (·.getD group .empty) untouched.1))

theorem deals_act
    (deregister : String → ChainId → String → Node → Option RegistryError × Node)
    (deals : ∀ name chain listener node,
      Deals group node (deregister name chain listener node).2)
    (probe : Probe) (action : ProbeAction) (node : Node) :
    Deals group node (act deregister probe node action).2 := by
  cases action with
  | list => exact .of_group rfl
  | notify =>
      have told : Deals group node (node.notify probe.group probe.chain .genesis node.clock).2 :=
        deals_notify _ _ _ _
      dsimp only [act]
      split <;> (rename_i outcome; rwa [outcome] at told)
  | register name tolerateDraining =>
      have grown : Deals group node (node.addListener fun _ => .probe { probe with
          failure := none, action := some .list, cleanupFailure := none }).2 := .of_group rfl
      have joined := grown.trans
        (deals_register probe.group probe.chain name node.nextListener tolerateDraining)
      dsimp only [act]
      dsimp only [addListener] at joined ⊢
      split <;> (rename_i outcome; rwa [outcome] at joined)
  | deregister name =>
      have gone := deals probe.group probe.chain name node
      dsimp only [act]
      split <;> (rename_i outcome; rwa [outcome] at gone)

theorem deals_cleanUp
    (deregister : String → ChainId → String → Node → Option RegistryError × Node)
    (deals : ∀ name chain listener node,
      Deals group node (deregister name chain listener node).2)
    (id : ListenerId) (node : Node) : Deals group node (cleanUp deregister id node).2 := by
  unfold cleanUp
  split
  · exact .of_group rfl
  · exact .of_group rfl
  · split
    · exact .of_group rfl
    · exact (deals_act deregister deals _ _ node).trans (.of_group rfl)

/-- Between the beginning and the end of a deregistration there is only its clean-up. -/
theorem exists_cleaning
    (deregister : String → ChainId → String → Node → Option RegistryError × Node)
    (deals : ∀ name chain listener node,
      Deals group node (deregister name chain listener node).2)
    {chain : ChainId} {listener : String} {found : Registration ListenerId}
    {draining : Registry ListenerId}
    (drained : (node.group group).drain chain listener = .ok (found, draining)) :
    ∃ cleaning : List (Dealing ListenerId Node), ∀ reception : Reception ListenerId Node,
      reception.Orderly → reception.registry = node.group group →
      (reception.run (.drain chain listener :: cleaning ++ [.finish found.ticket])).registry =
        ((cleanUp deregister found.listener (node.setGroup group draining)).2.group group).remove
          found.ticket := by
  obtain ⟨cleaning, cleaned⟩ :=
    deals_cleanUp deregister deals found.listener (node.setGroup group draining)
  refine ⟨cleaning, fun reception orderly same => ?_⟩
  rw [List.cons_append, Reception.run_cons, Reception.run_append]
  have started := orderly.deal (.drain chain listener)
  have began : (reception.deal (.drain chain listener)).registry = draining ∧
      found.ticket ∈ (reception.deal (.drain chain listener)).begun := by
    dsimp only [Reception.deal]
    rw [same, drained]
    exact ⟨rfl, List.mem_append_right _ List.mem_cons_self⟩
  have grouped := group_setGroup node group group draining
  rw [if_pos rfl] at grouped
  have rest := cleaned _ started (began.1.trans grouped.symm)
  have begun := (started.follows_run cleaning).begun began.2
  rw [Reception.run_cons, Reception.deal_finish begun, ← rest]
  rfl

theorem deals_deregisterWithin (depth : Nat) (name : String) (chain : ChainId) (listener : String)
    (node : Node) : Deals group node (deregisterWithin depth name chain listener node).2 := by
  induction depth generalizing name chain listener node with
  | zero => exact .of_group rfl
  | succ depth ih =>
      rw [deregisterWithin]
      cases drained : (node.group name).drain chain listener with
      | error error => exact .of_group rfl
      | ok result =>
          obtain ⟨found, draining⟩ := result
          dsimp only
          have grouped := group_setGroup
            (cleanUp (deregisterWithin depth) found.listener (node.setGroup name draining)).2 name
            group (((cleanUp (deregisterWithin depth) found.listener
              (node.setGroup name draining)).2.group name).remove found.ticket)
          by_cases same : name = group
          · subst same
            obtain ⟨cleaning, ended⟩ := exists_cleaning (deregisterWithin depth) ih drained
            rw [if_pos rfl] at grouped
            exact ⟨_, fun reception orderly here =>
              (ended reception orderly here).trans grouped.symm⟩
          · -- a deregistration in another group does to this one what its clean-up does
            rw [if_neg same] at grouped
            have untouched := group_setGroup node name group draining
            rw [if_neg same] at untouched
            exact (Deals.of_group untouched).trans
              ((deals_cleanUp (deregisterWithin depth) ih _ _).trans (.of_group grouped))

end Deals

section Depth

variable {node : Node} {group : String} {chain : ChainId} {name : String}
  {found : Registration ListenerId} {registry draining : Registry ListenerId}

theorem activeCount_lt_of_drain (drained : registry.drain chain name = .ok (found, draining)) :
    draining.activeCount < registry.activeCount := by
  obtain ⟨known, rfl⟩ := Registry.eq_of_drain drained
  have active := List.find?_some known
  simp only [Registration.isActiveAs, Registration.isActiveOn, Bool.and_eq_true] at active
  obtain ⟨front, back, split⟩ := List.append_of_mem (List.mem_of_find?_eq_some known)
  have fewer (registrations : List (Registration ListenerId)) :
      (registrations.map fun other => if other.ticket = found.ticket then
        { other with draining := true } else other).countP (!·.draining) ≤
          registrations.countP (!·.draining) := by
    rw [List.countP_map]
    refine List.countP_mono_left fun other _ stays => ?_
    dsimp only [Function.comp] at stays
    split at stays
    · cases stays
    · exact stays
  have before := fewer front
  have after := fewer back
  simp [Registry.activeCount, split, active] at before after ⊢
  omega

theorem toList_insert_perm (groups : Std.ExtTreeMap String (Registry ListenerId)) (group : String)
    (registry : Registry ListenerId) :
    (groups.insert group registry).toList.Perm
      ((group, registry) :: (groups.erase group).toList) := by
  have once (groups : Std.ExtTreeMap String (Registry ListenerId)) : groups.toList.Nodup :=
    Std.ExtTreeMap.distinct_keys_toList.imp fun apart same => by
      subst same
      exact apart Std.ReflCmp.compare_self
  have outside : (group, registry) ∉ (groups.erase group).toList := by
    simp [Std.ExtTreeMap.mem_toList_iff_getElem?_eq_some]
  rw [List.perm_ext_iff_of_nodup (once _) (List.nodup_cons.mpr ⟨outside, once _⟩)]
  rintro ⟨name, own⟩
  rw [List.mem_cons, Std.ExtTreeMap.mem_toList_iff_getElem?_eq_some,
    Std.ExtTreeMap.mem_toList_iff_getElem?_eq_some, Std.ExtTreeMap.getElem?_insert,
    Std.ExtTreeMap.getElem?_erase]
  by_cases same : group = name
  · simp [same, eq_comm]
  · simp [same, Ne.symm same]

theorem activeCount_eq (node : Node) :
    node.activeCount = (node.groups.toList.map (·.2.activeCount)).sum := by
  rw [activeCount, List.sum_eq_foldl, List.foldl_map]

theorem activeCount_setGroup
    (drained : (node.group group).drain chain name = .ok (found, draining)) :
    (node.setGroup group draining).activeCount < node.activeCount := by
  have fewer := activeCount_lt_of_drain drained
  have here : node.groups[group]? = some (node.group group) := by
    rw [Node.group, Std.ExtTreeMap.getD_eq_getD_getElem?] at fewer ⊢
    cases known : node.groups[group]? with
    | none =>
        rw [known] at fewer
        exact absurd fewer (Nat.not_lt_zero _)
    | some registry => rfl
  have whole : node.groups.insert group (node.group group) = node.groups := by
    ext name own
    rw [Std.ExtTreeMap.getElem?_insert]
    by_cases same : group = name
    · subst same
      simp [here]
    · simp [same]
  have before := ((toList_insert_perm node.groups group (node.group group)).map
    (·.2.activeCount)).sum_nat
  have after := ((toList_insert_perm node.groups group draining).map (·.2.activeCount)).sum_nat
  rw [whole] at before
  simp only [List.map_cons, List.sum_cons] at before after
  rw [activeCount_eq, activeCount_eq, before, setGroup, after]
  omega

/-- More depth than there are active listeners makes no difference. -/
theorem deregisterWithin_eq (depth other : Nat) (group : String) (chain : ChainId) (name : String)
    (node : Node) (enough : node.activeCount < depth) (also : node.activeCount < other) :
    deregisterWithin depth group chain name node =
      deregisterWithin other group chain name node := by
  induction depth generalizing other group chain name node with
  | zero => exact absurd enough (Nat.not_lt_zero _)
  | succ depth ih =>
      obtain ⟨other, rfl⟩ := Nat.exists_eq_succ_of_ne_zero (Nat.ne_zero_of_lt also)
      rw [deregisterWithin, deregisterWithin]
      cases drained : (node.group group).drain chain name with
      | error error => rfl
      | ok result =>
          obtain ⟨found, draining⟩ := result
          have fewer := activeCount_setGroup drained
          have deeper (name : String) (chain : ChainId) (listener : String) :
              deregisterWithin depth name chain listener (node.setGroup group draining) =
                deregisterWithin other name chain listener (node.setGroup group draining) :=
            ih other name chain listener _ (by omega) (by omega)
          have cleaned : cleanUp (deregisterWithin depth) found.listener
              (node.setGroup group draining) = cleanUp (deregisterWithin other) found.listener
                (node.setGroup group draining) := by
            unfold cleanUp
            split
            · rfl
            · rfl
            · split
              · rfl
              · rename_i action _
                cases action <;> simp only [act, deeper]
          dsimp only
          rw [cleaned]

end Depth

/-- What a deregistration comes to. -/
inductive Deregisters (node : Node) (group : String) (chain : ChainId) (name : String) :
    Option RegistryError × Node → Prop where
  | missing : (node.group group).drain chain name = .error (.notFound chain name) →
      Deregisters node group chain name (some (.notFound chain name), node)
  /-- The registration begins to drain, its listener cleans up, and whatever comes of that, the
  registration is gone. -/
  | ended {found : Registration ListenerId} {draining : Registry ListenerId}
      {failed : Option AcceptError} {after : Node}
      (cleaning : List (Dealing ListenerId Node)) :
      (node.group group).drain chain name = .ok (found, draining) →
      (∀ reception : Reception ListenerId Node, reception.Orderly →
        reception.registry = node.group group →
        (reception.run (.drain chain name :: cleaning ++ [.finish found.ticket])).registry =
          after.group group) →
      (∀ registration ∈ (after.group group).registrations,
        registration.ticket ≠ found.ticket) →
      Deregisters node group chain name (failed.map (.cleanup chain name), after)

theorem deregisters (node : Node) (group : String) (chain : ChainId) (name : String) :
    node.Deregisters group chain name (node.deregister group chain name) := by
  rw [deregister, deregisterWithin]
  cases drained : (node.group group).drain chain name with
  | error error =>
      have missing : error = .notFound chain name := by
        unfold Registry.drain at drained
        split at drained <;> cases drained
        rfl
      subst missing
      exact .missing drained
  | ok result =>
      obtain ⟨found, draining⟩ := result
      obtain ⟨cleaning, ended⟩ := exists_cleaning (deregisterWithin node.activeCount)
        (fun name chain listener node => deals_deregisterWithin _ name chain listener node) drained
      dsimp only
      have grouped := group_setGroup (cleanUp (deregisterWithin node.activeCount) found.listener
        (node.setGroup group draining)).2 group group (((cleanUp (deregisterWithin node.activeCount)
          found.listener (node.setGroup group draining)).2.group group).remove found.ticket)
      rw [if_pos rfl] at grouped
      refine .ended cleaning drained (fun reception orderly here =>
        (ended reception orderly here).trans grouped.symm) fun registration inside => ?_
      have kept : registration ∈ (Registry.remove _ found.ticket).registrations := grouped ▸ inside
      exact of_decide_eq_true (List.mem_filter.mp kept).2

end Node

/-- Whatever is done at a registry, it keeps order; and to deregister a listener of a node is to do
such things, and to come to an end, however deep the clean-ups go. -/
theorem Registry.discipline :
    (∀ {ℓ ω : Type} (world : ω) (dealings : List (Dealing ℓ ω)),
      ((Reception.opening world).run dealings).Disciplined) ∧
    ∀ (node : Node) (group : String) (chain : ChainId) (name : String),
      node.Deregisters group chain name (node.deregister group chain name) ∧
        ∀ depth, node.activeCount < depth →
          node.deregister group chain name = Node.deregisterWithin depth group chain name node := by
  refine ⟨fun world dealings => ((Reception.orderly_opening world).run dealings).disciplined,
    fun node group chain name => ⟨node.deregisters group chain name, fun depth enough => ?_⟩⟩
  exact Node.deregisterWithin_eq _ depth group chain name node (Nat.lt_succ_self _) enough

end DecisionLedger
