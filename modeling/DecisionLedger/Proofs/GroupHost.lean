import DecisionLedger.Proofs.Audience
import DecisionLedger.Proofs.Observation

/-! # Hosts with a listener group

A host delivers accepted units to the listeners that are registered with it.  To watch it, every
listener is made to note the calls of it.
-/

namespace DecisionLedger

/-- A host whose units go to the listeners of a group in its world, and which touches the group for
nothing else. -/
structure GroupHost (ℓ ω : Type) extends LawfulHost ω where
  group : ω → Registry ℓ
  /-- How the listeners act, given the world in which they are notified. -/
  listening : ω → Listening ℓ ω
  /-- Put the group back after a notification. -/
  regroup : ChainId → Option NotifyError → Registry ℓ → ω → ω
  deliver_eq : ∀ chain unit world, deliver chain unit world =
    let (failed, registry, after) := (group world).notify (listening world) chain unit world
    (failed, regroup chain failed registry after)
  group_regroup : ∀ chain failed registry world,
    group (regroup chain failed registry world) = registry
  group_write : ∀ {batch world after}, write batch world = .ok after → group after = group world
  group_publish : ∀ event world, group (publish event world) = group world

namespace GroupHost

variable {ℓ ω : Type} (host : GroupHost ℓ ω)

theorem roster_deliver (chain : ChainId) (unit : DecisionUnit) (world : ω) :
    (host.group (host.deliver chain unit world).2).roster = (host.group world).roster := by
  rw [host.deliver_eq]
  dsimp only
  rw [host.group_regroup, Registry.roster_notify]

def audit : Observer host.toLawfulHost (List Hearing) where
  watched := {
    store := fun world => host.store world.1
    write := fun batch world =>
      match host.write batch world.1 with
      | .ok after => .ok (after, world.2)
      | .error problem => .error problem
    deliver := fun chain unit world =>
      let (failed, registry, after) :=
        (host.group world.1).tagged.notify (host.listening world.1).recording chain unit world
      (failed, host.regroup chain failed registry.untagged after.1, after.2)
    publish := fun event world => (host.publish event world.1, world.2) }
  store_eq _ := rfl
  write_eq batch world := by
    cases done : host.write batch world.1 with
    | error problem => simp [done, Except.map]
    | ok after => simp [done, Except.map]
  deliver_eq chain unit world := by
    obtain ⟨world, heard⟩ := world
    dsimp only
    rw [Registry.notify_recording, host.deliver_eq]
    simp
  publish_eq _ _ := rfl

theorem audit_deliver (chain : ChainId) (unit : DecisionUnit) (world : ω × List Hearing) :
    (host.audit.watched.deliver chain unit world).2.2 =
      world.2 ++ (host.group world.1).calls chain unit := by
  dsimp only [audit]
  rw [Registry.notify_recording]

theorem audit_deliverAll (chain : ChainId) (units : List DecisionUnit)
    (world : ω × List Hearing) :
    (host.audit.watched.deliverAll chain units world).2.2 =
      world.2 ++ units.flatMap ((host.group world.1).calls chain) := by
  induction units generalizing world with
  | nil => simp [Host.deliverAll]
  | cons unit rest ih =>
      have roster : (host.group (host.audit.watched.deliver chain unit world).2.1).roster =
          (host.group world.1).roster := by
        rw [Observer.fst_deliver]
        exact host.roster_deliver chain unit world.1
      have later := ih (host.audit.watched.deliver chain unit world).2
      rw [Registry.calls_of_roster roster, audit_deliver, List.append_assoc] at later
      exact later

theorem audit_notesDeliveries : host.audit.NotesDeliveries where
  write := by
    intro batch world after done
    dsimp only [audit] at done
    split at done <;> cases done
    rfl
  publish _ _ := rfl

section Observer

variable {host} {τ : Type} {observer : Observer host.toLawfulHost τ}

theorem publishAll_observed (notes : observer.NotesDeliveries) (events : List Event)
    (world : ω × τ) :
    let final := observer.watched.publishAll events world
    final.2 = world.2 ∧ host.group final.1 = host.group world.1 := by
  induction events generalizing world with
  | nil => exact ⟨rfl, rfl⟩
  | cons event rest ih =>
      obtain ⟨silent, still⟩ := ih (observer.watched.publish event world)
      have group := host.group_publish event world.1
      rw [← observer.publish_eq] at group
      exact ⟨silent.trans (notes.publish event world), still.trans group⟩

theorem written_observed (notes : observer.NotesDeliveries) {batch : Batch}
    {world written : ω × τ} (wrote : observer.watched.write batch world = .ok written)
    (events : List Event) :
    let ready := observer.watched.publishAll events written
    ready.2 = world.2 ∧ host.group ready.1 = host.group world.1 := by
  obtain ⟨silent, still⟩ := publishAll_observed notes events written
  have same := observer.write_eq batch world
  rw [wrote] at same
  exact ⟨silent.trans (notes.write wrote), still.trans (host.group_write same.symm)⟩

end Observer

end GroupHost

end DecisionLedger
