import DecisionLedger.Node.Chain
import DecisionLedger.Proofs.Founding
import DecisionLedger.Proofs.UnitCodec

/-! # Units that arrive as bytes

A chain takes a unit as it is or as its encoding.  For bytes, the size and the encoding are looked
at before the flavor of the chain and before the manager is asked at all; still the answer is that
of the unit, because a unit within the limit reads back as itself.  Bytes that encode no such unit
get no further than that, on a halted chain either.
-/

namespace DecisionLedger

/-- Bytes are not those of any unit within a limit, and this is what is wrong with them. -/
inductive UnitFault.Spoils (bytes : Bytes) (limit : Nat) : UnitFault → Prop where
  | tooLarge : limit < bytes.length → Spoils bytes limit (.tooLarge bytes.length limit)
  | undecodable {problem : DecodeError} : bytes.length ≤ limit →
      UnitFields.format.decodeAll bytes = .error problem → Spoils bytes limit (.undecodable problem)

namespace DecisionUnit

variable {bytes : Bytes} {limit : Nat}

theorem parse_bytes {unit : DecisionUnit} (within : unit.size ≤ limit) :
    parse unit.bytes limit = .ok unit :=
  parse_eq_ok_iff.mpr ⟨within, rfl⟩

theorem spoils_of_parse {fault : UnitFault} (refused : parse bytes limit = .error fault) :
    fault.Spoils bytes limit := by
  unfold parse at refused
  split at refused
  · rename_i within
    rcases parseUnlimited_cases bytes with ⟨unit, read⟩ | ⟨problem, read⟩
    · simp [read] at refused
    · rw [read] at refused
      cases refused
      refine .undecodable within ?_
      unfold parseUnlimited at read
      split at read
      · simp_all
      · split at read
        · dsimp only at read
          split at read <;> simp at read
        · simp at read
  · rename_i long
    cases refused
    exact .tooLarge (Nat.lt_of_not_le long)

theorem parse_of_not_unit
    (foreign : ¬∃ unit : DecisionUnit, unit.bytes = bytes ∧ unit.size ≤ limit) :
    ∃ fault, parse bytes limit = .error fault ∧ fault.Spoils bytes limit := by
  cases read : parse bytes limit with
  | error fault => exact ⟨fault, rfl, spoils_of_parse read⟩
  | ok unit =>
      obtain ⟨within, rfl⟩ := parse_eq_ok_iff.mp read
      exact absurd ⟨unit, rfl, within⟩ foreign

end DecisionUnit

namespace Engine

variable (engine : Engine) (store : Store)

theorem deliver_bytes {unit : DecisionUnit}
    (within : unit.size ≤ engine.manager.config.maxUnitSize) :
    engine.deliver store unit.bytes =
      (engine.verify store unit).map fun (next, events) => (unit.id, next, events) := by
  unfold deliver verify
  cases entered : engine.access with
  | error problem => rfl
  | ok manager =>
      have same : manager = engine.manager := by
        unfold access at entered
        split at entered <;> simp_all
      subst same
      simp only [bind, Except.bind, DecisionUnit.parse_bytes within]
      rfl

theorem deliver_of_parse {bytes : Bytes} {fault : UnitFault} (usable : engine.isPoisoned = false)
    (refused : DecisionUnit.parse bytes engine.manager.config.maxUnitSize = .error fault) :
    engine.deliver store bytes = .error (.manager (.malformed fault)) := by
  simp [deliver, access, usable, refused, bind, Except.bind, throw, throwThe,
    MonadExceptOf.throw]

end Engine

namespace HostedChain

/-- How a chain on a node takes units that arrive as bytes. -/
structure Receives (hosted : HostedChain) (node : Node) : Prop where
  /-- The encoding of a unit within the limit has the answer of the unit, and leaves the engine,
  what is published and the node as the unit would. -/
  unit : ∀ unit : DecisionUnit, unit.size ≤ hosted.engine.manager.config.maxUnitSize →
    hosted.deliver node unit.bytes = hosted.verify node unit
  /-- Any other bytes are refused for what is wrong with them, and nothing changes. -/
  other : ∀ bytes : Bytes, (¬∃ unit : DecisionUnit, unit.bytes = bytes ∧
      unit.size ≤ hosted.engine.manager.config.maxUnitSize) →
    ∃ fault, fault.Spoils bytes hosted.engine.manager.config.maxUnitSize ∧
      hosted.deliver node bytes = (.error (.manager (.malformed fault)), hosted, node)

variable {hosted : HostedChain} {node : Node}

theorem deliver_bytes {unit : DecisionUnit}
    (within : unit.size ≤ hosted.engine.manager.config.maxUnitSize) :
    hosted.deliver node unit.bytes = hosted.verify node unit := by
  unfold deliver verify
  rw [hosted.engine.deliver_bytes _ within]
  cases hosted.engine.verify (node.store hosted.site.disk) unit <;> rfl

/-- In whatever state a chain is, halted or not, bytes are taken for the unit that they encode. -/
theorem receives (hosted : HostedChain) (node : Node)
    (usable : hosted.engine.isPoisoned = false) : Receives hosted node where
  unit _ within := deliver_bytes within
  other bytes foreign := by
    obtain ⟨fault, refused, spoils⟩ := DecisionUnit.parse_of_not_unit foreign
    refine ⟨fault, spoils, ?_⟩
    simp [deliver, hosted.engine.deliver_of_parse _ usable refused]

end HostedChain

namespace Intake

/-- A chain of blocks that has halted. -/
def stopped : HostedChain where
  engine := {
    flavor := .linear
    manager := { Manager.initial { chain := 1, maxUnitSize := 100 } .genesis with
      halted := some (.commitFailed ⟨"full"⟩) } }
  site := ⟨"disk", "group"⟩
  outlet := { channel := .open [], isHooked := true }
  handlers := { logs := false }

def vertex : DecisionUnit :=
  .ofFields { parent := DecisionUnit.genesis.id, height := 1, timestamp := some 5,
              body := .vertex [] [] } (by decide)

/-- Though it has halted, the chain tells a vertex and a block from bytes that are neither. -/
theorem stopped_receives :
    stopped.engine.isPoisoned = false ∧ vertex.size ≤ 100 ∧ DecisionUnit.genesis.size ≤ 100 ∧
      stopped.deliver (.empty 0) vertex.bytes =
        (.error (.wrongFlavor .linear .vertex), stopped, .empty 0) ∧
      stopped.deliver (.empty 0) DecisionUnit.genesis.bytes =
        (.error (.manager (.halted (.commitFailed ⟨"full"⟩))), stopped, .empty 0) ∧
      ∃ fault, stopped.deliver (.empty 0) [0xff] =
        (.error (.manager (.malformed fault)), stopped, .empty 0) := by
  have small : vertex.size = 58 ∧ DecisionUnit.genesis.size = 46 := ⟨rfl, rfl⟩
  have receives := HostedChain.receives stopped (.empty 0) rfl
  have foreign : ¬∃ unit : DecisionUnit, unit.bytes = [0xff] ∧ unit.size ≤ 100 := by
    rintro ⟨unit, same, -⟩
    have read := DecisionUnit.parseUnlimited_bytes unit
    rw [same] at read
    cases read
  obtain ⟨fault, -, refused⟩ := receives.other [0xff] foreign
  have within : vertex.size ≤ 100 ∧ DecisionUnit.genesis.size ≤ 100 := by omega
  refine ⟨rfl, within.1, within.2, ?_, ?_, fault, refused⟩
  · rw [receives.unit vertex within.1]
    rfl
  · rw [receives.unit .genesis within.2]
    rfl

end Intake

end DecisionLedger
