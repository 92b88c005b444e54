import DecisionLedger.DecisionUnit
import Mathlib.Data.List.Chain
import Mathlib.Data.List.Nodup

/-! # Chronicles

A chronicle is what a chain has accepted, in order: genesis first, each further unit on top of the
one before, and every edge to a unit accepted earlier.
-/

namespace DecisionLedger

/-- How a unit follows another. -/
structure DecisionUnit.Extends (unit parent : DecisionUnit) : Prop where
  parent_eq : unit.parent = parent.id
  height_eq : unit.height.toNat = parent.height.toNat + 1
  /-- Options extend proposals, and nothing else does. -/
  option_iff : unit.kind.isOption = true ↔ parent.kind = .proposal

structure Chronicle (units : List DecisionUnit) : Prop where
  genesis : units.head? = some .genesis
  linked : units.IsChain fun parent unit => unit.Extends parent
  distinct : (units.map (·.id)).Nodup
  edges : ∀ unit ∈ units, ∀ edge ∈ unit.body.edges,
    ∃ target ∈ units, target.id = edge ∧ target.height < unit.height

namespace Chronicle

variable {units : List DecisionUnit} {unit : DecisionUnit}

theorem start : Chronicle [.genesis] where
  genesis := rfl
  linked := List.isChain_singleton _
  distinct := List.nodup_singleton _
  edges := by
    intro unit inside edge edged
    cases List.mem_singleton.mp inside
    exact absurd edged List.not_mem_nil

theorem extend (chronicle : Chronicle units) {tip : DecisionUnit}
    (last : units.getLast? = some tip) (extends_tip : unit.Extends tip)
    (fresh : unit.id ∉ units.map (·.id))
    (known : ∀ edge ∈ unit.body.edges,
      ∃ target ∈ units, target.id = edge ∧ target.height < unit.height) :
    Chronicle (units ++ [unit]) where
  genesis := by
    rw [List.head?_append, chronicle.genesis]
    rfl
  linked := by
    refine chronicle.linked.append (List.isChain_singleton _) ?_
    intro before isLast after isFirst
    rw [last] at isLast
    cases isLast
    cases isFirst
    exact extends_tip
  distinct := by
    rw [List.map_append, List.nodup_append']
    refine ⟨chronicle.distinct, List.nodup_singleton _, ?_⟩
    intro id inside new
    cases List.mem_singleton.mp new
    exact fresh inside
  edges := by
    intro later inside edge edged
    rcases List.mem_append.mp inside with old | new
    · obtain ⟨target, held, rest⟩ := chronicle.edges later old edge edged
      exact ⟨target, List.mem_append_left _ held, rest⟩
    · cases List.mem_singleton.mp new
      obtain ⟨target, held, rest⟩ := known edge edged
      exact ⟨target, List.mem_append_left _ held, rest⟩

theorem getElem_zero (chronicle : Chronicle units) (inside : 0 < units.length) :
    units[0] = .genesis := by
  have first := chronicle.genesis
  rw [List.head?_eq_getElem?, List.getElem?_eq_getElem inside] at first
  exact Option.some.inj first

theorem length_pos (chronicle : Chronicle units) : 0 < units.length := by
  cases units with
  | nil => exact absurd chronicle.genesis (by simp)
  | cons first rest => simp

theorem extends_getElem (chronicle : Chronicle units) {position : Nat}
    (inside : position + 1 < units.length) :
    (units[position + 1]).Extends units[position] :=
  chronicle.linked.getElem position inside

theorem height_getElem (chronicle : Chronicle units) {position : Nat}
    (inside : position < units.length) : (units[position]).height.toNat = position := by
  induction position with
  | zero => rw [chronicle.getElem_zero inside]; rfl
  | succ position ih => rw [(chronicle.extends_getElem inside).height_eq, ih]

theorem getElem?_eq_some_iff (chronicle : Chronicle units) {position : Nat} :
    units[position]? = some unit ↔ unit ∈ units ∧ unit.height.toNat = position := by
  constructor
  · intro found
    obtain ⟨inside, rfl⟩ := List.getElem?_eq_some_iff.mp found
    exact ⟨List.getElem_mem inside, chronicle.height_getElem inside⟩
  · rintro ⟨inside, high⟩
    obtain ⟨index, bound, rfl⟩ := List.getElem_of_mem inside
    rw [chronicle.height_getElem bound] at high
    rw [← high, List.getElem?_eq_getElem bound]

theorem eq_of_id (chronicle : Chronicle units) {other : DecisionUnit} (inside : unit ∈ units)
    (held : other ∈ units) (same : unit.id = other.id) : unit = other :=
  List.inj_on_of_nodup_map chronicle.distinct inside held same

theorem find?_id (chronicle : Chronicle units) (inside : unit ∈ units) :
    units.find? (·.id = unit.id) = some unit := by
  cases found : units.find? (·.id = unit.id) with
  | none => exact absurd (List.find?_eq_none.mp found unit inside) (by simp)
  | some other =>
      have same : other.id = unit.id := by simpa using List.find?_some found
      rw [chronicle.eq_of_id (List.mem_of_find?_eq_some found) inside same]

theorem height_getLast (chronicle : Chronicle units) (last : units.getLast? = some unit) :
    unit.height.toNat + 1 = units.length := by
  have nonempty := chronicle.length_pos
  rw [List.getLast?_eq_getElem?] at last
  have high := (chronicle.getElem?_eq_some_iff.mp last).2
  omega

/-- Heights are words, so a chronicle is at most as long as there are words. -/
theorem length_le (chronicle : Chronicle units) : units.length ≤ UInt64.size := by
  have nonempty := List.ne_nil_of_length_pos chronicle.length_pos
  have high := chronicle.height_getLast (List.getLast?_eq_some_getLast nonempty)
  have bound := (units.getLast nonempty).height.toNat_lt
  rw [UInt64.size]
  omega

end Chronicle

end DecisionLedger
