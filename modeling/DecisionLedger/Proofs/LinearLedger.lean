import DecisionLedger.Proofs.Session

/-! # The ledger is one chain

What a store holds of a chain is a single line of units, each hanging on the one a height below by
its ID, with genesis at the bottom and the last accepted unit at the top.
-/

namespace DecisionLedger

/-- A store holds one chain of units that ends with a given one. -/
structure Store.Linear (store : Store) (tip : DecisionUnit) : Prop where
  /-- There is an accepted unit of exactly the heights up to the last. -/
  heights : ∀ height, ∃ found, store.unitAtHeight? height = .ok found ∧
    (found.isSome = true ↔ height ≤ tip.height)
  /-- The unit of a height is stored and hangs on the unit below. -/
  linked : ∀ {height : Height} {id : UnitId}, store.unitAtHeight? height = .ok (some id) →
    ∃ unit, store.unit? id = .ok (some unit) ∧ unit.id = id ∧ unit.height = height ∧
      (height ≠ 0 → store.unitAtHeight? (height - 1) = .ok (some unit.parent))
  genesis : store.unitAtHeight? 0 = .ok (some DecisionUnit.genesis.id) ∧
    store.unit? DecisionUnit.genesis.id = .ok (some .genesis)
  /-- No unit is stored but those of a height. -/
  complete : ∀ {id : UnitId}, store.containsUnit id = true →
    ∃ height, store.unitAtHeight? height = .ok (some id)
  last : store.lastAccepted = .ok tip.id ∧ store.unitAtHeight? tip.height = .ok (some tip.id) ∧
    store.unit? tip.id = .ok (some tip)
  /-- An option follows a proposal. -/
  options : ∀ {id : UnitId} {unit : DecisionUnit}, store.unit? id = .ok (some unit) →
    unit.kind.isOption = true →
    ∃ above, store.unit? unit.parent = .ok (some above) ∧ above.kind = .proposal ∧
      unit.height.toNat = above.height.toNat + 1
  /-- A proposal is followed by an option. -/
  proposals : ∀ {id : UnitId} {unit : DecisionUnit}, store.unit? id = .ok (some unit) →
    unit.kind = .proposal →
    ∃ option, store.unit? option.id = .ok (some option) ∧ option.kind.isOption = true ∧
      option.parent = unit.id ∧ option.height.toNat = unit.height.toNat + 1
  /-- No proposal has two options. -/
  decisions : ∀ {id other : UnitId} {unit further : DecisionUnit},
    store.unit? id = .ok (some unit) → store.unit? other = .ok (some further) →
    unit.kind.isOption = true → further.kind.isOption = true → unit.parent = further.parent →
    unit = further
  /-- An edge leads to a lower stored unit. -/
  edges : ∀ {id : UnitId} {unit : DecisionUnit}, store.unit? id = .ok (some unit) →
    ∀ edge ∈ unit.body.edges,
      ∃ target, store.unit? edge = .ok (some target) ∧ target.height < unit.height

namespace Chronicle

variable {units : List DecisionUnit} {unit tip : DecisionUnit}

theorem getElem?_height (chronicle : Chronicle units) (inside : unit ∈ units) :
    units[unit.height.toNat]? = some unit :=
  chronicle.getElem?_eq_some_iff.mpr ⟨inside, rfl⟩

theorem exists_below (chronicle : Chronicle units) (inside : unit ∈ units)
    (high : unit.height.toNat ≠ 0) :
    ∃ below ∈ units, unit.Extends below := by
  obtain ⟨position, bound, rfl⟩ := List.getElem_of_mem inside
  rw [chronicle.height_getElem bound] at high
  obtain ⟨lower, rfl⟩ := Nat.exists_eq_succ_of_ne_zero high
  exact ⟨units[lower], List.getElem_mem _, chronicle.extends_getElem bound⟩

theorem exists_above (chronicle : Chronicle units) (inside : unit ∈ units)
    (last : units.getLast? = some tip) (apart : unit ≠ tip) :
    ∃ above ∈ units, above.Extends unit := by
  obtain ⟨position, bound, rfl⟩ := List.getElem_of_mem inside
  have length := chronicle.height_getLast last
  have below : position + 1 < units.length := by
    by_contra top
    have here : position = tip.height.toNat := by omega
    have same := chronicle.getElem?_height (List.mem_of_getLast? last)
    rw [← here, List.getElem?_eq_getElem bound] at same
    exact apart (Option.some.inj same)
  exact ⟨units[position + 1], List.getElem_mem _, chronicle.extends_getElem below⟩

theorem height_ne_zero_of_isOption (chronicle : Chronicle units) (inside : unit ∈ units)
    (option : unit.kind.isOption = true) : unit.height.toNat ≠ 0 := by
  intro zero
  have first := chronicle.getElem?_height inside
  rw [zero, List.getElem?_eq_getElem chronicle.length_pos,
    chronicle.getElem_zero chronicle.length_pos] at first
  cases first
  cases option

theorem eq_of_height (chronicle : Chronicle units) {other : DecisionUnit} (inside : unit ∈ units)
    (held : other ∈ units) (same : unit.height.toNat = other.height.toNat) : unit = other := by
  have first := chronicle.getElem?_height inside
  rw [same, chronicle.getElem?_height held] at first
  exact (Option.some.inj first).symm

end Chronicle

theorem DecisionUnit.Extends.height_sub_one {unit below : DecisionUnit}
    (follows : unit.Extends below) : unit.height - 1 = below.height := by
  have step := follows.height_eq
  have word : (1 : UInt64).toNat = 1 := rfl
  have one : (1 : UInt64) ≤ unit.height := by
    rw [UInt64.le_iff_toNat_le]
    omega
  apply UInt64.toNat_inj.mp
  rw [UInt64.toNat_sub_of_le _ _ one]
  omega

section Linear

variable {store : Store} {units : List DecisionUnit} {unit tip : DecisionUnit} {height : Height}
  {id : UnitId}

theorem Store.Lists.unitAtHeight?_iff (lists : store.Lists units) (chronicle : Chronicle units) :
    store.unitAtHeight? height = .ok (some id) ↔
      ∃ unit ∈ units, unit.id = id ∧ unit.height = height := by
  rw [lists.unitAtHeight?, Except.ok.injEq, Option.map_eq_some_iff]
  constructor
  · rintro ⟨unit, found, same⟩
    obtain ⟨inside, high⟩ := chronicle.getElem?_eq_some_iff.mp found
    exact ⟨unit, inside, same, UInt64.toNat_inj.mp high⟩
  · rintro ⟨unit, inside, same, rfl⟩
    exact ⟨unit, chronicle.getElem?_height inside, same⟩

theorem Store.Lists.below_of_isOption (lists : store.Lists units) (chronicle : Chronicle units)
    (found : store.unit? id = .ok (some unit)) (option : unit.kind.isOption = true) :
    ∃ below ∈ units, unit ∈ units ∧ unit.Extends below := by
  obtain ⟨inside, rfl⟩ := lists.mem_of_unit? found
  obtain ⟨below, held, follows⟩ := chronicle.exists_below inside
    (chronicle.height_ne_zero_of_isOption inside option)
  exact ⟨below, held, inside, follows⟩

/-- A chronicle that does not end with a proposal makes the store that records it linear. -/
theorem Store.Records.linear (records : store.Records units) (chronicle : Chronicle units)
    (last : units.getLast? = some tip) (undecided : tip.kind ≠ .proposal) :
    store.Linear tip where
  heights := by
    intro height
    refine ⟨_, records.unitAtHeight? height, ?_⟩
    have length := chronicle.height_getLast last
    rw [Option.isSome_map, isSome_getElem?, UInt64.le_iff_toNat_le]
    omega
  linked := by
    intro height id found
    obtain ⟨unit, inside, rfl, rfl⟩ := (records.unitAtHeight?_iff chronicle).mp found
    refine ⟨unit, records.unit?_of_mem chronicle inside, rfl, rfl, fun positive => ?_⟩
    have high : unit.height.toNat ≠ 0 := fun zero => positive (UInt64.toNat_inj.mp zero)
    obtain ⟨below, held, follows⟩ := chronicle.exists_below inside high
    rw [follows.height_sub_one]
    exact (records.unitAtHeight?_iff chronicle).mpr ⟨below, held, follows.parent_eq.symm, rfl⟩
  genesis := by
    have inside : DecisionUnit.genesis ∈ units := by
      rw [← chronicle.getElem_zero chronicle.length_pos]
      exact List.getElem_mem _
    exact ⟨(records.unitAtHeight?_iff chronicle).mpr ⟨_, inside, rfl, rfl⟩,
      records.unit?_of_mem chronicle inside⟩
  complete := by
    intro id present
    obtain ⟨unit, inside, rfl⟩ := records.containsUnit_iff.mp present
    exact ⟨unit.height, (records.unitAtHeight?_iff chronicle).mpr ⟨unit, inside, rfl, rfl⟩⟩
  last := by
    obtain ⟨other, same, pointed⟩ := records.lastAccepted
    rw [last] at same
    cases same
    have top := List.mem_of_getLast? last
    exact ⟨pointed, (records.unitAtHeight?_iff chronicle).mpr ⟨tip, top, rfl, rfl⟩,
      records.unit?_of_mem chronicle top⟩
  options := by
    intro id unit found option
    obtain ⟨below, held, -, follows⟩ := records.below_of_isOption chronicle found option
    refine ⟨below, ?_, follows.option_iff.mp option, follows.height_eq⟩
    rw [follows.parent_eq]
    exact records.unit?_of_mem chronicle held
  proposals := by
    intro id unit found proposal
    obtain ⟨inside, rfl⟩ := records.mem_of_unit? found
    have apart : unit ≠ tip := fun same => undecided (same ▸ proposal)
    obtain ⟨above, held, follows⟩ := chronicle.exists_above inside last apart
    exact ⟨above, records.unit?_of_mem chronicle held, follows.option_iff.mpr proposal,
      follows.parent_eq, follows.height_eq⟩
  decisions := by
    intro id other unit further found known option taken same
    obtain ⟨left, leftIn, inside, leftFollows⟩ :=
      records.below_of_isOption chronicle found option
    obtain ⟨right, rightIn, held, rightFollows⟩ :=
      records.below_of_isOption chronicle known taken
    have shared : left.id = right.id :=
      leftFollows.parent_eq.symm.trans (same.trans rightFollows.parent_eq)
    cases chronicle.eq_of_id leftIn rightIn shared
    exact chronicle.eq_of_height inside held
      (leftFollows.height_eq.trans rightFollows.height_eq.symm)
  edges := by
    intro id unit found edge edged
    obtain ⟨inside, rfl⟩ := records.mem_of_unit? found
    obtain ⟨target, held, rfl, lower⟩ := chronicle.edges unit inside edge edged
    exact ⟨target, records.unit?_of_mem chronicle held, lower⟩

end Linear

/-- After any calls, the store holds one chain, which ends with the manager's last accepted unit. -/
theorem Start.linear_run {ω : Type} {host : LawfulHost ω} {config : Configuration}
    {origin : StateUpdates} (start : Start host config origin) (steps : List (Step host)) :
    (host.store (start.run steps).2).Linear (start.run steps).1.lastAccepted := by
  obtain ⟨accepted, sound⟩ := start.sound_run steps
  exact sound.records.linear sound.chronicle sound.rooted.last sound.undecided

end DecisionLedger
