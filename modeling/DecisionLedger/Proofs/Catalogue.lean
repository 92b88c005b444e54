import DecisionLedger.Proofs.NodeHost

/-! # What an index holds

The variables of an index together hold one list of containers, each identity once.  Indexing a unit
puts those of its containers behind the list that it does not have yet, and writes nothing if it has
them all.
-/

namespace DecisionLedger

namespace Container

/-- Containers and further ones behind them, of each identity the first. -/
def enrol (known : List Container) : List Container → List Container
  | [] => known
  | container :: rest =>
    if container.id ∈ known.map (·.id) then enrol known rest else enrol (known ++ [container]) rest

theorem enrol_append (known first second : List Container) :
    enrol known (first ++ second) = enrol (enrol known first) second := by
  induction first generalizing known with
  | nil => rfl
  | cons container rest ih =>
      simp only [List.cons_append, enrol]
      split <;> exact ih _

theorem exists_enrol (known further : List Container) :
    ∃ added, enrol known further = known ++ added ∧ ∀ container ∈ added, container ∈ further := by
  induction further generalizing known with
  | nil => exact ⟨[], by simp [enrol]⟩
  | cons container rest ih =>
      simp only [enrol]
      split
      · obtain ⟨added, same, inside⟩ := ih known
        exact ⟨added, same, fun other listed => List.mem_cons_of_mem _ (inside other listed)⟩
      · obtain ⟨added, same, inside⟩ := ih (known ++ [container])
        refine ⟨container :: added, by simp [same], ?_⟩
        simpa using fun other listed => Or.inr (inside other listed)

theorem mem_enrol_iff {known further : List Container} {id : ContainerId} :
    id ∈ (enrol known further).map (·.id) ↔
      id ∈ known.map (·.id) ∨ id ∈ further.map (·.id) := by
  induction further generalizing known with
  | nil => simp [enrol]
  | cons container rest ih =>
      simp only [enrol]
      split <;> grind

theorem nodup_enrol {known : List Container} (further : List Container)
    (distinct : (known.map (·.id)).Nodup) : ((enrol known further).map (·.id)).Nodup := by
  induction further generalizing known with
  | nil => exact distinct
  | cons container rest ih =>
      simp only [enrol]
      split
      · exact ih distinct
      · rename_i new
        refine ih ?_
        simpa [List.nodup_append, distinct] using new

theorem enrol_of_known {known further : List Container}
    (old : ∀ container ∈ further, container.id ∈ known.map (·.id)) :
    enrol known further = known := by
  induction further with
  | nil => rfl
  | cons container rest ih =>
      rw [enrol, if_pos (old container List.mem_cons_self)]
      exact ih fun other inside => old other (List.mem_cons_of_mem _ inside)

theorem enrol_of_nodup {known further : List Container}
    (distinct : ((known ++ further).map (·.id)).Nodup) :
    enrol known further = known ++ further := by
  induction further generalizing known with
  | nil => simp [enrol]
  | cons container rest ih =>
      have new : container.id ∉ known.map (·.id) := by
        simp [List.nodup_append] at distinct ⊢
        grind
      rw [enrol, if_neg new, ih (by simpa using distinct)]
      simp

/-- What is enrolled is, of each identity that is not known, the first container. -/
theorem enrol_eq_eraseDupsBy (known further : List Container) :
    enrol known further = known ++
      (further.filter (·.id ∉ known.map (·.id))).eraseDupsBy (·.id == ·.id) := by
  induction further generalizing known with
  | nil => simp [enrol]
  | cons container rest ih =>
      rw [enrol]
      split
      · rename_i old
        rw [ih, List.filter_cons_of_neg (by simpa using old)]
      · rename_i new
        rw [ih, List.filter_cons_of_pos (by simpa using new), List.eraseDupsBy_cons,
          List.filter_filter, List.append_assoc, List.singleton_append]
        congr 3
        refine List.filter_congr fun other _ => ?_
        simp
        grind

theorem length_le_enrol (known further : List Container) :
    known.length ≤ (enrol known further).length := by
  obtain ⟨added, same, -⟩ := exists_enrol known further
  simp [same]

end Container

namespace Index

/-- Two index values that keep their containers in the same variables. -/
structure Shares (index other : Index) : Prop where
  chain : other.chain = index.chain
  contents : other.contents.canonical = index.contents.canonical

def SameVariables (index : Index) (store other : Store) : Prop :=
  ∀ key, index.owns key = true → other.raw? key = store.raw? key

/-- The variables of an index hold a list of containers. -/
structure Lists (index : Index) (store : Store) (containers : List Container) : Prop where
  container? : ∀ position,
    store.container? index.chain index.contents position = .ok containers[position.toNat]?
  position? : ∀ id, store.position? index.chain index.contents id =
    .ok ((containers.findIdx? (·.id = id)).map UInt64.ofNat)
  distinct : (containers.map (·.id)).Nodup

/-- The variables of an index hold a list of containers and its length. -/
structure Numbers (index : Index) (store : Store) (containers : List Container) : Prop
    extends Lists index store containers where
  next : store.nextIndex index.chain index.contents = .ok (UInt64.ofNat containers.length)

/-- Why an index does not take a unit: the disk refuses what the index, or one that shares its
variables, was to write, or one of the containers of the unit is too long to be written. -/
inductive Refuses (index : Index) (disk : Disk) (acceptedAt : Instant) (unit : DecisionUnit) :
    AcceptError → Prop where
  | unwritten {value : Index} {batch : Batch} {problem : WriteError} : index.Shares value →
      value.additions disk.store acceptedAt unit = .ok batch → disk.write batch = .error problem →
      Refuses index disk acceptedAt unit (.unwritable problem)
  | tooLong (key : Key) {container : Container} : container ∈ index.containers acceptedAt unit →
      Container.format.fits container = false →
      Refuses index disk acceptedAt unit (.unencodable key)

variable {index other : Index} {store after : Store} {containers added : List Container}

theorem Lists.of_same (lists : index.Lists store containers)
    (same : index.SameVariables store after) : index.Lists after containers where
  container? position :=
    (Store.value?_congr (same _ (by simp [owns])) _).trans (lists.container? position)
  position? id := (Store.value?_congr (same _ (by simp [owns])) _).trans (lists.position? id)
  distinct := lists.distinct

theorem Numbers.of_same (numbers : index.Numbers store containers)
    (same : index.SameVariables store after) : index.Numbers after containers where
  toLists := numbers.toLists.of_same same
  next := by
    rw [← numbers.next, Store.nextIndex, Store.nextIndex,
      Store.value?_congr (same (.next index.chain index.contents) (by simp [owns]))]

theorem numbers_nil (absent : ∀ key, index.owns key = true → store.raw? key = none) :
    index.Numbers store [] where
  container? position := by simp [Store.container?, Store.value?, absent _, owns]
  position? id := by simp [Store.position?, Store.value?, absent _, owns]
  distinct := List.nodup_nil
  next := by simp [Store.nextIndex, Store.value?, absent _, owns, Except.map]

section Place

theorem raw?_place_one (next : AcceptIndex) (container : Container) (store : Store) (key : Key) :
    (store.apply (index.place next [container])).raw? key =
      if (Key.position index.chain index.contents container.id).canonical = key.canonical then
        some (Format.word.encode next)
      else if (Key.container index.chain index.contents next).canonical = key.canonical then
        some (Container.format.encode container)
      else store.raw? key := by
  simp [place, Batch.setContainer, Batch.setPosition, Store.raw?_change_eq, Change.put]

theorem Lists.place_one (lists : index.Lists store containers) {container : Container}
    (fit : Container.format.fits container = true) (room : containers.length < UInt64.size)
    (new : container.id ∉ containers.map (·.id)) :
    index.Lists (store.apply (index.place (.ofNat containers.length) [container]))
      (containers ++ [container]) where
  container? position := by
    have stored := @raw?_place_one index (.ofNat containers.length) container store
      (.container index.chain index.contents position)
    simp only [Key.canonical, reduceCtorEq, if_false, Key.container.injEq, true_and] at stored
    by_cases same : UInt64.ofNat containers.length = position
    · rw [if_pos same] at stored
      rw [Store.container?, Store.value?_of_encode fit stored, ← same, UInt64.toNat_ofNat',
        Nat.mod_eq_of_lt room]
      simp
    · rw [if_neg same] at stored
      have elsewhere : position.toNat ≠ containers.length := by
        intro equal
        exact same (by rw [← equal, UInt64.ofNat_toNat])
      rw [Store.container?, Store.value?_congr stored, ← Store.container?, lists.container?]
      congr 1
      rcases Nat.lt_or_gt_of_ne elsewhere with below | above
      · rw [List.getElem?_append_left below]
      · rw [List.getElem?_eq_none (by omega), List.getElem?_eq_none (by simp; omega)]
  position? id := by
    have stored := @raw?_place_one index (.ofNat containers.length) container store
      (.position index.chain index.contents id)
    simp only [Key.canonical, reduceCtorEq, if_false, Key.position.injEq, true_and] at stored
    by_cases same : container.id = id
    · rw [if_pos same] at stored
      rw [Store.position?, Store.value?_of_encode rfl stored]
      have absent : containers.findIdx? (·.id = id) = none := by
        rw [List.findIdx?_eq_none_iff]
        intro other inside
        exact decide_eq_false fun equal =>
          new (List.mem_map.mpr ⟨other, inside, equal.trans same.symm⟩)
      simp [List.findIdx?_append, absent, same]
    · rw [if_neg same] at stored
      rw [Store.position?, Store.value?_congr stored, ← Store.position?, lists.position?]
      simp [List.findIdx?_append, same]
  distinct := by
    simpa [List.nodup_append, lists.distinct] using new

theorem Lists.place (lists : index.Lists store containers)
    (fit : ∀ container ∈ added, Container.format.fits container = true)
    (room : (containers ++ added).length ≤ UInt64.size)
    (distinct : ((containers ++ added).map (·.id)).Nodup) :
    index.Lists (store.apply (index.place (.ofNat containers.length) added))
      (containers ++ added) := by
  induction added generalizing store containers with
  | nil => simpa [Index.place] using lists
  | cons container rest ih =>
      have new : container.id ∉ containers.map (·.id) := by
        simp [List.nodup_append] at distinct ⊢
        grind
      have first := lists.place_one (fit container List.mem_cons_self) (by simp at room; omega) new
      have later := ih first (fun other inside => fit other (List.mem_cons_of_mem _ inside))
        (by simpa using room) (by simpa using distinct)
      have counted : UInt64.ofNat (containers ++ [container]).length =
          UInt64.ofNat containers.length + 1 := by
        simp [UInt64.ofNat_add]
      rw [counted] at later
      simpa [Index.place, Store.apply_append] using later

theorem Lists.count (lists : index.Lists store containers) :
    index.Numbers (store.apply (Batch.setNext index.chain index.contents
      (.ofNat containers.length))) containers := by
  have stored : ∀ key : Key, (store.apply (Batch.setNext index.chain index.contents
      (.ofNat containers.length))).raw? key =
        if (Key.next index.chain index.contents).canonical = key.canonical then
          some (Format.word.encode (.ofNat containers.length)) else store.raw? key := by
    intro key
    simp [Batch.setNext, Store.raw?_change_eq, Change.put]
  refine ⟨⟨fun position => ?_, fun id => ?_, lists.distinct⟩, ?_⟩
  · rw [← lists.container?, Store.container?, Store.container?]
    exact Store.value?_congr (by simp [stored, Key.canonical]) _
  · rw [← lists.position?, Store.position?, Store.position?]
    exact Store.value?_congr (by simp [stored, Key.canonical]) _
  · have counted := stored (.next index.chain index.contents)
    rw [if_pos rfl] at counted
    rw [Store.nextIndex, Store.value?_of_encode rfl counted]
    rfl

end Place

section Accept

variable {acceptedAt : Instant} {unit : DecisionUnit} {disk written : Disk}
  {candidates staged : List Container} {earlier : Std.ExtTreeSet ContainerId} {error : AcceptError}

theorem Lists.position?_cases (lists : index.Lists store containers) (id : ContainerId) :
    (id ∈ containers.map (·.id) ∧
      ∃ position, store.position? index.chain index.contents id = .ok (some position)) ∨
    (id ∉ containers.map (·.id) ∧ store.position? index.chain index.contents id = .ok none) := by
  rw [lists.position?]
  cases found : containers.findIdx? (·.id = id) with
  | none =>
      refine .inr ⟨?_, rfl⟩
      simpa [List.findIdx?_eq_none_iff] using found
  | some position =>
      refine .inl ⟨?_, _, rfl⟩
      obtain ⟨inside, same, -⟩ := List.findIdx?_eq_some_iff_getElem.mp found
      exact List.mem_map.mpr ⟨_, List.getElem_mem inside, of_decide_eq_true same⟩

/-- What is written is what enrolling adds, and all of it can be written. -/
theorem Lists.fresh_eq_ok (lists : index.Lists store containers)
    (matched : ∀ id, id ∈ earlier ↔ id ∈ staged.map (·.id)) {next : AcceptIndex}
    (done : index.fresh store next earlier candidates = .ok added) :
    Container.enrol (containers ++ staged) candidates = containers ++ staged ++ added ∧
      ∀ container ∈ added, Container.format.fits container = true := by
  induction candidates generalizing earlier staged next added with
  | nil =>
      cases done
      simp [Container.enrol]
  | cons container rest ih =>
      rw [fresh] at done
      rw [Container.enrol]
      split at done
      · rename_i listed
        rw [if_pos (by simp [← matched, listed])]
        exact ih matched done
      · rename_i unlisted
        rcases lists.position?_cases container.id with ⟨old, position, found⟩ | ⟨new, found⟩
        · rw [if_pos (by simpa using Or.inl (by simpa using old))]
          rw [found] at done
          exact ih matched done
        · rw [if_neg (by
            rw [matched] at unlisted
            rw [List.map_append, List.mem_append, not_or]
            exact ⟨new, unlisted⟩)]
          rw [found] at done
          dsimp only at done
          split at done
          · rename_i fit
            obtain ⟨further, later, here⟩ := bind_eq_ok_iff.mp done
            cases here
            have grown : ∀ id, id ∈ earlier.insert container.id ↔
                id ∈ (staged ++ [container]).map (·.id) := by
              intro id
              simp [Std.ExtTreeSet.mem_insert, matched, or_comm]
              grind
            obtain ⟨same, fits⟩ := ih grown later
            refine ⟨by simpa using same, ?_⟩
            simpa [fit] using fits
          · cases done

theorem Numbers.additions_eq_ok (numbers : index.Numbers store containers) {batch : Batch}
    (room : (Container.enrol containers (index.containers acceptedAt unit)).length < UInt64.size)
    (done : index.additions store acceptedAt unit = .ok batch) :
    index.Numbers (store.apply batch)
      (Container.enrol containers (index.containers acceptedAt unit)) := by
  unfold additions at done
  rw [numbers.next] at done
  obtain ⟨next, counted, done⟩ := bind_eq_ok_iff.mp done
  cases counted
  obtain ⟨added, found, done⟩ := bind_eq_ok_iff.mp done
  have none_staged : ∀ id, id ∈ (∅ : Std.ExtTreeSet ContainerId) ↔
      id ∈ ([] : List Container).map (·.id) := by simp
  obtain ⟨same, fits⟩ := numbers.toLists.fresh_eq_ok none_staged found
  have distinct := Container.nodup_enrol (index.containers acceptedAt unit) numbers.distinct
  rw [List.append_nil] at same
  rw [same] at room distinct ⊢
  split at done
  · rename_i empty
    cases done
    rw [List.isEmpty_iff.mp empty, List.append_nil]
    exact numbers
  · cases done
    have placed := (numbers.toLists.place fits (Nat.le_of_lt room) distinct).count
    simpa [Store.apply_append, UInt64.ofNat_add] using placed

theorem Numbers.accept (numbers : index.Numbers disk.store containers)
    (room : (Container.enrol containers (index.containers acceptedAt unit)).length < UInt64.size)
    (done : index.accept disk acceptedAt unit = .ok written) :
    index.Numbers written.store
      (Container.enrol containers (index.containers acceptedAt unit)) := by
  obtain ⟨batch, added, stored⟩ := accept_cases done
  rw [stored]
  exact numbers.additions_eq_ok room added

theorem Lists.exists_of_fresh_error (lists : index.Lists store containers)
    {next : AcceptIndex} (failed : index.fresh store next earlier candidates = .error error) :
    ∃ key, error = .unencodable key ∧
      ∃ container ∈ candidates, Container.format.fits container = false := by
  induction candidates generalizing earlier next with
  | nil => cases failed
  | cons container rest ih =>
      have later {earlier : Std.ExtTreeSet ContainerId} {next : AcceptIndex}
          (refused : index.fresh store next earlier rest = .error error) :
          ∃ key, error = .unencodable key ∧
            ∃ other ∈ container :: rest, Container.format.fits other = false := by
        obtain ⟨key, same, other, inside, long⟩ := ih refused
        exact ⟨key, same, other, List.mem_cons_of_mem _ inside, long⟩
      rw [fresh] at failed
      split at failed
      · exact later failed
      · rcases lists.position?_cases container.id with ⟨-, position, found⟩ | ⟨-, found⟩
        · rw [found] at failed
          exact later failed
        · rw [found] at failed
          dsimp only at failed
          split at failed
          · cases behind : index.fresh store (next + 1) (earlier.insert container.id) rest with
            | error problem =>
                rw [behind] at failed
                cases failed
                exact later behind
            | ok further =>
                rw [behind] at failed
                cases failed
          · rename_i long
            cases failed
            exact ⟨_, rfl, container, List.mem_cons_self, eq_false_of_ne_true long⟩

/-- An index that can be read fails for its write, or for a container that is too long. -/
theorem Numbers.accept_refuses (numbers : index.Numbers disk.store containers)
    (failed : index.accept disk acceptedAt unit = .error error) :
    index.Refuses disk acceptedAt unit error := by
  unfold Index.accept at failed
  cases added : index.additions disk.store acceptedAt unit with
  | error problem =>
      rw [added] at failed
      cases failed
      unfold additions at added
      rw [numbers.next] at added
      dsimp only [AcceptError.ofRead, bind, Except.bind] at added
      split at added
      · rename_i refused
        cases added
        obtain ⟨key, rfl, container, inside, long⟩ :=
          numbers.toLists.exists_of_fresh_error refused
        exact .tooLong key inside long
      · split at added <;> cases added
  | ok batch =>
      simp only [added] at failed
      cases batch with
      | nil => cases failed
      | cons change rest =>
          dsimp only at failed
          split at failed
          · cases failed
          · rename_i refused
            cases failed
            exact .unwritten ⟨rfl, rfl⟩ added refused

end Accept

end Index

end DecisionLedger
