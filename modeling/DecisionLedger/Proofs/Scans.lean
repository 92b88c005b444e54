import DecisionLedger.Proofs.Slices
import Mathlib.Data.List.Infix

/-! # Scans of a store

A scan goes through a store in the lexicographic order of its keys.  Positions are the only numbers
in keys that have their most significant byte first, and so the containers of an index come one
after another in the order of acceptance, with nothing else between them.
-/

namespace DecisionLedger

namespace Bytes

variable {head left right middle : Bytes}

theorem compare_eq_lt_iff : compare left right = .lt ↔ left < right := by
  induction left generalizing right with
  | nil =>
      cases right with
      | nil => simp
      | cons byte rest => simp
  | cons byte rest ih =>
      cases right with
      | nil => simp
      | cons other behind =>
          rw [List.compare_cons_cons, List.cons_lt_cons_iff, Ordering.then_eq_lt, ih,
            Std.compare_eq_lt, Std.LawfulEqOrd.compare_eq_iff_eq]

theorem append_lt_append_iff : head ++ left < head ++ right ↔ left < right := by
  induction head with
  | nil => rfl
  | cons byte rest ih => simp [ih]

theorem concat_lt_concat_iff {last final : UInt8} (same : left.length = right.length) :
    left ++ [last] < right ++ [final] ↔ left < right ∨ left = right ∧ last < final := by
  induction left generalizing right with
  | nil =>
      obtain rfl := List.length_eq_zero_iff.mp same.symm
      simp [List.cons_lt_cons_iff]
  | cons byte rest ih =>
      obtain ⟨other, behind, rfl⟩ := List.exists_cons_of_length_eq_add_one same.symm
      simp only [List.cons_append, List.cons_lt_cons_iff, ih (by simpa using same),
        List.cons.injEq]
      grind

/-- What lies between two byte strings begins with what they begin with in common. -/
theorem exists_of_between (above : head ++ left < middle) (below : middle < head ++ right) :
    ∃ rest, middle = head ++ rest ∧ left < rest ∧ rest < right := by
  induction head generalizing middle with
  | nil => exact ⟨middle, rfl, above, below⟩
  | cons byte head ih =>
      cases middle with
      | nil => exact absurd above (List.not_lt_nil _)
      | cons first middle =>
          rw [List.cons_append, List.cons_lt_cons_iff] at above below
          have same : byte = first := by
            rcases above with less | ⟨same, -⟩
            · rcases below with more | ⟨same, -⟩
              · exact absurd (UInt8.lt_trans less more) (UInt8.lt_irrefl byte)
              · exact same.symm
            · exact same
          subst same
          have beyond := (above.resolve_left (UInt8.lt_irrefl byte)).2
          have under := (below.resolve_left (UInt8.lt_irrefl byte)).2
          obtain ⟨rest, rfl, more, less⟩ := ih beyond under
          exact ⟨rest, rfl, more, less⟩

theorem bigEndian_succ (width value : Nat) :
    bigEndian (width + 1) value = bigEndian width (value / 256) ++ [UInt8.ofNat value] := by
  rw [bigEndian, littleEndian, List.reverse_cons, bigEndian]

/-- With the most significant digit first, numbers sort as their digits do. -/
theorem bigEndian_lt_iff (width : Nat) {first second : Nat} (small : first < 256 ^ width)
    (short : second < 256 ^ width) :
    bigEndian width first < bigEndian width second ↔ first < second := by
  induction width generalizing first second with
  | zero =>
      rw [Nat.pow_zero] at small short
      obtain rfl : first = second := by omega
      simp [bigEndian, littleEndian]
  | succ width ih =>
      rw [Nat.pow_succ] at small short
      have higher : bigEndian width (first / 256) = bigEndian width (second / 256) ↔
          first / 256 = second / 256 := by
        refine ⟨fun same => ?_, congrArg _⟩
        have digits := congrArg ofLittleEndian (List.reverse_inj.mp same)
        rwa [ofLittleEndian_littleEndian width (by simp only [Nat.pow_eq]; omega),
          ofLittleEndian_littleEndian width (by simp only [Nat.pow_eq]; omega)] at digits
      rw [bigEndian_succ, bigEndian_succ, concat_lt_concat_iff (by simp), higher,
        ih (by omega) (by omega), UInt8.lt_iff_toNat_lt, UInt8.toNat_ofNat', UInt8.toNat_ofNat']
      omega

theorem ofWordBigEndian_lt_iff {word other : UInt64} :
    ofWordBigEndian word < ofWordBigEndian other ↔ word < other := by
  rw [ofWordBigEndian, ofWordBigEndian, UInt64.lt_iff_toNat_lt]
  exact bigEndian_lt_iff 8 word.toNat_lt other.toNat_lt

end Bytes

/-- In a sorted list, what lies with the first element in one segment of the order comes first. -/
theorem filter_prefix_of_convex {α : Type} {precedes : α → α → Prop} {inside : α → Bool}
    (convex : ∀ first middle last, precedes first middle → precedes middle last →
      inside first = true → inside last = true → inside middle = true)
    {first : α} {rest : List α} (sorted : (first :: rest).Pairwise precedes)
    (starts : inside first = true) : rest.filter inside <+: rest := by
  induction rest generalizing first with
  | nil => exact List.prefix_refl []
  | cons next rest ih =>
      obtain ⟨before, later⟩ := List.pairwise_cons.mp sorted
      by_cases here : inside next = true
      · rw [List.filter_cons_of_pos here, List.prefix_cons_inj]
        exact ih later here
      · have none : (next :: rest).filter inside = [] := by
          rw [List.filter_cons_of_neg here, List.filter_eq_nil_iff]
          intro last listed ends
          have after := (List.pairwise_cons.mp later).1 last listed
          exact here (convex _ _ _ (before next List.mem_cons_self) after starts ends)
        exact none ▸ List.nil_prefix

theorem filter_infix_of_convex {α : Type} {precedes : α → α → Prop} {inside : α → Bool}
    (convex : ∀ first middle last, precedes first middle → precedes middle last →
      inside first = true → inside last = true → inside middle = true)
    {list : List α} (sorted : list.Pairwise precedes) : list.filter inside <:+: list := by
  induction list with
  | nil => exact List.infix_refl []
  | cons first rest ih =>
      by_cases here : inside first = true
      · rw [List.filter_cons_of_pos here]
        exact ((List.prefix_cons_inj first).mpr
          (filter_prefix_of_convex convex sorted here)).isInfix
      · rw [List.filter_cons_of_neg here]
        exact List.infix_cons (ih (List.pairwise_cons.mp sorted).2)

namespace Store

/-- Whether all keys of a store are keys of variables. -/
def IsLaidOut (store : Store) : Prop :=
  ∀ bytes ∈ store, ∃ key : Key, key.encode = bytes

theorem isLaidOut_empty : empty.IsLaidOut :=
  fun _ inside => absurd inside Std.ExtTreeMap.not_mem_empty

/-- Batches name variables, and so leave no other keys behind. -/
theorem IsLaidOut.apply {store : Store} (laid : store.IsLaidOut) (batch : Batch) :
    (store.apply batch).IsLaidOut := by
  induction batch generalizing store with
  | nil => exact laid
  | cons change rest ih =>
      refine ih fun bytes inside => ?_
      rw [Std.ExtTreeMap.mem_iff_isSome_getElem?, change.getElem?_apply] at inside
      by_cases own : change.key.encode = bytes
      · exact ⟨change.key, own⟩
      · rw [if_neg own] at inside
        exact laid bytes (Std.ExtTreeMap.mem_iff_isSome_getElem?.mpr inside)

theorem sorted_toList (store : Store) :
    store.toList.Pairwise fun entry later => entry.1 < later.1 :=
  Std.ExtTreeMap.ordered_keys_toList.imp Bytes.compare_eq_lt_iff.mp

theorem raw?_of_mem_toList {store : Store} {entry : Bytes × Bytes} {key : Key}
    (listed : entry ∈ store.toList) (here : entry.1 = key.encode) :
    store.raw? key = some entry.2 := by
  rw [raw?, ← here]
  exact Std.ExtTreeMap.mem_toList_iff_getElem?_eq_some.mp listed

end Store

namespace Index

variable {index : Index} {store : Store} {containers : List Container}
  {first last position : AcceptIndex}

/-- The variable of a position. -/
def slot (index : Index) (position : AcceptIndex) : Key :=
  .container index.chain index.contents position

/-- What the keys of all positions begin with. -/
def heading (index : Index) : Bytes :=
  (index.slot 0).tag :: (Bytes.ofWord index.chain ++ [index.contents.tag])

theorem encode_slot (index : Index) (position : AcceptIndex) :
    (index.slot position).encode = index.heading ++ Bytes.ofWordBigEndian position := by
  simp [slot, heading, Key.encode, Key.arguments, Key.tag]

theorem encode_slot_lt_iff :
    (index.slot first).encode < (index.slot last).encode ↔ first < last := by
  rw [encode_slot, encode_slot, Bytes.append_lt_append_iff, Bytes.ofWordBigEndian_lt_iff]

theorem exists_of_heading {key : Key} {rest : Bytes} (begins : key.encode = index.heading ++ rest) :
    ∃ position, key.canonical = (index.slot position).canonical ∧
      rest = Bytes.ofWordBigEndian position := by
  rw [Key.encode, heading, List.cons_append, List.append_assoc] at begins
  obtain ⟨tags, arguments⟩ := List.cons.inj begins
  cases key with
  | container chain contents position =>
      rw [Key.arguments, Bytes.ofWord_append_inj] at arguments
      obtain ⟨rfl, same⟩ := arguments
      obtain ⟨kinds, rfl⟩ := List.cons.inj same
      refine ⟨position, ?_, rfl⟩
      rw [slot, Key.canonical, Key.canonical, Contents.tag_eq_iff.mp kinds]
  | _ => simp [slot, Key.tag] at tags

theorem exists_of_between {key : Key} (above : (index.slot first).encode < key.encode)
    (below : key.encode < (index.slot last).encode) :
    ∃ position, first < position ∧ position < last ∧
      key.canonical = (index.slot position).canonical := by
  rw [encode_slot] at above below
  obtain ⟨rest, begins, beyond, under⟩ := Bytes.exists_of_between above below
  obtain ⟨position, same, rfl⟩ := exists_of_heading begins
  exact ⟨position, Bytes.ofWordBigEndian_lt_iff.mp beyond, Bytes.ofWordBigEndian_lt_iff.mp under,
    same⟩

/-- A scan of a store meets the containers of an index one after another, and nothing between
them. -/
structure Scans (index : Index) (store : Store) (containers : List Container) : Prop where
  sorted : (store.toList.map Prod.fst).Pairwise (· < ·)
  run : ∃ entries, entries <:+: store.toList ∧
    entries.map Prod.fst =
      (List.range containers.length).map (fun place => (index.slot (.ofNat place)).encode) ∧
    entries.map (Container.format.decodeFront ·.2) = containers.map .ok
  /-- Nothing else of the index is met. -/
  complete : ∀ entry ∈ store.toList, ∀ position, entry.1 = (index.slot position).encode →
    position.toNat < containers.length

/-- The entries of a store whose keys begin like those of an index. -/
def entries (index : Index) (store : Store) : List (Bytes × Bytes) :=
  store.toList.filter fun entry => index.heading.isPrefixOf entry.1

theorem entries_infix (index : Index) (store : Store) :
    index.entries store <:+: store.toList := by
  refine filter_infix_of_convex (fun first middle last above below starts ends => ?_)
    store.sorted_toList
  rw [List.isPrefixOf_iff_prefix] at starts ends ⊢
  obtain ⟨lower, here⟩ := starts
  obtain ⟨upper, there⟩ := ends
  rw [← here] at above
  rw [← there] at below
  obtain ⟨rest, same, -⟩ := Bytes.exists_of_between above below
  exact ⟨rest, same.symm⟩

theorem mem_entries_iff (laid : store.IsLaidOut) {entry : Bytes × Bytes} :
    entry ∈ index.entries store ↔
      ∃ position, entry.1 = (index.slot position).encode ∧
        store.raw? (index.slot position) = some entry.2 := by
  rw [entries, List.mem_filter, Std.ExtTreeMap.mem_toList_iff_getElem?_eq_some,
    List.isPrefixOf_iff_prefix]
  constructor
  · rintro ⟨found, rest, begins⟩
    obtain ⟨key, same⟩ := laid entry.1 (Std.ExtTreeMap.mem_iff_isSome_getElem?.mpr (found ▸ rfl))
    obtain ⟨position, alike, -⟩ := exists_of_heading (same.trans begins.symm)
    have here : entry.1 = (index.slot position).encode :=
      same.symm.trans (Key.encode_eq_iff.mpr alike)
    refine ⟨position, here, ?_⟩
    rw [Store.raw?, ← here]
    exact found
  · rintro ⟨position, here, found⟩
    exact ⟨here ▸ found, _, (here.trans (index.encode_slot position)).symm⟩

theorem Lists.decodeFront_eq (lists : index.Lists store containers) {bytes : Bytes}
    (stored : store.raw? (index.slot position) = some bytes) :
    ∃ container, containers[position.toNat]? = some container ∧
      Container.format.decodeFront bytes = .ok container := by
  have read := lists.container? position
  rw [Store.container?, Store.value?, ← slot, stored] at read
  dsimp only at read
  cases decoded : Container.format.decodeFront bytes with
  | error problem => simp [decoded] at read
  | ok container =>
      rw [decoded] at read
      exact ⟨container, (Except.ok.inj read).symm, rfl⟩

theorem Lists.exists_raw? (lists : index.Lists store containers)
    (inside : position.toNat < containers.length) :
    ∃ bytes, store.raw? (index.slot position) = some bytes := by
  have read := lists.container? position
  rw [List.getElem?_eq_getElem inside, Store.container?, Store.value?, ← slot] at read
  cases stored : store.raw? (index.slot position) with
  | none => simp [stored] at read
  | some bytes => exact ⟨bytes, rfl⟩

theorem Lists.map_fst_entries (lists : index.Lists store containers)
    (room : containers.length < UInt64.size) (laid : store.IsLaidOut) :
    (index.entries store).map Prod.fst =
      (List.range containers.length).map fun place => (index.slot (.ofNat place)).encode := by
  have ascending : ((index.entries store).map Prod.fst).Pairwise (· < ·) :=
    List.pairwise_map.mpr (store.sorted_toList.filter _)
  have numbered : ((List.range containers.length).map fun place =>
      (index.slot (.ofNat place)).encode).Pairwise (· < ·) := by
    refine List.pairwise_map.mpr (List.pairwise_lt_range.imp_of_mem fun _ later below => ?_)
    rw [List.mem_range] at later
    rw [encode_slot_lt_iff, UInt64.lt_iff_toNat_lt, UInt64.toNat_ofNat_of_lt' (by omega),
      UInt64.toNat_ofNat_of_lt' (by omega)]
    exact below
  have distinct {left right : Bytes} (less : left < right) : left ≠ right :=
    fun same => List.lt_irrefl right (same ▸ less)
  refine List.Perm.eq_of_pairwise (fun _ _ _ _ less more => ?_) ascending numbered ?_
  · exact absurd (List.lt_trans less more) (List.lt_irrefl _)
  refine (List.perm_ext_iff_of_nodup (ascending.imp distinct) (numbered.imp distinct)).mpr
    fun bytes => ?_
  rw [List.mem_map, List.mem_map]
  constructor
  · rintro ⟨entry, listed, rfl⟩
    obtain ⟨position, here, stored⟩ := (mem_entries_iff laid).mp listed
    obtain ⟨container, inside, -⟩ := lists.decodeFront_eq stored
    refine ⟨position.toNat, List.mem_range.mpr (List.getElem?_eq_some_iff.mp inside).1, ?_⟩
    rw [UInt64.ofNat_toNat, here]
  · rintro ⟨place, inside, rfl⟩
    rw [List.mem_range] at inside
    obtain ⟨bytes, stored⟩ := @lists.exists_raw? _ _ _ (.ofNat place)
      (by rwa [UInt64.toNat_ofNat_of_lt' (inside.trans room)])
    exact ⟨(_, bytes), (mem_entries_iff laid).mpr ⟨_, rfl, stored⟩, rfl⟩

theorem Lists.scans (lists : index.Lists store containers)
    (room : containers.length < UInt64.size) (laid : store.IsLaidOut) :
    index.Scans store containers where
  sorted := List.pairwise_map.mpr store.sorted_toList
  run := by
    have keys := lists.map_fst_entries room laid
    refine ⟨index.entries store, index.entries_infix store, keys, ?_⟩
    have length : (index.entries store).length = containers.length := by
      simpa using congrArg List.length keys
    refine List.ext_getElem (by simpa using length) fun place listed inside => ?_
    rw [List.length_map] at listed inside
    have here : (index.entries store)[place].1 = (index.slot (.ofNat place)).encode := by
      have key := List.getElem_of_eq keys (i := place) (by simpa using listed)
      rwa [List.getElem_map, List.getElem_map, List.getElem_range] at key
    have stored := Store.raw?_of_mem_toList
      ((index.entries_infix store).subset (List.getElem_mem listed)) here
    obtain ⟨container, there, decoded⟩ := lists.decodeFront_eq stored
    rw [UInt64.toNat_ofNat_of_lt' (inside.trans room), List.getElem?_eq_getElem inside] at there
    rw [List.getElem_map, List.getElem_map, decoded, Option.some.inj there]
  complete := by
    intro entry listed position here
    obtain ⟨container, inside, -⟩ := lists.decodeFront_eq (Store.raw?_of_mem_toList listed here)
    exact (List.getElem?_eq_some_iff.mp inside).1

end Index

namespace Filing

variable {index : Index} {disk : String} {node : Node}

/-- Whether what is done besides an index writes variables alone to its disk. -/
def KeepsLayout (filing : Filing index disk) : Prop :=
  match filing with
  | drift change _ => ∀ node : Node,
    (node.store disk).IsLaidOut → ((change node).store disk).IsLaidOut
  | _ => True

theorem isLaidOut_perform (filing : Filing index disk) (keeps : filing.KeepsLayout)
    (laid : (node.store disk).IsLaidOut) : ((filing.perform node).store disk).IsLaidOut := by
  cases filing with
  | make value on => exact laid
  | close id => exact laid
  | fail on outage refuses =>
      rw [perform, Node.store_setDisk]
      split
      · rename_i same
        exact same ▸ laid
      · exact laid
  | drift change kept => exact keeps node laid
  | take acceptedAt id chain unit =>
      rw [perform]
      rcases Node.accept_cases acceptedAt id chain unit node with
        ⟨error, done⟩ | ⟨after, done, disks⟩ | ⟨hosted, written, -, -, taken, done⟩
      · rwa [done]
      · rwa [done, Node.store_of_disks disks]
      · obtain ⟨batch, -, stored⟩ := Index.accept_cases taken
        rw [done]
        dsimp only
        rw [Node.store_setDisk]
        split
        · rename_i same
          rw [stored]
          exact (same ▸ laid : (node.store hosted.disk).IsLaidOut).apply batch
        · exact laid

theorem isLaidOut_run (filings : List (Filing index disk))
    (keeps : ∀ filing ∈ filings, filing.KeepsLayout) (laid : (node.store disk).IsLaidOut) :
    ((run filings node).store disk).IsLaidOut := by
  induction filings generalizing node with
  | nil => exact laid
  | cons filing rest ih =>
      exact ih (fun later inside => keeps later (List.mem_cons_of_mem _ inside))
        (filing.isLaidOut_perform (keeps filing List.mem_cons_self) laid)

end Filing

/-- The keys of an index sort as its positions do and nothing else is between them, so that whatever
history an index has, a scan of its disk meets what it holds in one run and in order. -/
structure Index.Collates (index : Index) : Prop where
  ordered : ∀ first last : AcceptIndex,
    (index.slot first).encode < (index.slot last).encode ↔ first < last
  /-- Only a variable of the same chain and the same kind of contents is between two. -/
  apart : ∀ (first last : AcceptIndex) (key : Key),
    (index.slot first).encode < key.encode → key.encode < (index.slot last).encode →
    ∃ position, first < position ∧ position < last ∧
      key.canonical = (index.slot position).canonical
  scanned : ∀ (disk : String) (node : Node) (filings : List (Filing index disk)),
    (∀ key, index.owns key = true → (node.store disk).raw? key = none) →
    (node.store disk).IsLaidOut → (∀ filing ∈ filings, filing.KeepsLayout) →
    (index.catalogue (Filing.deliveredAll filings node)).length < UInt64.size →
    index.Scans ((Filing.run filings node).store disk)
      (index.catalogue (Filing.deliveredAll filings node))

/-- Whatever an index is of, its keys sort in the order of acceptance. -/
theorem Index.collates (index : Index) : index.Collates where
  ordered _ _ := encode_slot_lt_iff
  apart _ _ _ := exists_of_between
  scanned _ _ filings empty laid keeps room :=
    (Filing.numbers_run filings (numbers_nil empty) room).toLists.scans room
      (Filing.isLaidOut_run filings keeps laid)

namespace Filing

theorem growth_scanned :
    ((∀ key, transactions.owns key = true → ((Node.empty 0).store "disk").raw? key = none) ∧
      ((Node.empty 0).store "disk").IsLaidOut ∧ (∀ filing ∈ growth, filing.KeepsLayout) ∧
      (transactions.catalogue (deliveredAll growth (.empty 0))).length < UInt64.size) ∧
    ∃ entries, entries <:+: ((run growth (.empty 0)).store "disk").toList ∧ entries.length = 3 ∧
      entries.map (Container.format.decodeFront ·.2) =
        (transactions.catalogue (deliveredAll growth (.empty 0))).map .ok := by
  have bare : (Node.empty 0).store "disk" = .empty := by
    simp [Node.store, Node.disk, Node.empty, Disk.empty]
  have empty : ∀ key, transactions.owns key = true →
      ((Node.empty 0).store "disk").raw? key = none := by
    intro key _
    rw [bare]
    exact Std.ExtTreeMap.getElem?_empty
  have laid : ((Node.empty 0).store "disk").IsLaidOut := bare ▸ Store.isLaidOut_empty
  have keeps : ∀ filing ∈ growth, filing.KeepsLayout := by
    intro filing inside
    simp only [growth, List.mem_cons, List.not_mem_nil, or_false] at inside
    rcases inside with rfl | rfl | rfl <;> exact trivial
  have room : (transactions.catalogue (deliveredAll growth (.empty 0))).length < UInt64.size := by
    rw [length_growth]
    decide
  have scans := transactions.collates.scanned "disk" (.empty 0) growth empty laid keeps room
  obtain ⟨entries, segment, keys, decoded⟩ := scans.run
  refine ⟨⟨empty, laid, keeps, room⟩, entries, segment, ?_, decoded⟩
  have length := congrArg List.length keys
  rwa [List.length_map, List.length_map, List.length_range, length_growth] at length

end Filing

end DecisionLedger
