import DecisionLedger.Proofs.Agreement
import DecisionLedger.Proofs.Recording
import DecisionLedger.Proofs.Snapshots

/-! # Shared memory

The requests of a unit's transactions are gathered before they are served: all removals first, then
all puts.  So a removal of what an earlier transaction of the same unit puts does nothing.  That is
the only way in which the shared memory differs from what the transactions ask for one after
another, and over several units it does not happen.
-/

namespace DecisionLedger

abbrev SharedMemory := StateKey → Option StateValue

def SharedMemory.set (memory : SharedMemory) (key : StateKey) (record : Option StateValue) :
    SharedMemory :=
  fun other => if key = other then record else memory other

namespace AtomicRequests

/-- The memory once requests are served: removals first, so a record both put and removed stays. -/
def serve (requests : AtomicRequests) (memory : SharedMemory) : SharedMemory :=
  let removed := requests.removes.foldl (fun memory key => SharedMemory.set memory key none) memory
  requests.puts.foldl (fun memory (key, value) => SharedMemory.set memory key (some value)) removed

theorem serve_apply (requests : AtomicRequests) (memory : SharedMemory) (key : StateKey) :
    requests.serve memory key =
      match lastValue? requests.puts key with
      | some value => some value
      | none => if key ∈ requests.removes then none else memory key := by
  have removed : requests.removes.foldl (fun memory key => SharedMemory.set memory key none) memory
      key = if key ∈ requests.removes then none else memory key :=
    foldl_keys (fun memory : SharedMemory => memory key) none (fun _ _ => rfl) _ memory
  refine (foldl_records (fun memory : SharedMemory => memory key) some
    (fun _ _ => rfl) requests.puts _).trans ?_
  cases lastValue? requests.puts key with
  | some value => rfl
  | none => exact removed

theorem serve_empty (memory : SharedMemory) : (∅ : AtomicRequests).serve memory = memory := rfl

/-- The requests of transactions to a chain, all puts in one list and all removals in another. -/
def merged (chain : ChainId) (transactions : List Transaction) : AtomicRequests :=
  gather chain (transactions.flatMap (·.requests))

theorem merged_append (chain : ChainId) (earlier later : List Transaction) :
    merged chain (earlier ++ later) = merged chain earlier ++ merged chain later := by
  rw [merged, List.flatMap_append, gather_append, merged, merged]

end AtomicRequests

open AtomicRequests (merged)

namespace SharedMemory

open AtomicRequests

variable (chain : ChainId) (key : StateKey)

/-- The memory once the requests of transactions are served one transaction after another. -/
def inOrder (transactions : List Transaction) (memory : SharedMemory) : SharedMemory :=
  transactions.foldl (fun memory transaction => (merged chain [transaction]).serve memory) memory

/-- The memory once the requests of groups of transactions are served one group after another. -/
def inGroups (groups : List (List Transaction)) (memory : SharedMemory) : SharedMemory :=
  groups.foldl (fun memory transactions => (merged chain transactions).serve memory) memory

def Puts (transaction : Transaction) : Prop :=
  ∃ value, (key, value) ∈ (merged chain [transaction]).puts

def Removes (transaction : Transaction) : Prop :=
  key ∈ (merged chain [transaction]).removes

/-- One transaction puts a record and a later one removes it, and neither that one nor any after it
puts it again. -/
def Overtaken (transactions : List Transaction) : Prop :=
  ∃ earlier transaction later, transactions = earlier ++ transaction :: later ∧
    (∃ before ∈ earlier, Puts chain key before) ∧ Removes chain key transaction ∧
    ¬Puts chain key transaction ∧ ∀ after ∈ later, ¬Puts chain key after

variable {chain key} {transactions : List Transaction} {transaction : Transaction}
  {memory other : SharedMemory}

theorem puts_iff : Puts chain key transaction ↔
    (lastValue? (merged chain [transaction]).puts key).isSome := by
  constructor
  · rintro ⟨value, inside⟩
    refine Option.isSome_iff_ne_none.mpr fun none => ?_
    exact lastValue?_eq_none_iff.mp none _ inside rfl
  · intro some
    obtain ⟨value, last⟩ := Option.isSome_iff_exists.mp some
    exact ⟨value, mem_of_lastValue? last⟩

theorem exists_puts_iff : (∃ transaction ∈ transactions, Puts chain key transaction) ↔
    (lastValue? (merged chain transactions).puts key).isSome := by
  induction transactions with
  | nil => exact iff_of_false nofun nofun
  | cons first rest ih =>
      have split : merged chain (first :: rest) = merged chain [first] ++ merged chain rest :=
        merged_append chain [first] rest
      rw [split, puts_append, lastValue?_append, Option.isSome_or, Bool.or_eq_true, ← ih,
        List.exists_mem_cons_iff, puts_iff, or_comm]

theorem Overtaken.exists_puts (overtaken : Overtaken chain key transactions) :
    ∃ before ∈ transactions, Puts chain key before := by
  obtain ⟨earlier, remover, later, rfl, ⟨before, inside, put⟩, -⟩ := overtaken
  exact ⟨before, List.mem_append_left _ inside, put⟩

theorem overtaken_concat : Overtaken chain key (transactions ++ [transaction]) ↔
    ¬Puts chain key transaction ∧ (Overtaken chain key transactions ∨
      Removes chain key transaction ∧ ∃ before ∈ transactions, Puts chain key before) := by
  constructor
  · rintro ⟨earlier, remover, later, split, put, removes, kept, last⟩
    rcases List.eq_nil_or_concat' later with rfl | ⟨later, final, rfl⟩
    · obtain ⟨rfl, same⟩ := List.append_inj' split rfl
      cases same
      exact ⟨kept, .inr ⟨removes, put⟩⟩
    · rw [← List.cons_append, ← List.append_assoc] at split
      obtain ⟨rfl, same⟩ := List.append_inj' split rfl
      cases same
      obtain ⟨rest, idle⟩ := List.forall_mem_append.mp last
      exact ⟨idle _ List.mem_cons_self, .inl ⟨_, _, _, rfl, put, removes, kept, rest⟩⟩
  · rintro ⟨idle, ⟨earlier, remover, later, rfl, put, removes, kept, last⟩ | ⟨removes, put⟩⟩
    · refine ⟨earlier, remover, later ++ [transaction], by simp, put, removes, kept, ?_⟩
      exact List.forall_mem_append.mpr ⟨last, by simpa using idle⟩
    · exact ⟨_, _, [], rfl, put, removes, idle, nofun⟩

theorem inOrder_concat (transactions : List Transaction) (transaction : Transaction)
    (memory : SharedMemory) : inOrder chain (transactions ++ [transaction]) memory =
      (merged chain [transaction]).serve (inOrder chain transactions memory) := by
  simp [inOrder]

/-- What is merged is served as in order wherever no put is overtaken, and nowhere else. -/
theorem serve_merged_eq_iff (transactions : List Transaction) (memory : SharedMemory) :
    (merged chain transactions).serve memory key = inOrder chain transactions memory key ↔
      ¬Overtaken chain key transactions := by
  induction transactions using List.reverseRecOn with
  | nil =>
      refine iff_of_true rfl fun overtaken => ?_
      obtain ⟨before, inside, -⟩ := overtaken.exists_puts
      exact List.not_mem_nil inside
  | append_singleton transactions transaction ih =>
      rw [serve_apply] at ih
      rw [inOrder_concat, overtaken_concat, exists_puts_iff, puts_iff, merged_append, serve_apply,
        serve_apply, puts_append, removes_append, lastValue?_append, Removes]
      -- in order the last transaction has the last word; merged, only its puts have
      cases lastValue? (merged chain [transaction]).puts key with
      | some value => simp
      | none =>
          cases before : lastValue? (merged chain transactions).puts key with
          | some value => by_cases removes : key ∈ (merged chain [transaction]).removes <;> simp_all
          | none =>
              have calm : ¬Overtaken chain key transactions := fun overtaken => by
                simpa [before] using exists_puts_iff.mp overtaken.exists_puts
              by_cases removes : key ∈ (merged chain [transaction]).removes <;> simp_all

theorem inOrder_congr (same : memory key = other key) (transactions : List Transaction) :
    inOrder chain transactions memory key = inOrder chain transactions other key := by
  induction transactions using List.reverseRecOn with
  | nil => exact same
  | append_singleton transactions transaction ih =>
      rw [inOrder_concat, inOrder_concat, serve_apply, serve_apply, ih]

/-- Groups are served as in order if no put is overtaken within its group. -/
theorem inGroups_eq {groups : List (List Transaction)}
    (calm : ∀ group ∈ groups, ¬Overtaken chain key group) (memory : SharedMemory) :
    inGroups chain groups memory key = inOrder chain groups.flatten memory key := by
  induction groups generalizing memory with
  | nil => rfl
  | cons group rest ih =>
      obtain ⟨first, later⟩ := List.forall_mem_cons.mp calm
      have split : inOrder chain (group ++ rest.flatten) memory =
          inOrder chain rest.flatten (inOrder chain group memory) := List.foldl_append
      calc
        inGroups chain (group :: rest) memory key
          = inGroups chain rest ((merged chain group).serve memory) key := rfl
        _ = inOrder chain rest.flatten ((merged chain group).serve memory) key := ih later _
        _ = inOrder chain rest.flatten (inOrder chain group memory) key :=
              inOrder_congr ((serve_merged_eq_iff group memory).mpr first) _
        _ = inOrder chain (group :: rest).flatten memory key := by rw [List.flatten_cons, split]

theorem inGroups_singletons (transactions : List Transaction) (memory : SharedMemory) :
    inGroups chain (transactions.map ([·])) memory = inOrder chain transactions memory := by
  rw [inGroups, inOrder, List.foldl_map]

end SharedMemory

namespace Store

open AtomicRequests

variable (store : Store) (chain : ChainId)

theorem apply_flatMap {α : Type} (store : Store) (items : List α) (stage : α → Batch) :
    store.apply (items.flatMap stage) =
      items.foldl (fun store item => store.apply (stage item)) store :=
  List.foldl_flatMap

theorem SameLedger.shared?_eq {store other : Store} (same : store.SameLedger other) :
    other.shared? chain = store.shared? chain :=
  funext fun key => same (.shared chain key) rfl

theorem shared?_apply_of_tag {batch : Batch} (tagged : ∀ change ∈ batch, change.key.tag ≠ 4) :
    (store.apply batch).shared? chain = store.shared? chain := by
  funext key
  refine raw?_apply_of_forall_ne rfl (fun change inside same => tagged change inside ?_) store
  rw [same]
  rfl

theorem shared?_change (other key : StateKey) (record : Option StateValue) :
    shared? (Change.apply ⟨.shared chain other, record⟩ store) chain key =
      if other = key then record else store.shared? chain key := by
  refine (raw?_change rfl _ store).trans (if_congr ?_ rfl rfl)
  simp

theorem shared?_requestShared (requests : AtomicRequests) :
    (store.apply (Batch.requestShared chain requests)).shared? chain =
      requests.serve (store.shared? chain) := by
  funext key
  rw [serve_apply, Batch.requestShared, apply_append, apply_flatMap, apply_flatMap]
  have removed := foldl_keys (fun store : Store => store.shared? chain key) none
    (fun store other => shared?_change store chain other key none) requests.removes store
  refine (foldl_records (fun store : Store => store.shared? chain key) some
    (fun store record => shared?_change store chain record.1 key (some record.2))
    requests.puts _).trans ?_
  cases lastValue? requests.puts key with
  | some value => rfl
  | none => exact removed

theorem shared?_requestShared_of_ne {other : ChainId} (apart : other ≠ chain)
    (requests : AtomicRequests) :
    (store.apply (Batch.requestShared other requests)).shared? chain = store.shared? chain := by
  funext key
  refine raw?_apply_of_forall_ne rfl (fun change inside same => apart ?_) store
  simp only [Batch.requestShared, Batch.removeShared, Batch.putShared, List.mem_append,
    List.mem_flatMap, List.mem_singleton] at inside
  rcases inside with ⟨_, -, rfl⟩ | ⟨_, -, rfl⟩ <;> exact (Key.shared.inj same).1

theorem shared?_requestAll {addressed : List (ChainId × AtomicRequests)}
    (distinct : addressed.Pairwise fun first second => first.1 ≠ second.1) :
    (store.apply (addressed.flatMap fun (chain, requests) =>
        Batch.requestShared chain requests)).shared? chain =
      (gather chain addressed).serve (store.shared? chain) := by
  induction addressed generalizing store with
  | nil => rfl
  | cons first rest ih =>
      obtain ⟨apart, distinct⟩ := List.pairwise_cons.mp distinct
      rw [List.flatMap_cons, apply_append, ih _ distinct, gather]
      by_cases here : first.1 = chain
      · subst here
        have elsewhere := gather_of_forall_ne fun other listed => (apart other listed).symm
        rw [if_pos rfl, elsewhere, append_empty, serve_empty, shared?_requestShared]
      · rw [if_neg here, shared?_requestShared_of_ne _ _ here]

theorem shared?_changes (diff : Diff) :
    (store.apply diff.changes).shared? chain =
      (diff.requests.getD chain ∅).serve (store.shared? chain) := by
  rw [Diff.changes, apply_append, shared?_requestAll _ _ (distinct_toList diff.requests),
    gather_toList, shared?_apply_of_tag]
  intro change inside
  rw [tag_of_mem_updateState inside]
  decide

end Store

namespace Diff

theorem getD_requests_recordAll (diff : Diff) (transactions : List Transaction) (chain : ChainId) :
    (transactions.foldl record diff).requests.getD chain ∅ =
      diff.requests.getD chain ∅ ++ merged chain transactions := by
  induction transactions generalizing diff with
  | nil => exact (AtomicRequests.append_empty _).symm
  | cons first rest ih =>
      rw [List.foldl_cons, ih, getD_requests_record, AtomicRequests.append_assoc]
      rw [merged, merged, List.flatMap_cons, AtomicRequests.gather_append]

end Diff

namespace DecisionUnit

variable (tip unit : DecisionUnit) (chain : ChainId)

theorem requests_overlay :
    (tip.overlay unit).requests.getD chain ∅ = merged chain (tip.gain unit) := by
  obtain ⟨parent, timestamp, same⟩ := tip.exists_overlay_eq unit
  rw [same, Diff.getD_requests_recordAll]
  exact AtomicRequests.empty_append _

theorem gain_of_plain {unit : DecisionUnit} (plain : unit.kind = .standard ∨ unit.kind = .vertex) :
    tip.gain unit = unit.body.payload := by
  unfold kind at plain
  unfold gain
  cases body : unit.body with
  | standard | vertex => rfl
  | proposal | commit | abort => simp [body, Body.kind] at plain

/-- What comes to count with each of several units that are accepted one after another. -/
def gains : DecisionUnit → List DecisionUnit → List (List Transaction)
  | _, [] => []
  | tip, unit :: rest => tip.gain unit :: gains unit rest

end DecisionUnit

theorem Store.shared?_commit (store : Store) (tip unit : DecisionUnit) (chain : ChainId) :
    (store.commit tip unit).shared? chain =
      (merged chain (tip.gain unit)).serve (store.shared? chain) := by
  rw [commit, apply_append, apply_append, shared?_changes, DecisionUnit.requests_overlay]
  congr 1
  rw [shared?_apply_of_tag, shared?_apply_of_tag]
  · simp [Batch.place, Batch.setUnit, Batch.setUnitAtHeight, Change.put, Key.tag]
  · simp [Batch.setLastAccepted, Change.put, Key.tag]

theorem Store.shared?_commitAll (store : Store) (tip : DecisionUnit) (units : List DecisionUnit)
    (chain : ChainId) :
    (store.commitAll tip units).shared? chain =
      SharedMemory.inGroups chain (tip.gains units) (store.shared? chain) := by
  induction units generalizing store tip with
  | nil => rfl
  | cons unit rest ih =>
      rw [commitAll, ih, shared?_commit]
      rfl

section Run

variable {ω : Type} {host : LawfulHost ω}

/-- The shared memory of a chain in a situation. -/
def LawfulHost.memory (host : LawfulHost ω) (situation : Manager × ω) (chain : ChainId) :
    SharedMemory :=
  (host.store situation.2).shared? chain

theorem Step.Advances.memory {before after : Manager × ω} {units : List DecisionUnit}
    (advances : Step.Advances host before after units) (chain : ChainId) :
    host.memory after chain =
      SharedMemory.inGroups chain (before.1.lastAccepted.gains units) (host.memory before chain) :=
  (advances.ledger.shared?_eq chain).trans (Store.shared?_commitAll _ _ _ _)

open SharedMemory

/-- What an acceptance makes of the shared memory, given the transactions that come to count. -/
structure Shares (host : LawfulHost ω) (before after : Manager × ω)
    (transactions : List Transaction) : Prop where
  /-- All removals come first and then all puts, whichever transactions ask for them. -/
  merged : ∀ chain, host.memory after chain =
    (merged chain transactions).serve (host.memory before chain)
  /-- A record is as the transactions leave it one after another exactly if it is not overtaken. -/
  ordered : ∀ chain key,
    host.memory after chain key = inOrder chain transactions (host.memory before chain) key ↔
      ¬Overtaken chain key transactions
  /-- However transactions are spread over units, a record that no unit overtakes by itself is as
  they leave it one after another. -/
  spread : ∀ (steps : List (Step host)) (chain : ChainId) (key : StateKey),
    (∀ group ∈ before.1.lastAccepted.gains (Step.committedAll steps before),
      ¬Overtaken chain key group) →
    host.memory (Step.run steps before) chain key =
      inOrder chain (before.1.lastAccepted.gains (Step.committedAll steps before)).flatten
        (host.memory before chain) key
  /-- Units that bring in the same transactions one by one leave the same record, unless it is
  overtaken. -/
  apart : ∀ steps : List (Step host),
    before.1.lastAccepted.gains (Step.committedAll steps before) = transactions.map ([·]) →
    ∀ chain key, host.memory (Step.run steps before) chain key = host.memory after chain key ↔
      ¬Overtaken chain key transactions

namespace Manager

variable {origin : StateUpdates} {manager : Manager} {world : ω} {accepted : List DecisionUnit}
  {id : UnitId} {pending : PendingUnit}

/-- An acceptance that is written serves what the transactions of the unit ask for, merged. -/
theorem Sound.memory_accept (sound : manager.Sound origin (host.store world) accepted)
    (found : manager.pending[id]? = some pending)
    (plain : pending.unit.kind = .standard ∨ pending.unit.kind = .vertex)
    {result : Except ManagerError Unit × Manager × ω}
    (accepting : Accepting host manager id world result) (committed : Committed result.1)
    (chain : ChainId) : host.memory result.2 chain =
      (AtomicRequests.merged chain pending.unit.body.payload).serve
        (host.memory (manager, world) chain) := by
  cases accepting with
  | refused distinct | unwritten distinct =>
      cases committed with
      | unheard failures => exact absurd rfl (distinct failures)
  | committed planned same settled _ =>
      obtain ⟨unit, rfl, plans⟩ := sound.rooted.plan_cases sound.records.toLists planned
      have written := ((plans.commits _).trans same).shared?_eq chain
      rw [Store.shared?_commitAll] at written
      obtain ⟨other, holds, distinct, rfl⟩ := sound.rooted.exists_of_getElem? found
      cases plans with
      | unit next execution =>
          cases next.holds.eq_of_id holds distinct.symm
          rw [← DecisionUnit.gain_of_plain manager.lastAccepted plain]
          exact written
      | option _ _ decides =>
          cases decides.holds.eq_of_id holds distinct.symm
          have choice := decides.choice_eq
          rw [DecisionUnit.choice?_eq] at choice
          rcases plain with kind | kind <;> simp_all

theorem Sound.shares (sound : manager.Sound origin (host.store world) accepted)
    {after : Manager × ω} {transactions : List Transaction}
    (merges : ∀ chain, host.memory after chain =
      (AtomicRequests.merged chain transactions).serve (host.memory (manager, world) chain)) :
    Shares host (manager, world) after transactions where
  merged := merges
  ordered := by
    intro chain key
    rw [merges]
    exact serve_merged_eq_iff _ _
  spread := by
    intro steps chain key calm
    rw [(Step.advances_run steps _ sound).memory, inGroups_eq calm]
  apart := by
    intro steps gains chain key
    rw [(Step.advances_run steps _ sound).memory, gains, inGroups_singletons, merges, eq_comm]
    exact serve_merged_eq_iff _ _

end Manager

/-- After any calls, an acceptance of a plain unit that is written serves the requests of the unit's
transactions all at once, which is to serve them in order wherever no record is overtaken. -/
theorem Tenure.shares_run {config : Configuration} {origin : StateUpdates}
    (tenure : Tenure host config origin) (steps : List (Step host)) {id : UnitId}
    {pending : PendingUnit} (found : (tenure.run steps).1.pending[id]? = some pending)
    (plain : pending.unit.kind = .standard ∨ pending.unit.kind = .vertex)
    (committed : Manager.Committed ((Call.accept id).answer host (tenure.run steps))) :
    Shares host (tenure.run steps) (((Call.accept id).step host).perform (tenure.run steps))
      pending.unit.body.payload := by
  obtain ⟨accepted, sound⟩ := tenure.sound_run steps
  exact sound.shares (sound.memory_accept found plain (Manager.accept_cases host _ id _) committed)

end Run

namespace Packing

def begun : Tenure LawfulHost.bare { chain := 1 } ∅ :=
  (Start.ofFounded (Store.empty.apply (Batch.found ∅)) _ Forgetful.sameLedger_founded).tenure

def putting : Transaction where
  inputs := []
  outputs := []
  requests := [(2, { puts := [([0xaa], [1])], removes := [] })]

def removing : Transaction where
  inputs := []
  outputs := []
  requests := [(2, { puts := [], removes := [[0xaa]] })]

/-- Both transactions in one unit. -/
def packed : DecisionUnit :=
  .ofFields { parent := DecisionUnit.genesis.id, height := 1, timestamp := none,
              body := .standard [putting, removing] } (by decide)

def first : DecisionUnit :=
  .ofFields { parent := DecisionUnit.genesis.id, height := 1, timestamp := none,
              body := .standard [putting] } (by decide)

def second : DecisionUnit :=
  .ofFields { parent := first.id, height := 2, timestamp := none,
              body := .standard [removing] } (by decide)

def spreading : List (Step LawfulHost.bare) :=
  [.verify first, .verify second, .accept first.id, .accept second.id]

set_option maxRecDepth 100000 in
theorem packed_eq :
    (begun.run [.verify packed]).1.halted = none ∧
    (begun.run [.verify packed]).1.pending[packed.id]?.map (·.unit) = some packed ∧
    ((begun.run [.verify packed]).1.plan (begun.run [.verify packed]).2 packed.id).toOption.isSome ∧
    LawfulHost.bare.memory (begun.run [.verify packed, .accept packed.id]) 2 [0xaa] = some [1] := by
  decide +kernel

theorem accept_packed :
    (Call.accept packed.id).answer LawfulHost.bare (begun.run [.verify packed]) = .ok () := by
  obtain ⟨running, -, planned, -⟩ := packed_eq
  obtain ⟨plan, done⟩ := Option.isSome_iff_exists.mp planned
  exact congrArg Prod.fst (LawfulHost.accept_bare running (toOption_eq_some_iff.mp done))

theorem overtaken_packed : SharedMemory.Overtaken 2 [0xaa] [putting, removing] :=
  have put : SharedMemory.Puts 2 [0xaa] putting := ⟨[1], List.mem_singleton_self _⟩
  ⟨[putting], removing, [], rfl, ⟨putting, List.mem_singleton_self _, put⟩,
    List.mem_singleton_self _, fun ⟨_, again⟩ => List.not_mem_nil again, nofun⟩

/-- To accept the packed unit is to serve both transactions at once, which is not to serve the one
after the other. -/
theorem packed_shares :
    (∃ pending, (begun.run [.verify packed]).1.pending[packed.id]? = some pending ∧
      (pending.unit.kind = .standard ∨ pending.unit.kind = .vertex) ∧
      pending.unit.body.payload = [putting, removing]) ∧
    Manager.Committed
      ((Call.accept packed.id).answer LawfulHost.bare (begun.run [.verify packed])) ∧
    Shares LawfulHost.bare (begun.run [.verify packed])
      (((Call.accept packed.id).step LawfulHost.bare).perform (begun.run [.verify packed]))
      [putting, removing] ∧
    SharedMemory.Overtaken 2 [0xaa] [putting, removing] := by
  obtain ⟨-, present, -⟩ := packed_eq
  obtain ⟨pending, found, same⟩ := Option.map_eq_some_iff.mp present
  have standard : packed.kind = .standard := rfl
  have payload : packed.body.payload = [putting, removing] := rfl
  have plain : pending.unit.kind = .standard ∨ pending.unit.kind = .vertex := .inl (same ▸ standard)
  have committed : Manager.Committed
      ((Call.accept packed.id).answer LawfulHost.bare (begun.run [.verify packed])) :=
    accept_packed ▸ .heard
  have shares := begun.shares_run [.verify packed] found plain committed
  rw [same, payload] at shares
  exact ⟨⟨pending, found, plain, same ▸ payload⟩, committed, shares, overtaken_packed⟩

set_option maxRecDepth 100000 in
theorem spread_eq :
    begun.committed spreading = [first, second] ∧
    LawfulHost.bare.memory (begun.run spreading) 2 [0xaa] = none := by
  decide +kernel

/-- Packed into one unit, the transactions leave the record that they remove one after the other. -/
theorem removal_overtaken :
    Manager.Committed
      ((Call.accept packed.id).answer LawfulHost.bare (begun.run [.verify packed])) ∧
    packed.body.payload = first.body.payload ++ second.body.payload ∧
    begun.committed spreading = [first, second] ∧
    LawfulHost.bare.memory (begun.run [.verify packed, .accept packed.id]) 2 [0xaa] ≠
      SharedMemory.inOrder 2 packed.body.payload
        (LawfulHost.bare.memory (begun.run [.verify packed]) 2) [0xaa] ∧
    LawfulHost.bare.memory (begun.run [.verify packed, .accept packed.id]) 2 [0xaa] ≠
      LawfulHost.bare.memory (begun.run spreading) 2 [0xaa] := by
  obtain ⟨-, -, -, left⟩ := packed_eq
  have gone (memory : SharedMemory) :
      SharedMemory.inOrder 2 packed.body.payload memory [0xaa] = none := rfl
  refine ⟨accept_packed ▸ .heard, rfl, spread_eq.1, ?_, ?_⟩
  · rw [left, gone]
    nofun
  · rw [left, spread_eq.2]
    nofun

end Packing

end DecisionLedger
