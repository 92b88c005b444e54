import DecisionLedger.Proofs.AcceptedState
import DecisionLedger.Proofs.Lifecycle

/-! # The time of a chain

A unit that carries a time is not earlier than its parent if that carries one too.  So time does not
run backwards along units that all carry one, however many there are.  A unit without a time is
compared with nothing, and what follows it may be earlier than what it follows.
-/

namespace DecisionLedger

/-- A unit is not earlier than the one before it, if both carry a time. -/
def DecisionUnit.NotAfter (parent unit : DecisionUnit) : Prop :=
  ∀ {before after}, parent.timestamp = some before → unit.timestamp = some after → before ≤ after

def Ascending (units : List DecisionUnit) : Prop :=
  (units.filterMap (·.timestamp)).Pairwise (· ≤ ·)

instance (units : List DecisionUnit) : Decidable (Ascending units) :=
  inferInstanceAs (Decidable ((units.filterMap (·.timestamp)).Pairwise (· ≤ ·)))

/-- Time does not run backwards over consecutive units that all carry one. -/
def Steady (units : List DecisionUnit) : Prop :=
  ∀ {stretch}, stretch <:+: units → (∀ unit ∈ stretch, unit.timestamp.isSome = true) →
    Ascending stretch

section Line

variable {units : List DecisionUnit}

theorem ascending_of_isChain (linked : units.IsChain DecisionUnit.NotAfter)
    (timed : ∀ unit ∈ units, unit.timestamp.isSome = true) : Ascending units := by
  have : Trans (α := Timestamp) (· ≤ ·) (· ≤ ·) (· ≤ ·) := ⟨UInt64.le_trans⟩
  rw [Ascending, ← List.isChain_iff_pairwise]
  induction units with
  | nil => exact List.isChain_nil
  | cons first rest ih =>
      obtain ⟨start, here⟩ := Option.isSome_iff_exists.mp (timed first List.mem_cons_self)
      have later := ih linked.tail fun unit inside => timed unit (List.mem_cons_of_mem _ inside)
      cases rest with
      | nil => simp [here]
      | cons second further =>
          obtain ⟨next, there⟩ := Option.isSome_iff_exists.mp (timed second (by simp))
          rw [List.filterMap_cons_some there] at later
          rw [List.filterMap_cons_some here, List.filterMap_cons_some there]
          have ordered : start ≤ next := (List.isChain_cons_cons.mp linked).1 here there
          exact List.isChain_cons_cons.mpr ⟨ordered, later⟩

theorem isChain_concat {follows : DecisionUnit → DecisionUnit → Prop} {top unit : DecisionUnit}
    (linked : units.IsChain follows) (last : units.getLast? = some top) (next : follows top unit) :
    (units ++ [unit]).IsChain follows := by
  refine linked.append (List.isChain_singleton _) ?_
  simpa [last] using next

theorem steady_of_isChain (linked : units.IsChain DecisionUnit.NotAfter) : Steady units := by
  rintro stretch ⟨before, after, rfl⟩ timed
  exact ascending_of_isChain linked.left_of_append.right_of_append timed

end Line

namespace Manager

section Timely

variable {origin : StateUpdates} {manager after : Manager} {store : Store}
  {accepted further line : List DecisionUnit} {parent unit : DecisionUnit} {id : UnitId}

/-- Every unit on the way up to a pending one was compared with the unit before it. -/
def Timely (manager : Manager) (accepted : List DecisionUnit) : Prop :=
  ∀ id line, manager.Lineage accepted id line → line.IsChain DecisionUnit.NotAfter

theorem Timely.shrink (timely : manager.Timely accepted)
    (kept : ∀ {unit}, after.Holds unit → manager.Holds unit)
    (moved : manager.Lineage accepted after.lastAccepted.id further) : after.Timely further :=
  fun _ _ lineage => timely _ _ (lineage.transfer kept moved)

theorem Rooted.lineage_of_admits (rooted : manager.Rooted accepted)
    (admits : manager.Admits store parent unit) :
    ∃ line, manager.Lineage accepted unit.parent line ∧ line.getLast? = some parent := by
  obtain ⟨follows, known⟩ := rooted.parent_of_admits admits
  exact rooted.lineage_of_parent (known.imp_right And.right) follows.parent_eq

theorem Timely.hold (timely : manager.Timely accepted) (rooted : manager.Rooted accepted)
    (lists : store.Lists accepted) (unknown : manager.Unknown store unit.id)
    (admits : manager.Admits store parent unit) : (manager.hold unit.held).Timely accepted := by
  have next := rooted.hold lists unknown admits
  have grows {id : UnitId} {line : List DecisionUnit} (lineage : manager.Lineage accepted id line) :
      (manager.hold unit.held).Lineage accepted id line :=
    lineage.transfer (fun held => (holds_hold unknown.notPending).mpr (.inr held)) (.root rfl)
  intro id line lineage
  cases lineage with
  | root tip => exact timely _ _ (.root tip)
  | @child _ other below holds same lower =>
      rcases (holds_hold unknown.notPending).mp holds with rfl | held
      · obtain ⟨line, lineage, last⟩ := rooted.lineage_of_admits admits
        obtain rfl := next.lineage_unique lower (grows lineage)
        exact isChain_concat (timely _ _ lineage) last admits.time
      · obtain ⟨line, lineage⟩ := rooted.exists_lineage held
        obtain rfl := next.lineage_unique lower (grows lineage)
        exact timely _ _ (.child held rfl lineage)

/-- No turn of a manager lets time run backwards from a unit to the next. -/
theorem Turn.timely (turn : manager.Turn store after further)
    (sound : manager.Sound origin store accepted) (timely : manager.Timely accepted) :
    after.Timely (accepted ++ further) := by
  induction turn with
  | rest | acknowledge =>
      rw [List.append_nil]
      exact timely.shrink (fun holds => holds) (.root rfl)
  | hold unknown admits =>
      rw [List.append_nil]
      exact timely.hold sound.rooted sound.records.toLists unknown admits
  | discard root =>
      rw [List.append_nil]
      refine timely.shrink (fun holds => ((holds_discard false root).mp holds).1) (.root ?_)
      rw [lastAccepted_discard]
  | settle plans =>
      refine timely.shrink (Holds.of_settle plans) ?_
      rw [lastAccepted_settle plans]
      exact plans.lineage.2
  | halt reason _ ih =>
      refine ih.shrink (holds_halt reason).mp (.root ?_)
      rw [lastAccepted_halt]

theorem Timely.initial {config : Configuration} {tip : DecisionUnit}
    (linked : accepted.IsChain DecisionUnit.NotAfter) : (initial config tip).Timely accepted := by
  intro id line lineage
  cases lineage with
  | root _ => exact linked
  | child holds _ _ => exact absurd holds (not_holds_initial _)

theorem Sound.isChain_extends (sound : manager.Sound origin store accepted)
    (lineage : manager.Lineage accepted id line) :
    line.head? = some .genesis ∧ line.IsChain fun parent unit => unit.Extends parent := by
  induction lineage with
  | root _ => exact ⟨sound.chronicle.genesis, sound.chronicle.linked⟩
  | child holds _ lower ih =>
      obtain ⟨first, linked⟩ := ih
      obtain ⟨tip, last, follows, -⟩ := sound.rooted.extends_last holds lower
      exact ⟨by simp [first], isChain_concat linked last follows⟩

end Timely

end Manager

section Run

variable {ω : Type} {host : LawfulHost ω} {config : Configuration} {origin : StateUpdates}

theorem Step.timely_run {manager : Manager} {world : ω} {accepted : List DecisionUnit}
    (steps : List (Step host)) (sound : manager.Sound origin (host.store world) accepted)
    (timely : manager.Timely accepted) :
    ∃ further, (run steps (manager, world)).1.Sound origin
        (host.store (run steps (manager, world)).2) (accepted ++ further) ∧
      (run steps (manager, world)).1.Timely (accepted ++ further) :=
  run_induction Manager.Timely (fun sound _ turn timely => turn.timely sound timely) steps
    (manager, world) sound timely

/-- Whatever managers did to a store, no unit that it keeps is earlier than the one before it. -/
theorem Served.timely {world : ω} (served : Served host origin world) :
    ∃ accepted, (host.store world).Keeps origin accepted ∧
      accepted.IsChain DecisionUnit.NotAfter := by
  induction served with
  | founded founded =>
      exact ⟨_, (Manager.sound_found { chain := 0 } origin founded).keeps,
        List.isChain_singleton _⟩
  | left steps _ resumed ih =>
      obtain ⟨accepted, keeps, linked⟩ := ih
      obtain ⟨tip, rfl, sound⟩ := keeps.resumed resumed
      obtain ⟨further, later, timely⟩ := Step.timely_run steps sound (.initial linked)
      exact ⟨_, later.keeps, timely _ _ (.root rfl)⟩
  | cut steps _ resumed planned written ih =>
      obtain ⟨accepted, keeps, linked⟩ := ih
      obtain ⟨tip, rfl, sound⟩ := keeps.resumed resumed
      obtain ⟨further, later, timely⟩ := Step.timely_run steps sound (.initial linked)
      obtain ⟨unit, -, plans⟩ := later.rooted.plan_cases later.records.toLists planned
      exact ⟨_, ((later.settle plans).of_sameLedger (host.written written)).keeps,
        timely _ _ plans.lineage.2⟩

/-- After any calls, the units from genesis through the accepted ones up to a pending one form a
chain, over which time is steady. -/
theorem Tenure.steady_run (tenure : Tenure host config origin) (steps : List (Step host)) :
    let (manager, world) := tenure.run steps
    ∃ accepted, (host.store world).acceptedUpTo? manager.lastAccepted.height = some accepted ∧
      (∀ id, id ∈ manager.pending ∨ id = manager.lastAccepted.id →
        ∃ line, manager.Lineage accepted id line) ∧
      ∀ {id line}, manager.Lineage accepted id line →
        line.head? = some .genesis ∧ (line.IsChain fun parent unit => unit.Extends parent) ∧
          Steady line := by
  obtain ⟨accepted, keeps, linked⟩ := tenure.served.timely
  obtain ⟨tip, fresh, sound⟩ := keeps.resumed tenure.resumed
  obtain ⟨further, later, timely⟩ := Step.timely_run steps sound (fresh ▸ .initial linked)
  refine ⟨_, later.records.acceptedUpTo?_eq later.chronicle later.rooted.last, ?_, ?_⟩
  · rintro id (present | rfl)
    · obtain ⟨unit, holds, rfl⟩ := later.rooted.mem_pending_iff.mp present
      obtain ⟨line, lineage⟩ := later.rooted.exists_lineage holds
      exact ⟨_, .child holds rfl lineage⟩
    · exact ⟨_, .root rfl⟩
  · intro id line lineage
    obtain ⟨first, chained⟩ := later.isChain_extends lineage
    exact ⟨first, chained, steady_of_isChain (timely _ _ lineage)⟩

end Run

namespace Interlude

def begun : Tenure LawfulHost.bare { chain := 1 } ∅ :=
  (Start.ofFounded (Store.empty.apply (Batch.found ∅)) _ Forgetful.sameLedger_founded).tenure

def late : DecisionUnit :=
  .ofFields { parent := DecisionUnit.genesis.id, height := 1, timestamp := some 100,
              body := .standard [Forgetful.output 0xaa 1] } (by decide)

def untimed : DecisionUnit :=
  .ofFields { parent := late.id, height := 2, timestamp := none,
              body := .standard [Forgetful.output 0xbb 2] } (by decide)

def early : DecisionUnit :=
  .ofFields { parent := untimed.id, height := 3, timestamp := some 50,
              body := .standard [Forgetful.output 0xcc 3] } (by decide)

def verified : List (Step LawfulHost.bare) :=
  [.verify late, .verify untimed, .verify early]

set_option maxRecDepth 100000 in
theorem verified_pending :
    let situation := begun.run verified
    situation.1.pending[late.id]?.map (·.unit) = some late ∧
    situation.1.pending[untimed.id]?.map (·.unit) = some untimed ∧
    situation.1.pending[early.id]?.map (·.unit) = some early ∧
    situation.1.lastAccepted.id = DecisionUnit.genesis.id ∧
    situation.2.acceptedUpTo? situation.1.lastAccepted.height = some [.genesis] := by
  decide +kernel

/-- Time drops from one unit to another, over a unit between them that carries none. -/
theorem time_drops :
    let situation := begun.run verified
    ¬∀ {accepted id line},
      situation.2.acceptedUpTo? situation.1.lastAccepted.height = some accepted →
        situation.1.Lineage accepted id line → Ascending line := by
  obtain ⟨accepted, sound⟩ := begun.sound_run verified
  have pending := verified_pending
  generalize begun.run verified = situation at sound pending ⊢
  obtain ⟨first, second, third, last, listed⟩ := pending
  have holds {unit : DecisionUnit}
      (present : situation.1.pending[unit.id]?.map (·.unit) = some unit) :
      situation.1.Holds unit := by
    obtain ⟨pending, found, rfl⟩ := Option.map_eq_some_iff.mp present
    rw [Manager.Holds, ← (sound.rooted.keyed found).2]
    exact found
  have lowest : situation.1.Lineage [.genesis] late.id [.genesis, late] :=
    .child (holds first) rfl (.root last.symm)
  have middle : situation.1.Lineage [.genesis] untimed.id [.genesis, late, untimed] :=
    .child (holds second) rfl lowest
  have lineage : situation.1.Lineage [.genesis] early.id [.genesis, late, untimed, early] :=
    .child (holds third) rfl middle
  intro reached ascends
  have times : Ascending [.genesis, late, untimed, early] := ascends listed lineage
  exact absurd times (by decide)

end Interlude

end DecisionLedger
