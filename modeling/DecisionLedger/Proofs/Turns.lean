import DecisionLedger.Proofs.Session

/-! # Turns of a manager

Whatever step is taken, a manager does one of few things: it rests, holds a unit, notes that a
rejection is known, rejects a branch, or settles a plan; and it may halt besides.  What each of
these turns keeps is kept by every run.
-/

namespace DecisionLedger

namespace Manager

/-- What a manager may become in a step, and the units that are accepted on the way. -/
inductive Turn (manager : Manager) (store : Store) : Manager → List DecisionUnit → Prop where
  | rest : Turn manager store manager []
  | hold {parent unit : DecisionUnit} : manager.Unknown store unit.id →
      manager.Admits store parent unit → Turn manager store (manager.hold unit.held) []
  | acknowledge {id : UnitId} {found : RejectedUnit} : manager.rejected[id]? = some found →
      Turn manager store
        { manager with
          rejected := manager.rejected.insert id { found with awaiting := false } } []
  | discard (root : UnitId) : Turn manager store (Manager.discard false manager root).1 []
  | settle {unit : DecisionUnit} {plan : AcceptPlan} : manager.Plans unit plan →
      Turn manager store (manager.settle plan).1 (plan.accepted.map (·.unit))
  | halt {after : Manager} {further : List DecisionUnit} (reason : HaltReason) :
      Turn manager store after further → Turn manager store (after.halt reason).1 further

section Turn

variable {ω : Type} {host : LawfulHost ω} {origin : StateUpdates} {manager after : Manager}
  {store : Store} {world : ω} {accepted further : List DecisionUnit}

theorem pending_halt (manager : Manager) (reason : HaltReason) :
    (manager.halt reason).1.pending = manager.pending := by
  unfold Manager.halt
  split <;> rfl

theorem Turn.of_verify {unit : DecisionUnit} {events : List Event}
    (done : manager.verify store unit = .ok (after, events)) : manager.Turn store after [] := by
  rcases verify_cases done with rfl | ⟨rfl, unknown, parent, admits⟩
  · exact .rest
  · exact .hold unknown admits

theorem Turn.of_reject {id : UnitId} {events : List Event}
    (done : manager.reject id = .ok (after, events)) : manager.Turn store after [] := by
  rcases reject_cases done with ⟨found, known, rfl⟩ | rfl
  · exact .acknowledge known
  · exact .discard id

theorem Sound.turn_accepting {unit : UnitId} {result : Except ManagerError Unit × Manager × ω}
    (sound : manager.Sound origin (host.store world) accepted)
    (accepting : Accepting host manager unit world result) :
    ∃ further, manager.Turn (host.store world) result.2.1 further ∧
      result.2.1.Sound origin (host.store result.2.2) (accepted ++ further) := by
  cases accepting with
  | refused _ => exact ⟨[], .rest, by rwa [List.append_nil]⟩
  | unwritten _ same =>
      refine ⟨[], .halt _ .rest, ?_⟩
      rw [List.append_nil]
      exact (sound.halt _).of_sameLedger same
  | committed planned same final _ =>
      obtain ⟨decided, -, plans⟩ := sound.rooted.plan_cases sound.records.toLists planned
      have settled := (sound.settle plans).of_sameLedger same
      rcases final with rfl | ⟨reason, rfl⟩
      · exact ⟨_, .settle plans, settled⟩
      · exact ⟨_, .halt reason (.settle plans), settled.halt reason⟩

/-- A turn takes away nothing that is pending, or makes nothing pending. -/
theorem Turn.grows_or_shrinks (turn : manager.Turn store after further) :
    (∀ {id}, id ∈ manager.pending → id ∈ after.pending) ∨
      ∀ {unit}, after.Holds unit → manager.Holds unit := by
  induction turn with
  | rest | acknowledge => exact .inl fun present => present
  | hold unknown admits => exact .inl fun present => mem_pending_hold.mpr (.inr present)
  | discard root => exact .inr fun holds => ((holds_discard false root).mp holds).1
  | settle plans => exact .inr (Holds.of_settle plans)
  | @halt after further reason _ ih =>
      have same : (after.halt reason).1.pending = after.pending := pending_halt after reason
      rcases ih with grows | shrinks
      · exact .inl fun present => same ▸ grows present
      · exact .inr fun holds => shrinks ((holds_halt reason).mp holds)

/-- What is kept when a branch is rejected and when the next unit is settled, is kept when a plan is
settled. -/
theorem Rooted.settle_induction (holds : Manager → List DecisionUnit → Prop)
    (discarded : ∀ {manager accepted} (root : UnitId), manager.Rooted accepted →
      holds manager accepted → holds (Manager.discard true manager root).1 accepted)
    (settled : ∀ {manager accepted unit}, manager.Rooted accepted → manager.Next unit →
      holds manager accepted → holds (manager.settleUnit unit.held).1 (accepted ++ [unit]))
    (rooted : manager.Rooted accepted) {unit : DecisionUnit} {plan : AcceptPlan}
    (plans : manager.Plans unit plan) (start : holds manager accepted) :
    holds (manager.settle plan).1 (accepted ++ plan.accepted.map (·.unit)) := by
  cases plans with
  | unit next execution =>
      rw [settle_unit]
      exact settled rooted next start
  | @option proposal _ choice next kind decides =>
      rw [settle_option]
      obtain ⟨decidedRooted, decidedNext, decidedOption⟩ := rooted.dismiss next kind decides rfl
      have decided : holds (manager.sequence (Manager.discard true)
          (manager.optionOf? proposal.id choice.other).toList).1 accepted := by
        refine (sequence_induction (fun after => after.Rooted accepted ∧ holds after accepted)
          (fun root _ before both => ?_) ⟨rooted, start⟩).2
        exact ⟨both.1.discard true root, discarded root both.1 both.2⟩
      have above := settled decidedRooted decidedNext decided
      have top := decidedRooted.option_next decidedNext decidedOption
      have final := settled (decidedRooted.settleUnit decidedNext) top above
      rw [List.append_assoc] at final
      exact final

end Turn

end Manager

namespace Step

variable {ω : Type} {host : LawfulHost ω} {origin : StateUpdates} {accepted : List DecisionUnit}

def run (steps : List (Step host)) (situation : Manager × ω) : Manager × ω :=
  steps.foldl (fun situation step => step.perform situation) situation

theorem run_append (earlier later : List (Step host)) (situation : Manager × ω) :
    run (earlier ++ later) situation = run later (run earlier situation) :=
  List.foldl_append

theorem run_concat (steps : List (Step host)) (step : Step host) (situation : Manager × ω) :
    run (steps ++ [step]) situation = step.perform (run steps situation) :=
  run_append steps [step] situation

theorem turn_perform (step : Step host) (situation : Manager × ω)
    (sound : situation.1.Sound origin (host.store situation.2) accepted) :
    ∃ further, situation.1.Turn (host.store situation.2) (step.perform situation).1 further ∧
      (step.perform situation).1.Sound origin (host.store (step.perform situation).2)
        (accepted ++ further) := by
  cases step with
  | verify unit =>
      refine ⟨[], ?_⟩
      rw [List.append_nil]
      dsimp only [perform, conclude]
      cases done : situation.1.verify (host.store situation.2) unit with
      | error error => exact ⟨.rest, sound⟩
      | ok outcome =>
          exact ⟨.of_verify done, (sound.verify done).of_sameLedger
            (host.sameLedger_publishAll outcome.2 situation.2)⟩
  | accept unit =>
      exact sound.turn_accepting (Manager.accept_cases host situation.1 unit situation.2)
  | reject unit =>
      refine ⟨[], ?_⟩
      rw [List.append_nil]
      dsimp only [perform, conclude]
      cases done : situation.1.reject unit with
      | error error => exact ⟨.rest, sound⟩
      | ok outcome =>
          exact ⟨.of_reject done, (sound.reject done).of_sameLedger
            (host.sameLedger_publishAll outcome.2 situation.2)⟩
  | drift change kept =>
      refine ⟨[], .rest, ?_⟩
      rw [List.append_nil]
      exact sound.of_sameLedger (kept situation.2)

/-- What holds of a manager and of what was accepted, and is kept by every turn, holds after any
steps. -/
theorem run_induction (holds : Manager → List DecisionUnit → Prop)
    (kept : ∀ {manager after : Manager} {store other : Store}
      {accepted further : List DecisionUnit}, manager.Sound origin store accepted →
      after.Sound origin other (accepted ++ further) → manager.Turn store after further →
      holds manager accepted → holds after (accepted ++ further))
    (steps : List (Step host)) (situation : Manager × ω)
    (sound : situation.1.Sound origin (host.store situation.2) accepted)
    (start : holds situation.1 accepted) :
    ∃ further, (run steps situation).1.Sound origin (host.store (run steps situation).2)
        (accepted ++ further) ∧ holds (run steps situation).1 (accepted ++ further) := by
  induction steps using List.reverseRecOn with
  | nil =>
      refine ⟨[], ?_⟩
      rw [List.append_nil]
      exact ⟨sound, start⟩
  | append_singleton steps step ih =>
      obtain ⟨earlier, sound, before⟩ := ih
      obtain ⟨further, turn, next⟩ := step.turn_perform (run steps situation) sound
      refine ⟨earlier ++ further, ?_⟩
      rw [run_concat, ← List.append_assoc]
      exact ⟨next, kept sound next turn before⟩

end Step

end DecisionLedger
