import Mathlib
import IqBalance.Proofs.Axis
import IqBalance.Proofs.Balancer.Finite
import IqBalance.Proofs.Balancer.Publication

/-!
The estimates that a run publishes, in whatever arithmetic.

A call settles what a refresh may set in one of two ways (`Settles`): it leaves
target and axes as they are, or it publishes an estimate and sets both from it.
So after a run each of them can be told from the estimates alone. The target is
what the last one published (`Balancer.target_of_run`), and a step is what the
ratios of all of them, in order, have made of the first one
(`Balancer.axes_of_run`), so bounds that confine it hold
(`Balancer.holds_of_run`). Beside these, the lookback filter remembers the
candidates since the last retuning (`Balancer.remembers_of_run`), and of the
tuning no more than the cadence has changed (`Balancer.config_of_run`).
`Balancer.AtBlocks` is how a run is asked for something at each of its blocks.
-/

namespace IqBalance

variable {α : Type}

/-! ### Estimates and answers -/

namespace Answer

/-- The estimate that an answer publishes. -/
def estimate? : Answer α → Option (Estimate α)
  | .processed _ (.published estimate _ _) => some estimate
  | _ => none

/-- The estimates that answers publish, in order. -/
def estimates (answers : List (Answer α)) : List (Estimate α) := answers.filterMap estimate?

theorem estimates_concat (answers : List (Answer α)) (answer : Answer α) :
    estimates (answers ++ [answer]) = estimates answers ++ answer.estimate?.toList := by
  rw [estimates, List.filterMap_append, estimates]
  cases h : answer.estimate? <;> simp [h]

/-- The candidates of an estimate are what the lookback filter is told. -/
theorem event?_of_estimate? {answer : Answer α} {estimate : Estimate α}
    (h : answer.estimate? = some estimate) : answer.event? = some (.push estimate.raw) := by
  cases answer with
  | processed block outcome =>
    cases outcome with
    | published => cases h; rfl
    | _ => cases h
  | _ => cases h

theorem event?_of_estimate?_none {answer : Answer α} (h : answer.estimate? = none) :
    answer.event? = none ∨ answer.event? = some .restart := by
  cases answer with
  | processed block outcome =>
    cases outcome with
    | published => cases h
    | _ => exact .inl rfl
  | retuned => exact .inr rfl
  | configured _ => exact .inl rfl

end Answer

/-- The estimates that the lookback filter is told of after one more answer. -/
theorem recent_events_concat (answers : List (Answer α)) (answer : Answer α) :
    Lookback.Event.recent (Answer.events (answers ++ [answer])) =
      answer.event?.elim (Lookback.Event.recent (Answer.events answers))
        (·.extend (Lookback.Event.recent (Answer.events answers))) := by
  rw [Lookback.Event.recent, Answer.events, List.filterMap_append, List.foldl_append]
  cases h : answer.event? <;> simp [h, Lookback.Event.recent, Answer.events]

namespace Balancer

variable [Scalar α] {b after : Balancer α} {answer : Answer α}

/-! ### A call -/

/-- What a block publishes is on record after it. -/
theorem estimate?_of_processes {dc : DcTracker α} {out : Block α} {done : Processed α}
    (h : Processes b dc out done) (hout : done.outcome.isPublished) :
    (Answer.processed done.block done.outcome).estimate? = done.balancer.lastEstimate := by
  cases h with
  | idle => cases hout
  | passed => cases hout
  | ended _ _ hend =>
    rcases endCycle_cases hend with ⟨-, rfl, rfl⟩ | ⟨-, hrefresh⟩
    · cases hout
    · cases hrefresh with
      | utilityNotFinite => cases hout
      | candidateNotFinite => cases hout
      | published => rfl

/-- What a call makes of target and axes, and the estimate that it publishes. -/
inductive Settles (b : Balancer α) : Call α → Balancer α → Option (Estimate α) → Prop
  | kept {c : Call α} {after : Balancer α} (htarget : after.ramp.target = b.ramp.target)
      (hphase : after.phaseAxis = b.phaseAxis)
      (hamplitude : after.amplitudeAxis = b.amplitudeAxis) :
      Settles b c after none
  | published {block : Block α} {after : Balancer α} {u v : Sample α}
      {phase amplitude : AxisEstimate α} (hpublishes : b.Publishes block u v phase amplitude)
      (hcommits : b.Commits after phase amplitude) :
      Settles b (.process block) after
        (some {
          phaseMu := phase.mu
          amplitudeMu := amplitude.mu
          raw := ⟨phase.candidate, amplitude.candidate⟩
          published := after.ramp.target
          lookbackDepth := after.lookback.depth })

theorem settles_of_call {c : Call α} (h : b.call c = .ok (after, answer)) :
    b.Settles c after answer.estimate? := by
  cases answers_of_call h with
  | @processed block done hprocesses =>
    rcases publishes_or_withholds hprocesses with
      ⟨hout, -⟩ | ⟨hout, u, v, phase, amplitude, hpublishes, hcommits⟩
    · have hkeeps := keeps_of_processes hprocesses hout
      have hnone : (Answer.processed done.block done.outcome).estimate? = none := by
        cases hcase : done.outcome with
        | published => rw [hcase] at hout; cases hout
        | _ => rfl
      rw [hnone]
      exact .kept hkeeps.target hkeeps.phaseAxis hkeeps.amplitudeAxis
    · rw [estimate?_of_processes hprocesses hout, hcommits.lastEstimate]
      exact .published hpublishes hcommits
  | retuned => exact .kept rfl rfl rfl
  | configured _ => exact .kept rfl rfl rfl
  | rejected _ => exact .kept rfl rfl rfl

/-- Of the tuning a call changes the cadence alone. -/
theorem config_of_call {c : Call α} (h : b.call c = .ok (after, answer)) :
    after.config = { b.config with cadence := after.config.cadence } := by
  cases answers_of_call h with
  | processed hprocesses =>
    cases hprocesses with
    | idle => rfl
    | passed => rfl
    | @ended last _ _ _ hend =>
      have hconfig : last.config = b.config := (endCycle_frame hend).1
      change last.config = { b.config with cadence := last.config.cadence }
      rw [hconfig]
  | retuned => rfl
  | configured _ => rfl
  | rejected _ => rfl

/-! ### A run -/

/-- What holds of engine and block whenever calls come to a block. -/
def AtBlocks (P : Balancer α → Block α → Prop) (b₀ : Balancer α) (calls : List (Call α)) : Prop :=
  ∀ before block rest b answers, calls = before ++ .process block :: rest →
    b₀.run before = .ok (b, answers) → P b block

theorem AtBlocks.of_append {P : Balancer α → Block α → Prop} {b₀ : Balancer α}
    {calls rest : List (Call α)} (h : AtBlocks P b₀ (calls ++ rest)) : AtBlocks P b₀ calls := by
  rintro before block later b answers rfl hrun
  exact h before block (later ++ rest) b answers (by simp) hrun

variable {memory : Allocator} {tables : (size : FftSize) → Tables α size} {config : Config α}
  {b₀ : Balancer α} {calls : List (Call α)} {answers : List (Answer α)}

theorem ramp_of_create (hcreate : create memory tables config = .ok b₀) :
    b₀.ramp = .atRest config.initial := by
  obtain ⟨size, lookback, phaseAxis, amplitudeAxis, -, -, -, -, -, rfl⟩ :=
    create_eq_ok_iff.mp hcreate
  rfl

theorem config_of_run (hrun : b₀.run calls = .ok (b, answers)) :
    b.config = { b₀.config with cadence := b.config.cadence } := by
  induction calls using List.reverseRecOn generalizing b answers with
  | nil =>
    cases hrun
    rfl
  | append_singleton calls c ih =>
    obtain ⟨mid, earlier, answer, hbefore, hcall, rfl⟩ := run_concat_eq_ok_iff.mp hrun
    rw [config_of_call hcall, ih hbefore]

/-- The control of the axes stays as it was set up. -/
theorem newton_of_run (hcreate : create memory tables config = .ok b₀)
    (hrun : b₀.run calls = .ok (b, answers)) : b.config.newton = config.newton := by
  obtain ⟨size, lookback, phaseAxis, amplitudeAxis, -, -, -, -, -, rfl⟩ :=
    create_eq_ok_iff.mp hcreate
  rw [config_of_run hrun]

/-- The target is what the last estimate published. -/
theorem target_of_run (hrun : b₀.run calls = .ok (b, answers)) :
    b.ramp.target =
      ((Answer.estimates answers).getLast?.map (·.published)).getD b₀.ramp.target := by
  induction calls using List.reverseRecOn generalizing b answers with
  | nil =>
    cases hrun
    rfl
  | append_singleton calls c ih =>
    obtain ⟨mid, earlier, answer, hbefore, hcall, rfl⟩ := run_concat_eq_ok_iff.mp hrun
    have hsettles := settles_of_call hcall
    rw [Answer.estimates_concat]
    generalize answer.estimate? = estimate at hsettles
    cases hsettles with
    | kept htarget =>
      rw [htarget, ih hbefore, Option.toList_none, List.append_nil]
    | published => simp

/-- A step is what the ratios of the estimates, in order, have made of the first one. -/
theorem axes_of_run (hrun : b₀.run calls = .ok (b, answers)) :
    b₀.phaseAxis.adaptAll b₀.config.newton ((Answer.estimates answers).map (·.phaseMu)) =
        .ok b.phaseAxis ∧
      b₀.amplitudeAxis.adaptAll b₀.config.newton
        ((Answer.estimates answers).map (·.amplitudeMu)) = .ok b.amplitudeAxis := by
  induction calls using List.reverseRecOn generalizing b answers with
  | nil =>
    cases hrun
    exact ⟨rfl, rfl⟩
  | append_singleton calls c ih =>
    obtain ⟨mid, earlier, answer, hbefore, hcall, rfl⟩ := run_concat_eq_ok_iff.mp hrun
    obtain ⟨hphase, hamplitude⟩ := ih hbefore
    have hsettles := settles_of_call hcall
    rw [Answer.estimates_concat, List.map_append, List.map_append]
    generalize answer.estimate? = estimate at hsettles
    cases hsettles with
    | kept _ hphaseAxis hamplitudeAxis =>
      rw [hphaseAxis, hamplitudeAxis, Option.toList_none, List.map_nil, List.map_nil,
        List.append_nil, List.append_nil]
      exact ⟨hphase, hamplitude⟩
    | published _ hcommits =>
      have hnewton : mid.config.newton = b₀.config.newton := by rw [config_of_run hbefore]
      have hphaseAxis := hcommits.phaseAxis
      have hamplitudeAxis := hcommits.amplitudeAxis
      rw [hnewton] at hphaseAxis hamplitudeAxis
      exact ⟨Axis.adaptAll_append hphase (Axis.adaptAll_singleton.mpr hphaseAxis),
        Axis.adaptAll_append hamplitude (Axis.adaptAll_singleton.mpr hamplitudeAxis)⟩

/-- Bounds that confine a step hold of it after every run. -/
theorem holds_of_run (hphase : config.phaseStep.Confines config.newton)
    (hamplitude : config.amplitudeStep.Confines config.newton)
    (hcreate : create memory tables config = .ok b₀) (hrun : b₀.run calls = .ok (b, answers)) :
    config.phaseStep.Holds b.phaseAxis.step ∧ config.amplitudeStep.Holds b.amplitudeAxis.step := by
  obtain ⟨size, lookback, phaseAxis, amplitudeAxis, -, -, -, hphaseStart, hamplitudeStart, rfl⟩ :=
    create_eq_ok_iff.mp hcreate
  obtain ⟨hphaseAxis, hamplitudeAxis⟩ := axes_of_run hrun
  exact ⟨hphase.holds_adaptAll hphaseStart hphaseAxis,
    hamplitude.holds_adaptAll hamplitudeStart hamplitudeAxis⟩

/-- The lookback filter remembers the candidates since the last retuning. -/
theorem remembers_of_run (hcreate : create memory tables config = .ok b₀)
    (hrun : b₀.run calls = .ok (b, answers)) :
    b.lookback.Remembers config.lookback (Lookback.Event.recent (Answer.events answers)) := by
  have hvalid := (accepted_of_create hcreate).depth
  obtain ⟨size, lookback, phaseAxis, amplitudeAxis, -, -, hlookback, -, -, rfl⟩ :=
    create_eq_ok_iff.mp hcreate
  induction calls using List.reverseRecOn generalizing b answers with
  | nil =>
    cases hrun
    exact .create hvalid hlookback
  | append_singleton calls c ih =>
    obtain ⟨mid, earlier, answer, hbefore, hcall, rfl⟩ := run_concat_eq_ok_iff.mp hrun
    rw [recent_events_concat]
    exact (moves_of_call hcall).recalls (ih hbefore) hvalid

end Balancer

end IqBalance
