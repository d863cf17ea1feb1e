import Mathlib
import IqBalance.Proofs.Balancer.ExactRun

/-!
A block publishes an estimate or leaves the control of the engine as it was, in
whatever arithmetic and from whatever state.

`Withholds` lists the ways in which a block leads to no estimate, `Publishes`
what it has to meet for one. A block that withholds changes the tracker, the
counts and the sums only (`withheld_of_processes`), so everything a refresh may
set is kept (`Keeps`); one that publishes sets all of it at once, each value
from the state before the block (`Commits`). `all_or_nothing` puts the two
together.
-/

namespace IqBalance

variable {α : Type} [Scalar α]

omit [Scalar α] in
/-- The outcome of a block that publishes. -/
def Outcome.isPublished : Outcome α → Bool
  | .published .. => true
  | _ => false

theorem Axis.mu_of_estimate {axis : Axis α} {rule : NewtonRule α} {current u v : α}
    {estimate : AxisEstimate α} (h : axis.estimate rule current u v = .ok estimate) :
    estimate.mu = rule.secant u v := by
  obtain ⟨bounded, -, h⟩ := bind_eq_ok_iff.mp h
  cases h
  rfl

namespace Balancer

/-! ### What a block may lead to -/

/-- What the end of a cycle is handed when it comes with this block. -/
def handed (b : Balancer α) (block : Block α) : Balancer α :=
  { b.afterPass (b.dc.process block).1 (b.dc.process block).2 with integrated := 0 }

/-- What a block meets that publishes: a pass is due and ends its cycle, windows were summed up,
and utilities and candidates are finite. The estimates of the two axes start from the target and
the steps before the block, and their ratios are those of the utilities, unbounded. -/
structure Publishes (b : Balancer α) (block : Block α) (u v : Sample α)
    (phase amplitude : AxisEstimate α) : Prop where
  due : b.config.cadence.buffersToSkip ≤ b.skipped + 1
  ends : b.config.cadence.correlationIntegration ≤ b.integrated + 1
  windows : (b.handed block).sums.windows ≠ 0
  baseline : (b.handed block).utility .baseline = .ok u
  perturbed : (b.handed block).utility .perturbed = .ok v
  utilityFinite : u.isFinite ∧ v.isFinite
  phaseFrom : b.phaseAxis.estimate b.config.newton b.ramp.target.phase u.im v.im = .ok phase
  amplitudeFrom :
    b.amplitudeAxis.estimate b.config.newton b.ramp.target.amplitude u.re v.re = .ok amplitude
  phaseMu : phase.mu = b.config.newton.secant u.im v.im
  amplitudeMu : amplitude.mu = b.config.newton.secant u.re v.re
  candidateFinite : Scalar.isFinite phase.candidate ∧ Scalar.isFinite amplitude.candidate

/-- The ways in which a block leads to no estimate. -/
inductive Withholds (b : Balancer α) (block : Block α) : Prop
  | notDue (h : b.skipped + 1 < b.config.cadence.buffersToSkip)
  | cycleOpen (h : b.integrated + 1 < b.config.cadence.correlationIntegration)
  | noWindow (h : (b.handed block).sums.windows = 0)
  | utilityNotFinite {u v : Sample α} (hu : (b.handed block).utility .baseline = .ok u)
      (hv : (b.handed block).utility .perturbed = .ok v) (h : ¬ (u.isFinite ∧ v.isFinite))
  | candidateNotFinite {u v : Sample α} {phase amplitude : AxisEstimate α}
      (hu : (b.handed block).utility .baseline = .ok u)
      (hv : (b.handed block).utility .perturbed = .ok v)
      (hphase : b.phaseAxis.estimate b.config.newton b.ramp.target.phase u.im v.im = .ok phase)
      (hamplitude : b.amplitudeAxis.estimate b.config.newton b.ramp.target.amplitude u.re v.re =
        .ok amplitude)
      (h : ¬ (Scalar.isFinite phase.candidate ∧ Scalar.isFinite amplitude.candidate))

/-- Everything that a refresh may set is as it was, and so are the favoured bin and the tuning. -/
structure Keeps (b after : Balancer α) : Prop where
  target : after.ramp.target = b.ramp.target
  phaseAxis : after.phaseAxis = b.phaseAxis
  amplitudeAxis : after.amplitudeAxis = b.amplitudeAxis
  lookback : after.lookback = b.lookback
  lastEstimate : after.lastEstimate = b.lastEstimate
  optimalBin : after.optimalBin = b.optimalBin
  config : after.config = b.config

/-- Everything that a refresh sets is set from the estimates of the two axes: the lookback filter
takes the candidates in, once, and what it publishes is the target; each step is adapted, once, to
its own unbounded ratio; and the estimate on record says so. -/
structure Commits (b after : Balancer α) (phase amplitude : AxisEstimate α) : Prop where
  lookback : after.lookback = (b.lookback.push ⟨phase.candidate, amplitude.candidate⟩).1
  target : after.ramp.target = (b.lookback.push ⟨phase.candidate, amplitude.candidate⟩).2
  phaseAxis : b.phaseAxis.adapt b.config.newton phase.mu = .ok after.phaseAxis
  amplitudeAxis : b.amplitudeAxis.adapt b.config.newton amplitude.mu = .ok after.amplitudeAxis
  lastEstimate : after.lastEstimate =
    some
      { phaseMu := phase.mu
        amplitudeMu := amplitude.mu
        raw := ⟨phase.candidate, amplitude.candidate⟩
        published := after.ramp.target
        lookbackDepth := after.lookback.depth }
  optimalBin : after.optimalBin = b.optimalBin
  config : after.config = b.config

variable {b : Balancer α} {block : Block α}

/-- The two exclude each other. -/
theorem Publishes.not_withholds {u v : Sample α} {phase amplitude : AxisEstimate α}
    (h : b.Publishes block u v phase amplitude) : ¬ b.Withholds block := by
  intro hwithholds
  cases hwithholds with
  | notDue hidle => exact absurd h.due (Nat.not_le.mpr hidle)
  | cycleOpen hopen => exact absurd h.ends (Nat.not_le.mpr hopen)
  | noWindow hwindows => exact h.windows hwindows
  | utilityNotFinite hu hv hfinite =>
    cases h.baseline.symm.trans hu
    cases h.perturbed.symm.trans hv
    exact hfinite h.utilityFinite
  | candidateNotFinite hu hv hphase hamplitude hfinite =>
    cases h.baseline.symm.trans hu
    cases h.perturbed.symm.trans hv
    cases h.phaseFrom.symm.trans hphase
    cases h.amplitudeFrom.symm.trans hamplitude
    exact hfinite h.candidateFinite

/-! ### What a block does -/

/-- The end of a cycle that publishes nothing changes nothing. -/
theorem eq_of_endCycle {after : Balancer α} {outcome : Outcome α}
    (h : b.endCycle = .ok (after, outcome)) (hout : outcome.isPublished = false) : after = b := by
  rcases endCycle_cases h with ⟨-, hafter, -⟩ | ⟨-, hrefresh⟩
  · exact hafter
  · cases hrefresh with
    | utilityNotFinite => rfl
    | candidateNotFinite => rfl
    | published => cases hout

/-- A block that publishes nothing changes the tracker, the counts and the sums, and is put out
along the ramp as it was. -/
theorem withheld_of_processes {dc : DcTracker α} {out : Block α} {done : Processed α}
    (h : Processes b dc out done) (hout : done.outcome.isPublished = false) :
    ∃ skipped integrated sums,
      done = emit out ({ b with dc, skipped, integrated, sums }, done.outcome) := by
  cases h with
  | idle => exact ⟨_, b.integrated, b.sums, rfl⟩
  | passed => exact ⟨0, _, b.passSums out, rfl⟩
  | ended _ _ hend =>
    obtain rfl := eq_of_endCycle hend hout
    exact ⟨0, 0, b.passSums out, rfl⟩

theorem keeps_of_processes {dc : DcTracker α} {out : Block α} {done : Processed α}
    (h : Processes b dc out done) (hout : done.outcome.isPublished = false) :
    b.Keeps done.balancer := by
  obtain ⟨skipped, integrated, sums, heq⟩ := withheld_of_processes h hout
  rw [heq]
  exact ⟨rfl, rfl, rfl, rfl, rfl, rfl, rfl⟩

/-- What the outcome of a block says about the way it went. -/
theorem publishes_or_withholds {done : Processed α}
    (h : Processes b (b.dc.process block).1 (b.dc.process block).2 done) :
    (done.outcome.isPublished = false ∧ b.Withholds block) ∨
      (done.outcome.isPublished ∧ ∃ u v phase amplitude,
        b.Publishes block u v phase amplitude ∧ b.Commits done.balancer phase amplitude) := by
  cases h with
  | idle hidle => exact .inl ⟨rfl, .notDue hidle⟩
  | passed _ hopen => exact .inl ⟨rfl, .cycleOpen hopen⟩
  | ended hdue hends hend =>
    rcases endCycle_cases hend with ⟨hwindows, rfl, rfl⟩ | ⟨hwindows, hrefresh⟩
    · exact .inl ⟨rfl, .noWindow hwindows⟩
    · cases hrefresh with
      | utilityNotFinite hu hv hfinite =>
        exact .inl ⟨rfl, .utilityNotFinite hu hv (mt Bool.and_eq_true_iff.mpr hfinite)⟩
      | candidateNotFinite hu hv _ hphase hamplitude hfinite =>
        refine .inl ⟨rfl, .candidateNotFinite hu hv hphase hamplitude fun hboth => hfinite ?_⟩
        exact Bool.and_eq_true_iff.mpr hboth
      | @published u v phase amplitude _ _ _ _ hu hv hfinite hphase hamplitude hraw hrawFinite
          hphaseAxis hamplitudeAxis hestimate =>
        subst hraw hestimate
        refine .inr ⟨rfl, u, v, phase, amplitude, ?_, ?_⟩
        · exact {
            due := hdue
            ends := hends
            windows := hwindows
            baseline := hu
            perturbed := hv
            utilityFinite := Bool.and_eq_true_iff.mp hfinite
            phaseFrom := hphase
            amplitudeFrom := hamplitude
            phaseMu := Axis.mu_of_estimate hphase
            amplitudeMu := Axis.mu_of_estimate hamplitude
            candidateFinite := Bool.and_eq_true_iff.mp hrawFinite }
        · exact {
            lookback := rfl
            target := rfl
            phaseAxis := hphaseAxis
            amplitudeAxis := hamplitudeAxis
            lastEstimate := rfl
            optimalBin := rfl
            config := rfl }

/-- A refresh is all or nothing, from any state: a block that leads to no estimate keeps all that a
refresh may set, and every other block sets all of it. -/
theorem all_or_nothing {done : Processed α} (h : b.process block = .ok done) :
    (done.outcome.isPublished ↔ ¬ b.Withholds block) ∧
    (b.Withholds block → b.Keeps done.balancer) ∧
    (¬ b.Withholds block → ∃ u v phase amplitude,
      b.Publishes block u v phase amplitude ∧ b.Commits done.balancer phase amplitude) := by
  have hprocesses := processes_of_process h
  rcases publishes_or_withholds hprocesses with ⟨hout, hwithholds⟩ | ⟨hout, hpublishes⟩
  · have hkeeps := keeps_of_processes hprocesses hout
    rw [hout]
    exact ⟨iff_of_false Bool.false_ne_true (not_not_intro hwithholds), fun _ => hkeeps,
      fun hnot => absurd hwithholds hnot⟩
  · have hnot : ¬ b.Withholds block := by
      obtain ⟨u, v, phase, amplitude, hmeets, -⟩ := hpublishes
      exact hmeets.not_withholds
    exact ⟨iff_of_true hout hnot, fun hwithholds => absurd hwithholds hnot, fun _ => hpublishes⟩

/-- A block of one window on a cycle of one pass. -/
theorem commits_of_full_window :
    let tables := fun size : FftSize =>
      Tables.exact (Vector.replicate size.bins 1) (Vector.replicate size.bins 1)
    let config := { Config.ones ⟨1, 1, 1⟩ with dcTimeConst := 1 / 2, initial := ⟨1 / 2, 1 / 4⟩ }
    let block : Block ℝ := Array.replicate 64 ⟨3, 4⟩
    ∃ b₀ done u v phase amplitude, create .ample tables config = .ok b₀ ∧
      b₀.process block = .ok done ∧ done.outcome.isPublished ∧
      b₀.Publishes block u v phase amplitude ∧ b₀.Commits done.balancer phase amplitude := by
  intro tables config block
  have hvalid : Cadence.isValid ⟨1, 1, 1⟩ := by decide
  have hfits : Cadence.Fits ⟨1, 1, 1⟩ := by constructor <;> decide
  have hrate : (0 : ℝ) < 1 / 2 ∧ (1 / 2 : ℝ) ≤ 1 := by norm_num
  obtain ⟨b₀, hcreate, hruns⟩ := exists_run_ones tables hvalid hfits hrate ⟨1 / 2, 1 / 4⟩
  obtain ⟨after, answers, hrun⟩ := hruns [.process block] (by simp [Call.Fits])
    (by simp [Call.totalSamples, Call.samples, block])
  obtain ⟨next, answer, -, hcall, -, -⟩ := run_cons_eq_ok_iff.mp hrun
  obtain ⟨done, hprocess, -⟩ := bind_eq_ok_iff.mp hcall
  have hcreate : create .ample tables config = .ok b₀ := hcreate
  obtain ⟨size, lookback, phaseAxis, amplitudeAxis, -, -, -, -, -, hb₀⟩ :=
    create_eq_ok_iff.mp hcreate
  have hskipped : b₀.skipped = 0 := by rw [hb₀]
  have hintegrated : b₀.integrated = 0 := by rw [hb₀]
  have hcadence : b₀.config.cadence = ⟨1, 1, 1⟩ := by rw [hb₀]; rfl
  have hbins : b₀.size.bins = 64 := (accepted_of_create hcreate).fftBins
  have hwindows : (b₀.handed block).sums.windows = 1 := by
    refine (b₀.windows_passSums _).trans ?_
    rw [hintegrated, if_pos rfl, DcTracker.size_process, Array.size_replicate, hbins, hcadence]
    rfl
  have hnot : ¬ b₀.Withholds block := by
    intro hwithholds
    cases hwithholds with
    | notDue h => simp [hskipped, hcadence] at h
    | cycleOpen h => simp [hintegrated, hcadence] at h
    | noWindow h => exact absurd (hwindows.symm.trans h) Nat.one_ne_zero
    | utilityNotFinite _ _ h => exact h ⟨rfl, rfl⟩
    | candidateNotFinite _ _ _ _ h => exact h ⟨rfl, rfl⟩
  obtain ⟨hout, -, hcommits⟩ := all_or_nothing hprocess
  obtain ⟨u, v, phase, amplitude, hpublishes, hcommits⟩ := hcommits hnot
  exact ⟨b₀, done, u, v, phase, amplitude, hcreate, hprocess, hout.mpr hnot, hpublishes, hcommits⟩

end Balancer

end IqBalance
