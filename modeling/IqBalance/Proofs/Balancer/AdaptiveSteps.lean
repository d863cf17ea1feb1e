import Mathlib
import IqBalance.Proofs.Balancer.Estimates

/-!
The steps of an engine in single precision.

Nothing that a run meets leads a step out of its bounds. It is adapted once for
each estimate, to a ratio that may be anything, and bounds and factors that an
accepted tuning has confine it (`Config.Accepted.confines`). So neither a
product that overflows nor one that underflows stops an axis for good: the
clamp leaves the greatest step or the least one, and that is above zero.
-/

namespace IqBalance

namespace Balancer

/-- An accepted tuning keeps both steps numbers above zero and between their bounds, after every
run on any samples; and so does any sequence of adaptations, whatever the ratios are. -/
theorem steps_within_bounds {tables : (size : FftSize) → Tables Float32 size}
    {config : Config Float32} {size : FftSize} (hvalid : config.validate = .ok size) :
    (∀ (memory : Allocator) (b₀ b : Balancer Float32) (calls : List (Call Float32))
      (answers : List (Answer Float32)),
      create memory tables config = .ok b₀ → b₀.run calls = .ok (b, answers) →
        config.phaseStep.Holds b.phaseAxis.step ∧
          config.amplitudeStep.Holds b.amplitudeAxis.step) ∧
    ∀ bounds ∈ [config.phaseStep, config.amplitudeStep], ∀ mus : List Float32,
      ∃ first last, Axis.start bounds = .ok first ∧
        first.adaptAll config.newton mus = .ok last ∧ bounds.Holds last.step := by
  obtain ⟨hphase, hamplitude⟩ := (Config.validate_eq_ok_iff.mp hvalid).confines
  refine ⟨fun memory b₀ b calls answers => holds_of_run hphase hamplitude,
    fun bounds hbounds mus => ?_⟩
  have hconfines : bounds.Confines config.newton := by
    rcases List.mem_pair.mp hbounds with rfl | rfl
    · exact hphase
    · exact hamplitude
  obtain ⟨first, hfirst⟩ := Axis.exists_start hconfines.ordered
  obtain ⟨last, hlast, -, hholds⟩ :=
    hconfines.adaptAll (Axis.bounds_start hfirst) (hconfines.holds_start hfirst) mus
  exact ⟨first, last, hfirst, hlast, hholds⟩

/-! ### Products out of range -/

/-- An accepted tuning with steps over almost all of the range, and factors with products outside
of it. No bin counts, so every ratio is zero and shrinks the steps. -/
def widestSteps : Config Float32 :=
  { largeStart with
    initial := ⟨0, 0⟩
    phaseStep := ⟨1e38, 1e-45, 3e38⟩
    amplitudeStep := ⟨1e-45, 1e-45, 3e38⟩
    newton :=
      { largeStart.newton with
        stepIncrease := 3e38
        stepDecrease := 1e-45 } }

theorem validate_widestSteps : widestSteps.validate = .ok { log2 := 6 } :=
  Config.validate_eq_ok_iff.mpr {
    fftBins := rfl
    capacity := by decide +kernel
    depth := by decide +kernel
    cadence := by decide +kernel
    dcTimeConst := by decide +kernel
    initial := by decide +kernel
    phaseStep := by decide +kernel
    amplitudeStep := by decide +kernel
    stepIncrease := by decide +kernel
    stepDecrease := by decide +kernel
    muThresholds := by decide +kernel
    maxMu := by decide +kernel
    centerBinsToSkip := by decide +kernel
    epsilons := by decide +kernel }

/-- The first product is no number of the format and the second is zero, and still the steps hold
their bounds: over a run of two estimates, and over ratios that are infinite and no number. -/
theorem widest_steps_within_bounds :
    widestSteps.validate = .ok { log2 := 6 } ∧
    (widestSteps.phaseStep.initial * widestSteps.newton.stepIncrease).isFinite = false ∧
    widestSteps.amplitudeStep.initial * widestSteps.newton.stepDecrease = 0 ∧
    (∃ b₀ b answers, create .ample Tables.single widestSteps = .ok b₀ ∧
      b₀.run [silence, silence] = .ok (b, answers) ∧
      widestSteps.phaseStep.Holds b.phaseAxis.step ∧
      widestSteps.amplitudeStep.Holds b.amplitudeAxis.step) ∧
    ∃ first last, Axis.start widestSteps.phaseStep = .ok first ∧
      first.adaptAll widestSteps.newton [1 / 0, 0 / 0, 0, 0] = .ok last ∧
      widestSteps.phaseStep.Holds last.step := by
  have hcomputed : ∃ b₀ b answers, create .ample Tables.single widestSteps = .ok b₀ ∧
      b₀.run [silence, silence] = .ok (b, answers) ∧ b.lastEstimate.isSome :=
    exists_run_of_any (by decide +kernel)
  obtain ⟨b₀, b, answers, hcreate, hrun, -⟩ := hcomputed
  obtain ⟨hruns, hratios⟩ := @steps_within_bounds Tables.single _ _ validate_widestSteps
  refine ⟨validate_widestSteps, by decide +kernel, by decide +kernel,
    ⟨b₀, b, answers, hcreate, hrun, hruns .ample b₀ b _ _ hcreate hrun⟩, ?_⟩
  exact hratios _ List.mem_cons_self _

end Balancer

end IqBalance
