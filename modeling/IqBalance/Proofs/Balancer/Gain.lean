import Mathlib
import IqBalance.Proofs.Balancer.ExactRun
import IqBalance.Proofs.Correlation.Gain

/-!
Gain on the input of the engine, over exact arithmetic.

An amplified engine is the same one with its tracked mean times a gain, and its
sums and its two small constants times the square of it (`Balancer.amplified`).
Fed with amplified samples it stays the amplified engine: a secant ratio
divides one value of the second degree by another, floor included
(`NewtonRule.secant_amplified`), so a refresh finds the same candidates, steps
and estimate (`Balancer.refresh_amplified`), and the correction that follows is
the same on an amplified block. One call keeps this (`Balancer.call_amplified`),
so every run does (`Balancer.run_amplified`).
-/

namespace IqBalance

/-! ### Stages in step -/

section Stages

variable {ε β γ δ κ : Type}

/-- Two chains that go on in step from one stage. -/
theorem bind_eq_map_bind {stage : Except ε β} {next : β → Except ε γ} {next' : β → Except ε δ}
    {f : γ → δ} (h : ∀ value, next' value = (next value).map f) :
    (stage >>= next') = (stage >>= next).map f :=
  bind_eq_map_bind_of_ok fun value _ => h value

/-- Two chains that go on in step from a stage and its image. -/
theorem map_bind_eq_map_bind {stage : Except ε β} {k : β → κ} {next : β → Except ε γ}
    {next' : κ → Except ε δ} {f : γ → δ} (h : ∀ value, next' (k value) = (next value).map f) :
    (stage.map k >>= next') = (stage >>= next).map f := by
  cases stage with
  | error fault => rfl
  | ok value => exact h value

end Stages

/-! ### Amplified parts -/

/-- The least magnitude of the denominator times the square of a gain. -/
noncomputable def NewtonRule.amplified (rule : NewtonRule ℝ) (g : ℝ) : NewtonRule ℝ :=
  { rule with denominatorEpsilon := rule.denominatorEpsilon * g ^ 2 }

/-- Both small constants times the square of a gain. -/
noncomputable def Config.amplified (c : Config ℝ) (g : ℝ) : Config ℝ :=
  { c with
    newton := c.newton.amplified g
    energyEpsilon := c.energyEpsilon * g ^ 2 }

/-- The mean times a gain. -/
noncomputable def DcTracker.amplified (t : DcTracker ℝ) (g : ℝ) : DcTracker ℝ :=
  { t with mean := t.mean.scale g }

/-- The mean times a gain, the sums and the small constants times its square, and all else as it
is. -/
noncomputable def Balancer.amplified (b : Balancer ℝ) (g : ℝ) : Balancer ℝ :=
  { b with
    config := b.config.amplified g
    dc := b.dc.amplified g
    sums := b.sums.amplified g }

/-- The engine and the samples times a gain, and the outcome as it is. -/
noncomputable def Processed.amplified (p : Processed ℝ) (g : ℝ) : Processed ℝ where
  balancer := p.balancer.amplified g
  block := Block.amplified p.block g
  outcome := p.outcome

/-- The samples of a call times a gain. -/
noncomputable def Call.amplified (c : Call ℝ) (g : ℝ) : Call ℝ :=
  match c with
  | .process block => .process (block.amplified g)
  | c => c

/-- The samples of an answer times a gain. -/
noncomputable def Answer.amplified (a : Answer ℝ) (g : ℝ) : Answer ℝ :=
  match a with
  | .processed block outcome => .processed (block.amplified g) outcome
  | a => a

/-! ### Tracker and ramp -/

section Blocks

variable (g : ℝ)

theorem DcTracker.track_amplified (t : DcTracker ℝ) (s : Sample ℝ) :
    (t.amplified g).track (s.scale g) = (t.track s).amplified g := by
  simp only [track, amplified, Sample.scale_re, Sample.scale_im, mk.injEq, and_true]
  ext
  · simp only [Sample.scale_re]
    ring
  · simp only [Sample.scale_im]
    ring

theorem DcTracker.process_amplified (t : DcTracker ℝ) (block : Block ℝ) :
    (t.amplified g).process (block.amplified g) =
      ((t.process block).1.amplified g, Block.amplified (t.process block).2 g) := by
  let carry (run : DcTracker ℝ × Block ℝ) : DcTracker ℝ × Block ℝ :=
    (run.1.amplified g, run.2.amplified g)
  have hstep : ∀ (run : DcTracker ℝ × Block ℝ) (s : Sample ℝ),
      step (carry run) (s.scale g) = carry (step run s) := by
    intro run s
    simp only [step, carry, track_amplified, Block.amplified, Array.map_push]
    rw [(Sample.linear_scale g).sub]
    rfl
  have hstart : carry (t, #[]) = (t.amplified g, #[]) := by
    simp [carry, Block.amplified]
  rw [process, process, Block.amplified, Array.foldl_map, ← hstart]
  exact Array.foldl_hom carry hstep

theorem Ramp.process_amplified (r : Ramp ℝ) (block : Block ℝ) :
    r.process (block.amplified g) =
      ((r.process block).1, Block.amplified (r.process block).2 g) := by
  refine Prod.ext rfl ?_
  apply Array.ext
  · simp [process]
  · intro i h₁ h₂
    simp [process, Block.amplified, Correction.apply_scale]

end Blocks

/-! ### Axes -/

section Axes

variable {g : ℝ} (hg : g ≠ 0) (rule : NewtonRule ℝ)

include hg

/-- The floor on the denominator has the degree of what it bounds. -/
theorem NewtonRule.denominator_amplified (difference : ℝ) :
    (rule.amplified g).denominator (difference * g ^ 2) = rule.denominator difference * g ^ 2 := by
  have hsquare : 0 < g ^ 2 := by positivity
  have hfloor : |difference * g ^ 2| < rule.denominatorEpsilon * g ^ 2 ↔
      |difference| < rule.denominatorEpsilon := by
    rw [abs_mul, abs_of_pos hsquare, mul_lt_mul_iff_left₀ hsquare]
  have hsign : difference * g ^ 2 < 0 ↔ difference < 0 := by
    rw [mul_neg_iff]
    constructor
    · rintro (⟨-, hneg⟩ | ⟨hneg, -⟩)
      · exact absurd hneg hsquare.not_gt
      · exact hneg
    · exact fun hneg => .inr ⟨hneg, hsquare⟩
  simp only [denominator, amplified, Scalar.abs, hfloor, hsign]
  split
  · split
    · rw [neg_mul]
    · rfl
  · rfl

theorem NewtonRule.secant_amplified (u v : ℝ) :
    (rule.amplified g).secant (u * g ^ 2) (v * g ^ 2) = rule.secant u v := by
  rw [secant, secant, ← sub_mul, rule.denominator_amplified hg,
    mul_div_mul_right _ _ (pow_ne_zero 2 hg)]

theorem Axis.estimate_amplified (axis : Axis ℝ) (current u v : ℝ) :
    axis.estimate (rule.amplified g) current (u * g ^ 2) (v * g ^ 2) =
      axis.estimate rule current u v := by
  rw [estimate, rule.secant_amplified hg]
  rfl

end Axes

/-! ### The engine -/

namespace Balancer

variable {g : ℝ}

theorem passSums_amplified (b : Balancer ℝ) (block : Block ℝ) :
    (b.amplified g).passSums (block.amplified g) = (b.passSums block).amplified g := by
  have hstart : (if b.integrated = 0 then .empty b.size.bins else b.sums.amplified g) =
      (if b.integrated = 0 then .empty b.size.bins else b.sums).amplified g := by
    split
    · exact (Accumulators.empty_amplified _ g).symm
    · rfl
  exact (congrArg (Accumulators.addTrials · b.tables b.config.cadence.fftIntegration b.ramp.target
    b.perturbedPoint (block.amplified g)) hstart).trans
    (Accumulators.addTrials_amplified _ b.tables _ b.ramp.target b.perturbedPoint block g)

section

variable (hg : g ≠ 0)

include hg

theorem utility_amplified (b : Balancer ℝ) (trial : Trial) :
    (b.amplified g).utility trial = (b.utility trial).map (·.scale (g ^ 2)) :=
  b.sums.utility_amplified b.tables b.config.weighting hg trial b.optimalBin

/-- A refresh finds the same values. -/
theorem refresh_amplified (b : Balancer ℝ) :
    (b.amplified g).refresh = b.refresh.map (Prod.map (·.amplified g) id) := by
  -- Neither guard stops a refresh here: every real counts as finite.
  have hfinite : ∀ x : Sample ℝ, x.isFinite = true := fun _ => rfl
  have hraw : ∀ c : Correction ℝ, c.isFinite = true := fun _ => rfl
  rw [refresh, refresh, utility_amplified hg, utility_amplified hg]
  refine map_bind_eq_map_bind fun u => map_bind_eq_map_bind fun v => ?_
  simp only [hfinite, hraw, Bool.and_self, Bool.not_true, Bool.false_eq_true, if_false]
  have hphase := Axis.estimate_amplified hg b.config.newton b.phaseAxis b.ramp.target.phase
    u.im v.im
  have hamplitude := Axis.estimate_amplified hg b.config.newton b.amplitudeAxis
    b.ramp.target.amplitude u.re v.re
  refine (congrArg (· >>= _) hphase).trans (bind_eq_map_bind fun phase => ?_)
  refine (congrArg (· >>= _) hamplitude).trans (bind_eq_map_bind fun amplitude => ?_)
  exact bind_eq_map_bind fun phaseAxis => bind_eq_map_bind fun amplitudeAxis => rfl

/-- A pass over an amplified block goes on, or ends its cycle, in the same way. -/
theorem pass_amplified (b : Balancer ℝ) (block : Block ℝ) :
    (b.amplified g).pass (block.amplified g) =
      (b.pass block).map (Prod.map (·.amplified g) id) := by
  rw [pass, pass, passSums_amplified]
  refine bind_eq_map_bind fun _ => bind_eq_map_bind fun integrated => ?_
  have hcorrelations : (b.amplified g).config.cadence.correlationIntegration =
      b.config.cadence.correlationIntegration := rfl
  have hwindows : ((b.passSums block).amplified g).windows = (b.passSums block).windows := rfl
  rw [hcorrelations, hwindows]
  split
  · rfl
  · split
    · rfl
    · exact refresh_amplified hg { b with sums := b.passSums block, integrated := 0 }

theorem meet_amplified (b : Balancer ℝ) (dc : DcTracker ℝ) (out : Block ℝ) (skipped : Nat) :
    (b.amplified g).meet (dc.amplified g) (out.amplified g) skipped =
      (b.meet dc out skipped).map (Prod.map (·.amplified g) id) := by
  have hskip : (b.amplified g).config.cadence.buffersToSkip = b.config.cadence.buffersToSkip := rfl
  rw [meet, meet, hskip]
  split
  · rfl
  · exact pass_amplified hg { b with dc, skipped := 0 } out

omit hg in
theorem emit_amplified (out : Block ℝ) (result : Balancer ℝ × Outcome ℝ) :
    emit (out.amplified g) (Prod.map (·.amplified g) id result) =
      (emit out result).amplified g := by
  have hramp := result.1.ramp.process_amplified g out
  simp only [emit, Prod.map, id]
  rw [show (result.1.amplified g).ramp = result.1.ramp from rfl, hramp]
  rfl

/-- A block of amplified samples comes out amplified, with the same outcome. -/
theorem process_amplified (b : Balancer ℝ) (block : Block ℝ) :
    (b.amplified g).process (block.amplified g) = (b.process block).map (·.amplified g) := by
  have htracked : (b.amplified g).dc.process (block.amplified g) =
      ((b.dc.process block).1.amplified g, Block.amplified (b.dc.process block).2 g) :=
    b.dc.process_amplified g block
  rw [process_eq, process_eq, htracked]
  refine bind_eq_map_bind fun skipped => ?_
  rw [meet_amplified hg]
  cases b.meet (b.dc.process block).1 (b.dc.process block).2 skipped with
  | error fault => rfl
  | ok result => exact congrArg Except.ok (emit_amplified _ result)

theorem call_amplified (b : Balancer ℝ) (c : Call ℝ) :
    (b.amplified g).call (c.amplified g) =
      (b.call c).map (Prod.map (·.amplified g) (·.amplified g)) := by
  cases c with
  | process block =>
    refine (congrArg (· >>= _) (process_amplified hg b block)).trans ?_
    exact map_bind_eq_map_bind fun done => rfl
  | setOptimalPoint w => rfl
  | configure cadence =>
    rcases b.configure_cases cadence with ⟨hvalid, hok⟩ | ⟨hinvalid, herror⟩
    · rcases (b.amplified g).configure_cases cadence with ⟨-, hok'⟩ | ⟨hinvalid, -⟩
      · simp only [Call.amplified, call, hok, hok']
        rfl
      · exact absurd hvalid hinvalid
    · rcases (b.amplified g).configure_cases cadence with ⟨hvalid, -⟩ | ⟨-, herror'⟩
      · exact absurd hvalid hinvalid
      · simp only [Call.amplified, call, herror, herror']
        rfl

end

end Balancer

/-! ### Creation -/

section Creation

variable {g : ℝ} (hg : g ≠ 0)

include hg

/-- Both small constants stay positive, and nothing else is judged by them. -/
theorem Config.validate_amplified (c : Config ℝ) : (c.amplified g).validate = c.validate := by
  have hsquare : 0 < g ^ 2 := by positivity
  have henergy : 0 < c.energyEpsilon * g ^ 2 ↔ 0 < c.energyEpsilon :=
    mul_pos_iff_of_pos_right hsquare
  have hdenominator : 0 < c.newton.denominatorEpsilon * g ^ 2 ↔ 0 < c.newton.denominatorEpsilon :=
    mul_pos_iff_of_pos_right hsquare
  have hepsilons :
      (0 < (c.amplified g).energyEpsilon && 0 < (c.amplified g).newton.denominatorEpsilon) =
        (0 < c.energyEpsilon && 0 < c.newton.denominatorEpsilon : Bool) :=
    congrArg₂ (· && ·) (decide_eq_decide.mpr henergy) (decide_eq_decide.mpr hdenominator)
  rw [validate, validate, hepsilons]
  rfl

theorem Balancer.create_amplified (memory : Allocator) (tables : (size : FftSize) → Tables ℝ size)
    (config : Config ℝ) :
    create memory tables (config.amplified g) =
      (create memory tables config).map (·.amplified g) := by
  have hzero : (DcTracker.start config.dcTimeConst).amplified g = .start config.dcTimeConst := by
    simp only [DcTracker.amplified, DcTracker.start, Sample.zero_scale]
  rw [create, create, config.validate_amplified hg]
  refine bind_eq_map_bind fun size => bind_eq_map_bind fun _ => ?_
  refine bind_eq_map_bind fun lookback => ?_
  refine bind_eq_map_bind fun phaseAxis => bind_eq_map_bind fun amplitudeAxis => ?_
  refine congrArg Except.ok ?_
  simp only [amplified, hzero, Accumulators.empty_amplified]
  rfl

end Creation

namespace Balancer

/-- Samples times a gain, on an engine whose two small constants are times the square of it: the
engine is set up, or refused, as the other one is, and after any calls it is the other one with its
mean amplified by the gain and its sums by the square; the blocks it gave back are amplified, and
everything else, outcomes included, is the same. -/
theorem run_amplified (memory : Allocator) (tables : (size : FftSize) → Tables ℝ size)
    (config : Config ℝ) {g : ℝ} (hg : g ≠ 0) :
    create memory tables (config.amplified g) =
      (create memory tables config).map (·.amplified g) ∧
    ∀ (b : Balancer ℝ) (calls : List (Call ℝ)),
      (b.amplified g).run (calls.map (·.amplified g)) =
        (b.run calls).map fun (after, answers) =>
          (after.amplified g, answers.map (·.amplified g)) := by
  refine ⟨create_amplified hg memory tables config, fun b calls => ?_⟩
  -- On the calls, from whatever engine: each call leaves another one, and its image.
  induction calls generalizing b with
  | nil => rfl
  | cons c rest ih =>
    rw [List.map_cons, run, run, call_amplified hg]
    refine map_bind_eq_map_bind fun step => ?_
    refine (congrArg (· >>= _) (ih step.1)).trans ?_
    exact map_bind_eq_map_bind fun later => rfl

/-- A gain of minus three, on a run that ends a cycle with a full window. -/
theorem run_amplified_by_minus_three :
    let tables := fun size : FftSize =>
      Tables.exact (Vector.replicate size.bins 1) (Vector.replicate size.bins 1)
    let config := { Config.ones ⟨1, 1, 1⟩ with dcTimeConst := 1 / 2, initial := ⟨1 / 2, 1 / 4⟩ }
    let calls : List (Call ℝ) :=
      [.process #[⟨1, 2⟩], .setOptimalPoint 0, .process (Array.replicate 64 ⟨3, 4⟩)]
    ∃ b₀ b answers, create .ample tables config = .ok b₀ ∧ b₀.run calls = .ok (b, answers) ∧
      create .ample tables (config.amplified (-3)) = .ok (b₀.amplified (-3)) ∧
      (b₀.amplified (-3)).run (calls.map (·.amplified (-3))) =
        .ok (b.amplified (-3), answers.map (·.amplified (-3))) := by
  intro tables config calls
  have hvalid : Cadence.isValid ⟨1, 1, 1⟩ := by decide
  have hfits : Cadence.Fits ⟨1, 1, 1⟩ := by constructor <;> decide
  have hrate : (0 : ℝ) < 1 / 2 ∧ (1 / 2 : ℝ) ≤ 1 := by norm_num
  obtain ⟨b₀, hcreate, hruns⟩ := exists_run_ones tables hvalid hfits hrate ⟨1 / 2, 1 / 4⟩
  obtain ⟨b, answers, hrun⟩ := hruns calls (by simp [calls, Call.Fits])
    (by simp [calls, Call.totalSamples, Call.samples])
  have hcreate : create .ample tables config = .ok b₀ := hcreate
  obtain ⟨hcreated, hran⟩ := run_amplified .ample tables config (g := -3) (by norm_num)
  refine ⟨b₀, b, answers, hcreate, hrun, ?_, ?_⟩
  · rw [hcreated, hcreate]
    rfl
  · rw [hran, hrun]
    rfl

end Balancer

end IqBalance
