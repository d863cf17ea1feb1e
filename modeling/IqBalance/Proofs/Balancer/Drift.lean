import Mathlib
import IqBalance.Proofs.Balancer.Estimates

/-!
How far the correction drifts, over exact arithmetic.

A candidate lies some strides from the target, and what is published is a mean
of candidates, so it lies between two of them (`Lookback.Remembers.push_between`).
If no block of a run leads further than one stride at a time (`StridesWithin`),
then after `k` estimates the target is within `k` strides of the start, and so
are the candidates that the lookback filter remembers; the two carry each other
through the induction (`Balancer.strays_of_run`). A clamped ratio times a
clamped step is such a stride (`stridesWithin_largest`), which bounds the drift
of every run of an accepted tuning (`Balancer.drift_of_run`).
-/

namespace IqBalance

/-! ### Means -/

/-- No value lies outside those of the corrections in a list. -/
structure Correction.Between (c : Correction ℝ) (estimates : List (Correction ℝ)) : Prop where
  phaseLow : ∃ low ∈ estimates, low.phase ≤ c.phase
  phaseHigh : ∃ high ∈ estimates, c.phase ≤ high.phase
  amplitudeLow : ∃ low ∈ estimates, low.amplitude ≤ c.amplitude
  amplitudeHigh : ∃ high ∈ estimates, c.amplitude ≤ high.amplitude

namespace Correction.Between

variable {c : Correction ℝ} {estimates estimates' : List (Correction ℝ)}

theorem of_mem (h : c ∈ estimates) : c.Between estimates :=
  ⟨⟨c, h, le_rfl⟩, ⟨c, h, le_rfl⟩, ⟨c, h, le_rfl⟩, ⟨c, h, le_rfl⟩⟩

theorem mono (h : c.Between estimates) (hsub : estimates ⊆ estimates') : c.Between estimates' := by
  obtain ⟨⟨a, ha, hphaseLow⟩, ⟨b, hb, hphaseHigh⟩, ⟨d, hd, hamplitudeLow⟩,
    ⟨e, he, hamplitudeHigh⟩⟩ := h
  exact ⟨⟨a, hsub ha, hphaseLow⟩, ⟨b, hsub hb, hphaseHigh⟩, ⟨d, hsub hd, hamplitudeLow⟩,
    ⟨e, hsub he, hamplitudeHigh⟩⟩

end Correction.Between

theorem Lookback.sumOver_eq_sum (estimates : List (Correction ℝ)) (value : Correction ℝ → ℝ) :
    sumOver estimates value = (estimates.map value).sum :=
  List.sum_eq_foldl.symm

/-- A mean lies between two of the values it is taken of. -/
theorem Lookback.mean_between {estimates : List (Correction ℝ)} {depth : Nat}
    (hdepth : estimates.length = depth) (last : Correction ℝ) (value : Correction ℝ → ℝ) :
    let mean := (sumOver estimates value + value last) * (1 / Scalar.ofCount (depth + 1))
    (∃ low ∈ estimates ++ [last], value low ≤ mean) ∧
      ∃ high ∈ estimates ++ [last], mean ≤ value high := by
  intro mean
  have hcount : (depth + 1 : ℕ) ≠ (0 : ℝ) := Nat.cast_ne_zero.mpr (Nat.succ_ne_zero _)
  have hmean : mean = ((estimates ++ [last]).map value).sum / (depth + 1 : ℕ) := by
    rw [← sumOver_eq_sum, sumOver_concat, div_eq_mul_one_div]
    rfl
  have hsum : ((estimates ++ [last]).map fun _ => mean).sum =
      ((estimates ++ [last]).map value).sum := by
    rw [List.map_const', List.sum_replicate, nsmul_eq_mul, List.length_append,
      List.length_singleton, hdepth, hmean, mul_div_cancel₀ _ hcount]
  have hne : estimates ++ [last] ≠ [] := List.concat_ne_nil last estimates
  exact ⟨List.exists_le_of_sum_le hne _ _ hsum.ge, List.exists_le_of_sum_le hne _ _ hsum.le⟩

/-- What a push publishes lies between two of the estimates since the last restart. -/
theorem Lookback.Remembers.push_between {f : Lookback ℝ} {plan : LookbackPlan}
    {past : List (Correction ℝ)} (h : f.Remembers plan past) (hvalid : plan.hasValidDepth)
    (raw : Correction ℝ) : (f.push raw).2.Between (past ++ [raw]) := by
  by_cases hwarm : f.warmup < f.warmupCycles
  · rw [Lookback.push, if_pos hwarm]
    exact .of_mem (List.mem_append_right past (List.mem_singleton_self raw))
  · have hle : plan.depthAt (past.length + 1) ≤ past.length :=
      LookbackPlan.depthAt_succ_le hvalid past.length
    have hdepth : (past.drop (past.length - plan.depthAt (past.length + 1))).length =
        plan.depthAt (past.length + 1) := by
      rw [List.length_drop, Nat.sub_sub_self hle]
    obtain ⟨hphaseLow, hphaseHigh⟩ := mean_between hdepth raw (·.phase)
    obtain ⟨hamplitudeLow, hamplitudeHigh⟩ := mean_between hdepth raw (·.amplitude)
    rw [h.push_mean hvalid hwarm raw]
    refine Correction.Between.mono ⟨hphaseLow, hphaseHigh, hamplitudeLow, hamplitudeHigh⟩ ?_
    exact List.append_subset.mpr ⟨fun c hc => List.mem_append_left _ (List.mem_of_mem_drop hc),
      List.subset_append_right past [raw]⟩

/-! ### Strides -/

/-- At most `count` strides from a centre, in both values. -/
structure Correction.WithinStrides (stride centre : Correction ℝ) (count : ℕ)
    (c : Correction ℝ) : Prop where
  phase : |c.phase - centre.phase| ≤ count * stride.phase
  amplitude : |c.amplitude - centre.amplitude| ≤ count * stride.amplitude

namespace Correction.WithinStrides

variable {stride centre c : Correction ℝ} {count : ℕ}

theorem zero : WithinStrides stride centre 0 centre :=
  ⟨by simp, by simp⟩

/-- Strides of length zero lead nowhere. -/
theorem eq_of_zero (h : WithinStrides ⟨0, 0⟩ centre count c) : c = centre := by
  obtain ⟨hphase, hamplitude⟩ := h
  rw [mul_zero] at hphase hamplitude
  obtain ⟨phase, amplitude⟩ := c
  obtain rfl : phase = centre.phase := sub_eq_zero.mp (abs_nonpos_iff.mp hphase)
  obtain rfl : amplitude = centre.amplitude := sub_eq_zero.mp (abs_nonpos_iff.mp hamplitude)
  rfl

/-- One stride more. -/
theorem step {next : Correction ℝ} (h : WithinStrides stride centre count c)
    (hnext : WithinStrides stride c 1 next) : WithinStrides stride centre (count + 1) next := by
  have hphase := abs_sub_le next.phase c.phase centre.phase
  have hamplitude := abs_sub_le next.amplitude c.amplitude centre.amplitude
  have hphaseNext := hnext.phase
  have hamplitudeNext := hnext.amplitude
  have hphaseBefore := h.phase
  have hamplitudeBefore := h.amplitude
  rw [Nat.cast_one, one_mul] at hphaseNext hamplitudeNext
  constructor <;> push_cast <;> linarith

theorem succ (h : WithinStrides stride centre count c) (hphase : 0 ≤ stride.phase)
    (hamplitude : 0 ≤ stride.amplitude) : WithinStrides stride centre (count + 1) c :=
  h.step ⟨by simpa using hphase, by simpa using hamplitude⟩

/-- No further than what it lies between. -/
theorem of_between {estimates : List (Correction ℝ)}
    (h : ∀ estimate ∈ estimates, WithinStrides stride centre count estimate)
    (hc : c.Between estimates) : WithinStrides stride centre count c := by
  obtain ⟨⟨a, ha, hphaseLow⟩, ⟨b, hb, hphaseHigh⟩, ⟨d, hd, hamplitudeLow⟩,
    ⟨e, he, hamplitudeHigh⟩⟩ := hc
  constructor
  · have hlow := (abs_le.mp (h a ha).phase).1
    have hhigh := (abs_le.mp (h b hb).phase).2
    exact abs_le.mpr ⟨by linarith, by linarith⟩
  · have hlow := (abs_le.mp (h d hd).amplitude).1
    have hhigh := (abs_le.mp (h e he).amplitude).2
    exact abs_le.mpr ⟨by linarith, by linarith⟩

end Correction.WithinStrides

/-- One step away, with the step within its bounds and the ratio clamped. -/
theorem StepBounds.Holds.abs_candidate_sub_le {bounds : StepBounds ℝ} {axis : Axis ℝ}
    {rule : NewtonRule ℝ} {current u v : ℝ} {estimate : AxisEstimate ℝ}
    (hstep : bounds.Holds axis.step) (hmu : 0 ≤ rule.maxMu)
    (h : axis.estimate rule current u v = .ok estimate) :
    |estimate.candidate - current| ≤ (1 : ℕ) * (rule.maxMu * bounds.max) := by
  calc |estimate.candidate - current|
      ≤ axis.step * rule.maxMu := Axis.abs_candidate_sub_le hmu hstep.positive.le h
    _ ≤ bounds.max * rule.maxMu := mul_le_mul_of_nonneg_right hstep.high hmu
    _ = (1 : ℕ) * (rule.maxMu * bounds.max) := by rw [Nat.cast_one, one_mul, mul_comm]

/-- The largest ratio that a candidate takes times the largest step, on both axes. -/
noncomputable def Config.largestStride (config : Config ℝ) : Correction ℝ :=
  ⟨config.newton.maxMu * config.phaseStep.max, config.newton.maxMu * config.amplitudeStep.max⟩

theorem Config.Accepted.zero_le_largestStride {config : Config ℝ} {size : FftSize}
    (h : config.Accepted size) :
    0 ≤ config.largestStride.phase ∧ 0 ≤ config.largestStride.amplitude := by
  have hmax : ∀ {bounds : StepBounds ℝ}, bounds.isValid → 0 ≤ bounds.max := by
    intro bounds hbounds
    obtain ⟨hmin, hlow, hhigh⟩ := StepBounds.isValid_iff.mp hbounds
    exact hmin.le.trans (hlow.trans hhigh)
  exact ⟨mul_nonneg h.maxMu.1.le (hmax h.phaseStep), mul_nonneg h.maxMu.1.le (hmax h.amplitudeStep)⟩

namespace Balancer

/-- On the way of calls no block leads to candidates further than one stride from the target. -/
def StridesWithin (stride : Correction ℝ) : Balancer ℝ → List (Call ℝ) → Prop :=
  AtBlocks fun b block => ∀ u v phase amplitude, b.Publishes block u v phase amplitude →
    Correction.WithinStrides stride b.ramp.target 1 ⟨phase.candidate, amplitude.candidate⟩

/-- As many strides as there are estimates: at most that far from the start are the target and the
candidates since the last retuning. -/
structure Strays (stride start : Correction ℝ) (b : Balancer ℝ) (answers : List (Answer ℝ)) :
    Prop where
  target : Correction.WithinStrides stride start (Answer.estimates answers).length b.ramp.target
  recent : ∀ raw ∈ Lookback.Event.recent (Answer.events answers),
    Correction.WithinStrides stride start (Answer.estimates answers).length raw

/-! ### One call -/

section OneCall

variable {b after : Balancer ℝ} {c : Call ℝ} {plan : LookbackPlan}

/-- What a call publishes is the target after it, and a mean of the candidates. -/
theorem published_of_settles {past : List (Correction ℝ)} {estimate : Estimate ℝ}
    (hremembers : b.lookback.Remembers plan past) (hvalid : plan.hasValidDepth)
    (h : b.Settles c after (some estimate)) :
    after.ramp.target = estimate.published ∧
      estimate.published.Between (past ++ [estimate.raw]) := by
  cases h with
  | published _ hcommits =>
    refine ⟨rfl, ?_⟩
    rw [hcommits.target]
    exact hremembers.push_between hvalid _

/-- A call goes at most one stride further. -/
theorem Strays.call {stride start : Correction ℝ} {answers : List (Answer ℝ)} {answer : Answer ℝ}
    (h : Strays stride start b answers) (hphase : 0 ≤ stride.phase)
    (hamplitude : 0 ≤ stride.amplitude) (hvalid : plan.hasValidDepth)
    (hremembers : b.lookback.Remembers plan (Lookback.Event.recent (Answer.events answers)))
    (hstride : ∀ block u v phase amplitude, c = .process block →
      b.Publishes block u v phase amplitude →
        Correction.WithinStrides stride b.ramp.target 1 ⟨phase.candidate, amplitude.candidate⟩)
    (hcall : b.call c = .ok (after, answer)) : Strays stride start after (answers ++ [answer]) := by
  obtain ⟨htarget, hrecent⟩ := h
  have hsettles := settles_of_call hcall
  cases hestimate : answer.estimate? with
  | none =>
    have hcount : Answer.estimates (answers ++ [answer]) = Answer.estimates answers := by
      rw [Answer.estimates_concat, hestimate, Option.toList_none, List.append_nil]
    have hkept : after.ramp.target = b.ramp.target := by
      rw [hestimate] at hsettles
      cases hsettles with
      | kept htarget => exact htarget
    constructor
    · rw [hcount, hkept]
      exact htarget
    -- A retuning forgets the candidates, and no other call without an estimate touches them.
    · rw [hcount, recent_events_concat]
      rcases Answer.event?_of_estimate?_none hestimate with hevent | hevent
      · rw [hevent]
        exact hrecent
      · rw [hevent]
        exact fun raw hraw => nomatch hraw
  | some estimate =>
    have hcount : (Answer.estimates (answers ++ [answer])).length =
        (Answer.estimates answers).length + 1 := by
      rw [Answer.estimates_concat, hestimate, List.length_append]
      rfl
    rw [hestimate] at hsettles
    have hraw : Correction.WithinStrides stride b.ramp.target 1 estimate.raw := by
      cases hsettles with
      | published hpublishes _ => exact hstride _ _ _ _ _ rfl hpublishes
    have hestimates : ∀ raw ∈ Lookback.Event.recent (Answer.events answers) ++ [estimate.raw],
        Correction.WithinStrides stride start ((Answer.estimates answers).length + 1) raw := by
      intro raw hmem
      rcases List.mem_append.mp hmem with hold | hnew
      · exact (hrecent raw hold).succ hphase hamplitude
      · rw [List.mem_singleton.mp hnew]
        exact htarget.step hraw
    obtain ⟨hafter, hbetween⟩ := published_of_settles hremembers hvalid hsettles
    constructor
    · rw [hcount, hafter]
      exact .of_between hestimates hbetween
    · rw [hcount, recent_events_concat, Answer.event?_of_estimate? hestimate]
      exact hestimates

/-- Every value is finite here, so a cycle that ends with a full window ends with an estimate. -/
theorem exists_estimate_of_full_window {block : Block ℝ} {answer : Answer ℝ}
    (hdue : b.config.cadence.buffersToSkip ≤ b.skipped + 1)
    (hends : b.config.cadence.correlationIntegration ≤ b.integrated + 1)
    (hlimit : 0 < b.config.cadence.fftIntegration) (hblock : b.size.bins ≤ block.size)
    (hcall : b.call (.process block) = .ok (after, answer)) :
    ∃ estimate, answer.estimate? = some estimate := by
  have hcount : 0 < windowCount b.size.bins block.size b.config.cadence.fftIntegration := by
    rw [windowCount, if_neg (Nat.not_lt.mpr hblock)]
    exact lt_min hlimit (Nat.add_pos_left Nat.one_pos _)
  have hwindows : (b.handed block).sums.windows ≠ 0 := by
    have hsum := b.windows_passSums (b.dc.process block).2
    rw [DcTracker.size_process] at hsum
    exact hsum ▸ (Nat.add_pos_right _ hcount).ne'
  have hnot : ¬ b.Withholds block := by
    intro hwithholds
    cases hwithholds with
    | notDue h => exact absurd hdue (Nat.not_le.mpr h)
    | cycleOpen h => exact absurd hends (Nat.not_le.mpr h)
    | noWindow h => exact hwindows h
    | utilityNotFinite _ _ h => exact h ⟨rfl, rfl⟩
    | candidateNotFinite _ _ _ _ h => exact h ⟨rfl, rfl⟩
  cases answers_of_call hcall with
  | processed hprocesses =>
    rcases publishes_or_withholds hprocesses with ⟨-, hwithholds⟩ | ⟨hout, u, v, phase, amplitude,
      -, hcommits⟩
    · exact absurd hwithholds hnot
    · exact ⟨_, (estimate?_of_processes hprocesses hout).trans hcommits.lastEstimate⟩

end OneCall

/-! ### A run -/

variable {memory : Allocator} {tables : (size : FftSize) → Tables ℝ size} {config : Config ℝ}
  {b₀ b : Balancer ℝ}
  {calls : List (Call ℝ)} {answers : List (Answer ℝ)}

theorem strays_of_run {stride : Correction ℝ} (hphase : 0 ≤ stride.phase)
    (hamplitude : 0 ≤ stride.amplitude) (hcreate : create memory tables config = .ok b₀)
    (hstrides : StridesWithin stride b₀ calls) (hrun : b₀.run calls = .ok (b, answers)) :
    Strays stride config.initial b answers := by
  induction calls using List.reverseRecOn generalizing b answers with
  | nil =>
    cases hrun
    refine ⟨?_, fun raw hraw => nomatch hraw⟩
    rw [ramp_of_create hcreate]
    exact .zero
  | append_singleton calls c ih =>
    obtain ⟨mid, earlier, answer, hbefore, hcall, rfl⟩ := run_concat_eq_ok_iff.mp hrun
    refine (ih (AtBlocks.of_append hstrides) hbefore).call hphase hamplitude
      (accepted_of_create hcreate).depth (remembers_of_run hcreate hbefore) ?_ hcall
    rintro block u v phase amplitude rfl
    exact hstrides calls block [] mid earlier rfl hbefore u v phase amplitude

/-! ### The bound -/

/-- No run of an accepted tuning takes a longer stride than the largest one. -/
theorem stridesWithin_largest (hcreate : create memory tables config = .ok b₀)
    (calls : List (Call ℝ)) :
    StridesWithin config.largestStride b₀ calls := by
  intro before block rest b answers _ hrun u v phase amplitude hpublishes
  have haccepted := accepted_of_create hcreate
  obtain ⟨hphase, hamplitude⟩ := haccepted.exactConfines
  obtain ⟨hphaseStep, hamplitudeStep⟩ := holds_of_run hphase hamplitude hcreate hrun
  have hmu := haccepted.maxMu.1.le
  have hphaseFrom := hpublishes.phaseFrom
  have hamplitudeFrom := hpublishes.amplitudeFrom
  rw [newton_of_run hcreate hrun] at hphaseFrom hamplitudeFrom
  exact ⟨hphaseStep.abs_candidate_sub_le hmu hphaseFrom,
    hamplitudeStep.abs_candidate_sub_le hmu hamplitudeFrom⟩

/-- After any run of an accepted tuning, with as many estimates as it has published: the target is
what the last of them published, and at most so many of the largest strides further from zero than
the start; and each of them published a value between two of the candidates since the last
retuning before it, its own among them. -/
theorem drift_of_run (hcreate : create memory tables config = .ok b₀)
    (hrun : b₀.run calls = .ok (b, answers)) :
    let count : ℝ := (Answer.estimates answers).length
    |b.ramp.target.phase| ≤
        |config.initial.phase| + count * config.newton.maxMu * config.phaseStep.max ∧
    |b.ramp.target.amplitude| ≤
        |config.initial.amplitude| + count * config.newton.maxMu * config.amplitudeStep.max ∧
    b.ramp.target =
      ((Answer.estimates answers).getLast?.map (·.published)).getD config.initial ∧
    ∀ earlier answer later estimate, answers = earlier ++ answer :: later →
      answer.estimate? = some estimate →
        estimate.published.Between
          (Lookback.Event.recent (Answer.events earlier) ++ [estimate.raw]) := by
  intro count
  have haccepted := accepted_of_create hcreate
  have hstride := haccepted.zero_le_largestStride
  have hstrays := strays_of_run hstride.1 hstride.2 hcreate (stridesWithin_largest hcreate calls)
    hrun
  refine ⟨?_, ?_, ?_, ?_⟩
  · have hdrift := hstrays.target.phase
    have htriangle := abs_sub_abs_le_abs_sub b.ramp.target.phase config.initial.phase
    rw [mul_assoc]
    exact sub_le_iff_le_add'.mp (htriangle.trans hdrift)
  · have hdrift := hstrays.target.amplitude
    have htriangle := abs_sub_abs_le_abs_sub b.ramp.target.amplitude config.initial.amplitude
    rw [mul_assoc]
    exact sub_le_iff_le_add'.mp (htriangle.trans hdrift)
  · rw [target_of_run hrun, ramp_of_create hcreate]
    rfl
  · rintro earlier answer later estimate rfl hestimate
    obtain ⟨before, c, rest, mid, next, -, hbefore, hcall, -⟩ := exists_call_of_answers hrun
    have hsettles := settles_of_call hcall
    rw [hestimate] at hsettles
    exact (published_of_settles (remembers_of_run hcreate hbefore) haccepted.depth hsettles).2

/-- A block of one window on the shortest length, when every block ends a cycle. -/
theorem exists_estimate_of_ones {initial : Correction ℝ} {rate w : ℝ}
    (hcreate : create memory tables { Config.ones ⟨1, 1, 1⟩ with dcTimeConst := rate, initial } =
      .ok b₀)
    {block : Block ℝ} (hblock : block.size = 64) {after : Balancer ℝ} {answer : Answer ℝ}
    (hcall : (b₀.setOptimalPoint w).call (.process block) = .ok (after, answer)) :
    ∃ estimate, answer.estimate? = some estimate := by
  have hcadence : (b₀.setOptimalPoint w).config.cadence = ⟨1, 1, 1⟩ := by
    obtain ⟨size, lookback, phaseAxis, amplitudeAxis, -, -, -, -, -, rfl⟩ :=
      create_eq_ok_iff.mp hcreate
    rfl
  have hbins : (b₀.setOptimalPoint w).size.bins = 64 := (accepted_of_create hcreate).fftBins
  refine exists_estimate_of_full_window ?_ ?_ ?_ (hbins.trans hblock.symm).le hcall
  · rw [hcadence]
    exact Nat.le_add_left 1 _
  · rw [hcadence]
    exact Nat.le_add_left 1 _
  · rw [hcadence]
    exact Nat.one_pos

/-- One estimate, after a retuning and a block of one window. -/
theorem drift_after_full_window :
    let tables := fun size : FftSize =>
      Tables.exact (Vector.replicate size.bins 1) (Vector.replicate size.bins 1)
    let config := { Config.ones ⟨1, 1, 1⟩ with dcTimeConst := 1 / 2, initial := ⟨1 / 2, 1 / 4⟩ }
    let calls : List (Call ℝ) := [.setOptimalPoint 0, .process (Array.replicate 64 ⟨3, 4⟩)]
    ∃ b₀ b answers estimate,
      create .ample tables config = .ok b₀ ∧ b₀.run calls = .ok (b, answers) ∧
      Answer.estimates answers = [estimate] ∧
      |b.ramp.target.phase| ≤ 1 / 2 + 1 ∧ |b.ramp.target.amplitude| ≤ 1 / 4 + 1 ∧
      b.ramp.target = estimate.published ∧ estimate.published.Between [estimate.raw] := by
  intro tables config calls
  have hvalid : Cadence.isValid ⟨1, 1, 1⟩ := by decide
  have hfits : Cadence.Fits ⟨1, 1, 1⟩ := by constructor <;> decide
  have hrate : (0 : ℝ) < 1 / 2 ∧ (1 / 2 : ℝ) ≤ 1 := by norm_num
  obtain ⟨b₀, hcreate, hruns⟩ := exists_run_ones tables hvalid hfits hrate ⟨1 / 2, 1 / 4⟩
  obtain ⟨b, answers, hrun⟩ := hruns calls (by simp [calls, Call.Fits])
    (by simp [calls, Call.totalSamples, Call.samples])
  have hcreate : create .ample tables config = .ok b₀ := hcreate
  obtain ⟨hphase, hamplitude, htarget, hbetween⟩ := drift_of_run hcreate hrun
  obtain ⟨next, _, _, hretune, hrest, rfl⟩ := run_cons_eq_ok_iff.mp hrun
  obtain ⟨rfl, rfl⟩ := Prod.mk.inj (Except.ok.inj hretune)
  obtain ⟨last, answer, _, hcall, hend, rfl⟩ := run_cons_eq_ok_iff.mp hrest
  obtain ⟨rfl, rfl⟩ := Prod.mk.inj (Except.ok.inj hend)
  obtain ⟨estimate, hestimate⟩ := exists_estimate_of_ones hcreate Array.size_replicate hcall
  have hestimates : Answer.estimates [.retuned, answer] = [estimate] := by
    refine (Answer.estimates_concat [.retuned] answer).trans ?_
    rw [hestimate]
    rfl
  rw [hestimates] at hphase hamplitude htarget
  refine ⟨b₀, last, _, estimate, hcreate, hrun, hestimates, ?_, ?_, htarget, ?_⟩
  · have hstart : |(1 / 2 : ℝ)| = 1 / 2 := abs_of_pos (by norm_num)
    simpa [config, Config.ones, hstart] using hphase
  · have hstart : |(1 / 4 : ℝ)| = 1 / 4 := abs_of_pos (by norm_num)
    simpa [config, Config.ones, hstart] using hamplitude
  · exact hbetween [.retuned] answer [] estimate rfl hestimate

end Balancer

end IqBalance
