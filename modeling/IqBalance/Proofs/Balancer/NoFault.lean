import Mathlib
import IqBalance.Proofs.AcceptedConfig
import IqBalance.Proofs.Balancer.Steps
import IqBalance.Proofs.Correlation.ExactUtility
import IqBalance.Proofs.Counters

/-!
No run of an engine for an accepted tuning faults.

`InRange` is what every call finds and leaves: the favoured bin is one of the
spectrum, so the boost reaches it from every bin; the bounds of every clamp are
in order; both counts of the cadence lie below the counts they run up to; no
more windows were summed up than samples seen; and the lookback filter stays
within its ring. Under it each stage has an answer (`InRange.exists_utility`,
`InRange.exists_estimate`, `exists_adapt`), so each call does, and the call
leaves the engine `InRange` again (`InRange.call`). A look-up in the sums, the
taper, the twiddles or the buffer of the transform carries its bound in its
type.
-/

namespace IqBalance

/-! ### What callers can say -/

/-- Counts that a word holds. -/
structure Cadence.Fits (c : Cadence) : Prop where
  buffersToSkip : c.buffersToSkip < countLimit
  fftIntegration : c.fftIntegration < countLimit
  correlationIntegration : c.correlationIntegration < countLimit

theorem Cadence.isValid_iff {c : Cadence} :
    c.isValid ↔ 0 < c.buffersToSkip ∧ 0 < c.fftIntegration ∧ 0 < c.correlationIntegration := by
  simp [isValid, and_assoc, Nat.pos_iff_ne_zero]

namespace Call

variable {α : Type}

/-- Samples that a call brings. -/
def samples : Call α → Nat
  | .process block => block.size
  | _ => 0

/-- A new cadence is one that words hold. -/
def Fits : Call α → Prop
  | .configure cadence => cadence.Fits
  | _ => True

/-- Samples that calls bring together. -/
def totalSamples (calls : List (Call α)) : Nat := (calls.map samples).sum

@[simp] theorem totalSamples_cons (c : Call α) (rest : List (Call α)) :
    totalSamples (c :: rest) = c.samples + totalSamples rest := List.sum_cons

end Call

variable {α : Type} [Scalar α]

/-- Every frequency has a bin. -/
theorem frequencyBin_lt {bins : Nat} (h : 0 < bins) (w : α) : frequencyBin bins w < bins :=
  Nat.lt_of_le_of_lt (Nat.min_le_right _ _) (Nat.sub_one_lt h.ne')

/-! ### Steps -/

theorem StepBounds.exists_clampStep {b : StepBounds α} (h : b.min ≤ b.max) (step : α) :
    ∃ moved, b.clampStep step = .ok moved :=
  ⟨_, bind_eq_ok_iff.mpr ⟨_, Scalar.clamp_eq_ok h, rfl⟩⟩

namespace Axis

theorem exists_start {bounds : StepBounds α} (h : bounds.min ≤ bounds.max) :
    ∃ axis, start bounds = .ok axis := by
  obtain ⟨step, hstep⟩ := StepBounds.exists_clampStep h bounds.initial
  exact ⟨_, bind_eq_ok_iff.mpr ⟨step, hstep, rfl⟩⟩

theorem bounds_start {bounds : StepBounds α} {axis : Axis α} (h : start bounds = .ok axis) :
    axis.bounds = bounds := by
  obtain ⟨step, -, h⟩ := bind_eq_ok_iff.mp h
  cases h
  rfl

theorem exists_estimate {rule : NewtonRule α} (h : -rule.maxMu ≤ rule.maxMu) (axis : Axis α)
    (current a b : α) : ∃ estimate, axis.estimate rule current a b = .ok estimate :=
  ⟨_, bind_eq_ok_iff.mpr ⟨_, Scalar.clamp_eq_ok h, rfl⟩⟩

theorem exists_adapt {axis : Axis α} (h : axis.bounds.min ≤ axis.bounds.max) (rule : NewtonRule α)
    (mu : α) : ∃ adapted, axis.adapt rule mu = .ok adapted := by
  obtain ⟨step, hstep⟩ := StepBounds.exists_clampStep h (axis.scaledStep rule mu)
  exact ⟨_, bind_eq_ok_iff.mpr ⟨step, hstep, rfl⟩⟩

theorem bounds_adapt {axis adapted : Axis α} {rule : NewtonRule α} {mu : α}
    (h : axis.adapt rule mu = .ok adapted) : adapted.bounds = axis.bounds := by
  obtain ⟨step, -, h⟩ := bind_eq_ok_iff.mp h
  cases h
  rfl

end Axis

namespace Balancer

/-! ### Sums of a pass, counted -/

/-- `passSums` with the counts of both trials checked. -/
def passSumsCounted (b : Balancer α) (block : Block α) :
    Except Fault (Accumulators α b.size.bins) := do
  let start := if b.integrated = 0 then .empty b.size.bins else b.sums
  let limit := b.config.cadence.fftIntegration
  let (_, sums) ← start.accumulateCounted b.tables block b.ramp.target .baseline limit
  let (_, sums) ← sums.accumulateCounted b.tables block b.perturbedPoint .perturbed limit
  return sums

theorem windows_start_le (b : Balancer α) :
    (if b.integrated = 0 then .empty b.size.bins else b.sums).windows ≤ b.sums.windows := by
  split
  · exact Nat.zero_le _
  · exact Nat.le_refl _

/-- After a pass there are the windows of this block, and those of the cycle before it. -/
theorem windows_passSums (b : Balancer α) (out : Block α) :
    (b.passSums out).windows = (if b.integrated = 0 then 0 else b.sums.windows) +
      windowCount b.size.bins out.size b.config.cadence.fftIntegration := by
  simp only [passSums, Accumulators.windows_accumulate_perturbed,
    Accumulators.windows_accumulate_baseline]
  split <;> rfl

/-- A pass counts no more windows than samples. -/
theorem windows_passSums_le (b : Balancer α) (block : Block α) :
    (b.passSums block).windows ≤ b.sums.windows + block.size := by
  rw [passSums]
  simp only [Accumulators.windows_accumulate_perturbed]
  exact (Accumulators.windows_accumulate_le _ _).trans
    (Nat.add_le_add_right b.windows_start_le _)

theorem passSumsCounted_eq_ok {b : Balancer α} {block : Block α}
    (h : b.sums.windows + block.size < 2 ^ 63) :
    b.passSumsCounted block = .ok (b.passSums block) := by
  have hstart := b.windows_start_le
  rw [passSumsCounted, passSums]
  generalize (if b.integrated = 0 then .empty b.size.bins else b.sums) = start at hstart ⊢
  have hsize : block.size < 2 ^ 63 := by omega
  have hwindows : start.windows + block.size < countLimit := by unfold countLimit; omega
  have hperturbed : ∀ sums : Accumulators α b.size.bins,
      sums.accumulateCounted b.tables block b.perturbedPoint .perturbed
        b.config.cadence.fftIntegration = .ok (sums.accumulate b.tables block b.perturbedPoint
          .perturbed b.config.cadence.fftIntegration) :=
    fun sums => Accumulators.accumulateCounted_eq_ok hsize (fun h => absurd h (by decide)) _
  simp only [Accumulators.accumulateCounted_eq_ok hsize (fun _ => hwindows), hperturbed, bind,
    Except.bind]
  rfl

/-! ### What every call finds and leaves -/

/-- Nothing that the next call asks for is out of range. `seen` counts the samples so far. -/
structure InRange (b : Balancer α) (seen : Nat) : Prop where
  fftBins : b.config.fftBins = b.size.bins
  optimalBin : b.optimalBin < b.size.bins
  clamps : b.config.ClampsOrdered
  phaseBounds : b.phaseAxis.bounds = b.config.phaseStep
  amplitudeBounds : b.amplitudeAxis.bounds = b.config.amplitudeStep
  cadence : b.config.cadence.Fits
  skipped : b.skipped < b.config.cadence.buffersToSkip
  integrated : b.integrated < b.config.cadence.correlationIntegration
  windows : b.sums.windows ≤ seen
  lookback : b.lookback.WithinRing

/-- The centre is a bin. -/
theorem half_bins_lt (size : FftSize) : size.bins / 2 < size.bins :=
  Nat.div_lt_self size.bins_pos (by decide)

theorem InRange.create {memory : Allocator} {tables : (size : FftSize) → Tables α size}
    {config : Config α} {b : Balancer α} (hclamps : config.ClampsOrdered)
    (hcadence : config.cadence.Fits) (hcycles : config.lookback.warmupCycles < countLimit)
    (h : Balancer.create memory tables config = .ok b) : b.InRange 0 := by
  obtain ⟨size, lookback, phaseAxis, amplitudeAxis, hvalid, -, hlookback, hphase, hamplitude,
    rfl⟩ := create_eq_ok_iff.mp h
  have haccepted := Config.validate_eq_ok_iff.mp hvalid
  obtain ⟨hskip, -, hintegration⟩ := Cadence.isValid_iff.mp haccepted.cadence
  exact {
    fftBins := haccepted.fftBins.symm
    optimalBin := haccepted.fftBins ▸ half_bins_lt size
    clamps := hclamps
    phaseBounds := Axis.bounds_start hphase
    amplitudeBounds := Axis.bounds_start hamplitude
    cadence := hcadence
    skipped := hskip
    integrated := hintegration
    windows := Nat.le_refl 0
    lookback := .create hcycles hlookback }

namespace InRange

variable {b : Balancer α} {seen : Nat}

/-- The boost reaches every bin from the favoured one, so a utility has a value. -/
theorem exists_utility (h : b.InRange seen) (trial : Trial) : ∃ u, b.utility trial = .ok u :=
  ⟨_, b.sums.utility_eq_ok b.tables b.config.weighting trial h.optimalBin⟩

/-- A refresh has a result. -/
theorem exists_refresh (h : b.InRange seen) : ∃ result, b.refresh = .ok result := by
  obtain ⟨u, hu⟩ := h.exists_utility .baseline
  obtain ⟨v, hv⟩ := h.exists_utility .perturbed
  obtain ⟨phase, hphase⟩ :=
    Axis.exists_estimate h.clamps.ratio b.phaseAxis b.ramp.target.phase u.im v.im
  obtain ⟨amplitude, hamplitude⟩ :=
    Axis.exists_estimate h.clamps.ratio b.amplitudeAxis b.ramp.target.amplitude u.re v.re
  obtain ⟨phaseAxis, hphaseAxis⟩ :=
    Axis.exists_adapt (h.phaseBounds ▸ h.clamps.phaseStep) b.config.newton phase.mu
  obtain ⟨amplitudeAxis, hamplitudeAxis⟩ :=
    Axis.exists_adapt (h.amplitudeBounds ▸ h.clamps.amplitudeStep) b.config.newton amplitude.mu
  simp only [refresh, hu, hv, hphase, hamplitude, hphaseAxis, hamplitudeAxis, bind, Except.bind]
  split
  · exact ⟨_, rfl⟩
  · split <;> exact ⟨_, rfl⟩

theorem refreshes {after : Balancer α} {outcome : Outcome α} (h : b.InRange seen)
    (hr : Refreshes b after outcome) : after.InRange seen := by
  cases hr with
  | utilityNotFinite => exact h
  | candidateNotFinite => exact h
  | published _ _ _ _ _ _ _ hphaseAxis hamplitudeAxis _ =>
    exact { h with
      phaseBounds := (Axis.bounds_adapt hphaseAxis).trans h.phaseBounds
      amplitudeBounds := (Axis.bounds_adapt hamplitudeAxis).trans h.amplitudeBounds
      lookback := h.lookback.push _ }

/-- The end of a cycle has a result and leaves everything in range. -/
theorem endCycle (h : b.InRange seen) :
    ∃ after outcome, b.endCycle = .ok (after, outcome) ∧ after.InRange seen := by
  by_cases hwindows : b.sums.windows = 0
  · exact ⟨b, .noWindow, if_pos hwindows, h⟩
  · obtain ⟨⟨after, outcome⟩, hrefresh⟩ := h.exists_refresh
    exact ⟨after, outcome, (if_neg hwindows).trans hrefresh,
      h.refreshes (refreshes_of_refresh hrefresh)⟩

/-- The sums of a pass in place, and a count of passes that the cycle has room for. -/
theorem afterPass (h : b.InRange seen) (dc : DcTracker α) (block : Block α) {integrated : Nat}
    (hintegrated : integrated < b.config.cadence.correlationIntegration) :
    InRange { b.afterPass dc block with integrated } (seen + block.size) :=
  { h with
    skipped := Nat.zero_lt_of_lt h.skipped
    integrated := hintegrated
    windows := (b.windows_passSums_le block).trans (Nat.add_le_add_right h.windows _) }

theorem emit {result : Balancer α × Outcome α} (h : result.1.InRange seen) (block : Block α) :
    (emit block result).balancer.InRange seen :=
  { h with }

/-- A block's way before it is put out has an end. -/
theorem meet (h : b.InRange seen) (dc : DcTracker α) {out : Block α}
    (hseen : seen + out.size < 2 ^ 63) :
    ∃ result, b.meet dc out (b.skipped + 1) = .ok result ∧
      result.1.InRange (seen + out.size) := by
  have hintegrated : b.integrated + 1 < countLimit :=
    Nat.lt_of_le_of_lt h.integrated h.cadence.correlationIntegration
  have hwindows : (b.passSums out).windows < countLimit := by
    have hpass := b.windows_passSums_le out
    have hsums := h.windows
    unfold countLimit
    omega
  have hcount : addCount (passSums { b with dc, skipped := 0 } out).windows 0 = .ok _ :=
    addCount_eq_ok hwindows
  unfold Balancer.meet
  split
  · rename_i hidle
    exact ⟨_, rfl, { h with
      skipped := hidle
      windows := h.windows.trans (Nat.le_add_right _ _) }⟩
  · rw [pass]
    simp only [hcount, addCount_eq_ok hintegrated, bind, Except.bind]
    split
    · rename_i hopen
      exact ⟨_, rfl, h.afterPass dc out hopen⟩
    · obtain ⟨after, outcome, hend, hrange⟩ :=
        (h.afterPass dc out (Nat.zero_lt_of_lt h.integrated)).endCycle
      exact ⟨_, hend, hrange⟩

/-- A block has an answer and leaves everything in range. -/
theorem process (h : b.InRange seen) {block : Block α} (hseen : seen + block.size < 2 ^ 63) :
    ∃ done, b.process block = .ok done ∧ done.balancer.InRange (seen + block.size) := by
  have hskipped : b.skipped + 1 < countLimit :=
    Nat.lt_of_le_of_lt h.skipped h.cadence.buffersToSkip
  have hsize := b.dc.size_process block
  rw [← hsize] at hseen ⊢
  obtain ⟨result, hmeet, hrange⟩ := h.meet (b.dc.process block).1 hseen
  refine ⟨_, ?_, hrange.emit (b.dc.process block).2⟩
  rw [process_eq, addCount_eq_ok hskipped]
  exact congrArg (Except.map _) hmeet

theorem setOptimalPoint (h : b.InRange seen) (w : α) : (b.setOptimalPoint w).InRange seen :=
  { h with
    optimalBin := h.fftBins ▸ frequencyBin_lt (h.fftBins ▸ b.size.bins_pos) w
    lookback := h.lookback.restart }

theorem configured (h : b.InRange seen) {cadence : Cadence} (hvalid : cadence.isValid)
    (hfits : cadence.Fits) :
    InRange { b with config := { b.config with cadence }, integrated := 0, skipped := 0 } seen := by
  obtain ⟨hskip, -, hintegration⟩ := Cadence.isValid_iff.mp hvalid
  exact { h with
    clamps := ⟨h.clamps.phaseStep, h.clamps.amplitudeStep, h.clamps.ratio⟩
    cadence := hfits
    skipped := hskip
    integrated := hintegration }

/-- A call has an answer and leaves everything in range. -/
theorem call (h : b.InRange seen) {c : Call α} (hfits : c.Fits)
    (hseen : seen + c.samples < 2 ^ 63) :
    ∃ after answer, b.call c = .ok (after, answer) ∧ after.InRange (seen + c.samples) := by
  cases c with
  | process block =>
    obtain ⟨done, hprocess, hrange⟩ := h.process hseen
    exact ⟨_, _, bind_eq_ok_iff.mpr ⟨done, hprocess, rfl⟩, hrange⟩
  | setOptimalPoint w => exact ⟨_, _, rfl, h.setOptimalPoint w⟩
  | configure cadence =>
    rcases b.configure_cases cadence with ⟨hvalid, hok⟩ | ⟨-, herror⟩
    · refine ⟨_, .configured true, ?_, h.configured hvalid hfits⟩
      rw [Balancer.call, hok]
    · refine ⟨_, .configured false, ?_, h⟩
      rw [Balancer.call, herror]

/-- So has every run. -/
theorem run (h : b.InRange seen) {calls : List (Call α)} (hfits : ∀ c ∈ calls, c.Fits)
    (hseen : seen + Call.totalSamples calls < 2 ^ 63) :
    ∃ after answers, b.run calls = .ok (after, answers) ∧
      after.InRange (seen + Call.totalSamples calls) := by
  induction calls generalizing b seen with
  | nil => exact ⟨b, [], rfl, h⟩
  | cons c rest ih =>
    rw [Call.totalSamples_cons, ← Nat.add_assoc] at hseen ⊢
    obtain ⟨next, answer, hcall, hnext⟩ :=
      h.call (hfits c List.mem_cons_self) (Nat.lt_of_le_of_lt (Nat.le_add_right _ _) hseen)
    obtain ⟨after, answers, hrun, hafter⟩ :=
      ih hnext (fun c hc => hfits c (List.mem_cons_of_mem _ hc)) hseen
    exact ⟨after, answer :: answers,
      run_cons_eq_ok_iff.mpr ⟨next, answer, answers, hcall, hrun, rfl⟩, hafter⟩

end InRange

/-- What an engine is created for has passed the checks. -/
theorem accepted_of_create {memory : Allocator} {tables : (size : FftSize) → Tables α size}
    {config : Config α} {b : Balancer α} (h : create memory tables config = .ok b) :
    config.Accepted b.size := by
  obtain ⟨size, lookback, phaseAxis, amplitudeAxis, hvalid, -, -, -, -, rfl⟩ :=
    create_eq_ok_iff.mp h
  exact Config.validate_eq_ok_iff.mp hvalid

/-- A tuning that is accepted makes an engine in a memory that grants its buffers. -/
theorem exists_create {memory : Allocator} (tables : (size : FftSize) → Tables α size)
    {config : Config α} {size : FftSize} (hclamps : config.ClampsOrdered)
    (hvalid : config.validate = .ok size)
    (hmemory : ∀ buffer ∈ config.buffers, memory.Grants buffer) :
    ∃ b, create memory tables config = .ok b := by
  have haccepted := Config.validate_eq_ok_iff.mp hvalid
  obtain ⟨hsums, hring⟩ := List.forall_mem_append.mp hmemory
  rw [← haccepted.fftBins] at hsums
  obtain ⟨ring, hring⟩ := Lookback.exists_create (α := α) haccepted.capacity hring
  obtain ⟨phaseAxis, hphase⟩ := Axis.exists_start hclamps.phaseStep
  obtain ⟨amplitudeAxis, hamplitude⟩ := Axis.exists_start hclamps.amplitudeStep
  exact ⟨_, create_eq_ok_iff.mpr ⟨size, ring, phaseAxis, amplitudeAxis, hvalid, hsums, hring,
    hphase, hamplitude, rfl⟩⟩

/-! ### Runs in single precision -/

/-- An accepted tuning in single precision, in a memory that grants its buffers, makes an engine
that answers every call, whatever the samples, the frequencies and the cadences are, up to `2 ^ 63`
samples. What the next call asks for is in range at every point of the run; the counts of its pass
and of its push, each sum checked, come out as the engine has them, and the words that a read of
the ring computes name slots. -/
theorem run_of_accepted {memory : Allocator} (tables : (size : FftSize) → Tables Float32 size)
    {config : Config Float32} {size : FftSize} (hvalid : config.validate = .ok size)
    (hmemory : ∀ buffer ∈ config.buffers, memory.Grants buffer)
    (hcadence : config.cadence.Fits) (hcycles : config.lookback.warmupCycles < countLimit) :
    ∃ b₀, create memory tables config = .ok b₀ ∧
      ∀ calls : List (Call Float32), (∀ c ∈ calls, c.Fits) → Call.totalSamples calls < 2 ^ 63 →
        ∃ b answers, b₀.run calls = .ok (b, answers) ∧
          b.InRange (Call.totalSamples calls) ∧
          (∀ i : Fin b.size.bins, binDistance i b.optimalBin < b.size.bins) ∧
          (∀ block : Block Float32, Call.totalSamples calls + block.size < 2 ^ 63 →
            b.passSumsCounted block = .ok (b.passSums block)) ∧
          (∀ raw, b.lookback.pushCounted raw = .ok (b.lookback.push raw)) ∧
          ∀ back, back ≤ b.lookback.depth →
            ((UInt64.ofNat b.lookback.cursor - UInt64.ofNat back) &&&
              UInt64.ofNat (b.lookback.capacity - 1)).toNat < b.lookback.capacity := by
  have hclamps := (Config.validate_eq_ok_iff.mp hvalid).clampsOrdered
  obtain ⟨b₀, hcreate⟩ := exists_create tables hclamps hvalid hmemory
  refine ⟨b₀, hcreate, fun calls hfits hsamples => ?_⟩
  have hstart := InRange.create hclamps hcadence hcycles hcreate
  rw [← Nat.zero_add (Call.totalSamples calls)] at hsamples
  obtain ⟨b, answers, hrun, hrange⟩ := hstart.run hfits hsamples
  rw [Nat.zero_add] at hrange
  refine ⟨b, answers, hrun, hrange, ?_, ?_, ?_, ?_⟩
  · intro i
    exact binDistance_lt i.isLt hrange.optimalBin
  · intro block hblock
    exact passSumsCounted_eq_ok (Nat.lt_of_le_of_lt (Nat.add_le_add_right hrange.windows _) hblock)
  · exact fun raw => Lookback.pushCounted_eq_ok hrange.lookback raw
  · exact fun back hback => hrange.lookback.masked_lt hback

/-- Blocks of what is no number, a frequency that is none, and the largest counts there are. -/
theorem run_with_largest_counts :
    let nan : Float32 := 0 / 0
    let infinite : Float32 := 1 / 0
    let largest := countLimit - 1
    let calls : List (Call Float32) :=
      [.process (Array.replicate 5000 ⟨nan, infinite⟩), .setOptimalPoint nan,
        .configure ⟨largest, largest, largest⟩, .process (Array.replicate 5000 ⟨infinite, nan⟩)]
    Config.standard.validate = .ok { log2 := 10 } ∧
      ∃ b₀ b answers, create .ample Tables.single Config.standard = .ok b₀ ∧
        b₀.run calls = .ok (b, answers) ∧ b.InRange 10000 := by
  intro nan infinite largest calls
  have hmemory : ∀ buffer ∈ Config.standard.buffers, Allocator.ample.Grants buffer := by decide
  have hlargest : Cadence.Fits ⟨largest, largest, largest⟩ := by constructor <;> decide
  have hsamples : Call.totalSamples calls = 10000 := by
    simp [Call.totalSamples, Call.samples, calls]
  have hfits : ∀ c ∈ calls, c.Fits := by
    simp [calls, Call.Fits, hlargest]
  obtain ⟨b₀, hcreate, hruns⟩ :=
    run_of_accepted Tables.single Config.validate_standard hmemory
      (by constructor <;> decide) (by decide)
  obtain ⟨b, answers, hrun, hrange, -⟩ := hruns calls hfits (by rw [hsamples]; decide)
  rw [hsamples] at hrange
  exact ⟨Config.validate_standard, b₀, b, answers, hcreate, hrun, hrange⟩

end Balancer

end IqBalance
