import Mathlib
import IqBalance.Proofs.Balancer.Publication

/-!
The stream that an engine puts out before its first estimate.

Until then the ramp rests at the starting correction, where it applies the same
correction to every sample of a block of any length (`Ramp.process_atRest`,
over exact arithmetic), and the tracker does not notice where a block ends
(`DcTracker.process_append`). `Streams` says that a stretch of calls has taken
one stream in and put another one out in just that way; such stretches can be
put in a row (`Streams.append`), so a run without an estimate is one
(`Streams.run`), however its stream is cut. Blocks shorter than a window never
lead to an estimate (`not_publishes_of_short`).
-/

namespace IqBalance

/-! ### Streams of calls and answers -/

section Streams

variable {α : Type}

/-- The samples that a call brings. -/
def Call.block : Call α → Block α
  | .process block => block
  | _ => #[]

/-- The samples that calls bring, in order. -/
def Call.stream (calls : List (Call α)) : Block α :=
  calls.foldr (fun c rest => c.block ++ rest) #[]

namespace Answer

/-- The samples that an answer gives back. -/
def block : Answer α → Block α
  | .processed block _ => block
  | _ => #[]

/-- The samples that answers give back, in order. -/
def stream (answers : List (Answer α)) : Block α :=
  answers.foldr (fun a rest => a.block ++ rest) #[]

/-- The answer to a block that led to an estimate. -/
def publishes : Answer α → Bool
  | .processed _ outcome => outcome.isPublished
  | _ => false

end Answer

@[simp] theorem Correction.applyBlock_empty [Scalar α] (c : Correction α) :
    c.applyBlock #[] = #[] := by
  simp [applyBlock]

theorem Correction.applyBlock_append [Scalar α] (c : Correction α) (first second : Block α) :
    c.applyBlock (first ++ second) = c.applyBlock first ++ c.applyBlock second := by
  simp [applyBlock]

end Streams

namespace Balancer

/-! ### Estimates on record -/

section Estimates

variable {α : Type} [Scalar α] {b after : Balancer α}

/-- An estimate stays on record until the next one, and an answer that publishes has put one
there. -/
theorem lastEstimate_call {c : Call α} {answer : Answer α}
    (h : b.call c = .ok (after, answer)) :
    after.lastEstimate = none ↔ b.lastEstimate = none ∧ answer.publishes = false := by
  cases answers_of_call h with
  | processed hprocesses =>
    rcases publishes_or_withholds hprocesses with ⟨hout, -⟩ | ⟨hout, _, _, _, _, -, hcommits⟩
    · rw [(keeps_of_processes hprocesses hout).lastEstimate]
      exact (and_iff_left hout).symm
    · rw [hcommits.lastEstimate]
      refine iff_of_false (Option.some_ne_none _) ?_
      rintro ⟨-, hquiet⟩
      exact Bool.false_ne_true (hquiet.symm.trans hout)
  | retuned => exact (and_iff_left rfl).symm
  | configured _ => exact (and_iff_left rfl).symm
  | rejected _ => exact (and_iff_left rfl).symm

theorem lastEstimate_run {calls : List (Call α)} {answers : List (Answer α)}
    (hrun : b.run calls = .ok (after, answers)) :
    after.lastEstimate = none ↔
      b.lastEstimate = none ∧ ∀ answer ∈ answers, answer.publishes = false := by
  induction calls generalizing b answers with
  | nil =>
    cases hrun
    simp
  | cons c rest ih =>
    obtain ⟨next, answer, later, hcall, hrest, rfl⟩ := run_cons_eq_ok_iff.mp hrun
    rw [ih hrest, lastEstimate_call hcall, List.forall_mem_cons, and_assoc]

end Estimates

/-! ### Short blocks -/

section Short

variable {α : Type} [Scalar α] {b : Balancer α}

/-- A block shorter than a window brings no window. -/
theorem windows_passSums_of_short {out : Block α} (hwindows : b.sums.windows = 0)
    (hsize : out.size < b.size.bins) : (b.passSums out).windows = 0 := by
  rw [windows_passSums, windowCount, if_pos hsize, Nat.min_zero, hwindows, ite_self]

/-- Without a window there is no estimate, and a short block leaves it so. -/
theorem short_of_processes {dc : DcTracker α} {out : Block α} {done : Processed α}
    (hwindows : b.sums.windows = 0) (hsize : out.size < b.size.bins)
    (h : Processes b dc out done) :
    done.outcome.isPublished = false ∧ done.balancer.sums.windows = 0 := by
  have hpass := windows_passSums_of_short hwindows hsize
  cases h with
  | idle => exact ⟨rfl, hwindows⟩
  | passed => exact ⟨rfl, hpass⟩
  | ended _ _ hend =>
    rcases endCycle_cases hend with ⟨-, rfl, rfl⟩ | ⟨hsome, -⟩
    · exact ⟨rfl, hpass⟩
    · exact absurd hpass hsome

theorem short_of_call {after : Balancer α} {c : Call α} {answer : Answer α}
    (hwindows : b.sums.windows = 0) (hsize : c.samples < b.size.bins)
    (h : b.call c = .ok (after, answer)) :
    answer.publishes = false ∧ after.sums.windows = 0 := by
  cases answers_of_call h with
  | processed hprocesses =>
    exact short_of_processes hwindows ((b.dc.size_process _).trans_lt hsize) hprocesses
  | retuned => exact ⟨rfl, hwindows⟩
  | configured _ => exact ⟨rfl, hwindows⟩
  | rejected _ => exact ⟨rfl, hwindows⟩

/-- Blocks shorter than a window never lead to an estimate. -/
theorem not_publishes_of_short {after : Balancer α} {calls : List (Call α)}
    {answers : List (Answer α)} (hwindows : b.sums.windows = 0)
    (hsizes : ∀ c ∈ calls, c.samples < b.size.bins) (hrun : b.run calls = .ok (after, answers)) :
    ∀ answer ∈ answers, answer.publishes = false := by
  induction calls generalizing b answers with
  | nil =>
    cases hrun
    simp
  | cons c rest ih =>
    obtain ⟨next, answer, later, hcall, hrest, rfl⟩ := run_cons_eq_ok_iff.mp hrun
    obtain ⟨hfirst, hsizes⟩ := List.forall_mem_cons.mp hsizes
    obtain ⟨hquiet, hnext⟩ := short_of_call hwindows hfirst hcall
    rw [← size_of_call hcall] at hsizes
    exact List.forall_mem_cons.mpr ⟨hquiet, ih hnext hsizes hrest⟩

end Short

end Balancer

/-! ### At rest -/

/-- At rest every sample of a block meets the same correction, the only one of a block of one
sample included. -/
theorem Ramp.correctionAt_atRest (c : Correction ℝ) {n i : Nat} (hi : i < n) :
    (atRest c).correctionAt n i = c := by
  rw [correctionAt]
  split
  · rfl
  · rename_i hn
    -- Beyond one sample the last index is what the way is divided by.
    have hlast : ((n - 1 : ℕ) : ℝ) ≠ 0 := by
      rw [Nat.cast_ne_zero]
      omega
    simp only [atRest, Scalar.ofCount]
    apply Correction.ext
    · field_simp
      ring
    · field_simp
      ring

theorem Ramp.process_atRest (c : Correction ℝ) (block : Block ℝ) :
    (atRest c).process block = (atRest c, c.applyBlock block) := by
  refine Prod.ext rfl ?_
  apply Array.ext
  · simp
  · intro i h₁ h₂
    have hi : i < block.size := by simpa using h₁
    simp [process, Correction.applyBlock, correctionAt_atRest c hi]

namespace Balancer

/-- Between two engines a stream went in and a stream came out: the tracker took the one in, the
other is what it left, corrected at one point all along, and the ramp and the steps rest. -/
structure Streams (point : Correction ℝ) (b after : Balancer ℝ) (input output : Block ℝ) :
    Prop where
  dc : after.dc = (b.dc.process input).1
  output : output = point.applyBlock (b.dc.process input).2
  ramp : after.ramp = .atRest point
  phaseAxis : after.phaseAxis = b.phaseAxis
  amplitudeAxis : after.amplitudeAxis = b.amplitudeAxis

namespace Streams

variable {point : Correction ℝ} {b next after : Balancer ℝ}

/-- Nothing went in, and nothing that counts has moved. -/
theorem still (hrest : b.ramp = .atRest point) (hdc : after.dc = b.dc) (hramp : after.ramp = b.ramp)
    (hphase : after.phaseAxis = b.phaseAxis) (hamplitude : after.amplitudeAxis = b.amplitudeAxis) :
    Streams point b after #[] #[] where
  dc := hdc
  output := by simp
  ramp := hramp.trans hrest
  phaseAxis := hphase
  amplitudeAxis := hamplitude

/-- Stretches in a row. -/
theorem append {input output input' output' : Block ℝ} (h : Streams point b next input output)
    (h' : Streams point next after input' output') :
    Streams point b after (input ++ input') (output ++ output') where
  dc := by rw [h'.dc, h.dc, DcTracker.process_append]
  output := by
    rw [h'.output, h.output, h.dc, DcTracker.process_append, Correction.applyBlock_append]
  ramp := h'.ramp
  phaseAxis := h'.phaseAxis.trans h.phaseAxis
  amplitudeAxis := h'.amplitudeAxis.trans h.amplitudeAxis

/-- A call that leads to no estimate. -/
theorem call {c : Call ℝ} {answer : Answer ℝ} (hrest : b.ramp = .atRest point)
    (h : b.call c = .ok (after, answer)) (hquiet : answer.publishes = false) :
    Streams point b after c.block answer.block := by
  cases answers_of_call h with
  | processed hprocesses =>
    obtain ⟨skipped, integrated, sums, hdone⟩ := withheld_of_processes hprocesses hquiet
    rw [hdone]
    simp only [emit, hrest, Ramp.process_atRest]
    exact ⟨rfl, rfl, rfl, rfl, rfl⟩
  | retuned => exact still hrest rfl rfl rfl rfl
  | configured _ => exact still hrest rfl rfl rfl rfl
  | rejected _ => exact still hrest rfl rfl rfl rfl

/-- A run that leads to no estimate. -/
theorem run {calls : List (Call ℝ)} {answers : List (Answer ℝ)} (hrest : b.ramp = .atRest point)
    (hrun : b.run calls = .ok (after, answers))
    (hquiet : ∀ answer ∈ answers, answer.publishes = false) :
    Streams point b after (Call.stream calls) (Answer.stream answers) := by
  induction calls generalizing b answers with
  | nil =>
    cases hrun
    exact still hrest rfl rfl rfl rfl
  | cons c rest ih =>
    obtain ⟨next, answer, later, hcall, hlater, rfl⟩ := run_cons_eq_ok_iff.mp hrun
    obtain ⟨hfirst, hquiet⟩ := List.forall_mem_cons.mp hquiet
    -- The first call leaves the ramp at rest, which is what the others need.
    have hstep := Streams.call hrest hcall hfirst
    exact hstep.append (ih hstep.ramp hlater hquiet)

end Streams

/-- Until an estimate is published, which no block shorter than a window leads to, what a run puts
out is its input as one stream, less the tracked offset, at the starting correction; and the
correction and the steps are the initial ones. -/
theorem stream_of_unpublished {memory : Allocator} {tables : (size : FftSize) → Tables ℝ size}
    {config : Config ℝ} {b₀ b : Balancer ℝ} {calls : List (Call ℝ)} {answers : List (Answer ℝ)}
    (hcreate : create memory tables config = .ok b₀) (hrun : b₀.run calls = .ok (b, answers)) :
    (b.lastEstimate = none ↔ ∀ answer ∈ answers, answer.publishes = false) ∧
    ((∀ c ∈ calls, c.samples < config.fftBins) → b.lastEstimate = none) ∧
    (b.lastEstimate = none →
      Answer.stream answers = config.initial.applyBlock
        ((DcTracker.start config.dcTimeConst).process (Call.stream calls)).2 ∧
      b.ramp.target = config.initial ∧ b.ramp.applied = config.initial ∧
      b.phaseAxis.step = config.phaseStep.initial ∧
      b.amplitudeAxis.step = config.amplitudeStep.initial) := by
  obtain ⟨size, lookback, phaseAxis, amplitudeAxis, hsize, -, -, hphase, hamplitude, rfl⟩ :=
    create_eq_ok_iff.mp hcreate
  have haccepted := Config.validate_eq_ok_iff.mp hsize
  rw [Axis.start_eq_ok haccepted.phaseStep] at hphase
  rw [Axis.start_eq_ok haccepted.amplitudeStep] at hamplitude
  cases hphase
  cases hamplitude
  have hrecord := lastEstimate_run hrun
  rw [and_iff_right rfl] at hrecord
  refine ⟨hrecord, fun hshort => ?_, fun hnone => ?_⟩
  · rw [← haccepted.fftBins] at hshort
    exact hrecord.mpr (not_publishes_of_short rfl hshort hrun)
  · have hstreams := Streams.run rfl hrun (hrecord.mp hnone)
    refine ⟨hstreams.output, ?_, ?_, ?_, ?_⟩
    · rw [hstreams.ramp]
      rfl
    · rw [hstreams.ramp]
      rfl
    · rw [hstreams.phaseAxis]
    · rw [hstreams.amplitudeAxis]

/-- Short blocks, among them an empty one and one of a single sample, with every pass due and
other calls in between. -/
theorem stream_of_short_blocks :
    let tables := fun size : FftSize =>
      Tables.exact (Vector.replicate size.bins 1) (Vector.replicate size.bins 1)
    let config := { Config.ones ⟨1, 1, 1⟩ with dcTimeConst := 1 / 2, initial := ⟨1 / 2, 1 / 4⟩ }
    let calls : List (Call ℝ) :=
      [.process #[⟨1, 2⟩], .process #[], .setOptimalPoint 0, .process #[⟨3, 4⟩, ⟨5, 6⟩],
        .configure ⟨2, 1, 1⟩, .process (Array.replicate 63 ⟨7, 8⟩)]
    ∃ b₀ b answers, create .ample tables config = .ok b₀ ∧ b₀.run calls = .ok (b, answers) ∧
      b.lastEstimate = none ∧
      Answer.stream answers = config.initial.applyBlock
        ((DcTracker.start config.dcTimeConst).process
          (#[⟨1, 2⟩, ⟨3, 4⟩, ⟨5, 6⟩] ++ Array.replicate 63 ⟨7, 8⟩)).2 := by
  intro tables config calls
  have hvalid : Cadence.isValid ⟨1, 1, 1⟩ := by decide
  have hfits : Cadence.Fits ⟨1, 1, 1⟩ := by constructor <;> decide
  have hrate : (0 : ℝ) < 1 / 2 ∧ (1 / 2 : ℝ) ≤ 1 := by norm_num
  obtain ⟨b₀, hcreate, hruns⟩ := exists_run_ones tables hvalid hfits hrate ⟨1 / 2, 1 / 4⟩
  have hcallsFit : ∀ c ∈ calls, c.Fits := by
    have hnew : Cadence.Fits ⟨2, 1, 1⟩ := by constructor <;> decide
    simp [calls, Call.Fits, hnew]
  obtain ⟨b, answers, hrun⟩ := hruns calls hcallsFit
    (by simp [calls, Call.totalSamples, Call.samples])
  have hcreate : create .ample tables config = .ok b₀ := hcreate
  obtain ⟨-, hshort, hstream⟩ := stream_of_unpublished hcreate hrun
  have hnone := hshort (by simp [calls, config, Call.samples, Config.ones])
  have hinput : Call.stream calls =
      #[⟨1, 2⟩, ⟨3, 4⟩, ⟨5, 6⟩] ++ Array.replicate 63 ⟨7, 8⟩ := by
    simp [calls, Call.stream, Call.block, ← Array.append_assoc]
  rw [hinput] at hstream
  exact ⟨b₀, b, answers, hcreate, hrun, hnone, (hstream hnone).1⟩

end Balancer

end IqBalance
