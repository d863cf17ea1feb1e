import Mathlib
import IqBalance.Proofs.Balancer.Drift
import IqBalance.Proofs.Balancer.Gain

/-!
The fixed point of the control loop, over exact arithmetic.

A refresh that finds no utility at the target has a secant of zero, whatever
the utility one step further, so its candidates are the target itself. A run
with no other refreshes (`QuietRefreshes`) takes strides of length zero, and
`Balancer.strays_of_run` leaves its correction at the start.

Silence leads to such a run. A block of zeros is any block at a gain of zero,
and so is what the engine makes of it: no offset, no sums, no samples
(`Balancer.Silent`, `Silent.call`), and without sums no utility
(`Accumulators.utility_of_silent`).
-/

namespace IqBalance

/-! ### Silence -/

/-- Nothing but zeros. -/
def Block.IsSilent (block : Block ℝ) : Prop := ∀ s ∈ block, s = 0

/-- Silence is what a gain of zero does not change. -/
theorem Block.isSilent_iff {block : Block ℝ} :
    block.IsSilent ↔ Block.amplified block 0 = block := by
  have hzero : ∀ s : Sample ℝ, s.scale 0 = 0 := fun s => Sample.ext (mul_zero _) (mul_zero _)
  constructor
  · intro h
    have hfixed : ∀ s ∈ block, s.scale 0 = s := fun s hs => (hzero s).trans (h s hs).symm
    exact (Array.map_congr_left hfixed).trans (Array.map_id block)
  · intro h s hs
    rw [← h] at hs
    obtain ⟨t, -, rfl⟩ := Array.mem_map.mp hs
    exact hzero t

/-- A block of zeros, if the call has one. -/
def Call.IsSilent : Call ℝ → Prop
  | .process block => block.IsSilent
  | _ => True

/-- A block of zeros, if the answer has one. -/
def Answer.IsSilent : Answer ℝ → Prop
  | .processed block _ => block.IsSilent
  | _ => True

theorem DcTracker.process_silent {t : DcTracker ℝ} {block : Block ℝ} (ht : t.amplified 0 = t)
    (hblock : block.IsSilent) :
    (t.process block).1.amplified 0 = (t.process block).1 ∧
      Block.IsSilent (t.process block).2 := by
  have h := t.process_amplified 0 block
  rw [ht, Block.isSilent_iff.mp hblock] at h
  exact ⟨(congrArg Prod.fst h).symm, Block.isSilent_iff.mpr (congrArg Prod.snd h).symm⟩

theorem Ramp.process_silent (r : Ramp ℝ) {block : Block ℝ} (hblock : block.IsSilent) :
    Block.IsSilent (r.process block).2 := by
  have h := r.process_amplified 0 block
  rw [Block.isSilent_iff.mp hblock] at h
  exact Block.isSilent_iff.mpr (congrArg Prod.snd h).symm

/-- Without products there is no utility. -/
theorem Accumulators.utility_of_silent {size : FftSize} {acc : Accumulators ℝ size.bins}
    (hacc : acc.amplified 0 = acc) {tables : Tables ℝ size} {w : Weighting ℝ} {trial : Trial}
    {optimalBin : Nat} {u : Sample ℝ} (hu : acc.utility tables w trial optimalBin = .ok u) :
    u = 0 := by
  have hproduct : ∀ (i : Fin size.bins) (weight : ℝ),
      ((acc.products trial)[i]).scale weight = 0 := by
    intro i weight
    have h := acc.products_amplified 0 trial
    rw [hacc] at h
    rw [h, Fin.getElem_fin, Vector.getElem_map, Sample.scale_scale]
    ext <;> simp
  have hfold : ∀ (bins : List (Fin size.bins)) (sum : Sample ℝ),
      bins.foldlM (acc.addWeighted tables w trial optimalBin) sum = .ok u → u = sum := by
    intro bins
    induction bins with
    | nil => exact fun sum h => (Except.ok.inj h).symm
    | cons i rest ih =>
      intro sum h
      rw [List.foldlM_cons] at h
      obtain ⟨next, hnext, hrest⟩ := bind_eq_ok_iff.mp h
      have hsum : next = sum := by
        unfold addWeighted at hnext
        split at hnext
        · obtain ⟨weight, -, hnext⟩ := bind_eq_ok_iff.mp hnext
          rw [hproduct] at hnext
          cases hnext
          ext <;> simp
        · exact (Except.ok.inj hnext).symm
      exact (ih next hrest).trans hsum
  exact hfold _ 0 hu

namespace Balancer

/-- An engine that has met nothing but zeros: no offset is tracked and no sum is held. -/
structure Silent (b : Balancer ℝ) : Prop where
  offset : b.dc.amplified 0 = b.dc
  sums : b.sums.amplified 0 = b.sums

section OneCall

variable {b after : Balancer ℝ} {c : Call ℝ} {answer : Answer ℝ}

theorem Silent.create {memory : Allocator} {tables : (size : FftSize) → Tables ℝ size}
    {config : Config ℝ} (hcreate : create memory tables config = .ok b) : b.Silent := by
  obtain ⟨size, lookback, phaseAxis, amplitudeAxis, -, -, -, -, -, rfl⟩ :=
    create_eq_ok_iff.mp hcreate
  constructor
  · simp only [DcTracker.amplified, DcTracker.start, Sample.zero_scale]
  · exact Accumulators.empty_amplified _ 0

theorem Silent.passSums (h : b.Silent) {block : Block ℝ} (hblock : block.IsSilent) :
    (b.passSums block).amplified 0 = b.passSums block := by
  have hpass := b.passSums_amplified (g := 0) block
  rw [Block.isSilent_iff.mp hblock] at hpass
  have hsums : (b.amplified 0).passSums block =
      Balancer.passSums { b with sums := b.sums.amplified 0 } block := rfl
  rw [hsums, h.sums] at hpass
  exact hpass.symm

theorem Silent.endCycle (h : b.Silent) {outcome : Outcome ℝ}
    (hend : b.endCycle = .ok (after, outcome)) : after.Silent := by
  rcases endCycle_cases hend with ⟨-, rfl, -⟩ | ⟨-, hrefresh⟩
  · exact h
  · cases hrefresh with
    | utilityNotFinite => exact h
    | candidateNotFinite => exact h
    | published => exact ⟨h.offset, h.sums⟩

theorem Silent.emit {out : Block ℝ} {result : Balancer ℝ × Outcome ℝ} (h : result.1.Silent)
    (hout : out.IsSilent) :
    (emit out result).balancer.Silent ∧ (Balancer.emit out result).block.IsSilent :=
  ⟨⟨h.offset, h.sums⟩, result.1.ramp.process_silent hout⟩

/-- Zeros in, zeros out. -/
theorem Silent.call (h : b.Silent) (hc : c.IsSilent) (hcall : b.call c = .ok (after, answer)) :
    after.Silent ∧ answer.IsSilent := by
  cases answers_of_call hcall with
  | processed hprocesses =>
    obtain ⟨hdc, hout⟩ := DcTracker.process_silent h.offset hc
    cases hprocesses with
    | idle => exact Silent.emit ⟨hdc, h.sums⟩ hout
    | passed => exact Silent.emit ⟨hdc, h.passSums hout⟩ hout
    | ended _ _ hend => exact Silent.emit (Silent.endCycle ⟨hdc, h.passSums hout⟩ hend) hout
  | retuned => exact ⟨⟨h.offset, h.sums⟩, trivial⟩
  | configured _ => exact ⟨⟨h.offset, h.sums⟩, trivial⟩
  | rejected _ => exact ⟨h, trivial⟩

end OneCall

/-! ### Quiet runs -/

/-- A block that leads to a refresh: it completes a cycle, and windows were summed up. -/
structure Refreshing (b : Balancer ℝ) (block : Block ℝ) : Prop extends b.CompletesCycle where
  windows : (b.handed block).sums.windows ≠ 0

/-- On the way of calls no refresh finds a utility at the target. -/
def QuietRefreshes : Balancer ℝ → List (Call ℝ) → Prop :=
  AtBlocks fun b block => b.Refreshing block →
    ∀ u, (b.handed block).utility .baseline = .ok u → u = 0

variable {memory : Allocator} {tables : (size : FftSize) → Tables ℝ size} {config : Config ℝ}
  {b₀ b : Balancer ℝ}
  {calls : List (Call ℝ)} {answers : List (Answer ℝ)}

theorem Silent.run (h : b₀.Silent) (hcalls : ∀ c ∈ calls, c.IsSilent)
    (hrun : b₀.run calls = .ok (b, answers)) :
    b.Silent ∧ ∀ answer ∈ answers, answer.IsSilent := by
  induction calls generalizing b₀ answers with
  | nil =>
    cases hrun
    exact ⟨h, fun answer hmem => nomatch hmem⟩
  | cons c rest ih =>
    obtain ⟨next, answer, later, hcall, hrest, rfl⟩ := run_cons_eq_ok_iff.mp hrun
    obtain ⟨hc, hlater⟩ := List.forall_mem_cons.mp hcalls
    obtain ⟨hnext, hanswer⟩ := h.call hc hcall
    obtain ⟨hb, hanswers⟩ := ih hnext hlater hrest
    exact ⟨hb, List.forall_mem_cons.mpr ⟨hanswer, hanswers⟩⟩

/-- Silence is quiet. -/
theorem Silent.quietRefreshes (h : b₀.Silent) (hcalls : ∀ c ∈ calls, c.IsSilent) :
    QuietRefreshes b₀ calls := by
  rintro before block rest b answers rfl hrun - u hu
  rw [List.forall_mem_append, List.forall_mem_cons] at hcalls
  obtain ⟨hbefore, hblock, -⟩ := hcalls
  obtain ⟨hb, -⟩ := h.run hbefore hrun
  obtain ⟨hdc, hout⟩ := DcTracker.process_silent hb.offset hblock
  exact Accumulators.utility_of_silent (hb.passSums hout) hu

/-- A quiet run takes no stride. -/
theorem QuietRefreshes.stridesWithin (hcreate : create memory tables config = .ok b₀)
    (h : QuietRefreshes b₀ calls) : StridesWithin ⟨0, 0⟩ b₀ calls := by
  intro before block rest b answers hsplit hrun u v phase amplitude hpublishes
  have hmu := (accepted_of_create hcreate).maxMu.1.le
  obtain rfl : u = 0 :=
    h before block rest b answers hsplit hrun
      ⟨⟨hpublishes.due, hpublishes.ends⟩, hpublishes.windows⟩ u hpublishes.baseline
  have hphaseFrom := hpublishes.phaseFrom
  have hamplitudeFrom := hpublishes.amplitudeFrom
  rw [newton_of_run hcreate hrun] at hphaseFrom hamplitudeFrom
  have hphase := Axis.candidate_of_zero hmu hphaseFrom
  have hamplitude := Axis.candidate_of_zero hmu hamplitudeFrom
  constructor
  · simp [hphase]
  · simp [hamplitude]

/-- After a quiet run the correction is where it started, the one to reach and the one that was
applied last. -/
theorem ramp_of_quiet (hcreate : create memory tables config = .ok b₀) (h : QuietRefreshes b₀ calls)
    (hrun : b₀.run calls = .ok (b, answers)) : b.ramp = .atRest config.initial := by
  have hstrays := strays_of_run le_rfl le_rfl hcreate (h.stridesWithin hcreate) hrun
  have htarget : b.ramp.target = config.initial := hstrays.target.eq_of_zero
  have hstart : b₀.ramp.applied = b₀.ramp.target := by
    rw [ramp_of_create hcreate]
    rfl
  have happlied := (applied_eq_target_of_run hstart hrun).trans htarget
  calc b.ramp = ⟨b.ramp.target, b.ramp.applied⟩ := rfl
    _ = .atRest config.initial := by rw [htarget, happlied]; rfl

/-- The control loop at its fixed point. The secant always has a divisor; a run in which no refresh
finds a utility at the target leaves the correction where it started, after every call; and a run
on zeros is such a run, and gives back zeros. -/
theorem fixed_point_of_create (hcreate : create memory tables config = .ok b₀)
    (calls : List (Call ℝ)) :
    (∀ difference, config.newton.denominator difference ≠ 0) ∧
    (QuietRefreshes b₀ calls → ∀ before rest b answers, calls = before ++ rest →
      b₀.run before = .ok (b, answers) → b.ramp = .atRest config.initial) ∧
    ((∀ c ∈ calls, c.IsSilent) → QuietRefreshes b₀ calls ∧
      ∀ b answers, b₀.run calls = .ok (b, answers) → ∀ answer ∈ answers, answer.IsSilent) := by
  refine ⟨?_, ?_, fun hcalls => ?_⟩
  · exact NewtonRule.denominator_ne_zero (accepted_of_create hcreate).epsilons.2
  · rintro h before rest b answers rfl hrun
    exact ramp_of_quiet hcreate (AtBlocks.of_append h) hrun
  · have hsilent := Silent.create hcreate
    exact ⟨hsilent.quietRefreshes hcalls, fun b answers hrun => (hsilent.run hcalls hrun).2⟩

/-- Zeros from a start away from zero: a window of them after a retuning, which publishes, then less
than a window, another cadence, another retuning, and a window again. -/
theorem fixed_point_of_zeros :
    let tables := fun size : FftSize =>
      Tables.exact (Vector.replicate size.bins 1) (Vector.replicate size.bins 1)
    let config := { Config.ones ⟨1, 1, 1⟩ with dcTimeConst := 1 / 2, initial := ⟨1 / 2, 1 / 4⟩ }
    let window : Call ℝ := .process (Array.replicate 64 0)
    let calls : List (Call ℝ) :=
      [.setOptimalPoint 0, window, window, .process #[0, 0, 0], .configure ⟨2, 1, 1⟩,
        .setOptimalPoint 0, window, window]
    ∃ b₀ b answers, create .ample tables config = .ok b₀ ∧ b₀.run calls = .ok (b, answers) ∧
      Answer.estimates answers ≠ [] ∧ QuietRefreshes b₀ calls ∧
      b.ramp = .atRest ⟨1 / 2, 1 / 4⟩ ∧ ∀ answer ∈ answers, answer.IsSilent := by
  intro tables config window calls
  have hvalid : Cadence.isValid ⟨1, 1, 1⟩ := by decide
  have hfits : Cadence.Fits ⟨1, 1, 1⟩ := by constructor <;> decide
  have hslower : Cadence.Fits ⟨2, 1, 1⟩ := by constructor <;> decide
  have hrate : (0 : ℝ) < 1 / 2 ∧ (1 / 2 : ℝ) ≤ 1 := by norm_num
  obtain ⟨b₀, hcreate, hruns⟩ := exists_run_ones tables hvalid hfits hrate ⟨1 / 2, 1 / 4⟩
  obtain ⟨b, answers, hrun⟩ := hruns calls (by simp [calls, window, Call.Fits, hslower])
    (by simp [calls, window, Call.totalSamples, Call.samples])
  have hcreate : create .ample tables config = .ok b₀ := hcreate
  obtain ⟨-, hquiet, hsilence⟩ := fixed_point_of_create hcreate calls
  have hcalls : ∀ c ∈ calls, c.IsSilent := by
    simp [calls, window, Call.IsSilent, Block.IsSilent]
  obtain ⟨hcallsQuiet, hanswers⟩ := hsilence hcalls
  refine ⟨b₀, b, answers, hcreate, hrun, ?_, hcallsQuiet,
    hquiet hcallsQuiet calls [] b answers (List.append_nil _).symm hrun, hanswers b answers hrun⟩
  obtain ⟨next, _, _, hretune, hrest, rfl⟩ := run_cons_eq_ok_iff.mp hrun
  obtain ⟨rfl, rfl⟩ := Prod.mk.inj (Except.ok.inj hretune)
  obtain ⟨last, answer, later, hcall, -, rfl⟩ := run_cons_eq_ok_iff.mp hrest
  obtain ⟨estimate, hestimate⟩ := exists_estimate_of_ones hcreate Array.size_replicate hcall
  refine List.ne_nil_of_mem (List.mem_filterMap.mpr ⟨answer, ?_, hestimate⟩)
  exact List.mem_cons_of_mem _ List.mem_cons_self

end Balancer

end IqBalance
