import Mathlib
import IqBalance.Proofs.Balancer.ExactRun

/-!
Integration cycles along a run, in whatever arithmetic.

A `History` is what the calls alone say: the cadence in force, the offset
tracker, and the blocks that met a pass since that cadence came into force,
every `buffersToSkip`-th one, offset removed. The engine keeps less, two counts
that go round and accumulators that are cleared late. `Tracks` ties the two
together: the counts are the remainders of the lengths, and inside a cycle the
accumulators are those of its passes so far, all at the target and steps of
now. Every call keeps it (`Tracks.call`), so every run does (`Tracks.run`), and
`cycle_of_run` says what the end of a cycle is handed.
-/

namespace IqBalance

variable {α : Type} [Scalar α]

/-! ### Histories -/

theorem succ_mod_of_lt {n m : Nat} (h : n % m + 1 < m) : (n + 1) % m = n % m + 1 := by
  rw [← Nat.mod_add_mod, Nat.mod_eq_of_lt h]

theorem succ_mod_eq_zero_iff {n m : Nat} (hm : 0 < m) : (n + 1) % m = 0 ↔ n % m + 1 = m := by
  have hlt := Nat.mod_lt n hm
  constructor
  · intro h
    rcases Nat.lt_or_ge (n % m + 1) m with hopen | hfull
    · rw [succ_mod_of_lt hopen] at h
      cases h
    · omega
  · intro h
    rw [← Nat.mod_add_mod, h, Nat.mod_self]

/-- What the calls so far say about the passes. -/
structure History (α : Type) where
  cadence : Cadence
  dc : DcTracker α
  /-- Blocks since the cadence came into force. -/
  seen : Nat
  /-- Those of them that met a pass, offset removed. -/
  passes : List (Block α)

namespace History

/-- No call yet. -/
def start (config : Config α) : History α := ⟨config.cadence, .start config.dcTimeConst, 0, []⟩

/-- One more block. Every one loses its offset; every `buffersToSkip`-th meets a pass. -/
def process (h : History α) (block : Block α) : History α where
  cadence := h.cadence
  dc := (h.dc.process block).1
  seen := h.seen + 1
  passes :=
    if (h.seen + 1) % h.cadence.buffersToSkip = 0 then h.passes ++ [(h.dc.process block).2]
    else h.passes

/-- One more call. A cadence that is not accepted changes nothing. -/
def call (h : History α) : Call α → History α
  | .process block => h.process block
  | .setOptimalPoint _ => h
  | .configure cadence => if cadence.isValid then ⟨cadence, h.dc, 0, []⟩ else h

/-- The history of a list of calls. -/
def ofCalls (config : Config α) (calls : List (Call α)) : History α :=
  calls.foldl call (start config)

/-- The blocks of the last `count` passes. -/
def lastPasses (h : History α) (count : Nat) : List (Block α) :=
  h.passes.drop (h.passes.length - count)

/-- The blocks of a cycle that has just ended. -/
def cycle (h : History α) : List (Block α) := h.lastPasses h.cadence.correlationIntegration

/-- The blocks of the cycle that goes on. -/
def openCycle (h : History α) : List (Block α) :=
  h.lastPasses (h.passes.length % h.cadence.correlationIntegration)

/-- The last block met a pass, and that pass ended a cycle. -/
def EndsCycle (h : History α) : Prop :=
  h.seen % h.cadence.buffersToSkip = 0 ∧ h.passes.length % h.cadence.correlationIntegration = 0

variable {h : History α} {block : Block α}

theorem passes_process_of_idle (hidle : (h.seen + 1) % h.cadence.buffersToSkip ≠ 0) :
    (h.process block).passes = h.passes := if_neg hidle

omit [Scalar α] in
theorem length_openCycle :
    h.openCycle.length = h.passes.length % h.cadence.correlationIntegration := by
  have hle := Nat.mod_le h.passes.length h.cadence.correlationIntegration
  rw [openCycle, lastPasses, List.length_drop]
  omega

section Due

variable (hdue : (h.seen + 1) % h.cadence.buffersToSkip = 0)

include hdue

theorem passes_process_of_due :
    (h.process block).passes = h.passes ++ [(h.dc.process block).2] := if_pos hdue

theorem length_passes_process_of_due : (h.process block).passes.length = h.passes.length + 1 := by
  rw [passes_process_of_due hdue, List.length_append, List.length_singleton]

/-- One more pass is one more of the last ones. -/
theorem lastPasses_process_of_due {count : Nat} (hcount : count ≤ h.passes.length) :
    (h.process block).lastPasses (count + 1) =
      h.lastPasses count ++ [(h.dc.process block).2] := by
  have hshift : h.passes.length + 1 - (count + 1) = h.passes.length - count := by omega
  rw [lastPasses, lastPasses, length_passes_process_of_due hdue, hshift,
    passes_process_of_due hdue, List.drop_append_of_le_length (Nat.sub_le _ _)]

theorem openCycle_process_of_due
    (hopen : h.passes.length % h.cadence.correlationIntegration + 1 <
      h.cadence.correlationIntegration) :
    (h.process block).openCycle = h.openCycle ++ [(h.dc.process block).2] := by
  have hlength : (h.process block).passes.length %
      (h.process block).cadence.correlationIntegration =
        h.passes.length % h.cadence.correlationIntegration + 1 := by
    rw [length_passes_process_of_due hdue]
    exact succ_mod_of_lt hopen
  rw [openCycle, hlength, lastPasses_process_of_due hdue (Nat.mod_le _ _), openCycle]

theorem cycle_process_of_due
    (hends : h.passes.length % h.cadence.correlationIntegration + 1 =
      h.cadence.correlationIntegration) :
    (h.process block).cycle = h.openCycle ++ [(h.dc.process block).2] := by
  have hcount : (h.process block).cadence.correlationIntegration =
      h.passes.length % h.cadence.correlationIntegration + 1 := hends.symm
  rw [cycle, hcount, lastPasses_process_of_due hdue (Nat.mod_le _ _), openCycle]

end Due

end History

/-! ### The engine beside the history -/

namespace Balancer

/-- The sums of passes over blocks, from empty ones, all at the target and steps of `b`. -/
def sumsOver (b : Balancer α) (blocks : List (Block α)) : Accumulators α b.size.bins :=
  blocks.foldl (·.addTrials b.tables b.config.cadence.fftIntegration b.ramp.target
    b.perturbedPoint ·) (.empty b.size.bins)

/-- Passes take the windows of their blocks, and no others. -/
theorem windows_sumsOver (b : Balancer α) (blocks : List (Block α)) :
    (b.sumsOver blocks).windows =
      (blocks.map (windowCount b.size.bins ·.size b.config.cadence.fftIntegration)).sum := by
  induction blocks using List.reverseRecOn with
  | nil => rfl
  | append_singleton blocks block ih =>
    rw [sumsOver, List.foldl_append, ← sumsOver, List.map_append, List.sum_append, ← ih,
      List.foldl_cons, List.foldl_nil, Accumulators.addTrials,
      Accumulators.windows_accumulate_perturbed, Accumulators.windows_accumulate_baseline,
      List.map_singleton, List.sum_singleton]

/-- The engine keeps of the history what it needs. -/
structure Tracks (b : Balancer α) (h : History α) : Prop where
  cadence : b.config.cadence = h.cadence
  valid : h.cadence.isValid
  dc : b.dc = h.dc
  skipped : b.skipped = h.seen % h.cadence.buffersToSkip
  integrated : b.integrated = h.passes.length % h.cadence.correlationIntegration
  /-- At the end of a cycle the accumulators may hold anything. -/
  sums : b.integrated ≠ 0 → b.sums = b.sumsOver h.openCycle

namespace Tracks

theorem create {memory : Allocator} {tables : (size : FftSize) → Tables α size}
    {config : Config α} {b : Balancer α}
    (h : Balancer.create memory tables config = .ok b) : b.Tracks (History.start config) := by
  obtain ⟨size, lookback, phaseAxis, amplitudeAxis, hvalid, -, -, -, -, rfl⟩ :=
    create_eq_ok_iff.mp h
  exact {
    cadence := rfl
    valid := (Config.validate_eq_ok_iff.mp hvalid).cadence
    dc := rfl
    skipped := (Nat.zero_mod _).symm
    integrated := (Nat.zero_mod _).symm
    sums := fun hcycle => absurd rfl hcycle }

variable {b : Balancer α} {h : History α}

theorem buffersToSkip_pos (ht : b.Tracks h) : 0 < h.cadence.buffersToSkip := by
  have hvalid := ht.valid
  simp only [Cadence.isValid, Bool.and_eq_true, bne_iff_ne] at hvalid
  exact Nat.pos_of_ne_zero hvalid.1.1

theorem correlationIntegration_pos (ht : b.Tracks h) : 0 < h.cadence.correlationIntegration := by
  have hvalid := ht.valid
  simp only [Cadence.isValid, Bool.and_eq_true, bne_iff_ne] at hvalid
  exact Nat.pos_of_ne_zero hvalid.2

theorem skipped_succ_le (ht : b.Tracks h) : b.skipped + 1 ≤ h.cadence.buffersToSkip := by
  rw [ht.skipped]
  exact Nat.mod_lt _ ht.buffersToSkip_pos

theorem integrated_succ_le (ht : b.Tracks h) :
    b.integrated + 1 ≤ h.cadence.correlationIntegration := by
  rw [ht.integrated]
  exact Nat.mod_lt _ ht.correlationIntegration_pos

/-- A pass is due on every `buffersToSkip`-th block. -/
theorem due_iff (ht : b.Tracks h) :
    b.config.cadence.buffersToSkip ≤ b.skipped + 1 ↔
      (h.seen + 1) % h.cadence.buffersToSkip = 0 := by
  rw [succ_mod_eq_zero_iff ht.buffersToSkip_pos, ← ht.skipped, ht.cadence]
  exact ⟨Nat.le_antisymm ht.skipped_succ_le, fun h => Nat.le_of_eq h.symm⟩

/-- Every `correlationIntegration`-th pass ends its cycle. -/
theorem ends_iff (ht : b.Tracks h) :
    b.config.cadence.correlationIntegration ≤ b.integrated + 1 ↔
      (h.passes.length + 1) % h.cadence.correlationIntegration = 0 := by
  rw [succ_mod_eq_zero_iff ht.correlationIntegration_pos, ← ht.integrated, ht.cadence]
  exact ⟨Nat.le_antisymm ht.integrated_succ_le, fun h => Nat.le_of_eq h.symm⟩

theorem endsCycle_process_iff (ht : b.Tracks h) {block : Block α} :
    (h.process block).EndsCycle ↔
      b.config.cadence.buffersToSkip ≤ b.skipped + 1 ∧
        b.config.cadence.correlationIntegration ≤ b.integrated + 1 := by
  rw [ht.due_iff, ht.ends_iff]
  refine and_congr_right fun hdue => ?_
  rw [History.length_passes_process_of_due hdue]
  exact Iff.rfl

/-- A pass brings its block to those of its cycle, whatever the accumulators held before. -/
theorem passSums (ht : b.Tracks h) (out : Block α) :
    b.passSums out = b.sumsOver (h.openCycle ++ [out]) := by
  rw [sumsOver, List.foldl_append]
  by_cases hfirst : b.integrated = 0
  · -- The sums may be stale here, but a first pass begins with empty ones.
    have hnone : h.openCycle = [] := by
      rw [History.openCycle, ← ht.integrated, hfirst, History.lastPasses, Nat.sub_zero,
        List.drop_length]
    rw [Balancer.passSums, if_pos hfirst, hnone]
    rfl
  · rw [Balancer.passSums, if_neg hfirst, ht.sums hfirst]
    rfl

/-- A block that is passed over, or whose pass goes on with the cycle or ends it. -/
theorem process {done : Processed α} {block : Block α} (ht : b.Tracks h)
    (hp : b.process block = .ok done) : done.balancer.Tracks (h.process block) := by
  have hcases := processes_of_process hp
  rw [ht.dc] at hcases
  cases hcases with
  | idle hidle =>
    have hseen : (h.seen + 1) % h.cadence.buffersToSkip ≠ 0 := by
      rw [Ne, ← ht.due_iff]
      exact Nat.not_le.mpr hidle
    have hpasses : (h.process block).passes = h.passes := History.passes_process_of_idle hseen
    rw [ht.cadence, ht.skipped] at hidle
    exact {
      cadence := ht.cadence
      valid := ht.valid
      dc := rfl
      skipped := (congrArg (· + 1) ht.skipped).trans (succ_mod_of_lt hidle).symm
      integrated := by
        rw [hpasses]
        exact ht.integrated
      sums := by
        rw [History.openCycle, History.lastPasses, hpasses]
        exact ht.sums }
  | passed hdue hopen =>
    have hseen := ht.due_iff.mp hdue
    rw [ht.cadence, ht.integrated] at hopen
    exact {
      cadence := ht.cadence
      valid := ht.valid
      dc := rfl
      skipped := hseen.symm
      integrated := by
        rw [History.length_passes_process_of_due hseen]
        exact (congrArg (· + 1) ht.integrated).trans (succ_mod_of_lt hopen).symm
      sums := by
        intro _
        rw [History.openCycle_process_of_due hseen hopen]
        exact ht.passSums _ }
  | ended hdue hends hafter =>
    have hseen := ht.due_iff.mp hdue
    obtain ⟨hconfig, hdc, hskipped, hintegrated⟩ := endCycle_frame hafter
    exact {
      cadence := (congrArg Config.cadence hconfig).trans ht.cadence
      valid := ht.valid
      dc := hdc
      skipped := hskipped.trans hseen.symm
      integrated := by
        rw [History.length_passes_process_of_due hseen]
        exact hintegrated.trans (ht.ends_iff.mp hends).symm
      sums := fun hcycle => absurd hintegrated hcycle }

theorem call {after : Balancer α} {c : Call α} {answer : Answer α} (ht : b.Tracks h)
    (hcall : b.call c = .ok (after, answer)) : after.Tracks (h.call c) := by
  cases c with
  | process block =>
    obtain ⟨done, hp, hdone⟩ := bind_eq_ok_iff.mp hcall
    cases hdone
    exact ht.process hp
  | setOptimalPoint w =>
    cases hcall
    exact ⟨ht.cadence, ht.valid, ht.dc, ht.skipped, ht.integrated, ht.sums⟩
  | configure cadence =>
    rcases b.configure_cases cadence with ⟨hvalid, hok⟩ | ⟨hinvalid, herror⟩
    · rw [Balancer.call, hok] at hcall
      cases hcall
      rw [History.call, if_pos hvalid]
      exact {
        cadence := rfl
        valid := hvalid
        dc := ht.dc
        skipped := (Nat.zero_mod _).symm
        integrated := (Nat.zero_mod _).symm
        sums := fun hcycle => absurd rfl hcycle }
    · rw [Balancer.call, herror] at hcall
      cases hcall
      rw [History.call, if_neg hinvalid]
      exact ht

theorem run {calls : List (Call α)} {after : Balancer α} {answers : List (Answer α)}
    (ht : b.Tracks h) (hrun : b.run calls = .ok (after, answers)) :
    after.Tracks (calls.foldl History.call h) := by
  induction calls generalizing b h answers with
  | nil =>
    cases hrun
    exact ht
  | cons c rest ih =>
    obtain ⟨⟨next, answer⟩, hcall, hrun⟩ := bind_eq_ok_iff.mp hrun
    obtain ⟨⟨last, answers⟩, hrest, hlast⟩ := bind_eq_ok_iff.mp hrun
    cases hlast
    exact ih (ht.call hcall) hrest

/-- The outcome tells when a cycle ends. -/
theorem isCycleEnd_iff {done : Processed α} {block : Block α} (ht : b.Tracks h)
    (hp : b.process block = .ok done) :
    done.outcome.isCycleEnd ↔ (h.process block).EndsCycle := by
  rw [ht.endsCycle_process_iff, isCycleEnd_iff_of_processes (processes_of_process hp)]
  exact ⟨fun h => ⟨h.due, h.ends⟩, fun h => ⟨h.1, h.2⟩⟩

/-- The sums after a pass that ends its cycle are those of the cycle. -/
theorem passSums_of_ends {block : Block α} (ht : b.Tracks h)
    (hend : (h.process block).EndsCycle) :
    b.passSums (b.dc.process block).2 = b.sumsOver (h.process block).cycle := by
  obtain ⟨hdue, hends⟩ := hend
  rw [History.length_passes_process_of_due hdue] at hends
  have hfull := (succ_mod_eq_zero_iff ht.correlationIntegration_pos).mp hends
  rw [History.cycle_process_of_due hdue hfull, ← ht.passSums, ht.dc]

end Tracks

end Balancer

/-! ### Runs -/

namespace Balancer

/-- What the end of a cycle is handed, after any run: the engine as it was before the block, with
the accumulators of the passes of this cycle alone, all of them at the target and steps of now.
The cycle ends when the calls say so, and then the rest of the block's way is a function of what is
handed. -/
theorem cycle_of_run {memory : Allocator} {tables : (size : FftSize) → Tables α size}
    {config : Config α} {b₀ b : Balancer α} {calls : List (Call α)} {answers : List (Answer α)}
    (hcreate : create memory tables config = .ok b₀) (hrun : b₀.run calls = .ok (b, answers))
    (block : Block α) :
    let h := History.ofCalls config (calls ++ [.process block])
    let out := ((History.ofCalls config calls).dc.process block).2
    let handed : Balancer α :=
      { b with dc := h.dc, skipped := 0, integrated := 0, sums := b.sumsOver h.cycle }
    (∀ done, b.process block = .ok done → (done.outcome.isCycleEnd ↔ h.EndsCycle)) ∧
    (h.EndsCycle →
      b.config.cadence = h.cadence ∧ h.cycle.length = h.cadence.correlationIntegration ∧
      b.passSums out = b.sumsOver h.cycle ∧
      (∀ done, b.process block = .ok done → handed.endCycle.map (emit out) = .ok done) ∧
      (h.cadence.buffersToSkip < countLimit → h.cadence.correlationIntegration < countLimit →
        handed.sums.windows < countLimit →
        b.process block = handed.endCycle.map (emit out))) := by
  intro h out handed
  have ht : b.Tracks (History.ofCalls config calls) := (Tracks.create hcreate).run hrun
  have hh : h = (History.ofCalls config calls).process block := by
    simp only [h, History.ofCalls, List.foldl_append]
    rfl
  rw [hh]
  refine ⟨fun done hp => ht.isCycleEnd_iff hp, fun hend => ?_⟩
  obtain ⟨hdue, hends⟩ := ht.endsCycle_process_iff.mp hend
  have hsums := ht.passSums_of_ends hend
  have hhanded : { b.afterPass (b.dc.process block).1 (b.dc.process block).2 with
      integrated := 0 } = handed := by
    simp only [afterPass, hsums, handed, hh]
    rw [ht.dc]
    rfl
  refine ⟨ht.cadence, ?_, ?_, ?_, ?_⟩
  · have hseen := ht.due_iff.mp hdue
    have hfull := (succ_mod_eq_zero_iff ht.correlationIntegration_pos).mp (ht.ends_iff.mp hends)
    rw [History.cycle_process_of_due hseen hfull, List.length_append, History.length_openCycle]
    exact hfull
  · rw [← hsums, ht.dc]
  · intro done hp
    rw [← hhanded]
    cases processes_of_process hp with
    | idle hidle => exact absurd hidle (Nat.not_lt.mpr hdue)
    | passed _ hopen => exact absurd hopen (Nat.not_lt.mpr hends)
    | ended _ _ hafter =>
      rw [hafter, ht.dc]
      rfl
  · intro hS hC hwindows
    rw [process_of_ends hdue (Nat.lt_of_le_of_lt ht.skipped_succ_le hS) hends
      (Nat.lt_of_le_of_lt ht.integrated_succ_le hC) ?_, hhanded, ht.dc]
    rw [hsums, ← hh]
    exact hwindows

/-- Three blocks, two passes to a cycle. The first begins a cycle that a new cadence cuts short, and
leaves its window in the accumulators; the others make up the next cycle, after a retuning. The end
of that cycle is handed the two windows of its own blocks. -/
theorem cycle_after_configure :
    let tables := fun size : FftSize =>
      Tables.exact (Vector.replicate size.bins 1) (Vector.replicate size.bins 1)
    let config :=
      { Config.ones ⟨1, 8, 2⟩ with dcTimeConst := 1 / 2, initial := ⟨1 / 2, 1 / 4⟩ }
    let cut : List (Call ℝ) := [.process (Array.replicate 64 ⟨3, 4⟩)]
    let reset : List (Call ℝ) := cut ++ [.configure ⟨1, 8, 2⟩, .setOptimalPoint 0]
    let first : Block ℝ := Array.replicate 64 ⟨1, 2⟩
    let second : Block ℝ := Array.replicate 64 ⟨5, 6⟩
    let before := History.ofCalls config reset
    let between := before.process first
    let out₁ := (before.dc.process first).2
    let out₂ := (between.dc.process second).2
    ∃ b₀ b₁ b answers₁ answers, create .ample tables config = .ok b₀ ∧
      b₀.run cut = .ok (b₁, answers₁) ∧ b₁.sums.windows = 1 ∧
      b₀.run (reset ++ [.process first]) = .ok (b, answers) ∧
      b.passSums out₂ = b.sumsOver [out₁, out₂] ∧ (b.passSums out₂).windows = 2 := by
  intro tables config cut reset first second before between out₁ out₂
  have hvalid : Cadence.isValid ⟨1, 8, 2⟩ := by decide
  have hfits : Cadence.Fits ⟨1, 8, 2⟩ := by constructor <;> decide
  have hrate : (0 : ℝ) < 1 / 2 ∧ (1 / 2 : ℝ) ≤ 1 := by norm_num
  obtain ⟨b₀, hcreate, hruns⟩ := exists_run_ones tables hvalid hfits hrate ⟨1 / 2, 1 / 4⟩
  have hcreate : create .ample tables config = .ok b₀ := hcreate
  have hbins : b₀.size.bins = 64 := (accepted_of_create hcreate).fftBins
  obtain ⟨b₁, answers₁, hcut⟩ := hruns cut (by simp [cut, Call.Fits]) (by
    simp [cut, Call.totalSamples, Call.samples])
  obtain ⟨b, answers, hrun⟩ := hruns (reset ++ [.process first])
    (by simp [reset, cut, Call.Fits, hfits])
    (by simp [reset, cut, first, Call.totalSamples, Call.samples])
  have ht₁ : b₁.Tracks (History.ofCalls config cut) := (Tracks.create hcreate).run hcut
  have hdue : ((History.start config).seen + 1) %
      (History.start config).cadence.buffersToSkip = 0 := Nat.mod_one _
  have hopen : (History.ofCalls config cut).openCycle =
      [((History.start config).dc.process (Array.replicate 64 ⟨3, 4⟩)).2] :=
    History.openCycle_process_of_due hdue (by decide)
  have hintegrated : b₁.integrated = 1 := by
    rw [ht₁.integrated, ← History.length_openCycle, hopen]
    rfl
  have hwindows₁ : b₁.sums.windows = 1 := by
    rw [ht₁.sums (by rw [hintegrated]; decide), hopen, windows_sumsOver, size_of_run hcut, hbins,
      ht₁.cadence, List.map_singleton, List.sum_singleton, DcTracker.size_process,
      Array.size_replicate]
    rfl
  have hdue₁ : (before.seen + 1) % before.cadence.buffersToSkip = 0 := Nat.mod_one _
  have hdue₂ : (between.seen + 1) % between.cadence.buffersToSkip = 0 := Nat.mod_one _
  have hopen : between.openCycle = [out₁] := History.openCycle_process_of_due hdue₁ (by decide)
  have hcycle : (between.process second).cycle = [out₁, out₂] :=
    (History.cycle_process_of_due hdue₂ (by decide)).trans (congrArg (· ++ [out₂]) hopen)
  have hend : (between.process second).EndsCycle := ⟨hdue₂, by decide⟩
  obtain ⟨hcadence, -, hsums, -⟩ := (cycle_of_run hcreate hrun second).2 hend
  have hsums : b.passSums out₂ = b.sumsOver [out₁, out₂] := hcycle ▸ hsums
  refine ⟨b₀, b₁, b, answers₁, answers, hcreate, hcut, hwindows₁, hrun, hsums, ?_⟩
  have hcadence : b.config.cadence = ⟨1, 8, 2⟩ := hcadence
  have hsize₁ : out₁.size = 64 := (DcTracker.size_process _ _).trans Array.size_replicate
  have hsize₂ : out₂.size = 64 := (DcTracker.size_process _ _).trans Array.size_replicate
  rw [hsums, windows_sumsOver, size_of_run hrun, hbins, hcadence, List.map_cons, List.map_singleton,
    hsize₁, hsize₂]
  rfl

end Balancer

end IqBalance
