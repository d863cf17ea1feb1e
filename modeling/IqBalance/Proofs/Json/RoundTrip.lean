import IqBalance.Config.Json
import IqBalance.Correction.Json
import IqBalance.Proofs.AcceptedConfig
import IqBalance.Proofs.Json.Numbers

/-!
Tunings, ramps and trackers read back from what is written for them.

`Matches` says that the members a record is written with are the members it is
read with, and that reading them all puts every field in its place, whatever
the record began with: so no field is left to a standard value. It holds of
step bounds, of tunings, whose members step bounds are, of ramps and of
trackers, and `Matches.roundTrips` is what follows from it.
-/

namespace IqBalance

open Json

namespace Json

/-- The counts in a value have 64 bits, and its finite numbers read back one by one. -/
def Value.IsWritable (v : Value) : Prop :=
  (∀ n ∈ v.counts, n < countLimit) ∧ ∀ x ∈ v.reals, x.isFinite → ReadsBack x

namespace Entry

variable {ρ : Type}

/-- A member that is a count. -/
def count (name : String) (put : ρ → Nat → ρ) (n : Nat) : Entry ρ :=
  .of name readCount put (.count n) n

/-- A member that is a single-precision number. -/
def real (name : String) (put : ρ → Float32 → ρ) (x : Float32) : Entry ρ :=
  .of name readFloat32 put (.real x) x

/-- The member does what the entry says if the value can be written. -/
def Faithful (e : Entry ρ) : Prop := e.value.IsWritable → e.Sound

theorem faithful_count (name : String) (put : ρ → Nat → ρ) (n : Nat) :
    (count name put n).Faithful := by
  intro h
  have hn : n < countLimit := h.1 n (by simp [count, Entry.of, Value.counts, Value.collect])
  exact sound_of (.count hn) name put

theorem faithful_real (name : String) (put : ρ → Float32 → ρ) (x : Float32) :
    (real name put x).Faithful := by
  intro h
  have hx : x.isFinite → ReadsBack x :=
    h.2 x (by simp [real, Entry.of, Value.reals, Value.collect])
  exact sound_of (.real hx) name put

end Entry

theorem Value.isWritable_record_iff {members : List (String × Value)} :
    (Value.record members).IsWritable ↔ ∀ m ∈ members, m.2.IsWritable := by
  unfold IsWritable
  rw [counts, reals, forall_collect_record_iff, forall_collect_record_iff]
  constructor
  · exact fun h m hm => ⟨h.1 m hm, h.2 m hm⟩
  · exact fun h => ⟨fun m hm => (h m hm).1, fun m hm => (h m hm).2⟩

/-- What is written for a record, next to how it is read. -/
structure Matches {ρ : Type} (shape : Shape ρ) (v : Value) (entries : List (Entry ρ)) (record : ρ) :
    Prop where
  ne_nil : entries ≠ []
  members : entries.map (·.member) = shape.members
  written : v = .record (entries.map Entry.written)
  unique : (shape.members.map (·.name)).Nodup
  plain : ∀ m ∈ shape.members, (bytes m.name).all isPlain
  faithful : ∀ e ∈ entries, e.Faithful
  put : Entry.putAll entries shape.start = record

theorem Matches.reads {ρ : Type} {shape : Shape ρ} {v : Value} {entries : List (Entry ρ)}
    {record : ρ} (h : Matches shape v entries record) (hwritable : v.IsWritable) :
    Reads shape.read v record := by
  have hvalues : ∀ e ∈ entries, e.value.IsWritable := by
    rw [h.written, Value.isWritable_record_iff, List.forall_mem_map] at hwritable
    exact hwritable
  rw [h.written, ← h.put]
  exact .record h.unique h.plain h.ne_nil h.members fun e he => h.faithful e he (hvalues e he)

end Json

/-! ### Step bounds -/

namespace StepBounds

/-- The numbers of step bounds. -/
def reals (b : StepBounds Float32) : List Float32 := [b.initial, b.min, b.max]

/-- The members of step bounds. -/
def entries (b : StepBounds Float32) : List (Entry (StepBounds Float32)) :=
  [ .real "initial" (fun b initial => { b with initial }) b.initial,
    .real "min" (fun b min => { b with min }) b.min,
    .real "max" (fun b max => { b with max }) b.max ]

theorem matches_entries (b : StepBounds Float32) : Matches shape b.toJson b.entries b where
  ne_nil := nofun
  members := rfl
  written := rfl
  unique := by decide
  plain := by decide +kernel
  faithful := by simp [entries, Entry.faithful_real]
  put := rfl

/-- Step bounds as a member of a record. -/
def entry {ρ : Type} (name : String) (put : ρ → StepBounds Float32 → ρ)
    (b : StepBounds Float32) : Entry ρ :=
  .of name shape.read put b.toJson b

theorem faithful_entry {ρ : Type} (name : String) (put : ρ → StepBounds Float32 → ρ)
    (b : StepBounds Float32) : (entry name put b).Faithful :=
  fun h => Entry.sound_of (b.matches_entries.reads h) name put

end StepBounds

/-! ### Tunings -/

namespace Config

/-- The counts of a tuning. -/
def counts (c : Config Float32) : List Nat :=
  [ c.fftBins, c.cadence.fftIntegration, c.cadence.correlationIntegration,
    c.cadence.buffersToSkip, c.lookback.capacity, c.lookback.warmupCycles, c.lookback.minLookback,
    c.centerBinsToSkip ]

/-- The numbers of a tuning. -/
def reals (c : Config Float32) : List Float32 :=
  [c.dcTimeConst, c.initial.phase, c.initial.amplitude] ++ c.phaseStep.reals ++
    c.amplitudeStep.reals ++
    [ c.newton.stepIncrease, c.newton.stepDecrease, c.newton.muShrinkBelow, c.newton.muGrowAbove,
      c.newton.maxMu, c.energyEpsilon, c.newton.denominatorEpsilon ]

/-- The members of a tuning. -/
def entries (c : Config Float32) : List (Entry (Config Float32)) :=
  [ .count "fft_bins" (fun c fftBins => { c with fftBins }) c.fftBins,
    .count "fft_integration" (fun c n => { c with cadence.fftIntegration := n })
      c.cadence.fftIntegration,
    .count "correlation_integration" (fun c n => { c with cadence.correlationIntegration := n })
      c.cadence.correlationIntegration,
    .count "buffers_to_skip" (fun c n => { c with cadence.buffersToSkip := n })
      c.cadence.buffersToSkip,
    .real "dc_time_const" (fun c dcTimeConst => { c with dcTimeConst }) c.dcTimeConst,
    .real "initial_phase" (fun c x => { c with initial.phase := x }) c.initial.phase,
    .real "initial_amplitude" (fun c x => { c with initial.amplitude := x }) c.initial.amplitude,
    StepBounds.entry "phase_step" (fun c phaseStep => { c with phaseStep }) c.phaseStep,
    StepBounds.entry "amplitude_step" (fun c amplitudeStep => { c with amplitudeStep })
      c.amplitudeStep,
    .real "step_increase" (fun c x => { c with newton.stepIncrease := x }) c.newton.stepIncrease,
    .real "step_decrease" (fun c x => { c with newton.stepDecrease := x }) c.newton.stepDecrease,
    .real "mu_shrink_below" (fun c x => { c with newton.muShrinkBelow := x })
      c.newton.muShrinkBelow,
    .real "mu_grow_above" (fun c x => { c with newton.muGrowAbove := x }) c.newton.muGrowAbove,
    .real "max_mu" (fun c x => { c with newton.maxMu := x }) c.newton.maxMu,
    .count "lookback_capacity" (fun c n => { c with lookback.capacity := n }) c.lookback.capacity,
    .count "warmup_cycles" (fun c n => { c with lookback.warmupCycles := n })
      c.lookback.warmupCycles,
    .count "min_lookback" (fun c n => { c with lookback.minLookback := n })
      c.lookback.minLookback,
    .count "center_bins_to_skip" (fun c centerBinsToSkip => { c with centerBinsToSkip })
      c.centerBinsToSkip,
    .real "energy_epsilon" (fun c energyEpsilon => { c with energyEpsilon }) c.energyEpsilon,
    .real "denominator_epsilon" (fun c x => { c with newton.denominatorEpsilon := x })
      c.newton.denominatorEpsilon ]

theorem matches_entries (c : Config Float32) : Matches shape c.toJson c.entries c where
  ne_nil := nofun
  members := rfl
  written := rfl
  unique := by decide +kernel
  plain := by decide +kernel
  faithful := by
    simp only [entries, List.forall_mem_cons, Entry.faithful_count, Entry.faithful_real,
      StepBounds.faithful_entry, List.not_mem_nil, false_implies, implies_true, and_true]
  put := by
    simp only [Entry.putAll, entries, List.foldl_cons, List.foldl_nil, Entry.count, Entry.real,
      Entry.of, StepBounds.entry]

end Config

/-! ### Ramps -/

namespace Ramp

/-- The numbers of a ramp. -/
def reals (r : Ramp Float32) : List Float32 :=
  [r.target.phase, r.applied.phase, r.target.amplitude, r.applied.amplitude]

/-- The members of a ramp. -/
def entries (r : Ramp Float32) : List (Entry (Ramp Float32)) :=
  [ .real "phase" (fun r x => { r with target.phase := x }) r.target.phase,
    .real "last_phase" (fun r x => { r with applied.phase := x }) r.applied.phase,
    .real "amplitude" (fun r x => { r with target.amplitude := x }) r.target.amplitude,
    .real "last_amplitude" (fun r x => { r with applied.amplitude := x }) r.applied.amplitude ]

theorem matches_entries (r : Ramp Float32) : Matches shape r.toJson r.entries r where
  ne_nil := nofun
  members := rfl
  written := rfl
  unique := by decide +kernel
  plain := by decide +kernel
  faithful := by simp [entries, Entry.faithful_real]
  put := rfl

end Ramp

/-! ### Trackers -/

namespace DcTracker

/-- The numbers of a tracker. -/
def reals (t : DcTracker Float32) : List Float32 := [t.mean.re, t.mean.im, t.rate]

/-- The members of a tracker. -/
def entries (t : DcTracker Float32) : List (Entry (DcTracker Float32)) :=
  [ .real "iavg" (fun t x => { t with mean.re := x }) t.mean.re,
    .real "qavg" (fun t x => { t with mean.im := x }) t.mean.im,
    .real "k" (fun t rate => { t with rate }) t.rate ]

theorem matches_entries (t : DcTracker Float32) : Matches shape t.toJson t.entries t where
  ne_nil := nofun
  members := rfl
  written := rfl
  unique := by decide +kernel
  plain := by decide +kernel
  faithful := by simp [entries, Entry.faithful_real]
  put := rfl

end DcTracker

/-! ### Reading back -/

namespace Json

/-- What is written for a record of these numbers reads back as the record, or has another shape
than wanted if one of the numbers is not finite. -/
structure RoundTrips {ρ : Type} (ofJson : List UInt8 → Except Rejection ρ) (v : Value)
    (reals : List Float32) (record : ρ) : Prop where
  of_finite : (∀ x ∈ reals, x.isFinite) → ofJson (bytes v.render) = .ok record
  of_not_finite : (∃ x ∈ reals, ¬ x.isFinite) → ofJson (bytes v.render) = .error .mismatched

theorem Matches.roundTrips {ρ : Type} {shape : Shape ρ} {v : Value} {entries : List (Entry ρ)}
    {record : ρ} (h : Matches shape v entries record) (hwritable : v.IsWritable) :
    RoundTrips (parse shape.read) v v.reals record where
  of_finite hfinite := (h.reads hwritable).parse.trans (if_pos hfinite)
  of_not_finite := by
    rintro ⟨x, hx, hnot⟩
    exact (h.reads hwritable).parse.trans (if_neg fun hfinite => hnot (hfinite x hx))

/-- Tunings whose counts have 64 bits, ramps and trackers, whatever they hold, are read back from
what is written for them if all their numbers are finite, and rejected for their shape if not,
as far as finite numbers read back one by one. -/
theorem roundTrips_of_readsBack :
    (∀ c : Config Float32, (∀ n ∈ c.counts, n < countLimit) →
      (∀ x ∈ c.reals, x.isFinite → ReadsBack x) →
        RoundTrips Config.ofJson c.toJson c.reals c) ∧
    (∀ r : Ramp Float32, (∀ x ∈ r.reals, x.isFinite → ReadsBack x) →
        RoundTrips Ramp.ofJson r.toJson r.reals r) ∧
    ∀ t : DcTracker Float32, (∀ x ∈ t.reals, x.isFinite → ReadsBack x) →
        RoundTrips DcTracker.ofJson t.toJson t.reals t := by
  refine ⟨fun c hcounts hreals => ?_, fun r hreals => ?_, fun t hreals => ?_⟩
  · exact c.matches_entries.roundTrips ⟨hcounts, hreals⟩
  · exact r.matches_entries.roundTrips ⟨nofun, hreals⟩
  · exact t.matches_entries.roundTrips ⟨nofun, hreals⟩

/-- The standard tuning; the same with an infinite constant, which is accepted, and yet cannot be
read back; a ramp at rest in minus zero; and a tracker of what is no number. -/
theorem roundTrips_of_standard :
    let infinite : Config Float32 := { Config.standard with energyEpsilon := 1 / 0 }
    let ramp : Ramp Float32 := .atRest ⟨-0, 0.1⟩
    let tracker : DcTracker Float32 := ⟨⟨0 / 0, 0⟩, 1e-4⟩
    (∀ n ∈ infinite.counts, n < countLimit) ∧ (∀ x ∈ infinite.reals, x.isFinite → ReadsBack x) ∧
      infinite.validate = .ok { log2 := 10 } ∧
      Config.ofJson (bytes Config.standard.toJson.render) = .ok Config.standard ∧
      Config.ofJson (bytes infinite.toJson.render) = .error .mismatched ∧
      Ramp.ofJson (bytes ramp.toJson.render) = .ok ramp ∧
      DcTracker.ofJson (bytes tracker.toJson.render) = .error .mismatched := by
  intro infinite ramp tracker
  have hcounts : ∀ n ∈ infinite.counts, n < countLimit := by decide
  have hinfinite : ∀ x ∈ infinite.reals, x.isFinite → ReadsBack x := by decide +kernel
  have hstandard : ∀ x ∈ Config.standard.reals, x.isFinite → ReadsBack x := by decide +kernel
  have hramp : ∀ x ∈ ramp.reals, x.isFinite → ReadsBack x := by decide +kernel
  have htracker : ∀ x ∈ tracker.reals, x.isFinite → ReadsBack x := by decide +kernel
  have hvalid : infinite.validate = .ok { log2 := 10 } :=
    Config.validate_eq_ok_iff.mpr { Config.validate_eq_ok_iff.mp Config.validate_standard with
      epsilons := by decide +kernel }
  obtain ⟨hconfigs, hramps, htrackers⟩ := roundTrips_of_readsBack
  exact ⟨hcounts, hinfinite, hvalid,
    (hconfigs _ (by decide) hstandard).of_finite (by decide +kernel),
    (hconfigs infinite hcounts hinfinite).of_not_finite (by decide +kernel),
    (hramps ramp hramp).of_finite (by decide +kernel),
    (htrackers tracker htracker).of_not_finite (by decide +kernel)⟩

end Json

end IqBalance
