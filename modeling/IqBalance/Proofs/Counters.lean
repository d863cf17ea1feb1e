import Mathlib
import IqBalance.Proofs.Correlation.Windows
import IqBalance.Proofs.Lookback

/-!
The counts that a pass and the lookback filter keep, with every sum checked.

The definitions of the engine count in unbounded numbers. `accumulateCounted`
and `pushCounted` do what `accumulate` and `push` do, step by step, and fault
where a count would leave the counter range; a pass is walked with the running
offset and the number of windows taken, as a loop over words would do it. With
fewer than `2 ^ 63` samples, and a filter that stays `WithinRing`, they never
fault and so agree with the unchecked definitions (`accumulateCounted_eq_ok`,
`pushCounted_eq_ok`).
-/

namespace IqBalance

/-! ### A pass -/

/-- A window moves on by more than one sample. -/
theorem windowCount_le {n : Nat} (hn : 2 ≤ n) (len limit : Nat) :
    windowCount n len limit ≤ len := by
  unfold windowCount
  split
  · omega
  · have := Nat.div_le_self (len - n) (n / 2)
    omega

namespace Accumulators

variable {α : Type} [Scalar α] {size : FftSize} (tables : Tables α size) (block : Block α)
  (point : Correction α) (trial : Trial)

/-- Add windows from `offset` on, `limit` at most, with `taken` of them before: the end of each
window, the number taken and the next offset are checked. -/
def accumulateCountedFrom :
    (limit taken offset : Nat) → Accumulators α size.bins →
      Except Fault (Nat × Accumulators α size.bins)
  | 0, taken, _, acc => .ok (taken, acc)
  | limit + 1, taken, offset, acc =>
    match hstop : addCount offset size.bins with
    | .error fault => .error fault
    | .ok stop =>
      if hfit : stop ≤ block.size then do
        let taken ← addCount taken 1
        let next ← addCount offset (size.bins / 2)
        accumulateCountedFrom limit taken next (acc.addSpectrum trial
          (windowSpectrum tables block point offset ((addCount_eq_ok_iff.mp hstop).1 ▸ hfit)))
      else .ok (taken, acc)

/-- One pass over a block with its counts checked, the windows of the baseline trial included. -/
def accumulateCounted (acc : Accumulators α size.bins) (limit : Nat) :
    Except Fault (Nat × Accumulators α size.bins) := do
  let (taken, sums) ← accumulateCountedFrom tables block point trial limit 0 0 acc
  match trial with
  | .baseline => do
    let windows ← addCount acc.windows taken
    return (taken, { sums with windows })
  | .perturbed => return (taken, sums)

variable {tables block point trial}

/-- Inside a block no count of the walk leaves the range. -/
theorem accumulateCountedFrom_eq_ok (hsize : block.size < 2 ^ 63) {limit taken offset : Nat}
    (hoffset : offset ≤ block.size) (htaken : taken ≤ offset) (acc : Accumulators α size.bins) :
    accumulateCountedFrom tables block point trial limit taken offset acc =
      .ok (taken + (accumulateFrom tables block point trial limit offset acc).1,
        (accumulateFrom tables block point trial limit offset acc).2) := by
  have hbins := size.bins_le
  have hpos := size.le_bins
  induction limit generalizing taken offset acc with
  | zero => rfl
  | succ limit ih =>
    have hstop : addCount offset size.bins = .ok (offset + size.bins) :=
      addCount_eq_ok (by unfold countLimit; omega)
    rw [accumulateCountedFrom, accumulateFrom]
    split
    · rename_i fault herror
      rw [hstop] at herror
      cases herror
    · rename_i stop hok
      obtain rfl : offset + size.bins = stop := Except.ok.inj (hstop.symm.trans hok)
      split
      · rename_i hfit
        have hnext : addCount offset (size.bins / 2) = .ok (offset + size.bins / 2) :=
          addCount_eq_ok (by unfold countLimit; omega)
        have hone : addCount taken 1 = .ok (taken + 1) :=
          addCount_eq_ok (by unfold countLimit; omega)
        simp only [hone, hnext, bind, Except.bind]
        rw [ih (by omega) (by omega), Nat.add_assoc, Nat.add_comm 1]
      · rfl

/-- With room for the windows of the baseline trial, a pass counts without a fault. -/
theorem accumulateCounted_eq_ok {acc : Accumulators α size.bins} (hsize : block.size < 2 ^ 63)
    (hwindows : trial = .baseline → acc.windows + block.size < countLimit) (limit : Nat) :
    acc.accumulateCounted tables block point trial limit =
      .ok (acc.accumulate tables block point trial limit) := by
  have hfrom : accumulateCountedFrom tables block point trial limit 0 0 acc =
      .ok (acc.accumulate tables block point trial limit) := by
    rw [accumulateCountedFrom_eq_ok hsize (Nat.zero_le _) (Nat.le_refl _), Nat.zero_add]
    rfl
  rw [accumulateCounted, hfrom]
  cases trial with
  | perturbed => rfl
  | baseline =>
    have hcount := windowCount_le (Nat.le_trans (by decide) size.le_bins) block.size limit
    have hwindows : addCount acc.windows (windowCount size.bins block.size limit) = .ok _ :=
      addCount_eq_ok (Nat.lt_of_le_of_lt (Nat.add_le_add_left hcount _) (hwindows rfl))
    have hlength : (passSpectra tables block point limit).length =
        windowCount size.bins block.size limit := by
      simp [passSpectra, Block.windows]
    rw [accumulate_eq, foldl_addSpectrum_baseline, hlength]
    simp only [bind, Except.bind, hwindows]
    rfl

/-- Windows of the baseline trial after a pass. -/
theorem windows_accumulate_le (acc : Accumulators α size.bins) (limit : Nat) :
    (acc.accumulate tables block point trial limit).2.windows ≤ acc.windows + block.size := by
  have hcount := windowCount_le (Nat.le_trans (by decide) size.le_bins) block.size limit
  rw [accumulate_eq]
  cases trial with
  | baseline =>
    rw [foldl_addSpectrum_baseline]
    simpa [passSpectra, Block.windows] using hcount
  | perturbed =>
    rw [foldl_addSpectrum_perturbed]
    exact Nat.le_add_right _ _

/-- The baseline trial counts every window of the pass. -/
theorem windows_accumulate_baseline (acc : Accumulators α size.bins) (limit : Nat) :
    (acc.accumulate tables block point .baseline limit).2.windows =
      acc.windows + windowCount size.bins block.size limit := by
  rw [accumulate_eq, foldl_addSpectrum_baseline]
  simp [passSpectra, Block.windows]

/-- The perturbed trial is not counted. -/
theorem windows_accumulate_perturbed (acc : Accumulators α size.bins) (limit : Nat) :
    (acc.accumulate tables block point .perturbed limit).2.windows = acc.windows := by
  rw [accumulate_eq, foldl_addSpectrum_perturbed]

end Accumulators

/-! ### The lookback filter -/

namespace Lookback

variable {α : Type}

/-- Everything that the filter counts lies inside the ring, or inside the warm-up. -/
structure WithinRing (f : Lookback α) : Prop where
  capacity : ∃ k < 64, f.capacity = 2 ^ k
  depth : f.depth < f.capacity
  minLookback : f.minLookback < f.capacity
  warmup : f.warmup ≤ f.warmupCycles
  warmupCycles : f.warmupCycles < countLimit

variable {f : Lookback α}

theorem WithinRing.capacity_le (h : f.WithinRing) : f.capacity ≤ 2 ^ 63 := by
  obtain ⟨k, hk, hcapacity⟩ := h.capacity
  rw [hcapacity]
  exact Nat.pow_le_pow_right (by decide) (by omega)

/-- The word arithmetic of a read gives a slot of the ring, however far it reaches back. -/
theorem WithinRing.masked_lt (h : f.WithinRing) {back : Nat} (hback : back ≤ f.depth) :
    ((UInt64.ofNat f.cursor - UInt64.ofNat back) &&& UInt64.ofNat (f.capacity - 1)).toNat <
      f.capacity := by
  obtain ⟨k, hk, hcapacity⟩ := h.capacity
  rw [← slotBefore_eq_masked hk hcapacity f.cursor.isLt (hback.trans h.depth.le)]
  exact Nat.mod_lt _ f.capacity_pos

theorem WithinRing.restart (h : f.WithinRing) : f.restart.WithinRing where
  capacity := h.capacity
  depth := f.capacity_pos
  minLookback := h.minLookback
  warmup := Nat.zero_le _
  warmupCycles := h.warmupCycles

theorem nextDepth_lt (h : f.WithinRing) : f.nextDepth < f.capacity := by
  have hmin := h.minLookback
  have hpos := f.capacity_pos
  unfold nextDepth
  split <;> omega

variable [Scalar α]

theorem WithinRing.create {memory : Allocator} {plan : LookbackPlan}
    (hcycles : plan.warmupCycles < countLimit) (h : Lookback.create memory plan = .ok f) :
    f.WithinRing := by
  have hpos := f.capacity_pos
  obtain ⟨-, -, hcapacity, -, hdepth, hwarmup, hwarm, hmin⟩ := create_eq_ok h
  exact {
    capacity := exists_capacity_eq h
    depth := hdepth ▸ hpos
    minLookback := by omega
    warmup := hwarmup ▸ Nat.zero_le _
    warmupCycles := hwarm ▸ hcycles }

theorem WithinRing.push (h : f.WithinRing) (raw : Correction α) : (f.push raw).1.WithinRing := by
  by_cases hwarm : f.warmup < f.warmupCycles
  · rw [Lookback.push, if_pos hwarm]
    exact ⟨h.capacity, f.capacity_pos, h.minLookback, hwarm, h.warmupCycles⟩
  · rw [Lookback.push, if_neg hwarm]
    exact ⟨h.capacity, nextDepth_lt h, h.minLookback, h.warmup, h.warmupCycles⟩

/-- `push` with its counts checked: the slot after the cursor, the estimates of the warm-up, the
depth, and the number of estimates in the mean. -/
def pushCounted (f : Lookback α) (raw : Correction α) :
    Except Fault (Lookback α × Correction α) := do
  let next ← addCount f.cursor 1
  let g : Lookback α := { f with
    ring := (f.record raw).ring
    cursor := ⟨next % f.capacity, Nat.mod_lt _ f.capacity_pos⟩ }
  if f.warmup < f.warmupCycles then
    let warmup ← addCount f.warmup 1
    return ({ g with warmup, depth := 0 }, raw)
  else
    let deeper ← addCount f.depth 1
    let depth := if f.depth = 0 then f.minLookback else min deeper (f.capacity - 1)
    let count ← addCount depth 1
    let unit : α := 1 / Scalar.ofCount count
    let g := { g with depth }
    return (g,
      { phase := (g.sumBefore f.cursor (·.phase) + raw.phase) * unit
        amplitude := (g.sumBefore f.cursor (·.amplitude) + raw.amplitude) * unit })

/-- A filter within its ring counts without a fault. -/
theorem pushCounted_eq_ok (h : f.WithinRing) (raw : Correction α) :
    f.pushCounted raw = .ok (f.push raw) := by
  have hcapacity := h.capacity_le
  have hcursor := f.cursor.isLt
  have hdepth := h.depth
  have hnext : addCount f.cursor 1 = .ok (f.cursor + 1) :=
    addCount_eq_ok (by unfold countLimit; omega)
  by_cases hwarm : f.warmup < f.warmupCycles
  · have hwarmup : addCount f.warmup 1 = .ok (f.warmup + 1) :=
      addCount_eq_ok (Nat.lt_of_le_of_lt hwarm h.warmupCycles)
    rw [pushCounted, push, if_pos hwarm]
    simp only [hnext, hwarmup, if_pos hwarm, bind, Except.bind]
    rfl
  · have hdeeper : addCount f.depth 1 = .ok (f.depth + 1) :=
      addCount_eq_ok (by unfold countLimit; omega)
    have hlt := nextDepth_lt h
    have hcount : addCount f.nextDepth 1 = .ok (f.nextDepth + 1) :=
      addCount_eq_ok (by unfold countLimit; omega)
    rw [nextDepth] at hcount
    rw [pushCounted, push, if_neg hwarm]
    simp only [hnext, hdeeper, hcount, if_neg hwarm, bind, Except.bind]
    rfl

end Lookback

end IqBalance
