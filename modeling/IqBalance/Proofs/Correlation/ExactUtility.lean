import Mathlib
import IqBalance.Proofs.Correlation.TrialSums

/-!
The utility over exact arithmetic.

A favoured bin of the spectrum has a boost weight at every distance, so the
utility never faults (`Accumulators.utility_eq_ok`) and is a weighted sum over
the bins that count (`Accumulators.exists_utility`). With a positive boost and
a positive `energyEpsilon` no weight is negative, and a weight is zero only
where the image bin holds no energy (`Accumulators.weightAt_pos`).
-/

namespace IqBalance

/-! ### The utility as a sum over bins -/

theorem Weighting.ramp_pos (w : Weighting ℝ) {distance : Nat} (h : 0 < distance) :
    0 < w.ramp distance := by
  unfold Weighting.ramp
  split
  · have hd : (0 : ℝ) < distance := by exact_mod_cast h
    have hr : (0 : ℝ) < w.rampBins := by exact_mod_cast (by omega : 0 < w.rampBins)
    exact mul_pos hd (one_div_pos.mpr hr)
  · exact zero_lt_one

theorem binDistance_lt {n i j : Nat} (hi : i < n) (hj : j < n) : binDistance i j < n := by
  unfold binDistance
  omega

theorem Weighting.counts_iff {α : Type} [Scalar α] (w : Weighting α) (n i : Nat) :
    w.counts n i ↔ i ≠ 0 ∧ w.centerBinsToSkip < binDistance i (n / 2) := by
  simp [counts]

theorem Weighting.ne_of_counts {α : Type} [Scalar α] (w : Weighting α) {n i : Nat}
    (h : w.counts n i) : i ≠ 0 ∧ i ≠ n / 2 := by
  obtain ⟨hpos, hfar⟩ := (w.counts_iff _ _).mp h
  refine ⟨hpos, fun hcentre => ?_⟩
  rw [hcentre, binDistance] at hfar
  omega

/-- A bin counts when its image does. -/
theorem Weighting.counts_imageBin {α : Type} [Scalar α] (w : Weighting α) {n : Nat} (hn : 2 ∣ n)
    {i : Fin n} (h : w.counts n i) : w.counts n (imageBin i) := by
  rw [counts_iff] at h ⊢
  obtain ⟨hpos, hfar⟩ := h
  have hval := imageBin_val hpos
  have hlt := i.isLt
  unfold binDistance at hfar ⊢
  constructor <;> omega

/-- Samples that are added under a condition. -/
theorem Sample.toComplex_foldl_ite {ι : Type} (p : ι → Bool) (f : ι → Sample ℝ) (l : List ι)
    (s : Sample ℝ) :
    (l.foldl (fun sum i => if p i then sum + f i else sum) s).toComplex =
      s.toComplex + (l.map fun i => if p i then (f i).toComplex else 0).sum := by
  induction l generalizing s with
  | nil => simp
  | cons i rest ih =>
    rw [List.foldl_cons, ih, List.map_cons, List.sum_cons, ← add_assoc]
    split
    · rw [toComplex_add]
    · rw [add_zero]

namespace Accumulators

section Weights

variable {α : Type} [Scalar α] {size : FftSize} (acc : Accumulators α size.bins)
  (tables : Tables α size) (w : Weighting α) {optimalBin : Nat}

/-- The weight of a bin when the favoured bin is one of the spectrum. -/
def weightAt (ho : optimalBin < size.bins) (i : Fin size.bins) : α :=
  w.ramp (binDistance i (size.bins / 2)) *
    tables.boost.get ⟨binDistance i optimalBin, binDistance_lt i.isLt ho⟩ *
    (acc.energy.get (imageBin i) / (acc.energy.get i + w.energyEpsilon))

theorem weight_eq_ok (ho : optimalBin < size.bins) (i : Fin size.bins) :
    acc.weight tables w optimalBin i = .ok (acc.weightAt tables w ho i) := by
  rw [weight, Tables.boostWeight, dif_pos (binDistance_lt i.isLt ho)]
  rfl

/-- Every bin has a weight when the favoured bin is one of the spectrum, so no step faults. -/
theorem utility_eq_ok (trial : Trial) (ho : optimalBin < size.bins) :
    acc.utility tables w trial optimalBin =
      .ok ((List.finRange size.bins).foldl (fun sum (i : Fin size.bins) =>
        if w.counts size.bins i then
          sum + ((acc.products trial).get i).scale (acc.weightAt tables w ho i)
        else sum) 0) := by
  have hstep : acc.addWeighted tables w trial optimalBin = fun sum (i : Fin size.bins) =>
      pure (if w.counts size.bins i then
        sum + ((acc.products trial).get i).scale (acc.weightAt tables w ho i)
        else sum) := by
    funext sum i
    rw [addWeighted, weight_eq_ok acc tables w ho]
    split <;> rfl
  rw [utility, hstep, List.foldlM_pure]
  rfl

end Weights

section ExactWeights

variable {size : FftSize} (acc : Accumulators ℝ size.bins) (tables : Tables ℝ size)
  (w : Weighting ℝ) {optimalBin : Nat}

/-- The utility is the weighted sum of the products of the bins that count. -/
theorem exists_utility (trial : Trial) (ho : optimalBin < size.bins) :
    ∃ s, acc.utility tables w trial optimalBin = .ok s ∧
      s.toComplex = ∑ i : Fin size.bins, if w.counts size.bins i then
        ((acc.products trial).get i).toComplex * acc.weightAt tables w ho i else 0 := by
  refine ⟨_, acc.utility_eq_ok tables w trial ho, ?_⟩
  rw [Sample.toComplex_foldl_ite (fun i : Fin size.bins => w.counts size.bins i) fun i =>
      ((acc.products trial).get i).scale (acc.weightAt tables w ho i),
    Sample.toComplex_zero, zero_add, Fin.sum_univ_def]
  simp only [Sample.toComplex_scale]

/-- The sum of what the counted bins gain, weighted. -/
noncomputable def weightedSum (ho : optimalBin < size.bins) (gain : Fin size.bins → ℝ) : ℝ :=
  ∑ i : Fin size.bins, if w.counts size.bins i then gain i * acc.weightAt tables w ho i else 0

theorem exists_utility_eq_mul (trial : Trial) (ho : optimalBin < size.bins) {factor : ℂ}
    {gain : Fin size.bins → ℝ} (h : ∀ i : Fin size.bins, w.counts size.bins i →
      ((acc.products trial).get i).toComplex = factor * gain i) :
    ∃ s, acc.utility tables w trial optimalBin = .ok s ∧
      s.toComplex = factor * acc.weightedSum tables w ho gain := by
  obtain ⟨s, hs, hsum⟩ := acc.exists_utility tables w trial ho
  refine ⟨s, hs, ?_⟩
  rw [hsum, weightedSum, Complex.ofReal_sum, Finset.mul_sum]
  refine Finset.sum_congr rfl fun i _ => ?_
  split
  · rename_i hcounts
    rw [h i hcounts, Complex.ofReal_mul, mul_assoc]
  · simp

variable {acc tables w}

/-- Ramp and boost of a bin that counts. -/
theorem ramp_mul_boost_pos (hboost : ∀ d : Fin size.bins, 0 < tables.boost.get d)
    (ho : optimalBin < size.bins) {i : Fin size.bins} (hi : w.counts size.bins i) :
    0 < w.ramp (binDistance i (size.bins / 2)) *
      tables.boost.get ⟨binDistance i optimalBin, binDistance_lt i.isLt ho⟩ := by
  have hfar := ((w.counts_iff _ _).mp hi).2
  have hramp := w.ramp_pos (Nat.lt_of_le_of_lt (Nat.zero_le _) hfar)
  exact mul_pos hramp (hboost ⟨binDistance i optimalBin, binDistance_lt i.isLt ho⟩)

section Energies

variable (hboost : ∀ d : Fin size.bins, 0 < tables.boost.get d) (hε : 0 < w.energyEpsilon)
  (henergy : ∀ i : Fin size.bins, 0 ≤ acc.energy.get i) (ho : optimalBin < size.bins)

include hboost hε henergy

theorem weightAt_nonneg {i : Fin size.bins} (hi : w.counts size.bins i) :
    0 ≤ acc.weightAt tables w ho i := by
  have hbase := ramp_mul_boost_pos hboost ho hi
  have hden := add_pos_of_nonneg_of_pos (henergy i) hε
  exact mul_nonneg hbase.le (div_nonneg (henergy (imageBin i)) hden.le)

theorem weightAt_pos {i : Fin size.bins} (hi : w.counts size.bins i)
    (himage : 0 < acc.energy.get (imageBin i)) : 0 < acc.weightAt tables w ho i := by
  have hbase := ramp_mul_boost_pos hboost ho hi
  have hden := add_pos_of_nonneg_of_pos (henergy i) hε
  exact mul_pos hbase (div_pos himage hden)

variable {gain : Fin size.bins → ℝ} (hgain : ∀ i, 0 ≤ gain i)

include hgain

theorem weightedSum_term_nonneg (i : Fin size.bins) :
    0 ≤ if w.counts size.bins i then gain i * acc.weightAt tables w ho i else 0 := by
  split
  · rename_i hcounts
    exact mul_nonneg (hgain i) (weightAt_nonneg hboost hε henergy ho hcounts)
  · exact le_rfl

theorem weightedSum_nonneg : 0 ≤ acc.weightedSum tables w ho gain :=
  Finset.sum_nonneg fun i _ => weightedSum_term_nonneg hboost hε henergy ho hgain i

/-- One counted bin that gains, and whose image has energy, is enough. -/
theorem weightedSum_pos {i : Fin size.bins} (hi : w.counts size.bins i) (hpos : 0 < gain i)
    (himage : 0 < acc.energy.get (imageBin i)) : 0 < acc.weightedSum tables w ho gain := by
  refine Finset.sum_pos' (fun j _ => weightedSum_term_nonneg hboost hε henergy ho hgain j)
    ⟨i, Finset.mem_univ i, ?_⟩
  rw [if_pos hi]
  exact mul_pos hpos (weightAt_pos hboost hε henergy ho hi himage)

end Energies

end ExactWeights

end Accumulators

end IqBalance
