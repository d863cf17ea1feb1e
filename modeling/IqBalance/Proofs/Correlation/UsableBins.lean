import Mathlib
import IqBalance.Proofs.AcceptedConfig
import IqBalance.Proofs.Correlation.ExactUtility
import IqBalance.Proofs.Spectrum.Tables

/-!
Which tunings leave the utility a bin to count.

The utility leaves out bin 0 and the bins up to `centerBinsToSkip` away from
the centre. The farthest bin that is left is one short of half the bins away
(`exists_counts_iff`), so a tuning that leaves out that distance too leaves out
everything, and its utility is zero whatever the accumulators hold
(`Accumulators.utility_eq_zero`). One that leaves out less has a utility that
is not zero for some contents, wherever the favoured bin is
(`Accumulators.exists_utility_ne_zero`). The checks of a tuning accept one
distance more (`accepted_without_usable_bin`).
-/

namespace IqBalance

/-- No bin but bin 0 is half the bins away from the centre, and bin 1 is the farthest. -/
theorem exists_binDistance_lt_iff {n skip : Nat} (hn : 2 ∣ n) (hpos : 4 ≤ n) :
    (∃ i, 1 ≤ i ∧ i < n ∧ skip < binDistance i (n / 2)) ↔ skip + 1 < n / 2 := by
  constructor
  · rintro ⟨i, hi, hlt, hfar⟩
    unfold binDistance at hfar
    omega
  · intro hskip
    refine ⟨1, Nat.le_refl 1, by omega, ?_⟩
    unfold binDistance
    omega

namespace Weighting

variable {α : Type} [Scalar α] {size : FftSize}

theorem exists_counts_iff (w : Weighting α) :
    (∃ i : Fin size.bins, w.counts size.bins i) ↔ w.centerBinsToSkip + 1 < size.bins / 2 := by
  have hpos : 4 ≤ size.bins := Nat.le_trans (by decide) size.le_bins
  rw [← exists_binDistance_lt_iff size.two_dvd_bins hpos]
  constructor
  · rintro ⟨i, hi⟩
    obtain ⟨hne, hfar⟩ := (w.counts_iff _ _).mp hi
    exact ⟨i, Nat.one_le_iff_ne_zero.mpr hne, i.isLt, hfar⟩
  · rintro ⟨i, hi, hlt, hfar⟩
    exact ⟨⟨i, hlt⟩, (w.counts_iff _ _).mpr ⟨Nat.one_le_iff_ne_zero.mp hi, hfar⟩⟩

end Weighting

namespace Accumulators

variable {size : FftSize}

/-- Without a bin that counts nothing is added. -/
theorem utility_eq_zero {α : Type} [Scalar α] (acc : Accumulators α size.bins)
    (tables : Tables α size) {w : Weighting α} (h : ¬ ∃ i : Fin size.bins, w.counts size.bins i)
    (trial : Trial) (optimalBin : Nat) : acc.utility tables w trial optimalBin = .ok 0 := by
  have hstep : acc.addWeighted tables w trial optimalBin = fun sum _ => pure sum := by
    funext sum i
    have hout : ¬ w.counts size.bins i := fun hi => h ⟨i, hi⟩
    rw [addWeighted, if_neg hout]
    rfl
  rw [utility, hstep, List.foldlM_pure]
  exact congrArg Except.ok (List.foldl_fixed (List.finRange size.bins))

/-- Accumulators in which every product and every energy is one. -/
def ones (n : Nat) : Accumulators ℝ n :=
  ⟨Vector.replicate n ⟨1, 0⟩, Vector.replicate n ⟨1, 0⟩, Vector.replicate n 1, 1⟩

theorem get_products_ones {n : Nat} (trial : Trial) (i : Fin n) :
    ((ones n).products trial).get i = ⟨1, 0⟩ := by
  cases trial <;> exact Vector.getElem_replicate i.isLt

theorem get_energy_ones {n : Nat} (i : Fin n) : (ones n).energy.get i = 1 :=
  Vector.getElem_replicate i.isLt

/-- With a bin that counts there are contents that give a utility other than zero. -/
theorem exists_utility_ne_zero {tables : Tables ℝ size} {w : Weighting ℝ} {optimalBin : Nat}
    (h : ∃ i : Fin size.bins, w.counts size.bins i)
    (hboost : ∀ d : Fin size.bins, 0 < tables.boost.get d) (hε : 0 < w.energyEpsilon)
    (ho : optimalBin < size.bins) (trial : Trial) :
    ∃ (acc : Accumulators ℝ size.bins) (u : Sample ℝ),
      acc.utility tables w trial optimalBin = .ok u ∧ u ≠ 0 := by
  obtain ⟨i, hi⟩ := h
  let acc := ones size.bins
  have henergy : ∀ j : Fin size.bins, 0 < acc.energy.get j := by
    intro j
    rw [get_energy_ones]
    exact one_pos
  have hproducts : ∀ j : Fin size.bins, w.counts size.bins j →
      ((acc.products trial).get j).toComplex = 1 * ((1 : ℝ) : ℂ) := by
    intro j _
    rw [get_products_ones]
    apply Complex.ext <;> simp
  have hpos : 0 < acc.weightedSum tables w ho fun _ => 1 :=
    weightedSum_pos hboost hε (fun j => (henergy j).le) ho (fun _ => zero_le_one) hi one_pos
      (henergy (imageBin i))
  obtain ⟨u, hu, hsum⟩ := acc.exists_utility_eq_mul tables w trial ho hproducts
  refine ⟨acc, u, hu, ?_⟩
  rintro rfl
  rw [one_mul, Sample.toComplex_zero] at hsum
  exact hpos.ne (by exact_mod_cast hsum)

end Accumulators

/-- An accepted tuning leaves a bin to count exactly if it leaves out a distance of less than one
short of half the bins. Then, for every favoured bin, some accumulators give a utility other than
zero in exact arithmetic; otherwise all give zero, in the arithmetic of the tuning too. -/
theorem usable_bins_iff {α : Type} [Scalar α] {config : Config α} {size : FftSize}
    (hvalid : config.validate = .ok size) {ε : ℝ} (hε : 0 < ε) :
    let usable := config.centerBinsToSkip + 1 < config.fftBins / 2
    let w : Weighting ℝ := ⟨config.centerBinsToSkip, config.dcRampBins, ε⟩
    let tables : Tables ℝ size := Tables.build (ω := ℝ) id size
    ((∃ i, 1 ≤ i ∧ i < config.fftBins ∧
      config.centerBinsToSkip < binDistance i (config.fftBins / 2)) ↔ usable) ∧
    (∀ trial optimalBin, optimalBin < size.bins →
      ((∃ (acc : Accumulators ℝ size.bins) (u : Sample ℝ),
        acc.utility tables w trial optimalBin = .ok u ∧ u ≠ 0) ↔ usable)) ∧
    (¬ usable → ∀ (acc : Accumulators α size.bins) tables trial optimalBin,
      acc.utility tables config.weighting trial optimalBin = .ok 0) := by
  intro usable w tables
  have hbins := (Config.validate_eq_ok_iff.mp hvalid).fftBins
  have hpos : 4 ≤ config.fftBins := hbins ▸ Nat.le_trans (by decide) size.le_bins
  have hcounts : (∃ i : Fin size.bins, w.counts size.bins i) ↔ usable := by
    rw [w.exists_counts_iff, hbins]
  have hcounts' : (∃ i : Fin size.bins, config.weighting.counts size.bins i) ↔ usable := by
    rw [config.weighting.exists_counts_iff, hbins]
    rfl
  refine ⟨exists_binDistance_lt_iff (hbins ▸ size.two_dvd_bins) hpos, ?_, ?_⟩
  · intro trial optimalBin ho
    constructor
    · rintro ⟨acc, u, hu, hne⟩
      by_contra hnot
      rw [acc.utility_eq_zero tables (mt hcounts.mp hnot)] at hu
      exact hne (Except.ok.inj hu).symm
    · intro husable
      exact Accumulators.exists_utility_ne_zero (hcounts.mpr husable) Tables.boost_build_pos hε ho
        trial
  · intro hnot acc tables trial optimalBin
    exact acc.utility_eq_zero tables (mt hcounts'.mp hnot) trial optimalBin

/-- The standard tuning has bins to count, for a favoured bin at the edge too. -/
theorem usable_bins_of_standard :
    Config.standard.validate = .ok { log2 := 10 } ∧
      ∃ (acc : Accumulators ℝ (FftSize.bins { log2 := 10 })) (u : Sample ℝ),
        acc.utility (Tables.build (ω := ℝ) id { log2 := 10 }) ⟨2, 32, 1⟩ .perturbed 1023 = .ok u ∧
          u ≠ 0 := by
  obtain ⟨-, hutility, -⟩ := usable_bins_iff Config.validate_standard (one_pos (α := ℝ))
  exact ⟨Config.validate_standard, (hutility .perturbed 1023 (by decide)).mpr (by decide)⟩

/-- The standard tuning at the shortest length, leaving out 31 bins on either side of the
centre. -/
def Config.widestSkip : Config Float32 :=
  { Config.standard with fftBins := 64, centerBinsToSkip := 31 }

/-- An accepted tuning may leave no bin to count, and then has no utility other than zero. -/
theorem accepted_without_usable_bin :
    let skip := Config.widestSkip.centerBinsToSkip
    Config.widestSkip.validate = .ok FftSize.shortest ∧
      (¬ ∃ i, 1 ≤ i ∧ i < Config.widestSkip.fftBins ∧
        skip < binDistance i (Config.widestSkip.fftBins / 2)) ∧
      ∀ (acc : Accumulators ℝ FftSize.shortest.bins) (tables : Tables ℝ FftSize.shortest) (ε : ℝ)
        (trial : Trial) (optimalBin : Nat),
        acc.utility tables ⟨skip, Config.widestSkip.dcRampBins, ε⟩ trial optimalBin = .ok 0 := by
  intro skip
  have hstandard := Config.validate_eq_ok_iff.mp Config.validate_standard
  refine ⟨?_, ?_, ?_⟩
  · exact Config.validate_eq_ok_iff.mpr { hstandard with
      fftBins := rfl
      centerBinsToSkip := by decide }
  · rw [exists_binDistance_lt_iff (by decide) (by decide)]
    decide
  · intro acc tables ε trial optimalBin
    refine acc.utility_eq_zero tables ?_ trial optimalBin
    rw [Weighting.exists_counts_iff]
    exact (by decide : ¬ 31 + 1 < FftSize.shortest.bins / 2)

end IqBalance
