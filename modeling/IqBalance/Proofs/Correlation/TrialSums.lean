import Mathlib
import IqBalance.Proofs.Correlation.Tones

/-!
What a trial correction makes of the sums of a pass, over exact arithmetic.

A correction leaves `direct` times a sample and adds `image` times its
conjugate (`Correction.toComplex_apply`). A conjugate in time is a mirrored
conjugate in the spectrum, so a corrected spectrum mixes each bin with the
conjugate of its image (`spectrum_mixes`, by `Mixes`), and products and
energies of mixed spectra are those of the plain ones, mixed
(`productSum_of_mixes`, `energySum_of_mixes`). Hence the sums of every trial
point follow from those of the uncorrected trial
(`trial_sums_eq_of_uncorrected`).
-/

namespace IqBalance

open Complex (I)
open scoped ComplexConjugate

/-! ### The correction model over the complex numbers -/

namespace Correction

/-- What a correction leaves of a sample. -/
noncomputable def direct (c : Correction ℝ) : ℂ := 1 - I * c.amplitude * c.phase

/-- What a correction adds of a sample's conjugate. -/
noncomputable def image (c : Correction ℝ) : ℂ := c.amplitude + I * c.phase

theorem toComplex_apply (c : Correction ℝ) (s : Sample ℝ) :
    (c.apply s).toComplex = c.direct * s.toComplex + c.image * conj s.toComplex := by
  apply Complex.ext
  · simp [apply, direct, image]
    ring
  · simp [apply, direct, image]
    ring

theorem apply_zero (s : Sample ℝ) : (⟨0, 0⟩ : Correction ℝ).apply s = s := by
  ext <;> simp [apply]

end Correction

/-! ### Mixed spectra -/

/-- `y` is `u` times `x` plus `v` times the mirrored conjugate of `x`. -/
def Mixes {n : Nat} (u v : ℂ) (x y : Vector (Sample ℝ) n) : Prop :=
  ∀ i : Fin n,
    (y.get i).toComplex = u * (x.get i).toComplex + v * conj (x.get (imageBin i)).toComplex

theorem Mixes.trans {n : Nat} {u₀ v₀ u v : ℂ} {x y z : Vector (Sample ℝ) n}
    (h₀ : Mixes u₀ v₀ x y) (h : Mixes u v y z) :
    Mixes (u * u₀ + v * conj v₀) (u * v₀ + v * conj u₀) x z := by
  intro i
  have himage := h₀ (imageBin i)
  simp only [imageBin_imageBin] at himage
  rw [h i, h₀ i, himage]
  simp only [map_add, map_mul, Complex.conj_conj]
  ring

/-- The frequencies of a bin and of its image are opposite. -/
theorem dvd_frequency_add_image {n : Nat} (hn : 2 ∣ n) (i : Fin n) :
    n ∣ (imageBin i + n / 2) % n + (i + n / 2) % n := by
  have hsum : n ∣ imageBin i + n / 2 + (i + n / 2) := by
    by_cases hi : i.val = 0
    · have himage : (imageBin i).val = 0 := by simp [imageBin, hi]
      exact ⟨1, by omega⟩
    · have := imageBin_val hi
      exact ⟨2, by omega⟩
  apply Nat.dvd_of_mod_eq_zero
  rw [← Nat.add_mod]
  exact Nat.mod_eq_zero_of_dvd hsum

theorem FftSize.two_dvd_bins (size : FftSize) : 2 ∣ size.bins :=
  dvd_pow_self 2 (by have := size.le_log2; omega)

section Spectra

variable {size : FftSize} (taper boost : Vector ℝ size.bins)

theorem signal_applyTaper_map (c : Correction ℝ) (window : Vector (Sample ℝ) size.bins) (t : Nat) :
    Spectrum.signal ((Tables.exact taper boost).applyTaper (window.map c.apply)) t =
      c.direct * Spectrum.signal ((Tables.exact taper boost).applyTaper window) t +
        c.image * conj (Spectrum.signal ((Tables.exact taper boost).applyTaper window) t) := by
  by_cases ht : t < size.bins
  · simp only [Spectrum.signal_of_lt _ ht, Tables.applyTaper, Vector.getElem_zipWith,
      Vector.getElem_map, Sample.toComplex_scale, Correction.toComplex_apply, map_mul,
      Complex.conj_ofReal]
    ring
  · simp [Spectrum.signal, ht]

/-- Correcting a window mixes its spectrum with its mirror image. -/
theorem spectrum_mixes (c : Correction ℝ) (window : Vector (Sample ℝ) size.bins) :
    Mixes c.direct c.image ((Tables.exact taper boost).spectrum window)
      ((Tables.exact taper boost).spectrum (window.map c.apply)) := by
  intro i
  rw [toComplex_spectrum, toComplex_spectrum, toComplex_spectrum,
    Spectrum.conj_fourierSum (dvd_frequency_add_image size.two_dvd_bins i)]
  simp only [Spectrum.fourierSum, signal_applyTaper_map, add_mul, mul_assoc,
    Finset.sum_add_distrib, Finset.mul_sum]

/-- A corrected tone has a bin and its image. -/
theorem toComplex_spectrum_map_toneWindow (c : Correction ℝ) (m : Nat) (i : Fin size.bins) :
    (((Tables.exact (Vector.replicate size.bins 1) boost).spectrum
        ((toneWindow size m).map c.apply)).get i).toComplex =
      c.direct * (if size.bins ∣ m + (i + size.bins / 2) % size.bins then (size.bins : ℂ) else 0) +
        c.image * (if size.bins ∣ m + (imageBin i + size.bins / 2) % size.bins then (size.bins : ℂ)
          else 0) := by
  rw [spectrum_mixes, toComplex_spectrum_toneWindow, toComplex_spectrum_toneWindow, apply_ite conj,
    map_natCast, map_zero]

end Spectra

/-! ### Sums over windows -/

section Sums

variable {n : Nat}

/-- The image products of bin `i`, summed over spectra. -/
noncomputable def productSum (spectra : List (Vector (Sample ℝ) n)) (i : Fin n) : ℂ :=
  (spectra.map fun x => (x.get i).toComplex * (x.get (imageBin i)).toComplex).sum

/-- The energy of bin `i`, summed over spectra. -/
noncomputable def energySum (spectra : List (Vector (Sample ℝ) n)) (i : Fin n) : ℝ :=
  (spectra.map fun x => Complex.normSq (x.get i).toComplex).sum

variable {ι : Type} {u v : ℂ} {x y : ι → Vector (Sample ℝ) n}

theorem productSum_of_mixes (windows : List ι) (h : ∀ w, Mixes u v (x w) (y w)) (i : Fin n) :
    productSum (windows.map y) i =
      u ^ 2 * productSum (windows.map x) i + v ^ 2 * conj (productSum (windows.map x) i) +
        u * v * (energySum (windows.map x) i + energySum (windows.map x) (imageBin i)) := by
  induction windows with
  | nil => simp [productSum, energySum]
  | cons w rest ih =>
    have himage := h w (imageBin i)
    simp only [imageBin_imageBin] at himage
    simp only [productSum, energySum, List.map_cons, List.sum_cons] at ih ⊢
    rw [ih, h w i, himage]
    push_cast
    simp only [map_add, map_mul, Complex.normSq_eq_conj_mul_self]
    ring

theorem energySum_of_mixes (windows : List ι) (h : ∀ w, Mixes u v (x w) (y w)) (i : Fin n) :
    energySum (windows.map y) i =
      Complex.normSq u * energySum (windows.map x) i +
        Complex.normSq v * energySum (windows.map x) (imageBin i) +
        2 * (u * conj v * productSum (windows.map x) i).re := by
  induction windows with
  | nil => simp [productSum, energySum]
  | cons w rest ih =>
    simp only [productSum, energySum, List.map_cons, List.sum_cons] at ih ⊢
    rw [ih, h w i, Complex.normSq_add]
    simp only [map_mul, Complex.normSq_conj, Complex.conj_conj, mul_add, Complex.add_re]
    ring_nf

theorem energySum_nonneg (spectra : List (Vector (Sample ℝ) n)) (i : Fin n) :
    0 ≤ energySum spectra i := by
  apply List.sum_nonneg
  intro e he
  obtain ⟨x, -, rfl⟩ := List.mem_map.mp he
  exact Complex.normSq_nonneg _

theorem energySum_pos {spectra : List (Vector (Sample ℝ) n)} {x : Vector (Sample ℝ) n}
    (hx : x ∈ spectra) {i : Fin n} (hi : (x.get i).toComplex ≠ 0) : 0 < energySum spectra i := by
  induction spectra with
  | nil => cases hx
  | cons y rest ih =>
    simp only [energySum, List.map_cons, List.sum_cons]
    rcases List.mem_cons.mp hx with rfl | hrest
    · exact add_pos_of_pos_of_nonneg (Complex.normSq_pos.mpr hi) (energySum_nonneg rest i)
    · exact add_pos_of_nonneg_of_pos (Complex.normSq_nonneg _) (ih hrest)

end Sums

/-! ### What a pass adds -/

namespace Accumulators

variable {size : FftSize}

theorem toComplex_imageProduct {n : Nat} (x : Vector (Sample ℝ) n) (i : Fin n) :
    (imageProduct x i).toComplex = (x.get i).toComplex * (x.get (imageBin i)).toComplex := by
  unfold imageProduct
  split
  · exact Sample.toComplex_mul ..
  · rw [Sample.toComplex_mul, mul_comm]

theorem toComplex_foldl_imageProduct {n : Nat} (spectra : List (Vector (Sample ℝ) n)) (i : Fin n)
    (s : Sample ℝ) :
    (spectra.foldl (fun sum x => sum + imageProduct x i) s).toComplex =
      s.toComplex + productSum spectra i := by
  induction spectra generalizing s with
  | nil => simp [productSum]
  | cons x rest ih =>
    rw [List.foldl_cons, ih, Sample.toComplex_add, toComplex_imageProduct, productSum, productSum,
      List.map_cons, List.sum_cons, add_assoc]

theorem foldl_normSq {n : Nat} (spectra : List (Vector (Sample ℝ) n)) (i : Fin n) (e : ℝ) :
    spectra.foldl (fun e x => e + (x.get i).normSq) e = e + energySum spectra i := by
  induction spectra generalizing e with
  | nil => simp [energySum]
  | cons x rest ih =>
    rw [List.foldl_cons, ih, Sample.normSq_eq, energySum, energySum, List.map_cons, List.sum_cons,
      add_assoc]

variable (acc : Accumulators ℝ size.bins) (tables : Tables ℝ size) (block : Block ℝ)
  (point : Correction ℝ) (limit : Nat)

theorem toComplex_baseline_accumulate {i : Fin size.bins} (hi : i.val ≠ 0) :
    ((acc.accumulate tables block point .baseline limit).2.baseline.get i).toComplex =
      (acc.baseline.get i).toComplex + productSum (passSpectra tables block point limit) i := by
  rw [accumulate_eq, foldl_addSpectrum_baseline, get_foldl_addImageProducts, if_neg hi,
    toComplex_foldl_imageProduct]

theorem energy_accumulate (i : Fin size.bins) :
    (acc.accumulate tables block point .baseline limit).2.energy.get i =
      acc.energy.get i + energySum (passSpectra tables block point limit) i := by
  rw [accumulate_eq, foldl_addSpectrum_baseline, get_foldl_addEnergy, foldl_normSq]

theorem toComplex_perturbed_accumulate {i : Fin size.bins} (hi : i.val ≠ 0) :
    ((acc.accumulate tables block point .perturbed limit).2.perturbed.get i).toComplex =
      (acc.perturbed.get i).toComplex + productSum (passSpectra tables block point limit) i := by
  rw [accumulate_eq, foldl_addSpectrum_perturbed, get_foldl_addImageProducts, if_neg hi,
    toComplex_foldl_imageProduct]

theorem toComplex_baseline_accumulate_empty {i : Fin size.bins} (hi : i.val ≠ 0) :
    (((empty size.bins).accumulate tables block point .baseline limit).2.baseline.get i).toComplex =
      productSum (passSpectra tables block point limit) i := by
  rw [toComplex_baseline_accumulate _ _ _ _ _ hi]
  simp [empty, Vector.get_eq_getElem]

theorem energy_accumulate_empty (i : Fin size.bins) :
    ((empty size.bins).accumulate tables block point .baseline limit).2.energy.get i =
      energySum (passSpectra tables block point limit) i := by
  rw [energy_accumulate]
  simp [empty, Vector.get_eq_getElem]

/-- A perturbed pass from anywhere in a cycle before the first one. -/
theorem toComplex_perturbed_accumulate_of_empty {i : Fin size.bins} (hi : i.val ≠ 0)
    (hacc : acc.perturbed = (empty size.bins).perturbed) :
    ((acc.accumulate tables block point .perturbed limit).2.perturbed.get i).toComplex =
      productSum (passSpectra tables block point limit) i := by
  rw [toComplex_perturbed_accumulate _ _ _ _ _ hi, hacc]
  simp [empty, Vector.get_eq_getElem]

end Accumulators

theorem passSpectra_zero {size : FftSize} (tables : Tables ℝ size) (block : Block ℝ) (limit : Nat) :
    Accumulators.passSpectra tables block ⟨0, 0⟩ limit =
      (block.windows size.bins limit).map tables.spectrum := by
  rw [Accumulators.passSpectra]
  refine List.map_congr_left fun window _ => ?_
  congr 1
  ext i hi <;> simp [Correction.apply_zero]

/-- The sums of a trial are those of the uncorrected trial, mixed: with `u` what the trial point
leaves of a sample and `v` what it adds of its conjugate, neither the block nor the taper matters
beyond what the uncorrected sums hold of them. -/
theorem trial_sums_eq_of_uncorrected {size : FftSize} (taper boost : Vector ℝ size.bins)
    (block : Block ℝ) (limit : Nat) (c : Correction ℝ) {i : Nat} (hpos : 0 < i)
    (hlt : i < size.bins) :
    let tables := Tables.exact taper boost
    let start := Accumulators.empty size.bins
    let plain := (start.accumulate tables block ⟨0, 0⟩ .baseline limit).2
    let corrected := (start.accumulate tables block c .baseline limit).2
    let u : ℂ := 1 - I * c.amplitude * c.phase
    let v : ℂ := c.amplitude + I * c.phase
    let products : ℂ := u ^ 2 * plain.baseline[i].toComplex +
      v ^ 2 * conj plain.baseline[i].toComplex +
      u * v * (plain.energy[i] + plain.energy[size.bins - i])
    corrected.baseline[i].toComplex = products ∧
    corrected.energy[i] =
      Complex.normSq u * plain.energy[i] + Complex.normSq v * plain.energy[size.bins - i] +
        2 * (u * conj v * plain.baseline[i].toComplex).re ∧
    (start.accumulate tables block c .perturbed limit).2.perturbed[i].toComplex = products ∧
    ∀ (earlier : Block ℝ) (point : Correction ℝ) (earlierLimit : Nat),
      let before := (start.accumulate tables earlier point .baseline earlierLimit).2
      (before.accumulate tables block c .perturbed limit).2.perturbed[i].toComplex = products := by
  intro tables start plain corrected u v products
  have hi : (⟨i, hlt⟩ : Fin size.bins).val ≠ 0 := hpos.ne'
  have himage : imageBin ⟨i, hlt⟩ = ⟨size.bins - i, by omega⟩ := Fin.ext (imageBin_val hi)
  have hmixes : ∀ window, Mixes u v (tables.spectrum window)
      (tables.spectrum (window.map c.apply)) := spectrum_mixes taper boost c
  have hplain : plain.baseline[i].toComplex =
      productSum ((block.windows size.bins limit).map tables.spectrum) ⟨i, hlt⟩ := by
    rw [← passSpectra_zero]
    exact Accumulators.toComplex_baseline_accumulate_empty tables block ⟨0, 0⟩ limit hi
  have henergy : ∀ j (hj : j < size.bins), plain.energy[j] =
      energySum ((block.windows size.bins limit).map tables.spectrum) ⟨j, hj⟩ := by
    intro j hj
    rw [← passSpectra_zero]
    exact Accumulators.energy_accumulate_empty tables block ⟨0, 0⟩ limit ⟨j, hj⟩
  have hproducts : productSum (Accumulators.passSpectra tables block c limit) ⟨i, hlt⟩ =
      products := by
    rw [Accumulators.passSpectra, productSum_of_mixes _ hmixes, himage, ← hplain, ← henergy,
      ← henergy]
  refine ⟨?_, ?_, ?_, ?_⟩
  · rw [← hproducts]
    exact Accumulators.toComplex_baseline_accumulate_empty tables block c limit hi
  · rw [hplain, henergy, henergy, ← himage, ← energySum_of_mixes _ hmixes]
    exact Accumulators.energy_accumulate_empty tables block c limit ⟨i, hlt⟩
  · rw [← hproducts]
    exact start.toComplex_perturbed_accumulate_of_empty tables block c limit hi rfl
  · intro earlier point earlierLimit before
    rw [← hproducts]
    apply before.toComplex_perturbed_accumulate_of_empty tables block c limit hi
    simp only [before, Accumulators.accumulate_eq, Accumulators.foldl_addSpectrum_baseline, start]

/-- A tone in bin 16 of 64, half of it leaked into its image by an imbalance of the phase, at a
trial point off both axes. -/
theorem trial_sums_of_imbalanced_tone :
    let size := FftSize.shortest
    let tables := Tables.exact (Vector.replicate size.bins 1) (Vector.replicate size.bins 1)
    let start := Accumulators.empty size.bins
    let imbalance : Correction ℝ := ⟨1 / 2, 0⟩
    let block := imbalance.applyBlock (toneWindow size 16).toArray
    let plain := (start.accumulate tables block ⟨0, 0⟩ .baseline 8).2
    let corrected := (start.accumulate tables block ⟨1, 1⟩ .baseline 8).2
    0 < 16 ∧ 16 < size.bins ∧ plain.baseline[16].toComplex = 2048 * I ∧
      plain.energy[16] = 4096 ∧ plain.energy[size.bins - 16] = 1024 ∧
      corrected.baseline[16].toComplex = 18432 ∧ corrected.energy[16] = 18432 := by
  intro size tables start imbalance block plain corrected
  have hlt : 16 < size.bins := by decide
  let low : Fin size.bins := ⟨16, by decide⟩
  let high : Fin size.bins := ⟨size.bins - 16, by decide⟩
  let spectrum := tables.spectrum ((toneWindow size 16).map imbalance.apply)
  have hspectra : Accumulators.passSpectra tables block ⟨0, 0⟩ 8 = [spectrum] := by
    rw [passSpectra_zero, Block.windows_applyBlock, windows_toneWindow]
    rfl
  have hbins : (size.bins : ℂ) = 64 := by
    have hnat : size.bins = 64 := rfl
    rw [hnat]
    norm_num
  have hlow : (spectrum.get low).toComplex = 64 := by
    rw [toComplex_spectrum_map_toneWindow, if_pos (by decide), if_neg (by decide), hbins]
    simp [imbalance, Correction.direct]
  have hhigh : (spectrum.get high).toComplex = 32 * I := by
    rw [toComplex_spectrum_map_toneWindow, if_neg (by decide), if_pos (by decide), hbins]
    simp only [imbalance, Correction.image, Complex.ofReal_zero]
    push_cast
    ring
  have himage : imageBin low = high := rfl
  have hbaseline : plain.baseline[16].toComplex = 2048 * I := by
    have hsum := Accumulators.toComplex_baseline_accumulate_empty tables block ⟨0, 0⟩ 8
      (i := low) (by decide)
    rw [hspectra, productSum, List.map_singleton, List.sum_singleton, himage, hlow, hhigh] at hsum
    refine hsum.trans ?_
    ring
  have henergy : plain.energy[16] = 4096 := by
    have hsum := Accumulators.energy_accumulate_empty tables block ⟨0, 0⟩ 8 low
    rw [hspectra, energySum, List.map_singleton, List.sum_singleton, hlow] at hsum
    refine hsum.trans ?_
    norm_num
  have hmirrored : plain.energy[size.bins - 16] = 1024 := by
    have hsum := Accumulators.energy_accumulate_empty tables block ⟨0, 0⟩ 8 high
    rw [hspectra, energySum, List.map_singleton, List.sum_singleton, hhigh] at hsum
    refine hsum.trans ?_
    norm_num
  obtain ⟨hproducts, henergies, -⟩ :=
    trial_sums_eq_of_uncorrected _ _ block 8 ⟨1, 1⟩ (by decide : 0 < 16) hlt
  refine ⟨by decide, hlt, hbaseline, henergy, hmirrored, hproducts.trans ?_, henergies.trans ?_⟩
  · rw [hbaseline, henergy, hmirrored]
    apply Complex.ext <;> norm_num [sq]
  · rw [hbaseline, henergy, hmirrored]
    norm_num [Complex.normSq]

end IqBalance
