import Mathlib
import IqBalance.Proofs.Correlation.ExactUtility

/-!
The zero of the utility, over exact arithmetic.

A block is `ImageFree` when its windows hold no energy on both bins of an image
pair; a tone away from the centre and from the end of the band is one
(`imageFree_toneWindow`). Once an imbalance `c₀` has been injected, such a
block shows only the image that `c₀` and the trial correction make together.

* `Correction.toComplex_apply_apply`: the two compose to a correction that
  leaves `directAfter` times a sample and adds `imageAfter` times its conjugate.
* `ImageFree.productSum_passSpectra`: the product of a pair is the product of
  these two numbers times the energy of the pair.
* `utility_of_image_free`: so is the utility, with a gain that is the same for
  both trials and positive where the block shows. It is zero at the trial points
  that undo the image and at no other.
-/

namespace IqBalance

open Complex (I)
open scoped ComplexConjugate

/-! ### Composed corrections -/

namespace Correction

/-- What `c` leaves of a sample that `c₀` has corrected before. -/
noncomputable def directAfter (c₀ c : Correction ℝ) : ℂ :=
  c.direct * c₀.direct + c.image * conj c₀.image

/-- What `c` adds of the conjugate of a sample that `c₀` has corrected before. -/
noncomputable def imageAfter (c₀ c : Correction ℝ) : ℂ :=
  c.direct * c₀.image + c.image * conj c₀.direct

theorem directAfter_eq (c₀ c : Correction ℝ) :
    c₀.directAfter c =
      (1 - I * c.amplitude * c.phase) * (1 - I * c₀.amplitude * c₀.phase) +
        (c.amplitude + I * c.phase) * (c₀.amplitude - I * c₀.phase) := by
  simp only [directAfter, direct, image, map_add, map_mul, Complex.conj_I, Complex.conj_ofReal]
  ring

theorem imageAfter_eq (c₀ c : Correction ℝ) :
    c₀.imageAfter c =
      (1 - I * c.amplitude * c.phase) * (c₀.amplitude + I * c₀.phase) +
        (c.amplitude + I * c.phase) * (1 + I * c₀.amplitude * c₀.phase) := by
  simp [imageAfter, direct, image]

theorem toComplex_apply_apply (c₀ c : Correction ℝ) (s : Sample ℝ) :
    (c.apply (c₀.apply s)).toComplex =
      c₀.directAfter c * s.toComplex + c₀.imageAfter c * conj s.toComplex := by
  rw [toComplex_apply, toComplex_apply, directAfter, imageAfter]
  simp only [map_add, map_mul, Complex.conj_conj]
  ring

/-- The composed correction has no image when it is a factor on every sample. -/
theorem imageAfter_eq_zero_iff (c₀ c : Correction ℝ) :
    c₀.imageAfter c = 0 ↔
      ∀ s, (c.apply (c₀.apply s)).toComplex = c₀.directAfter c * s.toComplex := by
  constructor
  · intro h s
    rw [toComplex_apply_apply, h, zero_mul, add_zero]
  · intro h
    have hone := h ⟨1, 0⟩
    have hconj : conj (Sample.toComplex ⟨1, 0⟩) = 1 := by
      apply Complex.ext <;> simp
    rw [toComplex_apply_apply, hconj, mul_one, add_eq_left] at hone
    exact hone

end Correction

/-! ### Blocks without image -/

section ImageFree

variable {size : FftSize}

/-- No window of the block holds energy on both bins of an image pair. -/
def ImageFree (tables : Tables ℝ size) (block : Block ℝ) (limit : Nat) : Prop :=
  ∀ window ∈ block.windows size.bins limit, ∀ i : Fin size.bins,
    i.val ≠ 0 → i.val ≠ size.bins / 2 →
      ((tables.spectrum window).get i).toComplex *
        ((tables.spectrum window).get (imageBin i)).toComplex = 0

/-- Some window of the block holds energy on a bin that the utility counts. -/
def Visible (tables : Tables ℝ size) (w : Weighting ℝ) (block : Block ℝ) (limit : Nat) : Prop :=
  ∃ window ∈ block.windows size.bins limit, ∃ i : Fin size.bins,
    w.counts size.bins i ∧ ((tables.spectrum window).get i).toComplex ≠ 0

/-- The energy of a bin in the windows of a block. -/
noncomputable def blockEnergy (tables : Tables ℝ size) (block : Block ℝ) (limit : Nat)
    (i : Fin size.bins) : ℝ :=
  energySum ((block.windows size.bins limit).map tables.spectrum) i

/-- The energy of a bin and its image. -/
noncomputable def pairEnergy (tables : Tables ℝ size) (block : Block ℝ) (limit : Nat)
    (i : Fin size.bins) : ℝ :=
  blockEnergy tables block limit i + blockEnergy tables block limit (imageBin i)

theorem pairEnergy_nonneg (tables : Tables ℝ size) (block : Block ℝ) (limit : Nat)
    (i : Fin size.bins) : 0 ≤ pairEnergy tables block limit i :=
  add_nonneg (energySum_nonneg _ i) (energySum_nonneg _ (imageBin i))

variable (taper boost : Vector ℝ size.bins) (block : Block ℝ) (limit : Nat)
  (c₀ c : Correction ℝ)

/-- Two corrections in a row mix the spectrum of a window like the composed one. -/
theorem spectrum_mixes_after (window : Vector (Sample ℝ) size.bins) :
    Mixes (c₀.directAfter c) (c₀.imageAfter c) ((Tables.exact taper boost).spectrum window)
      ((Tables.exact taper boost).spectrum ((window.map c₀.apply).map c.apply)) :=
  (spectrum_mixes taper boost c₀ window).trans (spectrum_mixes taper boost c (window.map c₀.apply))

theorem passSpectra_applyBlock (tables : Tables ℝ size) :
    Accumulators.passSpectra tables (c₀.applyBlock block) c limit =
      (block.windows size.bins limit).map fun window =>
        tables.spectrum ((window.map c₀.apply).map c.apply) := by
  rw [Accumulators.passSpectra, Block.windows_applyBlock, List.map_map]
  rfl

variable {block limit}

theorem ImageFree.productSum_eq_zero {tables : Tables ℝ size}
    (h : ImageFree tables block limit) {i : Fin size.bins} (hi : i.val ≠ 0)
    (hcentre : i.val ≠ size.bins / 2) :
    productSum ((block.windows size.bins limit).map tables.spectrum) i = 0 := by
  apply List.sum_eq_zero
  intro product hproduct
  rw [List.map_map] at hproduct
  obtain ⟨window, hwindow, rfl⟩ := List.mem_map.mp hproduct
  exact h window hwindow i hi hcentre

/-- What a pass over an image-free block adds to a product: the composed correction's two factors
and the energy of the pair. -/
theorem ImageFree.productSum_passSpectra (h : ImageFree (Tables.exact taper boost) block limit)
    {i : Fin size.bins} (hi : i.val ≠ 0) (hcentre : i.val ≠ size.bins / 2) :
    productSum (Accumulators.passSpectra (Tables.exact taper boost) (c₀.applyBlock block) c limit)
        i =
      c₀.directAfter c * c₀.imageAfter c *
        pairEnergy (Tables.exact taper boost) block limit i := by
  rw [passSpectra_applyBlock, productSum_of_mixes _ (spectrum_mixes_after taper boost c₀ c),
    h.productSum_eq_zero hi hcentre, pairEnergy, Complex.ofReal_add, blockEnergy, blockEnergy]
  simp

theorem ImageFree.energySum_passSpectra (h : ImageFree (Tables.exact taper boost) block limit)
    {i : Fin size.bins} (hi : i.val ≠ 0) (hcentre : i.val ≠ size.bins / 2) :
    energySum (Accumulators.passSpectra (Tables.exact taper boost) (c₀.applyBlock block) c limit)
        i =
      Complex.normSq (c₀.directAfter c) * blockEnergy (Tables.exact taper boost) block limit i +
        Complex.normSq (c₀.imageAfter c) *
          blockEnergy (Tables.exact taper boost) block limit (imageBin i) := by
  rw [passSpectra_applyBlock, energySum_of_mixes _ (spectrum_mixes_after taper boost c₀ c),
    h.productSum_eq_zero hi hcentre, blockEnergy, blockEnergy]
  simp

end ImageFree

/-! ### Tones -/

section Tones

variable {size : FftSize} {w : Weighting ℝ} {boost : Vector ℝ size.bins} {m limit : Nat}

theorem imageFree_toneWindow (hm : ¬ size.bins ∣ 2 * m) :
    ImageFree (Tables.exact (Vector.replicate size.bins 1) boost) (toneWindow size m).toArray
      (limit + 1) := by
  intro window hwindow i _ _
  rw [windows_toneWindow, List.mem_singleton] at hwindow
  subst hwindow
  rw [toComplex_spectrum_toneWindow, toComplex_spectrum_toneWindow]
  have himage := dvd_frequency_add_image size.two_dvd_bins i
  split
  · rename_i hown
    have hother : ¬ size.bins ∣ m + (imageBin i + size.bins / 2) % size.bins := by
      intro hother
      have htwice := Nat.dvd_add hown hother
      have hsplit : m + (i + size.bins / 2) % size.bins +
          (m + (imageBin i + size.bins / 2) % size.bins) =
          2 * m + ((imageBin i + size.bins / 2) % size.bins +
            (i + size.bins / 2) % size.bins) := by
        omega
      rw [hsplit] at htwice
      exact hm ((Nat.dvd_add_left himage).mp htwice)
    rw [if_neg hother, mul_zero]
  · exact zero_mul _

theorem visible_toneWindow {i : Fin size.bins} (hi : w.counts size.bins i)
    (hm : size.bins ∣ m + (i + size.bins / 2) % size.bins) :
    Visible (Tables.exact (Vector.replicate size.bins 1) boost) w (toneWindow size m).toArray
      (limit + 1) := by
  refine ⟨toneWindow size m, ?_, i, hi, ?_⟩
  · rw [windows_toneWindow]
    exact List.mem_singleton_self _
  · rw [toComplex_spectrum_toneWindow, if_pos hm]
    exact_mod_cast size.bins_pos.ne'

end Tones

/-! ### The zero of the utility -/

section Trials

variable {size : FftSize} {taper boost : Vector ℝ size.bins} {block : Block ℝ} {limit : Nat}
  (c₀ c c' : Correction ℝ)

/-- The correction that a trial tries. -/
def Trial.point {α : Type} (c c' : Correction α) : Trial → Correction α
  | .baseline => c
  | .perturbed => c'

@[simp] theorem Trial.point_baseline {α : Type} (c c' : Correction α) :
    Trial.baseline.point c c' = c := rfl

@[simp] theorem Trial.point_perturbed {α : Type} (c c' : Correction α) :
    Trial.perturbed.point c c' = c' := rfl

namespace Accumulators

theorem toComplex_products_addTrials {i : Fin size.bins} (hi : i.val ≠ 0) (tables : Tables ℝ size)
    (trial : Trial) :
    ((((empty size.bins).addTrials tables limit c c' block).products trial).get i).toComplex =
      productSum (passSpectra tables block (trial.point c c') limit) i := by
  cases trial with
  | baseline =>
    rw [Trial.point_baseline, ← toComplex_baseline_accumulate_empty tables block c limit hi,
      products, addTrials, accumulate_eq _ _ _ _ .perturbed, foldl_addSpectrum_perturbed]
  | perturbed =>
    apply toComplex_perturbed_accumulate_of_empty _ tables block c' limit hi
    rw [accumulate_eq, foldl_addSpectrum_baseline]

theorem energy_addTrials (tables : Tables ℝ size) (i : Fin size.bins) :
    ((empty size.bins).addTrials tables limit c c' block).energy.get i =
      energySum (passSpectra tables block c limit) i := by
  rw [← energy_accumulate_empty tables block c limit i, addTrials,
    accumulate_eq _ _ _ _ .perturbed, foldl_addSpectrum_perturbed]

theorem energy_addTrials_nonneg (tables : Tables ℝ size) (i : Fin size.bins) :
    0 ≤ ((empty size.bins).addTrials tables limit c c' block).energy.get i := by
  rw [energy_addTrials]
  exact energySum_nonneg _ i

end Accumulators

namespace ImageFree

variable (h : ImageFree (Tables.exact taper boost) block limit) {w : Weighting ℝ}

include h

theorem exists_utility (trial : Trial) {optimalBin : Nat} (ho : optimalBin < size.bins) :
    let acc := (Accumulators.empty size.bins).addTrials (Tables.exact taper boost) limit c c'
      (c₀.applyBlock block)
    ∃ s, acc.utility (Tables.exact taper boost) w trial optimalBin = .ok s ∧
      s.toComplex = c₀.directAfter (trial.point c c') * c₀.imageAfter (trial.point c c') *
        acc.weightedSum (Tables.exact taper boost) w ho
          (pairEnergy (Tables.exact taper boost) block limit) := by
  intro acc
  refine acc.exists_utility_eq_mul (Tables.exact taper boost) w trial ho fun i hi => ?_
  obtain ⟨hpos, hcentre⟩ := w.ne_of_counts hi
  rw [Accumulators.toComplex_products_addTrials c c' hpos,
    h.productSum_passSpectra taper boost c₀ _ hpos hcentre]

/-- A visible block gives some counted pair energy, and a weight that is not zero: the bin's own
energy reaches its image through `imageAfter`, and its image's weight through `directAfter`. -/
theorem exists_pairEnergy_pos (hvisible : Visible (Tables.exact taper boost) w block limit)
    (hne : c₀.directAfter c ≠ 0 ∨ c₀.imageAfter c ≠ 0) :
    ∃ i : Fin size.bins, w.counts size.bins i ∧
      0 < pairEnergy (Tables.exact taper boost) block limit i ∧
      0 < ((Accumulators.empty size.bins).addTrials (Tables.exact taper boost) limit c c'
        (c₀.applyBlock block)).energy.get (imageBin i) := by
  obtain ⟨window, hwindow, j, hj, hseen⟩ := hvisible
  have hE : 0 < blockEnergy (Tables.exact taper boost) block limit j :=
    energySum_pos (List.mem_map_of_mem hwindow) hseen
  have hj' := w.counts_imageBin size.two_dvd_bins hj
  rcases hne with hdirect | himage
  · refine ⟨imageBin j, hj', ?_, ?_⟩
    · rw [pairEnergy, imageBin_imageBin]
      exact add_pos_of_nonneg_of_pos (energySum_nonneg _ _) hE
    · obtain ⟨hpos, hcentre⟩ := w.ne_of_counts hj
      rw [Accumulators.energy_addTrials, imageBin_imageBin,
        h.energySum_passSpectra taper boost c₀ c hpos hcentre]
      exact add_pos_of_pos_of_nonneg (mul_pos (Complex.normSq_pos.mpr hdirect) hE)
        (mul_nonneg (Complex.normSq_nonneg _) (energySum_nonneg _ _))
  · refine ⟨j, hj, add_pos_of_pos_of_nonneg hE (energySum_nonneg _ _), ?_⟩
    obtain ⟨hpos, hcentre⟩ := w.ne_of_counts hj'
    rw [Accumulators.energy_addTrials, h.energySum_passSpectra taper boost c₀ c hpos hcentre,
      imageBin_imageBin]
    exact add_pos_of_nonneg_of_pos (mul_nonneg (Complex.normSq_nonneg _) (energySum_nonneg _ _))
      (mul_pos (Complex.normSq_pos.mpr himage) hE)

/-- The gain that both trials share is positive where the block shows, unless the baseline trial
leaves nothing of it. -/
theorem weightedSum_pairEnergy_pos (hboost : ∀ d : Fin size.bins, 0 < boost.get d)
    (hε : 0 < w.energyEpsilon)
    (hvisible : Visible (Tables.exact taper boost) w block limit)
    (hne : c₀.directAfter c ≠ 0 ∨ c₀.imageAfter c ≠ 0) {optimalBin : Nat}
    (ho : optimalBin < size.bins) :
    0 < ((Accumulators.empty size.bins).addTrials (Tables.exact taper boost) limit c c'
      (c₀.applyBlock block)).weightedSum (Tables.exact taper boost) w ho
        (pairEnergy (Tables.exact taper boost) block limit) := by
  obtain ⟨i, hi, hpair, hweight⟩ := h.exists_pairEnergy_pos c₀ c c' hvisible hne
  exact Accumulators.weightedSum_pos hboost hε (Accumulators.energy_addTrials_nonneg c c' _) ho
    (pairEnergy_nonneg _ block limit) hi hpair hweight

end ImageFree

end Trials

/-- The utilities of a block without image, after an injected imbalance `c₀`: at each trial point
the product of what the composed correction leaves and what it adds of the conjugate, times a gain
that both trials share. The gain is positive where the block shows, so there the baseline utility
is zero exactly at the trial points that leave no image. -/
theorem utility_of_image_free {size : FftSize} (taper boost : Vector ℝ size.bins)
    (w : Weighting ℝ) (block : Block ℝ) (limit : Nat) (c₀ c c' : Correction ℝ) {optimalBin : Nat}
    (hboost : ∀ d : Fin size.bins, 0 < boost.get d) (hε : 0 < w.energyEpsilon)
    (hfree : ImageFree (Tables.exact taper boost) block limit) (ho : optimalBin < size.bins) :
    let tables := Tables.exact taper boost
    let acc := (Accumulators.empty size.bins).addTrials tables limit c c' (c₀.applyBlock block)
    let direct : Correction ℝ → ℂ := fun c =>
      (1 - I * c.amplitude * c.phase) * (1 - I * c₀.amplitude * c₀.phase) +
        (c.amplitude + I * c.phase) * (c₀.amplitude - I * c₀.phase)
    let image : Correction ℝ → ℂ := fun c =>
      (1 - I * c.amplitude * c.phase) * (c₀.amplitude + I * c₀.phase) +
        (c.amplitude + I * c.phase) * (1 + I * c₀.amplitude * c₀.phase)
    ∃ (baseline perturbed : Sample ℝ) (gain : ℝ),
      acc.utility tables w .baseline optimalBin = .ok baseline ∧
      acc.utility tables w .perturbed optimalBin = .ok perturbed ∧
      0 ≤ gain ∧
      baseline.toComplex = direct c * image c * gain ∧
      perturbed.toComplex = direct c' * image c' * gain ∧
      (Visible tables w block limit → direct c ≠ 0 ∨ image c ≠ 0 → 0 < gain) ∧
      (Visible tables w block limit → direct c ≠ 0 → (baseline = 0 ↔ image c = 0)) ∧
      (image c = 0 ↔ ∀ s, (c.apply (c₀.apply s)).toComplex = direct c * s.toComplex) := by
  intro tables acc direct image
  have hdirect : ∀ c, direct c = c₀.directAfter c := fun c => (c₀.directAfter_eq c).symm
  have himage : ∀ c, image c = c₀.imageAfter c := fun c => (c₀.imageAfter_eq c).symm
  have henergy : ∀ i : Fin size.bins, 0 ≤ acc.energy.get i :=
    Accumulators.energy_addTrials_nonneg c c' tables
  have hpair := pairEnergy_nonneg tables block limit
  let gain := acc.weightedSum tables w ho (pairEnergy tables block limit)
  have hpositive : Visible tables w block limit → direct c ≠ 0 ∨ image c ≠ 0 → 0 < gain := by
    intro hvisible hne
    rw [hdirect, himage] at hne
    exact hfree.weightedSum_pairEnergy_pos c₀ c c' hboost hε hvisible hne ho
  obtain ⟨b, hb, hbvalue⟩ := hfree.exists_utility c₀ c c' .baseline ho
  obtain ⟨p, hp, hpvalue⟩ := hfree.exists_utility c₀ c c' .perturbed ho
  rw [Trial.point_baseline, ← hdirect, ← himage] at hbvalue
  rw [Trial.point_perturbed, ← hdirect, ← himage] at hpvalue
  refine ⟨b, p, gain, hb, hp, Accumulators.weightedSum_nonneg hboost hε henergy ho hpair, hbvalue,
    hpvalue, hpositive, ?_, ?_⟩
  · intro hvisible hne
    rw [← Sample.toComplex_inj, hbvalue, Sample.toComplex_zero]
    constructor
    · intro hzero
      rcases mul_eq_zero.mp hzero with hproduct | hgain
      · exact (mul_eq_zero.mp hproduct).resolve_left hne
      · exact absurd (Complex.ofReal_eq_zero.mp hgain) (hpositive hvisible (.inl hne)).ne'
    · intro hzero
      rw [hzero, mul_zero, zero_mul]
  · rw [hdirect, himage]
    exact c₀.imageAfter_eq_zero_iff c

/-- A tone in bin 16 of 64, injected with an imbalance that the baseline trial leaves as it is. -/
theorem utility_of_imbalanced_tone :
    let size := FftSize.shortest
    let ones : Vector ℝ size.bins := Vector.replicate size.bins 1
    let w : Weighting ℝ := ⟨2, 2, 1⟩
    let c₀ : Correction ℝ := ⟨1 / 10, 1 / 20⟩
    let acc := (Accumulators.empty size.bins).addTrials (Tables.exact ones ones) 8 ⟨0, 0⟩
      ⟨1 / 1000, 1 / 1000⟩ (c₀.applyBlock (toneWindow size 16).toArray)
    (∀ d : Fin size.bins, 0 < ones.get d) ∧ 0 < w.energyEpsilon ∧
      ImageFree (Tables.exact ones ones) (toneWindow size 16).toArray 8 ∧ 16 < size.bins ∧
      Visible (Tables.exact ones ones) w (toneWindow size 16).toArray 8 ∧
      ∃ baseline, acc.utility (Tables.exact ones ones) w .baseline 16 = .ok baseline ∧
        baseline ≠ 0 := by
  intro size ones w c₀ acc
  have hones : ∀ d : Fin size.bins, 0 < ones.get d := by
    intro d
    simp [ones, Vector.get_eq_getElem]
  have hε : 0 < w.energyEpsilon := zero_lt_one
  have hfree : ImageFree (Tables.exact ones ones) (toneWindow size 16).toArray 8 :=
    imageFree_toneWindow (by decide)
  have hvisible : Visible (Tables.exact ones ones) w (toneWindow size 16).toArray 8 :=
    visible_toneWindow (i := ⟨16, by decide⟩) (by decide) (by decide)
  obtain ⟨b, -, -, hb, -, -, -, -, -, hzero, -⟩ := utility_of_image_free ones ones w _ 8 c₀ ⟨0, 0⟩
    ⟨1 / 1000, 1 / 1000⟩ hones hε hfree (by decide : 16 < size.bins)
  refine ⟨hones, hε, hfree, by decide, hvisible, b, hb, ?_⟩
  rw [Ne, hzero hvisible]
  · simp [c₀, Complex.ext_iff]
  · simp [c₀, Complex.ext_iff]

end IqBalance
