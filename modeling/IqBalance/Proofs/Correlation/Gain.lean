import Mathlib
import IqBalance.Proofs.Correlation.Windows
import IqBalance.Proofs.ExactArithmetic

/-!
Gain on the input of the estimator, over exact arithmetic.

The transform is built from sums, differences and products with fixed factors,
so it commutes with every map of samples that all of these commute with
(`Spectrum.transform_map`); multiplying by a gain is one. An image product and
an energy are of the second degree, so a pass over an amplified block adds the
same sums times the square of the gain (`Accumulators.accumulate_amplified`).
The utility divides one energy by another; with the small constant beside the
divisor amplified too, it is of the second degree as well
(`Accumulators.utility_amplified`).
-/

namespace IqBalance

/-! ### The transform -/

/-- A loop whose passes commute with a map commutes with it. -/
theorem fold_comm {β : Type} {count : Nat} {f : β → β} {pass : (i : Nat) → i < count → β → β}
    (h : ∀ i hi v, pass i hi (f v) = f (pass i hi v)) (v : β) :
    Nat.fold count pass (f v) = f (Nat.fold count pass v) := by
  induction count with
  | zero => rfl
  | succ count ih => rw [Nat.fold_succ, Nat.fold_succ, ih fun i hi => h i _, h]

/-- What a sample goes through on its way into a spectrum does not mind the map. -/
structure Sample.Linear {α : Type} [Scalar α] (f : Sample α → Sample α) : Prop where
  add : ∀ x y, f (x + y) = f x + f y
  sub : ∀ x y, f (x - y) = f x - f y
  mul : ∀ w x, f (w * x) = w * f x

namespace Spectrum

variable {α : Type} [Scalar α] {m : Nat} {f : Sample α → Sample α}

theorem bitReverse_map {β γ : Type} (f : β → γ) (v : Vector β (2 ^ m)) :
    bitReverse (v.map f) = (bitReverse v).map f := by
  apply Vector.ext
  intro i hi
  have h := get_bitReverse (v.map f) ⟨i, hi⟩
  have h' := get_bitReverse v ⟨i, hi⟩
  simp only [Vector.get_eq_getElem, Vector.getElem_map] at h h' ⊢
  rw [h, h']

theorem butterfly_map (hf : Sample.Linear f) {n : Nat} (w : Sample α) {top bottom : Nat}
    (htop : top < n) (hbottom : bottom < n) (v : Vector (Sample α) n) :
    butterfly w top bottom htop hbottom (v.map f) =
      (butterfly w top bottom htop hbottom v).map f := by
  simp only [butterfly, Vector.getElem_map, ← hf.mul, ← hf.add, ← hf.sub, Vector.map_set]

theorem stage_map (hf : Sample.Linear f) (twiddles : Vector (Sample α) (2 ^ (m - 1))) {s : Nat}
    (hs : s < m) (v : Vector (Sample α) (2 ^ m)) :
    stage twiddles s hs (v.map f) = (stage twiddles s hs v).map f := by
  refine fold_comm (f := Vector.map f) (fun b hb v => ?_) v
  exact fold_comm (f := Vector.map f) (fun k hk v => butterfly_map hf _ _ _ v) v

theorem swapHalves_map {β γ : Type} {n : Nat} (f : β → γ) (v : Vector β n) :
    swapHalves (v.map f) = (swapHalves v).map f := by
  ext i hi
  simp [swapHalves, Vector.get_eq_getElem]

/-- The transform commutes with what its operations commute with. -/
theorem transform_map (hf : Sample.Linear f) (twiddles : Vector (Sample α) (2 ^ (m - 1)))
    (v : Vector (Sample α) (2 ^ m)) :
    transform twiddles (v.map f) = (transform twiddles v).map f := by
  have hstages : butterflies twiddles ((bitReverse v).map f) =
      (butterflies twiddles (bitReverse v)).map f :=
    fold_comm (f := Vector.map f) (fun s hs v => stage_map hf twiddles hs v) _
  rw [transform, transform, bitReverse_map, hstages, swapHalves_map]

end Spectrum

/-! ### A gain -/

namespace Sample

theorem zero_scale (g : ℝ) : (0 : Sample ℝ).scale g = 0 := Sample.ext (zero_mul _) (zero_mul _)

theorem scale_scale (x : Sample ℝ) (a b : ℝ) : (x.scale a).scale b = x.scale (a * b) := by
  ext
  · exact mul_assoc _ _ _
  · exact mul_assoc _ _ _

theorem linear_scale (g : ℝ) : Linear fun x : Sample ℝ => x.scale g where
  add x y := Sample.ext (add_mul _ _ _) (add_mul _ _ _)
  sub x y := Sample.ext (sub_mul _ _ _) (sub_mul _ _ _)
  mul w x := by
    ext
    · simp only [scale_re, mul_re, scale_im]
      ring
    · simp only [scale_im, mul_im, scale_re]
      ring

theorem scale_mul_scale (x y : Sample ℝ) (g : ℝ) :
    x.scale g * y.scale g = (x * y).scale (g ^ 2) := by
  ext
  · simp only [scale_re, mul_re, scale_im]
    ring
  · simp only [scale_im, mul_im, scale_re]
    ring

theorem normSq_scale (x : Sample ℝ) (g : ℝ) : (x.scale g).normSq = x.normSq * g ^ 2 := by
  simp only [normSq, scale_re, scale_im]
  ring

end Sample

/-- Every sample of a block times a gain. -/
noncomputable def Block.amplified (block : Block ℝ) (g : ℝ) : Block ℝ := block.map (·.scale g)

@[simp] theorem Block.size_amplified (block : Block ℝ) (g : ℝ) :
    Array.size (block.amplified g) = block.size := by
  simp [amplified]

theorem Correction.apply_scale (c : Correction ℝ) (s : Sample ℝ) (g : ℝ) :
    c.apply (s.scale g) = (c.apply s).scale g := by
  ext
  · simp only [apply, Sample.scale_re, Sample.scale_im]
    ring
  · simp only [apply, Sample.scale_re, Sample.scale_im]
    ring

section Spectra

variable {size : FftSize} (tables : Tables ℝ size) (g : ℝ)

theorem Tables.spectrum_scale (window : Vector (Sample ℝ) size.bins) :
    tables.spectrum (window.map (·.scale g)) = (tables.spectrum window).map (·.scale g) := by
  have htaper : tables.applyTaper (window.map (·.scale g)) =
      (tables.applyTaper window).map (·.scale g) := by
    ext i hi
    all_goals
      simp only [applyTaper, Vector.getElem_zipWith, Vector.getElem_map, Sample.scale_re,
        Sample.scale_im]
      ring
  rw [spectrum, htaper]
  exact Spectrum.transform_map (Sample.linear_scale g) tables.twiddles _

theorem Accumulators.passSpectra_amplified (block : Block ℝ) (point : Correction ℝ)
    (limit : Nat) :
    passSpectra tables (block.amplified g) point limit =
      (passSpectra tables block point limit).map (·.map (·.scale g)) := by
  rw [passSpectra, Block.amplified, Block.windows_map, List.map_map, passSpectra, List.map_map]
  refine List.map_congr_left fun window _ => ?_
  have hpoint : (window.map (·.scale g)).map point.apply =
      (window.map point.apply).map (·.scale g) := by
    simp [Function.comp_def, Correction.apply_scale]
  simp only [Function.comp_apply, hpoint, tables.spectrum_scale]

end Spectra

/-! ### Sums -/

theorem imageProduct_scale {n : Nat} (spectrum : Vector (Sample ℝ) n) (g : ℝ) (i : Fin n) :
    imageProduct (spectrum.map (·.scale g)) i = (imageProduct spectrum i).scale (g ^ 2) := by
  simp only [imageProduct, Vector.get_eq_getElem, Vector.getElem_map, Sample.scale_mul_scale]
  split <;> rfl

theorem addImageProducts_scale {n : Nat} (spectrum sums : Vector (Sample ℝ) n) (g : ℝ) :
    addImageProducts (spectrum.map (·.scale g)) (sums.map (·.scale (g ^ 2))) =
      (addImageProducts spectrum sums).map (·.scale (g ^ 2)) := by
  apply Vector.ext
  intro i hi
  have hscaled := get_addImageProducts (spectrum.map (·.scale g)) (sums.map (·.scale (g ^ 2)))
    ⟨i, hi⟩
  have hplain := get_addImageProducts spectrum sums ⟨i, hi⟩
  rw [imageProduct_scale] at hscaled
  simp only [Vector.get_eq_getElem, Vector.getElem_map] at hscaled hplain ⊢
  rw [hscaled, hplain]
  split
  · rfl
  · exact ((Sample.linear_scale (g ^ 2)).add _ _).symm

theorem addEnergy_scale {n : Nat} (spectrum : Vector (Sample ℝ) n) (energy : Vector ℝ n) (g : ℝ) :
    addEnergy (spectrum.map (·.scale g)) (energy.map (· * g ^ 2)) =
      (addEnergy spectrum energy).map (· * g ^ 2) := by
  ext i hi
  simp [addEnergy, Sample.normSq_scale, add_mul]

namespace Accumulators

/-- Every sum times the square of a gain. -/
noncomputable def amplified {n : Nat} (acc : Accumulators ℝ n) (g : ℝ) : Accumulators ℝ n where
  baseline := acc.baseline.map (·.scale (g ^ 2))
  perturbed := acc.perturbed.map (·.scale (g ^ 2))
  energy := acc.energy.map (· * g ^ 2)
  windows := acc.windows

theorem empty_amplified (n : Nat) (g : ℝ) : (empty n : Accumulators ℝ n).amplified g = empty n := by
  simp [amplified, empty, Sample.zero_scale]

theorem products_amplified {n : Nat} (acc : Accumulators ℝ n) (g : ℝ) (trial : Trial) :
    (acc.amplified g).products trial = (acc.products trial).map (·.scale (g ^ 2)) := by
  cases trial <;> rfl

theorem addSpectrum_amplified {n : Nat} (acc : Accumulators ℝ n) (trial : Trial)
    (spectrum : Vector (Sample ℝ) n) (g : ℝ) :
    (acc.amplified g).addSpectrum trial (spectrum.map (·.scale g)) =
      (acc.addSpectrum trial spectrum).amplified g := by
  cases trial with
  | baseline => simp only [addSpectrum, amplified, addImageProducts_scale, addEnergy_scale]
  | perturbed => simp only [addSpectrum, amplified, addImageProducts_scale]

variable {size : FftSize}

/-- A pass over an amplified block takes as many windows and adds the sums times the square of the
gain. -/
theorem accumulate_amplified (acc : Accumulators ℝ size.bins) (tables : Tables ℝ size)
    (block : Block ℝ) (point : Correction ℝ) (trial : Trial) (limit : Nat) (g : ℝ) :
    (acc.amplified g).accumulate tables (block.amplified g) point trial limit =
      ((acc.accumulate tables block point trial limit).1,
        (acc.accumulate tables block point trial limit).2.amplified g) := by
  rw [accumulate_eq, accumulate_eq, Block.size_amplified, passSpectra_amplified, List.foldl_map]
  refine Prod.ext rfl ?_
  refine List.foldl_hom (fun acc : Accumulators ℝ size.bins => acc.amplified g) ?_
  exact fun acc spectrum => addSpectrum_amplified acc trial spectrum g

theorem addTrials_amplified (acc : Accumulators ℝ size.bins) (tables : Tables ℝ size)
    (limit : Nat) (point stepped : Correction ℝ) (block : Block ℝ) (g : ℝ) :
    (acc.amplified g).addTrials tables limit point stepped (block.amplified g) =
      (acc.addTrials tables limit point stepped block).amplified g := by
  simp only [addTrials, accumulate_amplified]

end Accumulators

/-! ### The utility -/

/-- The small constant beside the divisor times the square of a gain. -/
noncomputable def Weighting.amplified (w : Weighting ℝ) (g : ℝ) : Weighting ℝ :=
  { w with energyEpsilon := w.energyEpsilon * g ^ 2 }

namespace Accumulators

variable {size : FftSize} (acc : Accumulators ℝ size.bins) (tables : Tables ℝ size)
  (w : Weighting ℝ) {g : ℝ} (hg : g ≠ 0)

include hg

/-- A weight has no degree. -/
theorem weight_amplified (optimalBin : Nat) (i : Fin size.bins) :
    (acc.amplified g).weight tables (w.amplified g) optimalBin i =
      acc.weight tables w optimalBin i := by
  have hratio :
      acc.energy[imageBin i] * g ^ 2 / (acc.energy[i] * g ^ 2 + w.energyEpsilon * g ^ 2) =
        acc.energy[imageBin i] / (acc.energy[i] + w.energyEpsilon) := by
    rw [← add_mul, mul_div_mul_right _ _ (pow_ne_zero 2 hg)]
  simp only [weight, amplified, Weighting.amplified, Fin.getElem_fin, Vector.getElem_map]
    at hratio ⊢
  rw [hratio]
  rfl

theorem addWeighted_amplified (trial : Trial) (optimalBin : Nat) (sum : Sample ℝ)
    (i : Fin size.bins) :
    (acc.amplified g).addWeighted tables (w.amplified g) trial optimalBin (sum.scale (g ^ 2)) i =
      (acc.addWeighted tables w trial optimalBin sum i).map (·.scale (g ^ 2)) := by
  have hcounts : (w.amplified g).counts size.bins i = w.counts size.bins i := rfl
  rw [addWeighted, addWeighted, hcounts, weight_amplified acc tables w hg, products_amplified]
  split
  · cases acc.weight tables w optimalBin i with
    | error fault => rfl
    | ok weight =>
      refine congrArg Except.ok ?_
      simp only [Fin.getElem_fin, Vector.getElem_map]
      rw [(Sample.linear_scale (g ^ 2)).add, Sample.scale_scale, Sample.scale_scale,
        mul_comm weight]
  · rfl

/-- The utility is of the second degree. -/
theorem utility_amplified (trial : Trial) (optimalBin : Nat) :
    (acc.amplified g).utility tables (w.amplified g) trial optimalBin =
      (acc.utility tables w trial optimalBin).map (·.scale (g ^ 2)) := by
  have hfold : ∀ (bins : List (Fin size.bins)) (sum : Sample ℝ),
      bins.foldlM ((acc.amplified g).addWeighted tables (w.amplified g) trial optimalBin)
          (sum.scale (g ^ 2)) =
        (bins.foldlM (acc.addWeighted tables w trial optimalBin) sum).map (·.scale (g ^ 2)) := by
    intro bins
    induction bins with
    | nil => exact fun _ => rfl
    | cons i rest ih =>
      intro sum
      rw [List.foldlM_cons, List.foldlM_cons, addWeighted_amplified acc tables w hg]
      cases acc.addWeighted tables w trial optimalBin sum i with
      | error fault => rfl
      | ok next => exact ih next
  have hsum := hfold (List.finRange size.bins) 0
  rw [Sample.zero_scale] at hsum
  exact hsum

end Accumulators

end IqBalance
