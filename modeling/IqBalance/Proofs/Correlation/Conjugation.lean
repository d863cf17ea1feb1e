import Mathlib
import IqBalance.Proofs.Correlation.ImageFree

/-!
Conjugation of the input of the estimator, over exact arithmetic.

Conjugating a block turns its band round. A correction with the phase negated
does the same to the conjugate as the correction to the block
(`Correction.apply_conjugate`), and the spectrum of a conjugated window is the
conjugated spectrum with every bin in the place of its image
(`Tables.spectrum_conjugate`). So image products become their conjugates and
energies change places (`Accumulators.addSpectrum_conjugate`), pass by pass
(`Accumulators.passes_conjugate`). In the utility image bins change places as
well, which a sum over all bins does not notice: both bins of a pair hold the
same products (`Accumulators.Paired`), lie equally far from the centre, and
as far from the favoured bin as their images from its image
(`Accumulators.weightAt_conjugate`).
-/

namespace IqBalance

open scoped ComplexConjugate

/-! ### Conjugates and mirror images -/

/-- The conjugate of a sample. -/
noncomputable def Sample.conjugate (x : Sample ℝ) : Sample ℝ := ⟨x.re, -x.im⟩

@[simp] theorem Sample.toComplex_conjugate (x : Sample ℝ) :
    x.conjugate.toComplex = conj x.toComplex := rfl

@[simp] theorem Sample.conjugate_zero : (0 : Sample ℝ).conjugate = 0 := by
  apply toComplex_injective
  simp

theorem Sample.conjugate_add (x y : Sample ℝ) : (x + y).conjugate = x.conjugate + y.conjugate := by
  apply toComplex_injective
  simp

theorem Sample.normSq_conjugate (x : Sample ℝ) : x.conjugate.normSq = x.normSq := by
  rw [normSq_eq, normSq_eq, toComplex_conjugate, Complex.normSq_conj]

/-- Every sample of a block conjugated. -/
noncomputable def Block.conjugate (block : Block ℝ) : Block ℝ := block.map Sample.conjugate

@[simp] theorem Block.size_conjugate (block : Block ℝ) :
    Array.size block.conjugate = block.size := by
  simp [conjugate]

/-- The correction with its phase negated. -/
noncomputable def Correction.conjugate (c : Correction ℝ) : Correction ℝ :=
  { c with phase := -c.phase }

theorem Correction.apply_conjugate (c : Correction ℝ) (s : Sample ℝ) :
    c.conjugate.apply s.conjugate = (c.apply s).conjugate := by
  ext
  · simp only [apply, conjugate, Sample.conjugate]
    ring
  · simp only [apply, conjugate, Sample.conjugate]
    ring

/-- Every entry in the place of its image. -/
def mirrored {β : Type} {n : Nat} (v : Vector β n) : Vector β n :=
  Vector.ofFn fun i => v.get (imageBin i)

@[simp] theorem get_mirrored {β : Type} {n : Nat} (v : Vector β n) (i : Fin n) :
    (mirrored v).get i = v.get (imageBin i) := by
  simp [mirrored, Vector.get_eq_getElem]

/-- A spectrum conjugated, with every bin in the place of its image. -/
noncomputable def conjugateSpectrum {n : Nat} (x : Vector (Sample ℝ) n) : Vector (Sample ℝ) n :=
  mirrored (x.map Sample.conjugate)

@[simp] theorem get_conjugateSpectrum {n : Nat} (x : Vector (Sample ℝ) n) (i : Fin n) :
    (conjugateSpectrum x).get i = (x.get (imageBin i)).conjugate := by
  rw [conjugateSpectrum, get_mirrored]
  simp [Vector.get_eq_getElem]

theorem Vector.ext_get {β : Type} {n : Nat} {v w : Vector β n} (h : ∀ i, v.get i = w.get i) :
    v = w :=
  Vector.ext fun i hi => h ⟨i, hi⟩

/-! ### Spectra -/

section Spectra

variable {size : FftSize} (taper boost : Vector ℝ size.bins)

theorem signal_applyTaper_conjugate (window : Vector (Sample ℝ) size.bins) (t : Nat) :
    Spectrum.signal ((Tables.exact taper boost).applyTaper (window.map Sample.conjugate)) t =
      conj (Spectrum.signal ((Tables.exact taper boost).applyTaper window) t) := by
  by_cases ht : t < size.bins
  · simp [Spectrum.signal_of_lt _ ht, Tables.applyTaper]
  · simp [Spectrum.signal, ht]

/-- A conjugated window has the conjugated spectrum, mirrored. -/
theorem Tables.spectrum_conjugate (window : Vector (Sample ℝ) size.bins) :
    (Tables.exact taper boost).spectrum (window.map Sample.conjugate) =
      conjugateSpectrum ((Tables.exact taper boost).spectrum window) := by
  apply Vector.ext_get
  intro i
  apply Sample.toComplex_injective
  rw [get_conjugateSpectrum, Sample.toComplex_conjugate, toComplex_spectrum, toComplex_spectrum,
    Spectrum.conj_fourierSum (dvd_frequency_add_image size.two_dvd_bins i)]
  simp only [Spectrum.fourierSum, signal_applyTaper_conjugate]

theorem Accumulators.passSpectra_conjugate (block : Block ℝ) (point : Correction ℝ)
    (limit : Nat) :
    passSpectra (Tables.exact taper boost) block.conjugate point.conjugate limit =
      (passSpectra (Tables.exact taper boost) block point limit).map conjugateSpectrum := by
  rw [passSpectra, Block.conjugate, Block.windows_map, List.map_map, passSpectra, List.map_map]
  refine List.map_congr_left fun window _ => ?_
  have hpoint : (window.map Sample.conjugate).map point.conjugate.apply =
      (window.map point.apply).map Sample.conjugate := by
    simp [Function.comp_def, Correction.apply_conjugate]
  simp only [Function.comp_apply, hpoint, Tables.spectrum_conjugate]

end Spectra

/-! ### Sums -/

theorem imageProduct_conjugateSpectrum {n : Nat} (x : Vector (Sample ℝ) n) (i : Fin n) :
    imageProduct (conjugateSpectrum x) i = (imageProduct x i).conjugate := by
  apply Sample.toComplex_injective
  rw [Sample.toComplex_conjugate, Accumulators.toComplex_imageProduct,
    Accumulators.toComplex_imageProduct, get_conjugateSpectrum, get_conjugateSpectrum,
    imageBin_imageBin, Sample.toComplex_conjugate, Sample.toComplex_conjugate, map_mul, mul_comm]

theorem addImageProducts_conjugate {n : Nat} (x sums : Vector (Sample ℝ) n) :
    addImageProducts (conjugateSpectrum x) (sums.map Sample.conjugate) =
      (addImageProducts x sums).map Sample.conjugate := by
  apply Vector.ext_get
  intro i
  have hmap : ∀ v : Vector (Sample ℝ) n, (v.map Sample.conjugate).get i = (v.get i).conjugate :=
    fun v => by simp [Vector.get_eq_getElem]
  rw [get_addImageProducts, imageProduct_conjugateSpectrum, hmap, hmap, get_addImageProducts]
  split
  · rfl
  · rw [Sample.conjugate_add]

theorem get_addEnergy {n : Nat} (x : Vector (Sample ℝ) n) (energy : Vector ℝ n) (i : Fin n) :
    (addEnergy x energy).get i = energy.get i + (x.get i).normSq := by
  simp [addEnergy, Vector.get_eq_getElem]

theorem addEnergy_conjugate {n : Nat} (x : Vector (Sample ℝ) n) (energy : Vector ℝ n) :
    addEnergy (conjugateSpectrum x) (mirrored energy) = mirrored (addEnergy x energy) := by
  apply Vector.ext_get
  intro i
  rw [get_mirrored, get_addEnergy, get_addEnergy, get_mirrored, get_conjugateSpectrum,
    Sample.normSq_conjugate]

/-- Both bins of a pair gain the same product. -/
theorem imageProduct_imageBin {α : Type} [Scalar α] {n : Nat} (x : Vector (Sample α) n)
    (i : Fin n) : imageProduct x (imageBin i) = imageProduct x i := by
  rw [imageProduct, imageProduct, imageBin_imageBin]
  rcases Nat.lt_trichotomy i.val (imageBin i).val with hlt | heq | hgt
  · rw [if_neg (Nat.not_le.mpr hlt), if_pos hlt.le]
  · rw [← Fin.ext heq]
  · rw [if_pos hgt.le, if_neg (Nat.not_le.mpr hgt)]

theorem imageBin_eq_zero_iff {n : Nat} (i : Fin n) : (imageBin i).val = 0 ↔ i.val = 0 := by
  constructor
  · intro himage
    by_contra hi
    have hval := imageBin_val hi
    have hlt := i.isLt
    omega
  · intro hi
    simp [imageBin, hi]

/-! ### Passes -/

/-- What a pass over a block is asked for. -/
structure Pass (α : Type) where
  block : Block α
  point : Correction α
  trial : Trial
  limit : Nat

/-- The pass over the conjugated block at the point with the phase negated. -/
noncomputable def Pass.conjugate (p : Pass ℝ) : Pass ℝ :=
  { p with block := p.block.conjugate, point := p.point.conjugate }

namespace Accumulators

section Passes

variable {α : Type} [Scalar α] {size : FftSize}

/-- Passes in order: the number of windows that each one took, and the sums. -/
def passes (acc : Accumulators α size.bins) (tables : Tables α size) :
    List (Pass α) → List Nat × Accumulators α size.bins
  | [] => ([], acc)
  | p :: rest =>
    let (taken, acc) := acc.accumulate tables p.block p.point p.trial p.limit
    let (counts, acc) := acc.passes tables rest
    (taken :: counts, acc)

/-- A pass in both trials. -/
theorem passes_both_trials (acc : Accumulators α size.bins) (tables : Tables α size)
    (limit : Nat) (point stepped : Correction α) (block : Block α) :
    (acc.passes tables
      [⟨block, point, .baseline, limit⟩, ⟨block, stepped, .perturbed, limit⟩]).2 =
      acc.addTrials tables limit point stepped block := rfl

omit [Scalar α] in
/-- Both bins of a pair hold the same sum of products. -/
def Paired {n : Nat} (acc : Accumulators α n) : Prop :=
  ∀ trial i, (acc.products trial).get (imageBin i) = (acc.products trial).get i

theorem Paired.empty (n : Nat) : (empty n : Accumulators α n).Paired := by
  intro trial i
  cases trial <;> simp [Accumulators.empty, products, Vector.get_eq_getElem]

theorem get_addImageProducts_imageBin {n : Nat} (x : Vector (Sample α) n)
    {sums : Vector (Sample α) n} (h : ∀ i, sums.get (imageBin i) = sums.get i) (i : Fin n) :
    (addImageProducts x sums).get (imageBin i) = (addImageProducts x sums).get i := by
  rw [get_addImageProducts, get_addImageProducts, imageProduct_imageBin, h]
  simp only [imageBin_eq_zero_iff]

theorem Paired.addSpectrum {n : Nat} {acc : Accumulators α n} (h : acc.Paired) (trial : Trial)
    (x : Vector (Sample α) n) : (acc.addSpectrum trial x).Paired := by
  intro other i
  cases trial with
  | baseline =>
    cases other with
    | baseline => exact get_addImageProducts_imageBin x (h .baseline) i
    | perturbed => exact h .perturbed i
  | perturbed =>
    cases other with
    | baseline => exact h .baseline i
    | perturbed => exact get_addImageProducts_imageBin x (h .perturbed) i

theorem Paired.accumulate {acc : Accumulators α size.bins} (h : acc.Paired)
    (tables : Tables α size) (block : Block α) (point : Correction α) (trial : Trial)
    (limit : Nat) : (acc.accumulate tables block point trial limit).2.Paired := by
  rw [accumulate_eq]
  exact List.foldlRecOn (motive := Paired) _ _ h fun acc hacc x _ => hacc.addSpectrum trial x

theorem Paired.passes {acc : Accumulators α size.bins} (h : acc.Paired) (tables : Tables α size)
    (list : List (Pass α)) : (acc.passes tables list).2.Paired := by
  induction list generalizing acc with
  | nil => exact h
  | cons p rest ih => exact ih (h.accumulate tables p.block p.point p.trial p.limit)

end Passes

/-- Every product conjugated, and every energy in the place of its image's. -/
noncomputable def conjugate {n : Nat} (acc : Accumulators ℝ n) : Accumulators ℝ n where
  baseline := acc.baseline.map Sample.conjugate
  perturbed := acc.perturbed.map Sample.conjugate
  energy := mirrored acc.energy
  windows := acc.windows

theorem empty_conjugate (n : Nat) : (empty n : Accumulators ℝ n).conjugate = empty n := by
  have henergy : mirrored (Vector.replicate n (0 : ℝ)) = Vector.replicate n 0 := by
    apply Vector.ext_get
    intro i
    rw [get_mirrored]
    simp [Vector.get_eq_getElem]
  simp [conjugate, empty, henergy]

theorem get_products_conjugate {n : Nat} (acc : Accumulators ℝ n) (trial : Trial) (i : Fin n) :
    (acc.conjugate.products trial).get i = ((acc.products trial).get i).conjugate := by
  cases trial <;> simp [conjugate, products, Vector.get_eq_getElem]

theorem addSpectrum_conjugate {n : Nat} (acc : Accumulators ℝ n) (trial : Trial)
    (x : Vector (Sample ℝ) n) :
    acc.conjugate.addSpectrum trial (conjugateSpectrum x) =
      (acc.addSpectrum trial x).conjugate := by
  cases trial with
  | baseline => simp only [addSpectrum, conjugate, addImageProducts_conjugate, addEnergy_conjugate]
  | perturbed => simp only [addSpectrum, conjugate, addImageProducts_conjugate]

section Exact

variable {size : FftSize} (taper boost : Vector ℝ size.bins)

theorem accumulate_conjugate (acc : Accumulators ℝ size.bins) (block : Block ℝ)
    (point : Correction ℝ) (trial : Trial) (limit : Nat) :
    acc.conjugate.accumulate (Tables.exact taper boost) block.conjugate point.conjugate trial
        limit =
      ((acc.accumulate (Tables.exact taper boost) block point trial limit).1,
        (acc.accumulate (Tables.exact taper boost) block point trial limit).2.conjugate) := by
  rw [accumulate_eq, accumulate_eq, Block.size_conjugate, passSpectra_conjugate, List.foldl_map]
  refine Prod.ext rfl ?_
  refine List.foldl_hom (fun acc : Accumulators ℝ size.bins => acc.conjugate) ?_
  exact fun acc x => addSpectrum_conjugate acc trial x

theorem passes_conjugate (acc : Accumulators ℝ size.bins) (list : List (Pass ℝ)) :
    acc.conjugate.passes (Tables.exact taper boost) (list.map Pass.conjugate) =
      ((acc.passes (Tables.exact taper boost) list).1,
        (acc.passes (Tables.exact taper boost) list).2.conjugate) := by
  induction list generalizing acc with
  | nil => rfl
  | cons p rest ih =>
    rw [List.map_cons, passes, passes]
    simp only [Pass.conjugate, accumulate_conjugate, ih]

end Exact

/-! ### The utility -/

section Utility

variable {size : FftSize} (acc : Accumulators ℝ size.bins) (tables : Tables ℝ size)
  (w : Weighting ℝ) {optimalBin : Nat}

theorem counts_imageBin_eq (i : Fin size.bins) :
    w.counts size.bins (imageBin i) = w.counts size.bins i := by
  apply Bool.eq_iff_iff.mpr
  constructor
  · intro h
    have hback := w.counts_imageBin size.two_dvd_bins h
    rwa [imageBin_imageBin] at hback
  · exact w.counts_imageBin size.two_dvd_bins

/-- Seen from its image, the favoured bin's image is as far as the favoured bin from a bin, and so
is the centre. -/
theorem weightAt_conjugate (ho : optimalBin < size.bins)
    (hmirror : size.bins - optimalBin < size.bins) {i : Fin size.bins} (hi : i.val ≠ 0) :
    acc.conjugate.weightAt tables w hmirror (imageBin i) = acc.weightAt tables w ho i := by
  have himage := imageBin_val hi
  have hlt := i.isLt
  have hcentre : binDistance (imageBin i) (size.bins / 2) = binDistance i (size.bins / 2) := by
    have heven := size.two_dvd_bins
    rw [himage, binDistance, binDistance]
    omega
  have hfavoured : binDistance (imageBin i) (size.bins - optimalBin) =
      binDistance i optimalBin := by
    rw [himage, binDistance, binDistance]
    omega
  simp only [weightAt, conjugate, get_mirrored, imageBin_imageBin, hcentre, hfavoured]

/-- The utility of conjugated sums, with the image of the favoured bin favoured. -/
theorem utility_conjugate (hpaired : acc.Paired) (trial : Trial) (ho : optimalBin < size.bins)
    (hpos : 0 < optimalBin) :
    ∃ u, acc.utility tables w trial optimalBin = .ok u ∧
      acc.conjugate.utility tables w trial (size.bins - optimalBin) = .ok u.conjugate := by
  have hmirror : size.bins - optimalBin < size.bins := by omega
  obtain ⟨u, hu, hsum⟩ := acc.exists_utility tables w trial ho
  obtain ⟨u', hu', hsum'⟩ := acc.conjugate.exists_utility tables w trial hmirror
  have hinvolutive : Function.Involutive (imageBin : Fin size.bins → Fin size.bins) :=
    imageBin_imageBin
  have hconj : u' = u.conjugate := by
    -- The bins of one sum are the images of the bins of the other, in another order.
    apply Sample.toComplex_injective
    rw [hsum', Sample.toComplex_conjugate, hsum, map_sum,
      ← Equiv.sum_comp (hinvolutive.toPerm imageBin)]
    refine Finset.sum_congr rfl fun i _ => ?_
    rw [Function.Involutive.coe_toPerm, counts_imageBin_eq, get_products_conjugate, hpaired]
    split
    · rename_i hcounts
      rw [weightAt_conjugate acc tables w ho hmirror (w.ne_of_counts hcounts).1, map_mul,
        Complex.conj_ofReal, Sample.toComplex_conjugate]
    · rw [map_zero]
  exact ⟨u, hu, hconj ▸ hu'⟩

end Utility

/-- Passes over conjugated blocks, each at its point with the phase negated, take as many windows,
sum up the conjugated products in both trials, and the energies of image bins in exchange; and
with the image of the favoured bin favoured the utilities are conjugated. -/
theorem passes_of_conjugates {size : FftSize} (taper boost : Vector ℝ size.bins)
    (list : List (Pass ℝ)) (w : Weighting ℝ) :
    let tables := Tables.exact taper boost
    let plain := (empty size.bins).passes tables list
    let turned := (empty size.bins).passes tables (list.map Pass.conjugate)
    turned.1 = plain.1 ∧ turned.2.windows = plain.2.windows ∧
    (∀ (trial : Trial) (i : Nat) (h : i < size.bins),
      (turned.2.products trial)[i] = (plain.2.products trial)[i].conjugate) ∧
    (∀ (i : Nat) (hpos : 0 < i) (h : i < size.bins),
      turned.2.energy.get ⟨i, h⟩ =
        plain.2.energy.get ⟨size.bins - i, Nat.sub_lt size.bins_pos hpos⟩) ∧
    ∀ (trial : Trial) (optimalBin : Nat), 0 < optimalBin → optimalBin < size.bins →
      ∃ u, plain.2.utility tables w trial optimalBin = .ok u ∧
        turned.2.utility tables w trial (size.bins - optimalBin) = .ok u.conjugate := by
  intro tables plain turned
  have hturned : turned = (plain.1, plain.2.conjugate) := by
    have hpasses := passes_conjugate taper boost (empty size.bins) list
    rwa [empty_conjugate] at hpasses
  rw [hturned]
  refine ⟨rfl, rfl, ?_, ?_, ?_⟩
  · exact fun trial i h => get_products_conjugate plain.2 trial ⟨i, h⟩
  · intro i hpos h
    have himage : imageBin ⟨i, h⟩ = ⟨size.bins - i, Nat.sub_lt size.bins_pos hpos⟩ :=
      Fin.ext (imageBin_val hpos.ne')
    have henergy := get_mirrored plain.2.energy ⟨i, h⟩
    rwa [himage] at henergy
  · intro trial optimalBin hpos ho
    have hpaired : plain.2.Paired := (Paired.empty size.bins).passes tables list
    exact plain.2.utility_conjugate tables w hpaired trial ho hpos

/-- A tone in bin 16 of 64 with an injected imbalance, in both trials, each at a point of its own,
with the tone's bin favoured. Neither utility is real, so the conjugate is another value. -/
theorem passes_of_conjugate_tone :
    let size := FftSize.shortest
    let ones : Vector ℝ size.bins := Vector.replicate size.bins 1
    let imbalance : Correction ℝ := ⟨1 / 10, 1 / 20⟩
    let point : Correction ℝ := ⟨1 / 10, 1 / 20⟩
    let stepped : Correction ℝ := ⟨1 / 5, 1 / 20⟩
    let block := imbalance.applyBlock (toneWindow size 16).toArray
    let list : List (Pass ℝ) := [⟨block, point, .baseline, 8⟩, ⟨block, stepped, .perturbed, 8⟩]
    let plain := (empty size.bins).passes (Tables.exact ones ones) list
    let turned := (empty size.bins).passes (Tables.exact ones ones) (list.map Pass.conjugate)
    0 < 16 ∧ 16 < size.bins ∧ turned.2.energy[16] = plain.2.energy[size.bins - 16] ∧
      ∀ trial, ∃ u, u.im ≠ 0 ∧
        plain.2.utility (Tables.exact ones ones) ⟨2, 2, 1⟩ trial 16 = .ok u ∧
        turned.2.utility (Tables.exact ones ones) ⟨2, 2, 1⟩ trial (size.bins - 16) =
          .ok u.conjugate := by
  intro size ones imbalance point stepped block list plain turned
  have hlt : 16 < size.bins := by decide
  obtain ⟨-, -, -, henergy, hutility⟩ := passes_of_conjugates ones ones list ⟨2, 2, 1⟩
  refine ⟨by decide, hlt, henergy 16 (by decide) hlt, fun trial => ?_⟩
  obtain ⟨u, hu, hturned⟩ := hutility trial 16 (by decide) hlt
  refine ⟨u, ?_, hu, hturned⟩
  have hones : ∀ d : Fin size.bins, 0 < ones.get d := by
    intro d
    simp [ones, Vector.get_eq_getElem]
  have hfree : ImageFree (Tables.exact ones ones) (toneWindow size 16).toArray 8 :=
    imageFree_toneWindow (by decide)
  have hvisible : Visible (Tables.exact ones ones) ⟨2, 2, 1⟩ (toneWindow size 16).toArray 8 :=
    visible_toneWindow (i := ⟨16, by decide⟩) (by decide) (by decide)
  have hdirect : imbalance.directAfter point ≠ 0 := by
    intro h
    have him := congrArg Complex.im h
    norm_num [Correction.directAfter_eq, imbalance, point] at him
  have hgain := hfree.weightedSum_pairEnergy_pos (w := ⟨2, 2, 1⟩) imbalance point stepped hones
    one_pos hvisible (.inl hdirect) hlt
  obtain ⟨s, hs, hvalue⟩ :=
    hfree.exists_utility (w := ⟨2, 2, 1⟩) imbalance point stepped trial hlt
  rw [← passes_both_trials] at hs
  obtain rfl : s = u := Except.ok.inj (hs.symm.trans hu)
  have him := congrArg Complex.im hvalue
  rw [Complex.im_mul_ofReal] at him
  refine him.trans_ne (mul_ne_zero ?_ hgain.ne')
  cases trial with
  | baseline =>
    norm_num [Correction.directAfter_eq, Correction.imageAfter_eq, imbalance, point]
  | perturbed =>
    norm_num [Correction.directAfter_eq, Correction.imageAfter_eq, imbalance, stepped]

end Accumulators

end IqBalance
