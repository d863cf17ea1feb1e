import Mathlib
import IqBalance.Proofs.Counters
import IqBalance.Proofs.Correlation.Conjugation

/-!
The bookkeeping of an estimator pass, and of any mix of passes and resets, in
whatever arithmetic.

A pass is a fold over `passSpectra`; read at one bin, it is a fold over the
counted windows (`get_products_accumulate`, `get_energy_accumulate`), so no
window and no bin is added twice or missed; `products_accumulate_of_ne` and
`energy_accumulate_perturbed` say what it leaves alone. Of a sequence of
passes and resets `Folded` is the invariant: bins and their images hold
identical sums, and bin 0 holds nothing.
-/

namespace IqBalance.Accumulators

variable {α : Type} [Scalar α] {size : FftSize}

/-! ### The windows of a pass -/

section Pass

variable (tables : Tables α size) (block : Block α) (point : Correction α) (limit : Nat)

/-- The spectrum of a counted window of a pass. -/
def countedSpectrum (w : Fin (windowCount size.bins block.size limit)) :
    Vector (Sample α) size.bins :=
  windowSpectrum tables block point (w * (size.bins / 2)) (offset_add_le w.isLt)

theorem passSpectra_eq_ofFn :
    passSpectra tables block point limit =
      List.ofFn (countedSpectrum tables block point limit) := by
  rw [passSpectra, Block.windows, List.map_ofFn]
  rfl

/-- A fold over the spectra of a pass runs over its counted windows. -/
theorem foldl_passSpectra {β : Type} (f : β → Vector (Sample α) size.bins → β) (start : β) :
    (passSpectra tables block point limit).foldl f start =
      Fin.foldl (windowCount size.bins block.size limit)
        (fun sum w => f sum (countedSpectrum tables block point limit w)) start := by
  rw [passSpectra_eq_ofFn, List.ofFn_eq_map, List.foldl_map, Fin.foldl_eq_foldl_finRange]

variable (acc : Accumulators α size.bins)

/-- A pass adds the image product of a bin once for each window, to its own trial. -/
theorem get_products_accumulate (trial : Trial) (i : Fin size.bins) :
    ((acc.accumulate tables block point trial limit).2.products trial).get i =
      if i.val = 0 then (acc.products trial).get i
      else Fin.foldl (windowCount size.bins block.size limit)
        (fun sum w => sum + imageProduct (countedSpectrum tables block point limit w) i)
        ((acc.products trial).get i) := by
  rw [accumulate_eq,
    ← foldl_passSpectra tables block point limit fun sum x => sum + imageProduct x i]
  cases trial with
  | baseline =>
    rw [foldl_addSpectrum_baseline]
    exact get_foldl_addImageProducts _ _ i
  | perturbed =>
    rw [foldl_addSpectrum_perturbed]
    exact get_foldl_addImageProducts _ _ i

/-- A baseline pass adds the energy of a bin once for each window. -/
theorem get_energy_accumulate (i : Fin size.bins) :
    (acc.accumulate tables block point .baseline limit).2.energy.get i =
      Fin.foldl (windowCount size.bins block.size limit)
        (fun sum w => sum + ((countedSpectrum tables block point limit w).get i).normSq)
        (acc.energy.get i) := by
  rw [accumulate_eq, ← foldl_passSpectra tables block point limit fun sum x =>
    sum + (x.get i).normSq, foldl_addSpectrum_baseline]
  exact get_foldl_addEnergy _ _ i

/-- A pass leaves the products of the other trial alone. -/
theorem products_accumulate_of_ne (trial other : Trial) (h : other ≠ trial) :
    (acc.accumulate tables block point trial limit).2.products other = acc.products other := by
  rw [accumulate_eq]
  cases trial with
  | baseline =>
    rw [foldl_addSpectrum_baseline]
    cases other with
    | baseline => exact absurd rfl h
    | perturbed => rfl
  | perturbed =>
    rw [foldl_addSpectrum_perturbed]
    cases other with
    | baseline => rfl
    | perturbed => exact absurd rfl h

/-- A perturbed pass leaves the energies alone. -/
theorem energy_accumulate_perturbed :
    (acc.accumulate tables block point .perturbed limit).2.energy = acc.energy := by
  rw [accumulate_eq, foldl_addSpectrum_perturbed]

end Pass

/-- The image of bin `s` is bin `n - s`. -/
theorem imageBin_mk {n s : Nat} (hpos : 0 < s) (hs : s < n) :
    imageBin ⟨s, hs⟩ = ⟨n - s, Nat.sub_lt (hpos.trans hs) hpos⟩ :=
  Fin.ext (imageBin_val hpos.ne')

theorem low_of_pair_lt {n s : Nat} (hs : s < n) : min s (n - s) < n :=
  (Nat.min_le_left s (n - s)).trans_lt hs

theorem high_of_pair_lt {n s : Nat} (hpos : 0 < s) (hs : s < n) : max s (n - s) < n :=
  max_lt hs (Nat.sub_lt (hpos.trans hs) hpos)

/-- The lower bin of a pair stands first in its product. -/
theorem imageProduct_eq_min_mul_max (x : Vector (Sample α) size.bins) {s : Nat} (hpos : 0 < s)
    (hs : s < size.bins) :
    imageProduct x ⟨s, hs⟩ =
      x.get ⟨min s (size.bins - s), low_of_pair_lt hs⟩ *
        x.get ⟨max s (size.bins - s), high_of_pair_lt hpos hs⟩ := by
  simp only [imageProduct, imageBin_mk hpos hs]
  split
  · rename_i hle
    simp only [min_eq_left hle, max_eq_right hle]
  · rename_i hlt
    simp only [min_eq_right (Nat.le_of_not_le hlt), max_eq_left (Nat.le_of_not_le hlt)]

/-! ### Passes and resets -/

/-- What an estimator is asked to do with its sums. -/
inductive Operation (α : Type) where
  /-- Forget all sums. -/
  | reset
  /-- Add a pass. -/
  | pass (p : Pass α)

/-- The sums after one operation. -/
def operate (tables : Tables α size) (acc : Accumulators α size.bins) :
    Operation α → Accumulators α size.bins
  | .reset => empty size.bins
  | .pass p => (acc.accumulate tables p.block p.point p.trial p.limit).2

/-- The sums of a new estimator after operations in order. -/
def operated (tables : Tables α size) (operations : List (Operation α)) :
    Accumulators α size.bins :=
  operations.foldl (operate tables) (empty size.bins)

/-- Bins and their images hold the same sums of products, and bin 0 holds none. -/
structure Folded (acc : Accumulators α size.bins) : Prop where
  paired : acc.Paired
  origin : ∀ trial, (acc.products trial).get ⟨0, size.bins_pos⟩ = 0

theorem Folded.empty : (empty size.bins : Accumulators α size.bins).Folded where
  paired := Paired.empty size.bins
  origin trial := by
    cases trial <;> simp [Accumulators.empty, products, Vector.get_eq_getElem]

theorem Folded.operate {acc : Accumulators α size.bins} (h : acc.Folded) (tables : Tables α size)
    (operation : Operation α) : (acc.operate tables operation).Folded := by
  cases operation with
  | reset => exact Folded.empty
  | pass p =>
    refine ⟨h.paired.accumulate tables p.block p.point p.trial p.limit, fun trial => ?_⟩
    -- The trial of the pass gains nothing in bin 0, and the other trial nothing at all.
    by_cases htrial : trial = p.trial
    · subst htrial
      rw [Accumulators.operate, get_products_accumulate, if_pos rfl, h.origin]
    · rw [Accumulators.operate, products_accumulate_of_ne _ _ _ _ _ _ _ htrial, h.origin]

theorem folded_operated (tables : Tables α size) (operations : List (Operation α)) :
    (operated tables operations).Folded :=
  List.foldlRecOn _ _ Folded.empty fun _ hacc operation _ => hacc.operate tables operation

/-- A pass takes every window that fits, half a window apart, up to its limit; to each bin but
bin 0 of its trial it adds, once for each window and in order, the product of the bin and its
image, lower bin first, a baseline pass the energy of each bin as well; and nothing else changes.
So after any passes and resets a bin and its image hold the same sums, and bin 0 holds zero. -/
theorem accumulate_adds_each_pair_once (tables : Tables α size) :
    (∀ (acc : Accumulators α size.bins) (block : Block α) (point : Correction α) (trial : Trial)
        (limit : Nat),
      let n := size.bins
      let taken := min limit (if block.size < n then 0 else 1 + (block.size - n) / (n / 2))
      let after := (acc.accumulate tables block point trial limit).2
      (acc.accumulate tables block point trial limit).1 = taken ∧
      ∃ fits : ∀ w : Fin taken, w * (n / 2) + n ≤ block.size,
        let X := fun w : Fin taken =>
          windowSpectrum tables block point (w * (n / 2)) (fits w)
        (∀ s (hpos : 0 < s) (hs : s < n),
          (after.products trial).get ⟨s, hs⟩ =
            Fin.foldl taken (fun sum w =>
                sum + (X w).get ⟨min s (n - s), low_of_pair_lt hs⟩ *
                  (X w).get ⟨max s (n - s), high_of_pair_lt hpos hs⟩)
              ((acc.products trial).get ⟨s, hs⟩)) ∧
        (after.products trial).get ⟨0, size.bins_pos⟩ =
          (acc.products trial).get ⟨0, size.bins_pos⟩ ∧
        match trial with
        | .baseline =>
          (∀ s : Fin n, after.energy.get s =
            Fin.foldl taken (fun sum w => sum + ((X w).get s).normSq) (acc.energy.get s)) ∧
          after.windows = acc.windows + taken ∧ after.perturbed = acc.perturbed
        | .perturbed =>
          after.baseline = acc.baseline ∧ after.energy = acc.energy ∧
            after.windows = acc.windows) ∧
    ∀ (operations : List (Operation α)) (trial : Trial),
      let sums := (operated tables operations).products trial
      (∀ i (hpos : 0 < i) (hi : i < size.bins),
        sums.get ⟨i, hi⟩ = sums.get ⟨size.bins - i, Nat.sub_lt size.bins_pos hpos⟩) ∧
        sums.get ⟨0, size.bins_pos⟩ = 0 := by
  constructor
  · intro acc block point trial limit n taken after
    refine ⟨by rw [accumulate_eq]; rfl, fun w => offset_add_le w.isLt, ?_, ?_, ?_⟩
    · intro s hpos hs
      have hsum := get_products_accumulate tables block point limit acc trial ⟨s, hs⟩
      rw [if_neg hpos.ne'] at hsum
      simp only [imageProduct_eq_min_mul_max _ hpos hs] at hsum
      exact hsum
    · have hsum := get_products_accumulate tables block point limit acc trial ⟨0, size.bins_pos⟩
      rwa [if_pos rfl] at hsum
    · cases trial with
      | baseline =>
        exact ⟨get_energy_accumulate tables block point limit acc,
          windows_accumulate_baseline acc limit,
          products_accumulate_of_ne tables block point limit acc .baseline .perturbed (by decide)⟩
      | perturbed =>
        exact ⟨products_accumulate_of_ne tables block point limit acc .perturbed .baseline
          (by decide), energy_accumulate_perturbed tables block point limit acc,
          windows_accumulate_perturbed acc limit⟩
  · intro operations trial sums
    obtain ⟨hpaired, horigin⟩ := folded_operated tables operations
    refine ⟨fun i hpos hi => ?_, horigin trial⟩
    have hpair := hpaired trial ⟨i, hi⟩
    rw [imageBin_mk hpos hi] at hpair
    exact hpair.symm

/-- A block of 200 samples holds five windows of 64, of which bin 48 gains five products and its
image as many; a reset in between forgets them. -/
theorem accumulate_adds_five_windows :
    let size := FftSize.shortest
    let tables : Tables ℝ size :=
      Tables.exact (Vector.replicate size.bins 1) (Vector.replicate size.bins 1)
    let block : Block ℝ := Array.replicate 200 ⟨3, 4⟩
    let point : Correction ℝ := ⟨1 / 10, 1 / 20⟩
    let pass := (empty size.bins).accumulate tables block point .baseline 8
    let taken := windowCount size.bins block.size 8
    let low : Fin size.bins := ⟨16, by decide⟩
    let high : Fin size.bins := ⟨48, by decide⟩
    let sums := operated tables [.pass ⟨block, point, .baseline, 8⟩, .reset,
      .pass ⟨block, point, .perturbed, 2⟩]
    0 < high.val ∧ high.val < size.bins ∧ taken = 5 ∧ pass.1 = taken ∧
    (∃ fits : ∀ w : Fin taken, w * (size.bins / 2) + size.bins ≤ block.size,
      let X := fun w : Fin taken =>
        windowSpectrum tables block point (w * (size.bins / 2)) (fits w)
      pass.2.baseline.get high =
        Fin.foldl taken (fun sum w => sum + (X w).get low * (X w).get high) 0 ∧
      pass.2.energy.get high =
        Fin.foldl taken (fun sum w => sum + ((X w).get high).normSq) 0) ∧
    sums.perturbed.get high = sums.perturbed.get low := by
  intro size tables block point pass taken low high sums
  obtain ⟨hpass, hsums⟩ := accumulate_adds_each_pair_once tables
  have hcount : taken = 5 := by
    simp only [taken, block, Array.size_replicate]
    decide
  -- From here on only the number of windows matters, not the samples.
  clear_value block
  obtain ⟨htaken, fits, hproducts, -, henergy, -, -⟩ :=
    hpass (empty size.bins) block point .baseline 8
  have hproductsZero : ((empty size.bins : Accumulators ℝ size.bins).products .baseline).get high =
      0 := by simp [empty, products, Vector.get_eq_getElem]
  have henergyZero : (empty size.bins : Accumulators ℝ size.bins).energy.get high = 0 := by
    simp [empty, Vector.get_eq_getElem]
  have hpos : 0 < high.val := by decide
  refine ⟨hpos, high.isLt, hcount, htaken, ⟨fits, ?_, ?_⟩, ?_⟩
  · rw [← hproductsZero]
    exact hproducts 48 hpos high.isLt
  · rw [← henergyZero]
    exact henergy high
  · exact (hsums _ .perturbed).1 48 hpos high.isLt

end IqBalance.Accumulators
