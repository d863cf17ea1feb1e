import Mathlib
import IqBalance.Proofs.Correlation.Windows
import IqBalance.Proofs.Spectrum.Fourier

/-!
Tones, over exact arithmetic: the inputs whose spectrum is known.

A tone that turns a whole number of times in a window meets one frequency and no
other (`Spectrum.fourierSum_unitRoot`). A block of the length of a window has
one window, itself (`windows_toneWindow`), so under a flat taper a pass over a
tone sees one bin (`toComplex_spectrum_toneWindow`).
-/

namespace IqBalance

open Complex (I)
open scoped Real

/-! ### Sums of unit roots -/

namespace Spectrum

theorem unitRoot_mul (n k t : Nat) : unitRoot n (k * t) = unitRoot n k ^ t := by
  induction t with
  | zero => simp
  | succ t ih => rw [Nat.mul_succ, unitRoot_add, ih, pow_succ]

theorem unitRoot_eq_one_iff {n : Nat} (hn : n ≠ 0) (k : Nat) : unitRoot n k = 1 ↔ n ∣ k := by
  have hpow : unitRoot n k = (Complex.exp (2 * π * I / n) ^ k)⁻¹ := by
    rw [unitRoot, Complex.exp_neg, ← Complex.exp_nat_mul]
    congr 2
    ring
  rw [hpow, inv_eq_one, (Complex.isPrimitiveRoot_exp n hn).pow_eq_one_iff_dvd]

/-- A tone that turns `m` times meets only the frequency that turns it back. -/
theorem fourierSum_unitRoot {n : Nat} (hn : n ≠ 0) (m k : Nat) :
    fourierSum n (fun t => unitRoot n (m * t)) k = if n ∣ m + k then (n : ℂ) else 0 := by
  have hsum : fourierSum n (fun t => unitRoot n (m * t)) k =
      ∑ t ∈ Finset.range n, unitRoot n (m + k) ^ t := by
    refine Finset.sum_congr rfl fun t _ => ?_
    rw [← unitRoot_mul, Nat.add_mul, unitRoot_add]
  rw [hsum]
  split
  · rename_i h
    rw [(unitRoot_eq_one_iff hn _).mpr h]
    simp
  · rename_i h
    have hne : unitRoot n (m + k) - 1 ≠ 0 := by
      rw [sub_ne_zero]
      exact fun hone => h ((unitRoot_eq_one_iff hn _).mp hone)
    have hmul := geom_sum_mul (unitRoot n (m + k)) n
    rw [← unitRoot_mul, Nat.mul_comm, unitRoot_length_mul, sub_self] at hmul
    exact (mul_eq_zero.mp hmul).resolve_right hne

end Spectrum

/-! ### Windows -/

variable {size : FftSize}

theorem toComplex_spectrum (taper boost : Vector ℝ size.bins)
    (window : Vector (Sample ℝ) size.bins) (i : Fin size.bins) :
    (((Tables.exact taper boost).spectrum window).get i).toComplex =
      Spectrum.fourierSum size.bins
        (Spectrum.signal ((Tables.exact taper boost).applyTaper window))
        ((i + size.bins / 2) % size.bins) :=
  Spectrum.toComplex_transform (m := size.log2) _ i

/-- One window of a tone that turns `m` times in it. -/
noncomputable def toneWindow (size : FftSize) (m : Nat) : Vector (Sample ℝ) size.bins :=
  Vector.ofFn fun t => Spectrum.twiddleAt size.bins (m * t)

theorem windows_toneWindow (m limit : Nat) :
    Block.windows (toneWindow size m).toArray size.bins (limit + 1) = [toneWindow size m] := by
  have hbins := size.le_bins
  have hsecond : ¬ 0 + size.bins / 2 + size.bins ≤ (toneWindow size m).toArray.size := by
    rw [Vector.size_toArray]
    omega
  rw [Block.windows_eq_windowsFrom _ (by omega), Block.windowsFrom,
    dif_pos (by rw [Vector.size_toArray]; omega)]
  congr 1
  · ext i hi <;> simp [Block.window, toneWindow]
  · cases limit with
    | zero => rfl
    | succ limit => rw [Block.windowsFrom, dif_neg hsecond]

/-- A tone under a flat taper has one bin. -/
theorem toComplex_spectrum_toneWindow (boost : Vector ℝ size.bins) (m : Nat)
    (i : Fin size.bins) :
    (((Tables.exact (Vector.replicate size.bins 1) boost).spectrum
        (toneWindow size m)).get i).toComplex =
      if size.bins ∣ m + (i + size.bins / 2) % size.bins then (size.bins : ℂ) else 0 := by
  have hbins := size.le_bins
  rw [toComplex_spectrum, ← Spectrum.fourierSum_unitRoot (by omega)]
  refine Finset.sum_congr rfl fun t ht => ?_
  rw [Spectrum.signal_of_lt _ (Finset.mem_range.mp ht)]
  simp [Tables.applyTaper, Tables.exact, toneWindow, Spectrum.toComplex_twiddleAt,
    Spectrum.unitRoot]

end IqBalance
