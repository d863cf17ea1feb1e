import Mathlib
import IqBalance.Proofs.ExactArithmetic
import IqBalance.Proofs.Spectrum.InPlace

/-!
The centred transform over exact arithmetic is the discrete Fourier transform
with the centre of the band in the middle bin.

* `fourierSum` is the transform of a sequence by its defining sum. It splits by
  even and odd places (`fourierSum_mul_two`), goes round after its length, and
  turns round under conjugation (`conj_fourierSum`).
* `AfterStages x s` is what the butterflies keep: after `s` stages each block of
  `2 ^ s` cells holds the Fourier sums of the samples that bit reversal brought
  there. It holds before the first stage (`afterStages_bitReverse`), every stage
  takes it one further (`AfterStages.stage`), and after the last one the only
  block is the whole vector.
-/

namespace IqBalance.Spectrum

open Complex (I)
open scoped Real ComplexConjugate

/-! ### Roots of unity -/

theorem unitRoot_add (n j k : Nat) : unitRoot n (j + k) = unitRoot n j * unitRoot n k := by
  rw [unitRoot, unitRoot, unitRoot, ← Complex.exp_add]
  push_cast
  ring_nf

@[simp] theorem unitRoot_zero (n : Nat) : unitRoot n 0 = 1 := by simp [unitRoot]

theorem unitRoot_mul_left {c : Nat} (hc : 0 < c) (n k : Nat) :
    unitRoot (c * n) (c * k) = unitRoot n k := by
  have hc' : (c : ℂ) ≠ 0 := by exact_mod_cast hc.ne'
  have h : 2 * π * I * ((c * k : Nat) : ℂ) / ((c * n : Nat) : ℂ) = 2 * π * I * k / n := by
    push_cast
    rw [mul_left_comm, mul_div_mul_left _ _ hc']
  rw [unitRoot, unitRoot, h]

theorem unitRoot_length_mul (n k : Nat) : unitRoot n (n * k) = 1 := by
  rcases Nat.eq_zero_or_pos n with rfl | hn
  · simp [unitRoot]
  · have hk := unitRoot_mul_left hn 1 k
    rw [mul_one] at hk
    rw [hk, unitRoot, Complex.exp_neg, inv_eq_one, ← Complex.exp_nat_mul_two_pi_mul_I k]
    congr 1
    push_cast
    ring

theorem unitRoot_half {n : Nat} (hn : 0 < n) : unitRoot (n * 2) n = -1 := by
  have h := unitRoot_mul_left hn 2 1
  rw [mul_one] at h
  rw [h, unitRoot]
  have harg : -(2 * π * I * ((1 : Nat) : ℂ) / ((2 : Nat) : ℂ)) = -(π * I) := by
    push_cast
    ring
  rw [harg, Complex.exp_neg, Complex.exp_pi_mul_I]
  norm_num

theorem conj_unitRoot {n j k : Nat} (h : n ∣ j + k) : conj (unitRoot n j) = unitRoot n k := by
  obtain ⟨q, hq⟩ := h
  have hmul : unitRoot n j * unitRoot n k = 1 := by
    rw [← unitRoot_add, hq, unitRoot_length_mul]
  have hnorm : ‖unitRoot n j‖ = 1 := by
    have hangle : -(2 * π * I * j / n) = ((-(2 * π * j / n) : ℝ) : ℂ) * I := by
      push_cast
      ring
    rw [unitRoot, hangle, Complex.norm_exp_ofReal_mul_I]
  rw [← Complex.inv_eq_conj hnorm]
  exact inv_eq_of_mul_eq_one_right hmul

/-! ### Fourier sums -/

/-- The Fourier sum of `n` values at frequency `k`. -/
noncomputable def fourierSum (n : Nat) (f : Nat → ℂ) (k : Nat) : ℂ :=
  ∑ t ∈ Finset.range n, f t * unitRoot n (k * t)

theorem sum_range_mul_two (n : Nat) (g : Nat → ℂ) :
    ∑ t ∈ Finset.range (n * 2), g t = ∑ t ∈ Finset.range n, (g (2 * t) + g (2 * t + 1)) := by
  induction n with
  | zero => simp
  | succ n ih =>
    rw [Nat.succ_mul, Finset.sum_range_succ, Finset.sum_range_succ, ih, Finset.sum_range_succ,
      Nat.mul_comm n 2, add_assoc]

/-- A sum of twice the length splits into those of the values at even and at odd places. -/
theorem fourierSum_mul_two (n : Nat) (f : Nat → ℂ) (k : Nat) :
    fourierSum (n * 2) f k =
      fourierSum n (fun t => f (2 * t)) k +
        unitRoot (n * 2) k * fourierSum n (fun t => f (2 * t + 1)) k := by
  have heven : ∀ t, unitRoot (n * 2) (k * (2 * t)) = unitRoot n (k * t) := by
    intro t
    rw [Nat.mul_comm n, Nat.mul_left_comm, unitRoot_mul_left (by decide)]
  unfold fourierSum
  rw [sum_range_mul_two, Finset.sum_add_distrib, Finset.mul_sum]
  congr 1
  · exact Finset.sum_congr rfl fun t _ => by rw [heven]
  · refine Finset.sum_congr rfl fun t _ => ?_
    rw [Nat.mul_add, unitRoot_add, heven, Nat.mul_one]
    ring

theorem fourierSum_add_length (n : Nat) (f : Nat → ℂ) (k : Nat) :
    fourierSum n f (k + n) = fourierSum n f k := by
  refine Finset.sum_congr rfl fun t _ => ?_
  rw [Nat.add_mul, unitRoot_add, unitRoot_length_mul, mul_one]

/-- Conjugating the values conjugates the sum and turns the frequency round. -/
theorem conj_fourierSum {n j k : Nat} (h : n ∣ j + k) (f : Nat → ℂ) :
    conj (fourierSum n f j) = fourierSum n (fun t => conj (f t)) k := by
  rw [fourierSum, map_sum]
  refine Finset.sum_congr rfl fun t _ => ?_
  rw [map_mul, conj_unitRoot (j := j * t) (k := k * t)]
  rw [← Nat.add_mul]
  exact Dvd.dvd.mul_right h t

/-! ### The stages -/

variable {m : Nat}

/-- A vector as a signal that is silent beyond its end. -/
def signal {n : Nat} (x : Vector (Sample ℝ) n) (t : Nat) : ℂ :=
  if h : t < n then (x[t]).toComplex else 0

theorem signal_of_lt {n : Nat} (x : Vector (Sample ℝ) n) {t : Nat} (h : t < n) :
    signal x t = (x[t]).toComplex :=
  dif_pos h

/-- The values that block `q` transforms after `s` stages: every `2 ^ (m - s)`-th sample, from the
reversal of `q` on. -/
def decimated (x : Vector (Sample ℝ) (2 ^ m)) (s q t : Nat) : ℂ :=
  signal x (t * 2 ^ (m - s) + reverseBits (m - s) q)

theorem decimated_even (x : Vector (Sample ℝ) (2 ^ m)) {s : Nat} (hs : s < m) (q t : Nat) :
    decimated x (s + 1) q (2 * t) = decimated x s (2 * q) t := by
  have hsplit : m - s = m - (s + 1) + 1 := by omega
  rw [decimated, decimated, hsplit, reverseBits, Nat.pow_succ]
  congr 1
  have hdiv : 2 * q / 2 = q := by omega
  have hmod : 2 * q % 2 = 0 := by omega
  rw [hdiv, hmod]
  ring

theorem decimated_odd (x : Vector (Sample ℝ) (2 ^ m)) {s : Nat} (hs : s < m) (q t : Nat) :
    decimated x (s + 1) q (2 * t + 1) = decimated x s (2 * q + 1) t := by
  have hsplit : m - s = m - (s + 1) + 1 := by omega
  rw [decimated, decimated, hsplit, reverseBits, Nat.pow_succ]
  congr 1
  have hdiv : (2 * q + 1) / 2 = q := by omega
  have hmod : (2 * q + 1) % 2 = 1 := by omega
  rw [hdiv, hmod]
  ring

/-- After `s` stages each block of `2 ^ s` cells holds the Fourier sums of its decimated samples. -/
def AfterStages (x : Vector (Sample ℝ) (2 ^ m)) (s : Nat) (v : Vector (Sample ℝ) (2 ^ m)) : Prop :=
  ∀ q k, k < 2 ^ s → ∀ h : q * 2 ^ s + k < 2 ^ m,
    (v[q * 2 ^ s + k]).toComplex = fourierSum (2 ^ s) (decimated x s q) k

theorem afterStages_bitReverse (x : Vector (Sample ℝ) (2 ^ m)) :
    AfterStages x 0 (bitReverse x) := by
  intro q k hk h
  obtain rfl : k = 0 := by omega
  have hq : q < 2 ^ m := by omega
  have hcell := get_bitReverse x ⟨q, hq⟩
  simp only [Vector.get_eq_getElem, reversal_val] at hcell
  simp [fourierSum, decimated, signal_of_lt x (reverseBits_lt m q), hcell]

theorem exactTwiddles_get {s k : Nat} (hs : s < m) (hk : k < 2 ^ s) :
    ((exactTwiddles m).get ⟨k * 2 ^ (m - s - 1), twiddle_index_lt hs hk⟩).toComplex =
      unitRoot (2 ^ s * 2) k := by
  have hlen : 2 ^ m = 2 ^ (m - s - 1) * (2 ^ s * 2) := by
    rw [← Nat.pow_succ, ← Nat.pow_add]
    congr 1
    omega
  have hget : (exactTwiddles m).get ⟨k * 2 ^ (m - s - 1), twiddle_index_lt hs hk⟩ =
      twiddleAt (2 ^ m) (k * 2 ^ (m - s - 1)) := by
    rw [exactTwiddles]
    exact Vector.getElem_ofFn _
  rw [hget, toComplex_twiddleAt, Nat.mul_comm k, hlen, unitRoot_mul_left (Nat.two_pow_pos _)]

/-- Before a stage, the two ends of a butterfly hold the sums of the even and of the odd samples of
the block that it makes. -/
theorem AfterStages.butterfly_ends {x v : Vector (Sample ℝ) (2 ^ m)} {s : Nat} (hs : s < m)
    (h : AfterStages x s v) {q j : Nat} (hq : q < 2 ^ (m - s - 1)) (hj : j < 2 ^ s) :
    (v.get (topCell hs hq hj)).toComplex =
        fourierSum (2 ^ s) (fun t => decimated x (s + 1) q (2 * t)) j ∧
      (v.get (bottomCell hs hq hj)).toComplex =
        fourierSum (2 ^ s) (fun t => decimated x (s + 1) q (2 * t + 1)) j := by
  have heven : 2 * q * 2 ^ s = q * 2 ^ (s + 1) := by
    rw [Nat.pow_succ]
    ring
  have hodd : (2 * q + 1) * 2 ^ s + j = q * 2 ^ (s + 1) + j + 2 ^ s := by
    rw [← heven]
    ring
  have htop := h (2 * q) j hj (by rw [heven]; exact top_lt hs hq hj)
  have hbottom := h (2 * q + 1) j hj (by rw [hodd]; exact bottom_lt hs hq hj)
  simp only [heven, hodd] at htop hbottom
  simp only [topCell, bottomCell, Vector.get_eq_getElem]
  rw [htop, hbottom]
  constructor
  · exact congrArg (fourierSum _ · j) (funext fun t => (decimated_even x hs q t).symm)
  · exact congrArg (fourierSum _ · j) (funext fun t => (decimated_odd x hs q t).symm)

theorem AfterStages.stage {x v : Vector (Sample ℝ) (2 ^ m)} {s : Nat} (hs : s < m)
    (h : AfterStages x s v) : AfterStages x (s + 1) (stage (exactTwiddles m) s hs v) := by
  intro q k hk hcell
  have hspan : 2 ^ (s + 1) = 2 ^ s * 2 := Nat.pow_succ ..
  have hq : q < 2 ^ (m - s - 1) := by
    have hlen : 2 ^ m = 2 ^ (m - s - 1) * 2 ^ (s + 1) := by
      rw [← Nat.pow_add]
      congr 1
      omega
    rw [hlen] at hcell
    exact Nat.lt_of_mul_lt_mul_right (Nat.lt_of_le_of_lt (Nat.le_add_right _ k) hcell)
  have hsum : fourierSum (2 ^ (s + 1)) (decimated x (s + 1) q) k =
      fourierSum (2 ^ s * 2) (decimated x (s + 1) q) k := by rw [hspan]
  rw [hsum, fourierSum_mul_two]
  rcases Nat.lt_or_ge k (2 ^ s) with hlow | hhigh
  · obtain ⟨htop, hbottom⟩ := h.butterfly_ends hs hq hlow
    have hend := congrArg Sample.toComplex (get_stage_top (exactTwiddles m) hs hq hlow v)
    rw [Sample.toComplex_add, Sample.toComplex_mul, exactTwiddles_get hs hlow, htop, hbottom]
      at hend
    exact hend
  · -- In the lower half the frequency has gone round once, and half a turn changes the sign.
    obtain ⟨j, rfl⟩ := Nat.exists_eq_add_of_le' hhigh
    have hj : j < 2 ^ s := by omega
    obtain ⟨htop, hbottom⟩ := h.butterfly_ends hs hq hj
    have hend := congrArg Sample.toComplex (get_stage_bottom (exactTwiddles m) hs hq hj v)
    rw [Sample.toComplex_sub, Sample.toComplex_mul, exactTwiddles_get hs hj, htop, hbottom]
      at hend
    simp only [← Nat.add_assoc]
    rw [fourierSum_add_length, fourierSum_add_length, unitRoot_add,
      unitRoot_half (Nat.two_pow_pos s)]
    refine hend.trans ?_
    ring

/-- The stages together leave the Fourier sums of the whole vector. -/
theorem toComplex_butterflies_bitReverse (x : Vector (Sample ℝ) (2 ^ m)) (k : Fin (2 ^ m)) :
    ((butterflies (exactTwiddles m) (bitReverse x)).get k).toComplex =
      fourierSum (2 ^ m) (signal x) k := by
  have hrun : ∀ n (hn : n ≤ m), AfterStages x n
      (Nat.fold n (fun s hs v => stage (exactTwiddles m) s (by omega) v) (bitReverse x)) := by
    intro n hn
    induction n with
    | zero =>
      rw [Nat.fold_zero]
      exact afterStages_bitReverse x
    | succ n ih =>
      rw [Nat.fold_succ]
      exact (ih (by omega)).stage (by omega)
  have hwhole : decimated x m 0 = signal x := by
    funext t
    simp [decimated, reverseBits]
  have hcell := hrun m (Nat.le_refl m) 0 k k.isLt (by simp)
  simpa [hwhole, butterflies, Vector.get_eq_getElem] using hcell

/-- The centred transform holds the Fourier sum of frequency `k - 2 ^ m / 2`, taken round the
circle, in bin `k`. -/
theorem toComplex_transform (x : Vector (Sample ℝ) (2 ^ m)) (k : Fin (2 ^ m)) :
    ((transform (exactTwiddles m) x).get k).toComplex =
      fourierSum (2 ^ m) (signal x) ((k + 2 ^ m / 2) % 2 ^ m) := by
  have hlt : (k.val + 2 ^ m / 2) % 2 ^ m < 2 ^ m := Nat.mod_lt _ (Nat.two_pow_pos m)
  rw [← toComplex_butterflies_bitReverse x ⟨_, hlt⟩]
  rw [transform, swapHalves, Vector.get_eq_getElem, Vector.getElem_ofFn]

/-- With the roots of unity that the formula tabulates, bit reversal, butterflies and exchange of
halves together are the discrete Fourier transform with frequency zero in the middle bin. -/
theorem transform_eq_centred_dft (m : Nat) :
    (∀ k : Fin (2 ^ (m - 1)),
      ((exactTwiddles m).get k).toComplex = Complex.exp (-(2 * π * I * k / (2 ^ m : Nat)))) ∧
    ∀ (x : Vector (Sample ℝ) (2 ^ m)) (k : Fin (2 ^ m)),
      ((transform (exactTwiddles m) x).get k).toComplex =
        ∑ t : Fin (2 ^ m), (x.get t).toComplex *
          Complex.exp (-(2 * π * I * ((k + 2 ^ m / 2) % 2 ^ m : Nat) * t / (2 ^ m : Nat))) := by
  constructor
  · intro k
    rw [exactTwiddles, Vector.get_eq_getElem, Vector.getElem_ofFn, toComplex_twiddleAt, unitRoot]
  · intro x k
    rw [toComplex_transform, fourierSum, Finset.sum_range]
    refine Finset.sum_congr rfl fun t _ => ?_
    rw [signal_of_lt x t.isLt, unitRoot, Nat.cast_mul, ← mul_assoc]
    rfl

end IqBalance.Spectrum
