import Mathlib
import IqBalance.Proofs.ExactArithmetic

/-!
The shapes of the taper and of the boost, over exact arithmetic.

The taper is an alternating sum of seven cosines, and at the edge these cancel
down to six parts in a hundred million, so its sign cannot be read off the
coefficients. Written in the square of the sine of half the angle, by
Chebyshev's polynomials, it can: all coefficients of `taperSeries` are positive
(`taperAt_eq_taperSeries`). So the taper is positive and rises with that square
(`taperSeries_strictMonoOn`), it stays below one because it is below one where
the square is one, and it is symmetric because the sine is (`taperAt_reflect`).

The boost is its floor and a bell in the distance (`boostAt_eq`), so no weight
is zero for it (`Tables.boost_build_pos`).
-/

namespace IqBalance

namespace Spectrum

open Polynomial.Chebyshev (T T_add_two T_real_cos)

/-! ### The taper as a series of positive terms -/

/-- Half the angle at which the cosines of sample `i` in a window of `n` are taken. -/
noncomputable def halfAngle (n i : ℕ) : ℝ := Real.pi * i / (n - 1 : ℕ)

theorem taperAt_eq_sum (n i : ℕ) :
    taperAt n i = (([0.27105140069342, -0.43329793923448, 0.21812299954311, -0.06592544638803,
      0.01081174209837, -0.00077658482522, 0.00001388721735] : List ℝ).zipIdx.map fun (c, k) =>
        c * Real.cos (k * (2 * halfAngle n i))).sum := by
  have htwo : (2.0 : ℝ) = 2 := by norm_num
  have hangle : 2.0 * Real.pi * i / (n - 1 : ℕ) = 2 * halfAngle n i := by
    rw [htwo, halfAngle]
    ring
  rw [List.sum_eq_foldl, ← hangle]
  rfl

/-- The cosine of a multiple of an angle, in the sine of half the angle. -/
theorem cos_multiple (k : ℕ) (θ : ℝ) :
    Real.cos (k * (2 * θ)) = (T ℝ k).eval (1 - 2 * Real.sin θ ^ 2) := by
  have hcos : 1 - 2 * Real.sin θ ^ 2 = Real.cos (2 * θ) := by
    rw [Real.cos_two_mul, Real.cos_sq']
    ring
  rw [hcos, T_real_cos, Int.cast_natCast]

/-- Chebyshev's recurrence, for counts. -/
theorem eval_T_succ (x : ℝ) (k : ℕ) :
    (T ℝ (k + 1 + 1 : ℕ)).eval x = 2 * x * (T ℝ (k + 1 : ℕ)).eval x - (T ℝ k).eval x := by
  have hindex : ((k + 1 + 1 : ℕ) : ℤ) = k + 2 := by
    push_cast
    ring
  rw [hindex, T_add_two]
  simp

/-- The taper in the square of the sine of half the angle. -/
noncomputable def taperSeries (u : ℝ) : ℝ :=
  (2955226 + 6176578629 * u + 573631897232 * u ^ 2 + 8090576224912 * u ^ 3 +
    24293142931648 * u ^ 4 + 15614418355712 * u ^ 5 + 1422051056640 * u ^ 6) / 50000000000000

theorem taperAt_eq_taperSeries (n i : ℕ) :
    taperAt n i = taperSeries (Real.sin (halfAngle n i) ^ 2) := by
  rw [taperAt_eq_sum]
  simp only [List.zipIdx_cons, List.zipIdx_nil, List.map_cons, List.map_nil, List.sum_cons,
    List.sum_nil, cos_multiple, eval_T_succ]
  generalize Real.sin (halfAngle n i) ^ 2 = u
  simp only [zero_add, Nat.cast_zero, Nat.cast_one, Polynomial.Chebyshev.T_zero,
    Polynomial.Chebyshev.T_one, Polynomial.eval_one, Polynomial.eval_X, taperSeries]
  ring

theorem taperSeries_pos {u : ℝ} (hu : 0 ≤ u) : 0 < taperSeries u := by
  unfold taperSeries
  positivity

theorem taperSeries_strictMonoOn : StrictMonoOn taperSeries (Set.Ici 0) := by
  intro u hu v hv h
  rw [Set.mem_Ici] at hu hv
  unfold taperSeries
  gcongr

theorem taperSeries_one_lt : taperSeries 1 < 1 := by
  norm_num [taperSeries]

theorem taperAt_mem (n i : ℕ) : (taperAt n i : ℝ) ∈ Set.Ioo 0 1 := by
  have hnonneg : 0 ≤ Real.sin (halfAngle n i) ^ 2 := sq_nonneg _
  have hle := taperSeries_strictMonoOn.monotoneOn (Set.mem_Ici.mpr hnonneg)
    (Set.mem_Ici.mpr zero_le_one) (Real.sin_sq_le_one _)
  rw [taperAt_eq_taperSeries]
  exact ⟨taperSeries_pos hnonneg, hle.trans_lt taperSeries_one_lt⟩

/-! ### The halves of the taper -/

section Halves

variable {n i : ℕ}

theorem span_pos (hn : 2 ≤ n) : (0 : ℝ) < (n - 1 : ℕ) := by
  rw [Nat.cast_pos]
  omega

theorem halfAngle_nonneg (n i : ℕ) : 0 ≤ halfAngle n i := by
  unfold halfAngle
  positivity

theorem halfAngle_lt (hn : 2 ≤ n) {j : ℕ} (h : i < j) : halfAngle n i < halfAngle n j := by
  have hspan := span_pos hn
  unfold halfAngle
  gcongr

/-- The samples up to the middle lie in the first quarter turn. -/
theorem halfAngle_le (hn : 2 ≤ n) (hi : 2 * i ≤ n - 1) : halfAngle n i ≤ Real.pi / 2 := by
  have hhalf : (2 * i : ℝ) ≤ (n - 1 : ℕ) := by exact_mod_cast hi
  rw [halfAngle, div_le_div_iff₀ (span_pos hn) two_pos]
  calc Real.pi * i * 2 = Real.pi * (2 * i) := by ring
    _ ≤ Real.pi * (n - 1 : ℕ) := mul_le_mul_of_nonneg_left hhalf Real.pi_pos.le

/-- Samples at the same distance from the two ends lie at the same distance from the two ends of
half a turn. -/
theorem halfAngle_reflect (hi : i < n) (hn : 2 ≤ n) :
    halfAngle n (n - 1 - i) = Real.pi - halfAngle n i := by
  have hspan := (span_pos hn).ne'
  unfold halfAngle
  rw [Nat.cast_sub (by omega)]
  field_simp

theorem taperAt_reflect (hi : i < n) (hn : 2 ≤ n) :
    (taperAt n (n - 1 - i) : ℝ) = taperAt n i := by
  rw [taperAt_eq_taperSeries, taperAt_eq_taperSeries, halfAngle_reflect hi hn, Real.sin_pi_sub]

theorem taperAt_lt_succ (h : i + 1 < n / 2) : (taperAt n i : ℝ) < taperAt n (i + 1) := by
  have hpi := Real.pi_pos
  have hzero := halfAngle_nonneg n i
  have hlt := halfAngle_lt (n := n) (by omega) i.lt_succ_self
  have hle := halfAngle_le (n := n) (i := i + 1) (by omega) (by omega)
  have hsin : Real.sin (halfAngle n i) < Real.sin (halfAngle n (i + 1)) :=
    Real.sin_lt_sin_of_lt_of_le_pi_div_two (by linarith) hle hlt
  have hnonneg : 0 ≤ Real.sin (halfAngle n i) :=
    Real.sin_nonneg_of_nonneg_of_le_pi hzero (by linarith)
  rw [taperAt_eq_taperSeries, taperAt_eq_taperSeries]
  exact taperSeries_strictMonoOn (Set.mem_Ici.mpr (sq_nonneg _)) (Set.mem_Ici.mpr (sq_nonneg _))
    (by gcongr)

end Halves

/-! ### The boost -/

theorem boostAt_eq (n distance : ℕ) :
    boostAt n distance =
      1 / 100000 + Real.exp (-(((distance : ℝ) / (n / 25 : ℕ)) * (distance / (n / 25 : ℕ)))) := by
  have hfloor : (boostFloor : ℝ) = 1 / 100000 := by
    norm_num [boostFloor]
  rw [← hfloor]
  rfl

theorem boostAt_gt (n distance : ℕ) : 1 / 100000 < (boostAt n distance : ℝ) := by
  rw [boostAt_eq]
  exact lt_add_of_pos_right _ (Real.exp_pos _)

/-- The bell has a width as soon as there are bins for it. -/
theorem boostAt_strictAnti {n : ℕ} (hn : 25 ≤ n) : StrictAnti (boostAt n : ℕ → ℝ) := by
  intro near far h
  have hwidth : (0 : ℝ) < (n / 25 : ℕ) := by
    rw [Nat.cast_pos]
    omega
  rw [boostAt_eq, boostAt_eq]
  gcongr

/-- The shapes of the tables of `n` bins, for any length from the shortest up, even or odd. The
taper is symmetric, lies strictly between zero and one, and rises over its first half; the boost
falls with the distance and stays above its floor. -/
theorem table_shapes {n : ℕ} (hn : 64 ≤ n) :
    (∀ i < n, (taperAt n i : ℝ) = taperAt n (n - 1 - i)) ∧
    (∀ i < n, (taperAt n i : ℝ) ∈ Set.Ioo 0 1) ∧
    (∀ i, i + 1 < n / 2 → (taperAt n i : ℝ) < taperAt n (i + 1)) ∧
    StrictAnti (boostAt n : ℕ → ℝ) ∧
    ∀ distance, 1 / 100000 < (boostAt n distance : ℝ) := by
  refine ⟨?_, ?_, ?_, ?_, boostAt_gt n⟩
  · intro i hi
    exact (taperAt_reflect hi (by omega)).symm
  · intro i _
    exact taperAt_mem n i
  · intro i hi
    exact taperAt_lt_succ hi
  · exact boostAt_strictAnti (by omega)

/-- The ends, the middle and the farthest distance of the shortest tables. -/
theorem table_shapes_of_shortest :
    let n := FftSize.shortest.bins
    64 ≤ n ∧
    (taperAt n 0 : ℝ) = taperAt n 63 ∧ (taperAt n 0 : ℝ) ∈ Set.Ioo 0 1 ∧
    (taperAt n 30 : ℝ) < taperAt n 31 ∧
    (boostAt n 63 : ℝ) < boostAt n 62 ∧ 1 / 100000 < (boostAt n 63 : ℝ) := by
  intro n
  have hn : 64 ≤ n := FftSize.shortest.le_bins
  obtain ⟨hsymmetric, hbetween, hrising, hfalling, hfloor⟩ := table_shapes hn
  exact ⟨hn, hsymmetric 0 (by omega), hbetween 0 (by omega), hrising 30 (by decide),
    hfalling (by decide), hfloor 63⟩

end Spectrum

/-- The boost of the tables never falls to zero. -/
theorem Tables.boost_build_pos {size : FftSize} (d : Fin size.bins) :
    0 < (Tables.build (ω := ℝ) id size : Tables ℝ size).boost.get d := by
  have hentry : (Tables.build (ω := ℝ) id size : Tables ℝ size).boost.get d =
      Spectrum.boostAt (ω := ℝ) size.bins d := by
    simp [Tables.build, Vector.get_eq_getElem]
  have hfloor : (0 : ℝ) < 1 / 100000 := by norm_num
  rw [hentry]
  exact hfloor.trans (Spectrum.boostAt_gt _ _)

end IqBalance
