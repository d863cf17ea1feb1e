import Mathlib
import IqBalance.Sample
import IqBalance.Spectrum.Tables

/-!
The chain read over exact arithmetic: the reals as a `Scalar` and as an
`Elementary` arithmetic, and samples of reals as complex numbers.

* `Sample.toComplex` carries each operation on samples to the one of the same
  name on complex numbers, so a statement about exact samples is proved in `ℂ`.
* `exactTwiddles` are the twiddle factors as the table formula gives them,
  unrounded; `toComplex_twiddleAt` says that they are the powers of a root of
  unity, and `Tables.exact` puts them beside any taper and boost.
-/

namespace IqBalance

noncomputable instance : Scalar ℝ where
  toZero := inferInstance
  toOne := inferInstance
  toAdd := inferInstance
  toSub := inferInstance
  toMul := inferInstance
  toDiv := inferInstance
  toNeg := inferInstance
  toLT := inferInstance
  toLE := inferInstance
  decideLT := inferInstance
  decideLE := inferInstance
  abs x := |x|
  ofCount n := n
  nearestCount x := min ⌊x + 1 / 2⌋₊ (countLimit - 1)
  isNaN _ := false
  isFinite _ := true

noncomputable instance : Spectrum.Elementary ℝ where
  toZero := inferInstance
  toAdd := inferInstance
  toMul := inferInstance
  toDiv := inferInstance
  toNeg := inferInstance
  toOfScientific := inferInstance
  ofCount n := n
  pi := Real.pi
  cos := Real.cos
  sin := Real.sin
  expNeg x := Real.exp (-x)

/-! ### Samples as complex numbers -/

namespace Sample

/-- A sample of reals as a complex number. -/
def toComplex (x : Sample ℝ) : ℂ := ⟨x.re, x.im⟩

theorem toComplex_injective : Function.Injective toComplex := by
  intro x y h
  exact Sample.ext (congrArg Complex.re h) (congrArg Complex.im h)

@[simp] theorem toComplex_inj {x y : Sample ℝ} : x.toComplex = y.toComplex ↔ x = y :=
  toComplex_injective.eq_iff

@[simp] theorem toComplex_re (x : Sample ℝ) : x.toComplex.re = x.re := rfl

@[simp] theorem toComplex_im (x : Sample ℝ) : x.toComplex.im = x.im := rfl

@[simp] theorem toComplex_zero : (0 : Sample ℝ).toComplex = 0 := rfl

@[simp] theorem toComplex_add (x y : Sample ℝ) :
    (x + y).toComplex = x.toComplex + y.toComplex := rfl

@[simp] theorem toComplex_sub (x y : Sample ℝ) :
    (x - y).toComplex = x.toComplex - y.toComplex := rfl

@[simp] theorem toComplex_mul (x y : Sample ℝ) :
    (x * y).toComplex = x.toComplex * y.toComplex := by
  apply Complex.ext <;> simp

@[simp] theorem toComplex_scale (x : Sample ℝ) (w : ℝ) :
    (x.scale w).toComplex = x.toComplex * w := by
  apply Complex.ext <;> simp

theorem normSq_eq (x : Sample ℝ) : x.normSq = Complex.normSq x.toComplex := by
  simp [normSq, Complex.normSq_apply]

end Sample

/-! ### Exact tables -/

namespace Spectrum

/-- The unit number at minus `k` parts of a full turn in `n`. -/
noncomputable def unitRoot (n k : Nat) : ℂ :=
  Complex.exp (-(2 * Real.pi * Complex.I * k / n))

/-- The twiddle factors of `2 ^ m` samples as the formula gives them. -/
noncomputable def exactTwiddles (m : Nat) : Vector (Sample ℝ) (2 ^ (m - 1)) :=
  Vector.ofFn fun k => twiddleAt (2 ^ m) k

theorem twiddleAngle_eq (n k : Nat) : (twiddleAngle n k : ℝ) = 2 * Real.pi * k / n := by
  norm_num [twiddleAngle, Elementary.pi, Elementary.ofCount]

/-- Twiddle `k` of `n` is a root of unity. -/
theorem toComplex_twiddleAt (n k : Nat) :
    (twiddleAt (ω := ℝ) n k).toComplex = unitRoot n k := by
  have hangle : -(2 * Real.pi * Complex.I * k / n) =
      ((-(2 * Real.pi * k / n) : ℝ) : ℂ) * Complex.I := by
    push_cast
    ring
  rw [unitRoot, hangle]
  apply Complex.ext
  · rw [Complex.exp_ofReal_mul_I_re, Real.cos_neg, ← twiddleAngle_eq]
    rfl
  · rw [Complex.exp_ofReal_mul_I_im, Real.sin_neg, ← twiddleAngle_eq]
    rfl

end Spectrum

/-- The shortest length. -/
def FftSize.shortest : FftSize := { log2 := 6 }

/-- The tables of a length with exact twiddle factors, beside any taper and boost. -/
noncomputable def Tables.exact {size : FftSize} (taper boost : Vector ℝ size.bins) :
    Tables ℝ size where
  taper := taper
  boost := boost
  twiddles := Spectrum.exactTwiddles size.log2

/-- What the table formulas give in exact arithmetic has exact twiddle factors. -/
theorem Tables.build_eq_exact (size : FftSize) :
    (Tables.build (ω := ℝ) id size : Tables ℝ size) =
      .exact (Tables.build (ω := ℝ) id size).taper (Tables.build (ω := ℝ) id size).boost :=
  rfl

end IqBalance
