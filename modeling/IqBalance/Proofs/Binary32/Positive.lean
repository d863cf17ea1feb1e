import Mathlib
import IqBalance.Proofs.Binary32.Order
import IqBalance.Proofs.Binary32.Rounding

/-!
Positive numbers in single precision.

A positive number reads as one with the positive sign, or as the positive
infinity (`positive_reading`). The product of two is always a number and never
below zero, though it may overflow to the infinity or underflow to zero
(`zero_le_mul`), and a product with one reads as the other factor
(`reading_one_mul`). The magnitude of a number is a number (`isNaN_abs`), so
a clamp moves it between its bounds (`clamp_within`).
-/

namespace IqBalance.Binary32

open Float.Model (Format UnpackedFloat)
open Float.Model.UnpackedFloat (Sign roundWithAccuracy)

variable {x y : Float32}

/-! ### Sign -/

/-- Zero of either sign, a number above it, or the positive infinity. -/
def Nonnegative (f : UnpackedFloat) : Prop := (∃ s, f = .zero s) ∨ Positive f

theorem Positive.saturate {f : UnpackedFloat} (h : Positive f) :
    Positive (Binary32.saturate f) := by
  cases h with
  | infinity => exact .infinity
  | finite hpos =>
    rw [Binary32.saturate]
    split
    · exact .finite hpos
    · exact .infinity

/-- What is positive is not zero, and its negative is not. -/
theorem Positive.ne_zero {f : UnpackedFloat} (h : Positive f) (s : Sign) :
    f ≠ .zero s ∧ f.neg ≠ .zero s := by
  cases h with
  | infinity => exact ⟨nofun, nofun⟩
  | finite hpos => exact ⟨nofun, nofun⟩

theorem zero_le_of_nonnegative (h : Nonnegative (reading x)) : 0 ≤ x := by
  rw [le_iff, rank_zero, isNaN_iff, isNaN_iff]
  generalize reading x = f at h ⊢
  rcases h with ⟨s, rfl⟩ | hpositive
  · exact ⟨rfl, rfl, le_rfl⟩
  · cases hpositive with
    | infinity => exact ⟨rfl, rfl, by simp [rank, toLex_le_iff]⟩
    | finite hpos => exact ⟨rfl, rfl, by simp [rank, toLex_le_iff]⟩

/-! ### Products -/

/-- A product of numbers of the format is not coarser than its grid. -/
theorem le_gridExponent_mul {m m' : ℕ} {e e' : ℤ} (hpos : 0 < m) (hpos' : 0 < m')
    (hnormal : 2 ^ 23 ≤ m ∨ e = -149) (hnormal' : 2 ^ 23 ≤ m' ∨ e' = -149) :
    e + e' ≤ gridExponent (m * m') (e + e') := by
  have hbits : 2 ^ 23 ≤ m * m' → 23 ≤ (m * m').log2 := fun h => (Nat.le_log2 (by omega)).mpr h
  unfold gridExponent
  rcases hnormal with hm | rfl
  · have := hbits (hm.trans (Nat.le_mul_of_pos_right m hpos'))
    omega
  · rcases hnormal' with hm' | rfl
    · have := hbits (hm'.trans (Nat.le_mul_of_pos_left m' hpos))
      omega
    · omega

/-- A product of positive numbers is rounded to no less than zero. -/
theorem nonnegative_settle (r : ℕ) (t : ℤ) : Nonnegative (saturate (settle .positive r t)) := by
  unfold settle
  split
  · exact .inl ⟨_, rfl⟩
  · split
    · exact .inr (Positive.saturate (.finite _))
    · exact .inr (Positive.saturate (.finite _))

/-- A product of positive numbers is a number, and not below zero. -/
theorem zero_le_mul (hx : 0 < x) (hy : 0 < y) : 0 ≤ x * y := by
  have hreading : reading (x * y) = (Float32.Model.pack
      (UnpackedFloat.mul Format.binary32 (reading x) (reading y))).unpack := rfl
  refine zero_le_of_nonnegative ?_
  rw [hreading]
  have hformat := inFormat_reading x
  have hformat' := inFormat_reading y
  have hinfinity : Nonnegative (Float32.Model.pack (.infinity .positive)).unpack := by
    rw [unpack_pack (f := .infinity .positive) trivial]
    exact .inr .infinity
  have hx := positive_reading hx
  have hy := positive_reading hy
  generalize reading x = a at hx hformat ⊢
  generalize reading y = b at hy hformat' ⊢
  cases hx with
  | infinity => cases hy <;> exact hinfinity
  | finite hpos =>
    cases hy with
    | infinity => exact hinfinity
    | finite hpos' =>
      have hle := le_gridExponent_mul hpos hpos' hformat.2.2 hformat'.2.2
      have hsign : Sign.positive * Sign.positive = Sign.positive := rfl
      rw [UnpackedFloat.mul, unpack_pack (inFormat_roundWithAccuracy hle),
        roundWithAccuracy_eq hle, hsign]
      exact nonnegative_settle _ _

/-- A number of the format times one needs no rounding. -/
theorem roundWithAccuracy_one_mul {s : Sign} {m : ℕ} {e : ℤ} (hpos : 0 < m)
    (hformat : InFormat (.finite s m e hpos)) :
    roundWithAccuracy Format.binary32 s (2 ^ 23 * m) (-23 + e) .exact = .finite s m e hpos := by
  obtain ⟨hm, he, hnormal⟩ := hformat
  have hlog : (2 ^ 23 * m).log2 = m.log2 + 23 := by
    rw [mul_comm, ← Nat.shiftLeft_eq, log2_shiftLeft hpos]
  have hgrid : gridExponent (2 ^ 23 * m) (-23 + e) = e := by
    have hle : m.log2 ≤ 23 := log2_le_of_lt hm
    rw [gridExponent, hlog]
    rcases hnormal with hbits | hleast
    · have := log2_of_normal hbits hm
      omega
    · omega
  have hshift : (gridExponent (2 ^ 23 * m) (-23 + e) - (-23 + e)).toNat = 23 := by omega
  have hle : -23 + e ≤ gridExponent (2 ^ 23 * m) (-23 + e) := by omega
  rw [roundWithAccuracy_eq hle, hshift, rounded_of_dvd (Nat.dvd_mul_right _ _),
    Nat.mul_div_cancel_left m (by decide), hgrid, settle, dif_neg hpos.ne', if_pos hm]

/-- A product with one reads as the other factor. -/
theorem reading_one_mul (x : Float32) : reading (1 * x) = reading x := by
  have hreading : reading (1 * x) = (Float32.Model.pack
      (UnpackedFloat.mul Format.binary32 (.finite .positive (2 ^ 23) (-23) (by decide))
        (reading x))).unpack := rfl
  rw [hreading]
  obtain ⟨hformat, hfits⟩ := reading_cases x
  generalize reading x = a at hformat hfits ⊢
  have hsign : ∀ s, Sign.positive * s = s := by
    intro s
    cases s <;> rfl
  cases a with
  | finite s m e hpos =>
    rw [UnpackedFloat.mul, hsign, roundWithAccuracy_one_mul hpos hformat]
    exact (unpack_pack hformat).trans hfits
  | infinity s =>
    rw [UnpackedFloat.mul, hsign]
    exact unpack_pack (f := .infinity s) trivial
  | zero s =>
    rw [UnpackedFloat.mul, hsign]
    exact unpack_pack (f := .zero s) trivial
  | notANumber => exact unpack_pack (f := .notANumber) trivial

/-! ### Magnitudes and clamps -/

theorem reading_abs (x : Float32) : reading x.abs = (reading x).abs := by
  have hreading : reading x.abs = (Float32.Model.pack (reading x).abs).unpack := rfl
  rw [hreading]
  obtain ⟨hformat, hfits⟩ := reading_cases x
  generalize reading x = a at hformat hfits ⊢
  cases a with
  | finite s m e hpos =>
    rw [unpack_pack (f := UnpackedFloat.abs (.finite s m e hpos)) hformat]
    exact if_pos (exponent_le_of_saturate hfits)
  | _ => exact unpack_pack (f := UnpackedFloat.abs _) trivial

theorem isNaN_abs (x : Float32) : x.abs.isNaN = x.isNaN := by
  rw [isNaN_iff, isNaN_iff, reading_abs]
  cases reading x <;> rfl

/-- A clamp moves what is a number between its bounds. -/
theorem clamp_within {lo hi : Float32} (hx : x.isNaN = false)
    (h : Scalar.clamp x lo hi = .ok y) : lo ≤ y ∧ y ≤ hi := by
  unfold Scalar.clamp at h
  split at h
  · rename_i hbounds
    obtain ⟨hlo, hhi, -⟩ := le_iff.mp hbounds
    cases h
    split
    · exact ⟨le_iff.mpr ⟨hlo, hlo, le_rfl⟩, hbounds⟩
    · rename_i hlow
      split
      · exact ⟨hbounds, le_iff.mpr ⟨hhi, hhi, le_rfl⟩⟩
      · rename_i hhigh
        exact ⟨le_of_not_lt hlo hx hlow, le_of_not_lt hx hhi hhigh⟩
  · cases h

end IqBalance.Binary32
