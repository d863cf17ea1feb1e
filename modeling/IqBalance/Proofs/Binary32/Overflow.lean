import Mathlib
import IqBalance.Proofs.Binary32.Positive

/-!
Overflow in single precision, and what is never anything worse.

Packing makes nothing out of a number that is not one (`isNaN_unpack_pack`), so
sums and products of finite numbers are numbers, and a quotient is one if its
divisor is not zero (`isNaN_div`). They may be infinite: a finite number stands
for a rational (`value`), and a rational is rounded to an infinity from half a
place above the largest finite number on (`Overflows`). At the top exponent
that half place is the tie between 24 bits and a carry
(`carry_rounded_iff`), so a product or a sum of finite numbers is infinite
exactly if the exact one overflows (`isFinite_mul_eq_false_iff`,
`isFinite_add_eq_false_iff`).
-/

namespace IqBalance.Binary32

open Float.Model (Format UnpackedFloat totalExponent)
open Float.Model.UnpackedFloat (Sign Accuracy ExtendedMantissa roundWithAccuracy packComponents
  unpackExponent unpackExponent_packComponents)

/-! ### What is not a number -/

/-- Only the largest exponent field stands for anything but a number. -/
theorem isNaN_unpack_packComponents (s : Sign) {e : BitVec 8} (he : e ≠ -1#8) (m : BitVec 23) :
    (UnpackedFloat.unpack Format.binary32 (packComponents Format.binary32 s e m)).isNaN =
      false := by
  simp only [UnpackedFloat.unpack, unpackExponent_packComponents]
  rw [if_neg he]
  split
  · split <;> rfl
  · rfl

/-- Packing makes a number of a number. -/
theorem isNaN_unpack_pack (f : UnpackedFloat) :
    (Float32.Model.pack f).unpack.isNaN = f.isNaN := by
  cases f with
  | notANumber => rfl
  | infinity s => cases s <;> rfl
  | zero s => cases s <;> rfl
  | finite s m e hpos =>
    have hpack : (Float32.Model.pack (.finite s m e hpos)).unpack = UnpackedFloat.unpack
        Format.binary32 (UnpackedFloat.pack Format.binary32 (.finite s m e hpos)) := rfl
    rw [hpack, UnpackedFloat.pack]
    dsimp only
    split
    · exact (congrArg UnpackedFloat.isNaN (unpack_top s 0#23)).trans rfl
    · rename_i hfits
      split
      · refine isNaN_unpack_packComponents s (fun htop => ?_) _
        -- An exponent that does not overflow its field is below the largest one.
        have hfield := congrArg BitVec.toNat htop
        rw [BitVec.toNat_ofNat] at hfield
        change _ % 2 ^ 8 = 255 at hfield
        change ¬ 2 ^ 8 ≤ _ + 1 at hfits
        omega
      · exact isNaN_unpack_packComponents s (by decide) _

/-- Rounding gives a number. -/
theorem isNaN_roundWithAccuracy (s : Sign) (m : ℕ) (e : ℤ) (acc : Accuracy) :
    (roundWithAccuracy Format.binary32 s m e acc).isNaN = false := by
  rw [roundWithAccuracy]
  dsimp only
  split <;> rfl

theorem isNaN_normalize (z e : ℤ) (s : Sign) :
    (UnpackedFloat.normalize Format.binary32 z e s).isNaN = false := by
  rw [UnpackedFloat.normalize]
  split
  · exact isNaN_roundWithAccuracy _ _ _ _
  · rfl
  · exact isNaN_roundWithAccuracy _ _ _ _

section Operations

variable {x y : Float32}

/-- A finite reading is a zero or a number with a significand. -/
theorem reading_of_isFinite (h : x.isFinite = true) :
    (∃ s, reading x = .zero s) ∨ ∃ s m e hpos, reading x = .finite s m e hpos := by
  rw [isFinite_iff] at h
  generalize reading x = f at h ⊢
  cases f with
  | infinity s => cases h
  | notANumber => cases h
  | zero s => exact .inl ⟨s, rfl⟩
  | finite s m e hpos => exact .inr ⟨s, m, e, hpos, rfl⟩

/-- A finite number plus a number. -/
theorem isNaN_add (hx : x.isFinite = true) (hy : y.isNaN = false) : (x + y).isNaN = false := by
  have hreading : (x + y).isNaN = (Float32.Model.pack
      (UnpackedFloat.add Format.binary32 (reading x) (reading y))).unpack.isNaN := rfl
  rw [isNaN_iff] at hy
  rw [hreading, isNaN_unpack_pack]
  generalize reading y = b at hy ⊢
  rcases reading_of_isFinite hx with ⟨s, ha⟩ | ⟨s, m, e, hpos, ha⟩
  · rw [ha]
    cases b with
    | notANumber => cases hy
    | zero s' => cases s <;> cases s' <;> rfl
    | _ => rfl
  · rw [ha]
    cases b with
    | notANumber => cases hy
    | finite s' m' e' hpos' => exact isNaN_normalize _ _ _
    | _ => rfl

/-- A finite number less a finite one. -/
theorem isNaN_sub (hx : x.isFinite = true) (hy : y.isFinite = true) : (x - y).isNaN = false := by
  have hreading : (x - y).isNaN = (Float32.Model.pack
      (UnpackedFloat.sub Format.binary32 (reading x) (reading y))).unpack.isNaN := rfl
  rw [hreading, isNaN_unpack_pack]
  rcases reading_of_isFinite hx with ⟨s, ha⟩ | ⟨s, m, e, hpos, ha⟩ <;>
    rcases reading_of_isFinite hy with ⟨s', hb⟩ | ⟨s', m', e', hpos', hb⟩ <;>
    rw [ha, hb]
  · cases s <;> cases s' <;> rfl
  · rfl
  · rfl
  · exact isNaN_normalize _ _ _

/-- A product of finite numbers. -/
theorem isNaN_mul (hx : x.isFinite = true) (hy : y.isFinite = true) : (x * y).isNaN = false := by
  have hreading : (x * y).isNaN = (Float32.Model.pack
      (UnpackedFloat.mul Format.binary32 (reading x) (reading y))).unpack.isNaN := rfl
  rw [hreading, isNaN_unpack_pack]
  rcases reading_of_isFinite hx with ⟨s, ha⟩ | ⟨s, m, e, hpos, ha⟩ <;>
    rcases reading_of_isFinite hy with ⟨s', hb⟩ | ⟨s', m', e', hpos', hb⟩ <;>
    rw [ha, hb]
  · rfl
  · rfl
  · rfl
  · exact isNaN_roundWithAccuracy _ _ _ _

/-- A finite number over a number other than zero. -/
theorem isNaN_div (hx : x.isFinite = true) (hy : y.isNaN = false)
    (hzero : ∀ s, reading y ≠ .zero s) : (x / y).isNaN = false := by
  have hreading : (x / y).isNaN = (Float32.Model.pack
      (UnpackedFloat.div Format.binary32 (reading x) (reading y))).unpack.isNaN := rfl
  rw [isNaN_iff] at hy
  rw [hreading, isNaN_unpack_pack]
  generalize reading y = b at hy hzero ⊢
  rcases reading_of_isFinite hx with ⟨s, ha⟩ | ⟨s, m, e, hpos, ha⟩
  · rw [ha]
    cases b with
    | notANumber => cases hy
    | zero s' => exact absurd rfl (hzero s')
    | _ => rfl
  · rw [ha]
    cases b with
    | notANumber => cases hy
    | zero s' => exact absurd rfl (hzero s')
    | infinity s' => rfl
    | finite s' m' e' hpos' => exact isNaN_roundWithAccuracy _ _ _ _

/-- A finite number lies strictly between the infinities. -/
theorem rank_of_isFinite (h : x.isFinite = true) :
    rank (.infinity .negative) < rank (reading x) ∧
      rank (reading x) < rank (.infinity .positive) := by
  rcases reading_of_isFinite h with ⟨s, ha⟩ | ⟨s, m, e, hpos, ha⟩
  · rw [ha]
    simp [rank, toLex_lt_iff]
  · rw [ha]
    cases s <;> simp [rank, toLex_lt_iff]

/-- What lies between finite numbers is finite. -/
theorem isFinite_of_between {lo hi : Float32} (hlo : lo.isFinite = true) (hhi : hi.isFinite = true)
    (hlow : lo ≤ x) (hhigh : x ≤ hi) : x.isFinite = true := by
  obtain ⟨-, hx, hlow⟩ := le_iff.mp hlow
  obtain ⟨-, -, hhigh⟩ := le_iff.mp hhigh
  have hbelow := (rank_of_isFinite hlo).1.trans_le hlow
  have habove := hhigh.trans_lt (rank_of_isFinite hhi).2
  rw [isFinite_iff]
  rw [isNaN_iff] at hx
  generalize reading x = f at hx hbelow habove ⊢
  cases f with
  | notANumber => cases hx
  | zero s => rfl
  | finite s m e hpos => rfl
  | infinity s =>
    cases s with
    | negative => exact absurd hbelow (lt_irrefl _)
    | positive => exact absurd habove (lt_irrefl _)

theorem isFinite_abs (x : Float32) : x.abs.isFinite = x.isFinite := by
  rw [isFinite_iff, isFinite_iff, reading_abs]
  cases reading x <;> rfl

theorem isFinite_neg (x : Float32) : (-x).isFinite = x.isFinite := by
  rw [isFinite_iff, isFinite_iff, reading_neg]
  cases reading x <;> rfl

end Operations

/-! ### Rounding at the top exponent -/

section Top

variable {m k : ℕ}

/-- The first bit dropped says whether the rest is a half of a place or more. -/
theorem roundBit_shiftRight (m k : ℕ) :
    ((⟨m, false, false⟩ : ExtendedMantissa) >>> k).roundBit =
      decide (2 ^ k ≤ 2 * (m % 2 ^ k)) := by
  cases k with
  | zero =>
    rw [pow_zero, Nat.mod_one]
    rfl
  | succ k =>
    have hbit : ((⟨m, false, false⟩ : ExtendedMantissa) >>> (k + 1)).roundBit =
        (m / 2 ^ k % 2 != 0) :=
      congrArg (· % 2 != 0) (mantissa_shiftRight ⟨m, false, false⟩ k)
    have hrest := Nat.mod_lt m (Nat.two_pow_pos k)
    rw [hbit, Nat.mod_pow_succ, pow_succ]
    rcases Nat.mod_two_eq_zero_or_one (m / 2 ^ k) with hzero | hone
    · rw [hzero]
      simp
      omega
    · rw [hone]
      simp
      omega

/-- An odd significand is rounded up from the half on. -/
theorem roundedMantissa_of_odd {em : ExtendedMantissa} (h : em.mantissa % 2 = 1) :
    em.roundedMantissa = if em.roundBit then em.mantissa + 1 else em.mantissa := by
  match em with
  | ⟨m, false, false⟩ => rfl
  | ⟨m, false, true⟩ => rfl
  | ⟨m, true, false⟩ => exact congrArg (m + ·) h
  | ⟨m, true, true⟩ => rfl

/-- Rounding carries into a 25th bit from half a place above the largest significand on. -/
theorem carry_rounded_iff (h : m / 2 ^ k < 2 ^ 24) :
    2 ^ 24 ≤ rounded m .exact k ↔ (2 ^ 25 - 1) * 2 ^ k ≤ 2 * m := by
  have hsplit := Nat.div_add_mod m (2 ^ k)
  by_cases hlargest : m / 2 ^ k = 2 ^ 24 - 1
  · have hodd : ((⟨m, false, false⟩ : ExtendedMantissa) >>> k).mantissa % 2 = 1 := by
      rw [mantissa_shiftRight]
      change m / 2 ^ k % 2 = 1
      omega
    have hrounded : rounded m .exact k =
        if 2 ^ k ≤ 2 * (m % 2 ^ k) then m / 2 ^ k + 1 else m / 2 ^ k := by
      have hcases := roundedMantissa_of_odd hodd
      rw [roundBit_shiftRight, mantissa_shiftRight] at hcases
      simp only [decide_eq_true_eq] at hcases
      exact hcases
    rw [hlargest] at hsplit hrounded
    rw [hrounded]
    generalize 2 ^ k = place at hsplit ⊢
    split <;> omega
  · have hbelow : m / 2 ^ k < 2 ^ 24 - 1 := by omega
    have hsmall := (Nat.div_lt_iff_lt_mul (Nat.two_pow_pos k)).mp hbelow
    have hcarry := rounded_le m .exact k
    constructor
    · intro hge
      omega
    · intro hge
      omega

theorem isFinite_saturate_settle_eq_false_iff {s : Sign} {r : ℕ} {t : ℤ} :
    (saturate (settle s r t)).isFinite = false ↔ r ≠ 0 ∧ (104 < t ∨ t = 104 ∧ 2 ^ 24 ≤ r) := by
  constructor
  · intro h
    by_contra hnot
    have hzero : r = 0 → (saturate (settle s r t)).isFinite = true := by
      rintro rfl
      rfl
    have hr : r ≠ 0 := fun hr => by simp [hzero hr] at h
    rw [isFinite_saturate_settle (by omega) (by omega)] at h
    cases h
  · rintro ⟨hr, htop⟩
    rw [settle, dif_neg hr]
    split
    · rw [saturate, if_neg (by omega)]
      rfl
    · rw [saturate, if_neg (by omega)]
      rfl

end Top

/-! ### Values -/

/-- What a reading stands for; what is not finite is taken as zero. -/
def unpackedValue : UnpackedFloat → ℚ
  | .finite s m e _ => s.apply m * 2 ^ e
  | _ => 0

/-- The rational that a finite number stands for. -/
def value (x : Float32) : ℚ := unpackedValue (reading x)

/-- From half a place above the largest finite number on, a rational is rounded to an infinity. -/
def Overflows (q : ℚ) : Prop := 2 ^ 128 - 2 ^ 103 ≤ |q|

section Values

variable {s : Sign} {m k : ℕ} {e t : ℤ}

/-- Overflow of a significand, seen from an exponent that is `k` larger. -/
theorem overflows_iff_of_exponent (h : t = e + k) :
    Overflows (m * 2 ^ e) ↔ (2 ^ 128 - 2 ^ 103) * 2 ^ k ≤ (m : ℚ) * 2 ^ t := by
  have hscale : (m : ℚ) * 2 ^ t = m * 2 ^ e * 2 ^ k := by
    rw [h, zpow_add₀ two_ne_zero, zpow_natCast, mul_assoc]
  rw [Overflows, abs_of_nonneg (by positivity), hscale]
  exact (mul_le_mul_iff_left₀ (by positivity)).symm

/-- At a lower exponent than the largest, 24 bits do not overflow. -/
theorem not_overflows_of_lt (h : t = e + k) (ht : t < 104) (hm : m < 2 ^ 24 * 2 ^ k) :
    ¬ Overflows (m * 2 ^ e) := by
  have hm : (m : ℚ) ≤ 2 ^ 24 * 2 ^ k := by exact_mod_cast hm.le
  have ht : (2 : ℚ) ^ t ≤ 2 ^ (103 : ℤ) := zpow_le_zpow_right₀ one_le_two (by omega)
  rw [overflows_iff_of_exponent h, not_le]
  calc (m : ℚ) * 2 ^ t ≤ 2 ^ 24 * 2 ^ k * 2 ^ (103 : ℤ) := by gcongr
    _ = 2 ^ 127 * 2 ^ k := by ring
    _ < (2 ^ 128 - 2 ^ 103) * 2 ^ k := mul_lt_mul_of_pos_right (by norm_num) (by positivity)

/-- At the largest exponent, overflow begins half a place above 24 bits. -/
theorem overflows_top_iff (h : 104 = e + k) :
    Overflows (m * 2 ^ e) ↔ (2 ^ 25 - 1) * 2 ^ k ≤ 2 * m := by
  have hleft : ((2 : ℚ) ^ 128 - 2 ^ 103) * 2 ^ k = ((2 ^ 25 - 1) * 2 ^ k) * 2 ^ 103 := by ring
  have hright : (m : ℚ) * 2 ^ (104 : ℤ) = 2 * m * 2 ^ 103 := by ring
  rw [overflows_iff_of_exponent h, hleft, hright, mul_le_mul_iff_left₀ (by positivity),
    ← @Nat.cast_le ℚ]
  norm_num

/-- At a higher exponent, 24 bits overflow. -/
theorem overflows_of_gt (h : t = e + k) (ht : 104 < t) (hm : 2 ^ 23 * 2 ^ k ≤ m) :
    Overflows (m * 2 ^ e) := by
  have hm : (2 : ℚ) ^ 23 * 2 ^ k ≤ m := by exact_mod_cast hm
  have ht : (2 : ℚ) ^ (105 : ℤ) ≤ 2 ^ t := zpow_le_zpow_right₀ one_le_two (by omega)
  rw [overflows_iff_of_exponent h]
  calc ((2 : ℚ) ^ 128 - 2 ^ 103) * 2 ^ k ≤ 2 ^ 128 * 2 ^ k :=
        mul_le_mul_of_nonneg_right (by norm_num) (by positivity)
    _ = 2 ^ 23 * 2 ^ k * 2 ^ (105 : ℤ) := by ring
    _ ≤ m * 2 ^ t := by gcongr

/-- Above the least exponent the grid leaves a significand of 24 bits. -/
theorem two_pow_mul_le_of_normal (hle : e ≤ gridExponent m e) (hnormal : -149 < gridExponent m e) :
    2 ^ 23 * 2 ^ (gridExponent m e - e).toNat ≤ m := by
  have hm : 0 < m := by
    by_contra hzero
    obtain rfl : m = 0 := by omega
    rw [gridExponent, Nat.log2_zero] at hle hnormal
    omega
  exact (Nat.le_div_iff_mul_le (Nat.two_pow_pos _)).mp (le_div_grid hm hle hnormal)

/-- A significand that is not coarser than its grid is rounded to an infinity if it overflows. -/
theorem isFinite_pack_round_eq_false_iff (hle : e ≤ gridExponent m e) :
    (Float32.Model.pack (roundWithAccuracy Format.binary32 s m e .exact)).unpack.isFinite = false ↔
      Overflows (m * 2 ^ e) := by
  have hplace := Nat.two_pow_pos (gridExponent m e - e).toNat
  have hgrid := div_grid_lt m e
  have hsmall := (Nat.div_lt_iff_lt_mul hplace).mp hgrid
  have hexp : gridExponent m e = e + (gridExponent m e - e).toNat := by omega
  rw [unpack_pack (inFormat_roundWithAccuracy hle), roundWithAccuracy_eq hle,
    isFinite_saturate_settle_eq_false_iff]
  rcases lt_trichotomy (gridExponent m e) 104 with hlow | htop | hhigh
  · exact iff_of_false (by omega) (not_overflows_of_lt hexp hlow hsmall)
  · rw [overflows_top_iff (htop.symm.trans hexp), ← carry_rounded_iff hgrid]
    omega
  · have hbits := two_pow_mul_le_of_normal hle (by omega)
    have hrounded := ((Nat.le_div_iff_mul_le hplace).mpr hbits).trans (div_le_rounded _ .exact _)
    exact iff_of_true ⟨by omega, .inl hhigh⟩ (overflows_of_gt hexp hhigh hbits)

/-- Bits that are appended are taken off the exponent. -/
theorem shifted_value (m : ℕ) {e t : ℤ} (h : t ≤ e) :
    ((m <<< (e - t).toNat : ℕ) : ℚ) * 2 ^ t = m * 2 ^ e := by
  have hexp : e = (e - t).toNat + t := by omega
  rw [Nat.shiftLeft_eq, Nat.cast_mul, Nat.cast_pow, Nat.cast_two, mul_assoc, ← zpow_natCast,
    ← zpow_add₀ two_ne_zero, ← hexp]

/-- The same for a significand that may be too coarse, and is filled up first. -/
theorem isFinite_pack_fill_eq_false_iff (hpos : 0 < m) :
    (Float32.Model.pack (UnpackedFloat.round Format.binary32 s m e)).unpack.isFinite = false ↔
      Overflows (m * 2 ^ e) := by
  have hlog := log2_shiftLeft hpos (e - gridExponent m e).toNat
  have hgrid : gridExponent (m <<< (e - gridExponent m e).toNat)
      (e - (e - gridExponent m e).toNat) = gridExponent m e := by
    rw [gridExponent, hlog, gridExponent]
    omega
  have hround : UnpackedFloat.round Format.binary32 s m e =
      roundWithAccuracy Format.binary32 s (m <<< (e - gridExponent m e).toNat)
        (e - (e - gridExponent m e).toNat) .exact := by
    rw [UnpackedFloat.round, targetExponent_eq]
    rfl
  rw [hround, isFinite_pack_round_eq_false_iff (by omega)]
  rcases le_total (gridExponent m e) e with hcoarse | hfine
  · have hexp : e - (e - gridExponent m e).toNat = gridExponent m e := by omega
    rw [hexp, shifted_value m hcoarse]
  · have hshift : (e - gridExponent m e).toNat = 0 := by omega
    rw [hshift, Nat.shiftLeft_zero, Nat.cast_zero, sub_zero]

theorem overflows_congr {p q : ℚ} (h : |p| = |q|) : Overflows p ↔ Overflows q := by
  rw [Overflows, Overflows, h]

theorem not_overflows_of_eq_zero {q : ℚ} (h : q = 0) : ¬ Overflows q := by
  rw [h]
  norm_num [Overflows]

theorem isFinite_pack_zero (s : Sign) : (Float32.Model.pack (.zero s)).unpack.isFinite = true := by
  cases s <;> rfl

theorem isFinite_pack_normalize_eq_false_iff (z e : ℤ) (s : Sign) :
    (Float32.Model.pack (UnpackedFloat.normalize Format.binary32 z e s)).unpack.isFinite = false ↔
      Overflows (z * 2 ^ e) := by
  rcases lt_trichotomy z 0 with hneg | rfl | hpos
  · have hcast : ((-z).toNat : ℚ) = -z := by
      rw [← Int.cast_natCast, Int.toNat_of_nonneg (by omega), Int.cast_neg]
    rw [UnpackedFloat.normalize, compare_lt_iff_lt.mpr hneg]
    dsimp only
    rw [isFinite_pack_fill_eq_false_iff (by omega), hcast]
    exact overflows_congr (by rw [neg_mul, abs_neg])
  · rw [UnpackedFloat.normalize, compare_eq_iff_eq.mpr rfl, Int.cast_zero]
    exact iff_of_false (ne_of_eq_of_ne (isFinite_pack_zero s) (by decide))
      (not_overflows_of_eq_zero (zero_mul _))
  · have hcast : (z.toNat : ℚ) = z := by
      rw [← Int.cast_natCast, Int.toNat_of_nonneg hpos.le]
    rw [UnpackedFloat.normalize, compare_gt_iff_gt.mpr hpos]
    dsimp only
    rw [isFinite_pack_fill_eq_false_iff (by omega), hcast]

end Values

/-! ### Products and sums -/

section Exact

variable {x y : Float32}

theorem abs_apply (s : Sign) (m : ℕ) : |((s.apply m : ℤ) : ℚ)| = m := by
  cases s <;> simp [Sign.apply]

/-- A finite number does not overflow. -/
theorem not_overflows_value (h : x.isFinite = true) : ¬ Overflows (value x) := by
  have hformat := inFormat_reading x
  have hfits := saturate_reading x
  unfold value
  rcases reading_of_isFinite h with ⟨s, hx⟩ | ⟨s, m, e, hpos, hx⟩
  · rw [hx]
    exact not_overflows_of_eq_zero rfl
  · rw [hx] at hformat hfits ⊢
    have hm : (m : ℚ) ≤ 2 ^ 24 - 1 := by
      rw [le_sub_iff_add_le]
      exact_mod_cast hformat.1
    have he : (2 : ℚ) ^ e ≤ 2 ^ (104 : ℤ) :=
      zpow_le_zpow_right₀ one_le_two (exponent_le_of_saturate hfits)
    rw [Overflows, unpackedValue, abs_mul, abs_apply, abs_of_pos (by positivity), not_le]
    calc (m : ℚ) * 2 ^ e ≤ (2 ^ 24 - 1) * 2 ^ (104 : ℤ) := by gcongr
      _ < 2 ^ 128 - 2 ^ 103 := by norm_num

/-- A product of finite numbers is infinite exactly if the exact product overflows. -/
theorem isFinite_mul_eq_false_iff (hx : x.isFinite = true) (hy : y.isFinite = true) :
    (x * y).isFinite = false ↔ Overflows (value x * value y) := by
  have hreading : (x * y).isFinite = (Float32.Model.pack
      (UnpackedFloat.mul Format.binary32 (reading x) (reading y))).unpack.isFinite := rfl
  have hformat := inFormat_reading x
  have hformat' := inFormat_reading y
  rw [hreading, value, value]
  rcases reading_of_isFinite hx with ⟨s, ha⟩ | ⟨s, m, e, hpos, ha⟩ <;>
    rcases reading_of_isFinite hy with ⟨s', hb⟩ | ⟨s', m', e', hpos', hb⟩ <;>
    rw [ha] at hformat ⊢ <;> rw [hb] at hformat' ⊢
  · exact iff_of_false (ne_of_eq_of_ne (isFinite_pack_zero (s * s')) (by decide))
      (not_overflows_of_eq_zero (zero_mul _))
  · exact iff_of_false (ne_of_eq_of_ne (isFinite_pack_zero (s * s')) (by decide))
      (not_overflows_of_eq_zero (zero_mul _))
  · exact iff_of_false (ne_of_eq_of_ne (isFinite_pack_zero (s * s')) (by decide))
      (not_overflows_of_eq_zero (mul_zero _))
  · have hle := le_gridExponent_mul hpos hpos' hformat.2.2 hformat'.2.2
    rw [UnpackedFloat.mul, isFinite_pack_round_eq_false_iff hle]
    apply overflows_congr
    rw [unpackedValue, unpackedValue, mul_mul_mul_comm, ← zpow_add₀ two_ne_zero, abs_mul,
      abs_mul (_ * _), abs_mul (Int.cast _), abs_apply, abs_apply, Nat.cast_mul, abs_mul,
      Nat.abs_cast, Nat.abs_cast]

theorem apply_shifted_value (s : Sign) (m : ℕ) {e t : ℤ} (h : t ≤ e) :
    ((s.apply (m <<< (e - t).toNat : ℕ) : ℤ) : ℚ) * 2 ^ t = (s.apply m : ℤ) * 2 ^ e := by
  have hvalue := shifted_value m h
  cases s with
  | negative =>
    simp only [Sign.apply, Int.cast_neg, Int.cast_natCast, neg_mul]
    rw [hvalue]
  | positive => exact hvalue

/-- A sum of finite numbers is infinite exactly if the exact sum overflows. -/
theorem isFinite_add_eq_false_iff (hx : x.isFinite = true) (hy : y.isFinite = true) :
    (x + y).isFinite = false ↔ Overflows (value x + value y) := by
  have hreading : (x + y).isFinite = (Float32.Model.pack
      (UnpackedFloat.add Format.binary32 (reading x) (reading y))).unpack.isFinite := rfl
  rw [hreading, value, value]
  rcases reading_of_isFinite hx with ⟨s, ha⟩ | ⟨s, m, e, hpos, ha⟩ <;>
    rcases reading_of_isFinite hy with ⟨s', hb⟩ | ⟨s', m', e', hpos', hb⟩
  · refine iff_of_false ?_ (not_overflows_of_eq_zero ?_)
    · rw [ha, hb]
      cases s <;> cases s' <;> exact Bool.noConfusion
    · rw [ha, hb]
      exact zero_add 0
  · have hsum : UnpackedFloat.add Format.binary32 (reading x) (reading y) = reading y := by
      rw [ha, hb]
      rfl
    have hvalue : unpackedValue (reading x) + unpackedValue (reading y) = value y := by
      rw [ha]
      exact zero_add _
    rw [hsum, unpack_pack_reading, ← isFinite_iff, hvalue, hy]
    exact iff_of_false (by decide) (not_overflows_value hy)
  · have hsum : UnpackedFloat.add Format.binary32 (reading x) (reading y) = reading x := by
      rw [ha, hb]
      rfl
    have hvalue : unpackedValue (reading x) + unpackedValue (reading y) = value x := by
      rw [hb]
      exact add_zero _
    rw [hsum, unpack_pack_reading, ← isFinite_iff, hvalue, hx]
    exact iff_of_false (by decide) (not_overflows_value hx)
  · have hsum : ((s.apply (m <<< (e - min e e').toNat : ℕ) +
        s'.apply (m' <<< (e' - min e e').toNat : ℕ) : ℤ) : ℚ) * 2 ^ min e e' =
        unpackedValue (reading x) + unpackedValue (reading y) := by
      rw [Int.cast_add, add_mul, apply_shifted_value s m (min_le_left e e'),
        apply_shifted_value s' m' (min_le_right e e'), ha, hb]
      rfl
    rw [← hsum, ha, hb]
    exact isFinite_pack_normalize_eq_false_iff _ _ _

end Exact

end IqBalance.Binary32
