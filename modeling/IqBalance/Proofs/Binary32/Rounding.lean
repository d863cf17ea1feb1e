import Mathlib
import IqBalance.Proofs.Binary32.Reading

/-!
Rounding in single precision, as far as size goes.

A result is brought to the exponent `gridExponent` that leaves its significand
24 bits, and the significand is rounded there; if that carries into a 25th bit,
the exponent grows by one (`roundWithAccuracy_eq`, `settle`). Rounding never
passes a number of the grid (`rounded_le_of_le`), and so keeps to the side of
one that the exact result is on. That is enough to follow a mean: a count is at
least one (`atLeastOne_ofNat`), its reciprocal at most one
(`atMostOne_one_div`), and what is finite stays so when multiplied by that
(`isFinite_mul_of_atMostOne`). What is not finite never becomes finite again in
a sum or a product (`isFinite_of_add`, `isFinite_of_mul`), so a mean is finite
exactly if its sum is (`isFinite_mul_one_div_iff`).
-/

namespace IqBalance.Binary32

open Float.Model (Format UnpackedFloat totalExponent)
open Float.Model.UnpackedFloat (Sign Accuracy ExtendedMantissa roundWithAccuracy divCore)

/-! ### Significands -/

section Significands

variable {m k : ℕ}

/-- The significand once `k` bits are dropped and rounded off. -/
def rounded (m : ℕ) (acc : Accuracy) (k : ℕ) : ℕ :=
  (ExtendedMantissa.ofMantissaAndAccuracy m acc >>> k).roundedMantissa

theorem shiftRight_succ (em : ExtendedMantissa) (k : ℕ) :
    em >>> (k + 1) = (em >>> k).shiftRightOne := rfl

theorem mantissa_shiftRight (em : ExtendedMantissa) (k : ℕ) :
    (em >>> k).mantissa = em.mantissa / 2 ^ k := by
  induction k with
  | zero => exact (Nat.div_one _).symm
  | succ k ih =>
    rw [shiftRight_succ, pow_succ, ← Nat.div_div_eq_div_mul, ← ih]
    rfl

theorem mantissa_ofMantissaAndAccuracy (m : ℕ) (acc : Accuracy) :
    (ExtendedMantissa.ofMantissaAndAccuracy m acc).mantissa = m := by
  match acc with
  | .exact => rfl
  | .inexact .lt => rfl
  | .inexact .eq => rfl
  | .inexact .gt => rfl

/-- Zeros are dropped without a trace. -/
theorem exact_shiftRight (h : 2 ^ k ∣ m) :
    (⟨m, false, false⟩ : ExtendedMantissa) >>> k = ⟨m / 2 ^ k, false, false⟩ := by
  induction k with
  | zero => exact congrArg (ExtendedMantissa.mk · false false) (Nat.div_one m).symm
  | succ k ih =>
    have hk : 2 ^ k ∣ m := (pow_dvd_pow 2 (Nat.le_succ k)).trans h
    have heven : m / 2 ^ k % 2 = 0 := by
      rw [pow_succ] at h
      exact Nat.mod_eq_zero_of_dvd ((Nat.dvd_div_iff_mul_dvd hk).mpr h)
    rw [shiftRight_succ, ih hk, pow_succ, ← Nat.div_div_eq_div_mul]
    simp [ExtendedMantissa.shiftRightOne, heven]

theorem le_roundedMantissa (em : ExtendedMantissa) : em.mantissa ≤ em.roundedMantissa := by
  match em with
  | ⟨m, false, false⟩ => exact Nat.le_refl m
  | ⟨m, false, true⟩ => exact Nat.le_refl m
  | ⟨m, true, false⟩ => exact Nat.le_add_right m (m % 2)
  | ⟨m, true, true⟩ => exact Nat.le_add_right m 1

theorem roundedMantissa_le (em : ExtendedMantissa) : em.roundedMantissa ≤ em.mantissa + 1 := by
  match em with
  | ⟨m, false, false⟩ => exact Nat.le_add_right m 1
  | ⟨m, false, true⟩ => exact Nat.le_add_right m 1
  | ⟨m, true, false⟩ =>
    exact Nat.add_le_add_left (Nat.le_of_lt_succ (Nat.mod_lt m (by decide))) m
  | ⟨m, true, true⟩ => exact Nat.le_refl (m + 1)

theorem div_le_rounded (m : ℕ) (acc : Accuracy) (k : ℕ) : m / 2 ^ k ≤ rounded m acc k := by
  have h := le_roundedMantissa (ExtendedMantissa.ofMantissaAndAccuracy m acc >>> k)
  rwa [mantissa_shiftRight, mantissa_ofMantissaAndAccuracy] at h

theorem rounded_le (m : ℕ) (acc : Accuracy) (k : ℕ) : rounded m acc k ≤ m / 2 ^ k + 1 := by
  have h := roundedMantissa_le (ExtendedMantissa.ofMantissaAndAccuracy m acc >>> k)
  rwa [mantissa_shiftRight, mantissa_ofMantissaAndAccuracy] at h

/-- Nothing is rounded off a multiple of the grid. -/
theorem rounded_of_dvd (h : 2 ^ k ∣ m) : rounded m .exact k = m / 2 ^ k :=
  congrArg ExtendedMantissa.roundedMantissa (exact_shiftRight h)

/-- Rounding never passes a number of the grid. -/
theorem rounded_le_of_le {bound : ℕ} (h : m ≤ bound * 2 ^ k) : rounded m .exact k ≤ bound := by
  rw [Nat.mul_comm] at h
  rcases (Nat.div_le_of_le_mul h).lt_or_eq with hlt | heq
  · exact (rounded_le m .exact k).trans hlt
  · have hm : m = 2 ^ k * bound := by
      have := Nat.mul_div_le m (2 ^ k)
      rw [heq] at this
      exact le_antisymm h this
    rw [rounded_of_dvd (hm ▸ Nat.dvd_mul_right _ _), heq]

end Significands

/-! ### The grid -/

section Grid

variable {s : Sign} {m : ℕ} {e t : ℤ} {acc : Accuracy}

/-- The exponent that a number is rounded at: it leaves 24 bits, and is not below the least. -/
def gridExponent (m : ℕ) (e : ℤ) : ℤ := max (e + m.log2 - 23) (-149)

theorem targetExponent_eq (m : ℕ) (e : ℤ) :
    Format.binary32.targetExponent (totalExponent m e) = gridExponent m e := by
  have hbits : (Format.binary32.mantissaBits : ℤ) = 24 := rfl
  have hmin : Format.binary32.minExponent = -149 := rfl
  rw [Format.targetExponent, totalExponent, gridExponent, hbits, hmin]
  omega

/-- A rounded significand on the grid. One of 25 bits is carried. -/
def settle (s : Sign) (r : ℕ) (t : ℤ) : UnpackedFloat :=
  if h : r = 0 then .zero s
  else if r < 2 ^ 24 then .finite s r t (Nat.pos_of_ne_zero h)
  else .finite s (2 ^ 23) (t + 1) (Nat.two_pow_pos 23)

/-- On the grid there are 24 bits at most, and at an exponent above the least all of them. -/
theorem div_grid_lt (m : ℕ) (e : ℤ) : m / 2 ^ (gridExponent m e - e).toNat < 2 ^ 24 := by
  rw [Nat.div_lt_iff_lt_mul (Nat.two_pow_pos _), ← pow_add]
  refine Nat.lt_log2_self.trans_le (Nat.pow_le_pow_right (by decide) ?_)
  unfold gridExponent
  omega

theorem le_div_grid (hm : 0 < m) (h : e ≤ gridExponent m e) (hnormal : -149 < gridExponent m e) :
    2 ^ 23 ≤ m / 2 ^ (gridExponent m e - e).toNat := by
  rw [Nat.le_div_iff_mul_le (Nat.two_pow_pos _), ← pow_add]
  refine (Nat.pow_le_pow_right (by decide) ?_).trans (Nat.log2_self_le hm.ne')
  unfold gridExponent at h hnormal ⊢
  omega

theorem log2_le_of_lt {n k : ℕ} (h : n < 2 ^ (k + 1)) : n.log2 ≤ k := by
  rcases Nat.eq_zero_or_pos n with rfl | hpos
  · exact Nat.zero_le k
  · exact Nat.le_of_lt_succ ((Nat.log2_lt hpos.ne').mpr h)

/-- The second shift, after rounding, is for a carry. -/
theorem shiftToTargetExponent_rounded {r : ℕ} (hr : r ≤ 2 ^ 24) (ht : -149 ≤ t) :
    UnpackedFloat.shiftToTargetExponent Format.binary32 r t .exact =
      if r < 2 ^ 24 then (⟨r, false, false⟩, t) else (⟨2 ^ 23, false, false⟩, t + 1) := by
  rw [UnpackedFloat.shiftToTargetExponent, UnpackedFloat.shiftToExponent, targetExponent_eq]
  split
  · rename_i hlt
    have hlog : r.log2 ≤ 23 := log2_le_of_lt hlt
    have hshift : (gridExponent r t - t).toNat = 0 := by
      unfold gridExponent
      omega
    rw [hshift, Nat.cast_zero, add_zero]
    rfl
  · rename_i hge
    obtain rfl : r = 2 ^ 24 := le_antisymm hr (Nat.le_of_not_lt hge)
    have hlog : (2 ^ 24 : ℕ).log2 = 24 := Nat.log2_two_pow
    have hshift : (gridExponent (2 ^ 24) t - t).toNat = 1 := by
      rw [gridExponent, hlog]
      omega
    rw [hshift]
    rfl

/-- Rounding of a number that is not coarser than its grid. -/
theorem roundWithAccuracy_eq (h : e ≤ gridExponent m e) :
    roundWithAccuracy Format.binary32 s m e acc =
      settle s (rounded m acc (gridExponent m e - e).toNat) (gridExponent m e) := by
  have hexp : e + ((gridExponent m e - e).toNat : ℤ) = gridExponent m e := by omega
  have hfirst : UnpackedFloat.shiftToTargetExponent Format.binary32 m e acc =
      (ExtendedMantissa.ofMantissaAndAccuracy m acc >>> (gridExponent m e - e).toNat,
        gridExponent m e) := by
    rw [UnpackedFloat.shiftToTargetExponent, UnpackedFloat.shiftToExponent, targetExponent_eq,
      hexp]
  have hle : rounded m acc (gridExponent m e - e).toNat ≤ 2 ^ 24 :=
    (rounded_le _ _ _).trans (div_grid_lt m e)
  have hmin : -149 ≤ gridExponent m e := le_max_right _ _
  have hsecond := shiftToTargetExponent_rounded hle hmin
  rw [roundWithAccuracy, hfirst]
  dsimp only
  rw [← rounded, hsecond, settle]
  generalize rounded m acc (gridExponent m e - e).toNat = r
  by_cases hlt : r < 2 ^ 24
  · simp only [if_pos hlt]
  · have hne : r ≠ 0 := by
      rintro rfl
      exact hlt (by decide)
    simp only [if_neg hlt, dif_neg hne]
    rfl

theorem inFormat_settle {r : ℕ} (ht : -149 ≤ t) (hnormal : 2 ^ 23 ≤ r ∨ t = -149) :
    InFormat (settle s r t) := by
  unfold settle
  split
  · trivial
  · split
    · exact ⟨‹_›, ht, hnormal⟩
    · exact ⟨by decide, by omega, .inl le_rfl⟩

theorem inFormat_roundWithAccuracy (h : e ≤ gridExponent m e) :
    InFormat (roundWithAccuracy Format.binary32 s m e acc) := by
  have hmin : -149 ≤ gridExponent m e := le_max_right _ _
  rw [roundWithAccuracy_eq h]
  refine inFormat_settle hmin ?_
  rcases hmin.lt_or_eq with hnormal | hleast
  · have hpos : 0 < m := by
      by_contra hzero
      obtain rfl : m = 0 := by omega
      rw [gridExponent, Nat.log2_zero] at h hnormal
      omega
    exact .inl ((le_div_grid hpos h hnormal).trans (div_le_rounded _ _ _))
  · exact .inr hleast.symm

end Grid

/-! ### Counts -/

/-- A normal number from one on, or the positive infinity. -/
inductive AtLeastOne : UnpackedFloat → Prop
  | infinity : AtLeastOne (.infinity .positive)
  | finite {m : ℕ} {e : ℤ} (hpos : 0 < m) (hm : 2 ^ 23 ≤ m) (he : -23 ≤ e) :
      AtLeastOne (.finite .positive m e hpos)

theorem AtLeastOne.saturate {f : UnpackedFloat} (h : AtLeastOne f) :
    AtLeastOne (Binary32.saturate f) := by
  cases h with
  | infinity => exact .infinity
  | finite hpos hm he =>
    rw [Binary32.saturate]
    split
    · exact .finite hpos hm he
    · exact .infinity

/-- What is one or more stays so when it is rounded. -/
theorem atLeastOne_round {m : ℕ} {e : ℤ} (hbits : 23 ≤ m.log2) (hone : 0 ≤ e + m.log2) :
    AtLeastOne (Float32.Model.pack
      (roundWithAccuracy Format.binary32 .positive m e .exact)).unpack := by
  have hgrid : gridExponent m e = e + m.log2 - 23 := max_eq_left (by omega)
  have hle : e ≤ gridExponent m e := by omega
  have hpos : 0 < m := by
    by_contra hzero
    obtain rfl : m = 0 := by omega
    exact absurd hbits (by decide)
  have hr : 2 ^ 23 ≤ rounded m .exact (gridExponent m e - e).toNat :=
    (le_div_grid hpos hle (by omega)).trans (div_le_rounded _ _ _)
  rw [unpack_pack (inFormat_roundWithAccuracy hle), roundWithAccuracy_eq hle, settle,
    dif_neg (by omega)]
  refine AtLeastOne.saturate ?_
  split
  · exact .finite _ hr (by omega)
  · exact .finite _ le_rfl (by omega)

theorem log2_shiftLeft {n : ℕ} (hn : 0 < n) (k : ℕ) : (n <<< k).log2 = n.log2 + k := by
  rw [Nat.shiftLeft_eq]
  refine (Nat.log2_eq_iff (Nat.mul_pos hn (Nat.two_pow_pos k)).ne').mpr ⟨?_, ?_⟩
  · rw [pow_add]
    exact Nat.mul_le_mul_right _ (Nat.log2_self_le hn.ne')
  · rw [add_right_comm, pow_add]
    exact Nat.mul_lt_mul_of_pos_right Nat.lt_log2_self (Nat.two_pow_pos k)

/-- A small count is shifted up to 24 bits. -/
theorem ofUInt64_toUInt64 {n : ℕ} (hn : 0 < n) (hsmall : n < 2 ^ 23) :
    UnpackedFloat.ofUInt64 Format.binary32 n.toUInt64 =
      roundWithAccuracy Format.binary32 .positive (n <<< (0 - gridExponent n 0).toNat)
        (0 - (0 - gridExponent n 0).toNat) .exact := by
  have hnat : n.toUInt64.toNat = n := UInt64.toNat_ofNat_of_lt' (hsmall.trans (by decide))
  have hcompare : compare (n : ℤ) 0 = .gt := compare_gt_iff_gt.mpr (by omega)
  rw [UnpackedFloat.ofUInt64, UnpackedFloat.ofNat, UnpackedFloat.ofInt, hnat,
    UnpackedFloat.normalize, hcompare]
  dsimp only
  rw [Int.toNat_natCast, UnpackedFloat.round, targetExponent_eq]
  rfl

theorem atLeastOne_toFloat32 {n : ℕ} (hn : 0 < n) (hsmall : n < 2 ^ 23) :
    AtLeastOne (reading n.toUInt64.toFloat32) := by
  have hlog : n.log2 < 23 := (Nat.log2_lt hn.ne').mpr hsmall
  have hshift := log2_shiftLeft hn (0 - gridExponent n 0).toNat
  have hgrid : gridExponent n 0 = n.log2 - 23 := by
    unfold gridExponent
    omega
  have hreading : reading n.toUInt64.toFloat32 = (Float32.Model.pack
      (UnpackedFloat.ofUInt64 Format.binary32 n.toUInt64)).unpack := rfl
  rw [hreading, ofUInt64_toUInt64 hn hsmall]
  exact atLeastOne_round (by omega) (by omega)

/-- A large count is shifted up, and rounded once. -/
theorem ofScientific_zero {n : ℕ} (hn : 0 < n) :
    UnpackedFloat.ofScientific Format.binary32 n 0 =
      roundWithAccuracy Format.binary32 .positive (n <<< 24) (-24) .exact := by
  have hlarge : ¬ (0 : ℤ) > 2 ^ Format.binary32.exponentBits := by decide
  have hsmall : ¬ (0 : ℤ) < -((2 ^ Format.binary32.exponentBits : ℤ) + n.log2) := by
    have : (2 : ℤ) ^ Format.binary32.exponentBits = 256 := rfl
    omega
  have hbits : Format.binary32.mantissaBits = 24 := rfl
  have hsign : Sign.positive * Sign.positive = Sign.positive := rfl
  rw [UnpackedFloat.ofScientific, dif_neg hn.ne', if_neg hlarge, if_neg hsmall,
    if_pos (le_refl 0), UnpackedFloat.mul, hsign, hbits, Int.toNat_zero, pow_zero, mul_one,
    add_zero]
  rfl

/-- A product of numbers from one on. -/
theorem AtLeastOne.mul {x y : Float32} (hx : AtLeastOne (reading x))
    (hy : AtLeastOne (reading y)) : AtLeastOne (reading (x * y)) := by
  have hreading : reading (x * y) = (Float32.Model.pack
      (UnpackedFloat.mul Format.binary32 (reading x) (reading y))).unpack := rfl
  rw [hreading]
  have hinfinity : AtLeastOne (Float32.Model.pack (.infinity .positive)).unpack := by
    rw [unpack_pack (f := .infinity .positive) trivial]
    exact .infinity
  generalize reading x = a at hx ⊢
  generalize reading y = b at hy ⊢
  cases hx with
  | infinity => cases hy <;> exact hinfinity
  | finite hpos hm he =>
    cases hy with
    | infinity => exact hinfinity
    | finite hpos' hm' he' =>
      have hlog := (Nat.le_log2 (Nat.mul_pos hpos hpos').ne').mpr
        ((pow_add 2 23 23).trans_le (Nat.mul_le_mul hm hm'))
      exact atLeastOne_round (by omega) (by omega)

theorem atLeastOne_one : AtLeastOne (reading 1) :=
  AtLeastOne.finite (Nat.two_pow_pos 23) le_rfl le_rfl

/-- A count from one on is not rounded below one. -/
theorem atLeastOne_ofNat {n : ℕ} (hn : 0 < n) : AtLeastOne (reading (Float32.ofNat n)) := by
  by_cases hsmall : n < 2 ^ 23
  · have hfast : Float32.ofNat n = n.toUInt64.toFloat32 * 1 := dif_pos ⟨hsmall, by decide⟩
    rw [hfast]
    exact (atLeastOne_toFloat32 hn hsmall).mul atLeastOne_one
  · have hslow : reading (Float32.ofNat n) = (Float32.Model.pack
        (UnpackedFloat.ofScientific Format.binary32 n 0)).unpack :=
      congrArg reading (dif_neg fun h => hsmall h.1)
    have hlog : 23 ≤ n.log2 := (Nat.le_log2 hn.ne').mpr (Nat.le_of_not_lt hsmall)
    have hshift := log2_shiftLeft hn 24
    rw [hslow, ofScientific_zero hn]
    exact atLeastOne_round (by omega) (by omega)

/-! ### Shares -/

/-- A zero, or a positive number up to one. -/
inductive AtMostOne : UnpackedFloat → Prop
  | zero (s : Sign) : AtMostOne (.zero s)
  | finite {m : ℕ} {e : ℤ} (hpos : 0 < m) (he : e ≤ 0) (hm : m ≤ 2 ^ (-e).toNat) :
      AtMostOne (.finite .positive m e hpos)

theorem AtMostOne.saturate {f : UnpackedFloat} (h : AtMostOne f) :
    AtMostOne (Binary32.saturate f) := by
  cases h with
  | zero s => exact .zero s
  | finite hpos he hm =>
    rw [Binary32.saturate, if_pos (by omega)]
    exact .finite hpos he hm

/-- On a grid from which one is 24 bits away, every number is at most one. -/
theorem atMostOne_settle {r : ℕ} {t : ℤ} (ht : t ≤ -24) : AtMostOne (settle .positive r t) := by
  have hpow : ∀ e : ℤ, e ≤ -24 → 2 ^ 24 ≤ 2 ^ (-e).toNat := by
    intro e he
    exact Nat.pow_le_pow_right (by decide) (by omega)
  unfold settle
  split
  · exact .zero _
  · split
    · rename_i hlt
      exact .finite _ (by omega) (hlt.le.trans (hpow t ht))
    · exact .finite _ (by omega) (Nat.pow_le_pow_right (by decide) (by omega))

theorem log2_of_normal {m : ℕ} (hm : 2 ^ 23 ≤ m) (hm' : m < 2 ^ 24) : m.log2 = 23 :=
  (Nat.log2_eq_iff (by omega)).mpr ⟨hm, hm'⟩

section Reciprocal

variable {m k : ℕ} {e : ℤ} (hm : 2 ^ 23 ≤ m) (hm' : m < 2 ^ 24) (he' : e ≤ 104)
  (hk : (k : ℤ) = min 24 (126 - e))

include hm hm' he' hk

/-- The quotient of one by a normal number from one on: one is shifted up by `k` first. -/
theorem divCore_one :
    divCore Format.binary32 (2 ^ 23) (-23) m e =
      ((2 ^ 23) <<< k / m, -23 - e - k,
        UnpackedFloat.accuracyOfFraction ((2 ^ 23) <<< k % m) m) := by
  have hlog : (2 ^ 23 : ℕ).log2 = 23 := Nat.log2_two_pow
  have hlog' : m.log2 = 23 := log2_of_normal hm hm'
  have hbits : (Format.binary32.mantissaBits : ℤ) = 24 := rfl
  have hmin : Format.binary32.minExponent = -149 := rfl
  have htarget : min (-23 - e) (Format.binary32.targetExponent
      (totalExponent (2 ^ 23) (-23) - totalExponent m e)) = -23 - e - k := by
    rw [Format.targetExponent, totalExponent, totalExponent, hlog, hlog', hbits, hmin]
    omega
  have hshift : (-23 - e - (-23 - e - (k : ℤ))).toNat = k := by omega
  rw [divCore, htarget, hshift]

/-- The quotient is not coarser than its grid. -/
theorem le_gridExponent_quotient :
    (-23 : ℤ) - e - k ≤ gridExponent ((2 ^ 23) <<< k / m) (-23 - e - k) := by
  unfold gridExponent
  rcases le_or_gt e 102 with hnormal | hsmall
  · obtain rfl : k = 24 := by omega
    have hq : 2 ^ 23 ≤ (2 ^ 23) <<< 24 / m := by
      rw [Nat.le_div_iff_mul_le (by omega), Nat.shiftLeft_eq]
      omega
    have hlog : 23 ≤ ((2 ^ 23) <<< 24 / m).log2 := (Nat.le_log2 (by omega)).mpr hq
    omega
  · omega

/-- Unless the quotient is one, its grid is 24 bits below one, or lower. -/
theorem gridExponent_quotient_le (he : -23 ≤ e) (hone : 2 ^ 23 < m ∨ -23 < e) :
    gridExponent ((2 ^ 23) <<< k / m) (-23 - e - k) ≤ -24 := by
  have hle : (2 ^ 23) <<< k / m ≤ 2 ^ k := by
    rw [Nat.shiftLeft_eq]
    exact Nat.div_le_of_le_mul (Nat.mul_le_mul_right _ hm)
  have hlog : ((2 ^ 23) <<< k / m).log2 ≤ k :=
    log2_le_of_lt (hle.trans_lt (Nat.pow_lt_pow_right (by decide) (Nat.lt_succ_self k)))
  unfold gridExponent
  rcases hone with hlarge | hexp
  · have hlt : (2 ^ 23) <<< k / m < 2 ^ (23 + 1) := by
      rw [Nat.div_lt_iff_lt_mul (by omega), Nat.shiftLeft_eq, mul_comm]
      have hpow : 2 ^ k ≤ 2 ^ 24 := Nat.pow_le_pow_right (by decide) (by omega)
      exact (Nat.mul_le_mul_right _ hpow).trans_lt (Nat.mul_lt_mul_of_pos_left hlarge (by decide))
    have := log2_le_of_lt hlt
    omega
  · omega

end Reciprocal

/-- The reciprocal of a number from one on is not rounded above one. -/
theorem atMostOne_one_div {y : Float32} (hy : AtLeastOne (reading y)) :
    AtMostOne (reading (1 / y)) := by
  have hreading : reading (1 / y) = (Float32.Model.pack
      (UnpackedFloat.div Format.binary32 (.finite .positive (2 ^ 23) (-23) (by decide))
        (reading y))).unpack := rfl
  rw [hreading]
  have hformat := inFormat_reading y
  have hfits := saturate_reading y
  generalize reading y = b at hy hformat hfits ⊢
  cases hy with
  | infinity =>
    have hzero : ∀ s, AtMostOne (Float32.Model.pack (.zero s)).unpack := by
      intro s
      rw [unpack_pack (f := .zero s) trivial]
      exact .zero s
    exact hzero _
  | @finite m e hpos hm he =>
    have he' := exponent_le_of_saturate hfits
    obtain ⟨hm', -, -⟩ := hformat
    by_cases hone : 2 ^ 23 < m ∨ -23 < e
    · obtain ⟨k, hk⟩ : ∃ k : ℕ, (k : ℤ) = min 24 (126 - e) :=
        ⟨(min 24 (126 - e)).toNat, by omega⟩
      have hle := le_gridExponent_quotient hm hm' he' hk
      have hsign : Sign.positive / Sign.positive = Sign.positive := rfl
      rw [UnpackedFloat.div, divCore_one hm hm' he' hk]
      dsimp only
      rw [unpack_pack (inFormat_roundWithAccuracy hle), roundWithAccuracy_eq hle, hsign]
      exact (atMostOne_settle (gridExponent_quotient_le hm hm' he' hk he hone)).saturate
    · obtain ⟨rfl, rfl⟩ : m = 2 ^ 23 ∧ e = -23 := by omega
      have hclosed : (1 / 1 : Float32) = 1 := by decide +kernel
      have hself : (Float32.Model.pack (UnpackedFloat.div Format.binary32
          (.finite .positive (2 ^ 23) (-23) (by decide))
          (.finite .positive (2 ^ 23) (-23) hpos))).unpack = reading 1 :=
        congrArg reading hclosed
      rw [hself]
      exact AtMostOne.finite (Nat.two_pow_pos 23) (by decide) (by decide)

/-! ### What stays finite -/

/-- A number on a low enough grid is not too large, if a carry has room. -/
theorem isFinite_saturate_settle {s : Sign} {r : ℕ} {t : ℤ} (ht : t ≤ 104)
    (hcarry : 2 ^ 24 ≤ r → t + 1 ≤ 104) : (saturate (settle s r t)).isFinite = true := by
  unfold settle
  split
  · rfl
  · split
    · rw [saturate, if_pos ht]
      rfl
    · rename_i hge
      rw [saturate, if_pos (hcarry (Nat.le_of_not_lt hge))]
      rfl

/-- A number of the format times a share, rounded, is not too large. -/
theorem isFinite_unpack_pack_share {s : Sign} {m m' : ℕ} {e e' : ℤ} (hpos' : 0 < m')
    (hm : m < 2 ^ 24) (he : -149 ≤ e) (hnormal : 2 ^ 23 ≤ m ∨ e = -149) (hfits : e ≤ 104)
    (he' : e' ≤ 0) (hm' : m' ≤ 2 ^ (-e').toNat) :
    (Float32.Model.pack (roundWithAccuracy Format.binary32 s (m * m') (e + e')
      .exact)).unpack.isFinite = true := by
  have hlog : (m * m').log2 ≤ 23 + (-e').toNat := by
    refine log2_le_of_lt ?_
    rw [add_right_comm, pow_add]
    exact (Nat.mul_le_mul_left m hm').trans_lt (Nat.mul_lt_mul_of_pos_right hm (by positivity))
  have hgrid : gridExponent (m * m') (e + e') ≤ e := by
    unfold gridExponent
    omega
  have hle : e + e' ≤ gridExponent (m * m') (e + e') := by
    rcases hnormal with hbits | hleast
    · have hprod : 2 ^ 23 ≤ m * m' := hbits.trans (Nat.le_mul_of_pos_right m hpos')
      have hlow : 23 ≤ (m * m').log2 := (Nat.le_log2 (by omega)).mpr hprod
      unfold gridExponent
      omega
    · unfold gridExponent
      omega
  rw [unpack_pack (inFormat_roundWithAccuracy hle), roundWithAccuracy_eq hle]
  refine isFinite_saturate_settle (hgrid.trans hfits) fun hcarry => ?_
  -- on the grid of the number itself the product is rounded to no more than the number
  rcases hgrid.lt_or_eq with hlt | hsame
  · omega
  · have hshift : (gridExponent (m * m') (e + e') - (e + e')).toNat = (-e').toNat := by omega
    have hbound := rounded_le_of_le (Nat.mul_le_mul_left m hm')
    rw [hshift] at hcarry
    omega

/-- A finite number times a share is finite. -/
theorem isFinite_mul_of_atMostOne {x u : Float32} (hx : x.isFinite = true)
    (hu : AtMostOne (reading u)) : (x * u).isFinite = true := by
  have hreading : reading (x * u) = (Float32.Model.pack
      (UnpackedFloat.mul Format.binary32 (reading x) (reading u))).unpack := rfl
  rw [isFinite_iff] at hx ⊢
  rw [hreading]
  have hzero : ∀ s, (Float32.Model.pack (.zero s)).unpack.isFinite = true := by
    intro s
    rw [unpack_pack (f := .zero s) trivial]
    rfl
  have hformat := inFormat_reading x
  have hfits := saturate_reading x
  generalize reading x = a at hx hformat hfits ⊢
  generalize reading u = b at hu ⊢
  cases a with
  | infinity s => cases hx
  | notANumber => cases hx
  | zero s => cases hu <;> exact hzero _
  | finite s m e hpos =>
    cases hu with
    | zero s' => exact hzero _
    | @finite m' e' hpos' he' hm' =>
      obtain ⟨hm, he, hnormal⟩ := hformat
      exact isFinite_unpack_pack_share hpos' hm he hnormal (exponent_le_of_saturate hfits) he' hm'

/-! ### What never becomes finite again -/

theorem isFinite_unpack_pack_of_special {f : UnpackedFloat} (h : f.isFinite = false) :
    (Float32.Model.pack f).unpack.isFinite = false := by
  cases f with
  | finite s m e hpos => cases h
  | zero s => cases h
  | infinity s => exact congrArg UnpackedFloat.isFinite (unpack_pack (f := .infinity s) trivial)
  | notANumber => exact congrArg UnpackedFloat.isFinite (unpack_pack (f := .notANumber) trivial)

theorem isFinite_add_unpacked {a b : UnpackedFloat} (h : a.isFinite = false ∨ b.isFinite = false) :
    (UnpackedFloat.add Format.binary32 a b).isFinite = false := by
  cases a with
  | notANumber => rfl
  | infinity s =>
    cases b with
    | infinity s' => cases s <;> cases s' <;> rfl
    | _ => rfl
  | _ =>
    cases b with
    | notANumber => rfl
    | infinity s' => rfl
    | _ => rcases h with h | h <;> cases h

theorem isFinite_mul_unpacked {a b : UnpackedFloat} (h : a.isFinite = false ∨ b.isFinite = false) :
    (UnpackedFloat.mul Format.binary32 a b).isFinite = false := by
  cases a with
  | notANumber => rfl
  | infinity s =>
    cases b with
    | infinity s' => rfl
    | _ => rfl
  | _ =>
    cases b with
    | notANumber => rfl
    | infinity s' => rfl
    | _ => rcases h with h | h <;> cases h

/-- A finite sum has finite terms. -/
theorem isFinite_of_add {x y : Float32} (h : (x + y).isFinite = true) :
    x.isFinite = true ∧ y.isFinite = true := by
  by_contra hnot
  rw [not_and_or, Bool.not_eq_true, Bool.not_eq_true] at hnot
  have hsum : (x + y).isFinite = false :=
    isFinite_unpack_pack_of_special (isFinite_add_unpacked hnot)
  exact Bool.false_ne_true (hsum.symm.trans h)

/-- A finite product has finite factors. -/
theorem isFinite_of_mul {x y : Float32} (h : (x * y).isFinite = true) :
    x.isFinite = true ∧ y.isFinite = true := by
  by_contra hnot
  rw [not_and_or, Bool.not_eq_true, Bool.not_eq_true] at hnot
  have hproduct : (x * y).isFinite = false :=
    isFinite_unpack_pack_of_special (isFinite_mul_unpacked hnot)
  exact Bool.false_ne_true (hproduct.symm.trans h)

/-- Zero adds nothing. -/
theorem isFinite_zero_add {x : Float32} (h : x.isFinite = true) : (0 + x).isFinite = true := by
  have hreading : reading (0 + x) = (Float32.Model.pack
      (UnpackedFloat.add Format.binary32 (.zero .positive) (reading x))).unpack := rfl
  rw [isFinite_iff] at h ⊢
  rw [hreading]
  have hformat := inFormat_reading x
  have hfits := saturate_reading x
  generalize reading x = a at h hformat hfits ⊢
  cases a with
  | infinity s => cases h
  | notANumber => cases h
  | zero s => cases s <;> rfl
  | finite s m e hpos =>
    exact congrArg UnpackedFloat.isFinite ((unpack_pack hformat).trans hfits)

/-- Dividing by a count, through its reciprocal, neither makes a number finite nor not. -/
theorem isFinite_mul_one_div_iff {n : ℕ} (hn : 0 < n) (x : Float32) :
    (x * (1 / Float32.ofNat n)).isFinite = true ↔ x.isFinite = true :=
  ⟨fun h => (isFinite_of_mul h).1,
    fun h => isFinite_mul_of_atMostOne h (atMostOne_one_div (atLeastOne_ofNat hn))⟩

end IqBalance.Binary32
