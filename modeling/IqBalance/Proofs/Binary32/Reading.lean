import Mathlib
import IqBalance.Scalar.Binary32

/-!
Single precision read as sign, significand and exponent.

An operation reads its arguments (`reading`), works on the readings, and packs
what it gets into 32 bits. `InFormat` says which readings the format has room
for, exponents from above aside, and `unpack_pack` says what packing does to
these: a number that is too large becomes an infinity, and nothing else
changes. So `reading` of a result is known as soon as the operation is known on
readings, and known to stay in the format; for a change of sign that is
`reading_neg`.
-/

namespace IqBalance.Binary32

open Float.Model (Format UnpackedFloat)
open Float.Model.UnpackedFloat (Sign packComponents unpackSign unpackExponent unpackMantissa
  unpackExponent_packComponents unpackMantissa_packComponents)

/-- A number as sign, significand and exponent, or as a special value. -/
def reading (x : Float32) : UnpackedFloat := x.toModel.unpack

/-- The significand has 24 bits, or fewer at the least exponent. -/
def InFormat : UnpackedFloat → Prop
  | .finite _ m e _ => m < 2 ^ 24 ∧ -149 ≤ e ∧ (2 ^ 23 ≤ m ∨ e = -149)
  | _ => True

/-- A number that is too large is an infinity. -/
def saturate : UnpackedFloat → UnpackedFloat
  | .finite s m e h => if e ≤ 104 then .finite s m e h else .infinity s
  | f => f

/-! ### Packing -/

theorem unpackSign_packComponents (s : Sign) (e : BitVec 8) (m : BitVec 23) :
    unpackSign (packComponents Format.binary32 s e m) = s.toBitVec := by
  have hfields : BitVec.extractLsb' 31 1 (s.toBitVec ++ e ++ m) = s.toBitVec := by
    rw [BitVec.extractLsb'_append_eq_of_le (by decide),
      BitVec.extractLsb'_append_eq_of_le (by decide)]
    cases s <;> rfl
  exact hfields

theorem ofBitVec_toBitVec (s : Sign) : Sign.ofBitVec s.toBitVec = s := by
  cases s <;> rfl

theorem toNat_implicitBit (m : BitVec 23) : (1#1 ++ m).toNat = 2 ^ 23 + m.toNat := by
  rw [BitVec.toNat_append, ← Nat.shiftLeft_add_eq_or_of_lt m.isLt]
  rfl

/-- The special values of the largest exponent field. -/
theorem unpack_top (s : Sign) (m : BitVec 23) :
    UnpackedFloat.unpack Format.binary32 (packComponents Format.binary32 s (-1#8) m) =
      if m = 0#23 then .infinity s else .notANumber := by
  simp only [UnpackedFloat.unpack, unpackMantissa_packComponents, unpackExponent_packComponents,
    unpackSign_packComponents, ofBitVec_toBitVec]
  rfl

/-- The least exponent field: zero, or a significand with leading zeros. -/
theorem unpack_bottom (s : Sign) {m : Nat} (hpos : 0 < m) (hm : m < 2 ^ 23) :
    UnpackedFloat.unpack Format.binary32
        (packComponents Format.binary32 s 0#8 (BitVec.ofNat 23 m)) = .finite s m (-149) hpos := by
  have hnat : (BitVec.ofNat 23 m).toNat = m := Nat.mod_eq_of_lt hm
  have hne : BitVec.ofNat 23 m ≠ 0#23 := by
    intro h
    rw [h] at hnat
    exact absurd hnat hpos.ne
  simp only [UnpackedFloat.unpack, unpackMantissa_packComponents, unpackExponent_packComponents,
    unpackSign_packComponents, ofBitVec_toBitVec, dif_neg hne, hnat]
  rfl

/-- An exponent field in between: the leading bit is not written. -/
theorem unpack_middle (s : Sign) {m b : Nat} (hm : 2 ^ 23 ≤ m) (hm' : m < 2 ^ 24) (hb : 0 < b)
    (hb' : b < 255) :
    UnpackedFloat.unpack Format.binary32
        (packComponents Format.binary32 s (BitVec.ofNat 8 b) (BitVec.ofNat 23 m)) =
      .finite s m (b - 150) (by omega) := by
  have hexp : (BitVec.ofNat 8 b).toNat = b := Nat.mod_eq_of_lt (by omega)
  have htop : BitVec.ofNat 8 b ≠ -1#8 := by
    intro h
    rw [h] at hexp
    exact absurd hexp.symm hb'.ne
  have hbottom : BitVec.ofNat 8 b ≠ 0#8 := by
    intro h
    rw [h] at hexp
    exact absurd hexp hb.ne
  have hsig : (1#1 ++ BitVec.ofNat 23 m).toNat = m := by
    rw [toNat_implicitBit, BitVec.toNat_ofNat]
    omega
  simp only [UnpackedFloat.unpack, unpackMantissa_packComponents, unpackExponent_packComponents,
    unpackSign_packComponents, ofBitVec_toBitVec, if_neg htop, if_neg hbottom, hexp, hsig]
  rfl

/-- Packing loses nothing but the size of a number that is too large. -/
theorem unpack_pack {f : UnpackedFloat} (h : InFormat f) :
    (Float32.Model.pack f).unpack = saturate f := by
  have hpack : (Float32.Model.pack f).unpack =
      UnpackedFloat.unpack Format.binary32 (UnpackedFloat.pack Format.binary32 f) := rfl
  rw [hpack]
  cases f with
  | notANumber => rfl
  | infinity s => cases s <;> rfl
  | zero s => cases s <;> rfl
  | finite s m e hpos =>
    obtain ⟨hm, he, hnormal⟩ := h
    have hbiased : e + (Format.binary32.exponentBias : Int) +
        (Format.binary32.mantissaBitsWithoutImplicit : Int) = e + 150 := add_assoc e 127 23
    rw [UnpackedFloat.pack, saturate, hbiased]
    by_cases hlarge : 104 < e
    · have hover : 2 ^ 8 ≤ (e + 150).toNat + 1 := by omega
      rw [if_pos hover, if_neg (Int.not_le.mpr hlarge)]
      exact unpack_top s 0#23
    · have hfits : ¬ 2 ^ 8 ≤ (e + 150).toNat + 1 := by omega
      rw [if_neg hfits, if_pos (Int.not_lt.mp hlarge)]
      by_cases hnormal' : 2 ^ 23 ≤ m
      · have hlog : m.log2 + 1 = Format.binary32.mantissaBits :=
          congrArg (· + 1) ((Nat.log2_eq_iff hpos.ne').mpr ⟨hnormal', hm⟩)
        have hb : ((e + 150).toNat : Int) - 150 = e := by omega
        rw [if_pos hlog]
        refine (unpack_middle s hnormal' hm (by omega) (by omega)).trans ?_
        simp only [hb]
      · have hsmall : m < 2 ^ 23 := Nat.lt_of_not_le hnormal'
        have hlog : ¬ m.log2 + 1 = Format.binary32.mantissaBits := by
          intro h
          exact (Nat.ne_of_lt ((Nat.log2_lt hpos.ne').mpr hsmall)) (Nat.succ_injective h)
        obtain rfl : e = -149 := hnormal.resolve_left hnormal'
        rw [if_neg hlog]
        exact unpack_bottom s hpos hsmall

/-! ### Readings -/

/-- What the 32 bits of a number can say. -/
theorem reading_cases (x : Float32) : InFormat (reading x) ∧ saturate (reading x) = reading x := by
  unfold reading Float32.Model.unpack UnpackedFloat.unpack
  have hm := (@unpackMantissa Format.binary32 x.toModel.toBits.toBitVec).isLt
  have he := (@unpackExponent Format.binary32 x.toModel.toBits.toBitVec).isLt
  have hbias : ((Format.binary32.exponentBias : Int) + Format.binary32.mantissaBitsWithoutImplicit)
      = 150 := rfl
  dsimp only
  rw [hbias]
  split
  · split <;> exact ⟨trivial, rfl⟩
  · rename_i htop
    split
    · rename_i hbottom
      split
      · exact ⟨trivial, rfl⟩
      · rw [hbottom]
        change _ < 2 ^ 23 at hm
        exact ⟨⟨Nat.lt_trans hm (by decide), by decide, .inr rfl⟩, rfl⟩
    · rename_i hbottom
      have htop' : (@unpackExponent Format.binary32 x.toModel.toBits.toBitVec).toNat ≠ 255 :=
        fun h => htop (BitVec.eq_of_toNat_eq h)
      have hbottom' : (@unpackExponent Format.binary32 x.toModel.toBits.toBitVec).toNat ≠ 0 :=
        fun h => hbottom (BitVec.eq_of_toNat_eq h)
      change _ < 2 ^ 23 at hm
      change _ < 2 ^ 8 at he
      have hsig := toNat_implicitBit
        (@unpackMantissa Format.binary32 x.toModel.toBits.toBitVec)
      refine ⟨⟨?_, ?_, .inl ?_⟩, if_pos ?_⟩ <;> omega

theorem inFormat_reading (x : Float32) : InFormat (reading x) := (reading_cases x).1

theorem saturate_reading (x : Float32) : saturate (reading x) = reading x := (reading_cases x).2

/-- Packing a reading loses nothing. -/
theorem unpack_pack_reading (x : Float32) :
    (Float32.Model.pack (reading x)).unpack = reading x :=
  (unpack_pack (inFormat_reading x)).trans (saturate_reading x)

theorem exponent_le_of_saturate {s : Sign} {m : ℕ} {e : ℤ} {h : 0 < m}
    (hfits : saturate (.finite s m e h) = .finite s m e h) : e ≤ 104 := by
  by_contra hlarge
  rw [saturate, if_neg hlarge] at hfits
  cases hfits

/-- The sign plays no part in the format. -/
theorem unpack_pack_neg (x : Float32) :
    (Float32.Model.pack (reading x).neg).unpack = (reading x).neg := by
  obtain ⟨hformat, hfits⟩ := reading_cases x
  cases h : reading x with
  | finite s m e hpos =>
    rw [h] at hformat hfits
    rw [unpack_pack (f := UnpackedFloat.neg (.finite s m e hpos)) hformat]
    exact if_pos (exponent_le_of_saturate hfits)
  | _ => exact unpack_pack (f := UnpackedFloat.neg _) trivial

theorem reading_neg (x : Float32) : reading (-x) = (reading x).neg := unpack_pack_neg x

theorem isFinite_iff (x : Float32) : x.isFinite = (reading x).isFinite := rfl

theorem isNaN_iff (x : Float32) : x.isNaN = (reading x).isNaN := rfl

end IqBalance.Binary32
