import Mathlib
import IqBalance.Proofs.Binary32.Reading

/-!
Comparison in single precision.

Numbers compare first by sign, then by exponent and significand; `rank` says
so in one linear order. Where both sides are numbers, `≤` and `<` are those of
the ranks (`le_iff`, `lt_iff`), so what is known of linear orders holds: a
comparison that fails turns round, and comparisons chain. What is not a number
compares with nothing.
-/

namespace IqBalance.Binary32

open Float.Model (UnpackedFloat)
open Float.Model.UnpackedFloat (Sign)

/-- Where a reading stands: by sign, then by exponent, then by significand. -/
def rank : UnpackedFloat → ℤ ×ₗ ℤ ×ₗ ℤ
  | .infinity .negative => toLex (-2, toLex (0, 0))
  | .finite .negative m e _ => toLex (-1, toLex (-e, -m))
  | .zero _ => toLex (0, toLex (0, 0))
  | .notANumber => toLex (0, toLex (0, 0))
  | .finite .positive m e _ => toLex (1, toLex (e, m))
  | .infinity .positive => toLex (2, toLex (0, 0))

theorem toLex_le_iff {a b a' b' a'' b'' : ℤ} :
    toLex (a, toLex (a', a'')) ≤ toLex (b, toLex (b', b'')) ↔
      a < b ∨ a = b ∧ (a' < b' ∨ a' = b' ∧ a'' ≤ b'') := by
  rw [Prod.Lex.toLex_le_toLex, Prod.Lex.toLex_le_toLex]

theorem toLex_lt_iff {a b a' b' a'' b'' : ℤ} :
    toLex (a, toLex (a', a'')) < toLex (b, toLex (b', b'')) ↔
      a < b ∨ a = b ∧ (a' < b' ∨ a' = b' ∧ a'' < b'') := by
  rw [Prod.Lex.toLex_lt_toLex, Prod.Lex.toLex_lt_toLex]

/-- Exponents first, then significands. -/
theorem compare_positive (e e' : ℤ) (m m' : ℕ) :
    (compare e e').then (compare m m') =
      if e < e' ∨ e = e' ∧ m < m' then .lt else if e = e' ∧ m = m' then .eq else .gt := by
  rcases lt_trichotomy e e' with h | rfl | h
  · rw [compare_lt_iff_lt.mpr h, if_pos (.inl h)]
    rfl
  · rw [compare_eq_iff_eq.mpr rfl, Ordering.eq_then]
    rcases lt_trichotomy m m' with h' | rfl | h'
    · rw [compare_lt_iff_lt.mpr h', if_pos (.inr ⟨rfl, h'⟩)]
    · rw [compare_eq_iff_eq.mpr rfl, if_neg (by omega), if_pos ⟨rfl, rfl⟩]
    · rw [compare_gt_iff_gt.mpr h', if_neg (by omega), if_neg (by omega)]
  · rw [compare_gt_iff_gt.mpr h, if_neg (by omega), if_neg (by omega)]
    rfl

/-- Below zero it is the other way round. -/
theorem compare_negative (e e' : ℤ) (m m' : ℕ) :
    ((compare e e').then (compare m m')).swap =
      if -e < -e' ∨ -e = -e' ∧ -(m : ℤ) < -m' then .lt
      else if e = e' ∧ m = m' then .eq else .gt := by
  rw [compare_positive]
  split_ifs <;> first | rfl | omega

/-- Two readings that are numbers compare as their ranks do. -/
theorem compare_eq {a b : UnpackedFloat} (ha : a.isNaN = false) (hb : b.isNaN = false) :
    a.compare b =
      some (if rank a < rank b then .lt else if rank a = rank b then .eq else .gt) := by
  cases a with
  | notANumber => cases ha
  | infinity s =>
    cases b with
    | notANumber => cases hb
    | infinity s' => cases s <;> cases s' <;> rfl
    | zero s' => cases s <;> rfl
    | finite s' m' e' h' => cases s <;> cases s' <;> simp [UnpackedFloat.compare, rank, toLex_lt_iff]
  | zero s =>
    cases b with
    | notANumber => cases hb
    | infinity s' => cases s' <;> rfl
    | zero s' => rfl
    | finite s' m' e' h' => cases s' <;> simp [UnpackedFloat.compare, rank, toLex_lt_iff]
  | finite s m e h =>
    cases b with
    | notANumber => cases hb
    | infinity s' => cases s <;> cases s' <;> simp [UnpackedFloat.compare, rank, toLex_lt_iff]
    | zero s' => cases s <;> simp [UnpackedFloat.compare, rank, toLex_lt_iff]
    | finite s' m' e' h' =>
      cases s with
      | negative =>
        cases s' with
        | negative =>
          rw [UnpackedFloat.compare, compare_negative]
          simp [rank, toLex_lt_iff]
        | positive => simp [UnpackedFloat.compare, rank, toLex_lt_iff]
      | positive =>
        cases s' with
        | negative => simp [UnpackedFloat.compare, rank, toLex_lt_iff]
        | positive =>
          rw [UnpackedFloat.compare, compare_positive]
          simp [rank, toLex_lt_iff]

theorem compare_of_isNaN {a b : UnpackedFloat} (h : a.isNaN = true ∨ b.isNaN = true) :
    a.compare b = none := by
  cases a with
  | notANumber => rfl
  | _ =>
    cases b with
    | notANumber => rfl
    | _ => rcases h with h | h <;> cases h

/-! ### Numbers -/

variable {x y z : Float32}

/-- Comparison that may fail for want of a number. -/
theorem compare_reading (x y : Float32) :
    (reading x).compare (reading y) =
      if x.isNaN = true ∨ y.isNaN = true then none
      else some (if rank (reading x) < rank (reading y) then .lt
        else if rank (reading x) = rank (reading y) then .eq else .gt) := by
  split
  · rename_i h
    exact compare_of_isNaN h
  · rename_i h
    rw [not_or, Bool.not_eq_true, Bool.not_eq_true] at h
    exact compare_eq h.1 h.2

theorem le_iff :
    x ≤ y ↔ x.isNaN = false ∧ y.isNaN = false ∧ rank (reading x) ≤ rank (reading y) := by
  have hle : x ≤ y ↔ ((reading x).compare (reading y)).any (·.isLE) := decide_eq_true_iff
  rw [hle, compare_reading]
  cases x.isNaN <;> cases y.isNaN <;> simp
  rcases lt_trichotomy (rank (reading x)) (rank (reading y)) with h | h | h
  · simp [h, h.le]
  · simp [h]
  · simp [h.not_gt, h.ne', h]

theorem lt_iff :
    x < y ↔ x.isNaN = false ∧ y.isNaN = false ∧ rank (reading x) < rank (reading y) := by
  have hlt : x < y ↔ ((reading x).compare (reading y)) == some .lt := decide_eq_true_iff
  rw [hlt, compare_reading]
  cases x.isNaN <;> cases y.isNaN <;> simp

theorem le_trans (h : x ≤ y) (h' : y ≤ z) : x ≤ z := by
  rw [le_iff] at h h' ⊢
  exact ⟨h.1, h'.2.1, h.2.2.trans h'.2.2⟩

theorem le_of_not_lt (hx : x.isNaN = false) (hy : y.isNaN = false) (h : ¬ y < x) : x ≤ y := by
  rw [lt_iff] at h
  rw [le_iff]
  exact ⟨hx, hy, le_of_not_gt fun hlt => h ⟨hy, hx, hlt⟩⟩

theorem isNaN_of_isFinite (h : x.isFinite = true) : x.isNaN = false := by
  rw [isFinite_iff] at h
  rw [isNaN_iff]
  cases hx : reading x with
  | notANumber => rw [hx] at h; cases h
  | _ => rfl

theorem isNaN_neg (x : Float32) : (-x).isNaN = x.isNaN := by
  rw [isNaN_iff, isNaN_iff, reading_neg]
  cases reading x <;> rfl

theorem le_of_lt (h : x < y) : x ≤ y := by
  rw [lt_iff] at h
  exact le_iff.mpr ⟨h.1, h.2.1, h.2.2.le⟩

theorem lt_of_lt_of_le (h : x < y) (h' : y ≤ z) : x < z := by
  rw [lt_iff] at h
  rw [le_iff] at h'
  exact lt_iff.mpr ⟨h.1, h'.2.1, h.2.2.trans_le h'.2.2⟩

theorem lt_of_not_le (hx : x.isNaN = false) (hy : y.isNaN = false) (h : ¬ y ≤ x) : x < y := by
  rw [le_iff] at h
  exact lt_iff.mpr ⟨hx, hy, lt_of_not_ge fun hle => h ⟨hy, hx, hle⟩⟩

theorem not_lt_of_le (h : x ≤ y) : ¬ y < x := by
  intro hlt
  exact absurd (lt_iff.mp hlt).2.2 (le_iff.mp h).2.2.not_gt

/-- Comparison looks at readings alone. -/
theorem le_congr {x' y' : Float32} (hx : reading x = reading x') (hy : reading y = reading y') :
    x ≤ y ↔ x' ≤ y' := by
  simp only [le_iff, isNaN_iff, hx, hy]

/-! ### Sign -/

/-- A number above zero, or the positive infinity. -/
inductive Positive : UnpackedFloat → Prop
  | infinity : Positive (.infinity .positive)
  | finite {m : ℕ} {e : ℤ} (hpos : 0 < m) : Positive (.finite .positive m e hpos)

theorem rank_zero : rank (reading 0) = toLex (0, toLex (0, 0)) := rfl

theorem positive_of_rank {f : UnpackedFloat} (h : rank (reading 0) < rank f) : Positive f := by
  rw [rank_zero] at h
  cases f with
  | notANumber => exact absurd h (lt_irrefl _)
  | zero s => exact absurd h (lt_irrefl _)
  | infinity s =>
    cases s with
    | negative => simp [rank, toLex_lt_iff] at h
    | positive => exact .infinity
  | finite s m e hpos =>
    cases s with
    | negative => simp [rank, toLex_lt_iff] at h
    | positive => exact .finite hpos

theorem positive_reading (h : 0 < x) : Positive (reading x) :=
  positive_of_rank (lt_iff.mp h).2.2

/-- A positive number is above its negative. -/
theorem neg_le_self (h : 0 < x) : -x ≤ x := by
  have hx := (lt_iff.mp h).2.1
  have hpositive := positive_reading h
  have hsign : -Sign.positive = Sign.negative := rfl
  refine le_iff.mpr ⟨(isNaN_neg x).trans hx, hx, ?_⟩
  rw [reading_neg]
  generalize reading x = f at hpositive ⊢
  cases hpositive with
  | infinity => simp [UnpackedFloat.neg, rank, toLex_le_iff, hsign]
  | finite hpos => simp [UnpackedFloat.neg, rank, toLex_le_iff, hsign]

end IqBalance.Binary32
