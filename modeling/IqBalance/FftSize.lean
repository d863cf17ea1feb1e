import IqBalance.Power

/-!
Transform lengths. A length is a power of two between 64 and 65536, kept by
its exponent; `ofBins?` recognises the bin counts that are one, and
`ofBins?_eq_some_iff` says that it finds exactly those.
-/

namespace IqBalance

/-- A supported transform length, by its exponent. -/
structure FftSize where
  log2 : Nat
  le_log2 : 6 ≤ log2 := by decide
  log2_le : log2 ≤ 16 := by decide
  deriving DecidableEq

namespace FftSize

/-- The number of bins. -/
def bins (size : FftSize) : Nat := 2 ^ size.log2

/-- The length with this many bins, if there is one. -/
def ofBins? (bins : Nat) : Option FftSize :=
  if h : 6 ≤ bins.log2 ∧ bins.log2 ≤ 16 ∧ 2 ^ bins.log2 = bins then some ⟨bins.log2, h.1, h.2.1⟩
  else none

theorem bins_pos (size : FftSize) : 0 < size.bins := Nat.two_pow_pos _

theorem le_bins (size : FftSize) : 64 ≤ size.bins :=
  Nat.pow_le_pow_right (n := 2) (by decide) size.le_log2

theorem bins_le (size : FftSize) : size.bins ≤ 65536 :=
  Nat.pow_le_pow_right (n := 2) (by decide) size.log2_le

@[simp] theorem ofBins?_bins (size : FftSize) : ofBins? size.bins = some size := by
  have h : size.bins.log2 = size.log2 := Nat.log2_two_pow
  unfold ofBins?
  rw [dif_pos ⟨by rw [h]; exact size.le_log2, by rw [h]; exact size.log2_le, by rw [h]; rfl⟩]
  cases size
  simp only [Option.some.injEq, mk.injEq]
  exact h

theorem ofBins?_eq_some_iff {bins : Nat} {size : FftSize} :
    ofBins? bins = some size ↔ size.bins = bins := by
  constructor
  · intro h
    unfold ofBins? at h
    split at h
    · cases h
      rename_i hb
      exact hb.2.2
    · cases h
  · rintro rfl
    exact ofBins?_bins size

end FftSize

end IqBalance
