import IqBalance.Power

/-!
Bit reversal. `reverseBits m i` writes the `m` low binary digits of `i` in the
opposite order (`testBit_reverseBits`); on indices below `2 ^ m` it is its own
inverse (`reverseBits_reverseBits`). `bitReverse` reorders a vector in place by
swapping every index with a larger reversal; the first and the last index are
their own reversals and are not visited.
-/

namespace IqBalance.Spectrum

/-- The `m` low binary digits of `i` in the opposite order. -/
def reverseBits : Nat → Nat → Nat
  | 0, _ => 0
  | m + 1, i => i % 2 * 2 ^ m + reverseBits m (i / 2)

theorem reverseBits_lt (m i : Nat) : reverseBits m i < 2 ^ m := by
  induction m generalizing i with
  | zero => simp [reverseBits]
  | succ m ih =>
    have h := ih (i / 2)
    have hbit : i % 2 * 2 ^ m ≤ 1 * 2 ^ m := Nat.mul_le_mul_right _ (by omega)
    simp only [reverseBits, Nat.pow_succ]
    omega

theorem testBit_reverseBits (m i j : Nat) :
    (reverseBits m i).testBit j = (decide (j < m) && i.testBit (m - 1 - j)) := by
  induction m generalizing i j with
  | zero => simp [reverseBits]
  | succ m ih =>
    have hlt := reverseBits_lt m (i / 2)
    rw [reverseBits, Nat.mul_comm, Nat.testBit_two_pow_mul_add _ hlt]
    by_cases hj : j < m
    · have hsub : m + 1 - 1 - j = (m - 1 - j) + 1 := by omega
      simp only [hj, if_true, ih, hsub, Nat.testBit_succ, decide_true, Bool.true_and]
      have : j < m + 1 := by omega
      simp [this]
    · simp only [hj, if_false]
      by_cases he : j = m
      · subst he
        simp [Nat.testBit_zero]
      · have hne : ¬ j < m + 1 := by omega
        have hpos : j - m ≠ 0 := by omega
        obtain ⟨d, hd⟩ := Nat.exists_eq_succ_of_ne_zero hpos
        have hzero : i % 2 / 2 = 0 := by omega
        simp only [hd, Nat.succ_eq_add_one, Nat.testBit_succ, hzero, Nat.zero_testBit, hne,
          decide_false, Bool.false_and]

theorem reverseBits_reverseBits {m i : Nat} (h : i < 2 ^ m) :
    reverseBits m (reverseBits m i) = i := by
  apply Nat.eq_of_testBit_eq
  intro j
  rw [testBit_reverseBits, testBit_reverseBits]
  by_cases hj : j < m
  · have hback : m - 1 - (m - 1 - j) = j := by omega
    have hin : m - 1 - j < m := by omega
    simp [hj, hin, hback]
  · have hbit : i.testBit j = false :=
      Nat.testBit_lt_two_pow (Nat.lt_of_lt_of_le h (Nat.pow_le_pow_right (by decide) (by omega)))
    simp [hj, hbit]

/-- Swap index `i` with its reversal if that is larger. -/
def reversalSwap {β : Type} {m : Nat} (i : Nat) (hi : i < 2 ^ m) (v : Vector β (2 ^ m)) :
    Vector β (2 ^ m) :=
  if i < reverseBits m i then v.swap i (reverseBits m i) hi (reverseBits_lt m i) else v

/-- Bring every entry to the reversal of its index. -/
def bitReverse {β : Type} {m : Nat} (v : Vector β (2 ^ m)) : Vector β (2 ^ m) :=
  Nat.fold (2 ^ m - 2) (fun i hi v => reversalSwap (i + 1) (by omega) v) v

end IqBalance.Spectrum
