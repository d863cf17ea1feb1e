import Mathlib
import IqBalance.Proofs.Spectrum.InPlace

/-!
The reordering that bit reversal carries out.

`digitReversal` is the permutation of the indices that writes their binary
digits in the opposite order (`testBit_digitReversal`). A machine finds it by
reversing a whole word and dropping the digits that the index does not use
(`reverse_word`). The swaps, one for every pair of indices that mirror each
other, reorder the entries by it: each swap keeps all entries
(`reversalSwap_perm`), so their row does (`bitReverse_perm`), and a second row
undoes the first (`bitReverse_bitReverse`).
-/

namespace IqBalance.Spectrum

variable {β : Type} {m : ℕ}

/-! ### The indices -/

/-- The indices of `2 ^ m` entries, their digits in the opposite order. -/
def digitReversal (m : ℕ) : Equiv.Perm (Fin (2 ^ m)) :=
  Function.Involutive.toPerm reversal reversal_reversal

@[simp] theorem digitReversal_apply (c : Fin (2 ^ m)) : digitReversal m c = reversal c := rfl

theorem testBit_digitReversal (c : Fin (2 ^ m)) (digit : Fin m) :
    (digitReversal m c).val.testBit digit = c.val.testBit digit.rev := by
  have hmirror : m - 1 - digit.val = digit.rev := by
    rw [Fin.val_rev]
    omega
  rw [digitReversal_apply, reversal_val, testBit_reverseBits, decide_eq_true digit.isLt,
    Bool.true_and, hmirror]

/-- The whole word reversed, less the digits that an index of `m` digits leaves unused. -/
theorem reverse_word (i spare : ℕ) :
    ((BitVec.ofNat (m + spare) i).reverse >>> spare).toNat = reverseBits m i := by
  apply Nat.eq_of_testBit_eq
  intro j
  rw [BitVec.testBit_toNat, BitVec.getLsbD_ushiftRight, BitVec.getLsbD_reverse,
    BitVec.getMsbD_eq_getLsbD, BitVec.getLsbD_ofNat, testBit_reverseBits]
  by_cases hj : j < m
  · have hword : spare + j < m + spare := by omega
    have hdigit : m + spare - 1 - (spare + j) = m - 1 - j := by omega
    have hin : m - 1 - j < m + spare := by omega
    simp only [hword, hdigit, hin, hj, decide_true, Bool.true_and]
  · have hword : ¬ spare + j < m + spare := by omega
    simp only [hword, hj, decide_false, Bool.false_and]

/-! ### The swaps -/

/-- A swap loses no entry and doubles none. -/
theorem reversalSwap_perm {i : ℕ} (hi : i < 2 ^ m) (v : Vector β (2 ^ m)) :
    (reversalSwap i hi v).toList.Perm v.toList := by
  unfold reversalSwap
  split
  · exact (Vector.swap_perm hi (reverseBits_lt m i)).toList
  · exact .refl _

/-- Nor does their row. -/
theorem bitReverse_perm (v : Vector β (2 ^ m)) : (bitReverse v).toList.Perm v.toList := by
  have hrow : ∀ count (hcount : count ≤ 2 ^ m - 2),
      (Nat.fold count (fun i hi v => reversalSwap (i + 1) (interior_lt (by omega)) v)
        v).toList.Perm v.toList := by
    intro count hcount
    induction count with
    | zero => exact .refl _
    | succ count ih =>
      rw [Nat.fold_succ]
      exact (reversalSwap_perm _ _).trans (ih (by omega))
  exact hrow _ le_rfl

/-- A second row of swaps undoes the first. -/
theorem bitReverse_bitReverse (v : Vector β (2 ^ m)) : bitReverse (bitReverse v) = v := by
  apply Vector.ext
  intro i hi
  have hcell : (bitReverse (bitReverse v)).get ⟨i, hi⟩ = v.get ⟨i, hi⟩ := by
    rw [get_bitReverse, get_bitReverse, reversal_reversal]
  exact hcell

/-- One permutation of the indices, for entries of any type: it reverses their binary digits, which
a word of `m` and any number of spare digits does by being reversed as a whole and shifted back,
and the swaps leave at each index the entry that was at the index it gives. So no entry is lost or
doubled, and a second row of swaps brings all back. -/
theorem bitReverse_permutes_by_digits (m : ℕ) :
    ∃ source : Equiv.Perm (Fin (2 ^ m)),
      (∀ c (digit : Fin m), (source c).val.testBit digit = c.val.testBit digit.rev) ∧
      (∀ c (spare : ℕ),
        (source c).val = ((BitVec.ofNat (m + spare) c).reverse >>> spare).toNat) ∧
      ∀ (β : Type) (v : Vector β (2 ^ m)),
        (∀ c, (bitReverse v).get c = v.get (source c)) ∧
        (bitReverse v).toList.Perm v.toList ∧
        bitReverse (bitReverse v) = v := by
  refine ⟨digitReversal m, testBit_digitReversal, ?_, ?_⟩
  · intro c spare
    exact (reverse_word c spare).symm
  · intro β v
    exact ⟨get_bitReverse v, bitReverse_perm v, bitReverse_bitReverse v⟩

example : bitReverse (m := 3) #v[0, 1, 2, 3, 4, 5, 6, 7] = #v[0, 4, 2, 6, 1, 5, 3, 7] := by
  decide

end IqBalance.Spectrum
