import Mathlib
import IqBalance.Spectrum.Radix2

/-!
What the in-place loops of the transform leave in each cell. Such a loop is
easy to read once its passes own their cells (`OwnsCells`): every cell is
touched by at most one pass, and that pass reads nothing but what it owns, so
a cell ends as its owner would have left it at the start.

* `get_bitReverse`: the swaps bring every entry to the reversal of its
  index, although half the indices, and the first and the last, never swap.
* `get_stage_top`, `get_stage_bottom`: a stage leaves in the two ends
  of each butterfly their sum and difference, the lower one twiddled.
-/

namespace IqBalance

/-! ### Loops whose passes own their cells -/

section OwnedCells

variable {β : Type} {n count : Nat}

/-- In a loop over a vector, pass `i` touches only the cells that it owns, and what it leaves in
these depends on these alone; no cell has two owners. -/
structure OwnsCells (pass : (i : Nat) → i < count → Vector β n → Vector β n)
    (owns : Nat → Fin n → Prop) : Prop where
  unique : ∀ {i j c}, i < count → j < count → owns i c → owns j c → i = j
  frame : ∀ {i hi v} {c : Fin n}, ¬ owns i c → (pass i hi v).get c = v.get c
  congr : ∀ {i hi v w}, (∀ c : Fin n, owns i c → v.get c = w.get c) →
    ∀ c : Fin n, owns i c → (pass i hi v).get c = (pass i hi w).get c

/-- The loop up to an earlier end keeps its owners. -/
theorem OwnsCells.init {pass : (i : Nat) → i < count + 1 → Vector β n → Vector β n}
    {owns : Nat → Fin n → Prop} (h : OwnsCells pass owns) :
    OwnsCells (fun i hi => pass i (Nat.lt_succ_of_lt hi)) owns :=
  ⟨fun hi hj => h.unique (Nat.lt_succ_of_lt hi) (Nat.lt_succ_of_lt hj), h.frame, h.congr⟩

/-- A cell that no pass owns keeps its entry. -/
theorem OwnsCells.get_fold_of_unowned
    {pass : (i : Nat) → i < count → Vector β n → Vector β n} {owns : Nat → Fin n → Prop}
    (h : OwnsCells pass owns) (v : Vector β n) {c : Fin n} (hc : ∀ i, i < count → ¬ owns i c) :
    (Nat.fold count pass v).get c = v.get c := by
  induction count with
  | zero => simp
  | succ count ih =>
    rw [Nat.fold_succ, h.frame (hc count (Nat.lt_succ_self count))]
    exact ih h.init fun i hi => hc i (Nat.lt_succ_of_lt hi)

/-- A cell holds what its owner would have left in it at the start of the loop. -/
theorem OwnsCells.get_fold {pass : (i : Nat) → i < count → Vector β n → Vector β n}
    {owns : Nat → Fin n → Prop} (h : OwnsCells pass owns) (v : Vector β n) {i : Nat}
    (hi : i < count) {c : Fin n} (hc : owns i c) :
    (Nat.fold count pass v).get c = (pass i hi v).get c := by
  induction count with
  | zero => omega
  | succ count ih =>
    rw [Nat.fold_succ]
    by_cases hlast : i = count
    · subst hlast
      refine h.congr (fun d hd => ?_) c hc
      exact h.init.get_fold_of_unowned v fun j hj hown =>
        absurd (h.unique (by omega) hi hown hd) (Nat.ne_of_lt hj)
    · rw [h.frame fun hown => hlast (h.unique hi (Nat.lt_succ_self count) hc hown)]
      exact ih h.init (by omega)

end OwnedCells

namespace Spectrum

variable {β : Type} {m : Nat}

/-! ### Bit reversal -/

theorem reverseBits_zero (m : Nat) : reverseBits m 0 = 0 := by
  induction m with
  | zero => rfl
  | succ m ih => simp [reverseBits, ih]

/-- The reversal of an index of `2 ^ m` entries. -/
def reversal (c : Fin (2 ^ m)) : Fin (2 ^ m) := ⟨reverseBits m c, reverseBits_lt m c⟩

@[simp] theorem reversal_val (c : Fin (2 ^ m)) : (reversal c).val = reverseBits m c := rfl

@[simp] theorem reversal_reversal (c : Fin (2 ^ m)) : reversal (reversal c) = c :=
  Fin.ext (reverseBits_reverseBits c.isLt)

/-- The swap at `i` moves the pair of reversals whose lesser index is `i`. -/
theorem get_reversalSwap (i : Nat) (hi : i < 2 ^ m) (v : Vector β (2 ^ m)) (c : Fin (2 ^ m)) :
    (reversalSwap i hi v).get c =
      if min c.val (reverseBits m c) = i then v.get (reversal c) else v.get c := by
  have hi' := reverseBits_reverseBits hi
  have hc' := reverseBits_reverseBits c.isLt
  have hlt := reverseBits_lt m c
  show (reversalSwap i hi v)[c.val] =
    if min c.val (reverseBits m c) = i then v[reverseBits m c] else v[c.val]
  unfold reversalSwap
  by_cases hswap : i < reverseBits m i
  · rw [if_pos hswap, Vector.getElem_swap]
    by_cases hlow : c.val = i
    · rw [if_pos hlow, if_pos (by rw [hlow]; omega)]
      simp only [hlow]
    · rw [if_neg hlow]
      by_cases hhigh : c.val = reverseBits m i
      · rw [if_pos hhigh, if_pos (by rw [hhigh, hi']; omega)]
        simp only [hhigh, hi']
      · have hne : reverseBits m c ≠ i := by
          intro h
          exact hhigh (by rw [← h, hc'])
        rw [if_neg hhigh, if_neg (by omega)]
  · rw [if_neg hswap]
    split
    · -- The pair is a single index, which the swap leaves alone.
      have hsame : reverseBits m c = c.val := by
        rcases Nat.le_total c.val (reverseBits m c) with hle | hle
        · have hci : c.val = i := by omega
          rw [hci] at hle ⊢
          omega
        · have hci : reverseBits m c = i := by omega
          rw [← hci, hc'] at hswap
          omega
      simp only [hsame]
    · rfl

theorem interior_lt {i : Nat} (hi : i < 2 ^ m - 2) : i + 1 < 2 ^ m := by
  omega

/-- The swap at `i + 1` owns the pair whose lesser index is `i + 1`. -/
theorem reversalSwap_ownsCells (β : Type) (m : Nat) :
    OwnsCells (fun i (hi : i < 2 ^ m - 2) (v : Vector β (2 ^ m)) =>
        reversalSwap (i + 1) (interior_lt hi) v)
      (fun i c => min c.val (reverseBits m c) = i + 1) where
  unique _ _ hi hj := by omega
  frame hc := by rw [get_reversalSwap, if_neg hc]
  congr {i hi v w} hagree c hc := by
    have hpair : min (reversal c).val (reverseBits m (reversal c)) = i + 1 := by
      rw [← reversal_val (reversal c), reversal_reversal, Nat.min_comm, reversal_val, hc]
    rw [get_reversalSwap, get_reversalSwap, if_pos hc, if_pos hc, hagree _ hpair]

/-- Every entry comes from the reversal of its index. -/
theorem get_bitReverse (v : Vector β (2 ^ m)) (c : Fin (2 ^ m)) :
    (bitReverse v).get c = v.get (reversal c) := by
  by_cases hvisit : ∃ i, i < 2 ^ m - 2 ∧ min c.val (reverseBits m c) = i + 1
  · obtain ⟨i, hi, howns⟩ := hvisit
    rw [bitReverse, (reversalSwap_ownsCells β m).get_fold v hi howns, get_reversalSwap,
      if_pos howns]
  · -- Only the first and the last index have no swap, and each is its own reversal.
    have hsame : reversal c = c := by
      have hc := c.isLt
      have hrev := (reversal c).isLt
      have hzero : c.val = 0 ↔ reverseBits m c = 0 := by
        constructor
        · intro h
          rw [h, reverseBits_zero]
        · intro h
          rw [← reverseBits_reverseBits c.isLt, h, reverseBits_zero]
      have hnone : ¬ (min c.val (reverseBits m c) - 1 < 2 ^ m - 2 ∧
          min c.val (reverseBits m c) = min c.val (reverseBits m c) - 1 + 1) :=
        fun h => hvisit ⟨_, h⟩
      rw [reversal_val] at hrev
      apply Fin.ext
      rw [reversal_val]
      omega
    rw [bitReverse, (reversalSwap_ownsCells β m).get_fold_of_unowned v
      fun i hi howns => hvisit ⟨i, hi, howns⟩]
    simp only [hsame]

/-! ### Stages -/

section Stages

variable {α : Type} [Scalar α]

theorem get_butterfly {n : Nat} (w : Sample α) {top bottom : Nat} (htop : top < n)
    (hbottom : bottom < n) (v : Vector (Sample α) n) (c : Fin n) :
    (butterfly w top bottom htop hbottom v).get c =
      if c.val = top then v[top] + w * v[bottom]
      else if c.val = bottom then v[top] - w * v[bottom]
      else v.get c := by
  simp only [butterfly, Vector.get_eq_getElem, Vector.getElem_set, eq_comm (a := c.val)]

/-- An index lies in block `b` at position `k` exactly when it is one of the two ends of their
butterfly. -/
theorem block_position_iff {s b k c : Nat} (hk : k < 2 ^ s) :
    c / 2 ^ (s + 1) = b ∧ c % 2 ^ s = k ↔
      c = b * 2 ^ (s + 1) + k ∨ c = b * 2 ^ (s + 1) + k + 2 ^ s := by
  have hspan : 2 ^ (s + 1) = 2 ^ s * 2 := Nat.pow_succ ..
  have hpos : 0 < 2 ^ (s + 1) := Nat.two_pow_pos (s + 1)
  have hdiv : ∀ r, r < 2 ^ (s + 1) → (b * 2 ^ (s + 1) + r) / 2 ^ (s + 1) = b := by
    intro r hr
    rw [Nat.mul_comm, Nat.mul_add_div hpos, Nat.div_eq_of_lt hr, Nat.add_zero]
  have hmod : ∀ r, (b * 2 ^ (s + 1) + r) % 2 ^ s = r % 2 ^ s := by
    intro r
    rw [hspan, Nat.mul_left_comm, Nat.mul_add_mod]
  constructor
  · rintro ⟨rfl, rfl⟩
    have hsplit := Nat.div_add_mod c (2 ^ (s + 1))
    have hrest := Nat.mod_lt c hpos
    have hfold : c % 2 ^ (s + 1) % 2 ^ s = c % 2 ^ s :=
      Nat.mod_mod_of_dvd c (Nat.pow_dvd_pow 2 (Nat.le_succ s))
    rw [Nat.mul_comm] at hsplit
    rcases Nat.lt_or_ge (c % 2 ^ (s + 1)) (2 ^ s) with hlow | hhigh
    · rw [Nat.mod_eq_of_lt hlow] at hfold
      omega
    · rw [Nat.mod_eq_sub_mod hhigh, Nat.mod_eq_of_lt (by omega)] at hfold
      omega
  · rintro (rfl | rfl)
    · exact ⟨hdiv k (by omega), by rw [hmod, Nat.mod_eq_of_lt hk]⟩
    · refine ⟨?_, ?_⟩
      · rw [Nat.add_assoc, hdiv _ (by omega)]
      · rw [Nat.add_assoc, hmod, Nat.add_mod_right, Nat.mod_eq_of_lt hk]

theorem top_lt {s b k : Nat} (hs : s < m) (hb : b < 2 ^ (m - s - 1)) (hk : k < 2 ^ s) :
    b * 2 ^ (s + 1) + k < 2 ^ m := by
  have := bottom_lt hs hb hk
  omega

/-- The upper end of the butterfly in block `b` at position `k`. -/
def topCell {s b k : Nat} (hs : s < m) (hb : b < 2 ^ (m - s - 1)) (hk : k < 2 ^ s) :
    Fin (2 ^ m) :=
  ⟨b * 2 ^ (s + 1) + k, top_lt hs hb hk⟩

@[simp] theorem topCell_val {s b k : Nat} (hs : s < m) (hb : b < 2 ^ (m - s - 1))
    (hk : k < 2 ^ s) : (topCell hs hb hk).val = b * 2 ^ (s + 1) + k := rfl

/-- Its lower end, half a span further. -/
def bottomCell {s b k : Nat} (hs : s < m) (hb : b < 2 ^ (m - s - 1)) (hk : k < 2 ^ s) :
    Fin (2 ^ m) :=
  ⟨b * 2 ^ (s + 1) + k + 2 ^ s, bottom_lt hs hb hk⟩

@[simp] theorem bottomCell_val {s b k : Nat} (hs : s < m) (hb : b < 2 ^ (m - s - 1))
    (hk : k < 2 ^ s) : (bottomCell hs hb hk).val = b * 2 ^ (s + 1) + k + 2 ^ s := rfl

/-- The butterfly of half-span `2 ^ s` in block `b` at position `k`. -/
def spanButterfly (twiddles : Vector (Sample α) (2 ^ (m - 1))) {s b k : Nat} (hs : s < m)
    (hb : b < 2 ^ (m - s - 1)) (hk : k < 2 ^ s) (v : Vector (Sample α) (2 ^ m)) :
    Vector (Sample α) (2 ^ m) :=
  butterfly (twiddles.get ⟨k * 2 ^ (m - s - 1), twiddle_index_lt hs hk⟩)
    (b * 2 ^ (s + 1) + k) (b * 2 ^ (s + 1) + k + 2 ^ s) (top_lt hs hb hk) (bottom_lt hs hb hk) v

/-- All butterflies of block `b`. -/
def spanBlock (twiddles : Vector (Sample α) (2 ^ (m - 1))) {s b : Nat} (hs : s < m)
    (hb : b < 2 ^ (m - s - 1)) (v : Vector (Sample α) (2 ^ m)) : Vector (Sample α) (2 ^ m) :=
  Nat.fold (2 ^ s) (fun _ hk v => spanButterfly twiddles hs hb hk v) v

theorem stage_eq_fold (twiddles : Vector (Sample α) (2 ^ (m - 1))) {s : Nat} (hs : s < m)
    (v : Vector (Sample α) (2 ^ m)) :
    stage twiddles s hs v =
      Nat.fold (2 ^ (m - s - 1)) (fun _ hb v => spanBlock twiddles hs hb v) v :=
  rfl

theorem spanButterfly_ownsCells (twiddles : Vector (Sample α) (2 ^ (m - 1))) {s b : Nat}
    (hs : s < m) (hb : b < 2 ^ (m - s - 1)) :
    OwnsCells (fun _ (hk : _ < 2 ^ s) v => spanButterfly twiddles hs hb hk v)
      (fun k c => c.val / 2 ^ (s + 1) = b ∧ c.val % 2 ^ s = k) where
  unique _ _ hi hj := hi.2.symm.trans hj.2
  frame {k hk v c} hc := by
    rw [block_position_iff hk, not_or] at hc
    rw [spanButterfly, get_butterfly, if_neg hc.1, if_neg hc.2]
  congr {k hk v w} hagree c hc := by
    have htop := hagree (topCell hs hb hk) ((block_position_iff hk).mpr (.inl rfl))
    have hbottom := hagree (bottomCell hs hb hk) ((block_position_iff hk).mpr (.inr rfl))
    simp only [topCell, bottomCell, Vector.get_eq_getElem] at htop hbottom
    rw [spanButterfly, spanButterfly, get_butterfly, get_butterfly, htop, hbottom, hagree c hc]

theorem spanBlock_ownsCells (twiddles : Vector (Sample α) (2 ^ (m - 1))) {s : Nat} (hs : s < m) :
    OwnsCells (fun _ (hb : _ < 2 ^ (m - s - 1)) v => spanBlock twiddles hs hb v)
      (fun b c => c.val / 2 ^ (s + 1) = b) where
  unique _ _ hi hj := hi.symm.trans hj
  frame {b hb v c} hc :=
    (spanButterfly_ownsCells twiddles hs hb).get_fold_of_unowned v fun k _ howns => hc howns.1
  congr {b hb v w} hagree c hc := by
    have howns := spanButterfly_ownsCells twiddles hs hb
    have hk : c.val % 2 ^ s < 2 ^ s := Nat.mod_lt _ (Nat.two_pow_pos s)
    rw [spanBlock, spanBlock, howns.get_fold v hk ⟨hc, rfl⟩,
      howns.get_fold w hk ⟨hc, rfl⟩]
    exact howns.congr (fun d hd => hagree d hd.1) c ⟨hc, rfl⟩

/-- A stage leaves in a cell what its own butterfly leaves there. -/
theorem get_stage (twiddles : Vector (Sample α) (2 ^ (m - 1))) {s b k : Nat} (hs : s < m)
    (hb : b < 2 ^ (m - s - 1)) (hk : k < 2 ^ s) (v : Vector (Sample α) (2 ^ m)) {c : Fin (2 ^ m)}
    (hblock : c.val / 2 ^ (s + 1) = b) (hposition : c.val % 2 ^ s = k) :
    (stage twiddles s hs v).get c = (spanButterfly twiddles hs hb hk v).get c := by
  rw [stage_eq_fold, (spanBlock_ownsCells twiddles hs).get_fold v hb hblock, spanBlock,
    (spanButterfly_ownsCells twiddles hs hb).get_fold v hk ⟨hblock, hposition⟩]

theorem get_stage_top (twiddles : Vector (Sample α) (2 ^ (m - 1))) {s b k : Nat} (hs : s < m)
    (hb : b < 2 ^ (m - s - 1)) (hk : k < 2 ^ s) (v : Vector (Sample α) (2 ^ m)) :
    (stage twiddles s hs v).get (topCell hs hb hk) =
      v.get (topCell hs hb hk) +
        twiddles.get ⟨k * 2 ^ (m - s - 1), twiddle_index_lt hs hk⟩ *
          v.get (bottomCell hs hb hk) := by
  obtain ⟨hblock, hposition⟩ := (block_position_iff (b := b) hk).mpr (.inl rfl)
  rw [get_stage twiddles hs hb hk v (c := topCell hs hb hk) hblock hposition, spanButterfly,
    get_butterfly, if_pos (topCell_val hs hb hk)]
  rfl

theorem get_stage_bottom (twiddles : Vector (Sample α) (2 ^ (m - 1))) {s b k : Nat} (hs : s < m)
    (hb : b < 2 ^ (m - s - 1)) (hk : k < 2 ^ s) (v : Vector (Sample α) (2 ^ m)) :
    (stage twiddles s hs v).get (bottomCell hs hb hk) =
      v.get (topCell hs hb hk) -
        twiddles.get ⟨k * 2 ^ (m - s - 1), twiddle_index_lt hs hk⟩ *
          v.get (bottomCell hs hb hk) := by
  obtain ⟨hblock, hposition⟩ := (block_position_iff (b := b) hk).mpr (.inr rfl)
  have hne : (bottomCell hs hb hk).val ≠ b * 2 ^ (s + 1) + k := by
    simp
  rw [get_stage twiddles hs hb hk v (c := bottomCell hs hb hk) hblock hposition, spanButterfly,
    get_butterfly, if_neg hne, if_pos (bottomCell_val hs hb hk)]
  rfl

end Stages

end Spectrum

end IqBalance
