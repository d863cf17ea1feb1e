import Mathlib
import IqBalance.Correlation.Utility
import IqBalance.Proofs.Spectrum.InPlace

/-!
What an estimator pass adds, in whatever arithmetic, operation by operation.

* `Block.windows` lists the windows that a pass takes from a block: as many as
  `windowCount` says, each half a window after the one before. The pass meets
  exactly these, in this order (`accumulate_eq`), so it is a fold over
  `passSpectra`.
* `get_addImageProducts`: the loop over mirror pairs adds to every bin but
  bin 0 its `imageProduct`, once.
-/

namespace IqBalance

/-! ### Windows -/

section Windows

variable {α : Type}

/-- A window that is counted fits into the block. -/
theorem offset_add_le {n len limit w : Nat} (h : w < windowCount n len limit) :
    w * (n / 2) + n ≤ len := by
  unfold windowCount at h
  split at h
  · omega
  · have hw : w ≤ (len - n) / (n / 2) := by omega
    have := Nat.le_trans (Nat.mul_le_mul_right (n / 2) hw) (Nat.div_mul_le_self ..)
    omega

/-- The windows of length `n` that a pass takes from a block, in order. -/
def Block.windows (block : Block α) (n limit : Nat) : List (Vector (Sample α) n) :=
  List.ofFn fun w : Fin (windowCount n block.size limit) =>
    block.window (w * (n / 2)) (offset_add_le w.isLt)

/-- The windows from an offset on, one after the other. -/
def Block.windowsFrom (block : Block α) (n : Nat) :
    (limit offset : Nat) → List (Vector (Sample α) n)
  | 0, _ => []
  | limit + 1, offset =>
    if h : offset + n ≤ block.size then
      block.window offset h :: block.windowsFrom n limit (offset + n / 2)
    else []

theorem Block.length_windowsFrom (block : Block α) {n : Nat} (hn : 2 ≤ n) (limit offset : Nat) :
    (block.windowsFrom n limit offset).length = windowCount n (block.size - offset) limit := by
  induction limit generalizing offset with
  | zero => simp [windowsFrom, windowCount]
  | succ limit ih =>
    rw [windowsFrom]
    have hhop : 0 < n / 2 := by omega
    split
    · rw [List.length_cons, ih, windowCount, windowCount]
      have hstep : block.size - (offset + n / 2) = block.size - offset - n / 2 := by omega
      rw [if_neg (by omega : ¬ block.size - offset < n), hstep]
      split
      · have : (block.size - offset - n) / (n / 2) = 0 := by
          apply Nat.div_eq_of_lt
          omega
        omega
      · have hdiv : (block.size - offset - n) / (n / 2) =
            (block.size - offset - n / 2 - n) / (n / 2) + 1 := by
          rw [← Nat.add_div_right _ hhop]
          congr 1
          omega
        omega
    · rw [windowCount, if_pos (by omega)]
      simp

theorem Block.getElem_windowsFrom (block : Block α) {n : Nat} {limit offset w : Nat}
    (hw : w < (block.windowsFrom n limit offset).length)
    (h : offset + w * (n / 2) + n ≤ block.size) :
    (block.windowsFrom n limit offset)[w] = block.window (offset + w * (n / 2)) h := by
  induction limit generalizing offset w with
  | zero => simp [windowsFrom] at hw
  | succ limit ih =>
    by_cases hfit : offset + n ≤ block.size
    · simp only [windowsFrom, dif_pos hfit] at hw ⊢
      cases w with
      | zero => simp
      | succ w =>
        have hshift : offset + n / 2 + w * (n / 2) = offset + (w + 1) * (n / 2) := by
          rw [Nat.succ_mul]
          omega
        rw [List.getElem_cons_succ, ih _ (by rw [hshift]; exact h)]
        simp only [hshift]
    · simp [windowsFrom, hfit] at hw

theorem Block.windows_eq_windowsFrom (block : Block α) {n : Nat} (hn : 2 ≤ n) (limit : Nat) :
    block.windows n limit = block.windowsFrom n limit 0 := by
  apply List.ext_getElem
  · rw [block.length_windowsFrom hn, windows, List.length_ofFn, Nat.sub_zero]
  · intro w h₁ h₂
    have hcount : w < windowCount n block.size limit := by
      rwa [windows, List.length_ofFn] at h₁
    have hfit := offset_add_le hcount
    rw [block.getElem_windowsFrom h₂ (by omega)]
    simp [windows]

/-- A pass takes the same windows from a block of changed samples, changed. -/
theorem Block.windows_map (f : Sample α → Sample α) (block : Block α) (n limit : Nat) :
    Block.windows (block.map f) n limit = (block.windows n limit).map (·.map f) := by
  apply List.ext_getElem
  · simp [windows]
  · intro w h₁ h₂
    simp only [windows, List.getElem_ofFn, List.getElem_map]
    ext i hi
    · simp [window]
    · simp [window]

theorem Block.windows_applyBlock [Scalar α] (c : Correction α) (block : Block α) (n limit : Nat) :
    Block.windows (c.applyBlock block) n limit = (block.windows n limit).map (·.map c.apply) :=
  Block.windows_map c.apply block n limit

end Windows

/-! ### Image products -/

section ImageProducts

variable {α : Type} [Scalar α] {n : Nat}

theorem imageBin_val {i : Fin n} (hi : i.val ≠ 0) : (imageBin i).val = n - i := by
  have := i.isLt
  simp only [imageBin]
  exact Nat.mod_eq_of_lt (by omega)

@[simp] theorem imageBin_imageBin (i : Fin n) : imageBin (imageBin i) = i := by
  apply Fin.ext
  by_cases hi : i.val = 0
  · simp [imageBin, hi]
  · have hlt := i.isLt
    have hval := imageBin_val hi
    rw [imageBin_val (by omega), hval]
    omega

/-- The product of a bin and its image, the lower bin first. -/
def imageProduct (spectrum : Vector (Sample α) n) (i : Fin n) : Sample α :=
  if i.val ≤ (imageBin i).val then spectrum.get i * spectrum.get (imageBin i)
  else spectrum.get (imageBin i) * spectrum.get i

theorem pair_low_lt {k : Nat} (hk : k < n / 2) : k + 1 < n := by
  omega

theorem pair_high_lt {k : Nat} (hk : k < n / 2) : n - (k + 1) < n := by
  omega

/-- What the pass of `addImageProducts` for bin `k + 1` adds. -/
def pairProduct (spectrum : Vector (Sample α) n) (k : Nat) (hk : k < n / 2) : Sample α :=
  spectrum.get ⟨k + 1, pair_low_lt hk⟩ * spectrum.get ⟨n - (k + 1), pair_high_lt hk⟩

/-- The pass of `addImageProducts` for bin `k + 1`. -/
def addImagePair (spectrum : Vector (Sample α) n) (k : Nat) (hk : k < n / 2)
    (sums : Vector (Sample α) n) : Vector (Sample α) n :=
  let low : Fin n := ⟨k + 1, pair_low_lt hk⟩
  let high : Fin n := ⟨n - (k + 1), pair_high_lt hk⟩
  let product := pairProduct spectrum k hk
  let sums := sums.set low (sums.get low + product) low.isLt
  if k + 1 ≠ n - (k + 1) then sums.set high (sums.get high + product) high.isLt else sums

theorem addImageProducts_eq_fold (spectrum sums : Vector (Sample α) n) :
    addImageProducts spectrum sums =
      Nat.fold (n / 2) (fun k hk sums => addImagePair spectrum k hk sums) sums :=
  rfl

theorem get_addImagePair (spectrum : Vector (Sample α) n) (k : Nat) (hk : k < n / 2)
    (sums : Vector (Sample α) n) (c : Fin n) :
    (addImagePair spectrum k hk sums).get c =
      if c.val = k + 1 ∨ c.val = n - (k + 1) then sums.get c + pairProduct spectrum k hk
      else sums.get c := by
  simp only [addImagePair, Vector.get_eq_getElem]
  split
  · rename_i hne
    simp only [Vector.getElem_set]
    grind
  · rename_i heq
    simp only [Vector.getElem_set]
    grind

/-- The pass for bin `k + 1` owns that bin and its image. -/
theorem addImagePair_ownsCells (spectrum : Vector (Sample α) n) :
    OwnsCells (fun k (hk : k < n / 2) sums => addImagePair spectrum k hk sums)
      (fun k c => c.val = k + 1 ∨ c.val = n - (k + 1)) where
  unique hi hj hci hcj := by omega
  frame hc := by rw [get_addImagePair, if_neg hc]
  congr hagree c hc := by
    rw [get_addImagePair, get_addImagePair, if_pos hc, if_pos hc, hagree c hc]

/-- The products go to every bin but bin 0. -/
theorem get_addImageProducts (spectrum sums : Vector (Sample α) n) (c : Fin n) :
    (addImageProducts spectrum sums).get c =
      if c.val = 0 then sums.get c else sums.get c + imageProduct spectrum c := by
  have howns := addImagePair_ownsCells spectrum
  have hc := c.isLt
  rw [addImageProducts_eq_fold]
  split
  · rename_i hzero
    exact howns.get_fold_of_unowned sums fun k hk hown => by omega
  · rename_i hpos
    have himage := imageBin_val hpos
    rcases Nat.lt_or_ge (n - c.val) c.val with hhigh | hlow
    · have hk : n - c.val - 1 + 1 = n - c.val := by omega
      have hmirror : n - (n - c.val) = c.val := by omega
      have hown : c.val = n - c.val - 1 + 1 ∨ c.val = n - (n - c.val - 1 + 1) := by omega
      rw [howns.get_fold sums (by omega) hown, get_addImagePair, if_pos hown, imageProduct,
        if_neg (by omega), pairProduct]
      simp only [Vector.get_eq_getElem, hk, hmirror, himage]
    · have hk : c.val - 1 + 1 = c.val := by omega
      have hown : c.val = c.val - 1 + 1 ∨ c.val = n - (c.val - 1 + 1) := by omega
      rw [howns.get_fold sums (by omega) hown, get_addImagePair, if_pos hown, imageProduct,
        if_pos (by omega), pairProduct]
      simp only [Vector.get_eq_getElem, hk, himage]

end ImageProducts

/-! ### Passes -/

namespace Accumulators

variable {α : Type} [Scalar α] {size : FftSize}

/-- The spectra that a pass over a block adds at a trial point, window by window. -/
def passSpectra (tables : Tables α size) (block : Block α) (point : Correction α) (limit : Nat) :
    List (Vector (Sample α) size.bins) :=
  (block.windows size.bins limit).map fun window => tables.spectrum (window.map point.apply)

theorem accumulateFrom_eq (tables : Tables α size) (block : Block α) (point : Correction α)
    (trial : Trial) (limit offset : Nat) (acc : Accumulators α size.bins) :
    accumulateFrom tables block point trial limit offset acc =
      ((block.windowsFrom size.bins limit offset).length,
        (block.windowsFrom size.bins limit offset).foldl (fun acc window =>
          acc.addSpectrum trial (tables.spectrum (window.map point.apply))) acc) := by
  induction limit generalizing offset acc with
  | zero => rfl
  | succ limit ih =>
    rw [accumulateFrom, Block.windowsFrom]
    split
    · rw [ih]
      rfl
    · rfl

/-- A pass adds the spectra of its windows one after the other, and counts them. -/
theorem accumulate_eq (acc : Accumulators α size.bins) (tables : Tables α size) (block : Block α)
    (point : Correction α) (trial : Trial) (limit : Nat) :
    acc.accumulate tables block point trial limit =
      (windowCount size.bins block.size limit,
        (passSpectra tables block point limit).foldl (·.addSpectrum trial ·) acc) := by
  have hbins : 2 ≤ size.bins := Nat.le_trans (by decide) size.le_bins
  rw [accumulate, accumulateFrom_eq, passSpectra, block.windows_eq_windowsFrom hbins,
    List.foldl_map, block.length_windowsFrom hbins, Nat.sub_zero]

/-- Both trials of a pass over a block: at a point, and at another one for comparison. -/
def addTrials (acc : Accumulators α size.bins) (tables : Tables α size) (limit : Nat)
    (point stepped : Correction α) (block : Block α) : Accumulators α size.bins :=
  ((acc.accumulate tables block point .baseline limit).2.accumulate tables block stepped
    .perturbed limit).2

variable (spectra : List (Vector (Sample α) size.bins)) (acc : Accumulators α size.bins)

theorem foldl_addSpectrum_baseline :
    spectra.foldl (·.addSpectrum .baseline ·) acc =
      { acc with
        baseline := spectra.foldl (fun sums x => addImageProducts x sums) acc.baseline
        energy := spectra.foldl (fun energy x => addEnergy x energy) acc.energy
        windows := acc.windows + spectra.length } := by
  induction spectra generalizing acc with
  | nil => rfl
  | cons x rest ih =>
    rw [List.foldl_cons, ih]
    simp only [addSpectrum, List.foldl_cons, List.length_cons, Nat.add_assoc, Nat.add_comm 1]

theorem foldl_addSpectrum_perturbed :
    spectra.foldl (·.addSpectrum .perturbed ·) acc =
      { acc with
        perturbed := spectra.foldl (fun sums x => addImageProducts x sums) acc.perturbed } := by
  induction spectra generalizing acc with
  | nil => rfl
  | cons x rest ih =>
    rw [List.foldl_cons, ih]
    rfl

theorem get_foldl_addImageProducts (sums : Vector (Sample α) size.bins) (i : Fin size.bins) :
    (spectra.foldl (fun sums x => addImageProducts x sums) sums).get i =
      if i.val = 0 then sums.get i
      else spectra.foldl (fun sum x => sum + imageProduct x i) (sums.get i) := by
  induction spectra generalizing sums with
  | nil => simp
  | cons x rest ih =>
    rw [List.foldl_cons, ih, get_addImageProducts]
    split <;> rfl

theorem get_foldl_addEnergy (energy : Vector α size.bins) (i : Fin size.bins) :
    (spectra.foldl (fun energy x => addEnergy x energy) energy).get i =
      spectra.foldl (fun e x => e + (x.get i).normSq) (energy.get i) := by
  induction spectra generalizing energy with
  | nil => rfl
  | cons x rest ih =>
    rw [List.foldl_cons, ih, List.foldl_cons]
    simp [addEnergy, Vector.get_eq_getElem]

end Accumulators

end IqBalance
