import Mathlib
import IqBalance.DcTracker
import IqBalance.Proofs.ExactArithmetic

/-!
What removal of a constant offset does to a stream, over exact arithmetic.

A stream may come in blocks of any lengths: `processAll` takes them one after
another, and the tracker it ends with and the samples it puts out are those of
the whole stream in one block (`processAll_eq`). So everything is said of the
tracker after the first `n` samples of the stream.

Either part of its mean follows the same part of the samples alone. It is a
`fadingMean`: the start and the samples so far, each weighing less by the same
factor for every sample that came after it (`part_mean_take`). For a rate
between zero and one that is a convex combination (`fadingMean_mem_convexHull`),
and on a constant input the distance to it shrinks by that factor with every
sample (`sub_fadingMean_const`).
-/

namespace IqBalance

namespace DcTracker

/-! ### Blocks of a stream -/

section Blocks

variable {α : Type} [Scalar α]

/-- Process blocks one after another. -/
def processAll (t : DcTracker α) : List (Block α) → DcTracker α × List (Block α)
  | [] => (t, [])
  | block :: rest =>
    let (next, out) := t.process block
    let (last, outs) := next.processAll rest
    (last, out :: outs)

/-- Blocks in a row are one block, and each keeps its length. -/
theorem processAll_eq (t : DcTracker α) (blocks : List (Block α)) :
    (t.processAll blocks).1 = (t.process (blocks.flatMap Array.toList).toArray).1 ∧
    (t.processAll blocks).2.flatMap Array.toList =
      (t.process (blocks.flatMap Array.toList).toArray).2.toList ∧
    (t.processAll blocks).2.map Array.size = blocks.map Array.size := by
  induction blocks generalizing t with
  | nil => simp [processAll]
  | cons block rest ih =>
    obtain ⟨hlast, hout, hsize⟩ := ih (t.process block).1
    have hjoin : ((block :: rest).flatMap Array.toList).toArray =
        block ++ (rest.flatMap Array.toList).toArray := by
      simp
    rw [hjoin, process_append]
    refine ⟨hlast, ?_, ?_⟩
    · rw [Array.toList_append, ← hout]
      rfl
    · rw [List.map_cons, ← hsize, ← t.size_process block]
      rfl

/-- One more sample meets the tracker that the earlier ones left. -/
theorem process_concat (t : DcTracker α) (samples : List (Sample α)) (s : Sample α) :
    t.process (samples ++ [s]).toArray =
      let next := (t.process samples.toArray).1.track s
      (next, (t.process samples.toArray).2.push (s - next.mean)) := by
  rw [← List.push_toArray, process, Array.foldl_push]
  rfl

end Blocks

/-! ### The mean of one part -/

/-- The mean after `n` values: what it started at and each value weigh less by the same factor for
every value that came later. -/
noncomputable def fadingMean (rate start : ℝ) (x : ℕ → ℝ) (n : ℕ) : ℝ :=
  (1 - rate) ^ n * start + rate * ∑ j ∈ Finset.range n, (1 - rate) ^ (n - 1 - j) * x j

section FadingMean

variable (rate start : ℝ) (x : ℕ → ℝ)

@[simp] theorem fadingMean_zero : fadingMean rate start x 0 = start := by
  simp [fadingMean]

/-- One more value moves the mean towards it by the rate. -/
theorem fadingMean_succ (n : ℕ) :
    fadingMean rate start x (n + 1) =
      fadingMean rate start x n + rate * (x n - fadingMean rate start x n) := by
  have hfade : ∑ j ∈ Finset.range n, (1 - rate) ^ (n - j) * x j =
      (1 - rate) * ∑ j ∈ Finset.range n, (1 - rate) ^ (n - 1 - j) * x j := by
    rw [Finset.mul_sum]
    refine Finset.sum_congr rfl fun j hj => ?_
    have hexponent : n - j = n - 1 - j + 1 := by
      have := Finset.mem_range.mp hj
      omega
    rw [hexponent, pow_succ]
    ring
  rw [fadingMean, fadingMean, Finset.sum_range_succ, Nat.add_sub_cancel, hfade, Nat.sub_self]
  ring

variable {rate}

/-- The mean never leaves the hull of where it started and what it has seen. -/
theorem fadingMean_mem_convexHull (hrate : rate ∈ Set.Icc 0 1) (n : ℕ) :
    fadingMean rate start x n ∈ convexHull ℝ (insert start (x '' Set.Iio n)) := by
  induction n with
  | zero =>
    rw [fadingMean_zero]
    exact subset_convexHull ℝ _ (Set.mem_insert _ _)
  | succ n ih =>
    have hseen : x '' Set.Iio n ⊆ x '' Set.Iio (n + 1) :=
      Set.image_mono (Set.Iio_subset_Iio n.le_succ)
    have hmean := convexHull_mono (Set.insert_subset_insert (a := start) hseen) ih
    have hnew : x n ∈ convexHull ℝ (insert start (x '' Set.Iio (n + 1))) :=
      subset_convexHull ℝ _ (Set.mem_insert_of_mem _ ⟨n, n.lt_succ_self, rfl⟩)
    rw [fadingMean_succ]
    exact (convex_convexHull ℝ _).add_smul_sub_mem hmean hnew hrate

/-- On a constant input the distance to the mean shrinks by the same factor with every value. -/
theorem sub_fadingMean_const {c : ℝ} {n : ℕ} (hx : ∀ j < n, x j = c) :
    c - fadingMean rate start x n = (1 - rate) ^ n * (c - start) := by
  induction n with
  | zero => simp
  | succ n ih =>
    have hc := hx n n.lt_succ_self
    have hmean := ih fun j hj => hx j (hj.trans n.lt_succ_self)
    rw [fadingMean_succ, hc, pow_succ]
    linear_combination (1 - rate) * hmean

end FadingMean

/-! ### The tracker on a stream -/

section Parts

variable (t : DcTracker ℝ) {part : Sample ℝ → ℝ} (hpart : part = Sample.re ∨ part = Sample.im)

include hpart

/-- Taking a sample in moves either part of the mean towards that part of the sample. -/
theorem part_track (s : Sample ℝ) :
    part (t.track s).mean = part t.mean + t.rate * (part s - part t.mean) := by
  rcases hpart with rfl | rfl
  · rfl
  · rfl

/-- What is left of a sample is its distance to the mean before it, less the rate's share. -/
theorem part_residual (s : Sample ℝ) :
    part (s - (t.track s).mean) = (1 - t.rate) * (part s - part t.mean) := by
  have hsub : part (s - (t.track s).mean) = part s - part (t.track s).mean := by
    rcases hpart with rfl | rfl
    · rfl
    · rfl
  rw [hsub, part_track t hpart]
  ring

/-- What the first samples of a stream leave and put out. -/
theorem process_take (stream : List (Sample ℝ)) {n : ℕ} (hn : n ≤ stream.length) :
    let x (j : ℕ) := part (stream.getD j 0)
    let run := t.process (stream.take n).toArray
    run.1.rate = t.rate ∧
    part run.1.mean = fadingMean t.rate (part t.mean) x n ∧
    run.2.toList.map part = (List.range n).map fun j =>
      (1 - t.rate) * (x j - fadingMean t.rate (part t.mean) x j) := by
  intro x
  induction n with
  | zero => simp
  | succ n ih =>
    obtain ⟨hrate, hmean, hout⟩ := ih (by omega)
    have hnext : stream[n] = stream.getD n 0 := by
      rw [List.getD_eq_getElem _ _ hn]
    rw [← List.take_concat_get' stream n hn, process_concat, hnext]
    refine ⟨hrate, ?_, ?_⟩
    · rw [part_track _ hpart, hrate, hmean, fadingMean_succ]
    · rw [Array.toList_push, List.map_append, hout, List.range_succ, List.map_append,
        List.map_singleton, List.map_singleton, part_residual _ hpart, hrate, hmean]

end Parts

/-- For any start and rate, however a stream is cut into blocks, and for either part of the
samples. The tracker ends with the fading mean of that part, and so it stands after any first
samples of the stream; what is put out, block for block, is the distance of each sample to the
mean before it, less the rate's share. For a rate between zero and one the mean stays in the hull
of its start and what it has seen, and a constant input is put out as the distance to the start,
fading with every sample. -/
theorem fading_means_of_stream (t : DcTracker ℝ) (blocks : List (Block ℝ)) {part : Sample ℝ → ℝ}
    (hpart : part = Sample.re ∨ part = Sample.im) :
    let stream := blocks.flatMap Array.toList
    let x (j : ℕ) : ℝ := part (stream.getD j 0)
    let mean (n : ℕ) : ℝ := (1 - t.rate) ^ n * part t.mean +
      t.rate * ∑ j ∈ Finset.range n, (1 - t.rate) ^ (n - 1 - j) * x j
    let run := t.processAll blocks
    let out := run.2.flatMap Array.toList
    run.2.map Array.size = blocks.map Array.size ∧
    run.1.rate = t.rate ∧
    part run.1.mean = mean stream.length ∧
    (∀ n ≤ stream.length, part (t.process (stream.take n).toArray).1.mean = mean n) ∧
    out.map part = (List.range stream.length).map (fun j => (1 - t.rate) * (x j - mean j)) ∧
    (0 < t.rate → t.rate ≤ 1 → ∀ n ≤ stream.length,
      mean n ∈ convexHull ℝ (insert (part t.mean) (x '' Set.Iio n))) ∧
    ∀ c, (∀ s ∈ stream, part s = c) →
      out.map part =
        (List.range stream.length).map fun j => (1 - t.rate) ^ (j + 1) * (c - part t.mean) := by
  intro stream x mean run out
  obtain ⟨hlast, hjoined, hsizes⟩ := t.processAll_eq blocks
  obtain ⟨hrate, hmean, hout⟩ := t.process_take hpart stream le_rfl
  rw [List.take_length] at hrate hmean hout
  have hout' : out.map part =
      (List.range stream.length).map fun j => (1 - t.rate) * (x j - mean j) :=
    (congrArg (List.map part) hjoined).trans hout
  refine ⟨hsizes, ?_, ?_, ?_, hout', ?_, ?_⟩
  · rw [← hrate, ← hlast]
  · rw [← hlast] at hmean
    exact hmean
  · intro n hn
    exact (t.process_take hpart stream hn).2.1
  · intro hpos hle n _
    exact fadingMean_mem_convexHull _ x ⟨hpos.le, hle⟩ n
  · intro c hc
    rw [hout']
    refine List.map_congr_left fun j hj => ?_
    have hj : j < stream.length := List.mem_range.mp hj
    have hx : ∀ i < stream.length, x i = c := by
      intro i hi
      simp only [x, List.getD_eq_getElem _ _ hi]
      exact hc _ (List.getElem_mem hi)
    have hdistance : c - mean j = (1 - t.rate) ^ j * (c - part t.mean) :=
      sub_fadingMean_const (part t.mean) x fun i hi => hx i (hi.trans hj)
    rw [hx j hj, pow_succ', mul_assoc, ← hdistance]

/-- Three samples in two blocks, constant in either part: at a rate of one half either part of the
mean comes half the way nearer with each. -/
theorem fading_means_of_constant :
    let t : DcTracker ℝ := ⟨⟨0, 4⟩, 1 / 2⟩
    let s : Sample ℝ := ⟨2, -4⟩
    let blocks : List (Block ℝ) := [#[s], #[s, s]]
    let run := t.processAll blocks
    0 < t.rate ∧ t.rate ≤ 1 ∧
    (∀ r ∈ blocks.flatMap Array.toList, r.re = 2 ∧ r.im = -4) ∧
    run.2.map Array.size = [1, 2] ∧
    run.1.mean = ⟨7 / 4, -3⟩ ∧
    run.1.mean.re ∈ convexHull ℝ {0, 2} ∧
    (run.2.flatMap Array.toList).map Sample.re = [1, 1 / 2, 1 / 4] ∧
    (run.2.flatMap Array.toList).map Sample.im = [-4, -2, -1] := by
  intro t s blocks run
  have hpos : 0 < t.rate := by norm_num [t]
  have hle : t.rate ≤ 1 := by norm_num [t]
  have hconst : ∀ r ∈ blocks.flatMap Array.toList, r.re = 2 ∧ r.im = -4 := by
    simp [blocks, s]
  obtain ⟨hsizes, -, hre, -, -, hhull, houtre⟩ := fading_means_of_stream t blocks (.inl rfl)
  obtain ⟨-, -, him, -, -, -, houtim⟩ := fading_means_of_stream t blocks (.inr rfl)
  refine ⟨hpos, hle, hconst, hsizes, ?_, ?_, ?_, ?_⟩
  · apply Sample.ext
    · rw [hre]
      norm_num [blocks, t, s, Finset.sum_range_succ]
    · rw [him]
      norm_num [blocks, t, s, Finset.sum_range_succ]
  · have hmem := hhull hpos hle _ le_rfl
    rw [← hre] at hmem
    refine convexHull_mono (Set.insert_subset_insert ?_) hmem
    rintro _ ⟨j, hj, rfl⟩
    rw [Set.mem_Iio] at hj
    simp only [List.getD_eq_getElem _ _ hj, Set.mem_singleton_iff]
    exact (hconst _ (List.getElem_mem hj)).1
  · rw [houtre 2 fun r hr => (hconst r hr).1]
    norm_num [blocks, t, List.range_succ]
  · rw [houtim (-4) fun r hr => (hconst r hr).2]
    norm_num [blocks, t, List.range_succ]

end DcTracker

end IqBalance
