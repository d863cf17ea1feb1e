import IqBalance.Sample

/-!
Removal of a constant offset. A `DcTracker` follows the mean of each part with
a one-pole average; the average that is subtracted from a sample has already
taken that sample in. `process_append` says that cutting a stream into blocks
changes nothing.
-/

namespace IqBalance

/-- The tracked mean of both parts and the weight of a new sample. -/
structure DcTracker (α : Type) where
  mean : Sample α
  rate : α
  deriving DecidableEq

namespace DcTracker

variable {α : Type} [Scalar α]

/-- A tracker that has seen nothing. -/
def start (rate : α) : DcTracker α := ⟨0, rate⟩

/-- Take one sample in. -/
def track (t : DcTracker α) (s : Sample α) : DcTracker α :=
  { t with mean :=
    { re := t.mean.re + t.rate * (s.re - t.mean.re)
      im := t.mean.im + t.rate * (s.im - t.mean.im) } }

/-- Take one sample in, then put it out less the mean. -/
def step (run : DcTracker α × Block α) (s : Sample α) : DcTracker α × Block α :=
  let t := run.1.track s
  (t, run.2.push (s - t.mean))

/-- Remove the tracked mean from every sample of a block. -/
def process (t : DcTracker α) (block : Block α) : DcTracker α × Block α :=
  block.foldl step (t, #[])

@[simp] theorem track_rate (t : DcTracker α) (s : Sample α) : (t.track s).rate = t.rate := rfl

@[simp] theorem process_empty (t : DcTracker α) : t.process #[] = (t, #[]) := rfl

theorem foldl_step_out (samples : List (Sample α)) (t : DcTracker α) (out : Block α) :
    samples.foldl step (t, out) =
      ((samples.foldl step (t, #[])).1, out ++ (samples.foldl step (t, #[])).2) := by
  induction samples generalizing t out with
  | nil => simp
  | cons s rest ih =>
    simp only [List.foldl_cons]
    rw [ih (step (t, out) s).1, ih (step (t, #[]) s).1]
    simp [step]

theorem size_foldl_step (samples : List (Sample α)) (run : DcTracker α × Block α) :
    (samples.foldl step run).2.size = run.2.size + samples.length := by
  induction samples generalizing run with
  | nil => rfl
  | cons s rest ih =>
    rw [List.foldl_cons, ih, List.length_cons]
    simp only [step, Array.size_push]
    omega

@[simp] theorem size_process (t : DcTracker α) (block : Block α) :
    (t.process block).2.size = block.size := by
  rw [process, ← Array.foldl_toList, size_foldl_step]
  simp

/-- Two blocks in a row are one block. -/
theorem process_append (t : DcTracker α) (first second : Block α) :
    t.process (first ++ second) =
      (((t.process first).1.process second).1,
        (t.process first).2 ++ ((t.process first).1.process second).2) := by
  simp only [process, ← Array.foldl_toList, Array.toList_append, List.foldl_append]
  exact foldl_step_out _ _ _

end DcTracker

end IqBalance
