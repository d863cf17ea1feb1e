import IqBalance.Correction

/-!
Ramped correction. A `Ramp` remembers the correction that was last applied in
full and the one to reach. Over a block of `n ≥ 2` samples it moves from the
first to the second in equal increments, so a new target makes no step in the
output; a single sample takes the target at once, and an empty block commits
it unseen.
-/

namespace IqBalance

/-- The correction to reach and the one last applied in full. -/
structure Ramp (α : Type) where
  target : Correction α
  applied : Correction α
  deriving DecidableEq

namespace Ramp

variable {α : Type} [Scalar α]

/-- A ramp at rest. -/
def atRest (c : Correction α) : Ramp α := ⟨c, c⟩

/-- A new target, reached at the end of the next block. -/
def setTarget (r : Ramp α) (c : Correction α) : Ramp α := { r with target := c }

/-- The correction of sample `i` in a block of `n`: `i` parts of the target and `n - 1 - i` parts
of the last applied values, times the reciprocal of `n - 1`. -/
def correctionAt (r : Ramp α) (n i : Nat) : Correction α :=
  if n = 1 then r.target
  else
    let last : α := Scalar.ofCount (n - 1)
    let unit := 1 / last
    let ahead : α := Scalar.ofCount i
    let behind := last - ahead
    { phase := (ahead * r.target.phase + behind * r.applied.phase) * unit
      amplitude := (ahead * r.target.amplitude + behind * r.applied.amplitude) * unit }

/-- Correct a block and commit the target. -/
def process (r : Ramp α) (block : Block α) : Ramp α × Block α :=
  ({ r with applied := r.target },
    block.mapIdx fun i s => (r.correctionAt block.size i).apply s)

@[simp] theorem process_target (r : Ramp α) (block : Block α) :
    (r.process block).1.target = r.target := rfl

@[simp] theorem process_applied (r : Ramp α) (block : Block α) :
    (r.process block).1.applied = r.target := rfl

@[simp] theorem size_process (r : Ramp α) (block : Block α) :
    (r.process block).2.size = block.size := by
  simp [process]

end Ramp

end IqBalance
