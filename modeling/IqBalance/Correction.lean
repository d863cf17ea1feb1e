import IqBalance.Sample

/-!
The correction model. A `Correction` is a phase and an amplitude value; on a
sample, each part first receives `phase` times the other part as it came in, then
the in-phase part is scaled by `1 + amplitude` and the quadrature part by
`1 - amplitude`.
-/

namespace IqBalance

/-- A phase and an amplitude value. -/
@[ext]
structure Correction (α : Type) where
  phase : α
  amplitude : α
  deriving DecidableEq

namespace Correction

variable {α : Type} [Scalar α]

/-- Both values are finite. -/
def isFinite (c : Correction α) : Bool := Scalar.isFinite c.phase && Scalar.isFinite c.amplitude

/-- The corrected sample. -/
def apply (c : Correction α) (s : Sample α) : Sample α where
  re := (s.re + c.phase * s.im) * (1 + c.amplitude)
  im := (s.im + c.phase * s.re) * (1 - c.amplitude)

/-- One correction applied to every sample of a block. -/
def applyBlock (c : Correction α) (block : Block α) : Block α := block.map c.apply

@[simp] theorem size_applyBlock (c : Correction α) (block : Block α) :
    (c.applyBlock block).size = block.size := by
  simp [applyBlock]

end Correction

end IqBalance
