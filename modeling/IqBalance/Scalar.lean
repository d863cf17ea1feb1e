import IqBalance.Fault

/-!
The arithmetic that the signal chain is written over. `Scalar` asks for the
four operations, an order that can be decided, a magnitude, conversion from
counts, rounding to an index, and the two tests a number may fail: being no
number, and being infinite. No law is asked for, so a statement proved for
every `Scalar` holds operation by operation, in the order written. The engine
runs over `Float32` (`IqBalance.Scalar.Binary32`).
-/

namespace IqBalance

/-- Numbers the signal chain computes with. -/
class Scalar (α : Type) extends Zero α, One α, Add α, Sub α, Mul α, Div α, Neg α, LT α, LE α where
  /-- Strict comparison is decided. -/
  decideLT : DecidableLT α
  /-- Comparison is decided. -/
  decideLE : DecidableLE α
  /-- The magnitude. -/
  abs : α → α
  /-- The number nearest to a count. -/
  ofCount : Nat → α
  /-- The count nearest to a number, a half away from zero, kept within the counter range. -/
  nearestCount : α → Nat
  /-- Not a number at all. -/
  isNaN : α → Bool
  /-- Neither infinite nor `isNaN`. -/
  isFinite : α → Bool

attribute [reducible, instance] Scalar.decideLT Scalar.decideLE

namespace Scalar

variable {α : Type} [Scalar α]

/-- One half. -/
def half : α := 1 / ofCount 2

/-- `x` moved to the nearer end of `[lo, hi]` if it lies outside. What compares with neither end
stays as it is; bounds out of order are a fault. -/
def clamp (x lo hi : α) : Except Fault α :=
  if lo ≤ hi then .ok (if x < lo then lo else if hi < x then hi else x) else .error .clampBounds

theorem clamp_eq_ok {x lo hi : α} (h : lo ≤ hi) :
    clamp x lo hi = .ok (if x < lo then lo else if hi < x then hi else x) :=
  if_pos h

theorem clamp_eq_error {x lo hi : α} (h : ¬ lo ≤ hi) : clamp x lo hi = .error .clampBounds :=
  if_neg h

end Scalar

end IqBalance
