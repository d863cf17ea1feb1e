import IqBalance.Scalar

/-!
Single precision as a `Scalar`. Every operation used is one that the logic
gives a meaning to, so results can be computed in proofs as well as run.
-/

namespace IqBalance

/-- The nearest count: the part before the point, and one more when what is left is at least a
half. Both steps are exact, since numbers with a fraction lie below `2 ^ 23`. -/
def nearestCount32 (x : Float32) : Nat :=
  let whole := x.toUInt64
  if 0.5 ≤ x - whole.toFloat32 then min (whole.toNat + 1) (countLimit - 1) else whole.toNat

instance : Scalar Float32 where
  zero := 0
  one := 1
  decideLT := inferInstance
  decideLE := inferInstance
  abs := Float32.abs
  ofCount := Float32.ofNat
  nearestCount := nearestCount32
  isNaN := Float32.isNaN
  isFinite := Float32.isFinite

end IqBalance
