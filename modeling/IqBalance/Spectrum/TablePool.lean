import IqBalance.Config.Validation
import IqBalance.Spectrum.Tables

/-!
Tables shared by length. A pool keeps the tables it has built; a length asked
for again is answered with the tables built the first time.
-/

namespace IqBalance

/-- Tables of some length. -/
structure PooledTables (α : Type) where
  size : FftSize
  tables : Tables α size

/-- The tables built so far, in the order of building. -/
abbrev TablePool (α : Type) := List (PooledTables α)

namespace TablePool

variable {α : Type}

/-- The position of the tables for a bin count, and the pool, with them built if they were not. -/
def request (pool : TablePool α) (build : (size : FftSize) → Tables α size) (bins : Nat) :
    Except (ConfigError α) (Nat × TablePool α) := do
  let size ← FftSize.ofBins bins
  match pool.findIdx? (·.size = size) with
  | some i => return (i, pool)
  | none => return (pool.length, pool ++ [⟨size, build size⟩])

end TablePool

end IqBalance
