import IqBalance.Config
import IqBalance.Correlation

/-!
The utility: one complex number per trial, which the control loop drives to
zero. Each image product counts with a linear ramp next to the centre, with
the boost around the favoured bin, and with the ratio of the image bin's energy
to the bin's own; bins at the centre and bin 0 do not count.
-/

namespace IqBalance

/-- How bins are weighted. -/
structure Weighting (α : Type) where
  /-- Bins at most this far from the centre do not count. -/
  centerBinsToSkip : Nat
  /-- Width in bins of the ramp next to the centre. -/
  rampBins : Nat
  /-- Added to a bin's energy before dividing by it. -/
  energyEpsilon : α
  deriving DecidableEq

/-- The weighting that a tuning asks for. -/
def Config.weighting {α : Type} (c : Config α) : Weighting α :=
  ⟨c.centerBinsToSkip, c.dcRampBins, c.energyEpsilon⟩

/-- The distance between two bins. -/
def binDistance (i j : Nat) : Nat := (i - j) + (j - i)

/-- The bin as far from the centre on its other side; bin 0 is its own image. -/
def imageBin {n : Nat} (i : Fin n) : Fin n :=
  ⟨(n - i.val) % n, Nat.mod_lt _ (Nat.lt_of_le_of_lt (Nat.zero_le _) i.isLt)⟩

namespace Weighting

variable {α : Type} [Scalar α]

/-- A bin that the utility counts, of `n`. -/
def counts (w : Weighting α) (n i : Nat) : Bool :=
  i != 0 && w.centerBinsToSkip < binDistance i (n / 2)

/-- The ramp next to the centre: linear in the distance inside it, one outside. -/
def ramp (w : Weighting α) (distance : Nat) : α :=
  if distance < w.rampBins then Scalar.ofCount distance * (1 / Scalar.ofCount w.rampBins) else 1

end Weighting

namespace Accumulators

variable {α : Type} [Scalar α] {size : FftSize}

/-- The weight of a bin: ramp, times boost, times the image bin's energy over the bin's own. -/
def weight (acc : Accumulators α size.bins) (tables : Tables α size) (w : Weighting α)
    (optimalBin : Nat) (i : Fin size.bins) : Except Fault α := do
  let boost ← tables.boostWeight (binDistance i optimalBin)
  let ratio := acc.energy[imageBin i] / (acc.energy[i] + w.energyEpsilon)
  return w.ramp (binDistance i (size.bins / 2)) * boost * ratio

/-- Add one bin to the utility, if it counts. -/
def addWeighted (acc : Accumulators α size.bins) (tables : Tables α size) (w : Weighting α)
    (trial : Trial) (optimalBin : Nat) (sum : Sample α) (i : Fin size.bins) :
    Except Fault (Sample α) :=
  if w.counts size.bins i then do
    let weight ← acc.weight tables w optimalBin i
    return sum + ((acc.products trial)[i]).scale weight
  else .ok sum

/-- The weighted sum of a trial's image products, bin by bin upward. -/
def utility (acc : Accumulators α size.bins) (tables : Tables α size) (w : Weighting α)
    (trial : Trial) (optimalBin : Nat) : Except Fault (Sample α) :=
  (List.finRange size.bins).foldlM (acc.addWeighted tables w trial optimalBin) 0

end Accumulators

end IqBalance
