import IqBalance.Correction
import IqBalance.Memory
import IqBalance.Spectrum.Tables

/-!
Image-bin correlation. Bins `s` and `n - s` of a centred spectrum lie at equal
distance on the two sides of the centre, so an imbalance leaks each into the
other, its image; the product of the two carries that leakage.
`Accumulators` sums these products for two trial corrections, and for the
first of them also the energy of each bin. A pass walks over a block in
windows that overlap by half; `windowCount` says how many it takes.
-/

namespace IqBalance

/-- The two corrections that a pass tries. -/
inductive Trial where
  /-- The correction in force. -/
  | baseline
  /-- The correction in force, plus one step of each quantity. -/
  | perturbed
  deriving DecidableEq, Repr

/-- The window of `n` samples that begins at `offset`. -/
def Block.window {α : Type} {n : Nat} (block : Block α) (offset : Nat)
    (h : offset + n ≤ block.size) : Vector (Sample α) n :=
  Vector.ofFn fun i => block[offset + i.val]

/-- The number of windows of length `n`, half a window apart, that a block of `len` samples gives,
`limit` at most. -/
def windowCount (n len limit : Nat) : Nat :=
  min limit (if len < n then 0 else 1 + (len - n) / (n / 2))

/-- Add the product of each bin and its image to the slots of both, and that of the centre with
itself once. Slot 0 has no image among the bins and gains nothing. -/
def addImageProducts {α : Type} [Scalar α] {n : Nat} (spectrum : Vector (Sample α) n)
    (sums : Vector (Sample α) n) : Vector (Sample α) n :=
  Nat.fold (n / 2) (fun k hk sums =>
    let i := k + 1
    let j := n - (k + 1)
    let product := spectrum[i] * spectrum[j]
    let sums := sums.set i (sums[i] + product)
    if i ≠ j then sums.set j (sums[j] + product) else sums) sums

/-- Add the energy of each bin of a spectrum. -/
def addEnergy {α : Type} [Scalar α] {n : Nat} (spectrum : Vector (Sample α) n)
    (energy : Vector α n) : Vector α n :=
  Vector.zipWith (fun e x => e + x.normSq) energy spectrum

/-- What the passes of one integration cycle have summed up. -/
structure Accumulators (α : Type) (n : Nat) where
  /-- Image products of the baseline trial. -/
  baseline : Vector (Sample α) n
  /-- Image products of the perturbed trial. -/
  perturbed : Vector (Sample α) n
  /-- Energy of each bin in the baseline trial. -/
  energy : Vector α n
  /-- Windows of the baseline trial. -/
  windows : Nat
  deriving DecidableEq

namespace Accumulators

/-- The buffers of the correlation over `n` bins, in the order in which they are asked for: the
accumulators, and room for a window on its way through the transform. -/
def buffers (n : Nat) : List Buffer :=
  [⟨"corr", n, 8⟩, ⟨"corr_plus", n, 8⟩, ⟨"boost", n, 4⟩, ⟨"fft scratch", n, 8⟩]

variable {α : Type} [Scalar α]

/-- Nothing summed up. -/
def empty (n : Nat) : Accumulators α n :=
  ⟨Vector.replicate n 0, Vector.replicate n 0, Vector.replicate n 0, 0⟩

variable {n : Nat}

/-- The image products of one trial. -/
def products (acc : Accumulators α n) : Trial → Vector (Sample α) n
  | .baseline => acc.baseline
  | .perturbed => acc.perturbed

/-- Add the spectrum of one window to a trial. -/
def addSpectrum (acc : Accumulators α n) (trial : Trial) (spectrum : Vector (Sample α) n) :
    Accumulators α n :=
  match trial with
  | .baseline =>
    { acc with
      baseline := addImageProducts spectrum acc.baseline
      energy := addEnergy spectrum acc.energy
      windows := acc.windows + 1 }
  | .perturbed => { acc with perturbed := addImageProducts spectrum acc.perturbed }

variable {size : FftSize}

/-- The corrected, tapered and transformed window that begins at `offset`. -/
def windowSpectrum (tables : Tables α size) (block : Block α) (point : Correction α)
    (offset : Nat) (h : offset + size.bins ≤ block.size) : Vector (Sample α) size.bins :=
  tables.spectrum ((block.window offset h).map point.apply)

/-- Add windows from `offset` on, `limit` at most, until the block has no full window left. -/
def accumulateFrom (tables : Tables α size) (block : Block α) (point : Correction α)
    (trial : Trial) :
    (limit offset : Nat) → Accumulators α size.bins → Nat × Accumulators α size.bins
  | 0, _, acc => (0, acc)
  | limit + 1, offset, acc =>
    if h : offset + size.bins ≤ block.size then
      let (taken, acc) := accumulateFrom tables block point trial limit (offset + size.bins / 2)
        (acc.addSpectrum trial (windowSpectrum tables block point offset h))
      (taken + 1, acc)
    else (0, acc)

/-- One pass over a block at a trial point: the number of windows taken, and the sums. -/
def accumulate (acc : Accumulators α size.bins) (tables : Tables α size) (block : Block α)
    (point : Correction α) (trial : Trial) (limit : Nat) : Nat × Accumulators α size.bins :=
  accumulateFrom tables block point trial limit 0 acc

end Accumulators

end IqBalance
