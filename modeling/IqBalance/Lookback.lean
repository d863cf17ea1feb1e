import IqBalance.Refusal

/-!
Averaging of raw estimates. A `Lookback` keeps the last estimates in a ring.
After a restart the first `warmupCycles` pass through unchanged; from then on
what is published is the mean of the new estimate and the `depth` before it,
and `depth` grows by one with every estimate until it covers the ring.
-/

namespace IqBalance

/-- The remembered estimates and how far back the mean reaches. -/
structure Lookback (α : Type) where
  capacity : Nat
  capacity_pos : 0 < capacity
  ring : Vector (Correction α) capacity
  /-- The slot that the next estimate takes. -/
  cursor : Fin capacity
  /-- Earlier estimates averaged with the newest. -/
  depth : Nat
  /-- Estimates since the last restart, counted up to `warmupCycles`. -/
  warmup : Nat
  warmupCycles : Nat
  minLookback : Nat

/-- The buffers of a filter, in the order in which they are asked for. -/
def LookbackPlan.buffers (plan : LookbackPlan) : List Buffer :=
  [⟨"raw_phases", plan.capacity, 4⟩, ⟨"raw_amplitudes", plan.capacity, 4⟩]

namespace Lookback

variable {α : Type} [Scalar α]

/-- A filter that has seen nothing. The first averaging depth is kept within the ring. -/
def create (memory : Allocator) (plan : LookbackPlan) : Except (Refusal α) (Lookback α) :=
  if h : plan.hasValidCapacity then
    match memory.reserveAll plan.buffers with
    | .ok () =>
      have hpos : 0 < plan.capacity := by
        have : 2 ≤ plan.capacity := by
          simp only [LookbackPlan.hasValidCapacity, Bool.and_eq_true, decide_eq_true_eq] at h
          exact h.1
        omega
      .ok
        { capacity := plan.capacity
          capacity_pos := hpos
          ring := Vector.replicate plan.capacity ⟨0, 0⟩
          cursor := ⟨0, hpos⟩
          depth := 0
          warmup := 0
          warmupCycles := plan.warmupCycles
          minLookback := min (max plan.minLookback 1) (plan.capacity - 1) }
    | .error cause => .error (.allocation cause)
  else .error (.invalid (.lookbackCapacity plan.capacity))

/-- Estimates still pass through unchanged. -/
def isWarmingUp (f : Lookback α) : Bool := f.warmup < f.warmupCycles

/-- Begin the warm-up again. The ring is kept, and not read until the depth has grown back. -/
def restart (f : Lookback α) : Lookback α := { f with warmup := 0, depth := 0 }

/-- The estimate written `back` before the one in `slot`. -/
def entryBefore (f : Lookback α) (slot : Fin f.capacity) (back : Nat) : Correction α :=
  f.ring.get ⟨(slot.val + f.capacity - back) % f.capacity, Nat.mod_lt _ f.capacity_pos⟩

/-- The sum of one value over the `depth` estimates before the one in `slot`, oldest first. -/
def sumBefore (f : Lookback α) (slot : Fin f.capacity) (value : Correction α → α) : α :=
  Nat.fold f.depth (fun k _ sum => sum + value (f.entryBefore slot (f.depth - k))) 0

/-- The mean of an estimate in `slot` and the `depth` before it. -/
def meanAt (f : Lookback α) (slot : Fin f.capacity) (raw : Correction α) : Correction α :=
  let unit := 1 / Scalar.ofCount (f.depth + 1)
  { phase := (f.sumBefore slot (·.phase) + raw.phase) * unit
    amplitude := (f.sumBefore slot (·.amplitude) + raw.amplitude) * unit }

/-- The averaging depth after one more estimate. -/
def nextDepth (f : Lookback α) : Nat :=
  if f.depth = 0 then f.minLookback else min (f.depth + 1) (f.capacity - 1)

/-- Write an estimate into the ring and advance. -/
def record (f : Lookback α) (raw : Correction α) : Lookback α :=
  { f with
    ring := f.ring.set f.cursor raw
    cursor := ⟨(f.cursor.val + 1) % f.capacity, Nat.mod_lt _ f.capacity_pos⟩ }

/-- Take an estimate in; what to publish comes with the filter after it. -/
def push (f : Lookback α) (raw : Correction α) : Lookback α × Correction α :=
  if f.warmup < f.warmupCycles then
    ({ f.record raw with warmup := f.warmup + 1, depth := 0 }, raw)
  else
    let g := { f.record raw with depth := f.nextDepth }
    (g, g.meanAt f.cursor raw)

end Lookback

end IqBalance
