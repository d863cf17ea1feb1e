import Mathlib
import IqBalance.Lookback
import IqBalance.Proofs.ExactArithmetic

/-!
The lookback filter as a list, in whatever arithmetic.

`Event.recent` is what the requests alone say: the estimates pushed since the
last restart, oldest first. The filter keeps a ring that a restart does not
clear, a cursor that goes round, and two counts that stop growing. `Remembers`
ties the two together, and every request keeps it (`Remembers.meet`). A read
reaches back less than one turn from the cursor (`slotBefore_ne`,
`slotBefore_injOn`), so `push_after_events` may say what a push publishes in
terms of that list alone.
-/

namespace IqBalance

/-! ### Slots of a ring -/

/-- The slot that lies `back` slots before another one, around the ring. -/
def slotBefore (capacity slot back : Nat) : Nat := (slot + capacity - back) % capacity

section Slots

variable {capacity slot back : Nat}

/-- A reach of at most one turn wraps at most once. -/
theorem slotBefore_eq (hslot : slot < capacity) (hback : back ≤ capacity) :
    slotBefore capacity slot back =
      if back ≤ slot then slot - back else slot + capacity - back := by
  unfold slotBefore
  split
  · rename_i hle
    have hshift : slot + capacity - back = slot - back + capacity := by omega
    rw [hshift, Nat.add_mod_right, Nat.mod_eq_of_lt (by omega)]
  · exact Nat.mod_eq_of_lt (by omega)

/-- Less than one turn back there is another slot. -/
theorem slotBefore_ne (hslot : slot < capacity) (hpos : 1 ≤ back) (hback : back < capacity) :
    slotBefore capacity slot back ≠ slot := by
  rw [slotBefore_eq hslot hback.le]
  split <;> omega

/-- Less than one turn back no slot is met twice. -/
theorem slotBefore_injOn {back' : Nat} (hslot : slot < capacity) (hback : back < capacity)
    (hback' : back' < capacity)
    (h : slotBefore capacity slot back = slotBefore capacity slot back') : back = back' := by
  rw [slotBefore_eq hslot hback.le, slotBefore_eq hslot hback'.le] at h
  split at h <;> split at h <;> omega

/-- One slot further on, everything lies one slot further back. -/
theorem slotBefore_next (hslot : slot < capacity) (hback : back < capacity) :
    slotBefore capacity ((slot + 1) % capacity) (back + 1) = slotBefore capacity slot back := by
  rw [slotBefore_eq (Nat.mod_lt _ (by omega)) hback, slotBefore_eq hslot hback.le]
  rcases Nat.lt_or_ge (slot + 1) capacity with hinside | hend
  · rw [Nat.mod_eq_of_lt hinside]
    split <;> split <;> omega
  · have hwrap : slot + 1 = capacity := by omega
    rw [hwrap, Nat.mod_self]
    split <;> split <;> omega

/-- In a ring of `2 ^ k` slots the slot is found in 64-bit words: a subtraction that may wrap, and
the low `k` bits of what it gives. -/
theorem slotBefore_eq_masked {k : Nat} (hk : k < 64) (hcapacity : capacity = 2 ^ k)
    (hslot : slot < capacity) (hback : back ≤ capacity) :
    slotBefore capacity slot back =
      ((UInt64.ofNat slot - UInt64.ofNat back) &&& UInt64.ofNat (capacity - 1)).toNat := by
  have hcap : capacity < UInt64.size := hcapacity ▸ Nat.pow_lt_pow_right (by decide) hk
  have hdvd : capacity ∣ 2 ^ 64 := hcapacity ▸ Nat.pow_dvd_pow 2 hk.le
  have hsub : (UInt64.ofNat slot - UInt64.ofNat back).toNat = (2 ^ 64 - back + slot) % 2 ^ 64 := by
    rw [UInt64.toNat_sub, UInt64.toNat_ofNat_of_lt' (by omega),
      UInt64.toNat_ofNat_of_lt' (by omega)]
  have hmask : (UInt64.ofNat (capacity - 1)).toNat = 2 ^ k - 1 := by
    rw [UInt64.toNat_ofNat_of_lt' (by omega), hcapacity]
  rw [UInt64.toNat_and, hsub, hmask, Nat.and_two_pow_sub_one_eq_mod, ← hcapacity,
    Nat.mod_mod_of_dvd _ hdvd, slotBefore]
  obtain ⟨turns, hturns⟩ := hdvd
  have hpos : 0 < turns := Nat.pos_of_ne_zero (by rintro rfl; omega)
  have hsplit : 2 ^ 64 - back + slot = slot + capacity - back + capacity * (turns - 1) := by
    rw [Nat.mul_sub_one, ← hturns]
    have := Nat.le_mul_of_pos_right capacity hpos
    omega
  rw [hsplit, Nat.add_mul_mod_self_left]

end Slots

/-! ### What a plan asks for -/

/-- The averaging depth at the `r`-th estimate after a restart. -/
def LookbackPlan.depthAt (p : LookbackPlan) (r : Nat) : Nat :=
  if r ≤ p.warmupCycles then 0 else min (p.minLookback + r - p.warmupCycles - 1) (p.capacity - 1)

namespace LookbackPlan

variable {p : LookbackPlan}

theorem hasValidDepth_iff :
    p.hasValidDepth ↔
      1 ≤ p.minLookback ∧ p.minLookback ≤ p.warmupCycles ∧ p.minLookback < p.capacity := by
  simp [hasValidDepth, and_assoc, Nat.one_le_iff_ne_zero]

/-- The depth never reaches back beyond the restart. -/
theorem depthAt_succ_le (hvalid : p.hasValidDepth) (r : Nat) : p.depthAt (r + 1) ≤ r := by
  obtain ⟨hpos, hwarm, hinside⟩ := hasValidDepth_iff.mp hvalid
  unfold depthAt
  split <;> omega

theorem depthAt_lt (hvalid : p.hasValidDepth) (r : Nat) : p.depthAt r < p.capacity := by
  obtain ⟨hpos, hwarm, hinside⟩ := hasValidDepth_iff.mp hvalid
  unfold depthAt
  split <;> omega

end LookbackPlan

namespace Lookback

variable {α : Type}

/-! ### The ring -/

/-- A read after an estimate was written sees it in its own slot only. -/
theorem entryBefore_record_eq (f : Lookback α) (raw : Correction α) (slot : Fin f.capacity)
    (back : Nat) :
    (f.record raw).entryBefore slot back =
      if f.cursor = slotBefore f.capacity slot back then raw else f.entryBefore slot back := by
  simp only [entryBefore, record, slotBefore, Vector.get_eq_getElem, Vector.getElem_set]
  rfl

/-- The newest estimate lies one slot before the cursor. -/
theorem entryBefore_record_newest (f : Lookback α) (raw : Correction α) :
    (f.record raw).entryBefore (f.record raw).cursor 1 = raw := by
  have hslot : slotBefore f.capacity ((f.cursor + 1) % f.capacity) 1 = f.cursor := by
    rw [slotBefore_next f.cursor.isLt f.capacity_pos, slotBefore, Nat.sub_zero,
      Nat.add_mod_right, Nat.mod_eq_of_lt f.cursor.isLt]
  exact (entryBefore_record_eq f raw (f.record raw).cursor 1).trans (if_pos hslot.symm)

/-- A read behind the slot of the newest estimate does not see it. -/
theorem entryBefore_record (f : Lookback α) (raw : Correction α) {back : Nat} (hpos : 1 ≤ back)
    (hback : back < f.capacity) :
    (f.record raw).entryBefore f.cursor back = f.entryBefore f.cursor back :=
  (entryBefore_record_eq f raw f.cursor back).trans
    (if_neg (slotBefore_ne f.cursor.isLt hpos hback).symm)

/-- Less than one turn back, what the cursor saw before an estimate it sees one slot further back
after it. -/
theorem entryBefore_record_older (f : Lookback α) (raw : Correction α) {back : Nat}
    (hpos : 1 ≤ back) (hback : back < f.capacity) :
    (f.record raw).entryBefore (f.record raw).cursor (back + 1) = f.entryBefore f.cursor back := by
  have hslot : slotBefore f.capacity ((f.cursor + 1) % f.capacity) (back + 1) =
      slotBefore f.capacity f.cursor back := slotBefore_next f.cursor.isLt hback
  have hsame : (f.record raw).entryBefore (f.record raw).cursor (back + 1) =
      (f.record raw).entryBefore f.cursor back :=
    congrArg (f.record raw).ring.get (Fin.ext hslot)
  exact hsame.trans (entryBefore_record f raw hpos hback)

/-! ### The filter beside the list -/

/-- The filter keeps what it needs of the estimates since the last restart. -/
structure Remembers (f : Lookback α) (plan : LookbackPlan) (past : List (Correction α)) :
    Prop where
  capacity : f.capacity = plan.capacity
  warmupCycles : f.warmupCycles = plan.warmupCycles
  minLookback : f.minLookback = plan.minLookback
  warmup : f.warmup = min past.length plan.warmupCycles
  depth : f.depth = plan.depthAt past.length
  entry : ∀ back, 1 ≤ back → back ≤ past.length → back < f.capacity →
    past[past.length - back]? = some (f.entryBefore f.cursor back)

namespace Remembers

variable {f : Lookback α} {plan : LookbackPlan} {past : List (Correction α)}

/-- Nothing is remembered at the start of a warm-up. -/
theorem of_fresh (hcapacity : f.capacity = plan.capacity)
    (hcycles : f.warmupCycles = plan.warmupCycles) (hmin : f.minLookback = plan.minLookback)
    (hwarmup : f.warmup = 0) (hdepth : f.depth = 0) : f.Remembers plan [] where
  capacity := hcapacity
  warmupCycles := hcycles
  minLookback := hmin
  warmup := by rw [hwarmup, List.length_nil, Nat.zero_min]
  depth := by rw [hdepth, List.length_nil, LookbackPlan.depthAt, if_pos (Nat.zero_le _)]
  entry := fun _ hback hle _ => absurd (Nat.le_trans hback hle) (Nat.not_succ_le_zero 0)

theorem restart (h : f.Remembers plan past) : f.restart.Remembers plan [] :=
  of_fresh h.capacity h.warmupCycles h.minLookback rfl rfl

/-- The warm-up goes on as long as the list is shorter than it. -/
theorem warming_iff (h : f.Remembers plan past) :
    f.warmup < f.warmupCycles ↔ past.length + 1 ≤ plan.warmupCycles := by
  rw [h.warmup, h.warmupCycles]
  omega

theorem nextDepth (h : f.Remembers plan past) (hvalid : plan.hasValidDepth)
    (hwarm : ¬ f.warmup < f.warmupCycles) : f.nextDepth = plan.depthAt (past.length + 1) := by
  obtain ⟨hpos, hcycles, hinside⟩ := LookbackPlan.hasValidDepth_iff.mp hvalid
  rw [h.warming_iff] at hwarm
  have hdepth := h.depth
  unfold Lookback.nextDepth
  rw [h.minLookback, h.capacity]
  unfold LookbackPlan.depthAt at hdepth ⊢
  rw [if_neg hwarm]
  split at hdepth <;> split <;> omega

/-- The ring after one more estimate. -/
theorem entry_record (h : f.Remembers plan past) (raw : Correction α) {back : Nat}
    (hpos : 1 ≤ back) (hle : back ≤ (past ++ [raw]).length) (hback : back < f.capacity) :
    (past ++ [raw])[(past ++ [raw]).length - back]? =
      some ((f.record raw).entryBefore (f.record raw).cursor back) := by
  rw [List.length_append, List.length_singleton] at hle ⊢
  obtain ⟨before, rfl⟩ := Nat.exists_eq_add_of_le' hpos
  rcases Nat.eq_zero_or_pos before with rfl | hbefore
  · rw [entryBefore_record_newest]
    simp
  · rw [entryBefore_record_older f raw hbefore (by omega),
      ← h.entry before hbefore (by omega) (by omega), List.getElem?_append_left (by omega)]
    congr 1
    omega

/-- The estimates that a push past the warm-up averages with its own. -/
theorem entryBefore_push (h : f.Remembers plan past) (hvalid : plan.hasValidDepth)
    (raw : Correction α) {back : Nat} (hpos : 1 ≤ back)
    (hback : back ≤ plan.depthAt (past.length + 1)) :
    past[past.length - back]? = some ((f.record raw).entryBefore f.cursor back) := by
  have hle := LookbackPlan.depthAt_succ_le hvalid past.length
  have hlt := LookbackPlan.depthAt_lt hvalid (past.length + 1)
  have hcapacity := h.capacity
  rw [entryBefore_record f raw hpos (by omega)]
  exact h.entry back hpos (by omega) (by omega)

end Remembers

variable [Scalar α]

/-! ### Requests -/

/-- What a filter is asked to do. -/
inductive Event (α : Type) where
  | push (raw : Correction α)
  | restart
  deriving DecidableEq

/-- One more request to those that left these estimates. -/
def Event.extend (past : List (Correction α)) : Event α → List (Correction α)
  | .push raw => past ++ [raw]
  | .restart => []

/-- The estimates pushed since the last restart, oldest first. -/
def Event.recent (events : List (Event α)) : List (Correction α) := events.foldl extend []

/-- The filter after a request. -/
def meet (f : Lookback α) : Event α → Lookback α
  | .push raw => (f.push raw).1
  | .restart => f.restart

/-- The filter after requests in order. -/
def after (f : Lookback α) (events : List (Event α)) : Lookback α := events.foldl meet f

/-- The sum of one value over estimates, in order, from zero. -/
def sumOver (estimates : List (Correction α)) (value : Correction α → α) : α :=
  (estimates.map value).foldl (· + ·) 0

theorem sumOver_concat (estimates : List (Correction α)) (last : Correction α)
    (value : Correction α → α) :
    sumOver (estimates ++ [last]) value = sumOver estimates value + value last := by
  rw [sumOver, List.map_append, List.foldl_append]
  rfl

/-- The reads from the deepest on, when they find the estimates of a list in order. -/
theorem sumBefore_eq_sumOver {f : Lookback α} {slot : Fin f.capacity}
    {estimates : List (Correction α)} (hlength : estimates.length = f.depth)
    (hread : ∀ k (h : k < estimates.length), f.entryBefore slot (f.depth - k) = estimates[k])
    (value : Correction α → α) : f.sumBefore slot value = sumOver estimates value := by
  have hfold : ∀ n, n ≤ estimates.length →
      Nat.fold n (fun k _ sum => sum + value (f.entryBefore slot (f.depth - k))) 0 =
        sumOver (estimates.take n) value := by
    intro n
    induction n with
    | zero =>
      intro _
      rfl
    | succ n ih =>
      intro hn
      rw [Nat.fold_succ, ih (Nat.le_of_succ_le hn), hread n hn, List.take_succ_eq_append_getElem hn,
        sumOver_concat]
  rw [sumBefore, hfold f.depth hlength.ge, ← hlength, List.take_length]

/-! ### Requests beside the list -/

variable {memory : Allocator}

/-- What a plan makes, and what its capacity is. -/
theorem create_eq_ok {plan : LookbackPlan} {f : Lookback α} (h : create memory plan = .ok f) :
    plan.hasValidCapacity ∧ (∀ b ∈ plan.buffers, memory.Grants b) ∧ f.capacity = plan.capacity ∧
      f.cursor.val = 0 ∧ f.depth = 0 ∧ f.warmup = 0 ∧ f.warmupCycles = plan.warmupCycles ∧
      f.minLookback = min (max plan.minLookback 1) (plan.capacity - 1) := by
  unfold create at h
  split at h
  · rename_i hvalid
    split at h
    · rename_i hreserved
      cases h
      exact ⟨hvalid, Allocator.reserveAll_eq_ok_iff.mp hreserved, rfl, rfl, rfl, rfl, rfl, rfl⟩
    · cases h
  · cases h

/-- A valid plan makes a filter in a memory that grants its buffers. -/
theorem exists_create {plan : LookbackPlan} (hvalid : plan.hasValidCapacity)
    (hmemory : ∀ b ∈ plan.buffers, memory.Grants b) :
    ∃ f : Lookback α, create memory plan = .ok f := by
  rw [create, dif_pos hvalid, Allocator.reserveAll_eq_ok_iff.mpr hmemory]
  exact ⟨_, rfl⟩

/-- A ring that could be had has `2 ^ k` slots, and a word counts them. -/
theorem exists_capacity_eq {plan : LookbackPlan} {f : Lookback α}
    (h : create memory plan = .ok f) : ∃ k, k < 64 ∧ f.capacity = 2 ^ k := by
  obtain ⟨hvalid, hgranted, hcapacity, -⟩ := create_eq_ok h
  simp only [LookbackPlan.hasValidCapacity, isPowerOfTwo, Bool.and_eq_true, beq_iff_eq,
    decide_eq_true_eq] at hvalid
  have hsmall : plan.capacity < 2 ^ 64 := by
    have hbytes : plan.capacity * 4 ≤ largestRequest := (hgranted _ List.mem_cons_self).1
    unfold largestRequest at hbytes
    omega
  refine ⟨plan.capacity.log2, (Nat.log2_lt (by omega)).mpr hsmall, ?_⟩
  rw [hcapacity, hvalid.2]

namespace Remembers

theorem create {plan : LookbackPlan} {f : Lookback α} (hvalid : plan.hasValidDepth)
    (h : Lookback.create memory plan = .ok f) : f.Remembers plan [] := by
  obtain ⟨-, -, hcapacity, -, hdepth, hwarmup, hcycles, hmin⟩ := create_eq_ok h
  obtain ⟨hpos, hwarm, hinside⟩ := LookbackPlan.hasValidDepth_iff.mp hvalid
  exact of_fresh hcapacity hcycles (by omega) hwarmup hdepth

variable {f : Lookback α} {plan : LookbackPlan} {past : List (Correction α)}

theorem push (h : f.Remembers plan past) (hvalid : plan.hasValidDepth) (raw : Correction α) :
    (f.push raw).1.Remembers plan (past ++ [raw]) := by
  have hlength : (past ++ [raw]).length = past.length + 1 := by simp
  by_cases hwarm : f.warmup < f.warmupCycles
  · have hgoesOn := h.warming_iff.mp hwarm
    rw [Lookback.push, if_pos hwarm]
    exact {
      capacity := h.capacity
      warmupCycles := h.warmupCycles
      minLookback := h.minLookback
      warmup := by
        rw [hlength, Nat.min_eq_left hgoesOn]
        exact congrArg (· + 1) (h.warmup.trans (Nat.min_eq_left (by omega)))
      depth := by rw [hlength, LookbackPlan.depthAt, if_pos hgoesOn]
      entry := fun back => h.entry_record raw }
  · have hover := mt h.warming_iff.mpr hwarm
    have hdepth := h.nextDepth hvalid hwarm
    rw [Lookback.push, if_neg hwarm]
    exact {
      capacity := h.capacity
      warmupCycles := h.warmupCycles
      minLookback := h.minLookback
      warmup := by
        rw [hlength, Nat.min_eq_right (by omega)]
        exact h.warmup.trans (Nat.min_eq_right (by omega))
      depth := by rw [hlength]; exact hdepth
      entry := fun back => h.entry_record raw }

theorem meet (h : f.Remembers plan past) (hvalid : plan.hasValidDepth) (event : Event α) :
    (f.meet event).Remembers plan (event.extend past) := by
  cases event with
  | push raw => exact h.push hvalid raw
  | restart => exact h.restart

theorem after (h : f.Remembers plan past) (hvalid : plan.hasValidDepth)
    (events : List (Event α)) :
    (f.after events).Remembers plan (events.foldl Event.extend past) := by
  induction events generalizing f past with
  | nil => exact h
  | cons event rest ih => exact ih (h.meet hvalid event)

/-- What a push past the warm-up publishes: the mean of the last `depthAt` estimates and its own. -/
theorem push_mean (h : f.Remembers plan past) (hvalid : plan.hasValidDepth)
    (hwarm : ¬ f.warmup < f.warmupCycles) (raw : Correction α) :
    let depth := plan.depthAt (past.length + 1)
    let latest := past.drop (past.length - depth)
    (f.push raw).2 =
      { phase := (sumOver latest (·.phase) + raw.phase) * (1 / Scalar.ofCount (depth + 1))
        amplitude :=
          (sumOver latest (·.amplitude) + raw.amplitude) * (1 / Scalar.ofCount (depth + 1)) } := by
  intro depth latest
  have hle : depth ≤ past.length := LookbackPlan.depthAt_succ_le hvalid past.length
  have hdepth : f.nextDepth = depth := h.nextDepth hvalid hwarm
  have hlength : latest.length = f.nextDepth := by
    rw [List.length_drop, hdepth]
    omega
  have hread : ∀ k (hk : k < latest.length),
      (f.record raw).entryBefore f.cursor (f.nextDepth - k) = latest[k] := by
    intro k hk
    have hpos : 1 ≤ depth - k := by omega
    have hentry := h.entryBefore_push hvalid raw hpos (Nat.sub_le _ _)
    have hindex : past.length - (depth - k) = past.length - depth + k := by omega
    rw [hindex, ← List.getElem?_drop, List.getElem?_eq_getElem hk] at hentry
    rw [hdepth]
    exact (Option.some.inj hentry).symm
  have hsum : ∀ value,
      ({ f.record raw with depth := f.nextDepth } : Lookback α).sumBefore f.cursor value =
        sumOver latest value :=
    fun value => sumBefore_eq_sumOver hlength hread value
  rw [Lookback.push, if_neg hwarm, ← hdepth]
  simp only [meanAt, hsum]

end Remembers

/-! ### Runs -/

/-- What the next push publishes, after any requests. As the `r`-th estimate since the last
restart it passes through during the warm-up. From then on it is averaged with the `depth`
estimates before it, all of them pushed since that restart, oldest first. Each of these is read
once, from a slot that the push has not written, which is where a wrapping subtraction and a mask
of the low bits find it. -/
theorem push_after_events {plan : LookbackPlan} {f₀ : Lookback α} (hvalid : plan.hasValidDepth)
    (hcreate : create memory plan = .ok f₀) (events : List (Event α)) (raw : Correction α) :
    let f := f₀.after events
    let past := Event.recent events
    let r := past.length + 1
    let depth := min (plan.minLookback + r - plan.warmupCycles - 1) (plan.capacity - 1)
    let latest := past.drop (past.length - depth)
    (r ≤ plan.warmupCycles → (f.push raw).2 = raw ∧ (f.push raw).1.depth = 0) ∧
    (plan.warmupCycles < r →
      (f.push raw).1.depth = depth ∧ depth ≤ past.length ∧ latest.length = depth ∧
      (f.push raw).2 =
        { phase := (sumOver latest (·.phase) + raw.phase) * (1 / Scalar.ofCount (depth + 1))
          amplitude :=
            (sumOver latest (·.amplitude) + raw.amplitude) * (1 / Scalar.ofCount (depth + 1)) } ∧
      (∀ back, 1 ≤ back → back ≤ depth →
        past[past.length - back]? = some ((f.record raw).entryBefore f.cursor back) ∧
        slotBefore f.capacity f.cursor back ≠ f.cursor ∧
        slotBefore f.capacity f.cursor back =
          ((UInt64.ofNat f.cursor - UInt64.ofNat back) &&&
            UInt64.ofNat (f.capacity - 1)).toNat) ∧
      (∀ back back', back ≤ depth → back' ≤ depth →
        slotBefore f.capacity f.cursor back = slotBefore f.capacity f.cursor back' →
        back = back')) := by
  intro f past r depth latest
  have h : f.Remembers plan past := (Remembers.create hvalid hcreate).after hvalid events
  refine ⟨fun hr => ?_, fun hr => ?_⟩
  · rw [push, if_pos (h.warming_iff.mpr hr)]
    exact ⟨rfl, rfl⟩
  · have hover : ¬ r ≤ plan.warmupCycles := Nat.not_le.mpr hr
    have hwarm : ¬ f.warmup < f.warmupCycles := mt h.warming_iff.mp hover
    have hdepthAt : plan.depthAt r = depth := if_neg hover
    have hle : depth ≤ past.length := hdepthAt ▸ LookbackPlan.depthAt_succ_le hvalid past.length
    have hlt : depth < f.capacity := by
      rw [h.capacity, ← hdepthAt]
      exact LookbackPlan.depthAt_lt hvalid r
    have hmean := h.push_mean hvalid hwarm raw
    rw [hdepthAt] at hmean
    refine ⟨?_, hle, ?_, hmean, ?_, ?_⟩
    · rw [push, if_neg hwarm, ← hdepthAt]
      exact h.nextDepth hvalid hwarm
    · rw [List.length_drop]
      omega
    · intro back hpos hback
      obtain ⟨k, hk, hring⟩ := exists_capacity_eq hcreate
      have hcapacity : f.capacity = 2 ^ k := by
        rw [h.capacity, ← hring, (create_eq_ok hcreate).2.2.1]
      exact ⟨h.entryBefore_push hvalid raw hpos (hdepthAt ▸ hback),
        slotBefore_ne f.cursor.isLt hpos (by omega),
        slotBefore_eq_masked hk hcapacity f.cursor.isLt (by omega)⟩
    · intro back back' hback hback' heq
      exact slotBefore_injOn f.cursor.isLt (by omega) (by omega) heq

/-- Pushes 2 and 3 are averaged with 4 after a warm-up of three; what came before the restart and
the first push after it are out of reach. -/
theorem push_after_warmup :
    let plan : LookbackPlan := ⟨8, 3, 2⟩
    let events : List (Event ℝ) :=
      [.push ⟨100, 100⟩, .restart, .push ⟨1, 10⟩, .push ⟨2, 20⟩, .push ⟨3, 30⟩]
    ∃ f₀, plan.hasValidDepth ∧ create .ample plan = .ok f₀ ∧
      ((f₀.after events).push ⟨4, 40⟩).2 = ⟨3, 30⟩ ∧
      ((f₀.after events).push ⟨4, 40⟩).1.depth = 2 := by
  intro plan events
  have hvalid : plan.hasValidDepth := by decide
  have hcreate : create (α := ℝ) .ample ⟨8, 3, 2⟩ = .ok _ := rfl
  obtain ⟨hdepth, -, -, hmean, -⟩ :=
    (push_after_events hvalid hcreate events ⟨4, 40⟩).2 (by decide)
  refine ⟨_, hvalid, hcreate, ?_, hdepth⟩
  rw [hmean]
  norm_num [Event.recent, Event.extend, events, plan, sumOver, Scalar.ofCount]

end Lookback

end IqBalance
