import Mathlib
import IqBalance.Proofs.Balancer.Cycle

/-!
When passes run and cycles end, counted from the calls alone, in whatever
arithmetic.

`Call.cadenceAfter` and `Call.blocksAfter` read off a list of calls which
cadence is in force and how many blocks have come since it did. A `History`
counts the same (`History.seen_ofCalls`), and its passes are the quotient by
`buffersToSkip` (`History.length_passes_ofCalls`). So both counts of an engine
are remainders, a pass runs on the multiples of `buffersToSkip`, and a cycle
ends on the multiples of `buffersToSkip * correlationIntegration`
(`cadence_of_run`).
-/

namespace IqBalance

variable {α : Type}

/-! ### What the calls say -/

namespace Call

/-- The cadence that a call puts in force, if it is one that does. -/
def newCadence? : Call α → Option Cadence
  | .configure cadence => if cadence.isValid then some cadence else none
  | _ => none

/-- A call that brings a block, be it empty. -/
def isBlock : Call α → Bool
  | .process _ => true
  | _ => false

/-- The cadence in force after calls: the last one accepted. -/
def cadenceAfter (config : Config α) (calls : List (Call α)) : Cadence :=
  (calls.reverse.findSome? newCadence?).getD config.cadence

/-- The blocks among calls since the cadence came into force. -/
def blocksAfter (calls : List (Call α)) : Nat :=
  (calls.reverse.takeWhile (·.newCadence?.isNone)).countP isBlock

theorem cadenceAfter_concat (config : Config α) (calls : List (Call α)) (c : Call α) :
    cadenceAfter config (calls ++ [c]) = c.newCadence?.getD (cadenceAfter config calls) := by
  rw [cadenceAfter, List.reverse_concat, List.findSome?_cons]
  cases c.newCadence? <;> rfl

theorem blocksAfter_concat (calls : List (Call α)) (c : Call α) :
    blocksAfter (calls ++ [c]) =
      if c.newCadence?.isNone then blocksAfter calls + (if c.isBlock then 1 else 0) else 0 := by
  rw [blocksAfter, List.reverse_concat, List.takeWhile_cons]
  split
  · rw [List.countP_cons, blocksAfter]
  · rfl

end Call

variable [Scalar α]

namespace History

theorem ofCalls_concat (config : Config α) (calls : List (Call α)) (c : Call α) :
    ofCalls config (calls ++ [c]) = (ofCalls config calls).call c := by
  rw [ofCalls, List.foldl_concat, ofCalls]

theorem cadence_call (h : History α) (c : Call α) :
    (h.call c).cadence = c.newCadence?.getD h.cadence := by
  cases c with
  | process block => rfl
  | setOptimalPoint w => rfl
  | configure cadence =>
    rw [call, Call.newCadence?]
    split <;> rfl

theorem seen_call (h : History α) (c : Call α) :
    (h.call c).seen =
      if c.newCadence?.isNone then h.seen + (if c.isBlock then 1 else 0) else 0 := by
  cases c with
  | process block => rfl
  | setOptimalPoint w => rfl
  | configure cadence =>
    rw [call, Call.newCadence?]
    split <;> rfl

theorem cadence_ofCalls (config : Config α) (calls : List (Call α)) :
    (ofCalls config calls).cadence = Call.cadenceAfter config calls := by
  induction calls using List.reverseRecOn with
  | nil => rfl
  | append_singleton calls c ih => rw [ofCalls_concat, cadence_call, ih, Call.cadenceAfter_concat]

theorem seen_ofCalls (config : Config α) (calls : List (Call α)) :
    (ofCalls config calls).seen = Call.blocksAfter calls := by
  induction calls using List.reverseRecOn with
  | nil => rfl
  | append_singleton calls c ih => rw [ofCalls_concat, seen_call, ih, Call.blocksAfter_concat]

/-- One pass for every `buffersToSkip` blocks. -/
theorem length_passes_call {h : History α}
    (hpasses : h.passes.length = h.seen / h.cadence.buffersToSkip) (c : Call α) :
    (h.call c).passes.length = (h.call c).seen / (h.call c).cadence.buffersToSkip := by
  cases c with
  | process block =>
    by_cases hdue : (h.seen + 1) % h.cadence.buffersToSkip = 0
    · have hsucc := Nat.succ_div_of_dvd (Nat.dvd_of_mod_eq_zero hdue)
      exact (length_passes_process_of_due hdue).trans (hpasses ▸ hsucc.symm)
    · have hsucc := Nat.succ_div_of_not_dvd (mt Nat.mod_eq_zero_of_dvd hdue)
      exact (congrArg List.length (passes_process_of_idle hdue)).trans (hpasses.trans hsucc.symm)
  | setOptimalPoint w => exact hpasses
  | configure cadence =>
    rw [call]
    split
    · exact (Nat.zero_div _).symm
    · exact hpasses

theorem length_passes_ofCalls (config : Config α) (calls : List (Call α)) :
    (ofCalls config calls).passes.length =
      (ofCalls config calls).seen / (ofCalls config calls).cadence.buffersToSkip := by
  induction calls using List.reverseRecOn with
  | nil => exact (Nat.zero_div _).symm
  | append_singleton calls c ih =>
    rw [ofCalls_concat]
    exact length_passes_call ih c

/-- A block ends a cycle when it completes `correlationIntegration` times `buffersToSkip`. -/
theorem endsCycle_process_iff_dvd {h : History α}
    (hpasses : h.passes.length = h.seen / h.cadence.buffersToSkip) (block : Block α) :
    (h.process block).EndsCycle ↔
      h.cadence.buffersToSkip * h.cadence.correlationIntegration ∣ h.seen + 1 := by
  have hlength : (h.process block).passes.length = (h.seen + 1) / h.cadence.buffersToSkip :=
    length_passes_call hpasses (.process block)
  rw [EndsCycle, hlength]
  constructor
  · rintro ⟨hdue, hends⟩
    have hdvd := Nat.dvd_of_mod_eq_zero hdue
    exact (Nat.dvd_div_iff_mul_dvd hdvd).mp (Nat.dvd_of_mod_eq_zero hends)
  · intro h
    -- A multiple of the product is one of `buffersToSkip`, so a pass is due as well.
    have hdvd := dvd_of_mul_right_dvd h
    exact ⟨Nat.mod_eq_zero_of_dvd hdvd,
      Nat.mod_eq_zero_of_dvd ((Nat.dvd_div_iff_mul_dvd hdvd).mpr h)⟩

end History

/-! ### What the engine does -/

/-- A pass ran on the block. -/
def Outcome.isPass : Outcome α → Bool
  | .idle => false
  | _ => true

omit [Scalar α] in
theorem Outcome.isPass_of_isCycleEnd {outcome : Outcome α} (h : outcome.isCycleEnd) :
    outcome.isPass := by
  cases outcome with
  | idle => exact h
  | _ => rfl

namespace Balancer

/-- A refresh reads the sums and leaves them as they are. -/
theorem sums_refreshes {b after : Balancer α} {outcome : Outcome α}
    (h : Refreshes b after outcome) : HEq after.sums b.sums := by
  cases h <;> rfl

theorem sums_endCycle {b after : Balancer α} {outcome : Outcome α}
    (h : b.endCycle = .ok (after, outcome)) : HEq after.sums b.sums := by
  rcases endCycle_cases h with ⟨-, rfl, -⟩ | ⟨-, hrefresh⟩
  · rfl
  · exact sums_refreshes hrefresh

/-- The sums of the two trials of a block are added exactly when the outcome is that of a pass. -/
theorem sums_processes {b : Balancer α} {dc : DcTracker α} {out : Block α} {done : Processed α}
    (h : Processes b dc out done) :
    HEq done.balancer.sums (if done.outcome.isPass then b.passSums out else b.sums) := by
  cases h with
  | idle => rfl
  | passed => rfl
  | ended _ _ hend =>
    have hpass := Outcome.isPass_of_isCycleEnd (isCycleEnd_of_endCycle hend)
    exact (sums_endCycle hend).trans (heq_of_eq (if_pos hpass).symm)

/-- The outcome tells when a pass ran. -/
theorem Tracks.isPass_iff {b : Balancer α} {h : History α} {done : Processed α} {block : Block α}
    (ht : b.Tracks h) (hp : b.process block = .ok done) :
    done.outcome.isPass ↔ h.cadence.buffersToSkip ∣ h.seen + 1 := by
  rw [Nat.dvd_iff_mod_eq_zero, ← ht.due_iff]
  cases processes_of_process hp with
  | idle hidle => exact iff_of_false Bool.false_ne_true (Nat.not_le.mpr hidle)
  | passed hdue => exact iff_of_true rfl hdue
  | ended hdue _ hend =>
    exact iff_of_true (Outcome.isPass_of_isCycleEnd (isCycleEnd_of_endCycle hend)) hdue

/-- After any run the cadence is the last one accepted, and both counts follow from the number of
blocks since. The next block meets a pass exactly if it makes that number a multiple of
`buffersToSkip`, which is when the sums change, and it ends a cycle exactly if it makes it a
multiple of `buffersToSkip * correlationIntegration`. -/
theorem cadence_of_run {memory : Allocator} {tables : (size : FftSize) → Tables α size}
    {config : Config α} {b₀ b : Balancer α} {calls : List (Call α)} {answers : List (Answer α)}
    (hcreate : create memory tables config = .ok b₀) (hrun : b₀.run calls = .ok (b, answers)) :
    let S := (Call.cadenceAfter config calls).buffersToSkip
    let C := (Call.cadenceAfter config calls).correlationIntegration
    let t := Call.blocksAfter calls
    b.config.cadence = Call.cadenceAfter config calls ∧
    b.skipped = t % S ∧ b.integrated = t / S % C ∧
    ∀ block done, b.process block = .ok done →
      (done.outcome.isPass ↔ S ∣ t + 1) ∧ (done.outcome.isCycleEnd ↔ S * C ∣ t + 1) ∧
      HEq done.balancer.sums
        (if S ∣ t + 1 then b.passSums (b.dc.process block).2 else b.sums) := by
  intro S C t
  have ht : b.Tracks (History.ofCalls config calls) := (Tracks.create hcreate).run hrun
  have hcadence := History.cadence_ofCalls config calls
  have hseen := History.seen_ofCalls config calls
  have hpasses := History.length_passes_ofCalls config calls
  refine ⟨ht.cadence.trans hcadence, ?_, ?_, fun block done hp => ?_⟩
  · rw [ht.skipped, hseen, hcadence]
  · rw [ht.integrated, hpasses, hseen, hcadence]
  · have hpass := ht.isPass_iff hp
    have hend := (ht.isCycleEnd_iff hp).trans (History.endsCycle_process_iff_dvd hpasses block)
    have hsums := sums_processes (processes_of_process hp)
    rw [hseen, hcadence] at hpass hend
    refine ⟨hpass, hend, ?_⟩
    simpa only [hpass] using hsums

/-- Five blocks after a new cadence, some of them empty, with a retuning and a cadence that is not
accepted in between: the sixth block ends the first cycle of two passes. -/
theorem cadence_after_configure :
    let tables := fun size : FftSize =>
      Tables.exact (Vector.replicate size.bins 1) (Vector.replicate size.bins 1)
    let calls : List (Call ℝ) :=
      [.process #[], .configure ⟨3, 8, 2⟩, .process #[], .process #[⟨3, 4⟩], .setOptimalPoint 0,
        .process #[], .configure ⟨0, 1, 1⟩, .process (Array.replicate 64 ⟨3, 4⟩), .process #[]]
    let config := Config.ones ⟨2, 1, 1⟩
    ∃ b₀ b answers done, create .ample tables config = .ok b₀ ∧
      b₀.run calls = .ok (b, answers) ∧ b.process #[] = .ok done ∧
      b.skipped = 2 ∧ b.integrated = 1 ∧ done.outcome.isPass ∧ done.outcome.isCycleEnd := by
  intro tables calls config
  have hvalid : Cadence.isValid ⟨2, 1, 1⟩ := by decide
  have hfits : Cadence.Fits ⟨2, 1, 1⟩ := by constructor <;> decide
  have hrate : (0 : ℝ) < 1 ∧ (1 : ℝ) ≤ 1 := ⟨zero_lt_one, le_rfl⟩
  obtain ⟨b₀, hcreate, hruns⟩ := exists_run_ones tables hvalid hfits hrate ⟨0, 0⟩
  have hcreate : create .ample tables config = .ok b₀ := hcreate
  have hcallsFit : ∀ c ∈ calls ++ [.process #[]], c.Fits := by
    have hnew : Cadence.Fits ⟨3, 8, 2⟩ := by constructor <;> decide
    have hrejected : Cadence.Fits ⟨0, 1, 1⟩ := by constructor <;> decide
    simp [calls, Call.Fits, hnew, hrejected]
  have hsamples : Call.totalSamples (calls ++ [.process #[]]) < 2 ^ 63 := by
    simp [calls, Call.totalSamples, Call.samples]
  obtain ⟨after, all, hrun⟩ := hruns _ hcallsFit hsamples
  obtain ⟨b, answers, answer, hrun, hcall, -⟩ := run_concat_eq_ok_iff.mp hrun
  obtain ⟨done, hprocess, -⟩ := bind_eq_ok_iff.mp hcall
  obtain ⟨-, hskipped, hintegrated, hnext⟩ := cadence_of_run hcreate hrun
  obtain ⟨hpass, hend, -⟩ := hnext #[] done hprocess
  have hcadence : Call.cadenceAfter config calls = ⟨3, 8, 2⟩ := rfl
  have hblocks : Call.blocksAfter calls = 5 := rfl
  rw [hcadence, hblocks] at hskipped hintegrated hpass hend
  exact ⟨b₀, b, answers, done, hcreate, hrun, hprocess, hskipped, hintegrated,
    hpass.mpr (by decide), hend.mpr (by decide)⟩

end Balancer

end IqBalance
