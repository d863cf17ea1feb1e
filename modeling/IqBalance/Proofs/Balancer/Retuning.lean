import Mathlib
import IqBalance.Proofs.Balancer.Finite

/-!
Retuning and the order of calls, in whatever arithmetic and from whatever
state.

A retuning sets the favoured bin and begins the warm-up again, and only a
refresh reads either. A block that does not complete a cycle has no refresh, so
it commutes with a retuning, faults included
(`Balancer.process_setOptimalPoint`), and so does every other call
(`Balancer.call_retune`). All retunings of a stretch without a refresh can thus
be put off to its end, where the last one absorbs the others
(`Balancer.run_others_of_run`), and brought back from there to any other places
(`Balancer.run_of_run_others`).
-/

namespace IqBalance

variable {α : Type}

/-! ### Calls and answers -/

namespace Call

/-- The frequency that a call favours, if it is a retuning. -/
def point? : Call α → Option α
  | .setOptimalPoint w => some w
  | _ => none

theorem eq_of_point? {c : Call α} {w : α} (h : c.point? = some w) : c = .setOptimalPoint w := by
  cases c with
  | setOptimalPoint => cases h; rfl
  | _ => cases h

/-- The calls that are no retunings, in order. -/
def others (calls : List (Call α)) : List (Call α) := calls.filter (·.point?.isNone)

/-- The frequency that calls favour last, if there is a retuning among them. -/
def lastPoint? (calls : List (Call α)) : Option α := (calls.filterMap point?).getLast?

theorem others_concat_of_some {calls : List (Call α)} {c : Call α} {w : α}
    (h : c.point? = some w) : others (calls ++ [c]) = others calls := by
  simp [others, List.filter_append, h]

theorem others_concat_of_none {calls : List (Call α)} {c : Call α} (h : c.point? = none) :
    others (calls ++ [c]) = others calls ++ [c] := by
  simp [others, List.filter_append, h]

theorem lastPoint?_concat_of_some {calls : List (Call α)} {c : Call α} {w : α}
    (h : c.point? = some w) : lastPoint? (calls ++ [c]) = some w := by
  simp [lastPoint?, List.filterMap_append, h]

theorem lastPoint?_concat_of_none {calls : List (Call α)} {c : Call α} (h : c.point? = none) :
    lastPoint? (calls ++ [c]) = lastPoint? calls := by
  simp [lastPoint?, List.filterMap_append, h]

end Call

namespace Answer

/-- The answer to a retuning. -/
def isRetuned : Answer α → Bool
  | .retuned => true
  | _ => false

/-- The answers to other calls than retunings, in order. -/
def others (answers : List (Answer α)) : List (Answer α) := answers.filter (!·.isRetuned)

theorem others_concat_of_retuned {answers : List (Answer α)} {answer : Answer α}
    (h : answer.isRetuned) : others (answers ++ [answer]) = others answers := by
  simp [others, List.filter_append, h]

theorem others_concat_of_not_retuned {answers : List (Answer α)} {answer : Answer α}
    (h : answer.isRetuned = false) : others (answers ++ [answer]) = others answers ++ [answer] := by
  simp [others, List.filter_append, h]

/-- The answer to a block that completed a cycle. -/
def endsCycle : Answer α → Bool
  | .processed _ outcome => outcome.isCycleEnd
  | _ => false

end Answer

variable [Scalar α]

/-- The block as it is put out, the outcome as it is, and a retuning of the engine. -/
def Processed.retuned (done : Processed α) (w : α) : Processed α :=
  { done with balancer := done.balancer.setOptimalPoint w }

namespace Balancer

/-- A retuning, or none. -/
def retune (b : Balancer α) : Option α → Balancer α
  | some w => b.setOptimalPoint w
  | none => b

variable {b after : Balancer α} {answer : Answer α}

/-! ### A retuning and a call -/

/-- The last retuning absorbs the one before it. -/
theorem setOptimalPoint_retune (b : Balancer α) (point : Option α) (w : α) :
    (b.retune point).setOptimalPoint w = b.setOptimalPoint w := by
  cases point <;> rfl

/-- A pass that leaves its cycle open commutes with a retuning. -/
theorem pass_setOptimalPoint (h : b.integrated + 1 < b.config.cadence.correlationIntegration)
    (w : α) (out : Block α) :
    (b.setOptimalPoint w).pass out = (b.pass out).map (Prod.map (·.setOptimalPoint w) id) := by
  have hsums : (b.setOptimalPoint w).passSums out = b.passSums out := rfl
  have hintegrated : (b.setOptimalPoint w).integrated = b.integrated := rfl
  have hconfig : (b.setOptimalPoint w).config = b.config := rfl
  rw [pass, pass, hsums, hintegrated, hconfig]
  refine bind_eq_map_bind_of_ok fun _ _ => bind_eq_map_bind_of_ok fun integrated hcount => ?_
  obtain ⟨rfl, -⟩ := addCount_eq_ok_iff.mp hcount
  rw [if_pos h, if_pos h]
  rfl

theorem meet_setOptimalPoint {skipped : Nat}
    (h : b.config.cadence.buffersToSkip ≤ skipped →
      b.integrated + 1 < b.config.cadence.correlationIntegration)
    (w : α) (dc : DcTracker α) (out : Block α) :
    (b.setOptimalPoint w).meet dc out skipped =
      (b.meet dc out skipped).map (Prod.map (·.setOptimalPoint w) id) := by
  have hconfig : (b.setOptimalPoint w).config = b.config := rfl
  rw [meet, meet, hconfig]
  split
  · rfl
  · rename_i hdue
    let due : Balancer α := { b with dc, skipped := 0 }
    have hopen : due.integrated + 1 < due.config.cadence.correlationIntegration :=
      h (Nat.le_of_not_lt hdue)
    exact pass_setOptimalPoint hopen w out

/-- A block that does not complete a cycle commutes with a retuning, faults included. -/
theorem process_setOptimalPoint (h : ¬ b.CompletesCycle) (w : α) (block : Block α) :
    (b.setOptimalPoint w).process block = (b.process block).map (·.retuned w) := by
  have hskipped : (b.setOptimalPoint w).skipped = b.skipped := rfl
  have hdc : (b.setOptimalPoint w).dc = b.dc := rfl
  rw [process_eq, process_eq, hskipped, hdc]
  refine bind_eq_map_bind_of_ok fun skipped hcount => ?_
  obtain ⟨rfl, -⟩ := addCount_eq_ok_iff.mp hcount
  have hopen : b.config.cadence.buffersToSkip ≤ b.skipped + 1 →
      b.integrated + 1 < b.config.cadence.correlationIntegration :=
    fun hdue => Nat.lt_of_not_le fun hends => h ⟨hdue, hends⟩
  rw [meet_setOptimalPoint hopen]
  cases b.meet (b.dc.process block).1 (b.dc.process block).2 (b.skipped + 1) <;> rfl

theorem configure_setOptimalPoint (b : Balancer α) (w : α) (cadence : Cadence) :
    (b.setOptimalPoint w).configure cadence =
      (b.configure cadence).map (·.setOptimalPoint w) := by
  rw [configure, configure]
  cases (cadence.validate : Except (ConfigError α) Unit) <;> rfl

/-- A call that is no retuning itself, and completes no cycle, commutes with one. -/
theorem call_retune {c : Call α} (hpoint : c.point? = none)
    (hopen : ∀ block, c = .process block → ¬ b.CompletesCycle) (point : Option α) :
    (b.retune point).call c = (b.call c).map (Prod.map (·.retune point) id) := by
  cases point with
  | none =>
    have hnone : b.retune none = b := rfl
    rw [hnone]
    cases b.call c <;> rfl
  | some w =>
    have hsome : b.retune (some w) = b.setOptimalPoint w := rfl
    rw [hsome]
    cases c with
    | process block =>
      rw [call, call, process_setOptimalPoint (hopen block rfl)]
      cases b.process block <;> rfl
    | setOptimalPoint => cases hpoint
    | configure cadence =>
      rw [call, call, configure_setOptimalPoint]
      cases b.configure cadence <;> rfl

/-- The answer to a block tells whether it completed a cycle. -/
theorem endsCycle_iff_of_call {block : Block α}
    (h : b.call (.process block) = .ok (after, answer)) : answer.endsCycle ↔ b.CompletesCycle := by
  cases answers_of_call h with
  | processed hprocesses => exact isCycleEnd_iff_of_processes hprocesses

theorem isRetuned_of_call {c : Call α} (hpoint : c.point? = none)
    (h : b.call c = .ok (after, answer)) : answer.isRetuned = false := by
  cases answers_of_call h with
  | retuned => cases hpoint
  | _ => rfl

/-! ### Retunings along a run -/

variable {calls : List (Call α)} {answers : List (Answer α)}

theorem not_completesCycle_of_call {c : Call α} (h : b.call c = .ok (after, answer))
    (hopen : answer.endsCycle = false) : ∀ block, c = .process block → ¬ b.CompletesCycle := by
  rintro block rfl hcompletes
  rw [(endsCycle_iff_of_call h).mpr hcompletes] at hopen
  cases hopen

theorem completesCycle_retune {point : Option α} (h : b.CompletesCycle) :
    (b.retune point).CompletesCycle := by
  cases point with
  | none => exact h
  | some w => exact ⟨h.due, h.ends⟩

/-- A retuning before a call that completes no cycle can be put off until after it. -/
theorem call_of_call_retune {c : Call α} {point : Option α} (hpoint : c.point? = none)
    (hopen : answer.endsCycle = false) (hcall : (b.retune point).call c = .ok (after, answer)) :
    ∃ bare, b.call c = .ok (bare, answer) ∧ after = bare.retune point := by
  have hnot : ∀ block, c = .process block → ¬ b.CompletesCycle := fun block hc hcompletes =>
    not_completesCycle_of_call hcall hopen block hc (completesCycle_retune hcompletes)
  rw [call_retune hpoint hnot] at hcall
  obtain ⟨⟨bare, told⟩, hbare, hmap⟩ := map_eq_ok_iff.mp hcall
  cases hmap
  exact ⟨bare, hbare, rfl⟩

/-- A run that completes no cycle is the run of the other calls, and the last retuning at its
end. -/
theorem run_others_of_run (hrun : b.run calls = .ok (after, answers))
    (hopen : ∀ answer ∈ answers, answer.endsCycle = false) :
    ∃ bare, b.run (Call.others calls) = .ok (bare, Answer.others answers) ∧
      after = bare.retune (Call.lastPoint? calls) := by
  induction calls using List.reverseRecOn generalizing after answers with
  | nil =>
    cases hrun
    exact ⟨b, rfl, rfl⟩
  | append_singleton calls c ih =>
    obtain ⟨mid, earlier, answer, hbefore, hcall, rfl⟩ := run_concat_eq_ok_iff.mp hrun
    rw [List.forall_mem_append, List.forall_mem_singleton] at hopen
    obtain ⟨bare, hbare, rfl⟩ := ih hbefore hopen.1
    cases hpoint : c.point? with
    | some w =>
      obtain rfl := Call.eq_of_point? hpoint
      cases hcall
      rw [Call.others_concat_of_some hpoint, Call.lastPoint?_concat_of_some hpoint]
      refine ⟨bare, ?_, setOptimalPoint_retune bare _ w⟩
      rw [hbare, Answer.others_concat_of_retuned rfl]
    | none =>
      obtain ⟨next, hnext, rfl⟩ := call_of_call_retune hpoint hopen.2 hcall
      rw [Call.others_concat_of_none hpoint, Call.lastPoint?_concat_of_none hpoint]
      exact ⟨next, run_concat_eq_ok_iff.mpr ⟨bare, _, answer, hbare, hnext,
        Answer.others_concat_of_not_retuned (isRetuned_of_call hpoint hcall)⟩, rfl⟩

/-- Retunings can be put among calls that complete no cycle, with the last one at the end. -/
theorem run_of_run_others {bare : Balancer α}
    (hrun : b.run (Call.others calls) = .ok (bare, answers))
    (hopen : ∀ answer ∈ answers, answer.endsCycle = false) :
    ∃ answers', b.run calls = .ok (bare.retune (Call.lastPoint? calls), answers') ∧
      Answer.others answers' = answers := by
  induction calls using List.reverseRecOn generalizing bare answers with
  | nil =>
    cases hrun
    exact ⟨[], rfl, rfl⟩
  | append_singleton calls c ih =>
    cases hpoint : c.point? with
    | some w =>
      obtain rfl := Call.eq_of_point? hpoint
      rw [Call.others_concat_of_some hpoint] at hrun
      obtain ⟨answers', hrun', hothers⟩ := ih hrun hopen
      rw [Call.lastPoint?_concat_of_some hpoint]
      refine ⟨answers' ++ [.retuned], run_concat_eq_ok_iff.mpr
        ⟨_, answers', .retuned, hrun', ?_, rfl⟩, ?_⟩
      · exact congrArg (fun b => Except.ok (b, Answer.retuned))
          (setOptimalPoint_retune bare (Call.lastPoint? calls) w)
      · rw [Answer.others_concat_of_retuned rfl, hothers]
    | none =>
      rw [Call.others_concat_of_none hpoint] at hrun
      obtain ⟨mid, earlier, answer, hbefore, hcall, rfl⟩ := run_concat_eq_ok_iff.mp hrun
      rw [List.forall_mem_append, List.forall_mem_singleton] at hopen
      obtain ⟨answers', hrun', hothers⟩ := ih hbefore hopen.1
      rw [Call.lastPoint?_concat_of_none hpoint]
      refine ⟨answers' ++ [answer], run_concat_eq_ok_iff.mpr
        ⟨_, answers', answer, hrun', ?_, rfl⟩, ?_⟩
      · rw [call_retune hpoint (not_completesCycle_of_call hcall hopen.2), hcall]
        rfl
      · rw [Answer.others_concat_of_not_retuned (isRetuned_of_call hpoint hcall), hothers]

/-- A retuning and a block that does not complete a cycle do the same in either order, faults
included: the same block is put out, and the same engine is left. The last of two retunings
absorbs the first. So in a run that completes no cycle only the last retuning counts, wherever it
is called: any calls with the same others in the same order, and the same last retuning, leave the
same engine and give the others the same answers. -/
theorem retuning_commutes (b : Balancer α) :
    (∀ block done, b.process block = .ok done → (done.outcome.isCycleEnd ↔ b.CompletesCycle)) ∧
    (∀ w block, ¬ b.CompletesCycle →
      (b.setOptimalPoint w).process block = (b.process block).map (·.retuned w)) ∧
    (∀ w₁ w₂, (b.setOptimalPoint w₁).setOptimalPoint w₂ = b.setOptimalPoint w₂) ∧
    ∀ calls calls' after answers, Call.others calls' = Call.others calls →
      Call.lastPoint? calls' = Call.lastPoint? calls → b.run calls = .ok (after, answers) →
        (∀ answer ∈ answers, answer.endsCycle = false) →
          ∃ answers', b.run calls' = .ok (after, answers') ∧
            Answer.others answers' = Answer.others answers := by
  refine ⟨fun block done h => isCycleEnd_iff_of_processes (processes_of_process h),
    fun w block h => process_setOptimalPoint h w block, fun w₁ w₂ => rfl, ?_⟩
  intro calls calls' after answers hothers hlast hrun hopen
  obtain ⟨bare, hbare, rfl⟩ := run_others_of_run hrun hopen
  rw [← hothers] at hbare
  rw [← hlast]
  exact run_of_run_others hbare fun answer hmem => hopen answer (List.mem_of_mem_filter hmem)

/-- One block of a cycle of two, with a retuning before it and one to no number after it. -/
theorem retuning_commutes_on_silence :
    let config := { largeStart with cadence := ⟨1, 1, 2⟩ }
    let block : Block Float32 := Array.replicate 64 0
    let calls : List (Call Float32) :=
      [.setOptimalPoint 0.25, .process block, .setOptimalPoint (0 / 0)]
    let calls' : List (Call Float32) := [.process block, .setOptimalPoint (0 / 0)]
    ∃ b₀ b answers answers', create .ample Tables.single config = .ok b₀ ∧ ¬ b₀.CompletesCycle ∧
      (b₀.setOptimalPoint 0.25).process block = (b₀.process block).map (·.retuned 0.25) ∧
      b₀.run calls = .ok (b, answers) ∧ b₀.run calls' = .ok (b, answers') ∧
      Answer.others answers' = Answer.others answers := by
  intro config block calls calls'
  have hcomputed : ∃ b₀ b answers, create .ample Tables.single config = .ok b₀ ∧
      b₀.run calls = .ok (b, answers) ∧ answers.all (!·.endsCycle) :=
    exists_run_of_any (by decide +kernel)
  obtain ⟨b₀, b, answers, hcreate, hrun, hopen⟩ := hcomputed
  obtain ⟨size, lookback, phaseAxis, amplitudeAxis, -, -, -, -, -, hb₀⟩ :=
    create_eq_ok_iff.mp hcreate
  have hnot : ¬ b₀.CompletesCycle := by
    rintro ⟨-, hends⟩
    have hone : 2 ≤ 0 + 1 := by rwa [hb₀] at hends
    exact absurd hone (by decide)
  have hopen : ∀ answer ∈ answers, answer.endsCycle = false := by
    simpa using hopen
  obtain ⟨-, hcommutes, -, hlast⟩ := retuning_commutes b₀
  obtain ⟨answers', hrun', hothers⟩ := hlast calls calls' b answers rfl rfl hrun hopen
  exact ⟨b₀, b, answers, answers', hcreate, hnot, hcommutes 0.25 block hnot, hrun, hrun', hothers⟩

end Balancer

end IqBalance
