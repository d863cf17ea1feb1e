import Mathlib
import IqBalance.Balancer.State
import IqBalance.Proofs.Balancer.Estimates

/-!
The snapshot of an engine and the estimate on record, in whatever arithmetic.

Four parts of the engine tell of a refresh: the ramp, the lookback filter, the
record and the tuning that the engine was created for. The record holds the
last estimate published (`Balancer.lastEstimate_of_run`), the target is what
that estimate published (`Balancer.target_of_run`), and since then the lookback
filter has at most been restarted (`Balancer.lookback_of_unpublished`). So what
those who watch an engine are shown fits together after every call
(`Balancer.snapshot_of_run`).
-/

namespace IqBalance

variable {α : Type}

/-! ### The last estimate of a run -/

/-- The answer with the last estimate, with the answers before it and the ones after it. -/
theorem Answer.exists_split_of_getLast? {answers : List (Answer α)} {e : Estimate α}
    (h : (estimates answers).getLast? = some e) :
    ∃ earlier answer later, answers = earlier ++ answer :: later ∧ answer.estimate? = some e ∧
      estimates later = [] := by
  induction answers using List.reverseRecOn with
  | nil => cases h
  | append_singleton answers last ih =>
    rw [estimates_concat] at h
    cases hlast : last.estimate? with
    | some newest =>
      rw [hlast, Option.toList_some, List.getLast?_concat] at h
      exact ⟨answers, last, [], rfl, hlast.trans h, rfl⟩
    | none =>
      rw [hlast, Option.toList_none, List.append_nil] at h
      obtain ⟨earlier, answer, later, rfl, htold, hquiet⟩ := ih h
      refine ⟨earlier, answer, later ++ [last], by simp, htold, ?_⟩
      rw [estimates_concat, hquiet, hlast]
      rfl

theorem Answer.estimates_cons_eq_nil {answer : Answer α} {later : List (Answer α)} :
    estimates (answer :: later) = [] ↔ answer.estimate? = none ∧ estimates later = [] := by
  rw [estimates, List.filterMap_eq_nil_iff, List.forall_mem_cons, ← List.filterMap_eq_nil_iff,
    estimates]

/-! ### The depth of a mean -/

namespace Lookback

variable {f : Lookback α} {plan : LookbackPlan} {past : List (Correction α)}

theorem Remembers.warmup_le (h : f.Remembers plan past) : f.warmup ≤ plan.warmupCycles :=
  h.warmup.le.trans (Nat.min_le_right _ _)

theorem Remembers.depth_le (h : f.Remembers plan past) (hvalid : plan.hasValidDepth) :
    f.depth ≤ plan.capacity - 1 := by
  have hlt := LookbackPlan.depthAt_lt hvalid past.length
  have hdepth := h.depth
  omega

/-- During the warm-up nothing is averaged. -/
theorem Remembers.depth_of_warming (h : f.Remembers plan past)
    (hwarm : f.warmup < plan.warmupCycles) : f.depth = 0 := by
  have hwarmup := h.warmup
  rw [h.depth, LookbackPlan.depthAt, if_pos (by omega)]

/-- Only during the warm-up nothing is averaged, and then an estimate passes through. -/
theorem Remembers.push_of_depth_zero [Scalar α] (h : f.Remembers plan past)
    (hvalid : plan.hasValidDepth) {raw : Correction α} (hdepth : (f.push raw).1.depth = 0) :
    (f.push raw).2 = raw := by
  by_cases hwarm : f.warmup < f.warmupCycles
  · rw [Lookback.push, if_pos hwarm]
  · obtain ⟨hpos, hcycles, hinside⟩ := LookbackPlan.hasValidDepth_iff.mp hvalid
    have hover := mt h.warming_iff.mpr hwarm
    have hnext := h.nextDepth hvalid hwarm
    rw [Lookback.push, if_neg hwarm] at hdepth
    have hzero : plan.depthAt (past.length + 1) = 0 := hnext.symm.trans hdepth
    rw [LookbackPlan.depthAt, if_neg hover] at hzero
    omega

end Lookback

namespace Balancer

variable [Scalar α] {b after : Balancer α} {answer : Answer α}

/-! ### A call -/

/-- What a call does to the record and to the lookback filter: it publishes an estimate, or it
leaves the record as it is and at most restarts the filter. -/
theorem record_of_call {c : Call α} (h : b.call c = .ok (after, answer)) :
    (∃ e block, answer.estimate? = some e ∧ c = .process block ∧ after.lastEstimate = some e ∧
      after.ramp.target = e.published ∧ after.lookback = (b.lookback.push e.raw).1 ∧
      e.published = (b.lookback.push e.raw).2 ∧ e.lookbackDepth = after.lookback.depth) ∨
    (answer.estimate? = none ∧ after.lastEstimate = b.lastEstimate ∧
      (after.lookback = b.lookback ∨
        ∃ w, c = .setOptimalPoint w ∧ after.lookback = b.lookback.restart)) := by
  cases answers_of_call h with
  | @processed block done hprocesses =>
    rcases publishes_or_withholds hprocesses with
      ⟨hout, -⟩ | ⟨hout, u, v, phase, amplitude, -, hcommits⟩
    · have hkeeps := keeps_of_processes hprocesses hout
      refine .inr ⟨?_, hkeeps.lastEstimate, .inl hkeeps.lookback⟩
      cases hcase : done.outcome with
      | published => rw [hcase] at hout; cases hout
      | _ => rfl
    · have hrecord := hcommits.lastEstimate
      refine .inl ⟨_, block, ?_, rfl, hrecord, rfl, hcommits.lookback, hcommits.target, rfl⟩
      rw [estimate?_of_processes hprocesses hout, hrecord]
  | retuned => exact .inr ⟨rfl, rfl, .inr ⟨_, rfl, rfl⟩⟩
  | configured _ => exact .inr ⟨rfl, rfl, .inl rfl⟩
  | rejected _ => exact .inr ⟨rfl, rfl, .inl rfl⟩

/-! ### A run -/

variable {b₀ : Balancer α} {calls : List (Call α)} {answers : List (Answer α)}

/-- The record holds the last estimate published. -/
theorem lastEstimate_of_run (hrun : b₀.run calls = .ok (b, answers)) :
    b.lastEstimate = (Answer.estimates answers).getLast?.or b₀.lastEstimate := by
  induction calls using List.reverseRecOn generalizing b answers with
  | nil =>
    cases hrun
    rfl
  | append_singleton calls c ih =>
    obtain ⟨mid, earlier, answer, hbefore, hcall, rfl⟩ := run_concat_eq_ok_iff.mp hrun
    rw [Answer.estimates_concat]
    rcases record_of_call hcall with ⟨e, -, htold, -, hrecord, -⟩ | ⟨hquiet, hrecord, -⟩
    · rw [htold, hrecord]
      simp
    · rw [hquiet, hrecord, ih hbefore]
      simp

/-- Without an estimate the lookback filter is at most restarted, by a retuning. -/
theorem lookback_of_unpublished (hrun : b₀.run calls = .ok (b, answers))
    (hquiet : Answer.estimates answers = []) :
    b.lookback = b₀.lookback ∨
      (∃ w, .setOptimalPoint w ∈ calls) ∧ b.lookback = b₀.lookback.restart := by
  induction calls generalizing b₀ answers with
  | nil =>
    cases hrun
    exact .inl rfl
  | cons c rest ih =>
    obtain ⟨next, answer, later, hcall, hrest, rfl⟩ := run_cons_eq_ok_iff.mp hrun
    obtain ⟨hfirst, hlater⟩ := Answer.estimates_cons_eq_nil.mp hquiet
    have hnext := ih hrest hlater
    rcases record_of_call hcall with ⟨e, -, htold, -⟩ | ⟨-, -, hsame | ⟨w, rfl, hrestart⟩⟩
    · cases hfirst.symm.trans htold
    · rw [hsame] at hnext
      refine hnext.imp_right ?_
      rintro ⟨⟨w, hmem⟩, hrestart⟩
      exact ⟨⟨w, List.mem_cons_of_mem _ hmem⟩, hrestart⟩
    · -- A second restart changes nothing more.
      refine .inr ⟨⟨w, List.mem_cons_self⟩, ?_⟩
      rw [hrestart] at hnext
      rcases hnext with hnext | ⟨-, hnext⟩
      · exact hnext
      · exact hnext

/-- The run published `e`, and nothing in the calls `since`. -/
def PublishesLast (b₀ : Balancer α) (calls : List (Call α)) (b : Balancer α) (e : Estimate α)
    (since : List (Call α)) : Prop :=
  ∃ before block mid next earlier answer later,
    calls = before ++ .process block :: since ∧ b₀.run before = .ok (mid, earlier) ∧
    mid.call (.process block) = .ok (next, answer) ∧ answer.estimate? = some e ∧
    next.run since = .ok (b, later) ∧ Answer.estimates later = []

/-- After every run the snapshot fits the record and the tuning. The target has been applied in
full. Without an estimate on record none was published, and the target is the start. An estimate
on record was published by one of the calls and is the last that was; the target is what it
published, which is its candidates where it was averaged with none; and the depth is its depth,
unless the engine was retuned since, which left neither depth nor warm-up. The warm-up and the
depth keep to the plan, and nothing is averaged before the warm-up is over. -/
theorem snapshot_of_run {memory : Allocator} {tables : (size : FftSize) → Tables α size}
    {config : Config α} (hcreate : create memory tables config = .ok b₀)
    (hrun : b₀.run calls = .ok (b, answers)) :
    b.state.applied = b.state.target ∧
    (b.lastEstimate = none →
      Answer.estimates answers = [] ∧ b.state.target = config.initial) ∧
    (∀ e, b.lastEstimate = some e →
      b.state.target = e.published ∧ (e.lookbackDepth = 0 → e.published = e.raw) ∧
      ∃ since, b₀.PublishesLast calls b e since ∧
        (b.state.lookbackDepth = e.lookbackDepth ∨
          (∃ w, .setOptimalPoint w ∈ since) ∧ b.state.lookbackDepth = 0 ∧ b.state.warmup = 0)) ∧
    b.state.warmup ≤ config.lookback.warmupCycles ∧
    b.state.lookbackDepth ≤ config.lookback.capacity - 1 ∧
    (b.state.warmup < config.lookback.warmupCycles → b.state.lookbackDepth = 0) := by
  have hvalid := (accepted_of_create hcreate).depth
  have hramp := ramp_of_create hcreate
  have hremembers := remembers_of_run hcreate hrun
  have hfresh : b₀.lastEstimate = none := by
    obtain ⟨size, lookback, phaseAxis, amplitudeAxis, -, -, -, -, -, rfl⟩ :=
      create_eq_ok_iff.mp hcreate
    rfl
  have hrecord := lastEstimate_of_run hrun
  have htarget := target_of_run hrun
  rw [hfresh, Option.or_none] at hrecord
  refine ⟨?_, ?_, ?_, hremembers.warmup_le, hremembers.depth_le hvalid,
    hremembers.depth_of_warming⟩
  · exact applied_eq_target_of_run (by rw [hramp]; rfl) hrun
  · intro hnone
    have hquiet := List.getLast?_eq_none_iff.mp (hrecord.symm.trans hnone)
    rw [hquiet, hramp] at htarget
    exact ⟨hquiet, htarget⟩
  · intro e he
    have hlast := hrecord.symm.trans he
    rw [hlast] at htarget
    obtain ⟨earlier, answer, later, rfl, htold, hquiet⟩ := Answer.exists_split_of_getLast? hlast
    obtain ⟨before, c, since, mid, next, rfl, hbefore, hcall, hsince⟩ :=
      exists_call_of_answers hrun
    rcases record_of_call hcall with
      ⟨_, block, htold', rfl, -, -, hpush, hpublished, hdepth⟩ | ⟨hnone, -⟩
    · cases htold.symm.trans htold'
      have hlastly : b₀.PublishesLast (before ++ .process block :: since) b e since :=
        ⟨before, block, mid, next, earlier, answer, later, rfl, hbefore, hcall, htold, hsince,
          hquiet⟩
      refine ⟨htarget, fun hzero => ?_, since, hlastly, ?_⟩
      · rw [hdepth, hpush] at hzero
        exact hpublished.trans
          ((remembers_of_run hcreate hbefore).push_of_depth_zero hvalid hzero)
      · rcases lookback_of_unpublished hsince hquiet with hsame | ⟨hretuned, hrestart⟩
        · exact .inl ((congrArg Lookback.depth hsame).trans hdepth.symm)
        · exact .inr ⟨hretuned, congrArg Lookback.depth hrestart, congrArg Lookback.warmup hrestart⟩
    · cases htold.symm.trans hnone

/-- Two blocks that publish, the second one averaged with the first, and a retuning after them. -/
theorem snapshot_after_retuning :
    let config := { largeStart with initial := ⟨0.5, 0.25⟩ }
    let calls := [silence, silence, .setOptimalPoint 0.25]
    ∃ b₀ b answers e, create .ample Tables.single config = .ok b₀ ∧
      b₀.run calls = .ok (b, answers) ∧ b.lastEstimate = some e ∧ e.lookbackDepth = 1 ∧
      b.state.target = e.published ∧ b.state.applied = b.state.target ∧
      b.state.lookbackDepth = 0 ∧ b.state.warmup = 0 := by
  intro config calls
  have hcomputed : ∃ b₀ b answers, create .ample Tables.single config = .ok b₀ ∧
      b₀.run calls = .ok (b, answers) ∧
      b.lastEstimate.any fun e => e.lookbackDepth = 1 && b.state.lookbackDepth = 0 :=
    exists_run_of_any (by decide +kernel)
  obtain ⟨b₀, b, answers, hcreate, hrun, hany⟩ := hcomputed
  obtain ⟨e, he, hdepths⟩ := (Option.any_eq_true _ _).mp hany
  simp only [Bool.and_eq_true, decide_eq_true_eq] at hdepths
  obtain ⟨hone, hzero⟩ := hdepths
  obtain ⟨happlied, -, hrecord, -⟩ := snapshot_of_run hcreate hrun
  obtain ⟨htarget, -, _, -, hdepth⟩ := hrecord e he
  rcases hdepth with hsame | ⟨-, -, hwarmup⟩
  · rw [hone, hzero] at hsame
    cases hsame
  · exact ⟨b₀, b, answers, e, hcreate, hrun, he, hone, htarget, happlied, hzero, hwarmup⟩

end Balancer

end IqBalance
