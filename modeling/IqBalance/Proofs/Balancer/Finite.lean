import Mathlib
import IqBalance.Proofs.AcceptedConfig
import IqBalance.Proofs.Balancer.Steps
import IqBalance.Proofs.Binary32.Rounding
import IqBalance.Proofs.Lookback

/-!
When the correction stays finite.

The engine lets no utility and no candidate pass that is not finite, but it
publishes a mean of candidates, and the sum that the mean is made from is not
looked at. `Moves` lists what a call can do to the correction and to the
lookback filter; the answers of a run say which (`Answer.events`). In single
precision a published mean is finite exactly if its two sums are
(`Lookback.Remembers.isFinite_push_iff`), and once a target is not finite no
candidate is, so nothing is published any more. Over a run, then, the target is
finite exactly if none of the sums overflowed (`isFinite_target_iff`), and
nothing in the checks of a tuning keeps them from it
(`target_not_finite_of_large_start`).
-/

namespace IqBalance

variable {α : Type} [Scalar α]

/-! ### What a call does to the correction -/

/-- What an answer says to the lookback filter. -/
def Answer.event? : Answer α → Option (Lookback.Event α)
  | .processed _ (.published estimate _ _) => some (.push estimate.raw)
  | .retuned => some .restart
  | _ => none

/-- What answers say to the lookback filter, in order. -/
def Answer.events (answers : List (Answer α)) : List (Lookback.Event α) :=
  answers.filterMap event?

/-- A candidate is some way from the current value. -/
theorem Axis.exists_candidate_eq {axis : Axis α} {rule : NewtonRule α} {current u v : α}
    {estimate : AxisEstimate α} (h : axis.estimate rule current u v = .ok estimate) :
    ∃ move, estimate.candidate = current + move := by
  obtain ⟨bounded, -, h⟩ := bind_eq_ok_iff.mp h
  cases h
  exact ⟨_, rfl⟩

/-- What a call can do to the lookback filter and to the target. -/
inductive Moves (f : Lookback α) (target : Correction α) :
    Lookback α → Correction α → Option (Lookback.Event α) → Prop
  | stays : Moves f target f target none
  | restarts : Moves f target f.restart target (some .restart)
  | publishes {raw : Correction α} {phaseMove amplitudeMove : α} (hfinite : raw.isFinite)
      (hraw : raw = ⟨target.phase + phaseMove, target.amplitude + amplitudeMove⟩) :
      Moves f target (f.push raw).1 (f.push raw).2 (some (.push raw))

/-- The guard on candidates. -/
theorem Moves.isFinite_of_push {f g : Lookback α} {target moved raw : Correction α}
    {event : Option (Lookback.Event α)} (h : Moves f target g moved event)
    (hevent : event = some (.push raw)) : raw.isFinite := by
  cases h with
  | stays => cases hevent
  | restarts => cases hevent
  | publishes hfinite _ =>
    cases hevent
    exact hfinite

/-- The filter goes on remembering what it is told. -/
theorem Moves.recalls {f g : Lookback α} {target moved : Correction α} {plan : LookbackPlan}
    {past : List (Correction α)} {event : Option (Lookback.Event α)}
    (hmoves : Moves f target g moved event) (h : f.Remembers plan past)
    (hvalid : plan.hasValidDepth) :
    g.Remembers plan (event.elim past (·.extend past)) := by
  cases hmoves with
  | stays => exact h
  | restarts => exact h.restart
  | publishes => exact h.push hvalid _

namespace Balancer

variable {b after : Balancer α} {answer : Answer α}

theorem moves_of_refreshes {outcome : Outcome α} (h : Refreshes b after outcome)
    (block : Block α) :
    Moves b.lookback b.ramp.target after.lookback after.ramp.target
      (Answer.processed block outcome).event? := by
  cases h with
  | utilityNotFinite => exact .stays
  | candidateNotFinite => exact .stays
  | published _ _ _ hphase hamplitude hraw hfinite _ _ hestimate =>
    obtain ⟨phaseMove, hphase⟩ := Axis.exists_candidate_eq hphase
    obtain ⟨amplitudeMove, hamplitude⟩ := Axis.exists_candidate_eq hamplitude
    rw [hphase, hamplitude] at hraw
    rw [hestimate]
    exact .publishes hfinite hraw

theorem moves_of_processes {dc : DcTracker α} {out : Block α} {done : Processed α}
    (h : Processes b dc out done) :
    Moves b.lookback b.ramp.target done.balancer.lookback done.balancer.ramp.target
      (Answer.processed done.block done.outcome).event? := by
  cases h with
  | idle => exact .stays
  | passed => exact .stays
  | ended _ _ hend =>
    rcases endCycle_cases hend with ⟨-, rfl, rfl⟩ | ⟨-, hrefresh⟩
    · exact .stays
    · exact moves_of_refreshes hrefresh _

/-- What a call does, as its answer tells. -/
theorem moves_of_call {c : Call α} (h : b.call c = .ok (after, answer)) :
    Moves b.lookback b.ramp.target after.lookback after.ramp.target answer.event? := by
  cases answers_of_call h with
  | processed hprocesses => exact moves_of_processes hprocesses
  | retuned => exact .restarts
  | configured _ => exact .stays
  | rejected _ => exact .stays

/-- Between calls the target has been applied in full. -/
theorem applied_eq_target_of_call {c : Call α} (hb : b.ramp.applied = b.ramp.target)
    (h : b.call c = .ok (after, answer)) : after.ramp.applied = after.ramp.target := by
  cases answers_of_call h with
  | processed hprocesses => cases hprocesses <;> rfl
  | retuned => exact hb
  | configured _ => exact hb
  | rejected _ => exact hb

theorem applied_eq_target_of_run {calls : List (Call α)} {answers : List (Answer α)}
    (hb : b.ramp.applied = b.ramp.target) (hrun : b.run calls = .ok (after, answers)) :
    after.ramp.applied = after.ramp.target := by
  induction calls generalizing b answers with
  | nil =>
    cases hrun
    exact hb
  | cons c rest ih =>
    obtain ⟨next, answer, later, hcall, hrest, rfl⟩ := run_cons_eq_ok_iff.mp hrun
    exact ih (applied_eq_target_of_call hb hcall) hrest

/-- Only finite candidates are published. -/
theorem isFinite_of_mem_events {b after : Balancer α} {calls : List (Call α)}
    {answers : List (Answer α)} (hrun : b.run calls = .ok (after, answers)) {raw : Correction α}
    (hraw : .push raw ∈ Answer.events answers) : raw.isFinite := by
  induction calls generalizing b answers with
  | nil =>
    cases hrun
    cases hraw
  | cons c rest ih =>
    obtain ⟨next, answer, later, hcall, hrest, rfl⟩ := run_cons_eq_ok_iff.mp hrun
    obtain ⟨told, hmem, htold⟩ := List.mem_filterMap.mp hraw
    rcases List.mem_cons.mp hmem with rfl | hmem
    · exact (moves_of_call hcall).isFinite_of_push htold
    · exact ih hrest (List.mem_filterMap.mpr ⟨told, hmem, htold⟩)

end Balancer

/-! ### The sums of means -/

/-- The two sums that a push makes its mean from, after the estimates `past`. -/
def LookbackPlan.sums (plan : LookbackPlan) (past : List (Correction α)) (raw : Correction α) :
    Correction α :=
  let latest := past.drop (past.length - plan.depthAt (past.length + 1))
  { phase := Lookback.sumOver latest (·.phase) + raw.phase
    amplitude := Lookback.sumOver latest (·.amplitude) + raw.amplitude }

/-- None of the sums overflows that the pushes among `events` make after the estimates `past`. -/
def LookbackPlan.SumsFinite (plan : LookbackPlan) (past : List (Correction α))
    (events : List (Lookback.Event α)) : Prop :=
  ∀ before raw rest, events = before ++ .push raw :: rest →
    (plan.sums (before.foldl Lookback.Event.extend past) raw).isFinite

namespace LookbackPlan

variable {plan : LookbackPlan} {past : List (Correction α)} {events : List (Lookback.Event α)}

theorem sumsFinite_nil : plan.SumsFinite past [] := by
  rintro before raw rest h
  cases before <;> cases h

theorem sumsFinite_cons {event : Lookback.Event α} :
    plan.SumsFinite past (event :: events) ↔
      (∀ raw, event = .push raw → (plan.sums past raw).isFinite) ∧
        plan.SumsFinite (event.extend past) events := by
  constructor
  · intro h
    refine ⟨?_, ?_⟩
    · rintro raw rfl
      exact h [] raw events rfl
    · intro before raw rest hsplit
      exact h (event :: before) raw rest (congrArg (event :: ·) hsplit)
  · rintro ⟨hhead, htail⟩ before raw rest hsplit
    cases before with
    | nil =>
      obtain ⟨rfl, -⟩ := List.cons.inj hsplit
      exact hhead raw rfl
    | cons first before =>
      obtain ⟨rfl, hrest⟩ := List.cons.inj hsplit
      exact htail before raw rest hrest

end LookbackPlan

/-! ### Single precision -/

section SinglePrecision

open Binary32

theorem Correction.isFinite_iff {c : Correction Float32} :
    c.isFinite = true ↔ c.phase.isFinite = true ∧ c.amplitude.isFinite = true :=
  Bool.and_eq_true_iff

/-- A finite candidate comes from a finite target. -/
theorem Correction.isFinite_of_add {target : Correction Float32} {phaseMove amplitudeMove : Float32}
    (h : (⟨target.phase + phaseMove, target.amplitude + amplitudeMove⟩ :
      Correction Float32).isFinite) : target.isFinite := by
  rw [isFinite_iff] at h ⊢
  exact ⟨(Binary32.isFinite_of_add h.1).1, (Binary32.isFinite_of_add h.2).1⟩

/-- What a push publishes is finite exactly if its two sums are. -/
theorem Lookback.Remembers.isFinite_push_iff {f : Lookback Float32} {plan : LookbackPlan}
    {past : List (Correction Float32)} (h : f.Remembers plan past) (hvalid : plan.hasValidDepth)
    {raw : Correction Float32} (hraw : raw.isFinite) :
    (f.push raw).2.isFinite ↔ (plan.sums past raw).isFinite := by
  by_cases hwarm : f.warmup < f.warmupCycles
  · have hgoesOn := h.warming_iff.mp hwarm
    have hsums : plan.sums past raw = ⟨0 + raw.phase, 0 + raw.amplitude⟩ := by
      rw [LookbackPlan.sums, LookbackPlan.depthAt, if_pos hgoesOn, Nat.sub_zero, List.drop_length]
      rfl
    rw [Lookback.push, if_pos hwarm, hsums]
    refine iff_of_true hraw (Correction.isFinite_iff.mpr ?_)
    rw [Correction.isFinite_iff] at hraw
    exact ⟨isFinite_zero_add hraw.1, isFinite_zero_add hraw.2⟩
  · rw [h.push_mean hvalid hwarm raw, Correction.isFinite_iff, Correction.isFinite_iff]
    exact and_congr (isFinite_mul_one_div_iff (Nat.succ_pos _) _)
      (isFinite_mul_one_div_iff (Nat.succ_pos _) _)

/-- A move keeps what the filter remembers, and the target finite unless a sum overflows. What is
published comes from a finite target. -/
theorem Moves.remembers {f g : Lookback Float32} {target moved : Correction Float32}
    {plan : LookbackPlan} {past : List (Correction Float32)}
    {event : Option (Lookback.Event Float32)} (hmoves : Moves f target g moved event)
    (h : f.Remembers plan past) (hvalid : plan.hasValidDepth) :
    g.Remembers plan (event.elim past (·.extend past)) ∧
      (moved.isFinite ↔
        target.isFinite ∧ ∀ raw, event = some (.push raw) → (plan.sums past raw).isFinite) := by
  refine ⟨hmoves.recalls h hvalid, ?_⟩
  cases hmoves with
  | stays => simp
  | restarts => simp
  | @publishes raw _ _ hfinite hraw =>
    have htarget : target.isFinite := Correction.isFinite_of_add (hraw ▸ hfinite)
    rw [h.isFinite_push_iff hvalid hfinite]
    simp [htarget]

namespace Balancer

/-- A run keeps the target finite exactly if it was, and no sum of the run overflows. -/
theorem isFinite_target_run_iff {b after : Balancer Float32} {plan : LookbackPlan}
    {past : List (Correction Float32)} {calls : List (Call Float32)}
    {answers : List (Answer Float32)} (h : b.lookback.Remembers plan past)
    (hvalid : plan.hasValidDepth) (hrun : b.run calls = .ok (after, answers)) :
    after.ramp.target.isFinite ↔
      b.ramp.target.isFinite ∧ plan.SumsFinite past (Answer.events answers) := by
  induction calls generalizing b past answers with
  | nil =>
    cases hrun
    exact (and_iff_left LookbackPlan.sumsFinite_nil).symm
  | cons c rest ih =>
    obtain ⟨next, answer, later, hcall, hrest, rfl⟩ := run_cons_eq_ok_iff.mp hrun
    obtain ⟨hnext, htarget⟩ := (moves_of_call hcall).remembers h hvalid
    rw [ih hnext hrest, htarget, and_assoc, Answer.events, Answer.events]
    cases hevent : answer.event? with
    | none =>
      rw [List.filterMap_cons_none hevent]
      simp
    | some event =>
      rw [List.filterMap_cons_some hevent, LookbackPlan.sumsFinite_cons]
      simp

/-- After every call the correction has been applied in full, only finite candidates have been
published, and the correction is finite exactly if none of the sums of their means overflowed. -/
theorem isFinite_target_iff {memory : Allocator} {tables : (size : FftSize) → Tables Float32 size}
    {config : Config Float32} {b₀ b : Balancer Float32} {calls : List (Call Float32)}
    {answers : List (Answer Float32)} (hcreate : create memory tables config = .ok b₀)
    (hrun : b₀.run calls = .ok (b, answers)) :
    b.ramp.applied = b.ramp.target ∧
      (∀ raw, .push raw ∈ Answer.events answers → raw.isFinite) ∧
      (b.ramp.target.isFinite ↔ config.lookback.SumsFinite [] (Answer.events answers)) := by
  obtain ⟨size, lookback, phaseAxis, amplitudeAxis, hsize, -, hlookback, -, -, rfl⟩ :=
    create_eq_ok_iff.mp hcreate
  have haccepted := Config.validate_eq_ok_iff.mp hsize
  have hremembers := Lookback.Remembers.create haccepted.depth hlookback
  refine ⟨applied_eq_target_of_run rfl hrun, fun raw => isFinite_of_mem_events hrun, ?_⟩
  rw [isFinite_target_run_iff hremembers haccepted.depth hrun]
  exact and_iff_right haccepted.initial

/-! ### A start that is too large -/

/-- An accepted tuning that starts at a phase near the largest number there is, estimates on every
block, and averages from the second estimate on. It leaves every bin out, so the utility is zero
whatever the samples are, and the candidates are the start again. -/
def largeStart : Config Float32 :=
  { Config.standard with
    fftBins := 64
    cadence := ⟨1, 1, 1⟩
    initial := ⟨3e38, 0⟩
    lookback := ⟨2, 1, 1⟩
    centerBinsToSkip := 31 }

/-- A block of one window without a signal. -/
def silence : Call Float32 := .process (Array.replicate 64 0)

theorem exists_run_largeStart :
    ∃ b₀ b answers, create .ample Tables.single largeStart = .ok b₀ ∧
      b₀.run [silence, silence] = .ok (b, answers) ∧ b.ramp.target.isFinite = false := by
  have hcomputed : ∃ b₀ b answers, create .ample Tables.single largeStart = .ok b₀ ∧
      b₀.run [silence, silence] = .ok (b, answers) ∧ !b.ramp.target.isFinite :=
    exists_run_of_any (by decide +kernel)
  simpa using hcomputed

/-- Two estimates of the largest kind overflow the sum of their mean. -/
theorem sums_overflow_of_large_start :
    ∃ b₀ b answers, create .ample Tables.single largeStart = .ok b₀ ∧
      b₀.run [silence, silence] = .ok (b, answers) ∧
      ¬ largeStart.lookback.SumsFinite [] (Answer.events answers) := by
  obtain ⟨b₀, b, answers, hcreate, hrun, hfinite⟩ := exists_run_largeStart
  obtain ⟨-, -, htarget⟩ := isFinite_target_iff hcreate hrun
  refine ⟨b₀, b, answers, hcreate, hrun, fun hsums => ?_⟩
  exact Bool.false_ne_true (hfinite.symm.trans (htarget.mpr hsums))

/-- An accepted tuning does not keep the correction finite. -/
theorem target_not_finite_of_large_start :
    ¬ ∀ (config : Config Float32) (size : FftSize) (b₀ b : Balancer Float32)
      (calls : List (Call Float32)) (answers : List (Answer Float32)),
      config.validate = .ok size → create .ample Tables.single config = .ok b₀ →
        b₀.run calls = .ok (b, answers) → b.ramp.target.isFinite ∧ b.ramp.applied.isFinite := by
  intro hfiniteAlways
  obtain ⟨b₀, b, answers, hcreate, hrun, hfinite⟩ := exists_run_largeStart
  obtain ⟨size, -, -, -, hvalid, -⟩ := create_eq_ok_iff.mp hcreate
  have htarget := (hfiniteAlways largeStart size b₀ b _ answers hvalid hcreate hrun).1
  exact Bool.false_ne_true (hfinite.symm.trans htarget)

end Balancer

end SinglePrecision

end IqBalance
