import IqBalance.Balancer.Run

/-!
What one call does to an engine, case by case.

`Processes` and `Refreshes` list the ways in which a block and a refresh can go
when nothing faults, each with the checks that led there and the engine that
comes out; `configure_cases` does so for a new cadence, and `Answers` for any
call. What holds along a run is proved over these cases, call by call
(`run_cons_eq_ok_iff`), and the chain of checks itself is opened only here
(`processes_of_process`, `refreshes_of_refresh`, `answers_of_call`).
`process_of_ends` is the way back for a pass that ends its cycle.
-/

namespace IqBalance

variable {α : Type} [Scalar α]

/-- The outcomes of a pass that ends its cycle. -/
def Outcome.isCycleEnd : Outcome α → Bool
  | .idle => false
  | .passed => false
  | _ => true

namespace Balancer

/-! ### Creation -/

/-- What an accepted tuning makes, in a memory that grants its buffers. -/
theorem create_eq_ok_iff {memory : Allocator} {tables : (size : FftSize) → Tables α size}
    {config : Config α} {b : Balancer α} :
    create memory tables config = .ok b ↔
      ∃ size lookback phaseAxis amplitudeAxis,
        config.validate = .ok size ∧
        (∀ buffer ∈ Accumulators.buffers size.bins, memory.Grants buffer) ∧
        Lookback.create memory config.lookback = .ok lookback ∧
        Axis.start config.phaseStep = .ok phaseAxis ∧
        Axis.start config.amplitudeStep = .ok amplitudeAxis ∧
        b = {
          config, size, lookback, phaseAxis, amplitudeAxis
          tables := tables size
          dc := .start config.dcTimeConst
          ramp := .atRest config.initial
          sums := .empty size.bins
          optimalBin := config.fftBins / 2
          integrated := 0
          skipped := 0
          lastEstimate := none } := by
  constructor
  · intro h
    obtain ⟨size, hsize, h⟩ := bind_eq_ok_iff.mp h
    obtain ⟨_, hmemory, h⟩ := bind_eq_ok_iff.mp h
    obtain ⟨lookback, hlookback, h⟩ := bind_eq_ok_iff.mp h
    obtain ⟨phaseAxis, hphase, h⟩ := bind_eq_ok_iff.mp h
    obtain ⟨amplitudeAxis, hamplitude, h⟩ := bind_eq_ok_iff.mp h
    cases h
    exact ⟨size, lookback, phaseAxis, amplitudeAxis, mapError_eq_ok_iff.mp hsize,
      Allocator.reserveAll_eq_ok_iff.mp (mapError_eq_ok_iff.mp hmemory), hlookback,
      mapError_eq_ok_iff.mp hphase, mapError_eq_ok_iff.mp hamplitude, rfl⟩
  · rintro ⟨size, lookback, phaseAxis, amplitudeAxis, hsize, hmemory, hlookback, hphase,
      hamplitude, rfl⟩
    have hreserved := Allocator.reserveAll_eq_ok_iff.mpr hmemory
    exact bind_eq_ok_iff.mpr ⟨size, mapError_eq_ok_iff.mpr hsize,
      bind_eq_ok_iff.mpr ⟨(), mapError_eq_ok_iff.mpr hreserved,
        bind_eq_ok_iff.mpr ⟨lookback, hlookback,
          bind_eq_ok_iff.mpr ⟨phaseAxis, mapError_eq_ok_iff.mpr hphase,
            bind_eq_ok_iff.mpr ⟨amplitudeAxis, mapError_eq_ok_iff.mpr hamplitude, rfl⟩⟩⟩⟩⟩

/-! ### The end of a cycle -/

/-- A cycle that has ended: nothing without a window, a refresh otherwise. -/
def endCycle (b : Balancer α) : Except Fault (Balancer α × Outcome α) :=
  if b.sums.windows = 0 then .ok (b, .noWindow) else b.refresh

/-- How a refresh can go when nothing faults. -/
inductive Refreshes (b : Balancer α) : Balancer α → Outcome α → Prop
  | utilityNotFinite {u v : Sample α} (hu : b.utility .baseline = .ok u)
      (hv : b.utility .perturbed = .ok v) (h : ¬ (u.isFinite && v.isFinite)) :
      Refreshes b b (.utilityNotFinite u v)
  | candidateNotFinite {u v : Sample α} {phase amplitude : AxisEstimate α}
      (hu : b.utility .baseline = .ok u) (hv : b.utility .perturbed = .ok v)
      (hfinite : u.isFinite && v.isFinite)
      (hphase : b.phaseAxis.estimate b.config.newton b.ramp.target.phase u.im v.im = .ok phase)
      (hamplitude : b.amplitudeAxis.estimate b.config.newton b.ramp.target.amplitude u.re v.re =
        .ok amplitude)
      (h : ¬ (⟨phase.candidate, amplitude.candidate⟩ : Correction α).isFinite) :
      Refreshes b b .candidateNotFinite
  | published {u v : Sample α} {phase amplitude : AxisEstimate α} {raw : Correction α}
      {phaseAxis amplitudeAxis : Axis α} {estimate : Estimate α}
      (hu : b.utility .baseline = .ok u) (hv : b.utility .perturbed = .ok v)
      (hfinite : u.isFinite && v.isFinite)
      (hphase : b.phaseAxis.estimate b.config.newton b.ramp.target.phase u.im v.im = .ok phase)
      (hamplitude : b.amplitudeAxis.estimate b.config.newton b.ramp.target.amplitude u.re v.re =
        .ok amplitude)
      (hraw : raw = ⟨phase.candidate, amplitude.candidate⟩) (hrawFinite : raw.isFinite)
      (hphaseAxis : b.phaseAxis.adapt b.config.newton phase.mu = .ok phaseAxis)
      (hamplitudeAxis : b.amplitudeAxis.adapt b.config.newton amplitude.mu = .ok amplitudeAxis)
      (hestimate : estimate = ⟨phase.mu, amplitude.mu, raw, (b.lookback.push raw).2,
        (b.lookback.push raw).1.depth⟩) :
      Refreshes b
        { b with
          phaseAxis, amplitudeAxis
          lookback := (b.lookback.push raw).1
          ramp := b.ramp.setTarget (b.lookback.push raw).2
          lastEstimate := some estimate }
        (.published estimate phaseAxis.step amplitudeAxis.step)

theorem refreshes_of_refresh {b after : Balancer α} {outcome : Outcome α}
    (h : b.refresh = .ok (after, outcome)) : Refreshes b after outcome := by
  obtain ⟨u, hu, h⟩ := bind_eq_ok_iff.mp h
  obtain ⟨v, hv, h⟩ := bind_eq_ok_iff.mp h
  by_cases hfinite : u.isFinite && v.isFinite
  · simp only [hfinite, Bool.not_true, Bool.false_eq_true, if_false] at h
    obtain ⟨phase, hphase, h⟩ := bind_eq_ok_iff.mp h
    obtain ⟨amplitude, hamplitude, h⟩ := bind_eq_ok_iff.mp h
    by_cases hraw : (⟨phase.candidate, amplitude.candidate⟩ : Correction α).isFinite
    · simp only [hraw, Bool.not_true, Bool.false_eq_true, if_false] at h
      obtain ⟨phaseAxis, hphaseAxis, h⟩ := bind_eq_ok_iff.mp h
      obtain ⟨amplitudeAxis, hamplitudeAxis, h⟩ := bind_eq_ok_iff.mp h
      cases h
      exact .published hu hv hfinite hphase hamplitude rfl hraw hphaseAxis hamplitudeAxis rfl
    · simp only [hraw, Bool.not_false, if_true] at h
      cases h
      exact .candidateNotFinite hu hv hfinite hphase hamplitude hraw
  · simp only [hfinite, Bool.not_false, if_true] at h
    cases h
    exact .utilityNotFinite hu hv hfinite

/-- How the end of a cycle can go when nothing faults. -/
theorem endCycle_cases {b after : Balancer α} {outcome : Outcome α}
    (h : b.endCycle = .ok (after, outcome)) :
    (b.sums.windows = 0 ∧ after = b ∧ outcome = .noWindow) ∨
      (b.sums.windows ≠ 0 ∧ Refreshes b after outcome) := by
  unfold endCycle at h
  split at h
  · rename_i hwindows
    cases h
    exact .inl ⟨hwindows, rfl, rfl⟩
  · rename_i hwindows
    exact .inr ⟨hwindows, refreshes_of_refresh h⟩

theorem isCycleEnd_of_endCycle {b after : Balancer α} {outcome : Outcome α}
    (h : b.endCycle = .ok (after, outcome)) : outcome.isCycleEnd := by
  rcases endCycle_cases h with ⟨-, -, rfl⟩ | ⟨-, hrefresh⟩
  · rfl
  · cases hrefresh <;> rfl

/-- The end of a cycle leaves alone what counts blocks and passes. -/
theorem endCycle_frame {b after : Balancer α} {outcome : Outcome α}
    (h : b.endCycle = .ok (after, outcome)) :
    after.config = b.config ∧ after.dc = b.dc ∧ after.skipped = b.skipped ∧
      after.integrated = b.integrated := by
  rcases endCycle_cases h with ⟨-, rfl, -⟩ | ⟨-, hrefresh⟩
  · exact ⟨rfl, rfl, rfl, rfl⟩
  · cases hrefresh <;> exact ⟨rfl, rfl, rfl, rfl⟩

theorem size_endCycle {b after : Balancer α} {outcome : Outcome α}
    (h : b.endCycle = .ok (after, outcome)) : after.size = b.size := by
  rcases endCycle_cases h with ⟨-, rfl, -⟩ | ⟨-, hrefresh⟩
  · rfl
  · cases hrefresh <;> rfl

/-! ### A block -/

/-- Put a block out, corrected. -/
def emit (block : Block α) (result : Balancer α × Outcome α) : Processed α :=
  let (ramp, block) := result.1.ramp.process block
  ⟨{ result.1 with ramp }, block, result.2⟩

/-- The engine after a pass over a block, its count of passes aside. -/
def afterPass (b : Balancer α) (dc : DcTracker α) (block : Block α) : Balancer α :=
  { b with dc, skipped := 0, sums := b.passSums block }

/-- How a block can go when nothing faults. -/
inductive Processes (b : Balancer α) (dc : DcTracker α) (out : Block α) : Processed α → Prop
  | idle (h : b.skipped + 1 < b.config.cadence.buffersToSkip) :
      Processes b dc out (emit out ({ b with dc, skipped := b.skipped + 1 }, .idle))
  | passed (hdue : b.config.cadence.buffersToSkip ≤ b.skipped + 1)
      (h : b.integrated + 1 < b.config.cadence.correlationIntegration) :
      Processes b dc out
        (emit out ({ b.afterPass dc out with integrated := b.integrated + 1 }, .passed))
  | ended {after : Balancer α} {outcome : Outcome α}
      (hdue : b.config.cadence.buffersToSkip ≤ b.skipped + 1)
      (hends : b.config.cadence.correlationIntegration ≤ b.integrated + 1)
      (h : endCycle { b.afterPass dc out with integrated := 0 } = .ok (after, outcome)) :
      Processes b dc out (emit out (after, outcome))

/-- The block's way before it is put out. -/
def meet (b : Balancer α) (dc : DcTracker α) (out : Block α) (skipped : Nat) :
    Except Fault (Balancer α × Outcome α) :=
  if skipped < b.config.cadence.buffersToSkip then .ok ({ b with dc, skipped }, .idle)
  else pass { b with dc, skipped := 0 } out

theorem process_eq (b : Balancer α) (block : Block α) :
    b.process block = addCount b.skipped 1 >>= fun skipped =>
      (b.meet (b.dc.process block).1 (b.dc.process block).2 skipped).map
        (emit (b.dc.process block).2) := by
  rw [process]
  cases addCount b.skipped 1 with
  | error fault => rfl
  | ok skipped =>
    generalize b.dc.process block = cleaned
    obtain ⟨dc, out⟩ := cleaned
    simp only [meet, bind, Except.bind]
    by_cases hidle : skipped < b.config.cadence.buffersToSkip
    · simp only [if_pos hidle]
      rfl
    · simp only [if_neg hidle]
      cases pass { b with dc, skipped := 0 } out <;> rfl

theorem processes_of_process {b : Balancer α} {block : Block α} {done : Processed α}
    (h : b.process block = .ok done) :
    Processes b (b.dc.process block).1 (b.dc.process block).2 done := by
  rw [process_eq] at h
  obtain ⟨skipped, hskipped, h⟩ := bind_eq_ok_iff.mp h
  obtain ⟨rfl, -⟩ := addCount_eq_ok_iff.mp hskipped
  obtain ⟨⟨after, outcome⟩, hmeet, rfl⟩ := map_eq_ok_iff.mp h
  unfold meet at hmeet
  split at hmeet
  · rename_i hidle
    cases hmeet
    exact .idle hidle
  · rename_i hdue
    obtain ⟨_, -, hpass⟩ := bind_eq_ok_iff.mp hmeet
    obtain ⟨integrated, hintegrated, hpass⟩ := bind_eq_ok_iff.mp hpass
    obtain ⟨rfl, -⟩ := addCount_eq_ok_iff.mp hintegrated
    split at hpass
    · rename_i hopen
      cases hpass
      exact .passed (Nat.le_of_not_lt hdue) hopen
    · rename_i hends
      exact .ended (Nat.le_of_not_lt hdue) (Nat.le_of_not_lt hends) hpass

/-- The next block completes a cycle: a pass is due, and it is the last one that is asked for. -/
structure CompletesCycle (b : Balancer α) : Prop where
  due : b.config.cadence.buffersToSkip ≤ b.skipped + 1
  ends : b.config.cadence.correlationIntegration ≤ b.integrated + 1

/-- The outcome tells when a cycle ends. -/
theorem isCycleEnd_iff_of_processes {b : Balancer α} {dc : DcTracker α} {out : Block α}
    {done : Processed α} (h : Processes b dc out done) :
    done.outcome.isCycleEnd ↔ b.CompletesCycle := by
  cases h with
  | idle hidle =>
    exact iff_of_false Bool.false_ne_true fun hcompletes =>
      absurd hidle (Nat.not_lt.mpr hcompletes.due)
  | passed hdue hopen =>
    exact iff_of_false Bool.false_ne_true fun hcompletes =>
      absurd hopen (Nat.not_lt.mpr hcompletes.ends)
  | ended hdue hends hafter => exact iff_of_true (isCycleEnd_of_endCycle hafter) ⟨hdue, hends⟩

/-- With room in the counters, a pass that is due and ends its cycle hands its sums on. -/
theorem process_of_ends {b : Balancer α} {block : Block α}
    (hdue : b.config.cadence.buffersToSkip ≤ b.skipped + 1) (hskipped : b.skipped + 1 < countLimit)
    (hends : b.config.cadence.correlationIntegration ≤ b.integrated + 1)
    (hintegrated : b.integrated + 1 < countLimit)
    (hwindows : (b.passSums (b.dc.process block).2).windows < countLimit) :
    b.process block =
      (endCycle { b.afterPass (b.dc.process block).1 (b.dc.process block).2 with
        integrated := 0 }).map (emit (b.dc.process block).2) := by
  have hpass : pass { b with dc := (b.dc.process block).1, skipped := 0 } (b.dc.process block).2 =
      endCycle { b.afterPass (b.dc.process block).1 (b.dc.process block).2 with
        integrated := 0 } := by
    have hcount : addCount (passSums { b with dc := (b.dc.process block).1, skipped := 0 }
        (b.dc.process block).2).windows 0 = .ok _ := addCount_eq_ok hwindows
    rw [pass]
    simp only [hcount, addCount_eq_ok hintegrated]
    exact if_neg (Nat.not_lt.mpr hends)
  rw [process_eq, addCount_eq_ok hskipped, ← hpass]
  exact congrArg (Except.map _) (if_neg (Nat.not_lt.mpr hdue))

/-! ### A cadence -/

omit [Scalar α] in
/-- How a new cadence can go. -/
theorem configure_cases (b : Balancer α) (cadence : Cadence) :
    (cadence.isValid ∧
      b.configure cadence =
        .ok { b with
          config := { b.config with cadence }
          integrated := 0
          skipped := 0 }) ∨
      (¬ cadence.isValid ∧ b.configure cadence = .error (.integration cadence)) := by
  by_cases h : cadence.isValid
  · refine .inl ⟨h, ?_⟩
    simp only [configure, Cadence.validate, if_pos h]
    rfl
  · refine .inr ⟨h, ?_⟩
    simp only [configure, Cadence.validate, if_neg h]
    rfl

/-! ### A call -/

/-- How a call can go when nothing faults. -/
inductive Answers (b : Balancer α) : Call α → Balancer α → Answer α → Prop
  | processed {block : Block α} {done : Processed α}
      (h : Processes b (b.dc.process block).1 (b.dc.process block).2 done) :
      Answers b (.process block) done.balancer (.processed done.block done.outcome)
  | retuned {w : α} : Answers b (.setOptimalPoint w) (b.setOptimalPoint w) .retuned
  | configured {cadence : Cadence} (h : cadence.isValid) :
      Answers b (.configure cadence)
        { b with
          config := { b.config with cadence }
          integrated := 0
          skipped := 0 }
        (.configured true)
  | rejected {cadence : Cadence} (h : ¬ cadence.isValid) :
      Answers b (.configure cadence) b (.configured false)

theorem answers_of_call {b after : Balancer α} {c : Call α} {answer : Answer α}
    (h : b.call c = .ok (after, answer)) : Answers b c after answer := by
  cases c with
  | process block =>
    obtain ⟨done, hprocess, hdone⟩ := bind_eq_ok_iff.mp h
    cases hdone
    exact .processed (processes_of_process hprocess)
  | setOptimalPoint w =>
    cases h
    exact .retuned
  | configure cadence =>
    rcases b.configure_cases cadence with ⟨hvalid, hok⟩ | ⟨hinvalid, herror⟩
    · rw [call, hok] at h
      cases h
      exact .configured hvalid
    · rw [call, herror] at h
      cases h
      exact .rejected hinvalid

/-- No call changes the transform length. -/
theorem size_of_call {b after : Balancer α} {c : Call α} {answer : Answer α}
    (h : b.call c = .ok (after, answer)) : after.size = b.size := by
  cases answers_of_call h with
  | processed hprocesses =>
    cases hprocesses with
    | idle => rfl
    | passed => rfl
    | ended _ _ hend =>
      have hsize := size_endCycle hend
      exact hsize
  | _ => rfl

/-- A run is its first call and the run of the others. -/
theorem run_cons_eq_ok_iff {b after : Balancer α} {c : Call α} {rest : List (Call α)}
    {answers : List (Answer α)} :
    b.run (c :: rest) = .ok (after, answers) ↔
      ∃ next answer later, b.call c = .ok (next, answer) ∧ next.run rest = .ok (after, later) ∧
        answers = answer :: later := by
  constructor
  · intro h
    obtain ⟨⟨next, answer⟩, hcall, h⟩ := bind_eq_ok_iff.mp h
    obtain ⟨⟨last, later⟩, hrest, hlast⟩ := bind_eq_ok_iff.mp h
    cases hlast
    exact ⟨next, answer, later, hcall, hrest, rfl⟩
  · rintro ⟨next, answer, later, hcall, hrest, rfl⟩
    exact bind_eq_ok_iff.mpr ⟨_, hcall, bind_eq_ok_iff.mpr ⟨_, hrest, rfl⟩⟩

theorem size_of_run {b after : Balancer α} {calls : List (Call α)} {answers : List (Answer α)}
    (h : b.run calls = .ok (after, answers)) : after.size = b.size := by
  induction calls generalizing b answers with
  | nil =>
    cases h
    rfl
  | cons c rest ih =>
    obtain ⟨next, answer, later, hcall, hrest, -⟩ := run_cons_eq_ok_iff.mp h
    exact (ih hrest).trans (size_of_call hcall)

/-- A run of calls and one more is the run of the calls and then that one. -/
theorem run_concat_eq_ok_iff {b after : Balancer α} {calls : List (Call α)} {c : Call α}
    {answers : List (Answer α)} :
    b.run (calls ++ [c]) = .ok (after, answers) ↔
      ∃ next earlier answer, b.run calls = .ok (next, earlier) ∧ next.call c = .ok (after, answer) ∧
        answers = earlier ++ [answer] := by
  induction calls generalizing b answers with
  | nil =>
    rw [List.nil_append, run_cons_eq_ok_iff]
    constructor
    · rintro ⟨next, answer, later, hcall, hrest, rfl⟩
      cases hrest
      exact ⟨b, [], answer, rfl, hcall, rfl⟩
    · rintro ⟨next, earlier, answer, hrun, hcall, rfl⟩
      cases hrun
      exact ⟨after, answer, [], hcall, rfl, rfl⟩
  | cons first rest ih =>
    rw [List.cons_append, run_cons_eq_ok_iff]
    constructor
    · rintro ⟨next, told, later, hfirst, hrest, rfl⟩
      obtain ⟨last, earlier, answer, hrun, hcall, rfl⟩ := ih.mp hrest
      exact ⟨last, told :: earlier, answer,
        run_cons_eq_ok_iff.mpr ⟨next, told, earlier, hfirst, hrun, rfl⟩, hcall, rfl⟩
    · rintro ⟨last, told, answer, hrun, hcall, rfl⟩
      obtain ⟨next, head, earlier, hfirst, hrest, rfl⟩ := run_cons_eq_ok_iff.mp hrun
      exact ⟨next, head, earlier ++ [answer], hfirst,
        ih.mpr ⟨last, earlier, answer, hrest, hcall, rfl⟩, rfl⟩

/-- An answer of a run was given to one of its calls, after the calls that got the earlier ones. -/
theorem exists_call_of_answers {b after : Balancer α} {calls : List (Call α)}
    {earlier later : List (Answer α)} {answer : Answer α}
    (h : b.run calls = .ok (after, earlier ++ answer :: later)) :
    ∃ before c rest mid next, calls = before ++ c :: rest ∧ b.run before = .ok (mid, earlier) ∧
      mid.call c = .ok (next, answer) ∧ next.run rest = .ok (after, later) := by
  induction earlier generalizing b calls with
  | nil =>
    cases calls with
    | nil => cases h
    | cons c rest =>
      obtain ⟨next, _, _, hcall, hrest, heq⟩ := run_cons_eq_ok_iff.mp h
      cases heq
      exact ⟨[], c, rest, b, next, rfl, rfl, hcall, hrest⟩
  | cons first earlier ih =>
    cases calls with
    | nil => cases h
    | cons c₀ calls =>
      obtain ⟨start, _, _, hfirst, hrun, heq⟩ := run_cons_eq_ok_iff.mp h
      cases heq
      obtain ⟨before, c, rest, mid, next, rfl, hbefore, hcall, hrest⟩ := ih hrun
      exact ⟨c₀ :: before, c, rest, mid, next, rfl,
        run_cons_eq_ok_iff.mpr ⟨start, first, earlier, hfirst, hbefore, rfl⟩, hcall, hrest⟩

/-- A run that can be computed: whatever is found of the engine it ends with and of its answers. -/
theorem exists_run_of_any {memory : Allocator} {tables : (size : FftSize) → Tables α size}
    {config : Config α} {calls : List (Call α)} {p : Balancer α → List (Answer α) → Bool}
    (h : (create memory tables config).toOption.any fun b₀ =>
      (b₀.run calls).toOption.any fun result => p result.1 result.2) :
    ∃ b₀ b answers, create memory tables config = .ok b₀ ∧ b₀.run calls = .ok (b, answers) ∧
      p b answers := by
  cases hcreate : create memory tables config with
  | error refusal =>
    rw [hcreate] at h
    cases h
  | ok b₀ =>
    rw [hcreate] at h
    cases hrun : b₀.run calls with
    | error fault =>
      simp [Except.toOption, hrun] at h
    | ok result =>
      simp only [Except.toOption, hrun, Option.any_some] at h
      exact ⟨b₀, result.1, result.2, rfl, hrun, h⟩

end Balancer

end IqBalance
