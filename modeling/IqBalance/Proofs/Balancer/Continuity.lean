import Mathlib
import IqBalance.Proofs.Balancer.Drift
import IqBalance.Proofs.Balancer.Stream

/-!
The correction along a stream, sample by sample.

`Ramp.course` lists the corrections that the samples of a block meet, and
`Balancer.course` puts those of a run in a row; what a run puts out is what they
make of its stream, offset removed (`Balancer.stream_eq_course`). Over exact
arithmetic a course of two samples or more leads from the correction applied
last to the target in equal increments (`Ramp.glides`). A block of one sample
takes the target at once and an empty one commits it unseen, so an estimate on
either would be a step; where estimates come with two samples or more, the next
course begins where the last one ended (`Balancer.course_of_run`).
-/

namespace IqBalance

/-! ### The course of a block -/

namespace Ramp

section Course

variable {α : Type} [Scalar α] (r : Ramp α)

/-- The corrections that the samples of a block of `n` meet, one after the other. -/
def course (n : Nat) : List (Correction α) := (List.range n).map (r.correctionAt n)

@[simp] theorem length_course (n : Nat) : (r.course n).length = n := by
  simp [course]

@[simp] theorem course_zero : r.course 0 = [] := rfl

/-- A single sample takes the target at once. -/
@[simp] theorem course_one : r.course 1 = [r.target] := rfl

theorem getElem?_course {n i : Nat} (h : i < n) :
    (r.course n)[i]? = some (r.correctionAt n i) := by
  simp [course, h]

/-- A block is put out as its course says. -/
theorem toList_process (block : Block α) :
    (r.process block).2.toList =
      List.zipWith Correction.apply (r.course block.size) block.toList := by
  apply List.ext_getElem
  · simp
  · intro i h₁ h₂
    simp [process, course]

end Course

end Ramp

/-- A way from one correction to another in equal increments, one for each sample after the
first. -/
structure Correction.Glides (old new : Correction ℝ) (course : List (Correction ℝ)) : Prop where
  first : course.head? = some old
  last : course.getLast? = some new
  increment : ∀ i c d, course[i]? = some c → course[i + 1]? = some d →
    d.phase - c.phase = (new.phase - old.phase) / (course.length - 1 : ℕ) ∧
      d.amplitude - c.amplitude = (new.amplitude - old.amplitude) / (course.length - 1 : ℕ)

namespace Ramp

variable (r : Ramp ℝ) {n : Nat}

/-- Sample `i` is `i` increments on the way. -/
theorem correctionAt_eq (hn : 2 ≤ n) (i : Nat) :
    r.correctionAt n i =
      { phase := r.applied.phase + i * ((r.target.phase - r.applied.phase) / (n - 1 : ℕ))
        amplitude := r.applied.amplitude +
          i * ((r.target.amplitude - r.applied.amplitude) / (n - 1 : ℕ)) } := by
  have hlast : ((n - 1 : ℕ) : ℝ) ≠ 0 := by
    rw [Nat.cast_ne_zero]
    omega
  rw [correctionAt, if_neg (by omega)]
  simp only [Scalar.ofCount]
  apply Correction.ext
  · field_simp
    ring
  · field_simp
    ring

theorem correctionAt_zero (hn : 2 ≤ n) : r.correctionAt n 0 = r.applied := by
  rw [correctionAt_eq r hn]
  simp

theorem correctionAt_last (hn : 2 ≤ n) : r.correctionAt n (n - 1) = r.target := by
  have hlast : ((n - 1 : ℕ) : ℝ) ≠ 0 := by
    rw [Nat.cast_ne_zero]
    omega
  rw [correctionAt_eq r hn]
  apply Correction.ext
  · simp only [mul_div_cancel₀ _ hlast, add_sub_cancel]
  · simp only [mul_div_cancel₀ _ hlast, add_sub_cancel]

/-- A block of two samples or more is ramped. -/
theorem glides (hn : 2 ≤ n) : r.applied.Glides r.target (r.course n) where
  first := by
    rw [List.head?_eq_getElem?, getElem?_course r (by omega), correctionAt_zero r hn]
  last := by
    rw [List.getLast?_eq_getElem?, length_course, getElem?_course r (by omega),
      correctionAt_last r hn]
  increment := by
    intro i c d hc hd
    have hi : i + 1 < n := by
      obtain ⟨hlt, -⟩ := List.getElem?_eq_some_iff.mp hd
      rwa [length_course] at hlt
    rw [getElem?_course r (by omega), Option.some.injEq] at hc
    rw [getElem?_course r hi, Option.some.injEq] at hd
    rw [← hc, ← hd, correctionAt_eq r hn, correctionAt_eq r hn, length_course]
    push_cast
    constructor
    · ring
    · ring

end Ramp

namespace Balancer

/-! ### The course of a run -/

section Course

variable {α : Type} [Scalar α] {b after : Balancer α} {c : Call α} {answer : Answer α}

/-- The corrections that the samples of a call meet: the ramp leads from the correction applied
last to the target as the call leaves it. -/
def courseOf (b after : Balancer α) (c : Call α) : List (Correction α) :=
  Ramp.course ⟨after.ramp.target, b.ramp.applied⟩ c.block.size

/-- The corrections that the samples of a run meet, in order. -/
def course (b : Balancer α) : List (Call α) → List (Correction α)
  | [] => []
  | c :: rest =>
    match b.call c with
    | .ok (after, _) => b.courseOf after c ++ after.course rest
    | .error _ => []

theorem course_cons {rest : List (Call α)} (h : b.call c = .ok (after, answer)) :
    b.course (c :: rest) = b.courseOf after c ++ after.course rest := by
  rw [course, h]

theorem course_append {calls : List (Call α)} {answers : List (Answer α)}
    (hrun : b.run calls = .ok (after, answers)) (rest : List (Call α)) :
    b.course (calls ++ rest) = b.course calls ++ after.course rest := by
  induction calls generalizing b answers with
  | nil =>
    cases hrun
    rfl
  | cons c calls ih =>
    obtain ⟨next, answer, later, hcall, hlater, rfl⟩ := run_cons_eq_ok_iff.mp hrun
    rw [List.cons_append, course_cons hcall, course_cons hcall, ih hlater, List.append_assoc]

/-- A run of calls and others is the run of the calls and then that of the others. -/
theorem run_append_eq_ok {calls rest : List (Call α)} {answers : List (Answer α)}
    (hrun : b.run (calls ++ rest) = .ok (after, answers)) :
    ∃ mid earlier later, b.run calls = .ok (mid, earlier) ∧ mid.run rest = .ok (after, later) ∧
      answers = earlier ++ later := by
  induction calls generalizing b answers with
  | nil => exact ⟨b, [], answers, rfl, hrun, rfl⟩
  | cons c calls ih =>
    obtain ⟨next, answer, later, hcall, hlater, rfl⟩ := run_cons_eq_ok_iff.mp hrun
    obtain ⟨mid, earlier, last, hbefore, hrest, rfl⟩ := ih hlater
    exact ⟨mid, answer :: earlier, last,
      run_cons_eq_ok_iff.mpr ⟨next, answer, earlier, hcall, hbefore, rfl⟩, hrest, rfl⟩

/-- The end of a cycle applies nothing. -/
theorem applied_endCycle {outcome : Outcome α} (h : b.endCycle = .ok (after, outcome)) :
    after.ramp.applied = b.ramp.applied := by
  rcases endCycle_cases h with ⟨-, rfl, -⟩ | ⟨-, hrefresh⟩
  · rfl
  · cases hrefresh <;> rfl

theorem block_of_processes {dc : DcTracker α} {out : Block α} {done : Processed α}
    (h : Processes b dc out done) :
    done.block = (Ramp.process ⟨done.balancer.ramp.target, b.ramp.applied⟩ out).2 := by
  cases h with
  | idle => rfl
  | passed => rfl
  | @ended last outcome _ _ hend =>
    have happlied := applied_endCycle hend
    have hramp : last.ramp = ⟨last.ramp.target, b.ramp.applied⟩ :=
      congrArg (Ramp.mk last.ramp.target) happlied
    simp only [emit, Ramp.process_target]
    rw [← hramp]

/-- The tracker takes in what a call brings. -/
theorem dc_of_call (h : b.call c = .ok (after, answer)) :
    after.dc = (b.dc.process c.block).1 := by
  cases answers_of_call h with
  | processed hprocesses =>
    cases hprocesses with
    | idle => rfl
    | passed => rfl
    | ended _ _ hend => exact (endCycle_frame hend).2.1
  | retuned => rfl
  | configured _ => rfl
  | rejected _ => rfl

/-- What a call puts out is what its course makes of its samples, offset removed. -/
theorem block_of_call (h : b.call c = .ok (after, answer)) :
    answer.block.toList =
      List.zipWith Correction.apply (b.courseOf after c) (b.dc.process c.block).2.toList := by
  cases answers_of_call h with
  | @processed block done hprocesses =>
    have hblock : (Answer.processed done.block done.outcome).block = done.block := rfl
    rw [hblock, block_of_processes hprocesses, Ramp.toList_process, DcTracker.size_process]
    rfl
  | retuned => rfl
  | configured _ => rfl
  | rejected _ => rfl

theorem size_block_of_call (h : b.call c = .ok (after, answer)) :
    answer.block.size = c.block.size := by
  have hlength := congrArg List.length (block_of_call h)
  simpa [courseOf] using hlength

/-- What a run puts out is what its course makes of its stream, offset removed. -/
theorem stream_eq_course {calls : List (Call α)} {answers : List (Answer α)}
    (hrun : b.run calls = .ok (after, answers)) :
    (Answer.stream answers).toList =
      List.zipWith Correction.apply (b.course calls)
        (b.dc.process (Call.stream calls)).2.toList := by
  induction calls generalizing b answers with
  | nil =>
    cases hrun
    rfl
  | cons c rest ih =>
    obtain ⟨next, answer, later, hcall, hrest, rfl⟩ := run_cons_eq_ok_iff.mp hrun
    have hlength : (b.courseOf next c).length = (b.dc.process c.block).2.toList.length := by
      simp [courseOf]
    have hanswers : Answer.stream (answer :: later) = answer.block ++ Answer.stream later := rfl
    have hcalls : Call.stream (c :: rest) = c.block ++ Call.stream rest := rfl
    rw [hanswers, hcalls, course_cons hcall, DcTracker.process_append, Array.toList_append,
      Array.toList_append, List.zipWith_append hlength, block_of_call hcall, ih hrest,
      dc_of_call hcall]

/-- A call that publishes nothing leaves the target. -/
theorem target_of_quiet (h : b.call c = .ok (after, answer)) (hquiet : answer.publishes = false) :
    after.ramp.target = b.ramp.target := by
  cases answers_of_call h with
  | processed hprocesses => exact (keeps_of_processes hprocesses hquiet).target
  | retuned => rfl
  | configured _ => rfl
  | rejected _ => rfl

end Course

/-! ### Estimates of a single pass -/

section SinglePasses

variable {α : Type} [Scalar α] {b after : Balancer α}

/-- A first pass over a block shorter than a window brings no estimate. -/
theorem bins_le_of_first_pass {out : Block α} {outcome : Outcome α} {dc : DcTracker α}
    (hfirst : b.integrated = 0)
    (hend : endCycle { b.afterPass dc out with integrated := 0 } = .ok (after, outcome))
    (hpublished : outcome.isPublished) : b.size.bins ≤ out.size := by
  by_contra hshort
  have hwindows : (b.passSums out).windows = 0 := by
    rw [windows_passSums, if_pos hfirst, windowCount, if_pos (Nat.lt_of_not_le hshort),
      Nat.min_zero]
  rcases endCycle_cases hend with ⟨-, -, rfl⟩ | ⟨hsome, -⟩
  · cases hpublished
  · exact hsome hwindows

theorem single_pass_of_call {c : Call α} {answer : Answer α}
    (hcadence : b.config.cadence.correlationIntegration = 1) (hfirst : b.integrated = 0)
    (hkept : ∀ cadence, c ≠ .configure cadence) (h : b.call c = .ok (after, answer)) :
    (answer.publishes → b.size.bins ≤ c.block.size) ∧
      after.config.cadence.correlationIntegration = 1 ∧ after.integrated = 0 := by
  cases answers_of_call h with
  | @processed block done hprocesses =>
    cases hprocesses with
    | idle => exact ⟨(nomatch ·), hcadence, hfirst⟩
    | passed _ hopen => omega
    | ended _ _ hend =>
      obtain ⟨hconfig, -, -, hintegrated⟩ := endCycle_frame hend
      refine ⟨fun hpublished => ?_, ?_, hintegrated⟩
      · exact (bins_le_of_first_pass hfirst hend hpublished).trans (b.dc.size_process block).le
      · exact (congrArg (·.cadence.correlationIntegration) hconfig).trans hcadence
  | retuned => exact ⟨(nomatch ·), hcadence, hfirst⟩
  | configured _ => exact absurd rfl (hkept _)
  | rejected _ => exact absurd rfl (hkept _)

/-- Where every pass is a cycle of its own, estimates come with full windows. -/
theorem bins_le_of_single_passes {calls : List (Call α)} {answers : List (Answer α)}
    (hcadence : b.config.cadence.correlationIntegration = 1) (hfirst : b.integrated = 0)
    (hkept : ∀ cadence, .configure cadence ∉ calls) (hrun : b.run calls = .ok (after, answers)) :
    ∀ answer ∈ answers, answer.publishes → b.size.bins ≤ answer.block.size := by
  induction calls generalizing b answers with
  | nil =>
    cases hrun
    simp
  | cons c rest ih =>
    obtain ⟨next, answer, later, hcall, hrest, rfl⟩ := run_cons_eq_ok_iff.mp hrun
    have hkeeps : ∀ cadence, c ≠ .configure cadence ∧ .configure cadence ∉ rest := by
      intro cadence
      have hnot := hkept cadence
      rw [List.mem_cons, not_or] at hnot
      exact ⟨Ne.symm hnot.1, hnot.2⟩
    obtain ⟨hlong, hcadence, hfirst⟩ :=
      single_pass_of_call hcadence hfirst (fun cadence => (hkeeps cadence).1) hcall
    rw [← size_block_of_call hcall] at hlong
    have hlater := ih hcadence hfirst (fun cadence => (hkeeps cadence).2) hrest
    rw [size_of_call hcall] at hlater
    exact List.forall_mem_cons.mpr ⟨hlong, hlater⟩

end SinglePasses

/-! ### No steps -/

section Continuous

variable {b after : Balancer ℝ} {c : Call ℝ} {answer : Answer ℝ}

/-- A call whose estimate, if there is one, comes with two samples or more: its course begins at
the target before it and ends at the target after it, and without a sample they are the same. -/
theorem ends_courseOf (happlied : b.ramp.applied = b.ramp.target)
    (hlong : answer.publishes → 2 ≤ answer.block.size)
    (h : b.call c = .ok (after, answer)) :
    (c.block.size = 0 ∧ after.ramp.target = b.ramp.target ∧ b.courseOf after c = []) ∨
      ((b.courseOf after c).head? = some b.ramp.target ∧
        (b.courseOf after c).getLast? = some after.ramp.target) := by
  rw [size_block_of_call h] at hlong
  have hquiet : c.block.size < 2 → after.ramp.target = b.ramp.target := by
    intro hshort
    refine target_of_quiet h ?_
    rw [← Bool.not_eq_true]
    exact fun hpublishes => absurd (hlong hpublishes) (Nat.not_le.mpr hshort)
  rcases Nat.lt_or_ge c.block.size 2 with hshort | hramped
  · have htarget := hquiet hshort
    obtain hzero | hone : c.block.size = 0 ∨ c.block.size = 1 := by omega
    · exact .inl ⟨hzero, htarget, by rw [courseOf, hzero, Ramp.course_zero]⟩
    · rw [courseOf, hone, Ramp.course_one, htarget]
      exact .inr ⟨rfl, rfl⟩
  · have hglides := Ramp.glides ⟨after.ramp.target, b.ramp.applied⟩ hramped
    exact .inr ⟨happlied ▸ hglides.first, hglides.last⟩

/-- The last sample of a run met the target, and without a sample the target is the first one. -/
theorem getLast?_course {calls : List (Call ℝ)} {answers : List (Answer ℝ)}
    (happlied : b.ramp.applied = b.ramp.target)
    (hlong : ∀ answer ∈ answers, answer.publishes → 2 ≤ answer.block.size)
    (hrun : b.run calls = .ok (after, answers)) :
    (b.course calls).getLast?.getD b.ramp.target = after.ramp.target := by
  induction calls using List.reverseRecOn generalizing after answers with
  | nil =>
    cases hrun
    rfl
  | append_singleton calls c ih =>
    obtain ⟨mid, earlier, answer, hbefore, hcall, rfl⟩ := run_concat_eq_ok_iff.mp hrun
    have hlast : mid.course [c] = mid.courseOf after c := by
      rw [course_cons hcall, course, List.append_nil]
    have hearlier := ih (fun a ha => hlong a (List.mem_append_left _ ha)) hbefore
    have hmid := applied_eq_target_of_run happlied hbefore
    rw [course_append hbefore, hlast, List.getLast?_append]
    rcases ends_courseOf hmid (hlong answer (by simp)) hcall with ⟨-, htarget, hnone⟩ | ⟨-, hsome⟩
    · rw [hnone, List.getLast?_nil, Option.none_or, hearlier, htarget]
    · rw [hsome]
      rfl

/-- A refresh makes no step, if every estimate comes with a block of two samples or more. What a run
puts out is what its course makes of its stream. The course of each non-empty block in it begins
at the correction that the last sample before met, or at the initial one if there was none; and
that of a block of two samples or more leads from the target before the block to the one after it
in equal increments. -/
theorem course_of_run {memory : Allocator} {tables : (size : FftSize) → Tables ℝ size}
    {config : Config ℝ} {b₀ b : Balancer ℝ} {calls : List (Call ℝ)} {answers : List (Answer ℝ)}
    (hcreate : create memory tables config = .ok b₀) (hrun : b₀.run calls = .ok (b, answers))
    (hlong : ∀ answer ∈ answers, answer.publishes → 2 ≤ answer.block.size) :
    (Answer.stream answers).toList =
        List.zipWith Correction.apply (b₀.course calls)
          ((DcTracker.start config.dcTimeConst).process (Call.stream calls)).2.toList ∧
    ∀ before block rest, calls = before ++ .process block :: rest →
      ∃ mid next earlier answer, b₀.run before = .ok (mid, earlier) ∧
        mid.call (.process block) = .ok (next, answer) ∧
        b₀.course calls =
          b₀.course before ++ mid.courseOf next (.process block) ++ next.course rest ∧
        (block ≠ #[] → (mid.courseOf next (.process block)).head? =
          some ((b₀.course before).getLast?.getD config.initial)) ∧
        (2 ≤ block.size →
          mid.ramp.target.Glides next.ramp.target (mid.courseOf next (.process block))) := by
  have hramp := ramp_of_create hcreate
  have hstart : b₀.ramp.target = config.initial := congrArg Ramp.target hramp
  have hrest : b₀.ramp.applied = b₀.ramp.target := by rw [hramp]; rfl
  constructor
  · obtain ⟨size, lookback, phaseAxis, amplitudeAxis, -, -, -, -, -, rfl⟩ :=
      create_eq_ok_iff.mp hcreate
    exact stream_eq_course hrun
  · rintro before block rest rfl
    obtain ⟨mid, earlier, others, hbefore, hrest', rfl⟩ := run_append_eq_ok hrun
    obtain ⟨next, answer, later, hcall, -, rfl⟩ := run_cons_eq_ok_iff.mp hrest'
    have hlast := getLast?_course hrest (fun a ha => hlong a (List.mem_append_left _ ha)) hbefore
    have hmid := applied_eq_target_of_run hrest hbefore
    refine ⟨mid, next, earlier, answer, hbefore, hcall, ?_, fun hblock => ?_, fun hramped => ?_⟩
    · rw [course_append hbefore, course_cons hcall, List.append_assoc]
    · rcases ends_courseOf hmid (hlong answer (by simp)) hcall with ⟨hzero, -⟩ | ⟨hfirst, -⟩
      · exact absurd (Array.eq_empty_of_size_eq_zero hzero) hblock
      · rw [hfirst, ← hlast, hstart]
    · rw [← hmid]
      exact Ramp.glides ⟨next.ramp.target, mid.ramp.applied⟩ hramped

/-- One estimate, with blocks of one sample and none around it and a ramp to follow. -/
theorem course_around_estimate :
    let tables := fun size : FftSize =>
      Tables.exact (Vector.replicate size.bins 1) (Vector.replicate size.bins 1)
    let config := { Config.ones ⟨1, 1, 1⟩ with dcTimeConst := 1 / 2, initial := ⟨1 / 2, 1 / 4⟩ }
    let before : List (Call ℝ) :=
      [.setOptimalPoint 0, .process (Array.replicate 64 ⟨3, 4⟩), .process #[], .process #[⟨5, 6⟩]]
    let block : Block ℝ := #[⟨7, 8⟩, ⟨9, 8⟩]
    ∃ b₀ b answers mid next earlier answer estimate,
      create .ample tables config = .ok b₀ ∧
      b₀.run (before ++ [.process block]) = .ok (b, answers) ∧
      (∀ answer ∈ answers, answer.publishes → 2 ≤ answer.block.size) ∧
      (∃ told ∈ answers, told.estimate? = some estimate) ∧
      b₀.run before = .ok (mid, earlier) ∧ mid.call (.process block) = .ok (next, answer) ∧
      (mid.courseOf next (.process block)).head? =
        some ((b₀.course before).getLast?.getD config.initial) ∧
      mid.ramp.target.Glides next.ramp.target (mid.courseOf next (.process block)) := by
  intro tables config before block
  have hvalid : Cadence.isValid ⟨1, 1, 1⟩ := by decide
  have hrate : (0 : ℝ) < 1 / 2 ∧ (1 / 2 : ℝ) ≤ 1 := by norm_num
  obtain ⟨b₀, hcreate, hruns⟩ := exists_run_ones tables hvalid (by constructor <;> decide) hrate
    ⟨1 / 2, 1 / 4⟩
  obtain ⟨b, answers, hrun⟩ := hruns (before ++ [.process block]) (by simp [before, Call.Fits])
    (by simp [before, block, Call.totalSamples, Call.samples])
  have hcreate : create .ample tables config = .ok b₀ := hcreate
  have hbins := FftSize.le_bins b₀.size
  have hsingle : b₀.config.cadence.correlationIntegration = 1 ∧ b₀.integrated = 0 := by
    obtain ⟨size, lookback, phaseAxis, amplitudeAxis, -, -, -, -, -, rfl⟩ :=
      create_eq_ok_iff.mp hcreate
    exact ⟨rfl, rfl⟩
  have hlong : ∀ answer ∈ answers, answer.publishes → 2 ≤ answer.block.size := by
    intro answer hanswer hpublishes
    have hwindow := bins_le_of_single_passes hsingle.1 hsingle.2 (by simp [before]) hrun answer
      hanswer hpublishes
    omega
  obtain ⟨-, hcourse⟩ := course_of_run hcreate hrun hlong
  obtain ⟨mid, next, earlier, answer, hbefore, hcall, -, hfirst, hglides⟩ :=
    hcourse before block [] rfl
  obtain ⟨_, _, later, hretune, hrest, hanswers⟩ := run_cons_eq_ok_iff.mp hrun
  obtain ⟨rfl, rfl⟩ := Prod.mk.inj (Except.ok.inj hretune)
  obtain ⟨_, told, _, hwindow, -, rfl⟩ := run_cons_eq_ok_iff.mp hrest
  obtain ⟨estimate, hestimate⟩ := exists_estimate_of_ones hcreate Array.size_replicate hwindow
  exact ⟨b₀, b, answers, mid, next, earlier, answer, estimate, hcreate, hrun, hlong,
    ⟨told, by simp [hanswers], hestimate⟩, hbefore, hcall, hfirst (by simp [block]),
    hglides (by simp [block])⟩

end Continuous

end Balancer

end IqBalance
