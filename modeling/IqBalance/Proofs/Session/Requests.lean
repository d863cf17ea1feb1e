import IqBalance.Proofs.Balancer.NoFault
import IqBalance.Proofs.ZeroFree

/-!
What one request does to a session, case by case.

`Fails` lists the ways in which a request to create a balancer or to change a
cadence may fail, each with what went wrong; `Serves` lists how any request can
go when nothing faults. A session's code is opened here only
(`serve_cases`, `Fails.serve`): what holds along a sequence of requests is
proved over these cases.
-/

namespace IqBalance

/-! ### Creating a balancer -/

theorem Lookback.create_eq_allocation {memory : Allocator} {plan : LookbackPlan}
    {cause : AllocationError} (hvalid : plan.hasValidCapacity)
    (h : memory.reserveAll plan.buffers = .error cause) :
    create (α := Float32) memory plan = .error (.allocation cause) := by
  rw [create, dif_pos hvalid, h]

/-- An accepted tuning is refused for the first of its buffers that cannot be had. -/
theorem Balancer.create_eq_allocation {memory : Allocator} {config : Config Float32}
    {size : FftSize} {cause : AllocationError} (hvalid : config.validate = .ok size)
    (h : memory.reserveAll config.buffers = .error cause) :
    create memory Tables.single config = .error (.allocation cause) := by
  have haccepted := Config.validate_eq_ok_iff.mp hvalid
  rw [Config.buffers, Allocator.reserveAll_append, ← haccepted.fftBins] at h
  rw [create, hvalid]
  cases hsums : memory.reserveAll (Accumulators.buffers size.bins) with
  | error cause' =>
    rw [hsums] at h
    cases h
    simp only [Except.mapError, bind, Except.bind, hsums]
  | ok =>
    rw [hsums] at h
    have hring := Lookback.create_eq_allocation haccepted.capacity h
    simp only [Except.mapError, bind, Except.bind, hsums, hring]

/-- What was created had an accepted tuning, and all of its buffers. -/
theorem Balancer.grants_of_create {memory : Allocator} {config : Config Float32}
    {b : Balancer Float32} (h : create memory Tables.single config = .ok b) :
    ∃ size, config.validate = .ok size ∧ ∀ buffer ∈ config.buffers, memory.Grants buffer := by
  obtain ⟨size, ring, -, -, hvalid, hsums, hring, -⟩ := create_eq_ok_iff.mp h
  rw [(Config.validate_eq_ok_iff.mp hvalid).fftBins] at hsums
  obtain ⟨-, hring, -⟩ := Lookback.create_eq_ok hring
  exact ⟨size, hvalid, List.forall_mem_append.mpr ⟨hsums, hring⟩⟩

/-- Creating a balancer never faults. -/
theorem Balancer.create_cases (memory : Allocator) (config : Config Float32) :
    (∃ b, create memory Tables.single config = .ok b) ∨
      (∃ cause, config.validate = .error cause ∧
        create memory Tables.single config = .error (.invalid cause)) ∨
      ∃ size cause, config.validate = .ok size ∧
        memory.reserveAll config.buffers = .error cause ∧
        create memory Tables.single config = .error (.allocation cause) := by
  cases hvalid : config.validate with
  | error cause =>
    refine .inr (.inl ⟨cause, rfl, ?_⟩)
    rw [create, hvalid]
    rfl
  | ok size =>
    cases hmemory : memory.reserveAll config.buffers with
    | ok =>
      have hclamps := (Config.validate_eq_ok_iff.mp hvalid).clampsOrdered
      have hgrants := Allocator.reserveAll_eq_ok_iff.mp hmemory
      exact .inl (exists_create Tables.single hclamps hvalid hgrants)
    | error cause =>
      exact .inr (.inr ⟨size, cause, rfl, rfl, create_eq_allocation hvalid hmemory⟩)

/-- What a request to create a balancer asks for. -/
structure Creation where
  handle : Handle
  /-- The name under which a failure is reported. -/
  entryPoint : String
  /-- The tuning, or why there is none. -/
  tuning : Except Failure (Config Float32)
  memory : Allocator

namespace Request

/-- What is asked for, if the request is to create a balancer. -/
def creation? (explain : Explanation) : Request → Option Creation
  | .create handle initial memory =>
    some ⟨handle, "iqb_balancer_create", .ok (.startingAt initial), memory⟩
  | .createFrom handle text memory =>
    some ⟨handle, "iqb_balancer_create_with_config", Session.readConfig explain text, memory⟩
  | _ => none

/-- The name under which a request reports its failure, if it is one that may fail. -/
def entryPoint? : Request → Option String
  | .create _ _ _ => some "iqb_balancer_create"
  | .createFrom _ _ _ => some "iqb_balancer_create_with_config"
  | .configure _ _ _ _ => some "iqb_balancer_configure"
  | _ => none

/-- What the host is told when a request fails. -/
def refusal : Request → Reply
  | .configure _ _ _ _ => .configured false
  | _ => .created false

/-- The request only asks how things stand. -/
def isQuestion : Request → Bool
  | .phase _ | .amplitude _ | .state _ | .lastFailure => true
  | _ => false

variable {explain : Explanation}

theorem entryPoint_of_creation {r : Request} {c : Creation} (h : r.creation? explain = some c) :
    r.entryPoint? = some c.entryPoint := by
  cases r with
  | create handle initial memory =>
    cases h
    rfl
  | createFrom handle text memory =>
    cases h
    rfl
  | _ => cases h

theorem refusal_of_creation {r : Request} {c : Creation} (h : r.creation? explain = some c) :
    r.refusal = .created false := by
  cases r with
  | configure => cases h
  | _ => rfl

end Request

namespace Session

variable {explain : Explanation}

theorem serve_eq_createWith (s : Session) {r : Request} {c : Creation}
    (h : r.creation? explain = some c) :
    s.serve explain r = s.createWith c.handle c.entryPoint c.tuning c.memory := by
  cases r with
  | create handle initial memory =>
    cases h
    rfl
  | createFrom handle text memory =>
    cases h
    rfl
  | _ => cases h

/-! ### A cadence -/

/-- The counts of a request to change a cadence, with the names that messages call them. -/
def counts (skip fft correlation : Int) : List (String × Int) :=
  [("buffers_to_skip", skip), ("fft_integration", fft), ("correlation_integration", correlation)]

/-- A cadence is read from counts that are not negative; else the first that is gets named. -/
theorem readCadence_eq (skip fft correlation : Int) :
    readCadence skip fft correlation =
      match (counts skip fft correlation).find? (·.2 < 0) with
      | some (name, value) => .error (.negativeCount name value)
      | none => .ok ⟨skip.toNat, fft.toNat, correlation.toNat⟩ := by
  unfold readCadence readCount counts
  by_cases hskip : 0 ≤ skip
  · by_cases hfft : 0 ≤ fft
    · by_cases hcorrelation : 0 ≤ correlation
      · simp [hskip, hfft, hcorrelation, bind, Except.bind, pure, Except.pure]
      · simp [hskip, hfft, hcorrelation, Int.not_le.mp hcorrelation, bind, Except.bind]
    · simp [hskip, hfft, Int.not_le.mp hfft, bind, Except.bind]
  · simp [hskip, Int.not_le.mp hskip, bind, Except.bind]

theorem find_counts_eq_none_iff {skip fft correlation : Int} :
    (counts skip fft correlation).find? (·.2 < 0) = none ↔
      0 ≤ skip ∧ 0 ≤ fft ∧ 0 ≤ correlation := by
  simp [counts]

/-! ### Failures -/

/-- How a request may fail, and what with. -/
inductive Fails (explain : Explanation) (s : Session) : Request → Failure → Prop
  /-- The text of a tuning, up to its first zero byte, is not UTF-8. -/
  | notUtf8 {handle : Handle} {text : List UInt8} {memory : Allocator} {fault : Text.Utf8Fault}
      (h : Text.firstFault (text.takeWhile (· ≠ 0)) = some fault) :
      Fails explain s (.createFrom handle (some text) memory) (.notUtf8 fault)
  /-- It is UTF-8 and no tuning. -/
  | notConfig {handle : Handle} {text : List UInt8} {memory : Allocator} {cause : Json.Rejection}
      (hutf8 : Text.firstFault (text.takeWhile (· ≠ 0)) = none)
      (h : Config.ofJson (text.takeWhile (· ≠ 0)) = .error cause) :
      Fails explain s (.createFrom handle (some text) memory)
        (.notConfig (explain (text.takeWhile (· ≠ 0))))
  /-- The tuning is not accepted. -/
  | invalid {r : Request} {c : Creation} {config : Config Float32} {cause : ConfigError Float32}
      (hc : r.creation? explain = some c) (htuning : c.tuning = .ok config)
      (h : config.validate = .error cause) : Fails explain s r (.config cause)
  /-- The tuning is accepted, and one of its buffers cannot be had. -/
  | allocation {r : Request} {c : Creation} {config : Config Float32} {size : FftSize}
      {cause : AllocationError} (hc : r.creation? explain = some c)
      (htuning : c.tuning = .ok config) (hvalid : config.validate = .ok size)
      (h : c.memory.reserveAll config.buffers = .error cause) :
      Fails explain s r (.allocation cause)
  /-- There is no balancer to give a cadence to. -/
  | noBalancer {handle : Handle} {skip fft correlation : Int} (h : s.balancers handle = none) :
      Fails explain s (.configure handle skip fft correlation) .noBalancer
  /-- A count is negative; the first that is gets named. -/
  | negative {handle : Handle} {skip fft correlation : Int} {b : Balancer Float32} {name : String}
      {value : Int} (hb : s.balancers handle = some b)
      (h : (counts skip fft correlation).find? (·.2 < 0) = some (name, value)) :
      Fails explain s (.configure handle skip fft correlation) (.negativeCount name value)
  /-- No count is negative and one is zero. -/
  | zero {handle : Handle} {skip fft correlation : Int} {b : Balancer Float32}
      (hb : s.balancers handle = some b)
      (hcounts : (counts skip fft correlation).find? (·.2 < 0) = none)
      (h : skip = 0 ∨ fft = 0 ∨ correlation = 0) :
      Fails explain s (.configure handle skip fft correlation)
        (.config (.integration ⟨skip.toNat, fft.toNat, correlation.toNat⟩))

/-- A tuning that cannot be read fails the request. -/
theorem fails_of_tuning (s : Session) {r : Request} {c : Creation} {f : Failure}
    (hc : r.creation? explain = some c) (h : c.tuning = .error f) : s.Fails explain r f := by
  cases r with
  | create handle initial memory =>
    cases hc
    cases h
  | createFrom handle text memory =>
    cases hc
    cases text with
    | none => cases h
    | some text =>
      simp only [readConfig] at h
      cases hutf8 : Text.firstFault (text.takeWhile (· ≠ 0)) with
      | some fault =>
        rw [hutf8] at h
        cases h
        exact .notUtf8 hutf8
      | none =>
        rw [hutf8] at h
        cases hconfig : Config.ofJson (text.takeWhile (· ≠ 0)) with
        | ok config =>
          rw [hconfig] at h
          cases h
        | error cause =>
          rw [hconfig] at h
          cases h
          exact .notConfig hutf8 hconfig
  | _ => cases hc

/-- The session in which a request fails: a balancer that was to be created anew is gone. -/
def vacated (s : Session) : Request → Session
  | .create handle _ _ | .createFrom handle _ _ => { s.put handle none with lastFailure := none }
  | _ => { s with lastFailure := none }

theorem vacated_of_creation (s : Session) {r : Request} {c : Creation}
    (h : r.creation? explain = some c) :
    s.vacated r = { s.put c.handle none with lastFailure := none } := by
  cases r with
  | create handle initial memory =>
    cases h
    rfl
  | createFrom handle text memory =>
    cases h
    rfl
  | _ => cases h

theorem serve_creation_eq_fail {s : Session} {r : Request} {c : Creation} {f : Failure}
    (hc : r.creation? explain = some c)
    (h : s.createWith c.handle c.entryPoint c.tuning c.memory =
      .ok (fail { s.put c.handle none with lastFailure := none } c.entryPoint f (.created false))) :
    ∃ context, r.entryPoint? = some context ∧
      s.serve explain r = .ok ((s.vacated r).fail context f r.refusal) := by
  refine ⟨c.entryPoint, Request.entryPoint_of_creation hc, ?_⟩
  rw [serve_eq_createWith s hc, h, vacated_of_creation s hc, Request.refusal_of_creation hc]

/-- A failure is told to the host and kept with the name of its entry point. -/
theorem Fails.serve {s : Session} {r : Request} {f : Failure} (h : s.Fails explain r f) :
    ∃ context, r.entryPoint? = some context ∧
      s.serve explain r = .ok ((s.vacated r).fail context f r.refusal) := by
  cases h with
  | notUtf8 h =>
    refine serve_creation_eq_fail rfl ?_
    simp only [readConfig, h, createWith]
  | notConfig hutf8 h =>
    refine serve_creation_eq_fail rfl ?_
    simp only [readConfig, hutf8, h, createWith, Except.mapError]
  | @invalid _ c config cause hc htuning h =>
    refine serve_creation_eq_fail hc ?_
    have herror : Balancer.create c.memory Tables.single config = .error (.invalid cause) := by
      rw [Balancer.create, h]
      rfl
    simp only [createWith, htuning, herror]
  | allocation hc htuning hvalid h =>
    refine serve_creation_eq_fail hc ?_
    simp only [createWith, htuning, Balancer.create_eq_allocation hvalid h]
  | noBalancer h =>
    refine ⟨_, rfl, ?_⟩
    simp only [Session.serve, h]
    rfl
  | negative hb h =>
    refine ⟨_, rfl, ?_⟩
    simp only [Session.serve, hb, readCadence_eq, h]
    rfl
  | @zero _ skip fft correlation b hb hcounts h =>
    refine ⟨_, rfl, ?_⟩
    have hnone : b.configure ⟨skip.toNat, fft.toNat, correlation.toNat⟩ =
        .error (.integration ⟨skip.toNat, fft.toNat, correlation.toNat⟩) := by
      rcases b.configure_cases ⟨skip.toNat, fft.toNat, correlation.toNat⟩ with
        ⟨hvalid, -⟩ | ⟨-, herror⟩
      · obtain ⟨hskip, hfft, hcorrelation⟩ := Cadence.isValid_iff.mp hvalid
        simp only at hskip hfft hcorrelation
        omega
      · exact herror
    simp only [Session.serve, hb, readCadence_eq, hcounts, hnone]
    rfl

/-! ### The texts of failures -/

theorem zeroFree_of_mem_buffers {config : Config Float32} {b : Buffer} (h : b ∈ config.buffers) :
    Text.ZeroFree b.name := by
  have hnames : ∀ name ∈ ["corr", "corr_plus", "boost", "fft scratch", "raw_phases",
      "raw_amplitudes"], Text.ZeroFree name := by decide
  exact hnames _ (List.mem_map_of_mem (f := Buffer.name) h)

theorem zeroFree_of_mem_counts {skip fft correlation : Int} {count : String × Int}
    (h : count ∈ counts skip fft correlation) : Text.ZeroFree count.1 := by
  have hnames : ∀ name ∈ ["buffers_to_skip", "fft_integration", "correlation_integration"],
      Text.ZeroFree name := by decide
  exact hnames _ (List.mem_map_of_mem (f := Prod.fst) h)

theorem zeroFree_of_entryPoint {r : Request} {context : String} (h : r.entryPoint? = some context) :
    Text.ZeroFree context := by
  cases r with
  | create => cases h; decide
  | createFrom => cases h; decide
  | configure => cases h; decide
  | _ => cases h

/-- If what the reader of JSON says has no zero, then no failure's message has one. -/
theorem Fails.zeroFree_message {s : Session} {r : Request} {f : Failure} (h : s.Fails explain r f)
    (hexplain : ∀ text, Text.ZeroFree (explain text)) : Text.ZeroFree f.message := by
  refine Failure.zeroFree_message fun quote hquote => ?_
  cases h with
  | notConfig hutf8 h =>
    rw [List.mem_singleton.mp hquote]
    exact hexplain _
  | allocation hc htuning hvalid h =>
    rw [List.mem_singleton.mp hquote]
    exact zeroFree_of_mem_buffers (Allocator.buffer_mem_of_error h)
  | negative hb h =>
    rw [List.mem_singleton.mp hquote]
    exact zeroFree_of_mem_counts (List.mem_of_find?_eq_some h)
  | _ => cases hquote

/-! ### Requests -/

/-- How a request can go when nothing faults: the session after it, and what the host is told. -/
inductive Serves (explain : Explanation) (s : Session) : Request → Session → Reply → Prop
  | created {r : Request} {c : Creation} {config : Config Float32} {b : Balancer Float32}
      (hc : r.creation? explain = some c) (htuning : c.tuning = .ok config)
      (hb : Balancer.create c.memory Tables.single config = .ok b) :
      Serves explain s r ((s.vacated r).put c.handle (some b)) (.created true)
  | failed {r : Request} {context : String} {f : Failure} (hcontext : r.entryPoint? = some context)
      (h : s.Fails explain r f) :
      Serves explain s r { s.vacated r with lastFailure := some (failureText context f) } r.refusal
  | configured {handle : Handle} {skip fft correlation : Int} {b after : Balancer Float32}
      (hb : s.balancers handle = some b) (hskip : 0 < skip) (hfft : 0 < fft)
      (hcorrelation : 0 < correlation)
      (h : b.call (.configure ⟨skip.toNat, fft.toNat, correlation.toNat⟩) =
        .ok (after, .configured true)) :
      Serves explain s (.configure handle skip fft correlation)
        (put { s with lastFailure := none } handle (some after)) (.configured true)
  | destroyed {handle : Handle} : Serves explain s (.destroy handle) (s.put handle none) .destroyed
  | retuned {handle : Handle} {w : Float32} {b : Balancer Float32}
      (hb : s.balancers handle = some b) :
      Serves explain s (.setOptimalPoint handle w) (s.put handle (some (b.setOptimalPoint w)))
        .nothing
  | notRetuned {handle : Handle} {w : Float32} (hb : s.balancers handle = none) :
      Serves explain s (.setOptimalPoint handle w) s .nothing
  | processed {handle : Handle} {samples block : Block Float32} {length : Nat}
      {b after : Balancer Float32} {outcome : Outcome Float32} (hb : s.balancers handle = some b)
      (hlength : length ≠ 0)
      (h : b.call (.process (samples.take length)) = .ok (after, .processed block outcome)) :
      Serves explain s (.process handle (some samples) length) (s.put handle (some after))
        (.buffer (some (block ++ samples.drop length)))
  | untouched {handle : Handle} {buffer : Option (Block Float32)} {length : Nat}
      (h : buffer = none ∨ length = 0 ∨ s.balancers handle = none) :
      Serves explain s (.process handle buffer length) s (.buffer buffer)
  | answered {r : Request} {reply : Reply} (h : r.isQuestion) : Serves explain s r s reply

theorem Fails.exists_served {s : Session} {r : Request} {f : Failure} (h : s.Fails explain r f) :
    ∃ served, s.serve explain r = .ok served ∧ s.Serves explain r served.session served.reply := by
  obtain ⟨context, hcontext, hserve⟩ := h.serve
  exact ⟨_, hserve, .failed hcontext h⟩

/-- A block goes to the balancer behind its handle, if there is one and the block has samples. -/
theorem serve_process_cases (s : Session) (handle : Handle) (buffer : Option (Block Float32))
    (length : Nat) :
    ((buffer = none ∨ length = 0 ∨ s.balancers handle = none) ∧
      s.serve explain (.process handle buffer length) = .ok ⟨s, .buffer buffer, []⟩) ∨
    ∃ samples b, buffer = some samples ∧ length ≠ 0 ∧ s.balancers handle = some b ∧
      s.serve explain (.process handle buffer length) =
        (b.process (samples.take length)).map fun done =>
          ⟨s.put handle (some done.balancer), .buffer (some (done.block ++ samples.drop length)),
            (LogLine.ofOutcome? done.outcome).toList⟩ := by
  cases buffer with
  | none => exact .inl ⟨.inl rfl, rfl⟩
  | some samples =>
    cases hb : s.balancers handle with
    | none =>
      refine .inl ⟨.inr (.inr rfl), ?_⟩
      simp only [serve, hb]
    | some b =>
      by_cases hlength : length = 0
      · refine .inl ⟨.inr (.inl hlength), ?_⟩
        simp only [serve, hb, if_pos hlength]
      · refine .inr ⟨samples, b, rfl, hlength, rfl, ?_⟩
        simp only [serve, hb, if_neg hlength]
        rfl

theorem serve_creation_cases (s : Session) {r : Request} {c : Creation}
    (hc : r.creation? explain = some c) :
    ∃ served, s.serve explain r = .ok served ∧ s.Serves explain r served.session served.reply := by
  cases htuning : c.tuning with
  | error f => exact (fails_of_tuning s hc htuning).exists_served
  | ok config =>
    rcases Balancer.create_cases c.memory config with
      ⟨b, hb⟩ | ⟨cause, hvalid, -⟩ | ⟨size, cause, hvalid, hmemory, -⟩
    · refine ⟨⟨(s.vacated r).put c.handle (some b), .created true, [.created b]⟩, ?_,
        .created hc htuning hb⟩
      rw [serve_eq_createWith s hc]
      simp only [createWith, htuning, hb, vacated_of_creation s hc]
    · exact (Fails.invalid hc htuning hvalid).exists_served
    · exact (Fails.allocation hc htuning hvalid hmemory).exists_served

theorem serve_configure_cases (s : Session) (handle : Handle) (skip fft correlation : Int) :
    ∃ served, s.serve explain (.configure handle skip fft correlation) = .ok served ∧
      s.Serves explain (.configure handle skip fft correlation) served.session served.reply := by
  cases hb : s.balancers handle with
  | none => exact (Fails.noBalancer hb).exists_served
  | some b =>
    cases hcounts : (counts skip fft correlation).find? (·.2 < 0) with
    | some count => exact (Fails.negative hb hcounts).exists_served
    | none =>
      by_cases hzero : skip = 0 ∨ fft = 0 ∨ correlation = 0
      · exact (Fails.zero hb hcounts hzero).exists_served
      · obtain ⟨hskip, hfft, hcorrelation⟩ : 0 < skip ∧ 0 < fft ∧ 0 < correlation := by
          have hnonneg := find_counts_eq_none_iff.mp hcounts
          omega
        have hvalid : Cadence.isValid ⟨skip.toNat, fft.toNat, correlation.toNat⟩ :=
          Cadence.isValid_iff.mpr
            ⟨Int.lt_toNat.mpr hskip, Int.lt_toNat.mpr hfft, Int.lt_toNat.mpr hcorrelation⟩
        obtain ⟨after, hok⟩ : ∃ after,
            b.configure ⟨skip.toNat, fft.toNat, correlation.toNat⟩ = .ok after := by
          rcases b.configure_cases ⟨skip.toNat, fft.toNat, correlation.toNat⟩ with
            ⟨-, hok⟩ | ⟨hinvalid, -⟩
          · exact ⟨_, hok⟩
          · exact absurd hvalid hinvalid
        have hcall : b.call (.configure ⟨skip.toNat, fft.toNat, correlation.toNat⟩) =
            .ok (after, .configured true) := by
          rw [Balancer.call, hok]
        refine ⟨⟨put { s with lastFailure := none } handle (some after), .configured true, []⟩, ?_,
          .configured hb hskip hfft hcorrelation hcall⟩
        simp only [serve, hb, readCadence_eq, hcounts, hok]

/-- A request is served, unless it is a block that the balancer behind its handle faults on. -/
theorem serve_cases (s : Session) (r : Request) :
    (∃ served, s.serve explain r = .ok served ∧ s.Serves explain r served.session served.reply) ∨
      ∃ handle samples length b fault, r = .process handle (some samples) length ∧ length ≠ 0 ∧
        s.balancers handle = some b ∧ b.call (.process (samples.take length)) = .error fault ∧
        s.serve explain r = .error fault := by
  cases r with
  | create handle initial memory => exact .inl (s.serve_creation_cases rfl)
  | createFrom handle text memory => exact .inl (s.serve_creation_cases rfl)
  | configure handle skip fft correlation =>
    exact .inl (s.serve_configure_cases handle skip fft correlation)
  | destroy handle => exact .inl ⟨_, rfl, .destroyed⟩
  | setOptimalPoint handle w =>
    cases hb : s.balancers handle with
    | none =>
      refine .inl ⟨⟨s, .nothing, []⟩, ?_, .notRetuned hb⟩
      simp only [serve, hb]
    | some b =>
      refine .inl ⟨⟨s.put handle (some (b.setOptimalPoint w)), .nothing,
        [.retuned w (b.setOptimalPoint w)]⟩, ?_, .retuned hb⟩
      simp only [serve, hb]
  | process handle buffer length =>
    rcases s.serve_process_cases handle buffer length with
      ⟨huntouched, hserve⟩ | ⟨samples, b, rfl, hlength, hb, hserve⟩
    · exact .inl ⟨_, hserve, .untouched huntouched⟩
    · cases hprocess : b.process (samples.take length) with
      | error fault =>
        refine .inr ⟨handle, samples, length, b, fault, rfl, hlength, hb, ?_, ?_⟩
        · rw [Balancer.call, hprocess]
          rfl
        · rw [hserve, hprocess]
          rfl
      | ok done =>
        rw [hprocess] at hserve
        have hcall : b.call (.process (samples.take length)) =
            .ok (done.balancer, .processed done.block done.outcome) := by
          rw [Balancer.call, hprocess]
          rfl
        exact .inl ⟨_, hserve, .processed hb hlength hcall⟩
  | phase handle => exact .inl ⟨_, rfl, .answered rfl⟩
  | amplitude handle => exact .inl ⟨_, rfl, .answered rfl⟩
  | state handle => exact .inl ⟨_, rfl, .answered rfl⟩
  | lastFailure => exact .inl ⟨_, rfl, .answered rfl⟩

theorem serves_of_serve {s : Session} {r : Request} {served : Served}
    (h : s.serve explain r = .ok served) : s.Serves explain r served.session served.reply := by
  rcases s.serve_cases r with ⟨_, hserve, hserves⟩ | ⟨_, _, _, _, _, _, _, _, _, hfault⟩
  · cases h.symm.trans hserve
    exact hserves
  · cases h.symm.trans hfault

/-- A cadence is accepted if there is a balancer and every count is positive. -/
theorem serve_configure (s : Session) (handle : Handle) (skip fft correlation : Int) :
    ∃ served accepted, s.serve explain (.configure handle skip fft correlation) = .ok served ∧
      served.reply = .configured accepted ∧
      (accepted ↔ s.balancers handle ≠ none ∧ 0 < skip ∧ 0 < fft ∧ 0 < correlation) := by
  obtain ⟨served, hserve, hserves⟩ := s.serve_configure_cases handle skip fft correlation
  refine ⟨served, ?_⟩
  generalize served.session = after, served.reply = reply at hserves
  cases hserves with
  | configured hb hskip hfft hcorrelation =>
    refine ⟨true, hserve, rfl, ?_⟩
    simp [hb, hskip, hfft, hcorrelation]
  | failed _ hf =>
    refine ⟨false, hserve, rfl, ?_⟩
    simp only [Bool.false_eq_true, false_iff]
    rintro ⟨hb, hskip, hfft, hcorrelation⟩
    cases hf with
    | noBalancer h => exact hb h
    | negative _ h =>
      have hnone := find_counts_eq_none_iff.mpr ⟨hskip.le, hfft.le, hcorrelation.le⟩
      cases hnone.symm.trans h
    | zero _ _ h => omega
    | invalid hc => cases hc
    | allocation hc => cases hc
  | created hc => cases hc
  | answered hquestion => cases hquestion

/-- A balancer is created unless there is no tuning, the tuning is not accepted or one of its
buffers cannot be had. -/
theorem serve_creation (s : Session) {r : Request} {c : Creation}
    (hc : r.creation? explain = some c) :
    ∃ served success, s.serve explain r = .ok served ∧ served.reply = .created success ∧
      (success = false ↔ (∃ f, c.tuning = .error f) ∨
        ∃ config, c.tuning = .ok config ∧
          ((∃ cause, config.validate = .error cause) ∨
            ∃ buffer ∈ config.buffers, ¬ c.memory.Grants buffer)) := by
  obtain ⟨served, hserve, hserves⟩ := s.serve_creation_cases hc
  refine ⟨served, ?_⟩
  generalize served.session = after, served.reply = reply at hserves
  cases hserves with
  | @created _ c' config b hc' htuning hb =>
    cases hc.symm.trans hc'
    refine ⟨true, hserve, rfl, ?_⟩
    obtain ⟨size, hvalid, hgrants⟩ := Balancer.grants_of_create hb
    simpa [htuning, hvalid] using hgrants
  | failed _ hf =>
    refine ⟨false, hserve, Request.refusal_of_creation hc, iff_of_true rfl ?_⟩
    cases hf with
    | notUtf8 h =>
      cases hc
      exact .inl ⟨_, by simp only [readConfig, h]; rfl⟩
    | notConfig hutf8 h =>
      cases hc
      exact .inl ⟨_, by simp only [readConfig, hutf8, h]; rfl⟩
    | invalid hc' htuning h =>
      cases hc.symm.trans hc'
      exact .inr ⟨_, htuning, .inl ⟨_, h⟩⟩
    | allocation hc' htuning _ h =>
      cases hc.symm.trans hc'
      obtain ⟨buffer, hmem, hnot⟩ := Allocator.exists_not_grants_of_error h
      exact .inr ⟨_, htuning, .inr ⟨buffer, hmem, hnot⟩⟩
    | _ => cases hc
  | answered hquestion =>
    cases r with
    | create => cases hquestion
    | createFrom => cases hquestion
    | _ => cases hc
  | _ => cases hc

/-- Whether a request that may fail did, and what is kept of it. -/
theorem lastFailure_of_serve {s : Session} {r : Request} {served : Served} {context : String}
    (h : s.serve explain r = .ok served) (hcontext : r.entryPoint? = some context) :
    (served.reply = r.refusal ∧ ∃ f, s.Fails explain r f ∧
        served.session.lastFailure = some (failureText context f)) ∨
      (served.reply ≠ r.refusal ∧ (∀ f, ¬ s.Fails explain r f) ∧
        served.session.lastFailure = none) := by
  by_cases hfails : ∃ f, s.Fails explain r f
  · obtain ⟨f, hf⟩ := hfails
    obtain ⟨_, hcontext', hserve⟩ := hf.serve
    cases hcontext.symm.trans hcontext'
    cases h.symm.trans hserve
    exact .inl ⟨rfl, f, hf, rfl⟩
  · refine .inr ?_
    have hnone : ∀ f, ¬ s.Fails explain r f := fun f hf => hfails ⟨f, hf⟩
    have hserves := serves_of_serve h
    generalize served.session = after, served.reply = reply at hserves ⊢
    cases hserves with
    | created hc =>
      refine ⟨?_, hnone, ?_⟩
      · rw [Request.refusal_of_creation hc]
        nofun
      · rw [vacated_of_creation s hc]
        rfl
    | failed _ hf => exact absurd hf (hnone _)
    | configured => exact ⟨nofun, hnone, rfl⟩
    | answered hquestion =>
      cases r with
      | create => cases hquestion
      | createFrom => cases hquestion
      | configure => cases hquestion
      | _ => cases hcontext
    | _ => cases hcontext

/-- Every other request leaves alone what is kept of the last failure. -/
theorem lastFailure_of_no_entryPoint {s : Session} {r : Request} {served : Served}
    (h : s.serve explain r = .ok served) (hother : r.entryPoint? = none) :
    served.session.lastFailure = s.lastFailure := by
  have hserves := serves_of_serve h
  generalize served.session = after, served.reply = reply at hserves ⊢
  cases hserves with
  | created hc => cases hother.symm.trans (Request.entryPoint_of_creation hc)
  | failed hcontext => cases hother.symm.trans hcontext
  | configured => cases hother
  | _ => rfl

end Session

end IqBalance
