import IqBalance.Proofs.Session.Requests

/-!
A session simulates the engine, whatever the host asks for.

A `Life` is a tuning, the memory it is given and calls on the engine that it
creates; `Life.of` reads one off what a host asked for and was told. Blocks that
are missing or empty and cadences that were turned down are no calls. Every
request leaves each handle with the engine that its life leads to
(`Mirrors.serves`), so every sequence does (`mirrors_of_serveAll`). The text of
the last failure follows from the last request that may fail, since no other
touches it (`lastFailure_of_serveAll`), and it is told in full if what the
reader of JSON says can be handed over (`zeroFree_of_serveAll`).
-/

namespace IqBalance

/-- What became of a balancer: the tuning and the memory that it was created with, and the calls
since. -/
structure Life where
  config : Config Float32
  memory : Allocator
  calls : List (Call Float32)

namespace Life

/-- The engine that a life leads to, and its answers. -/
def run (life : Life) :
    Except (Refusal Float32) (Balancer Float32 × List (Answer Float32)) := do
  let b ← Balancer.create life.memory Tables.single life.config
  (b.run life.calls).mapError .fault

/-- The life with one more call. -/
def add (life : Life) (c : Call Float32) : Life := { life with calls := life.calls ++ [c] }

/-- The life behind a request's handle after the request, given what the host was told. -/
def after (explain : Explanation) (life : Option Life) : Request → Reply → Option Life
  | .create _ initial memory, .created true => some ⟨.startingAt initial, memory, []⟩
  | .createFrom _ text memory, .created true =>
    (Session.readConfig explain text).toOption.map (⟨·, memory, []⟩)
  | .create _ _ _, _ | .createFrom _ _ _, _ | .destroy _, _ => none
  | .setOptimalPoint _ w, _ => life.map (·.add (.setOptimalPoint w))
  | .configure _ skip fft correlation, .configured true =>
    life.map (·.add (.configure ⟨skip.toNat, fft.toNat, correlation.toNat⟩))
  | .process _ (some samples) length, _ =>
    if length = 0 then life else life.map (·.add (.process (samples.take length)))
  | _, _ => life

end Life

/-- The handle that a request is about. -/
def Request.handle? : Request → Option Handle
  | .create handle _ _ | .createFrom handle _ _ | .destroy handle | .setOptimalPoint handle _
  | .configure handle _ _ _ | .process handle _ _ | .phase handle | .amplitude handle
  | .state handle => some handle
  | .lastFailure => none

/-- The life behind a handle after one more request. -/
def Life.step (explain : Explanation) (handle : Handle) (life : Option Life)
    (exchange : Request × Reply) : Option Life :=
  if exchange.1.handle? = some handle then Life.after explain life exchange.1 exchange.2 else life

/-- The life behind a handle after requests and their replies, in a session that began without
balancers. -/
def Life.of (explain : Explanation) (handle : Handle) (exchanges : List (Request × Reply)) :
    Option Life :=
  exchanges.foldl (Life.step explain handle) none

/-- The engine behind a handle is the one that the life leads to. -/
inductive Mirrors : Option Life → Option (Balancer Float32) → Prop
  | absent : Mirrors none none
  | present {life : Life} {b : Balancer Float32} {answers : List (Answer Float32)}
      (h : life.run = .ok (b, answers)) : Mirrors (some life) (some b)

/-! ### One more call -/

theorem Balancer.run_concat_of_ok {α : Type} [Scalar α] {b next : Balancer α}
    {calls : List (Call α)} {earlier : List (Answer α)} (h : b.run calls = .ok (next, earlier))
    (c : Call α) :
    b.run (calls ++ [c]) =
      (next.call c).map fun result => (result.1, earlier ++ [result.2]) := by
  cases hcall : next.call c with
  | ok result =>
    exact run_concat_eq_ok_iff.mpr ⟨next, earlier, result.2, h, hcall, rfl⟩
  | error fault =>
    induction calls generalizing b earlier with
    | nil =>
      cases h
      rw [List.nil_append, run, hcall]
      rfl
    | cons first rest ih =>
      obtain ⟨mid, answer, later, hfirst, hrest, -⟩ := run_cons_eq_ok_iff.mp h
      rw [List.cons_append, run, hfirst]
      simp only [bind, Except.bind, ih hrest]
      rfl

theorem Life.run_add {life : Life} {b : Balancer Float32} {answers : List (Answer Float32)}
    (h : life.run = .ok (b, answers)) (c : Call Float32) :
    (life.add c).run =
      ((b.call c).map fun result => (result.1, answers ++ [result.2])).mapError .fault := by
  obtain ⟨b₀, hcreate, hrun⟩ := bind_eq_ok_iff.mp h
  rw [mapError_eq_ok_iff] at hrun
  rw [Life.run, add, hcreate]
  exact congrArg (Except.mapError Refusal.fault) (Balancer.run_concat_of_ok hrun c)

namespace Mirrors

variable {life : Option Life} {b after : Balancer Float32}

theorem created {config : Config Float32} {memory : Allocator}
    (h : Balancer.create memory Tables.single config = .ok b) :
    Mirrors (some ⟨config, memory, []⟩) (some b) :=
  .present (bind_eq_ok_iff.mpr ⟨b, h, rfl⟩)

theorem call (h : Mirrors life (some b)) {c : Call Float32} {answer : Answer Float32}
    (hcall : b.call c = .ok (after, answer)) : Mirrors (life.map (·.add c)) (some after) := by
  cases h with
  | @present life _ answers h =>
    have hrun : (life.add c).run = .ok (after, answers ++ [answer]) := by
      rw [Life.run_add h, hcall]
      rfl
    exact .present hrun

theorem eq_none_iff {engine : Option (Balancer Float32)} (h : Mirrors life engine) :
    life = none ↔ engine = none := by
  cases h <;> simp

theorem exists_run {life : Life} {engine : Option (Balancer Float32)}
    (h : Mirrors (some life) engine) :
    ∃ b answers, engine = some b ∧ life.run = .ok (b, answers) := by
  cases h with
  | present h => exact ⟨_, _, rfl, h⟩

end Mirrors

/-! ### One more request -/

namespace Session

variable {explain : Explanation}

theorem put_balancers_self (s : Session) (handle : Handle) (b : Option (Balancer Float32)) :
    (s.put handle b).balancers handle = b :=
  if_pos rfl

theorem put_balancers_of_ne (s : Session) {handle other : Handle} (h : handle ≠ other)
    (b : Option (Balancer Float32)) : (s.put handle b).balancers other = s.balancers other :=
  if_neg h.symm

theorem handle_of_creation {r : Request} {c : Creation} (h : r.creation? explain = some c) :
    r.handle? = some c.handle := by
  cases r with
  | create handle initial memory =>
    cases h
    rfl
  | createFrom handle text memory =>
    cases h
    rfl
  | _ => cases h

/-- A request leaves the balancers behind other handles alone. -/
theorem Serves.balancers_of_ne {s after : Session} {r : Request} {reply : Reply}
    (h : s.Serves explain r after reply) {handle : Handle} (hne : r.handle? ≠ some handle) :
    after.balancers handle = s.balancers handle := by
  have hvacated : (s.vacated r).balancers handle = s.balancers handle := by
    cases r with
    | create => exact put_balancers_of_ne s (fun heq => hne (congrArg some heq)) none
    | createFrom => exact put_balancers_of_ne s (fun heq => hne (congrArg some heq)) none
    | _ => rfl
  cases h with
  | @created _ c _ _ hc =>
    have hother : c.handle ≠ handle := fun heq =>
      hne ((handle_of_creation hc).trans (congrArg some heq))
    exact (put_balancers_of_ne _ hother _).trans hvacated
  | failed => exact hvacated
  | configured => exact put_balancers_of_ne _ (fun heq => hne (congrArg some heq)) _
  | destroyed => exact put_balancers_of_ne _ (fun heq => hne (congrArg some heq)) _
  | retuned => exact put_balancers_of_ne _ (fun heq => hne (congrArg some heq)) _
  | processed => exact put_balancers_of_ne _ (fun heq => hne (congrArg some heq)) _
  | notRetuned => rfl
  | untouched => rfl
  | answered => rfl

theorem after_created {r : Request} {c : Creation} {config : Config Float32}
    (hc : r.creation? explain = some c) (htuning : c.tuning = .ok config) (life : Option Life) :
    Life.after explain life r (.created true) = some ⟨config, c.memory, []⟩ := by
  cases r with
  | create handle initial memory =>
    cases hc
    cases htuning
    rfl
  | createFrom handle text memory =>
    cases hc
    simp only at htuning
    rw [Life.after, htuning]
    rfl
  | _ => cases hc

/-- Behind the handle of a request is the engine that the life so far, and the request, lead to. -/
theorem Mirrors.serves_self {s after : Session} {r : Request} {reply : Reply} {life : Option Life}
    {handle : Handle} (h : s.Serves explain r after reply) (hhandle : r.handle? = some handle)
    (hlife : Mirrors life (s.balancers handle)) :
    Mirrors (Life.after explain life r reply) (after.balancers handle) := by
  cases h with
  | created hc htuning hb =>
    cases hhandle.symm.trans (handle_of_creation hc)
    rw [put_balancers_self, after_created hc htuning]
    exact .created hb
  | failed hcontext =>
    -- A balancer that was to be made anew is gone even so; a cadence leaves it as it was.
    cases r with
    | create handle initial memory =>
      cases hhandle
      have hgone : (s.put handle none).balancers handle = none := s.put_balancers_self handle none
      exact hgone ▸ .absent
    | createFrom handle text memory =>
      cases hhandle
      have hgone : (s.put handle none).balancers handle = none := s.put_balancers_self handle none
      exact hgone ▸ .absent
    | configure => exact hlife
    | _ => cases hcontext
  | configured hb _ _ _ hcall =>
    cases hhandle
    rw [put_balancers_self]
    exact (hb ▸ hlife).call hcall
  | destroyed =>
    cases hhandle
    rw [put_balancers_self]
    exact .absent
  | retuned hb =>
    cases hhandle
    rw [put_balancers_self]
    exact (hb ▸ hlife).call rfl
  | notRetuned hb =>
    cases hhandle
    rw [hb] at hlife ⊢
    cases hlife
    exact .absent
  | processed hb hlength hcall =>
    cases hhandle
    rw [put_balancers_self, Life.after, if_neg hlength]
    exact (hb ▸ hlife).call hcall
  | @untouched _ buffer length h =>
    cases hhandle
    have hafter :
        Life.after explain life (.process handle buffer length) (.buffer buffer) = life := by
      rcases h with rfl | rfl | hb
      · rfl
      · cases buffer <;> rfl
      · rw [hb] at hlife
        cases hlife
        cases buffer with
        | none => rfl
        | some samples => exact ite_self none
    exact hafter.symm ▸ hlife
  | answered hquestion =>
    cases r with
    | phase => exact hlife
    | amplitude => exact hlife
    | state => exact hlife
    | lastFailure => cases hhandle
    | _ => cases hquestion

theorem Mirrors.serves {s after : Session} {r : Request} {reply : Reply} {life : Option Life}
    {handle : Handle} (h : s.Serves explain r after reply)
    (hlife : Mirrors life (s.balancers handle)) :
    Mirrors (Life.step explain handle life (r, reply)) (after.balancers handle) := by
  by_cases hhandle : r.handle? = some handle
  · rw [Life.step, if_pos hhandle]
    exact Mirrors.serves_self h hhandle hlife
  · rw [Life.step, if_neg hhandle, h.balancers_of_ne hhandle]
    exact hlife

/-! ### Any number of requests -/

/-- Serve requests in order. -/
def serveAll (explain : Explanation) (s : Session) :
    List Request → Except Fault (Session × List Reply)
  | [] => .ok (s, [])
  | r :: rest => do
    let served ← s.serve explain r
    let (s, replies) ← served.session.serveAll explain rest
    return (s, served.reply :: replies)

theorem serveAll_cons_eq_ok_iff {s after : Session} {r : Request} {rest : List Request}
    {replies : List Reply} :
    s.serveAll explain (r :: rest) = .ok (after, replies) ↔
      ∃ served later, s.serve explain r = .ok served ∧
        served.session.serveAll explain rest = .ok (after, later) ∧
        replies = served.reply :: later := by
  constructor
  · intro h
    obtain ⟨served, hserve, h⟩ := bind_eq_ok_iff.mp h
    obtain ⟨⟨last, later⟩, hrest, hlast⟩ := bind_eq_ok_iff.mp h
    cases hlast
    exact ⟨served, later, hserve, hrest, rfl⟩
  · rintro ⟨served, later, hserve, hrest, rfl⟩
    exact bind_eq_ok_iff.mpr ⟨_, hserve, bind_eq_ok_iff.mpr ⟨_, hrest, rfl⟩⟩

theorem serveAll_append {s after : Session} {requests rest : List Request} {replies : List Reply}
    (h : s.serveAll explain (requests ++ rest) = .ok (after, replies)) :
    ∃ mid told later, s.serveAll explain requests = .ok (mid, told) ∧
      mid.serveAll explain rest = .ok (after, later) ∧ replies = told ++ later := by
  induction requests generalizing s replies with
  | nil => exact ⟨s, [], replies, rfl, h, rfl⟩
  | cons r requests ih =>
    obtain ⟨served, _, hserve, hall, rfl⟩ := serveAll_cons_eq_ok_iff.mp h
    obtain ⟨mid, told, later, hfirst, hrest, rfl⟩ := ih hall
    exact ⟨mid, served.reply :: told, later,
      serveAll_cons_eq_ok_iff.mpr ⟨served, told, hserve, hfirst, rfl⟩, hrest, rfl⟩

/-- Lives that agree with a session agree with it after any requests. -/
theorem mirrors_of_serveAll {s after : Session} {requests : List Request} {replies : List Reply}
    (h : s.serveAll explain requests = .ok (after, replies)) {handle : Handle} {life : Option Life}
    (hlife : Mirrors life (s.balancers handle)) :
    Mirrors ((requests.zip replies).foldl (Life.step explain handle) life)
      (after.balancers handle) := by
  induction requests generalizing s replies life with
  | nil =>
    cases h
    exact hlife
  | cons r rest ih =>
    obtain ⟨served, later, hserve, hrest, rfl⟩ := serveAll_cons_eq_ok_iff.mp h
    exact ih hrest (Mirrors.serves (serves_of_serve hserve) hlife)

theorem lastFailure_of_serveAll {s after : Session} {requests : List Request}
    {replies : List Reply} (h : s.serveAll explain requests = .ok (after, replies))
    (hother : ∀ r ∈ requests, r.entryPoint? = none) : after.lastFailure = s.lastFailure := by
  induction requests generalizing s replies with
  | nil =>
    cases h
    rfl
  | cons r rest ih =>
    obtain ⟨served, later, hserve, hrest, rfl⟩ := serveAll_cons_eq_ok_iff.mp h
    exact (ih hrest fun r hr => hother r (List.mem_cons_of_mem _ hr)).trans
      (lastFailure_of_no_entryPoint hserve (hother r List.mem_cons_self))

/-- If what the reader of JSON says has no zero, then no text that is kept has one. -/
theorem zeroFree_of_serveAll {s after : Session} {requests : List Request} {replies : List Reply}
    (h : s.serveAll explain requests = .ok (after, replies))
    (hexplain : ∀ text, Text.ZeroFree (explain text))
    (hs : ∀ text ∈ s.lastFailure, Text.ZeroFree text) :
    ∀ text ∈ after.lastFailure, Text.ZeroFree text := by
  induction requests generalizing s replies with
  | nil =>
    cases h
    exact hs
  | cons r rest ih =>
    obtain ⟨served, later, hserve, hrest, rfl⟩ := serveAll_cons_eq_ok_iff.mp h
    refine ih hrest fun text htext => ?_
    cases hcontext : r.entryPoint? with
    | none => exact hs text (lastFailure_of_no_entryPoint hserve hcontext ▸ htext)
    | some context =>
      rcases lastFailure_of_serve hserve hcontext with ⟨-, f, hf, hkept⟩ | ⟨-, -, hkept⟩
      · rw [hkept] at htext
        cases htext
        exact Text.zeroFree_append_iff.mpr ⟨Text.zeroFree_append_iff.mpr
          ⟨zeroFree_of_entryPoint hcontext, by decide⟩, hf.zeroFree_message hexplain⟩
      · rw [hkept] at htext
        cases htext

/-- How a session stands to the engines behind its handles, and how it goes on, after requests
that were answered by `replies`. -/
structure Simulates (explain : Explanation) (s : Session) (requests : List Request)
    (replies : List Reply) : Prop where
  /-- Behind each handle is the engine that its life leads to, or none. -/
  balancers : ∀ handle, Mirrors (Life.of explain handle (requests.zip replies)) (s.balancers handle)
  /-- A block comes back as that engine puts it out. -/
  processed : ∀ handle samples length life served,
    Life.of explain handle (requests.zip replies) = some life → length ≠ 0 →
    s.serve explain (.process handle (some samples) length) = .ok served →
      ∃ b answers block outcome,
        (life.add (.process (samples.take length))).run =
          .ok (b, answers ++ [.processed block outcome]) ∧
        served.reply = .buffer (some (block ++ samples.drop length))
  /-- The session faults where that engine does, and nowhere else. -/
  faults : ∀ r fault, s.serve explain r = .error fault ↔
    ∃ handle samples length life, r = .process handle (some samples) length ∧ length ≠ 0 ∧
      Life.of explain handle (requests.zip replies) = some life ∧
      (life.add (.process (samples.take length))).run = .error (.fault fault)
  /-- A block that is missing or empty, or has no engine to go to, changes nothing. -/
  untouched : ∀ handle buffer length,
    buffer = none ∨ length = 0 ∨ Life.of explain handle (requests.zip replies) = none →
    s.serve explain (.process handle buffer length) = .ok ⟨s, .buffer buffer, []⟩
  /-- A cadence that is turned down changes no engine. -/
  turnedDown : ∀ r served, s.serve explain r = .ok served → served.reply = .configured false →
    served.session.balancers = s.balancers
  /-- A cadence is accepted if there is an engine and every count is positive. -/
  configured : ∀ handle skip fft correlation, ∃ served accepted,
    s.serve explain (.configure handle skip fft correlation) = .ok served ∧
    served.reply = .configured accepted ∧
    (accepted ↔ Life.of explain handle (requests.zip replies) ≠ none ∧ 0 < skip ∧ 0 < fft ∧
      0 < correlation)
  /-- A balancer is created unless there is no tuning, the tuning is not accepted or one of its
  buffers cannot be had. -/
  created : ∀ r c, r.creation? explain = some c → ∃ served success, s.serve explain r = .ok served ∧
    served.reply = .created success ∧
    (success = false ↔ (∃ f, c.tuning = .error f) ∨
      ∃ config, c.tuning = .ok config ∧
        ((∃ cause, config.validate = .error cause) ∨
          ∃ buffer ∈ config.buffers, ¬ c.memory.Grants buffer))
  /-- As long as nothing was asked for that may fail, no failure is kept. -/
  noFailure : (∀ r ∈ requests, r.entryPoint? = none) → s.lastFailure = none
  /-- After that, what is kept is how the last such request failed, if it did. -/
  lastFailure : ∀ earlier r later context, requests = earlier ++ r :: later →
    r.entryPoint? = some context → (∀ other ∈ later, other.entryPoint? = none) →
    ∃ before served told rest, start.serveAll explain earlier = .ok (before, told) ∧
      before.serve explain r = .ok served ∧ replies = told ++ served.reply :: rest ∧
      ((served.reply = r.refusal ∧ ∃ f, before.Fails explain r f ∧
          s.lastFailure = some (context ++ ": " ++ f.message)) ∨
        (served.reply ≠ r.refusal ∧ (∀ f, ¬ before.Fails explain r f) ∧ s.lastFailure = none))
  /-- The host is told what is kept, if what the reader of JSON says has no zero. -/
  told : (∀ text, Text.ZeroFree (explain text)) →
    s.serve explain .lastFailure = .ok ⟨s, .text s.lastFailure, []⟩
  /-- A snapshot of an engine is told in full. -/
  snapshot : ∀ handle, s.serve explain (.state handle) =
    .ok ⟨s, .text ((s.balancers handle).map (·.state.toJson.render)), []⟩

namespace Simulates

variable {s : Session} {handle : Handle} {life : Life} {b : Balancer Float32}
  {answers : List (Answer Float32)}

theorem processed_of_mirrors (hb : s.balancers handle = some b) (hrun : life.run = .ok (b, answers))
    {samples : Block Float32} {length : Nat} {served : Served} (hlength : length ≠ 0)
    (h : s.serve explain (.process handle (some samples) length) = .ok served) :
    ∃ after block outcome,
      (life.add (.process (samples.take length))).run =
        .ok (after, answers ++ [.processed block outcome]) ∧
      served.reply = .buffer (some (block ++ samples.drop length)) := by
  have hserves := serves_of_serve h
  generalize served.session = after, served.reply = reply at hserves ⊢
  cases hserves with
  | @processed _ _ block _ _ after outcome hb' _ hcall =>
    cases hb.symm.trans hb'
    refine ⟨after, block, outcome, ?_, rfl⟩
    rw [Life.run_add hrun, hcall]
    rfl
  | untouched huntouched =>
    rcases huntouched with hnone | hzero | hnone
    · cases hnone
    · exact absurd hzero hlength
    · cases hb.symm.trans hnone
  | created hc => cases hc
  | failed hcontext => cases hcontext
  | answered hquestion => cases hquestion

theorem serve_eq_error_iff (hb : s.balancers handle = some b) (hrun : life.run = .ok (b, answers))
    {samples : Block Float32} {length : Nat} {fault : Fault} (hlength : length ≠ 0) :
    s.serve explain (.process handle (some samples) length) = .error fault ↔
      (life.add (.process (samples.take length))).run = .error (.fault fault) := by
  rw [Life.run_add hrun, Balancer.call]
  rcases s.serve_process_cases handle (some samples) length with
    ⟨hnone | hzero | hnone, -⟩ | ⟨_, _, hsamples, -, hb', hserve⟩
  · cases hnone
  · exact absurd hzero hlength
  · cases hb.symm.trans hnone
  · cases hb.symm.trans hb'
    cases hsamples
    rw [hserve]
    cases b.process (samples.take length) with
    | ok done =>
      constructor
      · intro h
        cases h
      · intro h
        cases h
    | error fault' =>
      constructor
      · intro h
        cases h
        rfl
      · intro h
        cases h
        rfl

theorem balancers_of_turnedDown {r : Request} {served : Served} (h : s.serve explain r = .ok served)
    (hreply : served.reply = .configured false) : served.session.balancers = s.balancers := by
  have hserves := serves_of_serve h
  generalize served.session = after, served.reply = reply at hserves hreply ⊢
  cases hserves with
  | failed =>
    cases r with
    | configure => rfl
    | _ => cases hreply
  | notRetuned => rfl
  | untouched => rfl
  | answered => rfl
  | _ => cases hreply

end Simulates

/-- A session simulates the engine: whatever the host asked for, behind any handles. -/
theorem simulates_of_serveAll {requests : List Request} {s : Session} {replies : List Reply}
    (h : start.serveAll explain requests = .ok (s, replies)) :
    s.Simulates explain requests replies := by
  have hmirrors : ∀ handle,
      Mirrors (Life.of explain handle (requests.zip replies)) (s.balancers handle) :=
    fun handle => mirrors_of_serveAll h .absent
  have hpresent : ∀ {handle life}, Life.of explain handle (requests.zip replies) = some life →
      ∃ b answers, s.balancers handle = some b ∧ life.run = .ok (b, answers) :=
    fun {handle life} hlife => (hlife ▸ hmirrors handle).exists_run
  constructor
  case balancers => exact hmirrors
  case told =>
    intro hexplain
    have hkept := zeroFree_of_serveAll h hexplain nofun
    rw [serve]
    cases htext : s.lastFailure with
    | none => rfl
    | some text => rw [Option.bind_some, Text.handedOver_of_zeroFree (hkept text htext)]
  case snapshot =>
    intro handle
    rw [serve]
    cases s.balancers handle with
    | none => rfl
    | some b =>
      rw [Option.bind_some, Text.handedOver_of_zeroFree b.state.zeroFree_render, Option.map_some]
  case processed =>
    intro handle samples length life served hlife hlength hserve
    obtain ⟨b, answers, hb, hrun⟩ := hpresent hlife
    obtain ⟨after, block, outcome, hprocessed⟩ :=
      Simulates.processed_of_mirrors hb hrun hlength hserve
    exact ⟨after, answers, block, outcome, hprocessed⟩
  case faults =>
    intro r fault
    constructor
    · intro hfault
      rcases s.serve_cases r with
        ⟨_, hserve, -⟩ | ⟨handle, samples, length, b, _, rfl, hlength, hb, -, hserve⟩
      · cases hfault.symm.trans hserve
      · cases hfault.symm.trans hserve
        have hlive := hmirrors handle
        rw [hb] at hlive
        cases hlife : Life.of explain handle (requests.zip replies) with
        | none =>
          rw [hlife] at hlive
          cases hlive
        | some life =>
          obtain ⟨b', answers, hb', hrun⟩ := hpresent hlife
          exact ⟨handle, samples, length, life, rfl, hlength, hlife,
            (Simulates.serve_eq_error_iff hb' hrun hlength).mp hserve⟩
    · rintro ⟨handle, samples, length, life, rfl, hlength, hlife, hfault⟩
      obtain ⟨b, answers, hb, hrun⟩ := hpresent hlife
      exact (Simulates.serve_eq_error_iff hb hrun hlength).mpr hfault
  case untouched =>
    intro handle buffer length huntouched
    rw [(hmirrors handle).eq_none_iff] at huntouched
    rcases s.serve_process_cases handle buffer length with
      ⟨-, hserve⟩ | ⟨samples, b, hsamples, hlength, hb, -⟩
    · exact hserve
    · rcases huntouched with hnone | hzero | hnone
      · cases hnone.symm.trans hsamples
      · exact absurd hzero hlength
      · cases hnone.symm.trans hb
  case turnedDown => exact fun r served => Simulates.balancers_of_turnedDown
  case configured =>
    intro handle skip fft correlation
    rw [Ne, (hmirrors handle).eq_none_iff]
    exact s.serve_configure handle skip fft correlation
  case created => exact fun r c => s.serve_creation
  case noFailure => exact lastFailure_of_serveAll h
  case lastFailure =>
    rintro earlier r later context rfl hcontext hother
    obtain ⟨before, told, _, hearlier, hrest, rfl⟩ := serveAll_append h
    obtain ⟨served, rest, hserve, hlater, rfl⟩ := serveAll_cons_eq_ok_iff.mp hrest
    refine ⟨before, served, told, rest, hearlier, hserve, rfl, ?_⟩
    rw [lastFailure_of_serveAll hlater hother]
    exact lastFailure_of_serve hserve hcontext

/-- A host without memory for one of the buffers, a cadence that is turned down and a text that is
no tuning, then an empty block and a retuning: the engine was only retuned, and the host is told
what the reader of JSON said. -/
theorem simulates_of_refused_requests :
    let explain : Explanation := fun _ => "EOF while parsing an object at line 1 column 1"
    let initial : Correction Float32 := ⟨0.5, 0.25⟩
    let block : Block Float32 := Array.replicate 4 ⟨1, 0⟩
    let requests := [.create 5 initial fun buffer => buffer.name ≠ "boost",
      .create 7 initial .ample, .configure 7 (-1) 1 1, .createFrom 3 (some [0x7B]) .ample,
      .process 7 (some block) 0, .setOptimalPoint 7 0.25]
    let replies := [.created false, .created true, .configured false, .created false,
      .buffer (some block), .nothing]
    let life : Life := ⟨.startingAt initial, .ample, [.setOptimalPoint 0.25]⟩
    ∃ s, start.serveAll explain requests = .ok (s, replies) ∧
      (∃ b answers, s.balancers 7 = some b ∧ life.run = .ok (b, answers)) ∧
      s.serve explain .lastFailure =
        .ok ⟨s, .text (some ("iqb_balancer_create_with_config: Invalid parameter: config JSON: " ++
          "EOF while parsing an object at line 1 column 1")), []⟩ := by
  intro explain initial block requests replies life
  have hvalid : (Config.startingAt initial).validate = .ok { log2 := 10 } :=
    Config.validate_eq_ok_iff.mpr { Config.validate_eq_ok_iff.mp Config.validate_standard with
      initial := by decide +kernel }
  have hboost : Allocator.reserveAll (fun buffer => buffer.name ≠ "boost")
      (Config.startingAt initial).buffers = .error ⟨⟨"boost", 1024, 4⟩, .allocatorRefused⟩ := by
    decide
  have hrefused := Balancer.create_eq_allocation hvalid hboost
  obtain ⟨b, hb⟩ := Balancer.exists_create Tables.single
    (Config.validate_eq_ok_iff.mp hvalid).clampsOrdered hvalid
    (show ∀ buffer ∈ Config.standard.buffers, Allocator.ample.Grants buffer by decide)
  have hread : readConfig explain (some [0x7B]) = .error (.notConfig (explain [0x7B])) := by
    have hnone : (Config.ofJson [0x7B]).toOption.isNone := by decide +kernel
    have heq : readConfig explain (some [0x7B]) =
        (Config.ofJson [0x7B]).mapError fun _ => .notConfig (explain [0x7B]) := rfl
    cases hjson : Config.ofJson [0x7B] with
    | ok config =>
      rw [hjson] at hnone
      cases hnone
    | error cause =>
      rw [heq, hjson]
      rfl
  have htext : failureText "iqb_balancer_create_with_config" (.notConfig (explain [0x7B])) =
      "iqb_balancer_create_with_config: Invalid parameter: config JSON: " ++
        "EOF while parsing an object at line 1 column 1" := by
    decide +kernel
  obtain ⟨s, hserved, hkept⟩ : ∃ s, start.serveAll explain requests = .ok (s, replies) ∧
      s.lastFailure =
        some (failureText "iqb_balancer_create_with_config" (.notConfig (explain [0x7B]))) := by
    simp only [requests, serveAll, serve, createWith, hread, hrefused, hb, bind, Except.bind, pure,
      Except.pure]
    exact ⟨_, rfl, rfl⟩
  have hsimulates := simulates_of_serveAll hserved
  refine ⟨s, hserved, (hsimulates.balancers 7).exists_run, ?_⟩
  rw [hsimulates.told fun _ => by decide, hkept, htext]

end Session

end IqBalance
