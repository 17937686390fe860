import PrimeServer.Server.Responses
import PrimeServer.Server.Revocation
import PrimeServer.Service.System

/-!
# The answers of a service

What the work functions of the stages, one after the other, make of the text of a request is the answer of
the service. Whatever happens in between, and in whatever order, a client gets no other response to a request
that was sent on, except that the request has timed out.

## Main results

* `Service.responses_of_run`: this holds in every run whose steps are `Proper`. What `Proper` assumes of the
  sends, the keys and the work functions is listed there.
-/

namespace PrimeServer

open Transition

variable {σ ρ ι : Type} {π : Protocol σ ρ ι}

/-- The work functions of the stages. What the server reads of the request info they leave as it is. -/
structure WorkFunctions (layout : InfoLayout π) where
  /-- The work function of a stage. -/
  stage : ℕ → WorkFunction
  /-- It leaves the fields that the server reads. -/
  keeps : ∀ {i info frames result left}, (stage i).Returns info frames result left →
    layout.read left = layout.read info

/-- What the stages from one on may make of a job: the request info that is left, and the text of the
answer. -/
inductive WorkFunctions.Answers {layout : InfoLayout π} (works : WorkFunctions layout) :
    ℕ → Frame → List Frame → Frame → Bytes → Prop where
  /-- The stage answers. -/
  | final {i : ℕ} {info left body : Frame} {frames later : List Frame} {result : WorkResult}
      (hreturns : (works.stage i).Returns info frames result left) (hfinal : result.intermediate = false)
      (hmessages : result.messages = body :: later) : Answers works i info frames left body
  /-- The stage passes the job on, and a later one answers. -/
  | intermediate {i : ℕ} {info left last body : Frame} {frames : List Frame} {result : WorkResult}
      (hreturns : (works.stage i).Returns info frames result left)
      (hintermediate : result.intermediate = true)
      (hlater : Answers works (i + 1) left result.messages last body) :
      Answers works i info frames last body

/-- The text is what the stages may make of a request. -/
def WorkFunctions.Answer {layout : InfoLayout π} (works : WorkFunctions layout) (p : Posted ρ ι)
    (response : Bytes) : Prop :=
  ∃ text last, π.toString p.request = some text ∧ works.Answers 0 (layout.bytes p.info) [text] last response

/-! ### The server -/

namespace Machine

variable {config : ServerConfig ρ} {m t : Machine σ ρ ι}

/-- What is known of the server between the steps of a run whose inputs are `Reasonable`. -/
structure Reliable (m : Machine σ ρ ι) : Prop where
  /-- What the books say agrees with what was done. -/
  tracked : Tracked m.server m.wire
  /-- The session that `enqueue` works on is there. -/
  holdsSession : m.HoldsSession
  /-- No key was accepted for two requests. -/
  acceptedOnce : AcceptedOnce m.wire

/-- A server that has just started is reliable. -/
theorem reliable_start : (start : Machine σ ρ ι).Reliable where
  tracked := tracked_start
  holdsSession := trivial
  acceptedOnce _ _ _ hc := by simp [start] at hc

/-- The conditions for one step of the server. A run of a service asks them of each of its steps, as a part of
`Service.Proper`. -/
structure Reasonable (π : Protocol σ ρ ι) (config : ServerConfig ρ) (m : Machine σ ρ ι)
    (input : ServerInput ι) : Prop where
  /-- No send of the response or of the closing frame throws, no client connects or disconnects twice, and no
  key is accepted twice. -/
  assumed : m.Assumed π input
  /-- A health check that closes the session is the last request of its message, as `enqueue` would go on with
  a session that is no longer there. -/
  closesLast : m.ClosesLast π config input
  /-- The session that a response closes is there. -/
  findsSession : m.FindsSession π config input

/-- Whether an input is reasonable is decidable. -/
instance (input : ServerInput ι) : Decidable (m.Reasonable π config input) :=
  decidable_of_iff (m.Assumed π input ∧ m.ClosesLast π config input ∧ m.FindsSession π config input)
    ⟨fun h => ⟨h.1, h.2.1, h.2.2⟩, fun h => ⟨h.assumed, h.closesLast, h.findsSession⟩⟩

/-- What the delivery of responses asks for is among what is assumed. -/
theorem Reasonable.met {input : ServerInput ι} (h : m.Reasonable π config input) :
    (deliveryConditions π).Met π config m input := by
  refine ⟨?_, ?_, ?_, fun _ _ => trivial⟩
  · rintro client rejection rfl
    exact h.assumed
  · rintro client parsed rest now info text sends hcontrol rfl
    exact h.assumed.2 _ (by simp [nextKey, hcontrol])
  · exact fun call hcall => ⟨h.assumed.returned hcall, h.findsSession call hcall⟩

/-- One step with a reasonable input leaves the server reliable. -/
theorem Reliable.step (h : m.Reliable) {input : ServerInput ι} (hinput : m.Reasonable π config input)
    (hstep : m.step π config input = some t) : t.Reliable where
  tracked := tracked_step h.tracked hinput.assumed hinput.findsSession hstep
  holdsSession := (holdsSession_step_iff h.holdsSession hstep).mpr hinput.closesLast
  acceptedOnce := keepsBooks_acceptedOnce.step hinput.met h.acceptedOnce hstep

/-- A request that is sent on is sent on whole: when the proxy socket takes the info frame, `to_string` does not
throw, and the socket takes the frame with the text, too. Otherwise the info would be left in front of the next
message. -/
def Whole (π : Protocol σ ρ ι) (config : ServerConfig ρ) (m : Machine σ ρ ι) (input : ServerInput ι) :
    Prop :=
  ∀ post ∈ m.posts π config input, post.2.1 = .accepted →
    (π.toString post.1.request).isSome ∧ post.2.2 = .accepted

/-- Whether a request reaches the proxy whole can be read off the input. -/
instance (input : ServerInput ι) : Decidable (m.Whole π config input) :=
  inferInstanceAs (Decidable (∀ post ∈ m.posts π config input, post.2.1 = .accepted →
    (π.toString post.1.request).isSome ∧ post.2.2 = .accepted))

/-- The round of `enqueue` that tries to send on a request. -/
theorem of_posts {input : ServerInput ι} {p : Posted ρ ι} {info text : SendResult}
    (hposts : m.posts π config input = some (p, info, text)) :
    ∃ rest now sends, m.control = .enqueueing p.client (p.request :: rest) ∧
      config.healthCheckMatcher p.request = some false ∧
      p.info = π.toInfo p.request m.server.requestId now ∧ input = .next now info text sends := by
  cases input with
  | next now infoSent textSent sends =>
    simp only [posts] at hposts
    split at hposts
    case h_1 client parsed rest hcontrol =>
      split_ifs at hposts with hmatch
      obtain ⟨rfl, rfl, rfl⟩ := by simpa using hposts
      exact ⟨rest, now, sends, hcontrol, hmatch, rfl, rfl⟩
    case h_2 => cases hposts
  | result | message | disconnect | timeouts | expire => cases hposts

end Machine

namespace Service

variable {layout : InfoLayout π} {works : WorkFunctions layout} {config : ServerConfig ρ}
  {s t : Service σ ρ ι}

/-! ### Jobs and results on their way -/

/-- A job of a stage is for a request: whatever the stages from there on make of the job, the stages may
make of the request. -/
def JobFor (works : WorkFunctions layout) (posted : List (Posted ρ ι)) (number i : ℕ) (info : Frame)
    (frames : List Frame) : Prop :=
  ∃ p text, posted[number]? = some p ∧ π.toString p.request = some text ∧ layout.read info = p.info ∧
    ∀ last body, works.Answers i info frames last body →
      works.Answers 0 (layout.bytes p.info) [text] last body

/-- A result is what the stages may make of a request. -/
def ResultFor (works : WorkFunctions layout) (posted : List (Posted ρ ι)) (number : ℕ) (last : Frame)
    (body : Bytes) : Prop :=
  ∃ p text, posted[number]? = some p ∧ π.toString p.request = some text ∧ layout.read last = p.info ∧
    works.Answers 0 (layout.bytes p.info) [text] last body

/-- A request that has been posted stays where it is in the list. -/
theorem getElem?_concat_of_eq_some {posted : List (Posted ρ ι)} {number : ℕ} {p : Posted ρ ι}
    (h : posted[number]? = some p) (q : Posted ρ ι) : (posted ++ [q])[number]? = some p := by
  rw [List.getElem?_append_left (List.getElem?_eq_some_iff.mp h).1]
  exact h

/-- A job stays the job for its request when more requests are posted. -/
theorem JobFor.concat {posted : List (Posted ρ ι)} {number i : ℕ} {info : Frame} {frames : List Frame}
    (h : JobFor works posted number i info frames) (q : Posted ρ ι) :
    JobFor works (posted ++ [q]) number i info frames := by
  obtain ⟨p, text, hp, hrest⟩ := h
  exact ⟨p, text, getElem?_concat_of_eq_some hp q, hrest⟩

/-- A result stays the result for its request when more requests are posted. -/
theorem ResultFor.concat {posted : List (Posted ρ ι)} {number : ℕ} {last : Frame} {body : Bytes}
    (h : ResultFor works posted number last body) (q : Posted ρ ι) :
    ResultFor works (posted ++ [q]) number last body := by
  obtain ⟨p, text, hp, hrest⟩ := h
  exact ⟨p, text, getElem?_concat_of_eq_some hp q, hrest⟩

/-- The message of a worker for a job of a request is for the same request. -/
theorem JobFor.carries {posted : List (Posted ρ ι)} {number i : ℕ} {job : Job}
    (h : JobFor works posted number i job.info job.frames) {m : SentOn}
    (hm : m.Carries (works.stage i) job) :
    (m.loopback = false → ∃ info frames, m.frames = info :: frames ∧
      JobFor works posted number (i + 1) info frames) ∧
    (m.loopback = true → ∃ last body, m.frames = [last, body] ∧ ResultFor works posted number last body) := by
  obtain ⟨p, text, hp, htext, hread, hanswers⟩ := h
  cases hm with
  | @intermediate _ result left hreturns hintermediate =>
    refine ⟨fun _ => ⟨left, result.messages, rfl, p, text, hp, htext, ?_, ?_⟩, fun h => (by cases h)⟩
    · rw [works.keeps hreturns, hread]
    · exact fun last body hlater => hanswers last body (.intermediate hreturns hintermediate hlater)
  | @final _ result left body later hreturns hfinal hmessages =>
    refine ⟨fun h => (by cases h), fun _ => ⟨left, body, rfl, p, text, hp, htext, ?_, ?_⟩⟩
    · rw [works.keeps hreturns, hread]
    · exact hanswers left body (.final hreturns hfinal hmessages)

/-- All that is on its way is for a request that was sent on. -/
structure Sound (works : WorkFunctions layout) (s : Service σ ρ ι) : Prop where
  /-- No message to the first proxy was left without its last part. -/
  unsent : s.unsent = []
  /-- The messages to the proxies are jobs for their requests. -/
  underway : ∀ i, ∀ m ∈ s.underway i, ∃ info frames, m.2 = info :: frames ∧
    JobFor works s.posted m.1 i info frames
  /-- The jobs that a stage was given are for their requests. -/
  jobs : ∀ i number job, (s.stages i).submitted[number]? = some job →
    JobFor works s.posted (s.origin i number) i job.info job.frames
  /-- The messages to the server are results for their requests. -/
  loopback : ∀ m ∈ s.loopback, ∃ last body, m.2 = [last, body] ∧ ResultFor works s.posted m.1 last body

/-- Before the first event there is no job and no result. -/
theorem sound_start (heartBeat : ℕ → Frame → Frame) :
    (start heartBeat : Service σ ρ ι).Sound works where
  unsent := rfl
  underway _ _ hm := by simp [start] at hm
  jobs _ _ _ hjob := by simp [start, Workshop.start] at hjob
  loopback _ hm := by simp [start] at hm

/-- A new request is on its way to the first stage. -/
theorem Sound.post (h : s.Sound works) {p : Posted ρ ι} {info text : SendResult}
    (hinfo : layout.read (layout.bytes p.info) = p.info)
    (hwhole : info = .accepted → (π.toString p.request).isSome ∧ text = .accepted) :
    (s.post layout p info text).Sound works := by
  cases info with
  | again | threw => exact h
  | accepted =>
    obtain ⟨htext, rfl⟩ := hwhole rfl
    obtain ⟨body, hbody⟩ := Option.isSome_iff_exists.mp htext
    simp only [Service.post, hbody, h.unsent, List.nil_append]
    refine
      { unsent := rfl
        underway := ?hunderway
        jobs := fun i number job hjob => (h.jobs i number job hjob).concat p
        loopback := ?hloopback }
    case hunderway =>
      intro i m hm
      -- what was on its way before
      have hold : ∀ m ∈ s.underway i, ∃ info frames, m.2 = info :: frames ∧
          JobFor works (s.posted ++ [p]) m.1 i info frames := by
        intro m hm
        obtain ⟨info, frames, hframes, hfor⟩ := h.underway i m hm
        exact ⟨info, frames, hframes, hfor.concat p⟩
      by_cases hi : i = 0
      · subst hi
        simp only [Function.update_self, List.mem_append, List.mem_singleton] at hm
        rcases hm with hm | rfl
        · exact hold m hm
        · exact ⟨_, _, rfl, p, body, List.getElem?_concat_length, hbody, hinfo, fun _ _ => id⟩
      · simp only [Function.update_of_ne hi] at hm
        exact hold m hm
    case hloopback =>
      intro m hm
      obtain ⟨last, body, hframes, hfor⟩ := h.loopback m hm
      exact ⟨last, body, hframes, hfor.concat p⟩

/-- A stage goes on without a new job. -/
theorem Sound.advance (h : s.Sound works) {stage : ℕ} {workshop : Workshop}
    (hcontent : workshop.Content (works.stage stage))
    (hsubmitted : workshop.submitted = (s.stages stage).submitted) :
    (s.advance stage workshop).Sound works := by
  -- what was sent carries what was made of a job, and so of its request
  have hsent : ∀ m ∈ workshop.sent.drop (s.stages stage).sent.length, ∃ job,
      m.Carries (works.stage stage) job ∧
        JobFor works s.posted (s.origin stage m.job) stage job.info job.frames := by
    intro m hm
    obtain ⟨job, hjob, hcarries⟩ := hcontent.sent m (List.mem_of_mem_drop hm)
    exact ⟨job, hcarries, h.jobs stage m.job job (hsubmitted ▸ hjob)⟩
  refine { unsent := h.unsent, underway := ?hunderway, jobs := ?hjobs, loopback := ?hloopback }
  case hunderway =>
    intro i m hm
    by_cases hi : i = stage + 1
    · subst hi
      simp only [Service.advance, Function.update_self, List.mem_append, List.mem_map, List.mem_filter,
        Bool.not_eq_eq_eq_not, Bool.not_true] at hm
      rcases hm with hm | ⟨m', ⟨hm', hloopback⟩, rfl⟩
      · exact h.underway _ m hm
      · obtain ⟨job, hcarries, hfor⟩ := hsent m' hm'
        exact (hfor.carries hcarries).1 hloopback
    · simp only [Service.advance, Function.update_of_ne hi] at hm
      exact h.underway i m hm
  case hjobs =>
    intro i number job hjob
    by_cases hi : i = stage
    · subst hi
      simp only [Service.advance, Function.update_self, hsubmitted] at hjob
      exact h.jobs i number job hjob
    · simp only [Service.advance, Function.update_of_ne hi] at hjob
      exact h.jobs i number job hjob
  case hloopback =>
    intro m hm
    simp only [Service.advance, List.mem_append, List.mem_map, List.mem_filter] at hm
    rcases hm with hm | ⟨m', ⟨hm', hloopback⟩, rfl⟩
    · exact h.loopback m hm
    · obtain ⟨job, hcarries, hfor⟩ := hsent m' hm'
      exact (hfor.carries hcarries).2 hloopback

/-- A message that arrives at a proxy was underway to it. -/
theorem mem_of_arriving {stage k number : ℕ} {upstream : Frame} {job : Job}
    (h : s.arriving stage k upstream = some (number, job)) :
    (number, job.info :: job.frames) ∈ s.underway stage := by
  unfold arriving at h
  split at h
  case h_1 number' info frames hmessage =>
    obtain ⟨rfl, rfl⟩ := by simpa using h
    exact List.mem_of_getElem? hmessage
  case h_2 => cases h

/-- A result that arrives at the server was on the loopback. -/
theorem mem_of_arrived {k number : ℕ} {sends : DequeueSends} {input : ServerInput ι}
    (h : s.arrived layout k sends = some (number, input)) :
    ∃ last frames, (number, last :: frames) ∈ s.loopback ∧
      input = .result (layout.read last) ((last :: frames).getLast (List.cons_ne_nil _ _)) sends := by
  unfold arrived at h
  split at h
  case h_1 number' last frames hmessage =>
    obtain ⟨rfl, rfl⟩ := by simpa using h
    exact ⟨last, frames, List.mem_of_getElem? hmessage, rfl⟩
  case h_2 => cases h

/-- A message arrives at the proxy of a stage. -/
theorem Sound.deliver (h : s.Sound works) {stage k number : ℕ} {upstream : Frame} {job : Job}
    {workshop : Workshop} (harriving : s.arriving stage k upstream = some (number, job))
    (hsubmitted : workshop.submitted = (s.stages stage).submitted ++ [job]) :
    Sound works
      { s with
        underway := Function.update s.underway stage ((s.underway stage).eraseIdx k)
        stages := Function.update s.stages stage workshop
        origin :=
          Function.update s.origin stage
            (Function.update (s.origin stage) (s.stages stage).submitted.length number) } := by
  refine { unsent := h.unsent, underway := ?hunderway, jobs := ?hjobs, loopback := h.loopback }
  case hunderway =>
    intro i m hm
    apply h.underway i m
    by_cases hi : i = stage
    · subst hi
      simp only [Function.update_self] at hm
      exact List.mem_of_mem_eraseIdx hm
    · simpa only [Function.update_of_ne hi] using hm
  case hjobs =>
    intro i j job' hjob'
    by_cases hi : i = stage
    · subst hi
      simp only [Function.update_self, hsubmitted] at hjob' ⊢
      by_cases hj : j = (s.stages i).submitted.length
      · -- the job that has just come
        subst hj
        rw [List.getElem?_concat_length] at hjob'
        obtain rfl := Option.some.inj hjob'
        rw [Function.update_self]
        obtain ⟨info, frames, hframes, hfor⟩ := h.underway i _ (mem_of_arriving harriving)
        obtain ⟨rfl, rfl⟩ := List.cons.inj hframes
        exact hfor
      · rw [Function.update_of_ne hj]
        -- a job that was there before
        have hlt : j < (s.stages i).submitted.length := by
          have hlt := (List.getElem?_eq_some_iff.mp hjob').1
          simp only [List.length_append, List.length_singleton] at hlt
          omega
        rw [List.getElem?_append_left hlt] at hjob'
        exact h.jobs i j job' hjob'
    · simp only [Function.update_of_ne hi] at hjob' ⊢
      exact h.jobs i j job' hjob'

/-! ### Steps -/

/-- What is asked of a step.

* Of what the server does, by itself or with a result that it receives, that it is `Machine.Reasonable`: no send
  of a response or of a closing frame throws, no client connects or disconnects twice, no key is accepted twice,
  a health check that closes its session is the last request of its message, and a session that is closed is
  there.
* Of the requests that it sends on, that the proxy takes both frames or none (`Machine.Whole`).
* Of the work functions, that they return what they may. An intermediate result then has a message, as the one
  to the next proxy would otherwise stay open.

Nothing is asked of what the proxies choose, of the heartbeats, of the interrupts and of the order of the
steps. The channels between the parties lose nothing (`Workshop`). -/
def Proper (works : WorkFunctions layout) (config : ServerConfig ρ) (s : Service σ ρ ι) :
    Event ι → Prop
  | .server input => s.machine.Reasonable π config input ∧ s.machine.Whole π config input
  | .receive k sends =>
    ∀ arrived ∈ s.arrived layout k sends, s.machine.Reasonable π config arrived.2
  | .work stage event => (s.stages stage).Returns (works.stage stage) event
  | .deliver _ _ _ | .interrupt _ _ _ => True

/-- Whether an event is proper is decidable where it is for the work functions. -/
instance [∀ i info frames result left, Decidable ((works.stage i).Returns info frames result left)] :
    (event : Event ι) → Decidable (s.Proper works config event)
  | .server input =>
    inferInstanceAs (Decidable (s.machine.Reasonable π config input ∧ s.machine.Whole π config input))
  | .receive k sends =>
    inferInstanceAs (Decidable
      (∀ arrived ∈ s.arrived layout k sends, s.machine.Reasonable π config arrived.2))
  | .work stage event => inferInstanceAs (Decidable ((s.stages stage).Returns (works.stage stage) event))
  | .deliver _ _ _ | .interrupt _ _ _ => isTrue trivial

/-- What a proper event gives the server is reasonable. -/
theorem Proper.reasonable {event : Event ι} (h : s.Proper works config event) :
    ∀ input ∈ s.serverInput layout event, s.machine.Reasonable π config input := by
  intro input hinput
  cases event with
  | server input' =>
    obtain rfl := Option.some.inj hinput
    exact h.1
  | receive k sends =>
    obtain ⟨arrived, harrived, rfl⟩ := Option.map_eq_some_iff.mp hinput
    exact h arrived harrived
  | deliver | work | interrupt => cases hinput

/-- What a proper event gives a stage returns what its work function may return. -/
theorem Proper.returns {event : Event ι} (h : s.Proper works config event) (i : ℕ) :
    ∀ input ∈ stageInput i s event, (s.stages i).Returns (works.stage i) input := by
  intro input hinput
  cases event with
  | server | receive => cases hinput
  | deliver stage k upstream =>
    simp only [stageInput, Option.mem_def] at hinput
    split_ifs at hinput
    obtain ⟨arriving, -, rfl⟩ := Option.map_eq_some_iff.mp hinput
    trivial
  | work stage event =>
    simp only [stageInput, Option.mem_def] at hinput
    split_ifs at hinput with hi
    obtain rfl := Option.some.inj hinput
    subst hi
    exact h
  | interrupt stage w key =>
    simp only [stageInput, Option.mem_def] at hinput
    split_ifs at hinput
    obtain rfl := Option.some.inj hinput
    trivial

/-- In a service, the server is reliable. -/
theorem reliable_of_run {heartBeat : ℕ → Frame → Frame} {events : List (Event ι)}
    (hproper : StepsMeet (step layout config) (start heartBeat) events (Proper works config))
    (hrun : run (step layout config) (start heartBeat) events = some s) : s.machine.Reliable :=
  machine_isComponent.invariant Machine.reliable_start (fun _ _ _ h hinput hstep => h.step hinput hstep)
    (hproper.imp fun _ _ h => h.reasonable) hrun

/-- In a service, the content of jobs and messages is what it is in a stage alone. -/
theorem content_of_run {heartBeat : ℕ → Frame → Frame} {events : List (Event ι)}
    (hproper : StepsMeet (step layout config) (start heartBeat) events (Proper works config))
    (hrun : run (step layout config) (start heartBeat) events = some s) (i : ℕ) :
    (s.stages i).Content (works.stage i) :=
  (stage_isComponent i).invariant (P := fun stage => stage.Content (works.stage i))
    (Workshop.content_start _ (heartBeat i)) (fun _ _ _ h hinput hstep => h.step hinput hstep)
    (hproper.imp fun _ _ h => h.returns i) hrun

/-- An event of a stage other than a new job. -/
theorem submitted_of_internal {event : Workshop.Event} (h : event.internal = true) (job : Job) :
    event ≠ .submit job := by
  rintro rfl
  cases h

/-- One proper event keeps every job and every result sound. -/
theorem Sound.step (h : s.Sound works) (hbefore : ∀ i, (s.stages i).Content (works.stage i))
    (hafter : ∀ i, (t.stages i).Content (works.stage i)) {event : Event ι}
    (hproper : s.Proper works config event) (hstep : s.step layout config event = some t) :
    t.Sound works := by
  cases event with
  | server input =>
    obtain ⟨machine, -, rfl⟩ := step_server hstep
    unfold serve
    split
    case h_1 => exact { h with }
    case h_2 p info text hposts =>
      obtain ⟨rest, now, sends, -, -, hinfo, -⟩ := Machine.of_posts hposts
      -- the first proxy is given the info that the server has made
      have hread : layout.read (layout.bytes p.info) = p.info := by rw [hinfo, layout.read_bytes]
      exact { h.post hread (hproper.2 _ hposts) with }
  | deliver stage k upstream =>
    obtain ⟨number, job, workshop, harriving, hworkshop, rfl⟩ := step_deliver hstep
    obtain rfl := Option.some.inj hworkshop
    exact h.deliver harriving rfl
  | work stage event =>
    obtain ⟨hinternal, workshop, hworkshop, rfl⟩ := step_work hstep
    apply h.advance (by simpa [Service.advance] using hafter stage)
    exact Workshop.submitted_of_step (hbefore stage).sound (submitted_of_internal hinternal) hworkshop
  | interrupt stage w key =>
    obtain ⟨-, workshop, hworkshop, rfl⟩ := step_interrupt hstep
    apply h.advance (by simpa [Service.advance] using hafter stage)
    exact Workshop.submitted_of_step (hbefore stage).sound (by simp) hworkshop
  | receive k sends =>
    obtain ⟨number, input, machine, -, -, rfl⟩ := step_receive hstep
    exact { h with loopback := fun m hm => h.loopback m (List.mem_of_mem_eraseIdx hm) }

/-- In every proper run each job is for its request and each result comes of its job. -/
theorem sound_of_run {heartBeat : ℕ → Frame → Frame} {events : List (Event ι)}
    (hproper : StepsMeet (step layout config) (start heartBeat) events (Proper works config))
    (hrun : run (step layout config) (start heartBeat) events = some s) : s.Sound works := by
  refine run_induction (P := fun events s =>
      StepsMeet (step layout config) (start heartBeat) events (Proper works config) → s.Sound works)
    (fun _ => sound_start heartBeat) (fun events s event t hs ih hstep hmeet => ?_) hrun hproper
  have ht : run (step layout config) (start heartBeat) (events ++ [event]) = some t :=
    run_concat_eq_some.mpr ⟨s, hs, hstep⟩
  exact (ih hmeet.init).step (content_of_run hmeet.init hs) (content_of_run hmeet ht) (hmeet.last hs) hstep

/-! ### Responses -/

/-- The time at which `handle_timeouts` is called. -/
def Event.timeoutsAt : Event ι → Option ℕ
  | .server input => input.timeoutsAt
  | .deliver _ _ _ | .work _ _ | .interrupt _ _ _ | .receive _ _ => none

/-- The calls of `handle_timeouts` among the events. -/
theorem mem_timeoutsAt {events : List (Event ι)} {now : ℕ} :
    now ∈ events.filterMap Event.timeoutsAt ↔ .server (.timeouts now) ∈ events := by
  constructor
  · intro h
    obtain ⟨event, hevent, htime⟩ := List.mem_filterMap.mp h
    cases event with
    | server input =>
      cases input with
      | timeouts time =>
        obtain rfl := Option.some.inj htime
        exact hevent
      | result | message | next | disconnect | expire => cases htime
    | deliver | work | interrupt | receive => cases htime
  · exact fun h => List.mem_filterMap.mpr ⟨_, h, rfl⟩

/-- The text is the response for a request that was too old at one of these times. -/
def TimedOut (π : Protocol σ ρ ι) (config : ServerConfig ρ) (times : List ℕ) (key : UInt64) (text : Bytes) :
    Prop :=
  ∃ info, π.key info = key ∧ π.timeout info = text ∧
    ∃ now ∈ times, (π.timeStamp info).toNat < dropDead config now

/-- Where the response for a key comes from. The keys of health checks are not those of requests that were
sent on. -/
inductive ResponseFor (works : WorkFunctions layout) (config : ServerConfig ρ) (times : List ℕ)
    (s : Service σ ρ ι) (key : UInt64) (text : Bytes) : Prop where
  | answer {p : Posted ρ ι} (hp : p ∈ s.posted) (hkey : π.key p.info = key) (hanswer : works.Answer p text)
  | timeout (hold : TimedOut π config times key text)
  | healthCheck {client : Frame} (haccepted : .accepted key client ∈ s.machine.wire)
      (hnot : ∀ p ∈ s.posted, π.key p.info ≠ key) (htext : config.healthCheckResponse = text)

/-- The requests that were sent on are accepted, each under a key of its own, and all responses come from
somewhere. `handle_timeouts` was called at these times. -/
structure Justified (works : WorkFunctions layout) (config : ServerConfig ρ) (times : List ℕ)
    (s : Service σ ρ ι) : Prop where
  /-- `handle_timeouts` works with one of the times. -/
  calledAt : Machine.CalledAt config times s.machine.control
  /-- Each request that was sent on has been put on the books. -/
  accepted : ∀ p ∈ s.posted, .accepted (π.key p.info) p.client ∈ s.machine.wire
  /-- No two of them have one key. -/
  keys : (s.posted.map fun p => π.key p.info).Nodup
  /-- Each response is an answer, a timeout, or the response of a health check. -/
  responses : ∀ key client text result, .response key client text result ∈ s.machine.wire →
    s.ResponseFor works config times key text

/-- Before the first event the server has said nothing. -/
theorem justified_start (times : List ℕ) (heartBeat : ℕ → Frame → Frame) :
    (start heartBeat : Service σ ρ ι).Justified works config times where
  calledAt := trivial
  accepted _ hp := by simp [start] at hp
  keys := List.nodup_nil
  responses _ _ _ _ hresponse := by simp [start, Machine.start] at hresponse

/-- A request is posted exactly when both its frames were sent. -/
theorem post_posted (s : Service σ ρ ι) (p : Posted ρ ι) (info text : SendResult) :
    (s.post layout p info text).posted = s.posted ∨
      (info = .accepted ∧ text = .accepted ∧ π.toString p.request ≠ none ∧
        (s.post layout p info text).posted = s.posted ++ [p]) := by
  cases info with
  | again | threw => exact Or.inl rfl
  | accepted =>
    cases htext : π.toString p.request with
    | none =>
      left
      simp only [post, htext]
    | some body =>
      cases text with
      | again | threw =>
        left
        simp only [post, htext]
      | accepted =>
        refine Or.inr ⟨rfl, rfl, by simp, ?_⟩
        simp only [post, htext]

/-- What was sent on in a step of the server was sent on in a round of `enqueue`. -/
theorem serve_posted (s : Service σ ρ ι) (input : ServerInput ι) (machine : Machine σ ρ ι) :
    (s.serve layout config input machine).posted = s.posted ∨
      ∃ p rest now sends, s.machine.control = .enqueueing p.client (p.request :: rest) ∧
        config.healthCheckMatcher p.request = some false ∧
        p.info = π.toInfo p.request s.machine.server.requestId now ∧
        input = .next now .accepted .accepted sends ∧ π.toString p.request ≠ none ∧
        (s.serve layout config input machine).posted = s.posted ++ [p] := by
  unfold serve
  split
  case h_1 => exact Or.inl rfl
  case h_2 p info text hposts =>
    obtain ⟨rest, now, sends, hcontrol, hmatch, hinfo, rfl⟩ := Machine.of_posts hposts
    refine (post_posted s p info text).imp id ?_
    rintro ⟨rfl, rfl, htext, hposted⟩
    exact ⟨p, rest, now, sends, hcontrol, hmatch, hinfo, rfl, htext, hposted⟩

/-- The infos that are sent on are made of their requests. -/
theorem toInfo_of_run {heartBeat : ℕ → Frame → Frame} {events : List (Event ι)}
    (hrun : run (step layout config) (start heartBeat) events = some s) :
    ∀ p ∈ s.posted, ∃ id now, p.info = π.toInfo p.request id now := by
  refine invariant_of_steps (P := fun s => ∀ p ∈ s.posted, ∃ id now, p.info = π.toInfo p.request id now)
    (fun p hp => by simp [start] at hp) (fun s event t hs hstep p hp => ?_) hrun
  cases event with
  | server input =>
    obtain ⟨machine, -, rfl⟩ := step_server hstep
    rcases serve_posted s input machine with hposted | ⟨q, _, now, _, _, _, hinfo, _, _, hposted⟩
    · exact hs p (hposted ▸ hp)
    · rw [hposted, List.mem_append, List.mem_singleton] at hp
      rcases hp with hp | rfl
      · exact hs p hp
      · exact ⟨_, now, hinfo⟩
  | deliver stage k upstream =>
    obtain ⟨number, job, workshop, -, -, rfl⟩ := step_deliver hstep
    exact hs p hp
  | work stage event =>
    obtain ⟨-, workshop, -, rfl⟩ := step_work hstep
    exact hs p hp
  | interrupt stage w key =>
    obtain ⟨-, workshop, -, rfl⟩ := step_interrupt hstep
    exact hs p hp
  | receive k sends =>
    obtain ⟨number, input, machine, -, -, rfl⟩ := step_receive hstep
    exact hs p hp

/-- What the server sends on and the results that it receives come with responses from somewhere. -/
theorem ResponseFor.mono {times : List ℕ} {key : UInt64} {text : Bytes}
    (h : s.ResponseFor works config times key text)
    (hposted : ∀ p ∈ s.posted, p ∈ t.posted) (hwire : ∀ a ∈ s.machine.wire, a ∈ t.machine.wire)
    (hnew : ∀ p ∈ t.posted, p ∉ s.posted → Unused (π.key p.info) s.machine.wire) :
    t.ResponseFor works config times key text := by
  cases h with
  | answer hp hkey hanswer => exact .answer (hposted _ hp) hkey hanswer
  | timeout hold => exact .timeout hold
  | healthCheck haccepted hnot htext =>
    refine .healthCheck (hwire _ haccepted) (fun p hp => ?_) htext
    by_cases hold : p ∈ s.posted
    · exact hnot p hold
    · -- the key of a new request was not accepted before
      intro hkey
      exact hnew p hp hold _ haccepted (by simp [Action.accepts, hkey])

/-- What the server does without a result answers only health checks and requests that are too old. -/
theorem Justified.serve {times : List ℕ} (h : s.Justified works config times)
    (hreliable : s.machine.Reliable) {input : ServerInput ι} (hinput : input.isResult = false)
    (hreasonable : s.machine.Reasonable π config input) (htimes : ∀ now, input = .timeouts now → now ∈ times)
    {machine : Machine σ ρ ι} (hstep : s.machine.step π config input = some machine) :
    (s.serve layout config input machine).Justified works config times := by
  have hcalled := Machine.calledAt_of_step h.calledAt htimes hstep
  have hwire : ∀ a ∈ s.machine.wire, a ∈ machine.wire := fun a => Machine.mem_wire_of_step hstep
  -- a key that is about to be used is not that of a request that was sent on
  have hunused : ∀ {now info text sends}, input = .next now info text sends → ∀ key,
      s.machine.nextKey π now = some key → Unused key s.machine.wire := by
    rintro now info text sends rfl key hkey
    exact hreasonable.assumed.2 key hkey
  rcases serve_posted s input machine with hposted | ⟨p, rest, now, sends, hcontrol, hmatch, hinfo, rfl,
    htext, hposted⟩
  · refine {
      calledAt := hcalled
      accepted := ?haccepted
      keys := by rw [hposted]; exact h.keys
      responses := ?hresponses }
    case haccepted =>
      intro p hp
      exact hwire _ (h.accepted p (hposted ▸ hp))
    case hresponses =>
      intro key client text result hresponse
      rcases Machine.response_of_step hstep hresponse with hold | ⟨call, hcall, rfl, rfl⟩
      · apply (h.responses key client text result hold).mono (fun p hp => by rwa [hposted]) hwire
        exact fun p hp hnot => absurd (hposted ▸ hp) hnot
      · have hcall' := hcall
        cases Machine.calls_of_call hcall with
        | result => cases hinput
        | @expire limit info _ sends hcontrol hhistory hold =>
          obtain ⟨now, hnow, rfl⟩ : ∃ now ∈ times, limit = dropDead config now := by
            simpa only [Machine.CalledAt, hcontrol] using h.calledAt
          exact .timeout ⟨info, rfl, rfl, now, hnow, hold.2⟩
        | @answer client parsed rest session now infoSent textSent sends hcontrol hmatch hsession =>
          obtain ⟨client', haccepted⟩ := Machine.accepted_of_call_next hcall' hstep
          refine .healthCheck haccepted (fun p hp hkey => ?_) rfl
          have hnew : Unused (π.key (π.toInfo parsed s.machine.server.requestId now)) s.machine.wire :=
            hunused rfl _ (by simp only [Machine.nextKey, hcontrol])
          exact hnew _ (h.accepted p (hposted ▸ hp)) (by simp [Action.accepts, hkey])
  · have hnew : Unused (π.key p.info) s.machine.wire :=
      hunused rfl _ (by simp only [Machine.nextKey, hcontrol, hinfo])
    refine { calledAt := hcalled, accepted := ?haccepted, keys := ?hkeys, responses := ?hresponses }
    case haccepted =>
      intro q hq
      rw [hposted, List.mem_append, List.mem_singleton] at hq
      rcases hq with hq | rfl
      · exact hwire _ (h.accepted q hq)
      · rw [hinfo]
        exact Machine.accepted_of_forwarded hreliable.holdsSession hcontrol hmatch htext hstep
    case hkeys =>
      rw [hposted, List.map_append]
      apply h.keys.append (List.nodup_singleton _)
      intro key hkey hp
      obtain ⟨q, hq, rfl⟩ := List.mem_map.mp hkey
      have heq : π.key q.info = π.key p.info := by simpa using hp
      exact hnew _ (h.accepted q hq) (by simp [Action.accepts, heq])
    case hresponses =>
      intro key client text result hresponse
      rcases Machine.response_of_step hstep hresponse with hold | ⟨call, hcall, -, -⟩
      · apply (h.responses key client text result hold).mono (fun q hq => by simp [hposted, hq]) hwire
        intro q hq hnot
        rw [hposted, List.mem_append, List.mem_singleton] at hq
        obtain rfl := hq.resolve_left hnot
        exact hnew
      · -- a request that is sent on is not answered in the same step
        cases Machine.calls_of_call hcall with
        | answer _ _ _ _ hcontrol' hmatch' =>
          rw [hcontrol] at hcontrol'
          obtain ⟨-, rfl, -⟩ := by simpa using hcontrol'
          simp [hmatch] at hmatch'

/-- A result that is received is for the request that its info names. -/
theorem Justified.receive {times : List ℕ} (h : s.Justified works config times) (hsound : s.Sound works)
    {k number : ℕ} {sends : DequeueSends} {input : ServerInput ι}
    (harrived : s.arrived layout k sends = some (number, input)) {machine : Machine σ ρ ι}
    (hstep : s.machine.step π config input = some machine) :
    Justified works config times
      { s with machine, loopback := s.loopback.eraseIdx k, received := s.received ++ [number] } := by
  have hwire : ∀ a ∈ s.machine.wire, a ∈ machine.wire := fun a => Machine.mem_wire_of_step hstep
  have hcalled : Machine.CalledAt config times machine.control := by
    refine Machine.calledAt_of_step h.calledAt (fun now htime => ?_) hstep
    obtain ⟨last, frames, -, rfl⟩ := mem_of_arrived harrived
    cases htime
  refine { calledAt := hcalled, accepted := fun p hp => hwire _ (h.accepted p hp), keys := h.keys, responses := ?_ }
  intro key client text result hresponse
  rcases Machine.response_of_step hstep hresponse with hold | ⟨call, hcall, rfl, rfl⟩
  · exact (h.responses key client text result hold).mono (fun _ hp => hp) hwire
      fun p hp hnot => absurd hp hnot
  · obtain ⟨last, frames, hmem, rfl⟩ := mem_of_arrived harrived
    obtain rfl := Option.some.inj hcall
    -- a result is what the stages make of the request whose info comes with it
    obtain ⟨last', body, hframes, p, request, hp, htext, hread, hanswers⟩ := hsound.loopback _ hmem
    obtain ⟨rfl, rfl⟩ := List.cons.inj hframes
    refine .answer (p := p) (List.mem_of_getElem? hp) (by rw [hread]) ⟨request, last, htext, ?_⟩
    simpa using hanswers

/-- One proper event keeps every response justified. -/
theorem Justified.step {times : List ℕ} (h : s.Justified works config times)
    (hreliable : s.machine.Reliable) (hsound : s.Sound works) {event : Event ι}
    (hproper : s.Proper works config event) (htimes : ∀ now ∈ event.timeoutsAt, now ∈ times)
    (hstep : s.step layout config event = some t) : t.Justified works config times := by
  cases event with
  | server input =>
    obtain ⟨machine, hmachine, rfl⟩ := step_server hstep
    -- the server takes a result only as the event `receive`
    have hinput : input.isResult = false := by
      simp only [Service.step] at hstep
      split_ifs at hstep with hresult
      simpa using hresult
    apply h.serve hreliable hinput hproper.1 ?_ hmachine
    rintro now rfl
    exact htimes now rfl
  | receive k sends =>
    obtain ⟨number, input, machine, harrived, hmachine, rfl⟩ := step_receive hstep
    exact h.receive hsound harrived hmachine
  | deliver stage k upstream =>
    obtain ⟨number, job, workshop, -, -, rfl⟩ := step_deliver hstep
    refine ⟨h.calledAt, h.accepted, h.keys, fun key client text result hresponse => ?_⟩
    exact (h.responses key client text result hresponse).mono (fun _ => id) (fun _ => id)
      fun p hp hnot => absurd hp hnot
  | work stage event =>
    obtain ⟨-, workshop, -, rfl⟩ := step_work hstep
    refine ⟨h.calledAt, h.accepted, h.keys, fun key client text result hresponse => ?_⟩
    exact (h.responses key client text result hresponse).mono (fun _ => id) (fun _ => id)
      fun p hp hnot => absurd hp hnot
  | interrupt stage w key =>
    obtain ⟨-, workshop, -, rfl⟩ := step_interrupt hstep
    refine ⟨h.calledAt, h.accepted, h.keys, fun key client text result hresponse => ?_⟩
    exact (h.responses key client text result hresponse).mono (fun _ => id) (fun _ => id)
      fun p hp hnot => absurd hp hnot

/-- In every proper run each response is the answer to its request or a timeout. -/
theorem justified_of_run {heartBeat : ℕ → Frame → Frame} {events : List (Event ι)}
    (hproper : StepsMeet (step layout config) (start heartBeat) events (Proper works config))
    (hrun : run (step layout config) (start heartBeat) events = some s) :
    s.Justified works config (events.filterMap Event.timeoutsAt) := by
  suffices h : ∀ times, (∀ now ∈ events.filterMap Event.timeoutsAt, now ∈ times) →
      StepsMeet (step layout config) (start heartBeat) events (Proper works config) →
        s.Justified works config times from
    h _ (fun _ hnow => hnow) hproper
  intro times
  refine run_induction (P := fun events s => (∀ now ∈ events.filterMap Event.timeoutsAt, now ∈ times) →
    StepsMeet (step layout config) (start heartBeat) events (Proper works config) →
      s.Justified works config times) (fun _ _ => justified_start times heartBeat) ?_ hrun
  intro events s event t hs ih hstep htimes hmeet
  rw [List.filterMap_append] at htimes
  refine (ih (fun now hnow => htimes now (List.mem_append_left _ hnow)) hmeet.init).step
    (reliable_of_run hmeet.init hs) (sound_of_run hmeet.init hs) (hmeet.last hs) (fun now hnow => ?_) hstep
  exact htimes now (List.mem_append_right _ (List.mem_filterMap.mpr ⟨event, List.mem_singleton_self _, hnow⟩))

/-- A response that was sent for a request that was sent on. -/
theorem response_of_run {heartBeat : ℕ → Frame → Frame} {events : List (Event ι)}
    (hproper : StepsMeet (step layout config) (start heartBeat) events (Proper works config))
    (hrun : run (step layout config) (start heartBeat) events = some s) {p : Posted ρ ι}
    (hp : p ∈ s.posted) {client : Frame} {text : Bytes}
    (hresponse : .response (π.key p.info) client text .accepted ∈ s.machine.wire) :
    client = p.client ∧
      (works.Answer p text ∨
        TimedOut π config (events.filterMap Event.timeoutsAt) (π.key p.info) text) := by
  have hreliable := reliable_of_run hproper hrun
  have hjustified := justified_of_run hproper hrun
  constructor
  · -- the request was accepted for the client that gets the response
    obtain ⟨before, after, hwire⟩ := List.append_of_mem hresponse
    have hdelivered : Delivered before (π.key p.info) client :=
      hreliable.tracked.deliveries before (.response (π.key p.info) client text .accepted)
        ⟨after, by rw [hwire, List.append_assoc]; rfl⟩
    apply hreliable.acceptedOnce (π.key p.info) client p.client ?_ (hjustified.accepted p hp)
    rw [hwire]
    exact List.mem_append_left _ hdelivered.submitted
  · cases hjustified.responses _ client text _ hresponse with
    | timeout hold => exact Or.inr hold
    | healthCheck _ hnot => exact absurd rfl (hnot p hp)
    | @answer q hq hkey hanswer =>
      obtain rfl : q = p := List.inj_on_of_nodup_map hjustified.keys hq hp hkey
      exact Or.inl hanswer

/-- All responses that were sent for a request that was sent on went to its client, and each is either what
the stages make of the request or the response for a request that was too old when `handle_timeouts` was
called. There is one of them at most. -/
theorem responses_of_run {heartBeat : ℕ → Frame → Frame} {events : List (Event ι)}
    (hproper : StepsMeet (step layout config) (start heartBeat) events (Proper works config))
    (hrun : run (step layout config) (start heartBeat) events = some s) :
    Deliveries s.machine.wire ∧
      ∀ p ∈ s.posted, ∀ client text, .response (π.key p.info) client text .accepted ∈ s.machine.wire →
        client = p.client ∧ (works.Answer p text ∨
          TimedOut π config (events.filterMap Event.timeoutsAt) (π.key p.info) text) :=
  ⟨(reliable_of_run hproper hrun).tracked.deliveries,
    fun _ hp _ _ hresponse => response_of_run hproper hrun hp hresponse⟩

/-- Each stage sends back what it was sent. -/
def sendBack : WorkFunctions NetstringRequestInfo.layout where
  stage _ := Workshop.echo
  keeps h := congrArg _ h.2.2

/-- Whether a message is sent back is decidable. -/
instance (i : ℕ) (info : Frame) (frames : List Frame) (result : WorkResult) (left : Frame) :
    Decidable ((sendBack.stage i).Returns info frames result left) :=
  inferInstanceAs (Decidable (Workshop.echo.Returns info frames result left))

/-- A client connects and sends a request, which the only worker answers. -/
def oneAnswer : List (Event NetstringRequestInfo) :=
  let text := ascii "3:abc,"
  let sends : DequeueSends := ⟨.accepted, .accepted⟩
  [.server (.message [1] [] .accepted), .server (.message [1] text .accepted),
    .server (.next 100 .accepted .accepted sends), .server (.next 100 .accepted .accepted sends),
    .work 0 (.advertise [9]), .work 0 (.forward (some ([9], 0)) none), .deliver 0 0 [],
    .work 0 (.forward none (some .null)), .work 0 (.take [9] false),
    .work 0 (.finish [9] { intermediate := false, messages := [text], heartBeat := [] }
      (idBytes 0 100)),
    .receive 0 sends]

/-- `responses_of_run` for a request that one worker answers. -/
theorem responses_of_run_oneAnswer :
    ∃ s, run (step NetstringRequestInfo.layout unchecked) (start fun _ _ => []) oneAnswer = some s ∧
      .response (keyOf 0 100) [1] (ascii "3:abc,") .accepted ∈ s.machine.wire ∧
      Deliveries s.machine.wire ∧
      ∀ p ∈ s.posted, ∀ client text,
        .response (netstringProtocol.key p.info) client text .accepted ∈ s.machine.wire →
          client = p.client ∧ (sendBack.Answer p text ∨
            TimedOut netstringProtocol unchecked (oneAnswer.filterMap Event.timeoutsAt)
              (netstringProtocol.key p.info) text) := by
  have hrun : (run (step NetstringRequestInfo.layout unchecked) (start fun _ _ => []) oneAnswer).map
      (fun s => decide (.response (keyOf 0 100) [1] (ascii "3:abc,") .accepted ∈ s.machine.wire)) =
        some true := by decide
  obtain ⟨s, hs, hresponse⟩ := Option.map_eq_some_iff.mp hrun
  have hproper : StepsMeet (step NetstringRequestInfo.layout unchecked) (start fun _ _ => []) oneAnswer
      (Proper sendBack unchecked) := by decide
  exact ⟨s, hs, of_decide_eq_true hresponse, responses_of_run hproper hs⟩

end Service

end PrimeServer
