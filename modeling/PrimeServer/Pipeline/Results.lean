import PrimeServer.Pipeline.Jobs

/-!
# Results of a stage

What a message that leaves a stage is made of: the work function was called with the request info and the
frames of a job, as they were submitted, and the message is the request info that it left, followed by its
result. Work functions may change the request info, and the choice function may throw, which loses a job.

## Main results

* `Workshop.stepped_of_step`: all that a step of a stage can do;
* `Workshop.Content.step`: each step keeps what is known of the content of jobs and messages.
-/

namespace PrimeServer

open Transition

/-- A `work_function_t`, as far as what it may return for a request info and the frames of a job, and what
it may leave in the request info. No intermediate result is without messages. -/
structure WorkFunction where
  /-- For this info and these frames the function may return this result and leave this info. -/
  Returns : Frame → List Frame → WorkResult → Frame → Prop
  /-- A result for the next stage has a message: without one the message to the proxy would stay open. -/
  whole : ∀ {info frames result left}, Returns info frames result left → result.intermediate = true →
    result.messages ≠ []

/-- What the work function returns is what it may return for the job that is being worked on. -/
def Worker.Control.Returns (work : WorkFunction) (result : WorkResult) (left : Frame) :
    Worker.Control → Prop
  | .working info frames _ => work.Returns info frames result left
  | .advertising | .polling | .cleaning _ | .checking _ | .escaped => True

instance {work : WorkFunction} {result : WorkResult} {left : Frame}
    [∀ info frames result left, Decidable (work.Returns info frames result left)] :
    (control : Worker.Control) → Decidable (control.Returns work result left)
  | .working info frames _ => inferInstanceAs (Decidable (work.Returns info frames result left))
  | .advertising | .polling | .cleaning _ | .checking _ | .escaped => isTrue trivial

/-- The message has what a work function may return for the job. -/
inductive SentOn.Carries (work : WorkFunction) (job : Job) : SentOn → Prop where
  /-- An intermediate result goes to the next proxy with all of its messages. -/
  | intermediate {number : ℕ} {result : WorkResult} {left : Frame}
      (hreturns : work.Returns job.info job.frames result left) (hintermediate : result.intermediate = true) :
      Carries work job { job := number, loopback := false, frames := left :: result.messages }
  /-- A result goes to the server with the first of its messages only. -/
  | final {number : ℕ} {result : WorkResult} {left body : Frame} {later : List Frame}
      (hreturns : work.Returns job.info job.frames result left) (hfinal : result.intermediate = false)
      (hmessages : result.messages = body :: later) :
      Carries work job { job := number, loopback := true, frames := [left, body] }

namespace Workshop

/-- The frames of the job are the result. -/
def echo : WorkFunction where
  Returns info frames result left :=
    result.intermediate = false ∧ result.messages = frames ∧ left = info
  whole h hintermediate := by simp [h.1] at hintermediate

instance (info : Frame) (frames : List Frame) (result : WorkResult) (left : Frame) :
    Decidable (echo.Returns info frames result left) :=
  inferInstanceAs (Decidable (result.intermediate = false ∧ result.messages = frames ∧ left = info))

variable {s t : Workshop}

/-- The event makes a worker go on without a job. -/
def Event.input : Event → Option (Frame × WorkerInput)
  | .interrupt w key => some (w, .arrive key)
  | .wake w interrupted => some (w, .poll none interrupted)
  | .bail w => some (w, .bail)
  | .fail w e => some (w, .threw e)
  | .cleanup w e => some (w, .cleanup e)
  | .check w now => some (w, .check now)
  | .submit _ | .forward _ _ | .advertise _ | .take _ _ | .finish _ _ _ => none

/-- All that a step can do. -/
inductive Stepped (s : Workshop) : Event → Workshop → Prop where
  /-- A job is submitted. -/
  | submitted (job : Job) :
      Stepped s (.submit job)
        { s with
          submitted := s.submitted ++ [job]
          upstream := s.upstream ++ [(s.submitted.length, job)] }
  /-- The proxy has at most heard a heartbeat. -/
  | heard {worker : Option (Frame × Node)} {proxy : Forwarding} {heartBeats : Frame → List Frame}
      (hproxy : proxy.Sound) : Stepped s (.forward worker none) { s with proxy, heartBeats }
  /-- The choice function throws. -/
  | lost {worker : Option (Frame × Node)} {number : ℕ} {job : Job} {later : List (ℕ × Job)}
      {proxy : Forwarding} {heartBeats : Frame → List Frame} (hproxy : proxy.Sound)
      (hupstream : s.upstream = (number, job) :: later) :
      Stepped s (.forward worker (some .threw)) { s with proxy, heartBeats, upstream := later }
  /-- The proxy hands the next job to a worker. -/
  | handed {worker : Option (Frame × Node)} {choice : Choice} {number : ℕ} {job : Job}
      {later : List (ℕ × Job)} {proxy : Forwarding} {heartBeats : Frame → List Frame} {d : Dispatch}
      (hchoice : choice ≠ .threw) (hproxy : proxy.Sound) (hupstream : s.upstream = (number, job) :: later)
      (hframes : d.sends.tail.map Prod.fst = job.info :: job.frames) :
      Stepped s (.forward worker (some choice))
        ({ s with proxy, heartBeats, upstream := later }.deliver (some number) (some d))
  /-- A heartbeat is on its way. -/
  | advertised {w : Frame} {worker : Worker}
      (hworker : (s.workers w).step (.advertise .accepted) = some worker) :
      Stepped s (.advertise w)
        ({ s with
          heartBeats := Function.update s.heartBeats w (s.heartBeats w ++ [worker.heartBeat]) }.settle w
            worker)
  /-- A worker takes its next job. -/
  | took {w : Frame} {interrupted : Bool} {number : ℕ} {info : Frame} {frames : List Frame}
      {later : List (ℕ × List Frame)} {worker : Worker}
      (hinbox : s.inbox w = (number, info :: frames) :: later)
      (hworker : (s.workers w).step (.poll (some (info, frames)) interrupted) = some worker) :
      Stepped s (.take w interrupted)
        ({ s with
          inbox := Function.update s.inbox w later
          hands := Function.update s.hands w (some number) }.settle w worker)
  /-- A work function returns, and what it has made is sent on. -/
  | finished {w : Frame} {result : WorkResult} {left : Frame} {number : ℕ} {worker : Worker}
      (hhands : s.hands w = some number)
      (hworker : (s.workers w).step (.returned result left []) = some worker) :
      Stepped s (.finish w result left)
        ((Worker.resultActions result left []).foldl (fun t => t.sendOn w number) (s.settle w worker))
  /-- A worker takes a step that has to do with no other party. -/
  | wentOn {event : Event} {w : Frame} {input : WorkerInput} {worker : Worker}
      (hevent : event.input = some (w, input)) (hworker : (s.workers w).step input = some worker) :
      Stepped s event (s.settle w worker)

/-- A worker that goes on without a job does not take one. -/
theorem Event.input_ne_poll {event : Event} {w : Frame} {input : WorkerInput}
    (hevent : event.input = some (w, input)) (job : Frame × List Frame) (interrupted : Bool) :
    input ≠ .poll (some job) interrupted := by
  rintro rfl
  cases event <;> simp [Event.input] at hevent

/-- Where the choice function throws, nothing is dispatched. -/
theorem served_threw {p q : Proxy} {registered : Frame → ℕ} {job : Job} {results : List SendResult}
    {d : Option Dispatch} (h : p.Served registered job results .threw q d) : d = none := by
  cases h with
  | unchosen => rfl
  | threw hchoice | served hchoice => exact absurd rfl hchoice

/-- A turn of `forward` leaves the stage as it is, but for what it has received, or hands out the first job. -/
theorem stepped_forward (hproxy : s.proxy.Sound) {worker : Option (Frame × Node)} {choice : Option Choice}
    (hstep : s.step (.forward worker choice) = some t) : s.Stepped (.forward worker choice) t := by
  cases hbeat : s.nextHeartBeat worker with
  | none => simp [step, hbeat] at hstep
  | some next =>
    obtain ⟨heartBeat, heartBeats⟩ := next
    cases choice with
    | none =>
      simp only [step, hbeat, nextJob, Option.map_none] at hstep
      obtain ⟨proxy, hforwarded, rfl⟩ := Option.map_eq_some_iff.mp hstep
      exact .heard (hproxy.step hforwarded).1
    | some choice =>
      cases hupstream : s.upstream with
      | nil => simp [step, hbeat, nextJob, hupstream] at hstep
      | cons entry later =>
        obtain ⟨number, job⟩ := entry
        simp only [step, hbeat, nextJob, hupstream, Option.map_some] at hstep
        obtain ⟨proxy, hforwarded, rfl⟩ := Option.map_eq_some_iff.mp hstep
        obtain ⟨hsound, hturn⟩ := hproxy.step hforwarded
        obtain ⟨-, d, hserved, hdispatched⟩ := hturn.served job choice [] rfl
        by_cases hchoice : choice = .threw
        · subst hchoice
          obtain rfl := served_threw hserved
          have hnone : proxy.dispatched[s.proxy.dispatched.length]? = none := by simp [hdispatched]
          rw [hnone]
          exact .lost hsound hupstream
        · obtain ⟨w, sends, rfl, hsends⟩ := served_nil hserved hchoice
          -- the turn has added this dispatch and no other
          have hlast : proxy.dispatched[s.proxy.dispatched.length]? = some { worker := w, sends } := by
            rw [hdispatched]
            exact List.getElem?_concat_length
          rw [hlast]
          refine .handed hchoice hsound hupstream ?_
          rw [List.map_tail, hsends, List.tail_cons]

/-- Each step of a stage is one of those that `Stepped` lists. -/
theorem stepped_of_step (hproxy : s.proxy.Sound) {event : Event} (hstep : s.step event = some t) :
    s.Stepped event t := by
  cases event with
  | submit job =>
    obtain rfl := Option.some.inj hstep
    exact .submitted job
  | forward worker choice => exact stepped_forward hproxy hstep
  | advertise w =>
    obtain ⟨worker, hworker, rfl⟩ := Option.map_eq_some_iff.mp hstep
    exact .advertised hworker
  | take w interrupted =>
    cases hinbox : s.inbox w with
    | nil => simp [step, hinbox] at hstep
    | cons entry later =>
      obtain ⟨number, received⟩ := entry
      cases received with
      | nil => simp [step, hinbox] at hstep
      | cons info frames =>
        simp only [step, hinbox] at hstep
        obtain ⟨worker, hworker, rfl⟩ := Option.map_eq_some_iff.mp hstep
        exact .took hinbox hworker
  | finish w result left =>
    cases hhands : s.hands w with
    | none => simp [step, hhands] at hstep
    | some number =>
      simp only [step, hhands] at hstep
      obtain ⟨worker, hworker, rfl⟩ := Option.map_eq_some_iff.mp hstep
      exact .finished hhands hworker
  | interrupt w | wake w | bail w | fail w | cleanup w | check w =>
    simp only [step] at hstep
    obtain ⟨worker, hworker, rfl⟩ := Option.map_eq_some_iff.mp hstep
    exact .wentOn rfl hworker

/-! ### Going on with a worker -/

section Settle

variable (s : Workshop) (w : Frame) (worker : Worker)

/-- Settling a worker leaves the proxy alone. -/
@[simp]
theorem settle_proxy : (s.settle w worker).proxy = s.proxy := by
  unfold settle
  split <;> rfl

/-- Settling a worker submits nothing. -/
@[simp]
theorem settle_submitted : (s.settle w worker).submitted = s.submitted := by
  unfold settle
  split <;> rfl

/-- Settling a worker takes nothing from upstream. -/
@[simp]
theorem settle_upstream : (s.settle w worker).upstream = s.upstream := by
  unfold settle
  split <;> rfl

/-- Settling a worker sends no heartbeat. -/
@[simp]
theorem settle_heartBeats : (s.settle w worker).heartBeats = s.heartBeats := by
  unfold settle
  split <;> rfl

/-- Settling a worker leaves all inboxes alone. -/
@[simp]
theorem settle_inbox : (s.settle w worker).inbox = s.inbox := by
  unfold settle
  split <;> rfl

/-- Settling a worker replaces the worker and no other one. -/
@[simp]
theorem settle_workers : (s.settle w worker).workers = Function.update s.workers w worker := by
  unfold settle
  split <;> rfl

/-- Settling a worker leaves alone what it has not sent to its end. -/
@[simp]
theorem settle_unsent : (s.settle w worker).unsent = s.unsent := by
  unfold settle
  split <;> rfl

/-- Settling a worker leaves alone what was sent. -/
@[simp]
theorem settle_sent : (s.settle w worker).sent = s.sent := by
  unfold settle
  split <;> rfl

/-- Settling a worker leaves alone what the jobs have become. -/
@[simp]
theorem settle_frames : (s.settle w worker).frames = s.frames := by
  unfold settle
  split <;> rfl

/-- A frame that is sent submits nothing to its own stage. -/
@[simp]
theorem sendOn_submitted (number : ℕ) (action : WorkerAction) :
    (s.sendOn w number action).submitted = s.submitted := by
  cases action with
  | downstream sends =>
    simp only [sendOn]
    split_ifs <;> rfl
  | _ => rfl

/-- Frames that are sent submit nothing to their own stage. -/
@[simp]
theorem foldl_sendOn_submitted (number : ℕ) (actions : List WorkerAction) :
    (actions.foldl (fun t => t.sendOn w number) s).submitted = s.submitted := by
  induction actions generalizing s with
  | nil => rfl
  | cons action actions ih => rw [List.foldl_cons, ih, sendOn_submitted]

/-- A worker that does not work any more has nothing in its hands. -/
theorem settle_hands :
    (s.settle w worker).hands =
      if worker.control.received = none then Function.update s.hands w none else s.hands := by
  split_ifs with hdone
  · cases hhands : s.hands w with
    | none =>
      rw [settle_of_idle hhands, ← hhands, Function.update_eq_self]
    | some number => rw [settle_of_done hhands hdone]
  · rw [settle_of_busy hdone]

/-- Settling a worker gives no job to anybody. -/
theorem mem_settle_hands {v : Frame} {number : ℕ} (h : number ∈ (s.settle w worker).hands v) :
    number ∈ s.hands v := by
  rw [settle_hands] at h
  split_ifs at h
  · by_cases hv : v = w
    · subst hv
      simp at h
    · rwa [Function.update_of_ne hv] at h
  · exact h

end Settle

/-- Jobs come from elsewhere. -/
theorem submitted_of_step (hproxy : s.proxy.Sound) {event : Event} (hevent : ∀ job, event ≠ .submit job)
    (hstep : s.step event = some t) : t.submitted = s.submitted := by
  cases stepped_of_step hproxy hstep with
  | submitted job => exact absurd rfl (hevent job)
  | heard | lost | handed => rfl
  | advertised | took | finished | wentOn => simp

/-! ### Content -/

/-- Jobs are on their way as they were submitted, workers work on what they have in their hands, and the
messages that have gone on carry what the work function returned. -/
structure Content (work : WorkFunction) (s : Workshop) : Prop where
  /-- The proxy keeps its books. -/
  sound : s.proxy.Sound
  /-- The proxy is given the jobs as they were submitted. -/
  upstream : ∀ entry ∈ s.upstream, s.submitted[entry.1]? = some entry.2
  /-- The workers are given the frames of the jobs as they were submitted. -/
  inbox : ∀ w, ∀ entry ∈ s.inbox w, s.frames entry.1 = some entry.2
  /-- A worker has only jobs that were submitted. -/
  hands : ∀ w, ∀ number ∈ s.hands w, number < s.submitted.length
  /-- A worker that works has the info and the frames of its job. -/
  working : s.Working
  /-- No message was left without its last part. -/
  unsent : ∀ w, s.unsent w = []
  /-- Each message carries what the function made of its job. -/
  sent : ∀ m ∈ s.sent, ∃ job, s.submitted[m.job]? = some job ∧ m.Carries work job

/-- Without jobs there is nothing that a result could be of. -/
theorem content_start (work : WorkFunction) (heartBeat : Frame → Frame) :
    (start heartBeat).Content work where
  sound := Forwarding.sound_start
  upstream _ hentry := by simp [start] at hentry
  inbox _ _ hentry := by simp [start] at hentry
  hands _ _ hnumber := by simp [start] at hnumber
  working := working_start heartBeat
  unsent _ := rfl
  sent _ hm := by simp [start] at hm

/-- A work function that returns returns what it may. -/
def Returns (work : WorkFunction) (s : Workshop) : Event → Prop
  | .finish w result left => (s.workers w).control.Returns work result left
  | _ => True

instance {work : WorkFunction}
    [∀ info frames result left, Decidable (work.Returns info frames result left)] :
    (event : Event) → Decidable (s.Returns work event)
  | .finish w result left => inferInstanceAs (Decidable ((s.workers w).control.Returns work result left))
  | .submit _ | .forward _ _ | .interrupt _ _ | .advertise _ | .wake _ _ | .take _ _ | .bail _
  | .fail _ _ | .cleanup _ _ | .check _ _ => isTrue trivial

namespace Content

variable {work : WorkFunction}

/-- A job whose frames are known was submitted. -/
theorem lt_of_frames {number : ℕ} {frames : List Frame} (h : s.frames number = some frames) :
    number < s.submitted.length := by
  obtain ⟨job, hjob, -⟩ := Option.map_eq_some_iff.mp h
  exact (List.getElem?_eq_some_iff.mp hjob).1

/-- Settling a worker leaves the content of the stage in order. -/
theorem settle (h : s.Content work) {w : Frame} {worker : Worker}
    (hworking : (s.settle w worker).Working) : (s.settle w worker).Content work where
  sound := by simpa using h.sound
  upstream := by simpa using h.upstream
  inbox := by simpa using h.inbox
  hands v number hnumber := by simpa using h.hands v number (mem_settle_hands s w worker hnumber)
  working := hworking
  unsent := by simpa using h.unsent
  sent := by simpa using h.sent

/-- A worker goes on without taking a job. -/
theorem goOn (h : s.Content work) {w : Frame} {worker : Worker} {input : WorkerInput}
    (hinput : ∀ job interrupted, input ≠ .poll (some job) interrupted)
    (hstep : (s.workers w).step input = some worker) : (s.settle w worker).Content work := by
  apply h.settle
  apply working_settle fun v _ => h.working v
  rw [← h.working w]
  exact received_of_step hinput hstep

/-- A job that is submitted has its own content. -/
theorem submit (h : s.Content work) (job : Job) :
    Content work
      { s with
        submitted := s.submitted ++ [job]
        upstream := s.upstream ++ [(s.submitted.length, job)] } := by
  -- what is known of the other jobs does not change
  have hjob : ∀ (number : ℕ) (job' : Job), s.submitted[number]? = some job' →
      (s.submitted ++ [job])[number]? = some job' := by
    intro number job' hjob'
    rw [List.getElem?_append_left (List.getElem?_eq_some_iff.mp hjob').1]
    exact hjob'
  refine
    { h with
      upstream := ?hupstream
      inbox := ?hinbox
      hands := ?hhands
      working := ?hworking
      sent := ?hsent }
  case hupstream =>
    intro entry hentry
    rcases List.mem_append.mp hentry with hentry | hentry
    · exact hjob _ _ (h.upstream entry hentry)
    · obtain rfl := List.mem_singleton.mp hentry
      exact List.getElem?_concat_length
  case hinbox =>
    intro w entry hentry
    obtain ⟨job', hjob', hframes⟩ := Option.map_eq_some_iff.mp (h.inbox w entry hentry)
    exact Option.map_eq_some_iff.mpr ⟨job', hjob _ _ hjob', hframes⟩
  case hhands =>
    intro w number hnumber
    have hlt := h.hands w number hnumber
    simp only [List.length_append, List.length_singleton]
    omega
  case hworking =>
    intro w
    show (s.workers w).control.received = _
    rw [h.working w]
    cases hhands : s.hands w with
    | none => rfl
    | some number =>
      have hlt := h.hands w number hhands
      simp [Workshop.frames, List.getElem?_append_left hlt]
  case hsent =>
    intro m hm
    obtain ⟨job', hjob', hcarries⟩ := h.sent m hm
    exact ⟨job', hjob _ _ hjob', hcarries⟩

/-- A job that is handed out has the frames with which it was submitted. -/
theorem hand (h : s.Content work) {number : ℕ} {job : Job} {later : List (ℕ × Job)}
    {proxy : Forwarding} {heartBeats : Frame → List Frame} {d : Dispatch} (hproxy : proxy.Sound)
    (hupstream : s.upstream = (number, job) :: later)
    (hframes : d.sends.tail.map Prod.fst = job.info :: job.frames) :
    Content work ({ s with proxy, heartBeats, upstream := later }.deliver (some number) (some d)) := by
  refine { h with sound := hproxy, upstream := ?hlater, inbox := ?hinbox }
  case hlater =>
    intro entry hentry
    apply h.upstream
    rw [hupstream]
    exact List.mem_cons_of_mem _ hentry
  case hinbox =>
    intro v entry hentry
    show s.frames entry.1 = some entry.2
    by_cases hv : v = d.worker
    · subst hv
      simp only [deliver, Function.update_self, List.mem_append, List.mem_singleton] at hentry
      rcases hentry with hentry | rfl
      · exact h.inbox d.worker entry hentry
      · -- the new entry has the frames that were submitted
        have hjob : s.submitted[number]? = some job := h.upstream (number, job) (by simp [hupstream])
        rw [hframes]
        exact Option.map_eq_some_iff.mpr ⟨job, hjob, rfl⟩
    · simp only [deliver, Function.update_of_ne hv] at hentry
      exact h.inbox v entry hentry

/-- A job that a worker takes has the frames with which it was handed out. -/
theorem take (h : s.Content work) {w : Frame} {interrupted : Bool} {number : ℕ} {info : Frame}
    {frames : List Frame} {later : List (ℕ × List Frame)} {worker : Worker}
    (hinbox : s.inbox w = (number, info :: frames) :: later)
    (hworker : (s.workers w).step (.poll (some (info, frames)) interrupted) = some worker) :
    Content work
      ({ s with
        inbox := Function.update s.inbox w later
        hands := Function.update s.hands w (some number) }.settle w worker) := by
  have hframes : s.frames number = some (info :: frames) :=
    h.inbox w (number, info :: frames) (by simp [hinbox])
  have hworking : Working
      ({ s with
        inbox := Function.update s.inbox w later
        hands := Function.update s.hands w (some number) }.settle w worker) := by
    apply working_settle
    · intro v hv
      simp only [Function.update_of_ne hv]
      exact h.working v
    · simp only [Function.update_self, Option.bind_some]
      show _ ∨ _ = s.frames number
      rw [hframes]
      -- it works on the info and the frames that it has taken
      exact (received_of_take hworker).2
  refine
    { sound := by simpa using h.sound
      upstream := by simpa using h.upstream
      inbox := ?hinbox
      hands := ?hhands
      working := hworking
      unsent := by simpa using h.unsent
      sent := by simpa using h.sent }
  case hinbox =>
    intro v entry hentry
    rw [settle_frames]
    show s.frames entry.1 = some entry.2
    rw [settle_inbox] at hentry
    apply h.inbox v
    by_cases hv : v = w
    · subst hv
      simp only [Function.update_self] at hentry
      -- what is left in the inbox was behind the job
      rw [hinbox]
      exact List.mem_cons_of_mem _ hentry
    · simpa only [Function.update_of_ne hv] using hentry
  case hhands =>
    intro v j hj
    rw [settle_submitted]
    have hj' := mem_settle_hands _ _ _ hj
    by_cases hv : v = w
    · subst hv
      obtain rfl : number = j := by simpa using hj'
      exact lt_of_frames hframes
    · exact h.hands v j (by simpa only [Function.update_of_ne hv] using hj')

/-- A worker that does not work has no job. -/
theorem hands_eq_none (h : s.Content work) {w : Frame}
    (hidle : (s.workers w).control.received = none) : s.hands w = none := by
  by_contra hbusy
  obtain ⟨number, hhands⟩ := Option.ne_none_iff_exists'.mp hbusy
  -- otherwise the worker would work on that job
  have hjob : none = s.frames number := by
    have hw := h.working w
    rwa [hidle, hhands, Option.bind_some] at hw
  simp [Workshop.frames, h.hands w number hhands] at hjob

/-- What is sent on when a work function returns. -/
inductive Sent (work : WorkFunction) (s : Workshop) (number : ℕ) (job : Job) : Workshop → Prop where
  /-- A final result without messages. -/
  | nothing : Sent work s number job s
  | message {m : SentOn} (hnumber : m.job = number) (hcarries : m.Carries work job) :
      Sent work s number job { s with sent := s.sent ++ [m] }

/-- What a worker sends for a result is what its work function has made of the job. -/
theorem sent_resultActions {result : WorkResult} {left w : Frame} {number : ℕ} {job : Job}
    (hunsent : s.unsent w = []) (hreturns : work.Returns job.info job.frames result left) :
    Sent work s number job
      ((Worker.resultActions result left []).foldl (fun t => t.sendOn w number) s) := by
  have hupdate : Function.update s.unsent w [] = s.unsent := by
    rw [← hunsent, Function.update_eq_self]
  cases hintermediate : result.intermediate with
  | true =>
    have hmessages := work.whole hreturns hintermediate
    -- the request info is not the last part
    have hne : (Proxy.sendJob left result.messages []).length ≠ 1 := by
      rw [← List.length_map (f := Prod.fst), Proxy.map_sendJob_nil]
      simpa using hmessages
    simp only [Worker.resultActions, hintermediate, if_true, List.foldl_cons, List.foldl_nil, sendOn,
      if_neg hne, Proxy.map_sendJob_nil, hunsent, List.nil_append, hupdate]
    exact .message (m := ⟨number, false, left :: result.messages⟩) rfl (.intermediate hreturns hintermediate)
  | false =>
    cases hmessages : result.messages with
    | nil =>
      simp only [Worker.resultActions, hintermediate, hmessages, Bool.false_eq_true, if_false, ne_eq,
        not_true_eq_false, List.foldl_nil]
      exact .nothing
    | cons body later =>
      simp only [Worker.resultActions, hintermediate, hmessages, Bool.false_eq_true, if_false, ne_eq,
        reduceCtorEq, not_false_eq_true, if_true, List.foldl_cons, List.foldl_nil, sendOn,
        Proxy.map_sendJob_nil, List.take_succ_cons, List.take_zero]
      exact .message (m := ⟨number, true, [left, body]⟩) rfl (.final hreturns hintermediate hmessages)

/-- A worker whose work function returns was working on the job in its hands. -/
theorem job_of_finish (h : s.Content work) {w : Frame} {result : WorkResult} {left : Frame} {number : ℕ}
    {worker : Worker} (hhands : s.hands w = some number)
    (hworker : (s.workers w).step (.returned result left []) = some worker)
    (hreturns : s.Returns work (.finish w result left)) :
    ∃ job, s.submitted[number]? = some job ∧ work.Returns job.info job.frames result left := by
  cases Worker.stepped_of_step hworker with
  | @returned info frames interrupted _ _ _ hcontrol =>
    have hreceived := h.working w
    rw [hcontrol, hhands, Option.bind_some] at hreceived
    obtain ⟨job, hjob, hframes⟩ := Option.map_eq_some_iff.mp hreceived.symm
    obtain ⟨rfl, rfl⟩ := List.cons.inj hframes
    rw [Returns, hcontrol] at hreturns
    exact ⟨job, hjob, hreturns⟩

/-- Each step keeps what is known of the content, and what it sends on carries what was returned. -/
theorem step (h : s.Content work) {event : Event} (hreturns : s.Returns work event)
    (hstep : s.step event = some t) : t.Content work := by
  cases stepped_of_step h.sound hstep with
  | submitted job => exact h.submit job
  | heard hproxy => exact { h with sound := hproxy }
  | lost hproxy hupstream =>
    refine { h with sound := hproxy, upstream := fun entry hentry => h.upstream entry ?_ }
    rw [hupstream]
    exact List.mem_cons_of_mem _ hentry
  | handed _ hproxy hupstream hframes => exact h.hand hproxy hupstream hframes
  | @advertised w worker hworker =>
    -- a heartbeat is not a job
    have hsame : Content work
        { s with
          heartBeats :=
            Function.update s.heartBeats w (s.heartBeats w ++ [worker.heartBeat]) } := { h with }
    exact hsame.goOn (by simp) hworker
  | took hinbox hworker => exact h.take hinbox hworker
  | @finished w result left number worker hhands hworker =>
    obtain ⟨job, hjob, hreturned⟩ := h.job_of_finish hhands hworker hreturns
    have hsettled := h.goOn (by simp) hworker
    have hsent : Sent work (s.settle w worker) number job
        ((Worker.resultActions result left []).foldl (fun t => t.sendOn w number) (s.settle w worker)) :=
      sent_resultActions (hsettled.unsent w) hreturned
    generalize List.foldl _ _ _ = t at hsent ⊢
    cases hsent with
    | nothing => exact hsettled
    | @message m hnumber hcarries =>
      refine { hsettled with sent := fun m' hm' => ?_ }
      rcases List.mem_append.mp hm' with hm' | hm'
      · exact hsettled.sent m' hm'
      · obtain rfl := List.mem_singleton.mp hm'
        refine ⟨job, ?_, hcarries⟩
        rw [hnumber]
        simpa using hjob
  | wentOn hevent hworker => exact h.goOn (Event.input_ne_poll hevent) hworker

end Content

end Workshop

end PrimeServer
