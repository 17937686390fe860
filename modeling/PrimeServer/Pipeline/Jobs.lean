import PrimeServer.Library.Placement
import PrimeServer.Pipeline.Bookkeeping
import PrimeServer.Pipeline.Worker

/-!
# Jobs in a stage

One proxy and the workers attached to it, with the whole loop of `work`. The channels lose nothing and
keep the order, and all sends are accepted. Jobs are numbered in the order in which they were submitted.
The numbers are not part of any message, they are kept to say where a job is.

A message of several parts is on its way when its last part is sent. The request info of a result is
sent as a part that is not the last, so that a result without messages leaves the message open, and the
parts of the next result are added to it.

## Main results

* `Workshop.conserved_of_run`: if the choice function does not throw, no intermediate result is without
  messages, and the work functions do not change the request info, each job is in one place at any time,
  is handed to one worker, and goes on in at most one message, with its own request info.
-/

namespace PrimeServer

open Transition

/-- A message that a worker has sent on for a job. -/
structure SentOn where
  /-- The number of the job that it is the result of. -/
  job : ℕ
  /-- It was sent to the server, not to the next proxy. -/
  loopback : Bool
  /-- The frames of the message. -/
  frames : List Frame
  deriving DecidableEq

/-- A proxy and its workers. -/
structure Workshop where
  /-- The proxy in front of the workers. -/
  proxy : Forwarding
  /-- The jobs that were submitted. -/
  submitted : List Job
  /-- The jobs that the proxy has not taken yet, with their numbers. -/
  upstream : List (ℕ × Job)
  /-- The heartbeats on their way from a worker. -/
  heartBeats : Frame → List Frame
  /-- The jobs on their way to a worker. -/
  inbox : Frame → List (ℕ × List Frame)
  /-- The workers, each under its name. -/
  workers : Frame → Worker
  /-- The job that a worker is working on. -/
  hands : Frame → Option ℕ
  /-- The jobs that a worker was done with, whether or not it has sent a result. -/
  concluded : List ℕ
  /-- The workers that jobs were handed to. -/
  handed : List (ℕ × Frame)
  /-- The parts of a message to the next proxy of which the last part is missing. -/
  unsent : Frame → List Frame
  /-- The messages that the workers have sent on. -/
  sent : List SentOn

/-- What can happen in a stage. -/
inductive Workshop.Event where
  /-- A job arrives at the proxy. -/
  | submit (job : Job)
  /-- The proxy takes a turn: perhaps it takes the next heartbeat of a worker, and perhaps a job. -/
  | forward (worker : Option (Frame × Node)) (choice : Option Choice)
  /-- The key of an interrupt arrives at a worker. -/
  | interrupt (worker : Frame) (key : UInt64)
  /-- A worker sends its heartbeat. -/
  | advertise (worker : Frame)
  /-- A worker comes out of `poll` without a job. -/
  | wake (worker : Frame) (interrupted : Bool)
  /-- A worker comes out of `poll` and takes its next job. -/
  | take (worker : Frame) (interrupted : Bool)
  /-- A work function calls `bail`. -/
  | bail (worker : Frame)
  /-- A work function returns. It has left `info` in the request info. -/
  | finish (worker : Frame) (result : WorkResult) (info : Frame)
  /-- A work function throws. -/
  | fail (worker : Frame) (e : Thrown)
  /-- A worker calls its cleanup function, which may throw. -/
  | cleanup (worker : Frame) (e : Option Thrown)
  /-- A worker looks at its interrupts, at this time, if `poll` has found any. -/
  | check (worker : Frame) (now : ℕ)

/-- Where a job can be. -/
inductive Place where
  /-- The proxy has not taken it. -/
  | upstream
  /-- It is on its way to this worker. -/
  | inbox (worker : Frame)
  /-- This worker is working on it. -/
  | hands (worker : Frame)
  /-- A worker is done with it. -/
  | concluded
  deriving DecidableEq

/-- The frames of the job that is being worked on, with the request info. -/
def Worker.Control.received : Worker.Control → Option (List Frame)
  | .working info frames _ => some (info :: frames)
  | .advertising | .polling | .cleaning _ | .checking _ | .escaped => none

namespace Workshop

/-- Nothing was submitted, and all workers have just been constructed with these heartbeats. -/
def start (heartBeat : Frame → Frame) : Workshop where
  proxy := .start
  submitted := []
  upstream := []
  heartBeats _ := []
  inbox _ := []
  workers w := .start (heartBeat w)
  hands _ := none
  concluded := []
  handed := []
  unsent _ := []
  sent := []

/-- The jobs in a place. -/
def occupants (s : Workshop) : Place → List ℕ
  | .upstream => s.upstream.map Prod.fst
  | .inbox w => (s.inbox w).map Prod.fst
  | .hands w => (s.hands w).toList
  | .concluded => s.concluded

/-- The frames of a job, with the request info. -/
def frames (s : Workshop) (number : ℕ) : Option (List Frame) :=
  s.submitted[number]?.map fun job => job.info :: job.frames

/-- The next heartbeat of a worker, and the channels without it. -/
def nextHeartBeat (s : Workshop) :
    Option (Frame × Node) → Option (Option HeartBeat × (Frame → List Frame))
  | none => some (none, s.heartBeats)
  | some (worker, node) =>
    match s.heartBeats worker with
    | [] => none
    | heartBeat :: later =>
      some (some { worker, heartBeat, node }, Function.update s.heartBeats worker later)

/-- The next job with the choice made for it, and the jobs after it. -/
def nextJob (s : Workshop) : Option Choice → Option (Option (ℕ × Job × Choice) × List (ℕ × Job))
  | none => some (none, s.upstream)
  | some choice =>
    match s.upstream with
    | [] => none
    | (number, job) :: later => some (some (number, job, choice), later)

/-- A job that was taken is on its way to a worker if it was dispatched. -/
def deliver (s : Workshop) : Option ℕ → Option Dispatch → Workshop
  | some number, some d =>
    { s with
      inbox :=
        Function.update s.inbox d.worker
          (s.inbox d.worker ++ [(number, d.sends.tail.map Prod.fst)])
      handed := s.handed ++ [(number, d.worker)] }
  | _, _ => s

/-- A worker has gone on. It is done with its job if it does not work any more. -/
def settle (s : Workshop) (w : Frame) (worker : Worker) : Workshop :=
  let t := { s with workers := Function.update s.workers w worker }
  match s.hands w, worker.control.received with
  | some number, none =>
    { t with hands := Function.update s.hands w none, concluded := s.concluded ++ [number] }
  | _, _ => t

/-- What a worker sends on for a job. -/
def sendOn (s : Workshop) (w : Frame) (number : ℕ) : WorkerAction → Workshop
  | .downstream sends =>
    let parts := s.unsent w ++ sends.map Prod.fst
    -- the request info is not the last part
    if sends.length = 1 then { s with unsent := Function.update s.unsent w parts }
    else
      { s with
        unsent := Function.update s.unsent w []
        sent := s.sent ++ [{ job := number, loopback := false, frames := parts }] }
  | .loopback sends =>
    { s with sent := s.sent ++ [{ job := number, loopback := true, frames := sends.map Prod.fst }] }
  | .heartBeat _ _ | .worked _ _ | .cleanedUp => s

/-- One step. -/
def step (s : Workshop) : Event → Option Workshop
  | .submit job =>
    some
      { s with
        submitted := s.submitted ++ [job]
        upstream := s.upstream ++ [(s.submitted.length, job)] }
  | .forward worker choice =>
    match s.nextHeartBeat worker, s.nextJob choice with
    | some (heartBeat, heartBeats), some (next, upstream) =>
      (s.proxy.step { heartBeat, job := next.map fun (_, job, choice) => (job, choice, []) }).map
        fun proxy =>
          { s with proxy, heartBeats, upstream }.deliver (next.map Prod.fst)
            proxy.dispatched[s.proxy.dispatched.length]?
    | _, _ => none
  | .interrupt w key => ((s.workers w).step (.arrive key)).map (s.settle w)
  | .advertise w =>
    ((s.workers w).step (.advertise .accepted)).map fun worker =>
      { s with
        heartBeats :=
          Function.update s.heartBeats w (s.heartBeats w ++ [worker.heartBeat]) }.settle w worker
  | .wake w interrupted => ((s.workers w).step (.poll none interrupted)).map (s.settle w)
  | .take w interrupted =>
    match s.inbox w with
    | (number, info :: frames) :: later =>
      ((s.workers w).step (.poll (some (info, frames)) interrupted)).map fun worker =>
        { s with
          inbox := Function.update s.inbox w later
          hands := Function.update s.hands w (some number) }.settle w worker
    | _ => none
  | .bail w => ((s.workers w).step .bail).map (s.settle w)
  | .finish w result info =>
    match s.hands w with
    | none => none
    | some number =>
      ((s.workers w).step (.returned result info [])).map fun worker =>
        (Worker.resultActions result info []).foldl (fun t => t.sendOn w number) (s.settle w worker)
  | .fail w e => ((s.workers w).step (.threw e)).map (s.settle w)
  | .cleanup w e => ((s.workers w).step (.cleanup e)).map (s.settle w)
  | .check w now => ((s.workers w).step (.check now)).map (s.settle w)

/-- The choice function does not throw, no intermediate result is without messages, and a work function
leaves the request info as it was. -/
def Proper (s : Workshop) : Event → Prop
  | .forward _ choice => choice ≠ some .threw
  | .finish w result info =>
    (result.intermediate → result.messages ≠ []) ∧
      ∀ number ∈ s.hands w, ∀ job ∈ s.submitted[number]?, info = job.info
  | _ => True

instance (s : Workshop) : (event : Event) → Decidable (s.Proper event)
  | .forward _ choice => inferInstanceAs (Decidable (choice ≠ some .threw))
  | .finish w result info =>
    inferInstanceAs (Decidable ((result.intermediate → result.messages ≠ []) ∧
      ∀ number ∈ s.hands w, ∀ job ∈ s.submitted[number]?, info = job.info))
  | .submit _ | .interrupt _ _ | .advertise _ | .wake _ _ | .take _ _ | .bail _ | .fail _ _
  | .cleanup _ _ | .check _ _ => isTrue trivial

/-- A job has been handed to one worker unless it waits upstream, is with that worker or concluded, and
goes on in at most one message, which has its own request info. -/
structure Traced (s : Workshop) : Prop where
  /-- No job was handed to two workers. -/
  handedOnce : (s.handed.map Prod.fst).Nodup
  /-- The jobs that were handed out are those that the proxy has taken. -/
  handed : ∀ number, number ∈ s.handed.map Prod.fst ↔
    number < s.submitted.length ∧ number ∉ s.occupants .upstream
  /-- A worker has only jobs that were handed to it. -/
  worker : ∀ w number, number ∈ s.occupants (.inbox w) ∨ number ∈ s.occupants (.hands w) →
    (number, w) ∈ s.handed
  /-- No job has two results. -/
  sentOnce : (s.sent.map SentOn.job).Nodup
  /-- A result is of a job that was concluded, has its info in front, and is not empty. -/
  sent : ∀ m ∈ s.sent, m.job ∈ s.concluded ∧
    ∃ job messages, s.submitted[m.job]? = some job ∧ m.frames = job.info :: messages ∧ messages ≠ []

/-- Each job is in one place, and once there, and jobs have gone where they should. -/
structure Conserved (s : Workshop) : Prop extends s.Traced where
  /-- Each job that was submitted is in one place. -/
  place : ∀ number, number < s.submitted.length → ∃! place, number ∈ s.occupants place
  /-- No place has a job twice. -/
  once : ∀ place, (s.occupants place).Nodup

/-- What holds between steps, except for what the workers are doing. -/
structure Kept (s : Workshop) : Prop extends s.Traced where
  /-- The proxy keeps its books. -/
  sound : s.proxy.Sound
  /-- A place is assigned to each job, and the places hold what is assigned to them. -/
  placed : ∃ place, Placement.Placed s.submitted.length s.occupants place
  /-- The proxy is given the jobs as they were submitted. -/
  upstream : ∀ entry ∈ s.upstream, s.submitted[entry.1]? = some entry.2
  /-- The workers are given the frames of the jobs as they were submitted. -/
  inbox : ∀ w, ∀ entry ∈ s.inbox w, s.frames entry.1 = some entry.2
  /-- No message was left without its last part. -/
  unsent : ∀ w, s.unsent w = []

/-- The workers work on the jobs that they have in their hands. -/
def Working (s : Workshop) : Prop :=
  ∀ w, (s.workers w).control.received = (s.hands w).bind s.frames

/-- Where each job is in its place once, none is lost and none is doubled. -/
theorem Kept.conserved {s : Workshop} (h : s.Kept) : s.Conserved where
  toTraced := h.toTraced
  place number hnumber := by
    obtain ⟨place, hplaced⟩ := h.placed
    exact hplaced.existsUnique hnumber
  once p := by
    obtain ⟨place, hplaced⟩ := h.placed
    exact hplaced.nodup p

/-- Without jobs there is nothing to lose. -/
theorem kept_start (heartBeat : Frame → Frame) : (start heartBeat).Kept where
  sound := Forwarding.sound_start
  placed := by
    have hempty : (start heartBeat).occupants = fun _ => [] := by
      funext place
      cases place <;> rfl
    rw [hempty]
    exact ⟨fun _ => .upstream, Placement.placed_zero _⟩
  upstream := nofun
  inbox _ := nofun
  handedOnce := List.nodup_nil
  handed number := by simp [start, occupants]
  worker w number := by simp [start, occupants]
  unsent _ := rfl
  sentOnce := List.nodup_nil
  sent := nofun

/-- At the start no worker has a job in its hands. -/
theorem working_start (heartBeat : Frame → Frame) : (start heartBeat).Working := fun _ => rfl

variable {s : Workshop}

/-! ### Going on with a worker -/

/-- A worker that has received its result or dropped its job lets go of it. -/
theorem settle_of_done {w : Frame} {worker : Worker} {number : ℕ} (hhands : s.hands w = some number)
    (hdone : worker.control.received = none) :
    s.settle w worker =
      { s with
        workers := Function.update s.workers w worker
        hands := Function.update s.hands w none
        concluded := s.concluded ++ [number] } := by
  simp only [settle, hhands, hdone]

/-- A worker without a job in its hands concludes none. -/
theorem settle_of_idle {w : Frame} (hhands : s.hands w = none) (worker : Worker) :
    s.settle w worker = { s with workers := Function.update s.workers w worker } := by
  simp only [settle, hhands]

/-- A worker that is still busy keeps its job. -/
theorem settle_of_busy {w : Frame} {worker : Worker} (hbusy : worker.control.received ≠ none) :
    s.settle w worker = { s with workers := Function.update s.workers w worker } := by
  obtain ⟨frames, hframes⟩ := Option.ne_none_iff_exists'.mp hbusy
  cases hhands : s.hands w with
  | none => exact settle_of_idle hhands worker
  | some number => simp only [settle, hhands, hframes]

/-- The job goes from the hands of the worker to those that are concluded. -/
theorem occupants_settle_of_done {w : Frame} {worker : Worker} {number : ℕ}
    (hhands : s.hands w = some number) (hdone : worker.control.received = none) :
    (s.settle w worker).occupants =
      Function.update (Function.update s.occupants (.hands w) []) .concluded
        (s.occupants .concluded ++ [number]) := by
  rw [settle_of_done hhands hdone]
  funext p
  cases p with
  | upstream | inbox => rfl
  | concluded => simp [occupants]
  | hands v =>
    simp only [occupants, Function.update_apply, Place.hands.injEq, reduceCtorEq, if_false]
    split_ifs with hv <;> simp

/-- Whatever a worker does, its job stays in its hands or is concluded. -/
theorem Kept.settle (h : s.Kept) (w : Frame) (worker : Worker) : (s.settle w worker).Kept := by
  have hsame : ({ s with workers := Function.update s.workers w worker } : Workshop).Kept := { h with }
  by_cases hdone : worker.control.received = none
  · cases hhands : s.hands w with
    | none =>
      rw [settle_of_idle hhands]
      exact hsame
    | some number =>
      -- the job leaves the hands of the worker
      obtain ⟨place, hplaced⟩ := h.placed
      have hmoved := occupants_settle_of_done hhands hdone
      rw [settle_of_done hhands hdone] at hmoved ⊢
      refine
        { h with
          placed := ⟨Function.update place number .concluded, ?hplaced⟩
          worker := ?hworker
          sent := ?hsent }
      case hplaced =>
        have hfirst : s.occupants (.hands w) = [number] := by simp [occupants, hhands]
        have hne : Place.hands w ≠ .concluded := by simp
        rw [hmoved]
        exact hplaced.move hne hfirst
      case hworker =>
        intro v j hj
        apply h.worker
        rcases hj with hj | hj
        · exact Or.inl hj
        · by_cases hv : v = w
          · subst hv
            simp [occupants] at hj
          · simp only [occupants, Function.update_of_ne hv] at hj
            exact Or.inr hj
      case hsent =>
        intro m hm
        obtain ⟨hconcluded, hmessage⟩ := h.sent m hm
        exact ⟨List.mem_append_left _ hconcluded, hmessage⟩
  · rw [settle_of_busy hdone]
    exact hsame

/-- A worker that works works on the job in its hands. -/
theorem working_settle {w : Frame} {worker : Worker}
    (hothers : ∀ v, v ≠ w → (s.workers v).control.received = (s.hands v).bind s.frames)
    (hworker : worker.control.received = none ∨
      worker.control.received = (s.hands w).bind s.frames) : (s.settle w worker).Working := by
  intro v
  by_cases hv : v = w
  · subst hv
    by_cases hdone : worker.control.received = none
    · cases hhands : s.hands v with
      | none =>
        rw [settle_of_idle hhands]
        simp [hhands, hdone]
      | some number =>
        rw [settle_of_done hhands hdone]
        simp [hdone]
    · rw [settle_of_busy hdone]
      -- it is still working, and on the job that it has
      show (Function.update s.workers v worker v).control.received = (s.hands v).bind s.frames
      rw [Function.update_self]
      exact hworker.resolve_left hdone
  · -- nothing changes for the other workers
    have hworkers : (s.settle w worker).workers v = s.workers v := by
      unfold Workshop.settle
      split <;> simp [Function.update_of_ne hv]
    have hhands : (s.settle w worker).hands v = s.hands v := by
      unfold Workshop.settle
      split <;> simp [Function.update_of_ne hv]
    have hframes : (s.settle w worker).frames = s.frames := by
      unfold Workshop.settle
      split <;> rfl
    rw [hworkers, hhands, hframes]
    exact hothers v hv

/-- A worker that goes on without taking a job goes on with its job, or is done with it. -/
theorem received_of_step {w t : Worker} {input : WorkerInput}
    (hinput : ∀ job interrupted, input ≠ .poll (some job) interrupted) (h : w.step input = some t) :
    t.control.received = none ∨ t.control.received = w.control.received := by
  cases Worker.stepped_of_step h with
  | arrived | stayed => exact Or.inr rfl
  | took info frames interrupted => exact absurd rfl (hinput (info, frames) interrupted)
  | cleaned e =>
    apply Or.inl
    show Worker.Control.received (if e = some .other then _ else _) = none
    split_ifs <;> rfl
  | _ => exact Or.inl rfl

/-- A job is taken by a worker that has none. -/
theorem received_of_take {w t : Worker} {info : Frame} {frames : List Frame} {interrupted : Bool}
    (h : w.step (.poll (some (info, frames)) interrupted) = some t) :
    w.control.received = none ∧
      (t.control.received = none ∨ t.control.received = some (info :: frames)) := by
  cases Worker.stepped_of_step h with
  | took _ _ _ hcontrol =>
    rw [hcontrol, Worker.take_control]
    refine ⟨rfl, ?_⟩
    split_ifs
    · exact Or.inl rfl
    · exact Or.inr rfl

/-- When its work function returns, a worker is done with its job. -/
theorem received_of_returned {w t : Worker} {result : WorkResult} {info : Frame}
    {sends : List SendResult} (h : w.step (.returned result info sends) = some t) :
    t.control.received = none := by
  cases Worker.stepped_of_step h with
  | returned => rfl

/-- A worker that goes on without taking a job keeps what holds between steps. -/
theorem kept_settle_of_step {w : Frame} {worker : Worker} {input : WorkerInput} (h : s.Kept)
    (hworking : s.Working) (hinput : ∀ job interrupted, input ≠ .poll (some job) interrupted)
    (hstep : (s.workers w).step input = some worker) :
    (s.settle w worker).Kept ∧ (s.settle w worker).Working := by
  refine ⟨h.settle w worker, working_settle (fun v _ => hworking v) ?_⟩
  rw [← hworking w]
  exact received_of_step hinput hstep

/-! ### Jobs on their way -/

/-- A new job comes in upstream. -/
theorem occupants_submit (s : Workshop) (job : Job) :
    Workshop.occupants
        { s with
          submitted := s.submitted ++ [job]
          upstream := s.upstream ++ [(s.submitted.length, job)] } =
      Function.update s.occupants .upstream (s.occupants .upstream ++ [s.submitted.length]) := by
  funext p
  cases p with
  | upstream => simp [occupants]
  | inbox | hands | concluded => rfl

/-- A job that is submitted is one more that waits upstream. -/
theorem kept_submit (h : s.Kept) (hworking : s.Working) {job : Job} {t : Workshop}
    (hstep : s.step (.submit job) = some t) : t.Kept ∧ t.Working := by
  obtain ⟨place, hplaced⟩ := h.placed
  obtain rfl := Option.some.inj hstep
  -- what is known of the other jobs does not change
  have hold : ∀ number, number < s.submitted.length →
      (s.submitted ++ [job])[number]? = s.submitted[number]? := fun number hlt =>
    List.getElem?_append_left hlt
  have hjob : ∀ (number : ℕ) (job' : Job), s.submitted[number]? = some job' →
      (s.submitted ++ [job])[number]? = some job' := by
    intro number job' hjob'
    rw [hold number (List.getElem?_eq_some_iff.mp hjob').1]
    exact hjob'
  constructor
  · refine
      { h with
        placed := ⟨Function.update place s.submitted.length .upstream, ?hplaced⟩
        upstream := ?hupstream
        inbox := ?hinbox
        handed := ?hhanded
        sent := ?hsent }
    case hplaced =>
      rw [occupants_submit, List.length_append, List.length_singleton]
      exact hplaced.arrive .upstream
    case hupstream =>
      intro entry hentry
      rcases List.mem_append.mp hentry with hentry | hentry
      · exact hjob _ _ (h.upstream entry hentry)
      · obtain rfl := List.mem_singleton.mp hentry
        exact List.getElem?_concat_length
    case hinbox =>
      intro w entry hentry
      obtain ⟨job', hjob', hframes⟩ := Option.map_eq_some_iff.mp (h.inbox w entry hentry)
      exact Option.map_eq_some_iff.mpr ⟨job', hjob _ _ hjob', hframes⟩
    case hhanded =>
      intro number
      have hnew : s.submitted.length ∉ s.occupants .upstream := fun hmem =>
        absurd (hplaced.lt_of_mem hmem) (Nat.lt_irrefl _)
      rw [occupants_submit, Function.update_self, h.handed number]
      simp only [List.length_append, List.length_singleton, List.mem_append, List.mem_singleton, not_or]
      constructor
      · rintro ⟨hlt, hnot⟩
        exact ⟨by omega, hnot, by omega⟩
      · rintro ⟨hlt, hnot, hne⟩
        exact ⟨by omega, hnot⟩
    case hsent =>
      intro m hm
      obtain ⟨hconcluded, job', messages, hjob', hmessage⟩ := h.sent m hm
      exact ⟨hconcluded, job', messages, hjob _ _ hjob', hmessage⟩
  · intro w
    show (s.workers w).control.received = _
    rw [hworking w]
    cases hhands : s.hands w with
    | none => rfl
    | some number =>
      have hmem : number ∈ s.occupants (.hands w) := by simp [occupants, hhands]
      show s.frames number = (s.submitted ++ [job])[number]?.map _
      rw [hold number (hplaced.lt_of_mem hmem)]
      rfl

/-- A job for which all sends are accepted, and for which the choice function does not throw, goes to
one worker, and all its frames do. -/
theorem served_nil {p q : Proxy} {registered : Frame → ℕ} {job : Job} {choice : Choice}
    {d : Option Dispatch} (h : p.Served registered job [] choice q d) (hchoice : choice ≠ .threw) :
    ∃ w sends, d = some { worker := w, sends } ∧ sends.map Prod.fst = w :: job.info :: job.frames := by
  cases h with
  | unchosen => exact absurd rfl hchoice
  | threw _ _ hsends _ hthrew =>
    rw [hsends] at hthrew
    exact absurd hthrew (Proxy.not_threw_sendJob_nil _ _)
  | @served _ _ w sends _ _ hsends =>
    refine ⟨w, sends, rfl, ?_⟩
    rw [hsends, Proxy.map_sendJob_nil]

/-- What is taken from upstream changes the jobs there and no others. -/
theorem occupants_upstream (proxy : Forwarding) (heartBeats : Frame → List Frame)
    (later : List (ℕ × Job)) :
    Workshop.occupants { s with proxy, heartBeats, upstream := later } =
      Function.update s.occupants .upstream (later.map Prod.fst) := by
  funext p
  cases p with
  | upstream | inbox | hands | concluded => rfl

/-- A job that is handed out is put into the inbox of its worker. -/
theorem occupants_deliver (s : Workshop) (number : ℕ) (d : Dispatch) :
    (s.deliver (some number) (some d)).occupants =
      Function.update s.occupants (.inbox d.worker) (s.occupants (.inbox d.worker) ++ [number]) := by
  funext p
  cases p with
  | upstream | hands | concluded => rfl
  | inbox v =>
    simp only [deliver, occupants, Function.update_apply, Place.inbox.injEq]
    split_ifs with hv <;> simp

/-- A job that is dispatched has been handed to its worker, and to no other. -/
theorem Traced.deliver (h : s.Traced) {number : ℕ} {later : List (ℕ × Job)} {job : Job}
    (hupstream : s.upstream = (number, job) :: later) (hlt : number < s.submitted.length)
    (honce : number ∉ later.map Prod.fst) (proxy : Forwarding) (heartBeats : Frame → List Frame)
    (d : Dispatch) :
    Traced ({ s with proxy, heartBeats, upstream := later }.deliver (some number) (some d)) := by
  have hfirst : s.occupants .upstream = number :: later.map Prod.fst := by simp [occupants, hupstream]
  refine { h with handedOnce := ?hhandedOnce, handed := ?hhanded, worker := ?hworker }
  case hhandedOnce =>
    -- it has waited upstream until now
    have hnot : number ∉ s.handed.map Prod.fst := fun hhanded =>
      ((h.handed number).mp hhanded).2 (by simp [hfirst])
    show ((s.handed ++ [(number, d.worker)]).map Prod.fst).Nodup
    rw [List.map_append]
    apply h.handedOnce.append (List.nodup_singleton number)
    simpa using hnot
  case hhanded =>
    intro j
    show j ∈ (s.handed ++ [(number, d.worker)]).map Prod.fst ↔
      j < s.submitted.length ∧ j ∉ later.map Prod.fst
    rw [List.map_append, List.mem_append, h.handed j, hfirst, List.mem_cons, not_or]
    simp only [List.map_cons, List.map_nil, List.mem_singleton]
    by_cases hj : j = number
    · subst hj
      simp [hlt, honce]
    · simp [hj]
  case hworker =>
    intro v j hj
    show (j, v) ∈ s.handed ++ [(number, d.worker)]
    by_cases hnew : j = number ∧ v = d.worker
    · obtain ⟨rfl, rfl⟩ := hnew
      simp
    · apply List.mem_append_left
      apply h.worker
      rw [occupants_deliver] at hj
      refine hj.imp (fun hinbox => ?_) id
      by_cases hv : v = d.worker
      · subst hv
        have hj' : j ≠ number := fun heq => hnew ⟨heq, rfl⟩
        simpa [occupants, hj'] using hinbox
      · have hne : Place.inbox v ≠ .inbox d.worker := fun heq => hv (Place.inbox.inj heq)
        rwa [Function.update_of_ne hne] at hinbox

/-- A job that is dispatched moves from upstream to the inbox of its worker. -/
theorem Kept.deliver (h : s.Kept) {number : ℕ} {job : Job} {later : List (ℕ × Job)}
    (hupstream : s.upstream = (number, job) :: later) {proxy : Forwarding} (hproxy : proxy.Sound)
    (heartBeats : Frame → List Frame) {d : Dispatch}
    (hframes : d.sends.tail.map Prod.fst = job.info :: job.frames) :
    Kept ({ s with proxy, heartBeats, upstream := later }.deliver (some number) (some d)) := by
  obtain ⟨place, hplaced⟩ := h.placed
  have hfirst : s.occupants .upstream = number :: later.map Prod.fst := by simp [occupants, hupstream]
  have hlt : number < s.submitted.length := hplaced.lt_of_mem (p := .upstream) (by simp [hfirst])
  have honce := hplaced.nodup .upstream
  rw [hfirst, List.nodup_cons] at honce
  refine
    { h.toTraced.deliver hupstream hlt honce.1 proxy heartBeats d with
      sound := hproxy
      placed := ⟨Function.update place number (.inbox d.worker), ?hplaced⟩
      upstream := ?hupstream
      inbox := ?hinbox
      unsent := h.unsent }
  case hplaced =>
    have hne : Place.inbox d.worker ≠ .upstream := by simp
    rw [occupants_deliver, occupants_upstream, Function.update_of_ne hne]
    -- the job goes from the front of the channel to the inbox of the worker
    exact hplaced.move hne.symm hfirst
  case hupstream =>
    intro entry hentry
    apply h.upstream
    rw [hupstream]
    exact List.mem_cons_of_mem _ hentry
  case hinbox =>
    intro v entry hentry
    show s.frames entry.1 = some entry.2
    by_cases hv : v = d.worker
    · subst hv
      simp only [Workshop.deliver, Function.update_self, List.mem_append, List.mem_singleton] at hentry
      rcases hentry with hentry | rfl
      · exact h.inbox d.worker entry hentry
      · -- the new entry has the frames that were submitted
        have hjob : s.submitted[number]? = some job := h.upstream (number, job) (by simp [hupstream])
        rw [hframes]
        exact Option.map_eq_some_iff.mpr ⟨job, hjob, rfl⟩
    · simp only [Workshop.deliver, Function.update_of_ne hv] at hentry
      exact h.inbox v entry hentry

/-- A turn of the proxy hands the job that it takes to one worker. -/
theorem kept_forward (h : s.Kept) (hworking : s.Working) {worker : Option (Frame × Node)}
    {choice : Option Choice} {t : Workshop} (hchoice : choice ≠ some .threw)
    (hstep : s.step (.forward worker choice) = some t) : t.Kept ∧ t.Working := by
  cases hbeat : s.nextHeartBeat worker with
  | none => simp [step, hbeat] at hstep
  | some next =>
    obtain ⟨heartBeat, heartBeats⟩ := next
    cases choice with
    | none =>
      simp only [step, hbeat, nextJob, Option.map_none] at hstep
      obtain ⟨proxy, hproxy, rfl⟩ := Option.map_eq_some_iff.mp hstep
      -- without a job only the books of the proxy change
      exact ⟨{ h with sound := (h.sound.step hproxy).1 }, hworking⟩
    | some choice =>
      cases hupstream : s.upstream with
      | nil => simp [step, hbeat, nextJob, hupstream] at hstep
      | cons entry later =>
        obtain ⟨number, job⟩ := entry
        simp only [step, hbeat, nextJob, hupstream, Option.map_some] at hstep
        obtain ⟨proxy, hproxy, ht⟩ := Option.map_eq_some_iff.mp hstep
        obtain ⟨hsound, hturn⟩ := h.sound.step hproxy
        obtain ⟨-, d, hserved, hdispatched⟩ := hturn.served job choice [] rfl
        obtain ⟨w, sends, rfl, hsends⟩ := served_nil hserved fun heq => hchoice (by rw [heq])
        -- the turn has added this dispatch and no other
        have hlast : proxy.dispatched[s.proxy.dispatched.length]? = some { worker := w, sends } := by
          rw [hdispatched]
          exact List.getElem?_concat_length
        have htail : sends.tail.map Prod.fst = job.info :: job.frames := by
          rw [List.map_tail, hsends, List.tail_cons]
        rw [hlast] at ht
        subst ht
        exact ⟨h.deliver hupstream hsound heartBeats htail, hworking⟩

/-- A worker that does not work has no job. -/
theorem Kept.hands_eq_none (h : s.Kept) (hworking : s.Working) {w : Frame}
    (hidle : (s.workers w).control.received = none) : s.hands w = none := by
  obtain ⟨place, hplaced⟩ := h.placed
  -- otherwise the worker would work on that job
  by_contra hbusy
  obtain ⟨number, hhands⟩ := Option.ne_none_iff_exists'.mp hbusy
  have hlt : number < s.submitted.length := hplaced.lt_of_mem (p := .hands w) (by simp [occupants, hhands])
  have hjob : none = s.frames number := by
    have hw := hworking w
    rwa [hidle, hhands, Option.bind_some] at hw
  simp [Workshop.frames, hlt] at hjob

/-- A worker takes the first job of its inbox into its hands. -/
theorem occupants_take {w : Frame} {number : ℕ} {later : List (ℕ × List Frame)}
    (hhands : s.hands w = none) :
    Workshop.occupants
        { s with
          inbox := Function.update s.inbox w later
          hands := Function.update s.hands w (some number) } =
      Function.update (Function.update s.occupants (.inbox w) (later.map Prod.fst)) (.hands w)
        (s.occupants (.hands w) ++ [number]) := by
  funext p
  cases p with
  | upstream | concluded => rfl
  | inbox v =>
    simp only [occupants, Function.update_apply, Place.inbox.injEq, reduceCtorEq, if_false]
    split_ifs with hv <;> simp
  | hands v =>
    simp only [occupants, Function.update_apply, Place.hands.injEq, reduceCtorEq, if_false, hhands]
    split_ifs with hv <;> simp

/-- A job that a worker takes moves from its inbox to its hands. -/
theorem Kept.take (h : s.Kept) {w : Frame} {number : ℕ} {received : List Frame}
    {later : List (ℕ × List Frame)} (hinbox : s.inbox w = (number, received) :: later)
    (hhands : s.hands w = none) :
    Kept
      { s with
        inbox := Function.update s.inbox w later
        hands := Function.update s.hands w (some number) } := by
  obtain ⟨place, hplaced⟩ := h.placed
  have hfirst : s.occupants (.inbox w) = number :: later.map Prod.fst := by simp [occupants, hinbox]
  refine
    { h with
      placed := ⟨Function.update place number (.hands w), ?hplaced⟩
      inbox := ?hinbox
      worker := ?hworker }
  case hplaced =>
    have hne : Place.inbox w ≠ .hands w := by simp
    rw [occupants_take hhands]
    -- the job goes from the inbox of the worker to its hands
    exact hplaced.move hne hfirst
  case hinbox =>
    intro v entry hentry
    apply h.inbox v
    by_cases hv : v = w
    · subst hv
      simp only [Function.update_self] at hentry
      rw [hinbox]
      exact List.mem_cons_of_mem _ hentry
    · simpa only [Function.update_of_ne hv] using hentry
  case hworker =>
    intro v j hj
    apply h.worker
    by_cases hv : v = w
    · -- it was in the inbox of the same worker
      subst hv
      apply Or.inl
      simp only [occupants, Function.update_self, Option.toList_some, List.mem_singleton] at hj
      rw [hfirst, List.mem_cons]
      exact hj.symm
    · simpa only [occupants, Function.update_of_ne hv] using hj

/-- A worker that has no job takes the next one that was sent to it. -/
theorem kept_take (h : s.Kept) (hworking : s.Working) {w : Frame} {interrupted : Bool} {t : Workshop}
    (hstep : s.step (.take w interrupted) = some t) : t.Kept ∧ t.Working := by
  cases hinbox : s.inbox w with
  | nil => simp [step, hinbox] at hstep
  | cons entry later =>
    obtain ⟨number, received⟩ := entry
    cases received with
    | nil => simp [step, hinbox] at hstep
    | cons info frames =>
      simp only [step, hinbox] at hstep
      obtain ⟨worker, hworker, rfl⟩ := Option.map_eq_some_iff.mp hstep
      obtain ⟨hidle, hreceived⟩ := received_of_take hworker
      -- what is in an inbox is as it was submitted
      have hframes : s.frames number = some (info :: frames) :=
        h.inbox w (number, info :: frames) (by simp [hinbox])
      refine ⟨(h.take hinbox (h.hands_eq_none hworking hidle)).settle w worker, ?_⟩
      apply working_settle
      · intro v hv
        simp only [Function.update_of_ne hv]
        exact hworking v
      · simp only [Function.update_self, Option.bind_some]
        show _ ∨ _ = s.frames number
        rw [hframes]
        exact hreceived

/-! ### Results -/

/-- The job of a worker that is done with it has not gone on yet, and may do so. -/
theorem Kept.send (h : s.Kept) {number : ℕ} {job : Job} {messages : List Frame} (loopback : Bool)
    (hconcluded : number ∈ s.concluded) (hnew : number ∉ s.sent.map SentOn.job)
    (hjob : s.submitted[number]? = some job) (hmessages : messages ≠ []) {unsent : Frame → List Frame}
    (hunsent : ∀ w, unsent w = []) :
    Kept
      { s with
        unsent
        sent := s.sent ++ [{ job := number, loopback, frames := job.info :: messages }] } := by
  refine { h with unsent := hunsent, sentOnce := ?hsentOnce, sent := ?hsent }
  case hsentOnce =>
    rw [List.map_append]
    apply h.sentOnce.append (List.nodup_singleton number)
    simpa using hnew
  case hsent =>
    intro m hm
    rcases List.mem_append.mp hm with hm | hm
    · exact h.sent m hm
    · obtain rfl := List.mem_singleton.mp hm
      exact ⟨hconcluded, job, messages, hjob, rfl, hmessages⟩

/-- When a work function returns, its job is concluded, and goes on if there is a result. -/
theorem kept_finish (h : s.Kept) (hworking : s.Working) {w : Frame} {result : WorkResult} {info : Frame}
    {t : Workshop} (hproper : s.Proper (.finish w result info))
    (hstep : s.step (.finish w result info) = some t) : t.Kept ∧ t.Working := by
  obtain ⟨place, hplaced⟩ := h.placed
  cases hhands : s.hands w with
  | none => simp [step, hhands] at hstep
  | some number =>
    simp only [step, hhands] at hstep
    obtain ⟨worker, hworker, rfl⟩ := Option.map_eq_some_iff.mp hstep
    obtain ⟨hmessages, hinfo⟩ := hproper
    have hmem : number ∈ s.occupants (.hands w) := by simp [occupants, hhands]
    -- its own request info is the one that it was submitted with
    obtain ⟨job, hjob⟩ : ∃ job, s.submitted[number]? = some job :=
      ⟨_, List.getElem?_eq_getElem (hplaced.lt_of_mem hmem)⟩
    obtain rfl : info = job.info := hinfo number hhands job hjob
    -- only concluded jobs have gone on, and this one was in the worker's hands
    have hnew : number ∉ s.sent.map SentOn.job := by
      intro hsent
      obtain ⟨m, hm, rfl⟩ := List.mem_map.mp hsent
      have hconcluded := ((hplaced.mem_iff .concluded m.job).mp (h.sent m hm).1).2
      rw [((hplaced.mem_iff (.hands w) m.job).mp hmem).2] at hconcluded
      exact absurd hconcluded (by simp)
    -- the worker is done with the job, whatever becomes of the result
    obtain ⟨hkept, hworking'⟩ := kept_settle_of_step h hworking (by simp) hworker
    have hdone := settle_of_done hhands (received_of_returned hworker)
    rw [hdone] at hkept hworking' ⊢
    have hlast : number ∈ s.concluded ++ [number] := by simp
    by_cases hintermediate : result.intermediate
    · have hne : (Proxy.sendJob job.info result.messages []).length ≠ 1 := by
        rw [← List.length_map (f := Prod.fst), Proxy.map_sendJob_nil]
        simpa using hmessages hintermediate
      simp only [Worker.resultActions, if_pos hintermediate, List.foldl_cons, List.foldl_nil, sendOn,
        if_neg hne, Proxy.map_sendJob_nil, h.unsent w, List.nil_append]
      refine ⟨hkept.send false hlast hnew hjob (hmessages hintermediate) fun v => ?_, hworking'⟩
      by_cases hv : v = w
      · subst hv
        exact Function.update_self _ _ _
      · rw [Function.update_of_ne hv]
        exact h.unsent v
    · by_cases hempty : result.messages ≠ []
      · have hone : result.messages.take 1 ≠ [] := by simpa using hempty
        simp only [Worker.resultActions, if_neg hintermediate, if_pos hempty, List.foldl_cons,
          List.foldl_nil, sendOn, Proxy.map_sendJob_nil]
        exact ⟨hkept.send true hlast hnew hjob hone h.unsent, hworking'⟩
      · simp only [Worker.resultActions, if_neg hintermediate, if_neg hempty, List.foldl_nil]
        exact ⟨hkept, hworking'⟩

/-! ### Runs -/

/-- What holds between steps holds after a proper step. -/
theorem kept_step (h : s.Kept) (hworking : s.Working) {event : Event} {t : Workshop}
    (hproper : s.Proper event) (hstep : s.step event = some t) : t.Kept ∧ t.Working := by
  cases event with
  | submit job => exact kept_submit h hworking hstep
  | forward worker choice => exact kept_forward h hworking hproper hstep
  | take w interrupted => exact kept_take h hworking hstep
  | finish w result info => exact kept_finish h hworking hproper hstep
  | advertise w =>
    obtain ⟨worker, hworker, rfl⟩ := Option.map_eq_some_iff.mp hstep
    -- a heartbeat is not a job
    have hkept : Kept
        { s with
          heartBeats :=
            Function.update s.heartBeats w (s.heartBeats w ++ [worker.heartBeat]) } := { h with }
    exact kept_settle_of_step hkept hworking (by simp) hworker
  | interrupt w | wake w | bail w | fail w | cleanup w | check w =>
    simp only [step] at hstep
    obtain ⟨worker, hworker, rfl⟩ := Option.map_eq_some_iff.mp hstep
    exact kept_settle_of_step h hworking (by simp) hworker

/-- In a run in which the choice function does not throw, no intermediate result is without messages and
no work function changes its request info, jobs are conserved: each is in one place at any time and is
handed to one worker, and at most one message goes on for it, with its own request info. -/
theorem conserved_of_run (heartBeat : Frame → Frame) {events : List Event} {s : Workshop}
    (hproper : StepsMeet step (start heartBeat) events Proper)
    (hrun : run step (start heartBeat) events = some s) : s.Conserved := by
  have hkept : s.Kept ∧ s.Working :=
    invariant_of_stepsMeet (P := fun t => t.Kept ∧ t.Working)
      ⟨kept_start heartBeat, working_start heartBeat⟩
      (fun _ _ _ h hproper hstep => kept_step h.1 h.2 hproper hstep) hproper hrun
  exact hkept.1.conserved

/-- The only worker reports, and a job with one frame is handed to it. -/
def handOver (info : Frame) (choice : Choice) : List Event :=
  [.advertise [9], .submit { upstream := [], info, frames := [[7]] }, .forward (some ([9], 0)) none,
    .forward none (some choice)]

/-- The worker takes its job, leaves the request info as it is, and goes on. -/
def workOn (info : Frame) (intermediate : Bool) (messages : List Frame) : List Event :=
  [.take [9] false, .finish [9] { intermediate, messages, heartBeat := [] } info, .cleanup [9] none,
    .check [9] 0]

/-- An intermediate result and a final one. -/
theorem conserved_of_run_results :
    ∃ s, run step (start fun _ => [])
        (handOver [1] .null ++ workOn [1] true [[5]] ++ (handOver [2] .null ++ workOn [2] false [[6]])) =
          some s ∧
      s.sent = [⟨0, false, [[1], [5]]⟩, ⟨1, true, [[2], [6]]⟩] ∧ s.Conserved := by
  have hrun : (run step (start fun _ => [])
      (handOver [1] .null ++ workOn [1] true [[5]] ++ (handOver [2] .null ++ workOn [2] false [[6]]))).map
        (·.sent) = some [⟨0, false, [[1], [5]]⟩, ⟨1, true, [[2], [6]]⟩] := by decide
  obtain ⟨s, hs, hsent⟩ := Option.map_eq_some_iff.mp hrun
  exact ⟨s, hs, hsent, conserved_of_run _ (by decide) hs⟩

/-- The first job's intermediate result is without messages, and the second result goes on with the
request info of the first job. A job for which the choice function throws is nowhere. -/
theorem not_conserved :
    (∃ s, run step (start fun _ => [])
        (handOver [1] .null ++ workOn [1] true [] ++ (handOver [2] .null ++ workOn [2] true [[6]])) =
          some s ∧ ¬s.Conserved) ∧
      ∃ s, run step (start fun _ => []) (handOver [1] .threw) = some s ∧ ¬s.Conserved := by
  constructor
  · have hrun : (run step (start fun _ => [])
        (handOver [1] .null ++ workOn [1] true [] ++ (handOver [2] .null ++ workOn [2] true [[6]]))).map
          (fun s => (s.sent, s.submitted.map Job.info)) =
        some ([⟨1, false, [[1], [2], [6]]⟩], [[1], [2]]) := by decide
    obtain ⟨s, hs, hvalues⟩ := Option.map_eq_some_iff.mp hrun
    obtain ⟨hsent, hinfos⟩ := Prod.mk.inj hvalues
    refine ⟨s, hs, fun hconserved => ?_⟩
    obtain ⟨-, job, messages, hjob, hframes, -⟩ :=
      hconserved.sent ⟨1, false, [[1], [2], [6]]⟩ (by simp [hsent])
    have hinfo : (s.submitted.map Job.info)[1]? = some job.info := by
      rw [List.getElem?_map, hjob, Option.map_some]
    rw [hinfos] at hinfo
    have hown : job.info = [2] := (Option.some.inj hinfo).symm
    rw [hown] at hframes
    exact absurd (List.cons.inj hframes).1 (by decide)
  · have hrun : (run step (start fun _ => []) (handOver [1] .threw)).map
        (fun s => (s.handed, s.upstream.map Prod.fst, s.submitted.length)) = some ([], [], 1) := by decide
    obtain ⟨s, hs, hvalues⟩ := Option.map_eq_some_iff.mp hrun
    simp only [Prod.mk.injEq] at hvalues
    obtain ⟨hhanded, hupstream, hlength⟩ := hvalues
    refine ⟨s, hs, fun hconserved => ?_⟩
    have hzero := (hconserved.handed 0).mpr ⟨by omega, by simp [occupants, hupstream]⟩
    rw [hhanded] at hzero
    exact absurd hzero (by simp)

end Workshop

end PrimeServer
