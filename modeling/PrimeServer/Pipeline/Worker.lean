import PrimeServer.Cpp.UnorderedMap
import PrimeServer.Library.Transition
import PrimeServer.Pipeline.Proxy

/-!
# A worker

`worker_t`: the loop of `work`, and the interrupts that tell a worker to give up a job. What the work
function and the cleanup function do comes from outside. Shutting down is not modelled.

An interrupt message has one frame, the key of a request. `recv_all` takes the frames of one message,
however many messages wait.

## Main results

* `Worker.stepped_of_step`: all that a step can do;
* `Worker.interrupted_iff`: a cancellation that has arrived is heeded exactly if it was recorded before or
  is the first of those that wait.
-/

namespace PrimeServer

/-- The first eight bytes of a request info, read as `uint64_t`: the id and the time stamp. -/
def jobOf (info : Frame) : UInt64 :=
  .ofNat ((info.take 8).foldr (fun b n => b.toNat + 256 * n) 0)

/-- What is thrown, as far as the `catch` clauses of `work` tell it apart. -/
inductive Thrown where
  /-- `interrupt_t`. -/
  | interrupt
  /-- Another `std::exception`. -/
  | std
  /-- Something that is no `std::exception`. -/
  | other
  deriving DecidableEq

/-- `worker_t::result_t`. -/
structure WorkResult where
  /-- Whether it goes to the next stage. -/
  intermediate : Bool
  /-- The frames of the message. -/
  messages : List Frame
  /-- What the worker advertises with from then on. -/
  heartBeat : Frame

/-- The value of `job` between jobs. -/
def noJob : UInt64 := .ofNat (2 ^ 64 - 1)

/-- Where a worker is in `work`. A flag says that `poll` has found interrupts. -/
inductive Worker.Control where
  /-- It is about to call `advertise`. -/
  | advertising
  /-- It waits in `poll`. -/
  | polling
  /-- It is in the work function. -/
  | working (info : Frame) (frames : List Frame) (interrupted : Bool)
  /-- It is about to call the cleanup function. -/
  | cleaning (interrupted : Bool)
  /-- It is about to look at interrupts. -/
  | checking (interrupted : Bool)
  /-- An exception has left `work`. -/
  | escaped
  deriving DecidableEq

/-- What a worker does that can be seen from outside. -/
inductive WorkerAction where
  /-- It has sent its heartbeat to the proxy. -/
  | heartBeat (heartBeat : Frame) (result : SendResult)
  /-- The work function is called. -/
  | worked (info : Frame) (frames : List Frame)
  /-- A result is sent to the next proxy. -/
  | downstream (sends : Sends)
  /-- A result is sent to the server. -/
  | loopback (sends : Sends)
  /-- It has called its cleanup function. -/
  | cleanedUp
  deriving DecidableEq

/-- The state of `worker_t`, the interrupt messages that wait on its socket, and all that it has done. -/
structure Worker where
  /-- What it advertises with. -/
  heartBeat : Frame
  /-- The key of the job that it is working on. -/
  job : UInt64
  /-- The keys it has heard of and not yet forgotten. -/
  interrupts : UnorderedSet UInt64
  /-- The keys in the order in which they came, for `cull_interrupts`. -/
  interruptHistory : List UInt64
  /-- The interrupts that its socket holds, which it has not read. -/
  waiting : List UInt64
  /-- Where it is in `work`. -/
  control : Worker.Control
  /-- What it has done, in order. -/
  wire : List WorkerAction

/-- What can happen to a worker. -/
inductive WorkerInput where
  /-- An interrupt message arrives. -/
  | arrive (key : UInt64)
  /-- It sends its heartbeat. -/
  | advertise (sent : SendResult)
  /-- It comes out of `poll`, perhaps with a job. -/
  | poll (job : Option (Frame × List Frame)) (interrupted : Bool)
  /-- The work function calls `bail`. -/
  | bail
  /-- The work function returns. It has left `info` in the request info. -/
  | returned (result : WorkResult) (info : Frame) (sends : List SendResult)
  /-- The work function throws. -/
  | threw (e : Thrown)
  /-- The cleanup function returns or throws. -/
  | cleanup (e : Option Thrown)
  /-- It looks at interrupts, perhaps, at this time. -/
  | check (now : ℕ)

namespace Worker

/-- A worker that has just been constructed. -/
def start (heartBeat : Frame) : Worker where
  heartBeat
  job := noJob
  interrupts := .empty
  interruptHistory := []
  waiting := []
  control := .advertising
  wire := []

/-- Remember interrupts. -/
def remember (w : Worker) (keys : List UInt64) : Worker :=
  { w with
    interrupts := keys.foldl UnorderedSet.insert w.interrupts
    interruptHistory := w.interruptHistory ++ keys }

/-- `worker_t::handle_interrupt`, and whether it throws. -/
def handleInterrupt (w : Worker) (forceCheck : Bool) : Worker × Bool :=
  -- is there anything there right now
  let messages := w.waiting.take 1
  let w := { w with waiting := w.waiting.drop 1 }.remember messages
  -- either we just got more or we need to check the backlog
  (w, (forceCheck || messages ≠ []) && w.interrupts.Contains w.job)

/-- `INTERRUPT_AGE_CUTOFF`. -/
def interruptAgeCutoff : UInt32 := 600

/-- Cull off the old ones. -/
def cull (dropDead : UInt32) : List UInt64 → UnorderedSet UInt64 → List UInt64 × UnorderedSet UInt64
  | [], interrupts => ([], interrupts)
  | key :: history, interrupts =>
    if (key >>> 32).toNat < dropDead.toNat then cull dropDead history (interrupts.erase key)
    else (key :: history, interrupts)

/-- What becomes of the result of the work function. -/
def resultActions (result : WorkResult) (info : Frame) (sends : List SendResult) : List WorkerAction :=
  -- should we send this on to the next proxy
  if result.intermediate then [.downstream (Proxy.sendJob info result.messages sends)]
  -- or are we done
  else if result.messages ≠ [] then
    [.loopback (Proxy.sendJob info (result.messages.take 1) sends)]
  -- an empty result is no good
  else []

/-- Start on a job. -/
def take (w : Worker) (info : Frame) (frames : List Frame) (interrupted : Bool) : Worker :=
  -- check if this request_info is one we should abort
  match { w with job := jobOf info }.handleInterrupt true with
  | (w, true) => { w with job := noJob, control := .cleaning interrupted }
  | (w, false) =>
    { w with control := .working info frames interrupted, wire := w.wire ++ [.worked info frames] }

/-- One step. Exceptions of the sends are caught. -/
def step (w : Worker) : WorkerInput → Option Worker
  | .arrive key => some { w with waiting := w.waiting ++ [key] }
  | .advertise sent =>
    match w.control with
    | .advertising =>
      some { w with control := .polling, wire := w.wire ++ [.heartBeat w.heartBeat sent] }
    | _ => none
  | .poll none interrupted =>
    match w.control with
    | .polling => some { w with control := .checking interrupted }
    | _ => none
  | .poll (some (info, frames)) interrupted =>
    match w.control with
    | .polling => some (w.take info frames interrupted)
    | _ => none
  | .bail =>
    match w.control with
    | .working _ _ interrupted =>
      match w.handleInterrupt false with
      | (w, true) => some { w with job := noJob, control := .cleaning interrupted }
      | (w, false) => some w
    | _ => none
  | .returned result info sends =>
    match w.control with
    | .working _ _ interrupted =>
      some
        { w with
          heartBeat := result.heartBeat
          job := noJob
          control := .cleaning interrupted
          wire := w.wire ++ resultActions result info sends }
    | _ => none
  | .threw e =>
    match w.control with
    | .working _ _ interrupted =>
      some
        (match e with
        | .interrupt | .std => { w with job := noJob, control := .cleaning interrupted }
        -- nothing catches it
        | .other => { w with control := .escaped })
    | _ => none
  | .cleanup e =>
    match w.control with
    | .cleaning interrupted =>
      some
        { w with
          control := if e = some .other then .escaped else .checking interrupted
          wire := w.wire ++ [.cleanedUp] }
    | _ => none
  | .check now =>
    match w.control with
    | .checking false => some { w with control := .advertising }
    | .checking true =>
      match w.handleInterrupt false with
      -- nothing catches it here
      | (w, true) => some { w with control := .escaped }
      | (w, false) =>
        let (interruptHistory, interrupts) :=
          cull (.ofNat now - interruptAgeCutoff) w.interruptHistory w.interrupts
        some { w with interrupts, interruptHistory, control := .advertising }
    | _ => none

/-! ### Interrupts -/

variable {w : Worker}

/-- The key was recorded, or it is in the message that `handle_interrupt` takes. -/
def Sees (w : Worker) (key : UInt64) : Prop := w.interrupts.Contains key ∨ w.waiting.head? = some key

instance (w : Worker) (key : UInt64) : Decidable (w.Sees key) :=
  inferInstanceAs (Decidable (w.interrupts.Contains key ∨ w.waiting.head? = some key))

/-- `handle_interrupt` throws exactly if it looks and sees the key of the job. -/
theorem handleInterrupt_snd_iff (w : Worker) (forceCheck : Bool) :
    (w.handleInterrupt forceCheck).2 ↔ (forceCheck ∨ w.waiting ≠ []) ∧ w.Sees w.job := by
  cases hw : w.waiting with
  | nil => simp [handleInterrupt, remember, Sees, hw]
  | cons key waiting =>
    simp only [handleInterrupt, remember, Sees, hw, List.take_succ_cons, List.take_zero,
      List.foldl_cons, List.foldl_nil, List.head?_cons, Option.some.injEq]
    rw [eq_comm (a := key), or_comm (b := w.job = key)]
    simp

/-- Looking at interrupts does not move the worker. -/
theorem handleInterrupt_control (w : Worker) (forceCheck : Bool) :
    (w.handleInterrupt forceCheck).1.control = w.control := rfl

/-- Looking at interrupts does not change the job. -/
theorem handleInterrupt_job (w : Worker) (forceCheck : Bool) :
    (w.handleInterrupt forceCheck).1.job = w.job := rfl

/-- The work function is called for a job unless its key is seen. -/
theorem take_control (w : Worker) (info : Frame) (frames : List Frame) (interrupted : Bool) :
    (w.take info frames interrupted).control =
      if w.Sees (jobOf info) then .cleaning interrupted else .working info frames interrupted := by
  have hthrows : (({ w with job := jobOf info } : Worker).handleInterrupt true).2 ↔
      w.Sees (jobOf info) := by
    rw [handleInterrupt_snd_iff]
    exact and_iff_right (Or.inl rfl)
  unfold take
  generalize ({ w with job := jobOf info } : Worker).handleInterrupt true = outcome at hthrows
  obtain ⟨t, threw⟩ := outcome
  cases threw with
  | true => exact (if_pos (hthrows.mp rfl)).symm
  | false => exact (if_neg fun hsees => Bool.false_ne_true (hthrows.mpr hsees)).symm

/-! ### Steps -/

/-- All that a step can do. -/
inductive Stepped (w : Worker) : WorkerInput → Worker → Prop where
  /-- An interrupt waits on the socket. -/
  | arrived (key : UInt64) : Stepped w (.arrive key) { w with waiting := w.waiting ++ [key] }
  /-- The heartbeat was sent, or not. -/
  | advertised (sent : SendResult) (hcontrol : w.control = .advertising) :
      Stepped w (.advertise sent)
        { w with control := .polling, wire := w.wire ++ [.heartBeat w.heartBeat sent] }
  /-- `poll` has found no job. -/
  | woke (interrupted : Bool) (hcontrol : w.control = .polling) :
      Stepped w (.poll none interrupted) { w with control := .checking interrupted }
  /-- `poll` has found a job. -/
  | took (info : Frame) (frames : List Frame) (interrupted : Bool) (hcontrol : w.control = .polling) :
      Stepped w (.poll (some (info, frames)) interrupted) (w.take info frames interrupted)
  /-- `bail` finds the job interrupted and throws. -/
  | bailed {info : Frame} {frames : List Frame} {interrupted : Bool}
      (hcontrol : w.control = .working info frames interrupted)
      (hthrew : (w.handleInterrupt false).2) :
      Stepped w .bail
        { (w.handleInterrupt false).1 with job := noJob, control := .cleaning interrupted }
  /-- `bail` finds the job not interrupted. -/
  | stayed {info : Frame} {frames : List Frame} {interrupted : Bool}
      (hcontrol : w.control = .working info frames interrupted)
      (hthrew : ¬(w.handleInterrupt false).2) : Stepped w .bail (w.handleInterrupt false).1
  /-- The work function returns, and its result is sent. -/
  | returned {info : Frame} {frames : List Frame} {interrupted : Bool} (result : WorkResult)
      (left : Frame) (sends : List SendResult)
      (hcontrol : w.control = .working info frames interrupted) :
      Stepped w (.returned result left sends)
        { w with
          heartBeat := result.heartBeat
          job := noJob
          control := .cleaning interrupted
          wire := w.wire ++ resultActions result left sends }
  /-- The work function throws what `work` catches. -/
  | caught {info : Frame} {frames : List Frame} {interrupted : Bool} {e : Thrown}
      (hcontrol : w.control = .working info frames interrupted) (he : e ≠ .other) :
      Stepped w (.threw e) { w with job := noJob, control := .cleaning interrupted }
  /-- The work function throws something else. -/
  | uncaught {info : Frame} {frames : List Frame} {interrupted : Bool}
      (hcontrol : w.control = .working info frames interrupted) :
      Stepped w (.threw .other) { w with control := .escaped }
  /-- The cleanup function was called. -/
  | cleaned {interrupted : Bool} (e : Option Thrown) (hcontrol : w.control = .cleaning interrupted) :
      Stepped w (.cleanup e)
        { w with
          control := if e = some .other then .escaped else .checking interrupted
          wire := w.wire ++ [.cleanedUp] }
  /-- There were no interrupts. -/
  | unchecked (now : ℕ) (hcontrol : w.control = .checking false) :
      Stepped w (.check now) { w with control := .advertising }
  /-- There were, and the job is among them: `handle_interrupt` throws out of `work`. -/
  | interrupted (now : ℕ) (hcontrol : w.control = .checking true)
      (hthrew : (w.handleInterrupt false).2) :
      Stepped w (.check now) { (w.handleInterrupt false).1 with control := .escaped }
  /-- There were, and the old ones are forgotten. -/
  | checked {now : ℕ} {history : List UInt64} {interrupts : UnorderedSet UInt64}
      (hcontrol : w.control = .checking true) (hthrew : ¬(w.handleInterrupt false).2)
      (hcull : cull (.ofNat now - interruptAgeCutoff) (w.handleInterrupt false).1.interruptHistory
        (w.handleInterrupt false).1.interrupts = (history, interrupts)) :
      Stepped w (.check now)
        { (w.handleInterrupt false).1 with
          interrupts
          interruptHistory := history
          control := .advertising }

/-- Each step of a worker is one of those that `Stepped` lists. -/
theorem stepped_of_step {input : WorkerInput} {t : Worker} (h : w.step input = some t) :
    w.Stepped input t := by
  cases input with
  | arrive key =>
    obtain rfl := Option.some.inj h
    exact .arrived key
  | advertise sent =>
    cases hcontrol : w.control <;> simp only [step, hcontrol, Option.some.injEq, reduceCtorEq] at h
    subst h
    exact .advertised sent hcontrol
  | poll job interrupted =>
    cases hcontrol : w.control <;> cases job <;>
      simp only [step, hcontrol, Option.some.injEq, reduceCtorEq] at h
    · subst h
      exact .woke interrupted hcontrol
    · subst h
      exact .took _ _ interrupted hcontrol
  | bail =>
    cases hcontrol : w.control <;> simp only [step, hcontrol, reduceCtorEq] at h
    -- `handle_interrupt` throws or returns
    split at h
    case h_1 u houtcome =>
      obtain rfl := Option.some.inj h
      have hbailed := Stepped.bailed hcontrol (by rw [houtcome])
      rwa [houtcome] at hbailed
    case h_2 u houtcome =>
      obtain rfl := Option.some.inj h
      have hstayed := Stepped.stayed hcontrol (by rw [houtcome]; exact Bool.false_ne_true)
      rwa [houtcome] at hstayed
  | returned result left sends =>
    cases hcontrol : w.control <;> simp only [step, hcontrol, Option.some.injEq, reduceCtorEq] at h
    subst h
    exact .returned result left sends hcontrol
  | threw e =>
    cases hcontrol : w.control <;> simp only [step, hcontrol, Option.some.injEq, reduceCtorEq] at h
    subst h
    cases e with
    | interrupt | std => exact .caught hcontrol (by simp)
    | other => exact .uncaught hcontrol
  | cleanup e =>
    cases hcontrol : w.control <;> simp only [step, hcontrol, Option.some.injEq, reduceCtorEq] at h
    subst h
    exact .cleaned e hcontrol
  | check now =>
    cases hcontrol : w.control with
    | checking interrupted =>
      cases interrupted with
      | false =>
        simp only [step, hcontrol, Option.some.injEq] at h
        subst h
        exact .unchecked now hcontrol
      | true =>
        simp only [step, hcontrol] at h
        split at h
        case h_1 u houtcome =>
          obtain rfl := Option.some.inj h
          have hinterrupted := Stepped.interrupted now hcontrol (by rw [houtcome])
          rwa [houtcome] at hinterrupted
        case h_2 u houtcome =>
          obtain rfl := Option.some.inj h
          have hchecked : w.Stepped (.check now) _ :=
            .checked hcontrol (by rw [houtcome]; exact Bool.false_ne_true) rfl
          rwa [houtcome] at hchecked
    | _ => simp [step, hcontrol] at h

/-! ### Cancellation -/

/-- A cancellation that has arrived for a job keeps the work function from being called, and makes `bail`
throw, exactly if its key was recorded or is the first of those that wait. -/
theorem interrupted_iff (w : Worker) (info : Frame) (frames : List Frame) (interrupted : Bool) :
    ((w.interrupts.Contains (jobOf info) ∨ jobOf info ∈ w.waiting →
        (w.take info frames interrupted).control = .cleaning interrupted) ↔
      (jobOf info ∈ w.waiting → w.Sees (jobOf info))) ∧
    ((w.job ∈ w.waiting → (w.handleInterrupt false).2) ↔ (w.job ∈ w.waiting → w.Sees w.job)) := by
  constructor
  · rw [take_control]
    constructor
    · -- a key that waits, but not as the first, is not seen
      intro hheeded hwaiting
      by_contra hsees
      have hcleaning := hheeded (Or.inr hwaiting)
      rw [if_neg hsees] at hcleaning
      cases hcleaning
    · rintro hsees (hrecorded | hwaiting)
      · exact if_pos (Or.inl hrecorded)
      · exact if_pos (hsees hwaiting)
  · refine imp_congr_right fun hwaiting => ?_
    rw [handleInterrupt_snd_iff]
    exact and_iff_right (Or.inr (List.ne_nil_of_mem hwaiting))

/-- A worker for which two interrupts wait. -/
def twoWaiting (control : Control) : Worker :=
  { start [] with job := 7, waiting := [5, 7], control }

/-- The second of two interrupts that wait is not seen, neither before the work nor during it. -/
theorem overlooks_interrupt :
    ¬(∀ (w : Worker) (info : Frame) (frames : List Frame) (interrupted : Bool),
      w.interrupts.Contains (jobOf info) ∨ jobOf info ∈ w.waiting →
        (w.take info frames interrupted).control = .cleaning interrupted) ∧
    ¬(∀ w : Worker, w.job ∈ w.waiting → (w.handleInterrupt false).2) := by
  constructor
  · intro hheeded
    have hcontrol := hheeded (twoWaiting .polling) [7] [] false (Or.inr (by decide))
    exact absurd hcontrol (by decide)
  · intro hthrows
    have hthrew := hthrows (twoWaiting (.working [7] [] false)) (by decide)
    exact absurd hthrew (by decide)

end Worker

end PrimeServer
