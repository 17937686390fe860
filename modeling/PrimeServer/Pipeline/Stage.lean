import PrimeServer.Pipeline.Bookkeeping

/-!
# A stage of the pipeline

The proxies and workers of one stage, connected by channels that lose nothing and keep the order. A
worker sends its heartbeat whenever it comes out of `poll`, so that a heartbeat may cross a job.

A worker is named by its proxy and the address under which the proxy knows it.

## Main results

* `Stage.busy_of_run`: as long as the proxies take no heartbeat of a worker that has a job to finish,
  no worker ever has two jobs to finish, and no job is sent to a worker that has one.
-/

namespace PrimeServer

open Transition

/-- Where a worker is in the loop of `work`. -/
inductive WorkerControl where
  /-- It is about to call `advertise`. -/
  | advertising
  /-- It waits in `poll`. -/
  | polling
  /-- It is working on a job. -/
  | working (job : List Frame)

/-- The proxies and workers of a stage. -/
structure Stage (P : Type) where
  /-- The proxies, each in front of workers of its own. -/
  proxies : P → Forwarding
  /-- The heartbeats on their way from a worker to its proxy. -/
  heartBeats : P × Frame → List Frame
  /-- The jobs on their way from a proxy to its worker. -/
  jobs : P × Frame → List (List Frame)
  /-- What a worker is doing. -/
  control : P × Frame → WorkerControl

/-- What can happen in a stage. -/
inductive Stage.Event (P : Type) where
  /-- A proxy takes a turn: perhaps it takes the next heartbeat of a worker, and perhaps a job. -/
  | forward (proxy : P) (worker : Option (Frame × Node)) (job : Option (Job × Choice))
  /-- A worker sends its heartbeat. -/
  | advertise (worker : P × Frame) (heartBeat : Frame)
  /-- A worker comes out of `poll` without a job: a timeout, or interrupts. -/
  | wake (worker : P × Frame)
  /-- A worker takes its next job. -/
  | take (worker : P × Frame)
  /-- A worker is done with its job, one way or another. -/
  | finish (worker : P × Frame)

namespace Stage

variable {P : Type} [DecidableEq P]

/-- All workers have just been started. -/
def start : Stage P where
  proxies _ := .start
  heartBeats _ := []
  jobs _ := []
  control _ := .advertising

/-- The jobs that a worker was sent and has not finished. -/
def unfinished (s : Stage P) (worker : P × Frame) : ℕ :=
  (s.jobs worker).length +
    match s.control worker with
    | .working _ => 1
    | _ => 0

/-- The job frames that new dispatches put on the channels. -/
def deliver (proxy : P) (dispatches : List Dispatch) (jobs : P × Frame → List (List Frame)) :
    P × Frame → List (List Frame) :=
  dispatches.foldl
    (fun jobs d =>
      Function.update jobs (proxy, d.worker) (jobs (proxy, d.worker) ++ [d.sends.tail.map Prod.fst]))
    jobs

/-- The next heartbeat of a worker, and the channels without it. -/
def nextHeartBeat (s : Stage P) (proxy : P) :
    Option (Frame × Node) → Option (Option HeartBeat × (P × Frame → List Frame))
  | none => some (none, s.heartBeats)
  | some (worker, node) =>
    match s.heartBeats (proxy, worker) with
    | [] => none
    | heartBeat :: later =>
      some (some { worker, heartBeat, node }, Function.update s.heartBeats (proxy, worker) later)

/-- One step. The sends of a proxy are all accepted. -/
def step (s : Stage P) : Event P → Option (Stage P)
  | .forward proxy worker job =>
    match s.nextHeartBeat proxy worker with
    | none => none
    | some (heartBeat, heartBeats) =>
      match (s.proxies proxy).step
          { heartBeat, job := job.map fun (job, choice) => (job, choice, []) } with
      | none => none
      | some forwarding =>
        some
          { s with
            proxies := Function.update s.proxies proxy forwarding
            heartBeats
            jobs :=
              deliver proxy (forwarding.dispatched.drop (s.proxies proxy).dispatched.length) s.jobs }
  | .advertise worker heartBeat =>
    match s.control worker with
    | .advertising =>
      some
        { s with
          heartBeats := Function.update s.heartBeats worker (s.heartBeats worker ++ [heartBeat])
          control := Function.update s.control worker .polling }
    | _ => none
  | .wake worker =>
    match s.control worker with
    | .polling => some { s with control := Function.update s.control worker .advertising }
    | _ => none
  | .take worker =>
    match s.control worker, s.jobs worker with
    | .polling, job :: later =>
      some
        { s with
          jobs := Function.update s.jobs worker later
          control := Function.update s.control worker (.working job) }
    | _, _ => none
  | .finish worker =>
    match s.control worker with
    | .working _ => some { s with control := Function.update s.control worker .advertising }
    | _ => none

/-- A proxy takes the heartbeat of a worker only when the worker has no job to finish. -/
def Current (s : Stage P) : Event P → Prop
  | .forward proxy (some (worker, _)) _ => s.unfinished (proxy, worker) = 0
  | _ => True

instance (s : Stage P) : (event : Event P) → Decidable (s.Current event)
  | .forward proxy (some (worker, _)) _ =>
    inferInstanceAs (Decidable (s.unfinished (proxy, worker) = 0))
  | .forward _ none _ | .advertise _ _ | .wake _ | .take _ | .finish _ => isTrue trivial

/-- Only idle workers are known to the proxies, and no worker has more than one job to finish. -/
structure Orderly (s : Stage P) : Prop where
  /-- Each proxy keeps its books. -/
  sound : ∀ p, (s.proxies p).Sound
  /-- A worker that its proxy has on the books has nothing to do. -/
  bored : ∀ p worker, (s.proxies p).proxy.workers.find worker ≠ none → s.unfinished (p, worker) = 0
  /-- No worker has more than one job. -/
  once : ∀ worker, s.unfinished worker ≤ 1

omit [DecidableEq P] in
/-- At the start nobody is busy and nobody has advertised. -/
theorem orderly_start : (start : Stage P).Orderly where
  sound _ := Forwarding.sound_start
  bored _ _ _ := rfl
  once _ := Nat.zero_le _

/-- A turn of a proxy whose sends are all accepted sends at most one job. It goes to a worker that is
known when it comes and no longer when it is sent. -/
theorem dispatched_of_step {f g : Forwarding} (hf : f.Sound) {heartBeat : Option HeartBeat}
    {job : Option (Job × Choice)}
    (h : f.step { heartBeat, job := job.map fun (job, choice) => (job, choice, []) } = some g) :
    ∃ d : Option Dispatch, g.dispatched = f.dispatched ++ d.toList ∧
      (∀ d' ∈ d, (f.hear heartBeat).proxy.workers.find d'.worker ≠ none ∧
        g.proxy.workers.find d'.worker = none) ∧
      ∀ worker, g.proxy.workers.find worker ≠ none →
        (f.hear heartBeat).proxy.workers.find worker ≠ none := by
  obtain ⟨-, -, hidle, hserved⟩ := hf.step h
  cases job with
  | none =>
    obtain ⟨hproxy, hsent⟩ := hidle rfl
    exact ⟨none, by simp [hsent], by simp, fun worker hw => hproxy ▸ hw⟩
  | some request =>
    obtain ⟨job, choice⟩ := request
    obtain ⟨-, d, hd, hsent⟩ := hserved job choice [] rfl
    refine ⟨d, hsent, ?_, fun worker hw => ?_⟩
    · generalize g.proxy = q at hd
      -- with all sends accepted, a job goes to the owner of the choice or to nobody
      cases hd with
      | unchosen => nofun
      | threw _ _ hsends _ hthrew =>
        rw [hsends] at hthrew
        exact absurd hthrew (Proxy.not_threw_sendJob_nil _ _)
      | served _ htarget =>
        rintro _ ⟨⟩
        exact ⟨by simp [htarget.owner], UnorderedMap.find_erase_self _ _⟩
    · obtain ⟨node, hnode⟩ := Option.ne_none_iff_exists'.mp hw
      simp [hd.find_workers hnode]

/-- A dispatch is one more job for its worker. -/
theorem length_deliver (proxy : P) (d : Option Dispatch) (jobs : P × Frame → List (List Frame))
    (worker : P × Frame) :
    (deliver proxy d.toList jobs worker).length =
      (jobs worker).length + if worker ∈ d.map fun d => (proxy, d.worker) then 1 else 0 := by
  cases d with
  | none => simp [deliver]
  | some d =>
    by_cases h : worker = (proxy, d.worker)
    · subst h
      simp [deliver]
    · have h' : (proxy, d.worker) ≠ worker := fun heq => h heq.symm
      simp [deliver, Function.update_of_ne h, h']

/-- The heartbeat that a turn takes is that of an idle worker, if it is current. -/
theorem unfinished_of_nextHeartBeat {s : Stage P} {proxy : P} {worker : Option (Frame × Node)}
    {job : Option (Job × Choice)} {heartBeat : Option HeartBeat}
    {heartBeats : P × Frame → List Frame} (hcurrent : s.Current (.forward proxy worker job))
    (hnext : s.nextHeartBeat proxy worker = some (heartBeat, heartBeats)) {b : HeartBeat}
    (hb : b ∈ heartBeat) : s.unfinished (proxy, b.worker) = 0 := by
  cases worker with
  | none =>
    simp only [nextHeartBeat, Option.some.injEq, Prod.mk.injEq] at hnext
    simp [← hnext.1] at hb
  | some worker =>
    obtain ⟨w, node⟩ := worker
    cases hbeats : s.heartBeats (proxy, w) with
    | nil => simp [nextHeartBeat, hbeats] at hnext
    | cons beat later =>
      simp only [nextHeartBeat, hbeats, Option.some.injEq, Prod.mk.injEq] at hnext
      rw [← hnext.1] at hb
      obtain rfl := Option.some.inj hb
      exact hcurrent

/-- A turn of a proxy that takes no heartbeat of a busy worker keeps what holds, and sends no job to a
busy worker. -/
theorem Orderly.forward {s t : Stage P} (hs : s.Orderly) {proxy : P} {worker : Option (Frame × Node)}
    {job : Option (Job × Choice)} (hcurrent : s.Current (.forward proxy worker job))
    (h : s.step (.forward proxy worker job) = some t) :
    t.Orderly ∧ ∀ d, (t.proxies proxy).dispatched = (s.proxies proxy).dispatched ++ [d] →
      s.unfinished (proxy, d.worker) = 0 := by
  simp only [step] at h
  cases hnext : s.nextHeartBeat proxy worker with
  | none => simp [hnext] at h
  | some next =>
    obtain ⟨heartBeat, heartBeats⟩ := next
    simp only [hnext] at h
    cases hstep : (s.proxies proxy).step
        { heartBeat, job := job.map fun (job, choice) => (job, choice, []) } with
    | none => simp [hstep] at h
    | some g =>
      simp only [hstep, Option.some.injEq] at h
      subst h
      have hsound := hs.sound proxy
      obtain ⟨d, hsent, htarget, hknown⟩ := dispatched_of_step hsound hstep
      -- whoever is known when the job comes is idle
      have hidle : ∀ w, ((s.proxies proxy).hear heartBeat).proxy.workers.find w ≠ none →
          s.unfinished (proxy, w) = 0 := by
        intro w hw
        rcases hsound.find_hear (Forwarding.possible_of_step hstep).2.2 hw with ⟨b, hb, rfl⟩ | hw
        · exact unfinished_of_nextHeartBeat hcurrent hnext hb
        · exact hs.bored proxy w hw
      have hcount : ∀ w, (deliver proxy (g.dispatched.drop (s.proxies proxy).dispatched.length)
          s.jobs w).length =
          (s.jobs w).length + if w ∈ d.map fun d => (proxy, d.worker) then 1 else 0 := by
        intro w
        rw [hsent, List.drop_left, length_deliver]
      have hunfinished : ∀ w, unfinished
          { s with
            proxies := Function.update s.proxies proxy g
            heartBeats
            jobs := deliver proxy (g.dispatched.drop (s.proxies proxy).dispatched.length) s.jobs } w =
          s.unfinished w + if w ∈ d.map fun d => (proxy, d.worker) then 1 else 0 := by
        intro w
        simp only [unfinished, hcount]
        omega
      refine ⟨⟨fun p => ?_, fun p w hw => ?_, fun w => ?_⟩, fun d' hd' => ?_⟩
      · by_cases hp : p = proxy
        · subst hp
          simpa using (hsound.step hstep).1
        · simpa [hp] using hs.sound p
      · rw [hunfinished]
        by_cases hp : p = proxy
        · subst hp
          simp only [Function.update_self] at hw
          have hnot : (p, w) ∉ d.map fun d => (p, d.worker) := by
            intro hmem
            obtain ⟨d', hd', heq⟩ := Option.map_eq_some_iff.mp hmem
            obtain rfl : d'.worker = w := (Prod.mk.inj heq).2
            exact hw (htarget d' hd').2
          rw [if_neg hnot, hidle w (hknown w hw)]
        · simp only [Function.update_of_ne hp] at hw
          have hnot : (p, w) ∉ d.map fun d => (proxy, d.worker) := by
            intro hmem
            obtain ⟨d', -, heq⟩ := Option.map_eq_some_iff.mp hmem
            exact hp (Prod.mk.inj heq).1.symm
          rw [if_neg hnot, hs.bored p w hw]
      · rw [hunfinished]
        split_ifs with hmem
        · obtain ⟨d', hd', rfl⟩ := Option.map_eq_some_iff.mp hmem
          rw [hidle _ (htarget d' hd').1]
        · exact hs.once w
      · simp only [Function.update_self] at hd'
        obtain rfl : d = some d' := by
          have hlist : d.toList = [d'] := List.append_cancel_left (hsent.symm.trans hd')
          cases d with
          | none => simp at hlist
          | some d => simpa using hlist
        exact hidle _ (htarget d' rfl).1

omit [DecidableEq P] in
/-- The steps of a worker change nobody's jobs but its own, and it never has more of them. -/
theorem Orderly.of_worker {s t : Stage P} (hs : s.Orderly) (worker : P × Frame)
    (hproxies : t.proxies = s.proxies) (hself : t.unfinished worker ≤ s.unfinished worker)
    (hothers : ∀ w ≠ worker, t.jobs w = s.jobs w ∧ t.control w = s.control w) : t.Orderly := by
  have hunfinished : ∀ w, t.unfinished w ≤ s.unfinished w := fun w => by
    by_cases hw : w = worker
    · exact hw ▸ hself
    · obtain ⟨hjobs, hcontrol⟩ := hothers w hw
      rw [unfinished, unfinished, hjobs, hcontrol]
  refine ⟨fun p => hproxies ▸ hs.sound p, fun p w hw => ?_,
    fun w => Nat.le_trans (hunfinished w) (hs.once w)⟩
  rw [hproxies] at hw
  have hzero := hs.bored p w hw
  have hle := hunfinished (p, w)
  omega

/-- A stage stays in order if jobs are only handed to workers whose heartbeat is a current one. -/
theorem Orderly.step {s t : Stage P} {event : Event P} (hs : s.Orderly) (hcurrent : s.Current event)
    (h : s.step event = some t) : t.Orderly := by
  cases event with
  | forward proxy worker job => exact (hs.forward hcurrent h).1
  | advertise worker heartBeat =>
    simp only [Stage.step] at h
    cases hcontrol : s.control worker with
    | polling | working => simp [hcontrol] at h
    | advertising =>
      simp only [hcontrol, Option.some.injEq] at h
      subst h
      refine hs.of_worker worker rfl ?_ fun w hw => ?_
      · simp [unfinished, hcontrol]
      · simp [Function.update_of_ne hw]
  | wake worker =>
    simp only [Stage.step] at h
    cases hcontrol : s.control worker with
    | advertising | working => simp [hcontrol] at h
    | polling =>
      simp only [hcontrol, Option.some.injEq] at h
      subst h
      refine hs.of_worker worker rfl ?_ fun w hw => ?_
      · simp [unfinished, hcontrol]
      · simp [Function.update_of_ne hw]
  | take worker =>
    simp only [Stage.step] at h
    cases hcontrol : s.control worker with
    | advertising | working => simp [hcontrol] at h
    | polling =>
      cases hjobs : s.jobs worker with
      | nil => simp [hcontrol, hjobs] at h
      | cons job later =>
        simp only [hcontrol, hjobs, Option.some.injEq] at h
        subst h
        refine hs.of_worker worker rfl ?_ fun w hw => ?_
        · -- the job leaves the channel and is being worked on
          simp [unfinished, hcontrol, hjobs]
        · simp [Function.update_of_ne hw]
  | finish worker =>
    simp only [Stage.step] at h
    cases hcontrol : s.control worker with
    | advertising | polling => simp [hcontrol] at h
    | working job =>
      simp only [hcontrol, Option.some.injEq] at h
      subst h
      refine hs.of_worker worker rfl ?_ fun w hw => ?_
      · simp [unfinished]
      · simp [Function.update_of_ne hw]

/-- In a run in which the proxies take the heartbeat of a worker only when the worker has no job to
finish, every worker has at most one job to finish at any time, and no job is sent to one that has
one. -/
theorem busy_of_run {events : List (Event P)} {s : Stage P}
    (hcurrent : StepsMeet step start events Current) (hrun : run step start events = some s) :
    (∀ worker, s.unfinished worker ≤ 1) ∧
      ∀ proxy worker job t, s.Current (.forward proxy worker job) →
        s.step (.forward proxy worker job) = some t →
          ∀ d, (t.proxies proxy).dispatched = (s.proxies proxy).dispatched ++ [d] →
            s.unfinished (proxy, d.worker) = 0 := by
  have horderly : s.Orderly :=
    invariant_of_stepsMeet orderly_start (fun _ _ _ hs hC h => hs.step hC h) hcurrent hrun
  exact ⟨horderly.once, fun _ _ _ _ hC h => (horderly.forward hC h).2⟩

/-- A worker that takes its job and finishes it before it sends its next heartbeat. -/
def inTurn : List (Event Unit) :=
  [.advertise ((), ascii "w") [], .forward () (some (ascii "w", 1)) none,
    .forward () none (some (⟨[], [1], [[2]]⟩, .null)), .take ((), ascii "w"), .finish ((), ascii "w"),
    .advertise ((), ascii "w") [], .forward () (some (ascii "w", 1)) none]

/-- Jobs that are handed out in turn find each worker with one job at most. -/
theorem busy_of_inTurn :
    ∃ s, run step (start : Stage Unit) inTurn = some s ∧ ∀ worker, s.unfinished worker ≤ 1 := by
  obtain ⟨s, hs⟩ := Option.isSome_iff_exists.mp
    (by decide : (run step (start : Stage Unit) inTurn).isSome)
  exact ⟨s, hs, (busy_of_run (by decide) hs).1⟩

/-- A worker that comes out of `poll` before its first job arrives. -/
def crossing : List (Event Unit) :=
  [.advertise ((), ascii "w") [], .wake ((), ascii "w"), .advertise ((), ascii "w") [],
    .forward () (some (ascii "w", 1)) none, .forward () none (some (⟨[], [1], [[2]]⟩, .null)),
    .forward () (some (ascii "w", 1)) none, .forward () none (some (⟨[], [3], [[4]]⟩, .null))]

/-- The second heartbeat is taken for that of a worker that is bored, and the worker is sent a second
job. -/
theorem busy_of_crossing :
    ∃ s, run step (start : Stage Unit) crossing = some s ∧ ¬s.unfinished ((), ascii "w") ≤ 1 := by
  have hrun : (run step (start : Stage Unit) crossing).map (fun s => s.unfinished ((), ascii "w")) =
      some 2 := by decide
  obtain ⟨s, hs, htwo⟩ := Option.map_eq_some_iff.mp hrun
  exact ⟨s, hs, by omega⟩

end Stage

end PrimeServer
