import PrimeServer.Library.Components
import PrimeServer.Pipeline.Results

/-!
# The parts of a stage

In a stage, the proxy and the workers run as they do alone. The stage says which heartbeats, jobs and
interrupts they get.

## Main results

* `Workshop.proxy_isComponent`, `Workshop.worker_isComponent`.
-/

namespace PrimeServer

open Transition

namespace Workshop

variable {s t : Workshop}

/-- The turn that the proxy takes in a step. -/
def turn (s : Workshop) : Event → Option ForwardTurn
  | .forward worker choice =>
    match s.nextHeartBeat worker, s.nextJob choice with
    | some (heartBeat, _), some (next, _) =>
      some { heartBeat, job := next.map fun (_, job, choice) => (job, choice, []) }
    | _, _ => none
  | _ => none

/-- The worker that goes on in a step, and what happens to it. -/
def workerInput (s : Workshop) : Event → Option (Frame × WorkerInput)
  | .advertise w => some (w, .advertise .accepted)
  | .take w interrupted =>
    match s.inbox w with
    | (_, info :: frames) :: _ => some (w, .poll (some (info, frames)) interrupted)
    | _ => none
  | .finish w result left => some (w, .returned result left [])
  | event => event.input

/-- What happens to one worker in a step. -/
def inputOf (w : Frame) (s : Workshop) (event : Event) : Option WorkerInput :=
  (s.workerInput event).bind fun (v, input) => if v = w then some input else none

/-- Handing out a job does not reach into a worker: it is in its inbox. -/
theorem deliver_workers (s : Workshop) (number : Option ℕ) (d : Option Dispatch) :
    (s.deliver number d).workers = s.workers := by
  unfold deliver
  split <;> rfl

/-- Handing out a job leaves the proxy as it is: its books were changed before. -/
theorem deliver_proxy (s : Workshop) (number : Option ℕ) (d : Option Dispatch) :
    (s.deliver number d).proxy = s.proxy := by
  unfold deliver
  split <;> rfl

/-- What a worker sends on changes nothing else. -/
theorem foldl_sendOn_eq (w : Frame) (number : ℕ) (actions : List WorkerAction) (s : Workshop) :
    ∃ unsent sent, actions.foldl (fun t => t.sendOn w number) s = { s with unsent, sent } := by
  induction actions generalizing s with
  | nil => exact ⟨s.unsent, s.sent, rfl⟩
  | cons action actions ih =>
    obtain ⟨unsent, sent, hsend⟩ : ∃ unsent sent, s.sendOn w number action = { s with unsent, sent } := by
      cases action with
      | downstream sends =>
        simp only [sendOn]
        split_ifs
        · exact ⟨_, s.sent, rfl⟩
        · exact ⟨_, _, rfl⟩
      | loopback sends => exact ⟨s.unsent, _, rfl⟩
      | heartBeat | worked | cleanedUp => exact ⟨s.unsent, s.sent, rfl⟩
    obtain ⟨unsent', sent', hrest⟩ := ih { s with unsent, sent }
    exact ⟨unsent', sent', by rw [List.foldl_cons, hsend, hrest]⟩

/-- A turn of `forward` is one of the proxy, and leaves the workers alone. -/
theorem step_forward {worker : Option (Frame × Node)} {choice : Option Choice}
    (hstep : s.step (.forward worker choice) = some t) :
    ∃ turn, s.turn (.forward worker choice) = some turn ∧ s.proxy.step turn = some t.proxy ∧
      t.workers = s.workers := by
  cases hbeat : s.nextHeartBeat worker with
  | none => simp [step, hbeat] at hstep
  | some beat =>
    cases hjob : s.nextJob choice with
    | none => simp [step, hbeat, hjob] at hstep
    | some job =>
      simp only [step, hbeat, hjob] at hstep
      obtain ⟨proxy, hproxy, rfl⟩ := Option.map_eq_some_iff.mp hstep
      refine ⟨{ heartBeat := beat.1, job := job.1.map fun (_, job, choice) => (job, choice, []) },
        by simp only [turn, hbeat, hjob], ?_, deliver_workers _ _ _⟩
      rw [deliver_proxy]
      exact hproxy

/-- One worker goes on in a step at most. -/
theorem step_workers {event : Event} (hstep : s.step event = some t) :
    (s.workerInput event = none ∧ t.workers = s.workers) ∨
      ∃ v input worker, s.workerInput event = some (v, input) ∧
        (s.workers v).step input = some worker ∧ t.workers = Function.update s.workers v worker := by
  cases event with
  | submit job =>
    obtain rfl := Option.some.inj hstep
    exact Or.inl ⟨rfl, rfl⟩
  | forward worker choice =>
    obtain ⟨-, -, -, hworkers⟩ := step_forward hstep
    exact Or.inl ⟨rfl, hworkers⟩
  | take w interrupted =>
    cases hinbox : s.inbox w with
    | nil => simp [step, hinbox] at hstep
    | cons entry later =>
      obtain ⟨number, received⟩ := entry
      cases received with
      | nil => simp [step, hinbox] at hstep
      | cons info frames =>
        simp only [step, hinbox] at hstep
        obtain ⟨worker, hworker, rfl⟩ := Option.map_eq_some_iff.mp hstep
        exact Or.inr ⟨w, _, worker, by simp only [workerInput, hinbox], hworker, settle_workers _ _ _⟩
  | finish w result left =>
    cases hhands : s.hands w with
    | none => simp [step, hhands] at hstep
    | some number =>
      simp only [step, hhands] at hstep
      obtain ⟨worker, hworker, rfl⟩ := Option.map_eq_some_iff.mp hstep
      refine Or.inr ⟨w, _, worker, rfl, hworker, ?_⟩
      -- what is sent on afterwards does not change the worker
      obtain ⟨unsent, sent, hsent⟩ :=
        foldl_sendOn_eq w number (Worker.resultActions result left []) (s.settle w worker)
      rw [hsent]
      exact settle_workers s w worker
  | advertise w | interrupt w | wake w | bail w | fail w | cleanup w | check w =>
    simp only [step] at hstep
    obtain ⟨worker, hworker, rfl⟩ := Option.map_eq_some_iff.mp hstep
    exact Or.inr ⟨w, _, worker, rfl, hworker, settle_workers _ _ _⟩

/-- In a stage, each worker runs as it does alone. -/
theorem worker_isComponent (w : Frame) :
    IsComponent step Worker.step (fun s => s.workers w) (inputOf w) where
  of_input_eq_none {s t event} hstep hinput := by
    rcases step_workers hstep with ⟨-, hworkers⟩ | ⟨v, input, worker, hv, -, hworkers⟩
    · exact congrFun hworkers w
    · -- another worker goes on
      have hne : v ≠ w := by simpa [inputOf, hv] using hinput
      show t.workers w = s.workers w
      rw [hworkers, Function.update_of_ne (Ne.symm hne)]
  of_input_eq_some {s t event input} hstep hinput := by
    rcases step_workers hstep with ⟨hnone, -⟩ | ⟨v, input', worker, hv, hworker, hworkers⟩
    · simp [inputOf, hnone] at hinput
    · obtain ⟨rfl, rfl⟩ : v = w ∧ input' = input := by simpa [inputOf, hv] using hinput
      show (s.workers v).step input' = some (t.workers v)
      rw [hworkers, Function.update_self, hworker]

/-- In a stage, the proxy runs as it does alone. -/
theorem proxy_isComponent : IsComponent step Forwarding.step proxy turn where
  of_input_eq_none {s t event} hstep hinput := by
    cases event with
    | submit job =>
      obtain rfl := Option.some.inj hstep
      rfl
    | forward worker choice =>
      obtain ⟨turn, hturn, -, -⟩ := step_forward hstep
      simp [hturn] at hinput
    | take w interrupted =>
      cases hinbox : s.inbox w with
      | nil => simp [step, hinbox] at hstep
      | cons entry later =>
        obtain ⟨number, received⟩ := entry
        cases received with
        | nil => simp [step, hinbox] at hstep
        | cons info frames =>
          simp only [step, hinbox] at hstep
          obtain ⟨worker, -, rfl⟩ := Option.map_eq_some_iff.mp hstep
          -- a worker by itself does not touch the proxy
          exact settle_proxy _ _ _
    | finish w result left =>
      cases hhands : s.hands w with
      | none => simp [step, hhands] at hstep
      | some number =>
        simp only [step, hhands] at hstep
        obtain ⟨worker, -, rfl⟩ := Option.map_eq_some_iff.mp hstep
        obtain ⟨unsent, sent, hsent⟩ :=
          foldl_sendOn_eq w number (Worker.resultActions result left []) (s.settle w worker)
        rw [hsent]
        exact settle_proxy s w worker
    | advertise w | interrupt w | wake w | bail w | fail w | cleanup w | check w =>
      simp only [step] at hstep
      obtain ⟨worker, -, rfl⟩ := Option.map_eq_some_iff.mp hstep
      exact settle_proxy _ _ _
  of_input_eq_some {s t event turn} hstep hturn := by
    cases event with
    | forward worker choice =>
      obtain ⟨turn', hturn', hproxy, -⟩ := step_forward hstep
      obtain rfl := Option.some.inj (hturn'.symm.trans hturn)
      exact hproxy
    | _ => cases hturn

end Workshop

end PrimeServer
