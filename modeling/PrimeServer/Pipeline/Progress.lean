import Mathlib.Data.Fintype.EquivFin
import PrimeServer.Library.Reachability
import PrimeServer.Pipeline.Cancellation
import PrimeServer.Pipeline.Exceptions

/-!
# A stage does not get stuck

Whatever has happened in a stage, it can finish the jobs that were submitted, by itself: the proxy hears
heartbeats and hands out jobs, and the workers go on in their loops. A worker that was interrupted, or whose
work function has thrown, comes back for the next job.

## Main results

* `Workshop.Live.step`: what keeps a stage going is kept by each step in which nothing is lost;
* `Workshop.Live.advance`: a worker gets one step closer to its next heartbeat;
* `Workshop.finished_of_run`: from each state of each run, the stage can finish all jobs.
-/

namespace PrimeServer

open Transition

namespace Worker

/-- How far a worker is from sending its heartbeat. -/
def Control.distance : Control → ℕ
  | .advertising => 0
  | .checking _ => 1
  | .polling | .cleaning _ => 2
  | .working _ _ _ => 3
  | .escaped => 4

variable {w t : Worker}

/-- A worker that no interrupt for the value of `job` between jobs has reached looks at interrupts and goes
on. -/
theorem advertising_of_check {interrupted : Bool} (now : ℕ) (hw : w.Survives)
    (hunknown : ¬w.Knows noJob) (hcontrol : w.control = .checking interrupted) :
    ∃ t, w.step (.check now) = some t ∧ t.control = .advertising := by
  cases hstep : w.step (.check now) with
  | none =>
    cases interrupted with
    | false => simp [step, hcontrol] at hstep
    | true =>
      simp only [step, hcontrol] at hstep
      split at hstep <;> cases hstep
  | some t =>
    refine ⟨t, rfl, ?_⟩
    cases stepped_of_step hstep with
    | unchecked | checked => rfl
    | interrupted _ _ hthrew =>
      have hjob : w.job = noJob := by simpa [Survives, hcontrol] using hw
      rw [handleInterrupt_snd_iff, hjob] at hthrew
      exact absurd hthrew.2.knows hunknown

end Worker

/-- It may return something for each job. -/
def WorkFunction.Total (work : WorkFunction) : Prop :=
  ∀ info frames, ∃ result left, work.Returns info frames result left

namespace Workshop

variable {work : WorkFunction} {s t : Workshop}

/-- Nothing is lost and no worker ends: the functions of the user throw only a `std::exception`, the choice
function does not throw, and no interrupt is for the value of `job` between jobs. -/
def Event.Harmless : Event → Prop
  | .forward _ choice => choice ≠ some .threw
  | .interrupt _ key => key ≠ noJob
  | .fail _ e => e ≠ .other
  | .cleanup _ e => e ≠ some .other
  | _ => True

instance : (event : Event) → Decidable event.Harmless
  | .forward _ choice => inferInstanceAs (Decidable (choice ≠ some .threw))
  | .interrupt _ key => inferInstanceAs (Decidable (key ≠ noJob))
  | .fail _ e => inferInstanceAs (Decidable (e ≠ .other))
  | .cleanup _ e => inferInstanceAs (Decidable (e ≠ some .other))
  | .submit _ | .advertise _ | .wake _ _ | .take _ _ | .bail _ | .finish _ _ _ | .check _ _ =>
    isTrue trivial

/-- The stage does this by itself: no job and no interrupt comes from elsewhere, and nothing throws. -/
def Event.Own : Event → Prop
  | .forward _ choice => choice ≠ some .threw
  | .cleanup _ e => e = none
  | .advertise _ | .wake _ _ | .take _ _ | .finish _ _ _ | .check _ _ => True
  | .submit _ | .interrupt _ _ | .bail _ | .fail _ _ => False

/-- The proxy and the workers do no harm by themselves. -/
theorem Event.Own.harmless {event : Event} (h : event.Own) : event.Harmless := by
  cases event with
  | forward => exact h
  | cleanup _ e =>
    obtain rfl : e = none := h
    simp [Harmless]
  | submit | interrupt | bail | fail => exact h.elim
  | advertise | wake | take | finish | check => trivial

/-- A job is submitted, handed out or taken. -/
def Event.Moves : Event → Prop
  | .submit _ | .forward _ (some _) | .take _ _ => True
  | .forward _ none | .interrupt _ _ | .advertise _ | .wake _ _ | .bail _ | .finish _ _ _ | .fail _ _
  | .cleanup _ _ | .check _ _ => False

/-- Each job is in one place. -/
def Placed (s : Workshop) : Prop := ∃ place, Placement.Placed s.submitted.length s.occupants place

/-- What keeps a stage going. -/
structure Live (work : WorkFunction) (s : Workshop) : Prop where
  /-- What is on its way has the content of its job. -/
  content : s.Content work
  /-- No worker has died or left its loop. -/
  survives : ∀ w, (s.workers w).Survives
  /-- No worker has heard of an interrupt with the key of no job. -/
  unknown : ∀ w, ¬(s.workers w).Knows noJob
  /-- Each job is in one place. -/
  placed : s.Placed

/-- A stage without jobs can go on. -/
theorem live_start (work : WorkFunction) (heartBeat : Frame → Frame) : (start heartBeat).Live work where
  content := content_start work heartBeat
  survives w := Worker.survives_start (heartBeat w)
  unknown w := by simp [start, Worker.start, Worker.Knows, UnorderedSet.Contains]
  placed := (kept_start heartBeat).placed

/-! ### What stays as it is -/

/-- No job is submitted, taken or handed out. -/
structure Steady (s t : Workshop) : Prop where
  /-- No job came in. -/
  submitted : t.submitted = s.submitted
  /-- The proxy has taken no job. -/
  upstream : t.upstream = s.upstream
  /-- No job was handed out or received. -/
  inbox : t.inbox = s.inbox
  /-- A worker keeps its job until it is done with it. -/
  hands : ∀ w, ∀ number ∈ s.hands w, number ∈ t.hands w ∨ number ∈ t.concluded
  /-- What was concluded stays concluded. -/
  concluded : s.concluded <+: t.concluded

namespace Steady

/-- Doing nothing is steady. -/
theorem refl (s : Workshop) : s.Steady s where
  submitted := rfl
  upstream := rfl
  inbox := rfl
  hands _ _ := Or.inl
  concluded := List.prefix_rfl

/-- Two steady steps are steady together. -/
theorem trans {u : Workshop} (h : s.Steady t) (h' : t.Steady u) : s.Steady u where
  submitted := h'.submitted.trans h.submitted
  upstream := h'.upstream.trans h.upstream
  inbox := h'.inbox.trans h.inbox
  hands w number hnumber := by
    rcases h.hands w number hnumber with hnumber | hnumber
    · exact h'.hands w number hnumber
    · exact Or.inr (h'.concluded.subset hnumber)
  concluded := h.concluded.trans h'.concluded

/-- Letting a worker settle moves no job by itself. -/
theorem settle (s : Workshop) (w : Frame) (worker : Worker) : s.Steady (s.settle w worker) := by
  cases hhands : s.hands w with
  | none =>
    rw [settle_of_idle hhands]
    exact { refl s with }
  | some number =>
    by_cases hdone : worker.control.received = none
    · rw [settle_of_done hhands hdone]
      refine { refl s with
        hands := fun v number' hnumber' => ?_
        concluded := List.prefix_append _ _ }
      by_cases hv : v = w
      · subst hv
        obtain rfl : number = number' := Option.some.inj (hhands.symm.trans hnumber')
        exact Or.inr (List.mem_append_right _ (List.mem_singleton_self number))
      · apply Or.inl
        show number' ∈ Function.update s.hands w none v
        rwa [Function.update_of_ne hv]
    · rw [settle_of_busy hdone]
      exact { refl s with }

/-- What a worker sends moves no job by itself. -/
theorem foldl_sendOn (s : Workshop) (w : Frame) (number : ℕ) (actions : List WorkerAction) :
    s.Steady (actions.foldl (fun t => t.sendOn w number) s) := by
  obtain ⟨unsent, sent, heq⟩ := foldl_sendOn_eq w number actions s
  rw [heq]
  exact { refl s with }

end Steady

/-! ### Steps -/

/-- Where no job is submitted, handed out or taken, jobs only go from hands to where they are concluded. -/
theorem steady_of_step (hs : s.Content work) {event : Event} (hmoves : ¬event.Moves)
    (hstep : s.step event = some t) : s.Steady t := by
  cases stepped_of_step hs.sound hstep with
  | submitted | lost | handed | took => exact absurd trivial hmoves
  | heard => exact { Steady.refl s with }
  | @advertised w worker =>
    have hsame : s.Steady
        { s with
          heartBeats :=
            Function.update s.heartBeats w (s.heartBeats w ++ [worker.heartBeat]) } :=
      { Steady.refl s with }
    exact hsame.trans (.settle _ w worker)
  | finished => exact (Steady.settle s _ _).trans (.foldl_sendOn _ _ _ _)
  | wentOn => exact .settle s _ _

/-- Whatever a worker does, its job stays in its hands or is concluded. -/
theorem Placed.settle (h : s.Placed) (w : Frame) (worker : Worker) : (s.settle w worker).Placed := by
  by_cases hdone : worker.control.received = none
  · cases hhands : s.hands w with
    | none =>
      rw [settle_of_idle hhands]
      exact h
    | some number =>
      obtain ⟨place, hplaced⟩ := h
      have hfirst : s.occupants (.hands w) = [number] := by simp [occupants, hhands]
      refine ⟨Function.update place number .concluded, ?_⟩
      rw [settle_submitted, occupants_settle_of_done hhands hdone]
      exact hplaced.move (by simp) hfirst
  · rw [settle_of_busy hdone]
    exact h

/-- Sending a result leaves each job in its place. -/
theorem Placed.foldl_sendOn (h : s.Placed) (w : Frame) (number : ℕ) (actions : List WorkerAction) :
    (actions.foldl (fun t => t.sendOn w number) s).Placed := by
  obtain ⟨unsent, sent, heq⟩ := foldl_sendOn_eq w number actions s
  rw [heq]
  exact h

/-- A step in which nothing is lost leaves each job in one place. -/
theorem Placed.step (h : s.Placed) (hs : s.Content work) {event : Event} (hharmless : event.Harmless)
    (hstep : s.step event = some t) : t.Placed := by
  cases stepped_of_step hs.sound hstep with
  | submitted job =>
    obtain ⟨place, hplaced⟩ := h
    -- the new job has the next number, and waits for the proxy
    refine ⟨Function.update place s.submitted.length .upstream, ?_⟩
    rw [occupants_submit, List.length_append, List.length_singleton]
    exact hplaced.arrive .upstream
  | heard => exact h
  | lost => exact absurd rfl hharmless
  | @handed _ _ number job later proxy heartBeats d _ _ hupstream =>
    obtain ⟨place, hplaced⟩ := h
    have hfirst : s.occupants .upstream = number :: later.map Prod.fst := by
      simp [occupants, hupstream]
    -- the first job that waits goes to the worker that was chosen
    refine ⟨Function.update place number (.inbox d.worker), ?_⟩
    rw [occupants_deliver, occupants_upstream, Function.update_of_ne (by simp)]
    exact hplaced.move (by simp) hfirst
  | @advertised w worker =>
    have hsame : Placed
        { s with
          heartBeats :=
            Function.update s.heartBeats w (s.heartBeats w ++ [worker.heartBeat]) } := h
    exact hsame.settle w worker
  | @took w interrupted number info frames later worker hinbox hworker =>
    obtain ⟨place, hplaced⟩ := h
    have hfirst : s.occupants (.inbox w) = number :: later.map Prod.fst := by
      simp [occupants, hinbox]
    apply Placed.settle
    -- the first job of the inbox goes to the hands of the worker
    refine ⟨Function.update place number (.hands w), ?_⟩
    rw [occupants_take (hs.hands_eq_none (received_of_take hworker).1)]
    exact hplaced.move (by simp) hfirst
  | finished => exact (h.settle _ _).foldl_sendOn _ _ _
  | wentOn => exact h.settle _ _

/-- A worker goes on in its loop. -/
theorem handled_of_harmless {event : Event} (hharmless : event.Harmless) {w : Frame}
    {input : WorkerInput} (hunknown : ¬(s.workers w).Knows noJob)
    (hinput : s.workerInput event = some (w, input)) : (s.workers w).Handled input := by
  cases input with
  | arrive | advertise | poll | bail | returned => trivial
  | check => exact fun _ _ hsees => hunknown hsees.knows
  | threw e =>
    cases event with
    | fail v e' =>
      obtain ⟨-, rfl⟩ := by simpa [workerInput, Event.input] using hinput
      exact hharmless
    | take =>
      simp only [workerInput] at hinput
      split at hinput <;> simp at hinput
    | _ => simp [workerInput, Event.input] at hinput
  | cleanup e =>
    cases event with
    | cleanup v e' =>
      obtain ⟨-, rfl⟩ := by simpa [workerInput, Event.input] using hinput
      exact hharmless
    | take =>
      simp only [workerInput] at hinput
      split at hinput <;> simp at hinput
    | _ => simp [workerInput, Event.input] at hinput

/-- A step in which nothing is lost keeps the stage going. -/
theorem Live.step (h : s.Live work) {event : Event} (hreturns : s.Returns work event)
    (hharmless : event.Harmless) (hstep : s.step event = some t) : t.Live work where
  content := h.content.step hreturns hstep
  survives w := by
    rcases step_workers hstep with ⟨-, hworkers⟩ | ⟨v, input, worker, hv, hworker, hworkers⟩
    · rw [hworkers]
      exact h.survives w
    · rw [hworkers]
      by_cases hw : w = v
      · subst hw
        rw [Function.update_self]
        -- what could end the worker is not harmless
        exact (Worker.survives_iff_handled (h.survives w) hworker).mpr
          (handled_of_harmless hharmless (h.unknown w) hv)
      · rw [Function.update_of_ne hw]
        exact h.survives w
  unknown w hknows := by
    rcases step_workers hstep with ⟨-, hworkers⟩ | ⟨v, input, worker, hv, hworker, hworkers⟩
    · rw [hworkers] at hknows
      exact h.unknown w hknows
    · rw [hworkers] at hknows
      by_cases hw : w = v
      · subst hw
        rw [Function.update_self] at hknows
        rcases Worker.knows_of_step hworker hknows with hknew | rfl
        · exact h.unknown w hknew
        · obtain rfl := interrupt_of_workerInput hv
          exact hharmless rfl
      · rw [Function.update_of_ne hw] at hknows
        exact h.unknown w hknows
  placed := h.placed.step h.content hharmless hstep

/-! ### Ways on -/

/-- The stage goes on by itself, and a work function that returns returns what it may. -/
def GoesOn (work : WorkFunction) (s : Workshop) (event : Event) : Prop :=
  s.Returns work event ∧ event.Own

/-- The stage can conclude the job by itself. -/
def CanConclude (work : WorkFunction) (s : Workshop) (number : ℕ) : Prop :=
  CanReach step (GoesOn work) (fun t => number ∈ t.concluded) s

/-- A step of a worker alone is one of the stage. -/
theorem step_of_input {event : Event} {w : Frame} {input : WorkerInput} {worker : Worker}
    (hevent : event.input = some (w, input)) (hworker : (s.workers w).step input = some worker) :
    s.step event = some (s.settle w worker) := by
  cases event <;> simp only [Event.input, Option.some.injEq, Prod.mk.injEq, reduceCtorEq] at hevent <;>
    obtain ⟨rfl, rfl⟩ := hevent <;> simp [step, hworker]

/-- A worker that advertises puts its heartbeat on its way. -/
theorem step_advertise_eq {w : Frame} {worker : Worker}
    (hworker : (s.workers w).step (.advertise .accepted) = some worker) :
    s.step (.advertise w) =
      some
        ({ s with
          heartBeats := Function.update s.heartBeats w (s.heartBeats w ++ [worker.heartBeat]) }.settle w
            worker) := by
  simp only [step, hworker, Option.map_some]

/-- A worker that waits takes the job that comes next. -/
theorem step_take_eq {w info : Frame} {frames : List Frame} {number : ℕ} {later : List (ℕ × List Frame)}
    (hpolling : (s.workers w).control = .polling)
    (hinbox : s.inbox w = (number, info :: frames) :: later) :
    s.step (.take w false) =
      some
        ({ s with
          inbox := Function.update s.inbox w later
          hands := Function.update s.hands w (some number) }.settle w
            ((s.workers w).take info frames false)) := by
  simp only [step, hinbox, Worker.step, hpolling, Option.map_some]

/-- The proxy hears a heartbeat. -/
theorem step_hear_eq (hs : s.Content work) {w beat : Frame} {later : List Frame} {node : Node}
    (hbeat : s.heartBeats w = beat :: later) (hnode : node ∉ s.proxy.proxy.nodes) :
    s.step (.forward (some (w, node)) none) =
      some
        { s with
          proxy := s.proxy.hear (some { worker := w, heartBeat := beat, node })
          heartBeats := Function.update s.heartBeats w later } := by
  have hpossible : s.proxy.Possible
      { heartBeat := some { worker := w, heartBeat := beat, node }, job := none } := by
    refine ⟨hs.sound.undefined, Or.inl rfl, ?_⟩
    rintro _ ⟨⟩
    exact hnode
  simp only [step, nextHeartBeat, hbeat, nextJob, Option.map_none, Forwarding.step, if_pos hpossible,
    Forwarding.serve, ite_self, Option.map_some, deliver]

/-- A worker that has not sent its heartbeat yet gets one step closer to it. -/
theorem Live.advance (h : s.Live work) (htotal : work.Total) (w : Frame)
    (hcontrol : (s.workers w).control ≠ .advertising) :
    ∃ event t, s.GoesOn work event ∧ ¬event.Moves ∧ s.step event = some t ∧
      (t.workers w).control.distance < (s.workers w).control.distance := by
  cases hc : (s.workers w).control with
  | advertising => exact absurd hc hcontrol
  | polling =>
    have hworker : (s.workers w).step (.poll none false) =
        some { s.workers w with control := .checking false } := by
      simp only [Worker.step, hc]
    refine ⟨.wake w false, _, ⟨trivial, trivial⟩, id, step_of_input rfl hworker, ?_⟩
    simp [Worker.Control.distance]
  | checking interrupted =>
    obtain ⟨worker, hworker, hadvertising⟩ :=
      Worker.advertising_of_check 0 (h.survives w) (h.unknown w) hc
    refine ⟨.check w 0, _, ⟨trivial, trivial⟩, id, step_of_input rfl hworker, ?_⟩
    simp [hadvertising, Worker.Control.distance]
  | cleaning interrupted =>
    have hworker : (s.workers w).step (.cleanup none) =
        some
          { s.workers w with
            control := .checking interrupted
            wire := (s.workers w).wire ++ [.cleanedUp] } := by
      simp [Worker.step, hc]
    refine ⟨.cleanup w none, _, ⟨trivial, rfl⟩, id, step_of_input rfl hworker, ?_⟩
    simp [Worker.Control.distance]
  | escaped =>
    have hsurvives := h.survives w
    rw [Worker.Survives, hc] at hsurvives
    exact hsurvives.elim
  | working info frames interrupted =>
    obtain ⟨result, left, hreturns⟩ := htotal info frames
    -- the worker has the job in its hands
    have hreceived := h.content.working w
    rw [hc] at hreceived
    obtain ⟨number, hhands, -⟩ := Option.bind_eq_some_iff.mp hreceived.symm
    obtain ⟨worker, hworker, hcleaning⟩ : ∃ worker,
        (s.workers w).step (.returned result left []) = some worker ∧
          worker.control = .cleaning interrupted := by
      simp [Worker.step, hc]
    have hstep : s.step (.finish w result left) =
        some ((Worker.resultActions result left []).foldl (fun t => t.sendOn w number)
          (s.settle w worker)) := by
      simp only [Workshop.step, hhands, hworker, Option.map_some]
    refine ⟨.finish w result left, _, ⟨?_, trivial⟩, id, hstep, ?_⟩
    · rw [Returns, hc]
      exact hreturns
    · obtain ⟨unsent, sent, hsent⟩ :=
        foldl_sendOn_eq w number (Worker.resultActions result left []) (s.settle w worker)
      rw [hsent]
      simp [hcleaning, Worker.Control.distance]

/-- What is concluded stays so. -/
theorem concluded_of_step (hs : s.Content work) {event : Event} (hstep : s.step event = some t) :
    s.concluded <+: t.concluded := by
  by_cases hmoves : event.Moves
  · cases stepped_of_step hs.sound hstep with
    | submitted | lost | handed => exact List.prefix_rfl
    | @took w _ number _ _ later worker =>
      exact (Steady.settle
        { s with
          inbox := Function.update s.inbox w later
          hands := Function.update s.hands w (some number) } w worker).concluded
    | heard | advertised | finished => exact hmoves.elim
    | wentOn => exact (Steady.settle s _ _).concluded
  · exact (steady_of_step hs hmoves hstep).concluded

/-- A worker comes to wait for a job, with a heartbeat of its own on its way. -/
theorem Live.canReach_polling (h : s.Live work) (htotal : work.Total) (w : Frame) :
    CanReach Workshop.step (GoesOn work)
      (fun t => t.Live work ∧ s.Steady t ∧ (t.workers w).control = .polling ∧ t.heartBeats w ≠ []) s := by
  induction hd : (s.workers w).control.distance using Nat.strong_induction_on generalizing s with
  | h d ih =>
    by_cases hcontrol : (s.workers w).control = .advertising
    · obtain ⟨worker, hworker, hpolling⟩ : ∃ worker,
          (s.workers w).step (.advertise .accepted) = some worker ∧ worker.control = .polling := by
        simp [Worker.step, hcontrol]
      have hstep := step_advertise_eq hworker
      have hgoes : s.GoesOn work (.advertise w) := ⟨trivial, trivial⟩
      refine canReach_of_step hgoes hstep ⟨h.step hgoes.1 hgoes.2.harmless hstep,
        steady_of_step h.content id hstep, ?_, ?_⟩
      · simp [hpolling]
      · simp
    · obtain ⟨event, t, hgoes, hmoves, hstep, hcloser⟩ := h.advance htotal w hcontrol
      have hsteady := steady_of_step h.content hmoves hstep
      apply CanReach.of_step hgoes hstep
      apply (ih _ (hd ▸ hcloser) (h.step hgoes.1 hgoes.2.harmless hstep) rfl).mono
      rintro u ⟨hu, hrest, hpolling⟩
      exact ⟨hu, hsteady.trans hrest, hpolling⟩

/-- A job at hand can be concluded. -/
theorem Live.canReach_of_hands (h : s.Live work) (htotal : work.Total) {w : Frame}
    {number : ℕ} (hnumber : number ∈ s.hands w) :
    s.CanConclude work number := by
  apply (h.canReach_polling htotal w).mono
  rintro t ⟨ht, hsteady, hpolling, -⟩
  have hidle : t.hands w = none := ht.content.hands_eq_none (by rw [hpolling]; rfl)
  rcases hsteady.hands w number hnumber with hhands | hconcluded
  · rw [hidle] at hhands
    cases hhands
  · exact hconcluded

/-- A job in an inbox can be concluded. The worker takes those before it first. -/
theorem Live.canReach_of_inbox (h : s.Live work) (htotal : work.Total) {w : Frame}
    {number : ℕ} (hnumber : number ∈ (s.inbox w).map Prod.fst) :
    s.CanConclude work number := by
  induction hinbox : s.inbox w generalizing s with
  | nil => simp [hinbox] at hnumber
  | cons entry later ih =>
    obtain ⟨first, received⟩ := entry
    apply (h.canReach_polling htotal w).trans
    rintro t ⟨ht, hsteady, hpolling, -⟩
    rw [← hsteady.inbox] at hinbox hnumber
    -- what was sent to the worker begins with the request info
    obtain ⟨job, -, rfl⟩ :=
      Option.map_eq_some_iff.mp (ht.content.inbox w (first, received) (by simp [hinbox]))
    have hstep := step_take_eq hpolling hinbox
    have hgoes : t.GoesOn work (.take w false) := ⟨trivial, trivial⟩
    have hlive := ht.step hgoes.1 hgoes.2.harmless hstep
    apply CanReach.of_step hgoes hstep
    rw [hinbox, List.map_cons, List.mem_cons] at hnumber
    rcases hnumber with rfl | hlater
    · -- the job itself is taken
      have hsteady' := Steady.settle
        { t with
          inbox := Function.update t.inbox w later
          hands := Function.update t.hands w (some number) } w
        ((t.workers w).take job.info job.frames false)
      rcases hsteady'.hands w number (Function.update_self w (some number) t.hands) with
        hhands | hconcluded
      · exact hlive.canReach_of_hands htotal hhands
      · exact canReach_self hconcluded
    · exact ih hlive (by simpa using hlater) (by simp)

end Workshop

namespace Forwarding

/-- After a heartbeat some worker is known to be bored. -/
theorem Sound.fifo_hear_ne_nil {s : Forwarding} (hs : s.Sound) {b : HeartBeat}
    (hfresh : b.node ∉ s.proxy.nodes) : (s.hear (some b)).proxy.fifo ≠ [] := by
  have hfifo : ∀ r : Proxy, r.nodes ≠ [] → r.fifo ≠ [] := fun r => by simp [Proxy.nodes]
  obtain ⟨q, hbored, -, hcases⟩ := Proxy.bored_spec hs.bookkeeping hfresh
  have hproxy : (s.hear (some b)).proxy = q := by
    simp only [Forwarding.hear, hbored]
    split_ifs <;> rfl
  rw [hproxy]
  apply hfifo
  rcases hcases with ⟨-, hnodes, -⟩ | ⟨hknown, hnodes, -⟩
  · simp [hnodes]
  · obtain ⟨node, hnode⟩ := Option.ne_none_iff_exists'.mp hknown
    have hlisted := (hs.bookkeeping.listed node).mpr ⟨_, (hs.bookkeeping.owner _ _).mpr hnode⟩
    rw [hnodes]
    exact List.ne_nil_of_mem hlisted

end Forwarding

namespace Workshop

variable {work : WorkFunction} {s t : Workshop}

/-- The proxy comes to know a worker that is bored. -/
theorem Live.canReach_bored (h : s.Live work) (htotal : work.Total) :
    CanReach Workshop.step (GoesOn work)
      (fun t => t.Live work ∧ s.Steady t ∧ t.proxy.proxy.fifo ≠ []) s := by
  apply (h.canReach_polling htotal []).trans
  rintro t ⟨ht, hsteady, -, hbeats⟩
  obtain ⟨beat, later, hbeat⟩ := List.exists_cons_of_ne_nil hbeats
  -- a list node has an address that no other node has
  obtain ⟨node, hnode⟩ := Infinite.exists_notMem_finset t.proxy.proxy.nodes.toFinset
  rw [List.mem_toFinset] at hnode
  have hstep := step_hear_eq ht.content hbeat hnode
  have hgoes : t.GoesOn work (.forward (some ([], node)) none) := ⟨trivial, by simp [Event.Own]⟩
  refine canReach_of_step hgoes hstep ⟨ht.step hgoes.1 hgoes.2.harmless hstep,
    hsteady.trans (steady_of_step ht.content id hstep), ht.content.sound.fifo_hear_ne_nil hnode⟩

/-- A proxy that knows a worker hands out the next job. -/
theorem exists_step_forward (hs : s.Content work) (hfifo : s.proxy.proxy.fifo ≠ [])
    (hupstream : s.upstream ≠ []) : ∃ t, s.step (.forward none (some .null)) = some t := by
  obtain ⟨⟨number, job⟩, later, hfirst⟩ := List.exists_cons_of_ne_nil hupstream
  have hpossible : s.proxy.Possible { heartBeat := none, job := some (job, .null, []) } := by
    refine ⟨hs.sound.undefined, Or.inr ?_, by simp⟩
    simp [Proxy.expire, hfifo]
  simp [Workshop.step, nextHeartBeat, nextJob, hfirst, Forwarding.step, hpossible]

/-- A job upstream can be concluded. Those before it are handed out first. -/
theorem Live.canReach_of_upstream (h : s.Live work) (htotal : work.Total) {number : ℕ}
    (hnumber : number ∈ s.upstream.map Prod.fst) :
    s.CanConclude work number := by
  induction hupstream : s.upstream generalizing s with
  | nil => simp [hupstream] at hnumber
  | cons entry later ih =>
    apply (h.canReach_bored htotal).trans
    rintro t ⟨ht, hsteady, hfifo⟩
    rw [← hsteady.upstream] at hupstream hnumber
    obtain ⟨u, hstep⟩ := exists_step_forward ht.content hfifo (by simp [hupstream])
    have hgoes : t.GoesOn work (.forward none (some .null)) := ⟨trivial, by simp [Event.Own]⟩
    have hlive := ht.step hgoes.1 hgoes.2.harmless hstep
    apply CanReach.of_step hgoes hstep
    cases stepped_forward ht.content.sound hstep with
    | @handed _ _ first job later' proxy heartBeats d _ _ hfirst =>
      rw [hfirst] at hnumber hupstream
      obtain ⟨-, rfl⟩ := List.cons.inj hupstream
      rw [List.map_cons, List.mem_cons] at hnumber
      rcases hnumber with rfl | hlater
      · exact hlive.canReach_of_inbox htotal (w := d.worker) (by simp [deliver])
      · exact ih hlive hlater rfl
    | wentOn hevent => cases hevent

/-- Wherever a job is, there are further steps at whose end it is concluded. -/
theorem Live.canReach_concluded (h : s.Live work) (htotal : work.Total) {number : ℕ}
    (hnumber : number < s.submitted.length) : s.CanConclude work number := by
  obtain ⟨place, hplaced⟩ := h.placed
  obtain ⟨place, hplace, -⟩ := hplaced.existsUnique hnumber
  cases place with
  | upstream => exact h.canReach_of_upstream htotal hplace
  | inbox w => exact h.canReach_of_inbox htotal hplace
  | hands w => exact h.canReach_of_hands htotal (by simpa [occupants] using hplace)
  | concluded => exact canReach_self hplace

/-- The echo workers have something to return for each job. -/
theorem echo_total : echo.Total := fun info frames => ⟨⟨false, frames, []⟩, info, rfl, rfl, rfl⟩

/-- The work function throws for the first job, and the second one is still upstream. -/
def halfway : List Event :=
  handOver [1] .null ++
    [.take [9] true, .fail [9] .std, .interrupt [9] 1, .submit { upstream := [], info := [2], frames := [] }]

end Workshop

end PrimeServer
