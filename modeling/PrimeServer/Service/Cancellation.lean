import PrimeServer.Pipeline.Cancellation
import PrimeServer.Server.Revocation
import PrimeServer.Service.Answers

/-!
# Cancelled work

Workers only know the keys that the server has published, and a worker gives up a job only if it knows its
key. So no work is given up for nothing, however late or often the interrupts arrive.

## Main results

* `Service.cancelled_of_run`: where a worker gives up a job, the client of its request is gone or the
  request is too old.
-/

namespace PrimeServer

open Transition

variable {σ ρ ι : Type} {π : Protocol σ ρ ι}

namespace Service

variable {layout : InfoLayout π} {works : WorkFunctions layout} {config : ServerConfig ρ}
  {heartBeat : ℕ → Frame → Frame} {s t : Service σ ρ ι} {events : List (Event ι)}

/-- The server of a service interrupts as a server by itself does. -/
theorem revokes_of_run (hπ : π.Stamped)
    (hrun : run (step layout config) (start heartBeat) events = some s) :
    s.machine.Revokes π config (events.filterMap Event.timeoutsAt) := by
  have htimes : StepsMeet (step layout config) (start heartBeat) events fun t event =>
      ∀ input ∈ t.serverInput layout event, ∀ now, input = .timeouts now →
        now ∈ events.filterMap Event.timeoutsAt := by
    intro before event after t hsplit _ input hinput now htime
    subst htime
    cases event with
    | server input =>
      obtain rfl := Option.some.inj hinput
      exact List.mem_filterMap.mpr ⟨.server (.timeouts now), by simp [hsplit], rfl⟩
    | receive k sends =>
      -- what arrives from a worker is a result
      obtain ⟨arrived, harrived, htimeouts⟩ := Option.map_eq_some_iff.mp hinput
      obtain ⟨number, input⟩ := arrived
      obtain ⟨last, frames, -, rfl⟩ := mem_of_arrived harrived
      cases htimeouts
    | deliver | work | interrupt => cases hinput
  exact machine_isComponent.invariant
    (C := fun _ input => ∀ now, input = .timeouts now → now ∈ events.filterMap Event.timeoutsAt)
    (Machine.revokes_start _) (fun _ _ _ hm hC hstep => hm.step hπ hC hstep) htimes hrun

/-- A worker of a service takes the steps of a worker by itself. -/
theorem worker_isComponent (i : ℕ) (w : Frame) :
    IsComponent (step layout config) Worker.step (fun s => (s.stages i).workers w) fun s event =>
      (stageInput i s event).bind (Workshop.inputOf w (s.stages i)) :=
  (stage_isComponent i).trans (Workshop.worker_isComponent w)

/-- In every run `job` of a worker is the key of what it works on, while it works. -/
theorem atJob_of_run (hrun : run (step layout config) (start heartBeat) events = some s) (i : ℕ)
    (w : Frame) : ((s.stages i).workers w).AtJob := by
  refine invariant_of_steps (P := Worker.AtJob) ?_ (fun _ _ _ h hstep => h.step hstep)
    ((worker_isComponent i w).run hrun)
  intro info frames interrupted hworking
  simp [start, Workshop.start, Worker.start] at hworking

/-- An interrupt arrives at a worker when its key was published. -/
theorem interrupt_of_inputOf {event : Event ι} {i : ℕ} {w : Frame} {key : UInt64}
    (hstep : s.step layout config event = some t)
    (hinput : (stageInput i s event).bind (Workshop.inputOf w (s.stages i)) = some (.arrive key)) :
    .interrupt key ∈ s.machine.wire := by
  obtain ⟨input, hstage, hworker⟩ := Option.bind_eq_some_iff.mp hinput
  obtain ⟨⟨v, worker⟩, hv, hw⟩ := Option.bind_eq_some_iff.mp hworker
  obtain ⟨rfl, rfl⟩ : v = w ∧ worker = .arrive key := by simpa using hw
  obtain rfl := Workshop.interrupt_of_workerInput hv
  cases event with
  | interrupt stage v' key' =>
    simp only [stageInput] at hstage
    split_ifs at hstage
    obtain ⟨rfl, rfl⟩ := by simpa using hstage
    exact (step_interrupt hstep).1
  | work stage event =>
    simp only [stageInput] at hstage
    split_ifs at hstage
    obtain rfl := Option.some.inj hstage
    cases (step_work hstep).1
  | deliver stage k upstream =>
    simp only [stageInput] at hstage
    split_ifs at hstage
    simp at hstage
  | server | receive => cases hstage

/-- Workers know keys only that were published. -/
theorem published_of_knows (hrun : run (step layout config) (start heartBeat) events = some s) {i : ℕ}
    {w : Frame} {key : UInt64} (hknows : ((s.stages i).workers w).Knows key) :
    .interrupt key ∈ s.machine.wire := by
  refine run_induction (P := fun _ s => ((s.stages i).workers w).Knows key →
    .interrupt key ∈ s.machine.wire) (fun h => ?_) (fun events s event t hs ih hstep h => ?_) hrun hknows
  · simp [start, Workshop.start, Worker.start, Worker.Knows, UnorderedSet.Contains] at h
  · have hwire : .interrupt key ∈ s.machine.wire → .interrupt key ∈ t.machine.wire := by
      intro hmem
      cases hinput : s.serverInput layout event with
      | none => rwa [machine_isComponent.of_input_eq_none hstep hinput]
      | some input =>
        exact Machine.mem_wire_of_step (machine_isComponent.of_input_eq_some hstep hinput) hmem
    apply hwire
    cases hinput : (stageInput i s event).bind (Workshop.inputOf w (s.stages i)) with
    | none =>
      have hsame := (worker_isComponent i w).of_input_eq_none hstep hinput
      exact ih (hsame ▸ h)
    | some input =>
      rcases Worker.knows_of_step ((worker_isComponent i w).of_input_eq_some hstep hinput) h with h | rfl
      · exact ih h
      · exact interrupt_of_inputOf hstep hinput

/-- Where a worker gives up a job, the job is for a request that was sent on, and before that the client of
the request has hung up, the server has closed its session, or `handle_timeouts` was called when the
request was too old. -/
theorem cancelled_of_run (hπ : π.Stamped)
    (hproper : StepsMeet (step layout config) (start heartBeat) events (Proper works config))
    (hrun : run (step layout config) (start heartBeat) events = some s) {i number : ℕ}
    {event : Workshop.Event} (hstep : s.step layout config (.work i event) = some t)
    (hgives : (s.stages i).GivesUp (t.stages i) event number) :
    ∃ p, s.posted[s.origin i number]? = some p ∧
      (Ended (π.key p.info) p.client s.machine.wire ∨
        ∃ now, .server (.timeouts now) ∈ events ∧ stampOf (π.key p.info) < dropDead config now) := by
  obtain ⟨-, workshop, hworkshop, rfl⟩ := step_work hstep
  have hstage : (s.advance i workshop).stages i = workshop := Function.update_self _ _ _
  rw [hstage] at hgives
  obtain ⟨w, job, hjob, hknows⟩ :=
    hgives.knows (content_of_run hproper hrun i) (atJob_of_run hrun i) hworkshop
  -- the key of the job is that of the request
  obtain ⟨p, text, hp, htext, hread, -⟩ := (sound_of_run hproper hrun).jobs i number job hjob
  have hkey : jobOf job.info = π.key p.info := by rw [← hread, layout.key_read]
  rw [hkey] at hknows
  refine ⟨p, hp, ?_⟩
  obtain ⟨client, haccepted, hgone⟩ :=
    (revokes_of_run hπ hrun).revoked _ (published_of_knows hrun hknows)
  -- no other client has a request with this key
  have hown := (justified_of_run hproper hrun).accepted p (List.mem_of_getElem? hp)
  obtain rfl : client = p.client := (reliable_of_run hproper hrun).acceptedOnce _ _ _ haccepted hown
  refine hgone.imp_right ?_
  rintro ⟨now, hnow, hold⟩
  exact ⟨now, mem_timeoutsAt.mp hnow, hold⟩

/-- A client connects, sends a request, and hangs up while a worker is working on it. The worker bails. -/
def hungUpEarly : List (Event NetstringRequestInfo) :=
  let sends : DequeueSends := ⟨.accepted, .accepted⟩
  [.server (.message [1] [] .accepted), .server (.message [1] (ascii "3:abc,") .accepted),
    .server (.next 100 .accepted .accepted sends), .server (.next 100 .accepted .accepted sends),
    .work 0 (.advertise [9]), .work 0 (.forward (some ([9], 0)) none), .deliver 0 0 [],
    .work 0 (.forward none (some .null)), .work 0 (.take [9] false),
    .server (.message [1] [] .accepted), .interrupt 0 [9] (keyOf 0 100)]

/-- `cancelled_of_run` for a client that hangs up before its request reaches a worker. -/
theorem cancelled_of_run_hungUpEarly :
    ∃ s t, run (step NetstringRequestInfo.layout unchecked) (start fun _ _ => []) hungUpEarly = some s ∧
      s.step NetstringRequestInfo.layout unchecked (.work 0 (.bail [9])) = some t ∧
      (s.stages 0).GivesUp (t.stages 0) (.bail [9]) 0 ∧
      ∃ p, s.posted[s.origin 0 0]? = some p ∧
        (Ended (netstringProtocol.key p.info) p.client s.machine.wire ∨
          ∃ now, .server (.timeouts now) ∈ hungUpEarly ∧
            stampOf (netstringProtocol.key p.info) < dropDead unchecked now) := by
  have hrun : ((run (step NetstringRequestInfo.layout unchecked) (start fun _ _ => [])
      hungUpEarly).bind fun s => (s.step NetstringRequestInfo.layout unchecked (.work 0 (.bail [9]))).map
        fun t => decide ((s.stages 0).hands [9] = some 0 ∧ (t.stages 0).hands [9] = none)) =
          some true := by decide
  obtain ⟨s, hs, hstep⟩ := Option.bind_eq_some_iff.mp hrun
  obtain ⟨t, ht, hhands⟩ := Option.map_eq_some_iff.mp hstep
  have hgives : (s.stages 0).GivesUp (t.stages 0) (.bail [9]) 0 :=
    .bailed (of_decide_eq_true hhands).1 (of_decide_eq_true hhands).2
  have hproper : StepsMeet (step NetstringRequestInfo.layout unchecked) (start fun _ _ => []) hungUpEarly
      (Proper sendBack unchecked) := by decide
  exact ⟨s, t, hs, ht, hgives, cancelled_of_run netstringProtocol_stamped hproper hs ht hgives⟩

end Service

end PrimeServer
