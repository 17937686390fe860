import PrimeServer.Library.Matching
import PrimeServer.Server.Conversation
import PrimeServer.Service.Answers

/-!
# What a client is told

The answers of a service from the outside, as one of its clients sees them: it sends messages over its connection,
and is sent texts. What it is sent are answers to requests that are in its own messages, one for each of them at
most, whoever else is connected and whatever the server, the proxies and the workers do in between.

## Main results

* `Service.conversation_of_run`: this holds in every run in which the requests are sent on whole and the server
  responds to them once.
-/

namespace PrimeServer

open Matching Transition

variable {σ ρ ι : Type} {π : Protocol σ ρ ι}

namespace Service

variable {layout : InfoLayout π} {works : WorkFunctions layout} {config : ServerConfig ρ}
  {heartBeat : ℕ → Frame → Frame} {s t : Service σ ρ ι} {events : List (Event ι)} {client : Frame}
  {heard heard' : Connection σ × List ρ}

/-- The message that a client has sent to the server. -/
def Event.messageOf (client : Frame) : Event ι → Option Bytes
  | .server input => input.messageOf client
  | .deliver _ _ _ | .work _ _ | .interrupt _ _ _ | .receive _ _ => none

/-- The requests of a client that were sent on. -/
def taken (client : Frame) (posted : List (Posted ρ ι)) : List ρ :=
  (posted.filter fun p => p.client = client).map Posted.request

/-- One more request was taken if it is the client's. -/
theorem taken_append (client : Frame) (posted : List (Posted ρ ι)) (p : Posted ρ ι) :
    taken client (posted ++ [p]) = taken client posted ++ if p.client = client then [p.request] else [] := by
  rw [taken, List.filter_append, List.map_append, ← taken]
  split_ifs with hclient <;> simp [hclient]

/-- How far the service has come with the messages of a client. -/
structure Converses (π : Protocol σ ρ ι) (heard : Connection σ × List ρ) (client : Frame) (s : Service σ ρ ι) :
    Prop where
  /-- The server has read so much of the client's messages. -/
  talks : s.machine.Talks heard (taken client s.posted) client
  /-- Each key that was accepted for the client is of a request that was sent on. -/
  accepted : ∀ key, .accepted key client ∈ s.machine.wire →
    ∃ p ∈ s.posted, p.client = client ∧ π.key p.info = key

/-- Before the first event nothing was heard and nothing was posted. -/
theorem converses_start (client : Frame) (heartBeat : ℕ → Frame → Frame) :
    Converses π (.unopened, []) client (start heartBeat : Service σ ρ ι) where
  talks := Machine.talks_start client
  accepted _ haccepted := by simp [start, Machine.start] at haccepted

/-- A request that is not a health check, and reaches the proxy, is sent on. -/
theorem posted_serve_next {owner : Frame} {parsed : ρ} {rest : List ρ} {now : ℕ} {sends : DequeueSends}
    (hcontrol : s.machine.control = .enqueueing owner (parsed :: rest))
    (hmatch : config.healthCheckMatcher parsed = some false) (htext : π.toString parsed ≠ none)
    (machine : Machine σ ρ ι) :
    (s.serve layout config (.next now .accepted .accepted sends) machine).posted =
      s.posted ++
        [{ client := owner, request := parsed, info := π.toInfo parsed s.machine.server.requestId now }] := by
  obtain ⟨text, htext⟩ := Option.ne_none_iff_exists'.mp htext
  simp [serve, Machine.posts, hcontrol, hmatch, post, htext]

/-- What is accepted of the client in a step of the server is sent on in it. -/
theorem Converses.accepted_serve (h : s.Converses π heard client)
    (hplain : ∀ r ∈ heard.2, config.healthCheckMatcher r ≠ some true) {input : ServerInput ι}
    {machine : Machine σ ρ ι} (hstep : s.machine.step π config input = some machine) {key : UInt64}
    (haccepted : .accepted key client ∈ machine.wire) :
    ∃ p ∈ (s.serve layout config input machine).posted, p.client = client ∧ π.key p.info = key := by
  rcases Machine.next_of_accepted hstep haccepted with hold | ⟨parsed, rest, now, info, text, sends, hcontrol,
    rfl, rfl, hhealthCheck | ⟨hmatch, rfl, rfl, htext⟩⟩
  · -- it was accepted before, and so sent on before
    obtain ⟨p, hp, hclient, hkey⟩ := h.accepted key hold
    refine ⟨p, ?_, hclient, hkey⟩
    rcases serve_posted s input machine with hsame | ⟨_, _, _, _, _, _, _, _, _, hmore⟩
    · rwa [hsame]
    · rw [hmore]
      exact List.mem_append_left _ hp
  · -- the request is one of those that were heard
    refine absurd hhealthCheck (hplain parsed (h.talks.sublist.subset ?_))
    simp [hcontrol, ServerControl.waiting]
  · rw [posted_serve_next hcontrol hmatch htext]
    exact ⟨_, List.mem_append_right _ (List.mem_singleton_self _), rfl, rfl⟩

/-- A step of the server in which the client is not heard. -/
theorem Converses.serve (h : s.Converses π heard client)
    (hplain : ∀ r ∈ heard.2, config.healthCheckMatcher r ≠ some true) {input : ServerInput ι}
    (hother : input.messageOf client = none) {machine : Machine σ ρ ι}
    (hstep : s.machine.step π config input = some machine) :
    (s.serve layout config input machine).Converses π heard client where
  talks := by
    rw [serve_machine]
    rcases serve_posted s input machine with hsame | ⟨p, rest, now, sends, hcontrol, -, -, rfl, -, hmore⟩
    · rw [hsame]
      exact h.talks.step hother hstep
    · rw [hmore, taken_append]
      split_ifs with hclient
      · -- the next request of the client is taken
        subst hclient
        exact h.talks.take hcontrol hstep
      · rw [List.append_nil]
        exact h.talks.step hother hstep
  accepted _ haccepted := h.accepted_serve hplain hstep haccepted

/-- The client is heard. -/
theorem Converses.message (h : s.Converses π heard client)
    (hplain : ∀ r ∈ heard.2, config.healthCheckMatcher r ≠ some true) {body : Bytes}
    (hhears : π.Hears config heard body heard') {rejection : SendResult} {machine : Machine σ ρ ι}
    (hstep : s.machine.step π config (.message client body rejection) = some machine) :
    (s.serve layout config (.message client body rejection) machine).Converses π heard' client where
  talks := h.talks.message hhears hstep
  accepted _ haccepted := h.accepted_serve hplain hstep haccepted

/-- A message of a client is an event of the server. -/
theorem Event.exists_of_messageOf {event : Event ι} {body : Bytes} (h : event.messageOf client = some body) :
    ∃ rejection, event = .server (.message client body rejection) := by
  cases event with
  | server input =>
    cases input with
    | message owner body' rejection =>
      simp only [messageOf, ServerInput.messageOf] at h
      split_ifs at h with hclient
      obtain rfl := Option.some.inj h
      subst hclient
      exact ⟨rejection, rfl⟩
    | result | next | disconnect | timeouts | expire => cases h
  | deliver | work | interrupt | receive => cases h

/-- In every run what was posted for a client is what was parsed of its messages. -/
theorem converses_of_run (hrun : run (step layout config) (start heartBeat) events = some s)
    (hheard : run (π.hear config) (.unopened, []) (events.filterMap (Event.messageOf client)) = some heard)
    (hplain : ∀ r ∈ heard.2, config.healthCheckMatcher r ≠ some true) : s.Converses π heard client := by
  refine run_induction (P := fun events s => ∀ heard,
    run (π.hear config) (.unopened, []) (events.filterMap (Event.messageOf client)) = some heard →
      (∀ r ∈ heard.2, config.healthCheckMatcher r ≠ some true) → s.Converses π heard client)
    ?_ ?_ hrun heard hheard hplain
  · rintro heard hheard -
    obtain rfl := Option.some.inj hheard
    exact converses_start client heartBeat
  · intro events s event t hs ih hstep heard' hheard' hplain'
    rw [List.filterMap_append] at hheard'
    cases hmessage : event.messageOf client with
    | some body =>
      -- the client is heard, and what it was heard to ask for before is still there
      obtain ⟨rejection, rfl⟩ := Event.exists_of_messageOf hmessage
      rw [List.filterMap_cons_some hmessage, List.filterMap_nil] at hheard'
      obtain ⟨heard, hheard, hhear⟩ := run_concat_eq_some.mp hheard'
      have hhears := Protocol.hears_of_hear hhear
      have hplain : ∀ r ∈ heard.2, config.healthCheckMatcher r ≠ some true :=
        fun r hr => hplain' r (hhears.prefix_parsed.subset hr)
      obtain ⟨machine, hmachine, rfl⟩ := step_server hstep
      exact (ih heard hheard hplain).message hplain hhears hmachine
    | none =>
      rw [List.filterMap_cons_none hmessage, List.filterMap_nil, List.append_nil] at hheard'
      have hs' := ih heard' hheard' hplain'
      cases event with
      | server input =>
        obtain ⟨machine, hmachine, rfl⟩ := step_server hstep
        exact hs'.serve hplain' hmessage hmachine
      | receive k sends =>
        obtain ⟨number, input, machine, harrived, hmachine, rfl⟩ := step_receive hstep
        obtain ⟨last, frames, -, rfl⟩ := mem_of_arrived harrived
        refine ⟨hs'.talks.step rfl hmachine, fun key haccepted => ?_⟩
        rcases Machine.next_of_accepted hmachine haccepted with hold | ⟨_, _, _, _, _, _, _, hinput, -⟩
        · exact hs'.accepted key hold
        · cases hinput
      | deliver stage k upstream =>
        obtain ⟨number, job, workshop, -, -, rfl⟩ := step_deliver hstep
        exact ⟨hs'.talks, hs'.accepted⟩
      | work stage event =>
        obtain ⟨-, workshop, -, rfl⟩ := step_work hstep
        exact ⟨hs'.talks, hs'.accepted⟩
      | interrupt stage w key =>
        obtain ⟨-, workshop, -, rfl⟩ := step_interrupt hstep
        exact ⟨hs'.talks, hs'.accepted⟩

/-- A client whose messages the parser has nothing against is sent no rejection, and each text that it is sent is
for another request of its messages. It is what the stages make of the request, or the response for a request
that was too old when `handle_timeouts` was called. -/
theorem conversation_of_run
    (hproper : StepsMeet (step layout config) (start heartBeat) events (Proper works config))
    (hrun : run (step layout config) (start heartBeat) events = some s) {connection : Connection σ}
    {requests : List ρ}
    (hheard : run (π.hear config) (.unopened, []) (events.filterMap (Event.messageOf client)) =
      some (connection, requests))
    (hplain : ∀ r ∈ requests, config.healthCheckMatcher r ≠ some true) :
    (∀ text result, .rejection client text result ∉ s.machine.wire) ∧
    ∃ asked : List (Posted ρ ι), (asked.map Posted.request).Subperm requests ∧
      (∀ p ∈ asked, p ∈ s.posted ∧ p.client = client) ∧
      List.Forall₂ (fun p text => works.Answer p text ∨
          TimedOut π config (events.filterMap Event.timeoutsAt) (π.key p.info) text)
        asked (s.machine.wire.filterMap (Action.textTo client)) := by
  have hconverses := converses_of_run hrun hheard hplain
  have hdeliveries := (reliable_of_run hproper hrun).tracked.deliveries
  -- each response was sent for a request of the client
  have hresponses : ∀ response ∈ s.machine.wire.filterMap (Action.responseTo client), ∃ p : Posted ρ ι,
      (p ∈ s.posted ∧ p.client = client) ∧ π.key p.info = response.1 ∧ (works.Answer p response.2 ∨
        TimedOut π config (events.filterMap Event.timeoutsAt) (π.key p.info) response.2) := by
    rintro ⟨key, text⟩ hmem
    obtain ⟨action, hresponse, hsome⟩ := List.mem_filterMap.mp hmem
    obtain rfl := responseTo_eq_some.mp hsome
    obtain ⟨before, after, hwire⟩ := List.append_of_mem hresponse
    have hdelivered : Delivered before key client :=
      hdeliveries before (.response key client text .accepted) ⟨after, by rw [hwire, List.append_assoc]; rfl⟩
    obtain ⟨p, hp, hclient, rfl⟩ :=
      hconverses.accepted key (hwire ▸ List.mem_append_left _ hdelivered.submitted)
    exact ⟨p, ⟨hp, hclient⟩, rfl, (response_of_run hproper hrun hp hresponse).2⟩
  obtain ⟨asked, hmatching⟩ := exists_matching hresponses
  obtain ⟨hposted, hasked⟩ := (List.forall₂_and_left _ _).mp hmatching.flip
  -- the responses are for different requests
  have hkeys : asked.map (fun p => π.key p.info) =
      (s.machine.wire.filterMap (Action.responseTo client)).map Prod.fst := by
    rw [← List.forall₂_eq_eq_eq, List.forall₂_map_left_iff, List.forall₂_map_right_iff]
    exact hasked.imp fun _ _ h => h.1
  have hnodup : asked.Nodup := by
    refine List.Nodup.of_map (fun p => π.key p.info) ?_
    rw [hkeys]
    exact nodup_responsesTo hdeliveries client
  refine ⟨hconverses.talks.unrejected, asked, ?_, hposted, ?_⟩
  · obtain ⟨found, hfound, htaken⟩ : asked.Subperm (s.posted.filter fun p => p.client = client) :=
      List.subperm_of_subset hnodup fun p hp =>
        List.mem_filter.mpr ⟨(hposted p hp).1, decide_eq_true (hposted p hp).2⟩
    have hread : (taken client s.posted).Sublist requests :=
      (List.sublist_append_left _ _).trans hconverses.talks.sublist
    exact ⟨found.map Posted.request, hfound.map Posted.request, (htaken.map Posted.request).trans hread⟩
  · rw [textTo_eq hconverses.talks.unrejected, List.forall₂_map_right_iff]
    exact hasked.imp fun _ _ h => h.2

end Service

end PrimeServer
