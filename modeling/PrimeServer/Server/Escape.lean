import PrimeServer.Server.Outcomes
import PrimeServer.Server.Sessions

/-!
# Clients that are gone

The server together with the connections of its clients. libzmq fails a send to a connection that no
longer exists, and `socket_t::send` throws. The calls for results and client messages are made inside a
`try`, those of `handle_timeouts` are not.

## Main results

* `Network.serves_of_run`: no exception leaves `serve` as long as `handle_timeouts` answers no request
  of a client that is gone;
* `Network.escapes_of_gone`: one does when it answers such a request.
-/

namespace PrimeServer

open Transition

variable {σ ρ ι : Type} {π : Protocol σ ρ ι} {config : ServerConfig ρ}

/-- The server and the connections of its clients. -/
structure Network (σ ρ ι : Type) where
  /-- The server and what it has done. -/
  machine : Machine σ ρ ι
  /-- The clients whose connection no longer exists. -/
  gone : List Frame

/-- A step of the server, and the clients whose connection comes to an end meanwhile. -/
structure NetworkInput (ι : Type) where
  /-- What the server does in the step. -/
  input : ServerInput ι
  /-- The clients whose connection comes to its end in the step. -/
  vanished : List Frame

namespace Network

/-- At the start no client is gone. -/
def start : Network σ ρ ι where
  machine := .start
  gone := []

/-- The server handles an input, and the clients that went away with it are noted. -/
def step (π : Protocol σ ρ ι) (config : ServerConfig ρ) (n : Network σ ρ ι) (i : NetworkInput ι) :
    Option (Network σ ρ ι) :=
  (n.machine.step π config i.input).map fun machine => { machine, gone := n.gone ++ i.vanished }

/-- The results of the sends on the client socket that a step may make, with the clients. -/
def clientSends (π : Protocol σ ρ ι) (config : ServerConfig ρ) (m : Machine σ ρ ι)
    (input : ServerInput ι) : List (Frame × SendResult) :=
  (match m.call π config input with
    | some call =>
      match call.server.requests.find (π.key call.info) with
      | some client => [(client, call.sends.response), (client, call.sends.close)]
      | none => []
    | none => []) ++
  match input, m.control with
  | .message client _ rejection, _ => [(client, rejection)]
  | .disconnect close, .rejecting client => [(client, close)]
  | _, _ => []

/-- What libzmq promises of the result of a send: it throws if the connection no longer exists, and only
then, and nothing is accepted after the frame that closes a connection. -/
def SendObeys (n : Network σ ρ ι) (i : NetworkInput ι) (client : Frame) (result : SendResult) : Prop :=
  (client ∈ n.gone → result = .threw) ∧ (result = .threw → client ∈ n.gone ++ i.vanished) ∧
    (.closed client .accepted ∈ n.machine.wire → result ≠ .accepted)

instance (n : Network σ ρ ι) (i : NetworkInput ι) (client : Frame) (result : SendResult) :
    Decidable (n.SendObeys i client result) := by
  unfold SendObeys
  infer_instance

/-- The empty message for a client with a session says that its connection no longer exists. For a client
without a session it says that a connection has been made. -/
def NotifiesGone (n : Network σ ρ ι) (i : NetworkInput ι) : Prop :=
  match i.input with
  | .message client [] _ =>
    n.machine.server.sessions.find client ≠ none → client ∈ n.gone ++ i.vanished
  | _ => True

instance (n : Network σ ρ ι) (i : NetworkInput ι) : Decidable (n.NotifiesGone i) := by
  unfold NotifiesGone
  split <;> infer_instance

/-- A step in which libzmq does what it promises, of the sends (`SendObeys`) and of the notifications
(`NotifiesGone`). -/
def Obeys (π : Protocol σ ρ ι) (config : ServerConfig ρ) (n : Network σ ρ ι) (i : NetworkInput ι) :
    Prop :=
  (∀ s ∈ clientSends π config n.machine i.input, n.SendObeys i s.1 s.2) ∧ n.NotifiesGone i

instance (n : Network σ ρ ι) (i : NetworkInput ι) : Decidable (n.Obeys π config i) := by
  unfold Obeys
  infer_instance

/-- `handle_timeouts` answers no request of a client that is gone. -/
def AnswersConnected (π : Protocol σ ρ ι) (config : ServerConfig ρ) (n : Network σ ρ ι)
    (i : NetworkInput ι) : Prop :=
  ∀ sends, i.input = .expire sends → ∀ call ∈ n.machine.call π config i.input,
    ∀ client, call.server.requests.find (π.key call.info) = some client →
      client ∉ n.gone ++ i.vanished

variable {n n' : Network σ ρ ι} {i : NetworkInput ι}

/-- Each of the two sends of a call meets the rule for a client that is gone. -/
theorem Obeys.call (h : n.Obeys π config i) {call : Call σ ι}
    (hcall : n.machine.call π config i.input = some call) {client : Frame}
    (hfind : call.server.requests.find (π.key call.info) = some client) :
    n.SendObeys i client call.sends.response ∧ n.SendObeys i client call.sends.close := by
  have hsends := h.1
  simp only [clientSends, hcall, hfind] at hsends
  exact ⟨hsends (client, _) (by simp), hsends (client, _) (by simp)⟩

/-- The client of each request has a session, or is gone, or is being disconnected. -/
def Reached (gone : List Frame) (s : Server σ ι) (wire : List Action) : Prop :=
  ∀ key client, s.requests.find key = some client →
    s.sessions.find client ≠ none ∨ client ∈ gone ∨ .closed client .accepted ∈ wire

section Reached

variable {gone : List Frame} {s t : Server σ ι} {wire : List Action}

/-- It also holds with more clients gone and with a longer wire. -/
theorem Reached.mono {gone' : List Frame} {wire' : List Action} (h : Reached gone s wire)
    (hgone : ∀ c ∈ gone, c ∈ gone') (hwire : ∀ a ∈ wire, a ∈ wire') : Reached gone' s wire' := by
  intro key client hfind
  rcases h key client hfind with hsession | hgone' | hclosed
  · exact Or.inl hsession
  · exact Or.inr (Or.inl (hgone _ hgone'))
  · exact Or.inr (Or.inr (hwire _ hclosed))

/-- A change that loses sessions only of clients that are gone or closed. -/
theorem Reached.of_le (h : Reached gone s wire)
    (hrequests : ∀ key client, t.requests.find key = some client →
      s.requests.find key = some client ∨ t.sessions.find client ≠ none)
    (hsessions : ∀ client, s.sessions.find client ≠ none → t.sessions.find client ≠ none ∨
      client ∈ gone ∨ .closed client .accepted ∈ wire) : Reached gone t wire := by
  intro key client hfind
  rcases hrequests key client hfind with hfind | hsession
  · rcases h key client hfind with hsession | hgone
    · exact hsessions client hsession
    · exact Or.inr hgone
  · exact Or.inl hsession

/-- A request is remembered for a session that is there. -/
theorem Reached.remember (h : Reached gone s wire) {client : Frame} {session : Session σ} (info : ι) :
    Reached gone (s.remember π client session info) wire := by
  have hclient : (s.remember π client session info).sessions.find client ≠ none := by simp
  refine h.of_le (fun key owner hfind => ?_) fun owner howner => Or.inl ?_
  · rcases Server.of_find_requests_remember hfind with hold | ⟨-, rfl⟩
    · exact Or.inl hold
    · exact Or.inr hclient
  · rw [Server.remember_sessions, UnorderedMap.find_assign]
    split_ifs <;> simp [howner]

/-- A key that is forgotten leaves the sessions. -/
theorem Reached.forget (h : Reached gone s wire) (key : UInt64) : Reached gone (s.forget key) wire := by
  refine h.of_le (fun key' owner hfind => Or.inl ?_) fun _ => Or.inl
  rw [Server.forget_requests, UnorderedMap.find_erase] at hfind
  split_ifs at hfind
  exact hfind

/-- The session of a client that is gone or closed may go. -/
theorem Reached.destroy (h : Reached gone s wire) {client : Frame}
    (hclient : client ∈ gone ∨ .closed client .accepted ∈ wire) :
    Reached gone (s.destroy client) wire := by
  refine h.of_le (fun _ _ => Or.inl) fun owner howner => ?_
  by_cases heq : owner = client
  · exact Or.inr (heq ▸ hclient)
  · exact Or.inl (by simpa [UnorderedMap.find_erase_of_ne _ heq] using howner)

/-- A response removes at most the session that it closes. -/
theorem Reached.dequeue (h : Reached gone s wire) {info : ι} {response : Bytes} {sends : DequeueSends}
    {outcome : Dequeued σ ι} {actions : List Action}
    (hspec : s.Dequeues π info response sends (outcome, actions)) :
    Reached gone (outcome.server s) (wire ++ actions) := by
  have hlater : Reached gone s (wire ++ actions) :=
    h.mono (fun _ => id) fun _ => List.mem_append_left _
  cases hspec with
  | unknown | responseThrew | closeThrew | undefined => exact hlater
  | kept | notClosed => exact hlater.forget _
  | closed hcloses _ =>
    apply (hlater.forget (π.key info)).destroy
    rw [hcloses.2.2.2]
    simp

/-- Whoever hangs up is gone. -/
def goneConditions (σ ι : Type) (gone : List Frame) : BookConditions σ ι where
  blank s _ client := s.sessions.find client ≠ none → client ∈ gone
  key _ _ := True
  dequeue _ _ _ := True
  disconnect _ _ := True

/-- Each of the bookkeeping functions keeps this, where a session goes only with a client that is gone. -/
theorem keepsBooks_reached (gone : List Frame) :
    KeepsBooks π (goneConditions σ ι gone) (Reached gone) where
  quiet {s t wire actions} hs hbooks _ := by
    refine (hs.mono (fun _ => id) fun _ => List.mem_append_left actions).of_le (fun key client hfind => ?_)
      fun client hsession => Or.inl ?_
    · exact Or.inl (hbooks.requests ▸ hfind)
    · exact (hbooks.sessions_ne_none_iff client).mpr hsession
  opened {s wire client} hs _ hsession := by
    refine (hs.mono (fun _ => id) fun _ => List.mem_append_left _).of_le (fun _ _ => Or.inl)
      fun owner howner => Or.inl ?_
    rw [UnorderedMap.emplace_of_find_eq_none hsession, UnorderedMap.find_assign]
    split_ifs <;> simp [howner]
  hungUp {s wire client session} hs hblank hsession := by
    -- the blank message of a client with a session tells that it is gone
    have hgone : client ∈ gone := hblank (by simp [hsession])
    have hlater : Reached gone s (wire ++ (session.enqueued.map .interrupt ++ [.hungUp client])) :=
      hs.mono (fun _ => id) fun _ => List.mem_append_left _
    refine Reached.destroy (hlater.of_le (fun key owner hfind => Or.inl ?_) fun _ => ?_) (Or.inl hgone)
    · rw [Server.find_requests_foldl_forget] at hfind
      split_ifs at hfind
      exact hfind
    · rw [Server.sessions_foldl_forget]
      exact Or.inl
  remembered hs _ _ _ :=
    (hs.remember _).mono (fun _ => id) fun _ ha => by simp [ha]
  dequeued hs _ hspec := hs.dequeue hspec
  disconnected hs _ _ := by
    refine (hs.mono (fun _ => id) fun _ ha => ?_).destroy (Or.inr ?_) <;> simp_all

end Reached

/-- The server is still in `serve`, and has lost track of no client that can be reached. -/
structure Serving (n : Network σ ρ ι) : Prop where
  /-- The session that `enqueue` works on is there. -/
  holdsSession : n.machine.HoldsSession
  /-- The client of each request has a session, or cannot be reached any more. -/
  reached : Reached n.gone n.machine.server n.machine.wire
  /-- `serve` has not been left and nothing undefined has happened. -/
  notStopped : ¬ n.machine.Stopped

/-- A server that has just started is in `serve` and knows no client. -/
theorem serving_start : (start : Network σ ρ ι).Serving where
  holdsSession := trivial
  reached _ _ hfind := by simp [start, Machine.start, Server.start] at hfind
  notStopped := by simp [start, Machine.start, Machine.Stopped]

/-- The session of a client to which a close is accepted is there. -/
theorem Serving.findsSession (hn : n.Serving) (hobeys : n.Obeys π config i) {call : Call σ ι}
    (hcall : n.machine.call π config i.input = some call) : call.FindsSession π := by
  intro client hcloses
  have hreached : Reached n.gone call.server n.machine.wire := by
    rcases Machine.server_of_call hcall with heq | ⟨_, _, _, heq⟩
    · exact heq ▸ hn.reached
    · rw [heq]
      exact Reached.remember (s := n.machine.server.count) hn.reached call.info
  obtain ⟨-, hgone, -, hclosed⟩ := hobeys.call hcall hcloses.1
  have haccepted : call.sends.close = .accepted := hcloses.2.2.2
  rcases hreached _ client hcloses.1 with hsession | hmem | hmem
  · exact hsession
  · exact absurd (hgone hmem) (by simp [haccepted])
  · exact absurd haccepted (hclosed hmem)

/-- A client to which a call of `dequeue` cannot send is gone. -/
theorem gone_of_outcome (hobeys : n.Obeys π config i) {call : Call σ ι}
    (hcall : n.machine.call π config i.input = some call) {server : Server σ ι}
    (houtcome : call.outcome π = .threw server) :
    ∃ client, call.server.requests.find (π.key call.info) = some client ∧
      client ∈ n.gone ++ i.vanished := by
  obtain ⟨client, hfind, hthrew⟩ := Call.threw_of_outcome houtcome
  obtain ⟨hresponse, hclose⟩ := hobeys.call hcall hfind
  refine ⟨client, hfind, ?_⟩
  rcases hthrew with hthrew | ⟨-, hthrew⟩
  · exact hresponse.2.1 hthrew
  · exact hclose.2.1 hthrew

/-- One step of a server that is serving leaves it serving. -/
theorem Serving.step (hn : n.Serving) (hobeys : n.Obeys π config i)
    (hlast : n.machine.ClosesLast π config i.input) (hconnected : n.AnswersConnected π config i)
    (hstep : n.step π config i = some n') : n'.Serving := by
  obtain ⟨m, hm, rfl⟩ := Option.map_eq_some_iff.mp hstep
  refine ⟨(Machine.holdsSession_step_iff hn.holdsSession hm).mpr hlast, ?_, fun hstopped => ?_⟩
  · have hreached : Reached (n.gone ++ i.vanished) n.machine.server n.machine.wire :=
      hn.reached.mono (fun _ => List.mem_append_left _) fun _ => id
    refine (keepsBooks_reached _).step ⟨?_, ?_, ?_, ?_⟩ hreached hm
    · intro client rejection hinput
      have hnotifies := hobeys.2
      simp only [NotifiesGone, hinput] at hnotifies
      exact hnotifies
    all_goals exact fun _ _ => by simp [goneConditions]
  · obtain ⟨call, hcall, hby⟩ := Machine.call_of_stopped hm hstopped
    rcases hby with ⟨-, hundefined⟩ | ⟨-, ⟨sends, hinput⟩, server, hthrew⟩
    -- `serve` is stopped by a session that is not there, or by an exception of `handle_timeouts`
    · exact Call.outcome_ne_undefined (hn.findsSession hobeys hcall) hundefined
    · obtain ⟨client, hfind, hgone⟩ := gone_of_outcome hobeys hcall hthrew
      exact hconnected sends hinput call hcall client hfind hgone

/-- No exception leaves `serve` in a run in which `handle_timeouts` answers no request of a client that is
gone and each health check that closes a session comes last in its message. -/
theorem serves_of_run {inputs : List (NetworkInput ι)}
    (hobeys : StepsMeet (step π config) .start inputs (Obeys π config))
    (hlast : StepsMeet (step π config) .start inputs fun n i => n.machine.ClosesLast π config i.input)
    (hconnected : StepsMeet (step π config) .start inputs (AnswersConnected π config))
    (hrun : run (step π config) .start inputs = some n) :
    n.machine.control ≠ .escaped ∧ ∀ use, n.machine.control ≠ .undefined use := by
  have hserving : n.Serving := by
    refine invariant_of_stepsMeet (P := Serving) serving_start (fun t i u ht hmeet hstep => ?_)
      (hobeys.and (hlast.and hconnected)) hrun
    exact ht.step hmeet.1 hmeet.2.1 hmeet.2.2 hstep
  refine ⟨fun hescaped => hserving.notStopped (Or.inl hescaped), fun use hundefined => ?_⟩
  cases use with
  | missingSession => exact hserving.notStopped (Or.inr hundefined)
  | destroyedSession =>
    have hholds := hserving.holdsSession
    simp [Machine.HoldsSession, hundefined] at hholds

/-- The condition on `handle_timeouts` cannot be dropped: a client that is gone ends the run. -/
theorem escapes_of_gone {sends : DequeueSends} (hinput : i.input = .expire sends)
    (hobeys : n.Obeys π config i) {call : Call σ ι}
    (hcall : n.machine.call π config i.input = some call) {client : Frame}
    (hfind : call.server.requests.find (π.key call.info) = some client) (hgone : client ∈ n.gone)
    (hstep : n.step π config i = some n') : n'.machine.control = .escaped := by
  have hthrew : call.sends.response = .threw := (hobeys.call hcall hfind).1.1 hgone
  obtain ⟨m, hm, rfl⟩ := Option.map_eq_some_iff.mp hstep
  rw [hinput] at hcall hm
  cases Machine.calls_of_call hcall with
  | @expire dropDead info history _ hcontrol hhistory hold =>
    obtain rfl : n.machine.expire π dropDead sends = m := by
      simpa [Machine.step, hcontrol] using hm
    have hfound : n.machine.server.requests.find (π.key info) = some client := hfind
    have hresponse : sends.response = .threw := hthrew
    simp only [Machine.expire, hhistory, if_pos hold, Server.dequeue, hfound, if_pos hresponse]

/-- A client connects and sends a request. -/
def oneRequest : List (NetworkInput HttpRequestInfo) :=
  [⟨.message [1] [] .accepted, []⟩,
    ⟨.message [1] (ascii "GET / HTTP/1.1\r\n\r\n") .accepted, []⟩,
    ⟨.next 100 .accepted .accepted ⟨.accepted, .accepted⟩, []⟩,
    ⟨.next 100 .accepted .accepted ⟨.accepted, .accepted⟩, []⟩]

/-- `serves_of_run` for a request that is answered with a timeout. -/
theorem serves_of_run_oneRequest :
    ∃ n, run (step (httpProtocol .percent) Machine.checked) .start
        (oneRequest ++ [⟨.timeouts 200, []⟩, ⟨.expire ⟨.accepted, .accepted⟩, []⟩]) = some n ∧
      n.machine.control ≠ .escaped ∧ ∀ use, n.machine.control ≠ .undefined use := by
  obtain ⟨n, hn⟩ := Option.isSome_iff_exists.mp
    (by decide : (run (step (httpProtocol .percent) Machine.checked) .start
      (oneRequest ++ [⟨.timeouts 200, []⟩, ⟨.expire ⟨.accepted, .accepted⟩, []⟩])).isSome)
  refine ⟨n, hn, serves_of_run (by decide) (by decide) ?_ hn⟩
  -- no connection comes to an end
  have hnone : StepsMeet (step (httpProtocol .percent) Machine.checked) .start
      (oneRequest ++ [⟨.timeouts 200, []⟩, ⟨.expire ⟨.accepted, .accepted⟩, []⟩])
      fun n i => n.gone ++ i.vanished = [] := by decide
  exact hnone.imp fun n i hempty sends _ call _ client _ => by simp [hempty]

/-- After a request, the client sends something malformed and its connection is closed. The request
times out. -/
theorem escapes :
    ¬ ∀ inputs n,
      StepsMeet (step (httpProtocol .percent) Machine.checked) .start inputs
        (Obeys (httpProtocol .percent) Machine.checked) →
      run (step (httpProtocol .percent) Machine.checked) .start inputs = some n →
        n.machine.control ≠ .escaped := by
  intro hserves
  let inputs := oneRequest ++
    [⟨.message [1] (ascii "malformed") .accepted, []⟩, ⟨.disconnect .accepted, [[1]]⟩,
      ⟨.timeouts 200, []⟩, ⟨.expire ⟨.threw, .threw⟩, []⟩]
  have hrun : (run (step (httpProtocol .percent) Machine.checked) .start inputs).map
      (·.machine.control) = some .escaped := by decide
  obtain ⟨n, hn, hcontrol⟩ := Option.map_eq_some_iff.mp hrun
  exact hserves inputs n (by decide) hn hcontrol

end Network

end PrimeServer
