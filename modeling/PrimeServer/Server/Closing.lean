import PrimeServer.Server.Delivery
import PrimeServer.Server.Escape
import PrimeServer.Server.Interrupts

/-!
# Connections that come to an end

Either side may close a connection. The empty message with which libzmq announces a new connection and the
one with which it announces the end of a connection are told apart by whether there is a session.

## Main results

* `Machine.closed_iff`: after the end of a connection was announced, its client has no session if and only
  if the server had not closed the connection before;
* `Network.findsSession_of_run`: `dequeue` finds each session that it closes, since nothing can be sent on
  connections that were closed.
-/

namespace PrimeServer

open Transition

variable {σ ρ ι : Type} {π : Protocol σ ρ ι} {config : ServerConfig ρ}

/-! ### Sessions of one connection -/

/-- The empty messages are those of other clients. -/
def othersBlank (σ ι : Type) (client : Frame) : BookConditions σ ι where
  blank _ _ owner := owner ≠ client
  key _ _ := True
  dequeue _ _ _ := True
  disconnect _ _ := True

/-- A client has no session. -/
def NoSession (client : Frame) (s : Server σ ι) (_ : List Action) : Prop :=
  s.sessions.find client = none

/-- Nothing is known of a client. -/
structure Unknown (client : Frame) (s : Server σ ι) (wire : List Action) : Prop where
  /-- The client has no session. -/
  session : NoSession client s wire
  /-- The server works on none of its requests. -/
  requests : ∀ key, s.requests.find key ≠ some client
  /-- The server has not closed its connection. -/
  notClosed : .closed client .accepted ∉ wire

/-- A client that has connected has a session until the server closes its connection. -/
def Known (client : Frame) (s : Server σ ι) (wire : List Action) : Prop :=
  s.sessions.find client ≠ none ↔ .closed client .accepted ∉ wire

section Connection

variable {client : Frame} {s t : Server σ ι} {wire actions : List Action}

/-- An action that closes no connection. -/
theorem mem_closed_append (hactions : .closed client .accepted ∉ actions) :
    .closed client .accepted ∈ wire ++ actions ↔ .closed client .accepted ∈ wire := by
  rw [List.mem_append, or_iff_left hactions]

/-- A close that was accepted is not inert. -/
theorem closed_notMem_of_inert (hinert : ∀ a ∈ actions, a.Inert) :
    .closed client .accepted ∉ actions := fun hmem => by
  simpa [Action.Inert] using hinert _ hmem

/-- A client without a session gets none unless it connects. -/
theorem keepsBooks_noSession (client : Frame) :
    KeepsBooks π (othersBlank σ ι client) (NoSession client) where
  quiet {s t wire actions} hs hbooks _ := by
    show t.sessions.find client = none
    by_contra hsession
    exact (hbooks.sessions_ne_none_iff client).mp hsession hs
  opened {s wire owner} hs hother hsession := by
    show (s.sessions.emplace owner _).find client = none
    rwa [UnorderedMap.emplace_of_find_eq_none hsession,
      UnorderedMap.find_assign_of_ne _ _ (Ne.symm hother)]
  hungUp {s wire owner session} hs hother hsession := by
    show (Server.destroy _ owner).sessions.find client = none
    rwa [Server.destroy_sessions, UnorderedMap.find_erase_of_ne _ (Ne.symm hother),
      Server.sessions_foldl_forget]
  remembered {s wire owner session info actions} hs _ hsession _ := by
    -- the request is one of a client with a session
    have hother : client ≠ owner := by
      rintro rfl
      simp [show s.sessions.find client = none from hs] at hsession
    show (s.remember π owner session info).sessions.find client = none
    rwa [Server.remember_sessions, UnorderedMap.find_assign_of_ne _ _ hother]
  dequeued {s wire info response sends outcome actions} hs _ hspec := by
    cases hspec with
    | unknown | responseThrew | kept | closeThrew | notClosed | undefined => exact hs
    | closed =>
      show ((s.destroy _).forget _).sessions.find client = none
      rw [Server.forget_sessions, Server.destroy_sessions, UnorderedMap.find_erase,
        show s.sessions.find client = none from hs, ite_self]
  disconnected {s wire owner session} hs _ _ := by
    show (s.destroy owner).sessions.find client = none
    rw [Server.destroy_sessions, UnorderedMap.find_erase,
      show s.sessions.find client = none from hs, ite_self]

/-- That a client has no session is kept by what the others send. -/
theorem keepsBooks_unknown (client : Frame) :
    KeepsBooks π (othersBlank σ ι client) (Unknown client) where
  quiet {s t wire actions} hs hbooks hinert := by
    have hsession := (keepsBooks_noSession (π := π) client).quiet hs.session hbooks hinert
    refine ⟨hsession, fun key => hbooks.requests ▸ hs.requests key, ?_⟩
    rw [mem_closed_append (closed_notMem_of_inert hinert)]
    exact hs.notClosed
  opened hs hother hsession :=
    ⟨(keepsBooks_noSession client).opened hs.session hother hsession, hs.requests,
      by simpa using hs.notClosed⟩
  hungUp {s wire owner session} hs hother hsession := by
    have hnone := (keepsBooks_noSession (π := π) client).hungUp hs.session hother hsession
    refine ⟨hnone, fun key hfind => hs.requests key ?_, by simpa using hs.notClosed⟩
    rw [Server.destroy_requests, Server.find_requests_foldl_forget] at hfind
    split_ifs at hfind
    exact hfind
  remembered {s wire owner session info actions} hs hkey hsession hinert := by
    -- the request comes from another client, which has a session
    have hother : client ≠ owner := by
      rintro rfl
      simp [show s.sessions.find client = none from hs.session] at hsession
    refine ⟨(keepsBooks_noSession client).remembered hs.session hkey hsession hinert,
      fun key hfind => ?_, ?_⟩
    · rcases Server.of_find_requests_remember hfind with hold | ⟨-, heq⟩
      · exact hs.requests key hold
      · exact hother heq
    · rw [List.append_assoc, mem_closed_append]
      · exact hs.notClosed
      · simpa using closed_notMem_of_inert hinert
  dequeued {s wire info response sends outcome actions} hs hdequeue hspec := by
    have hsession := (keepsBooks_noSession client).dequeued hs.session hdequeue hspec
    -- the request that is answered is that of another client
    have hother : ∀ {owner : Frame}, s.requests.find (π.key info) = some owner → client ≠ owner := by
      rintro owner hfind rfl
      exact hs.requests _ hfind
    have hforget : ∀ key, (s.forget (π.key info)).requests.find key ≠ some client := by
      intro key hfind
      rw [Server.forget_requests, UnorderedMap.find_erase] at hfind
      split_ifs at hfind
      exact hs.requests key hfind
    cases hspec with
    | unknown | responseThrew => exact ⟨hsession, hs.requests, by simpa using hs.notClosed⟩
    | kept => exact ⟨hsession, hforget, by simpa using hs.notClosed⟩
    | closeThrew hfind => exact ⟨hsession, hs.requests, by simpa [hother hfind] using hs.notClosed⟩
    | undefined hcloses =>
      exact ⟨hsession, hs.requests, by simpa [hother hcloses.1] using hs.notClosed⟩
    | notClosed hfind => exact ⟨hsession, hforget, by simpa [hother hfind] using hs.notClosed⟩
    | closed hcloses => exact ⟨hsession, hforget, by simpa [hother hcloses.1] using hs.notClosed⟩
  disconnected {s wire owner session} hs hdisconnect hsession := by
    have hother : client ≠ owner := by
      rintro rfl
      simp [show s.sessions.find client = none from hs.session] at hsession
    exact ⟨(keepsBooks_noSession (π := π) client).disconnected hs.session hdisconnect hsession,
      hs.requests, by simpa [hother] using hs.notClosed⟩

/-- To stay known the session need only be there when it was. -/
theorem Known.of_sessions (h : Known client s wire) (hactions : .closed client .accepted ∉ actions)
    (hsession : t.sessions.find client ≠ none ↔ s.sessions.find client ≠ none) :
    Known client t (wire ++ actions) := by
  rw [Known, hsession, mem_closed_append hactions]
  exact h

/-- The server closes the connection. -/
theorem known_of_closed (hsession : t.sessions.find client = none)
    (hclosed : .closed client .accepted ∈ wire) : Known client t wire :=
  iff_of_false (by simp [hsession]) (by simp [hclosed])

/-- That a client is known until it was closed is kept by what the others send. -/
theorem keepsBooks_known (client : Frame) :
    KeepsBooks π (othersBlank σ ι client) (Known client) where
  quiet {s t wire actions} hs hbooks hinert :=
    hs.of_sessions (closed_notMem_of_inert hinert) (hbooks.sessions_ne_none_iff client)
  opened {s wire owner} hs hother hsession := by
    apply hs.of_sessions (by simp)
    rw [UnorderedMap.emplace_of_find_eq_none hsession,
      UnorderedMap.find_assign_of_ne _ _ (Ne.symm hother)]
  hungUp {s wire owner session} hs hother hsession := by
    apply hs.of_sessions (by simp)
    rw [Server.destroy_sessions, UnorderedMap.find_erase_of_ne _ (Ne.symm hother),
      Server.sessions_foldl_forget]
  remembered {s wire owner session info actions} hs _ hsession hinert := by
    rw [List.append_assoc]
    apply hs.of_sessions (by simpa using closed_notMem_of_inert hinert)
    rw [Server.remember_sessions, UnorderedMap.find_assign]
    split_ifs with howner
    · simp [howner, hsession]
    · rfl
  dequeued {s wire info response sends outcome actions} hs _ hspec := by
    cases hspec with
    | unknown => exact hs.of_sessions (by simp) .rfl
    | responseThrew | kept => exact hs.of_sessions (by simp) .rfl
    | closeThrew _ _ _ hclose | notClosed _ _ _ hclose => exact hs.of_sessions (by simp [hclose]) .rfl
    | @closed owner session hcloses hsession =>
      -- the session goes with the announcement that its connection is closed
      by_cases howner : client = owner
      · subst howner
        exact known_of_closed (by simp [Dequeued.server]) (by simp [hcloses.2.2.2])
      · apply hs.of_sessions (by simp [howner])
        show ((s.destroy owner).forget _).sessions.find client ≠ none ↔ _
        rw [Server.forget_sessions, Server.destroy_sessions, UnorderedMap.find_erase_of_ne _ howner]
    | @undefined owner hcloses hsession =>
      by_cases howner : client = owner
      · subst howner
        exact known_of_closed hsession (by simp [hcloses.2.2.2])
      · exact hs.of_sessions (by simp [howner]) .rfl
  disconnected {s wire owner session} hs _ hsession := by
    by_cases howner : client = owner
    · subst howner
      exact known_of_closed (by simp) (by simp)
    · rw [List.append_assoc]
      apply hs.of_sessions (by simp [howner])
      rw [Server.destroy_sessions, UnorderedMap.find_erase_of_ne _ howner]

end Connection

/-- libzmq announces that a connection begins or ends. -/
def ServerInput.Announces (client : Frame) : ServerInput ι → Prop
  | .message owner [] _ => owner = client
  | _ => False

instance (client : Frame) : (input : ServerInput ι) → Decidable (input.Announces client)
  | .message owner [] _ => inferInstanceAs (Decidable (owner = client))
  | .message _ (_ :: _) _ | .result _ _ _ | .next _ _ _ _ | .disconnect _ | .timeouts _ | .expire _ =>
    isFalse id

namespace Machine

variable {m s t : Machine σ ρ ι} {client : Frame}

/-- What is kept while nothing of a connection is announced. -/
theorem KeepsBooks.of_quiet {I : Server σ ι → List Action → Prop}
    (h : KeepsBooks π (othersBlank σ ι client) I) {inputs : List (ServerInput ι)}
    (hquiet : ∀ input ∈ inputs, ¬ input.Announces client) (hm : I m.server m.wire)
    (hrun : run (step π config) m inputs = some t) : I t.server t.wire := by
  refine invariant_of_stepsMeet (P := fun m => I m.server m.wire)
    (C := fun _ input => ¬ input.Announces client) hm (fun u input v hu hinput hstep => ?_)
    (stepsMeet_of_forall hquiet) hrun
  refine h.step ⟨?_, fun _ _ _ _ _ _ _ _ _ => trivial, fun _ _ => trivial, fun _ _ => trivial⟩ hu hstep
  rintro owner rejection rfl howner
  exact hinput howner

/-- The first announcement opens a session. -/
theorem Unknown.connect (hm : Unknown client m.server m.wire) {rejection : SendResult}
    (hstep : m.step π config (.message client [] rejection) = some t) :
    Known client t.server t.wire := by
  have hsession : m.server.sessions.find client = none := hm.session
  cases stepped_of_step hstep with
  | message _ _ _ hcontrol =>
    simp only [handleRequest, hsession, if_true]
    refine iff_of_true ?_ (by simpa using hm.notClosed)
    rw [UnorderedMap.emplace_of_find_eq_none hsession]
    simp

/-- The second announcement ends the session if there is one, and opens one otherwise. -/
theorem Known.hangUp (hm : Known client m.server m.wire) {rejection : SendResult}
    (hstep : m.step π config (.message client [] rejection) = some t) :
    t.server.sessions.find client = none ↔ .closed client .accepted ∉ m.wire := by
  rw [← show _ ↔ _ from hm]
  cases stepped_of_step hstep with
  | message _ _ _ hcontrol =>
    cases hsession : m.server.sessions.find client with
    | none =>
      simp only [handleRequest, hsession, if_true]
      rw [UnorderedMap.emplace_of_find_eq_none hsession]
      simp
    | some session => simp [handleRequest, hsession]

/-- After the end of its connection was announced, a client has no session if and only if the server had
not closed the connection before. -/
theorem closed_iff {before data rest : List (ServerInput ι)}
    (hquiet : ∀ input ∈ before ++ data ++ rest, ¬ input.Announces client)
    {connect disconnect : SendResult}
    (hs : run (step π config) .start (before ++ .message client [] connect :: data) = some s)
    (ht : s.step π config (.message client [] disconnect) = some t) :
    Always (step π config) t rest (fun u => u.server.sessions.find client = none) ↔
      .closed client .accepted ∉ s.wire := by
  rw [run_append, Option.bind_eq_some_iff] at hs
  obtain ⟨m, hm, hs⟩ := hs
  rw [run_cons, Option.bind_eq_some_iff] at hs
  obtain ⟨connected, hconnected, hs⟩ := hs
  -- before its connection the server knows nothing of the client, and after it the client is known
  have hunknown : Unknown client m.server m.wire := by
    refine KeepsBooks.of_quiet (keepsBooks_unknown client) (fun input hinput => ?_) ?_ hm
    · exact hquiet input (by simp [hinput])
    · exact ⟨rfl, fun _ => by simp [start, Server.start], by simp [start]⟩
  have hknown : Known client s.server s.wire :=
    KeepsBooks.of_quiet (keepsBooks_known client) (fun input hinput => hquiet input (by simp [hinput]))
      (Unknown.connect hunknown hconnected) hs
  rw [← Known.hangUp hknown ht]
  constructor
  · intro halways
    exact halways [] rest t rfl rfl
  · intro hnone js ks u hsplit hu
    refine KeepsBooks.of_quiet (I := NoSession client) (keepsBooks_noSession client) (fun input hinput => ?_)
      hnone hu
    exact hquiet input (by simp [hsplit, hinput])

/-- A client hangs up while its request is being worked on. -/
theorem closed_iff_oneRequest :
    ∃ s t, run (step (httpProtocol .percent) checked) .start
        (oneRequest (ascii "GET / HTTP/1.1\r\n\r\n")) = some s ∧
      s.step (httpProtocol .percent) checked (.message [1] [] .accepted) = some t ∧
      Always (step (httpProtocol .percent) checked) t [.timeouts 100]
        (fun u => u.server.sessions.find [1] = none) := by
  let data : List (ServerInput HttpRequestInfo) := (oneRequest (ascii "GET / HTTP/1.1\r\n\r\n")).tail
  have hquiet : ∀ input ∈ [] ++ data ++ [.timeouts 100], ¬ input.Announces [1] := by decide
  have hrun : (run (step (httpProtocol .percent) checked) .start
      ([] ++ .message [1] [] .accepted :: data)).map
        (fun s => (decide (.closed [1] .accepted ∉ s.wire),
          (s.step (httpProtocol .percent) checked (.message [1] [] .accepted)).isSome)) =
      some (true, true) := by decide
  obtain ⟨s, hs, heq⟩ := Option.map_eq_some_iff.mp hrun
  obtain ⟨hclosed, hsome⟩ := Prod.mk.inj heq
  obtain ⟨t, ht⟩ := Option.isSome_iff_exists.mp hsome
  exact ⟨s, t, hs, ht, (closed_iff hquiet hs ht).mpr (of_decide_eq_true hclosed)⟩

/-- The client sends something malformed. When its end is announced, the server has closed the
connection, and takes the announcement for that of a new one. -/
theorem leaves_session :
    ¬ ∀ (client : Frame) (before data rest : List (ServerInput HttpRequestInfo))
        (connect disconnect : SendResult) (s t : Machine RequestParser HttpRequest HttpRequestInfo),
      (∀ input ∈ before ++ data ++ rest, ¬ input.Announces client) →
      run (step (httpProtocol .percent) checked) .start
        (before ++ .message client [] connect :: data) = some s →
      s.step (httpProtocol .percent) checked (.message client [] disconnect) = some t →
        Always (step (httpProtocol .percent) checked) t rest
          (fun u => u.server.sessions.find client = none) := by
  intro hcloses
  let data : List (ServerInput HttpRequestInfo) :=
    [.message [1] (ascii "malformed") .accepted, .disconnect .accepted]
  have hrun : ((run (step (httpProtocol .percent) checked) .start
      ([] ++ .message [1] [] .accepted :: data)).bind fun s =>
        (s.step (httpProtocol .percent) checked (.message [1] [] .accepted)).map
          fun t => (t.server.sessions.find [1]).isSome) = some true := by decide
  obtain ⟨s, hs, hrun⟩ := Option.bind_eq_some_iff.mp hrun
  obtain ⟨t, ht, hsession⟩ := Option.map_eq_some_iff.mp hrun
  have hnone := hcloses [1] [] data [] .accepted .accepted s t (by decide) hs ht [] [] t rfl rfl
  simp [hnone] at hsession

end Machine

/-! ### Sessions that `dequeue` closes -/

namespace Network

variable {n n' : Network σ ρ ι} {i : NetworkInput ι}

/-- No send to a connection that was closed by either side reports success. -/
def FailsClosed (π : Protocol σ ρ ι) (config : ServerConfig ρ) (n : Network σ ρ ι) (i : NetworkInput ι) :
    Prop :=
  ∀ s ∈ clientSends π config n.machine i.input,
    s.1 ∈ n.gone ∨ .closed s.1 .accepted ∈ n.machine.wire → s.2 ≠ .accepted

instance (n : Network σ ρ ι) (i : NetworkInput ι) : Decidable (n.FailsClosed π config i) := by
  unfold FailsClosed
  infer_instance

/-- The clients of requests have sessions, or cannot be sent to. -/
theorem findsSession_of_reached (hn : Reached n.gone n.machine.server n.machine.wire)
    (hfails : n.FailsClosed π config i) : n.machine.FindsSession π config i.input := by
  intro call hcall client hcloses
  have hreached : Reached n.gone call.server n.machine.wire := by
    rcases Machine.server_of_call hcall with heq | ⟨_, _, _, heq⟩
    · exact heq ▸ hn
    · rw [heq]
      exact Reached.remember (s := n.machine.server.count) hn call.info
  have hsend : (client, call.sends.close) ∈ clientSends π config n.machine i.input := by
    simp [clientSends, show _ = some call from hcall, hcloses.1]
  have haccepted : call.sends.close = .accepted := hcloses.2.2.2
  rcases hreached _ client hcloses.1 with hsession | hclosed
  · exact hsession
  · exact absurd haccepted (hfails _ hsend hclosed)

/-- After a step in which a disconnect notification tells the truth, the client of each request still has a session,
or is gone, or is being disconnected. -/
theorem Reached.step (hn : Reached n.gone n.machine.server n.machine.wire) (hgone : n.NotifiesGone i)
    (hstep : n.step π config i = some n') : Reached n'.gone n'.machine.server n'.machine.wire := by
  obtain ⟨m, hm, rfl⟩ := Option.map_eq_some_iff.mp hstep
  have hreached : Reached (n.gone ++ i.vanished) n.machine.server n.machine.wire :=
    hn.mono (fun _ => List.mem_append_left _) fun _ => id
  refine (keepsBooks_reached _).step ⟨?_, ?_, ?_, ?_⟩ hreached hm
  · intro client rejection hinput
    simp only [NotifiesGone, hinput] at hgone
    exact hgone
  all_goals exact fun _ _ => by simp [goneConditions]

/-- If nothing is sent on a connection that was closed by either side, `dequeue` finds each session that
it closes. -/
theorem findsSession_of_run {inputs : List (NetworkInput ι)}
    (hgone : StepsMeet (step π config) .start inputs fun n i => n.NotifiesGone i)
    (hfails : StepsMeet (step π config) .start inputs (FailsClosed π config)) :
    (StepsMeet (step π config) .start inputs fun n i => n.machine.FindsSession π config i.input) ∧
      Always (step π config) .start inputs
        fun n => n.machine.control ≠ .undefined .missingSession := by
  -- the invariant holds after every beginning of the run, and each step finds its sessions by it
  have hreached : ∀ before after n, inputs = before ++ after →
      run (step π config) .start before = some n →
        Reached n.gone n.machine.server n.machine.wire ∧
          n.machine.control ≠ .undefined .missingSession := by
    intro before after n hsplit hrun
    have hmeet : StepsMeet (step π config) .start before fun n i =>
        n.NotifiesGone i ∧ n.FailsClosed π config i := fun js j ks t hjs ht =>
      (hgone.and hfails) js j (ks ++ after) t (by simp [hsplit, hjs]) ht
    refine invariant_of_stepsMeet (P := fun n => Reached n.gone n.machine.server n.machine.wire ∧
      n.machine.control ≠ .undefined .missingSession) ?_ (fun t i u ht hinput hstep => ?_) hmeet hrun
    · exact ⟨fun _ _ hfind => by simp [start, Machine.start, Server.start] at hfind,
        by simp [start, Machine.start]⟩
    · refine ⟨Reached.step ht.1 hinput.1 hstep, fun hmissing => ?_⟩
      obtain ⟨m, hm, rfl⟩ := Option.map_eq_some_iff.mp hstep
      obtain ⟨call, hcall, hby⟩ := Machine.call_of_stopped hm (Or.inr hmissing)
      rcases hby with ⟨-, hundefined⟩ | ⟨hescaped, -⟩
      · exact Call.outcome_ne_undefined (findsSession_of_reached ht.1 hinput.2 call hcall) hundefined
      · simp [show m.control = _ from hmissing] at hescaped
  constructor
  · intro before i after n hsplit hrun
    exact findsSession_of_reached (hreached before _ n hsplit hrun).1 (hfails before i after n hsplit hrun)
  · intro before after n hsplit hrun
    exact (hreached before after n hsplit hrun).2

/-- A client asks for its connection not to be kept alive, and it is closed after the response. Another one sends a
request, and then something malformed, and its connection is closed. The result for its request comes then. -/
def lateResult : List (NetworkInput HttpRequestInfo) :=
  let sends : DequeueSends := ⟨.accepted, .accepted⟩
  let result (id : UInt32) (version : ℕ) (sends : DequeueSends) : NetworkInput HttpRequestInfo :=
    ⟨.result { id, timeStamp := 100, version, connectionKeepAlive := false, connectionClose := id = 1 }
      (ascii "HTTP/1.1 200 OK\r\n\r\n") sends, []⟩
  [⟨.message [2] [] .accepted, []⟩, ⟨.message [2] (ascii "GET / HTTP/1.0\r\n\r\n") .accepted, []⟩,
    ⟨.next 100 .accepted .accepted sends, []⟩, ⟨.next 100 .accepted .accepted sends, []⟩, result 0 0 sends] ++
    oneRequest ++
      [⟨.message [1] (ascii "malformed") .accepted, []⟩, ⟨.disconnect .accepted, [[1]]⟩,
        result 1 1 ⟨.threw, .threw⟩]

/-- `findsSession_of_run` for two clients: the first is closed after its response, the second one's result comes after
it has hung up. -/
theorem findsSession_lateResult :
    ∃ n, run (step (httpProtocol .percent) Machine.checked) .start lateResult = some n ∧
      .closed [2] .accepted ∈ n.machine.wire ∧ .closed [1] .accepted ∈ n.machine.wire ∧
      n.machine.control = .serving ∧
      StepsMeet (step (httpProtocol .percent) Machine.checked) .start lateResult fun n i =>
        n.machine.FindsSession (httpProtocol .percent) Machine.checked i.input := by
  have hrun : (run (step (httpProtocol .percent) Machine.checked) .start lateResult).map
      (fun n => (decide (.closed [2] .accepted ∈ n.machine.wire), decide (.closed [1] .accepted ∈ n.machine.wire),
        decide (n.machine.control = .serving))) = some (true, true, true) := by decide +kernel
  obtain ⟨n, hn, heq⟩ := Option.map_eq_some_iff.mp hrun
  simp only [Prod.mk.injEq, decide_eq_true_eq] at heq
  obtain ⟨hanswered, hrejected, hserving⟩ := heq
  exact ⟨n, hn, hanswered, hrejected, hserving, (findsSession_of_run (by decide +kernel) (by decide +kernel)).1⟩

end Network

end PrimeServer
