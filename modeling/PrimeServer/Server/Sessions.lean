import PrimeServer.Server.Books
import PrimeServer.Server.Http

/-!
# Sessions in use

`enqueue` and `handle_request` work on an entry of `sessions` through references. A health check that
closes its session takes the entry away while requests after it in the same message are still to come.

## Main results

* `Machine.holdsSession_iff`: the session is always there exactly if every health check that closes
  it is the last request of its message.
-/

namespace PrimeServer

open Transition

variable {σ ρ ι : Type} {π : Protocol σ ρ ι} {config : ServerConfig ρ} {m t : Machine σ ρ ι}

namespace Machine

/-- The session that the references point into is there in each round of `enqueue` and when
`handle_request` goes on after a failure, and it has never been used when it was not. -/
def HoldsSession (m : Machine σ ρ ι) : Prop :=
  match m.control with
  | .enqueueing client (_ :: _) | .rejecting client => m.server.sessions.find client ≠ none
  | .undefined use => use ≠ .destroyedSession
  | .enqueueing _ [] | .serving | .expiring _ | .escaped => True

/-- A health check that closes the session of its client is the last request of its message. -/
def ClosesLast (π : Protocol σ ρ ι) (config : ServerConfig ρ) (m : Machine σ ρ ι)
    (input : ServerInput ι) : Prop :=
  match m.control, m.call π config input with
  | .enqueueing client (_ :: _ :: _), some call =>
    ¬ call.server.Closes π call.info call.sends client
  | _, _ => True

/-- Whether a response closes the session last is decidable. -/
instance (input : ServerInput ι) : Decidable (m.ClosesLast π config input) := by
  unfold ClosesLast
  split <;> infer_instance

/-- Only `enqueue` goes on after a response. -/
theorem closesLast_of_serving (hcontrol : m.control = .serving) (input : ServerInput ι) :
    m.ClosesLast π config input := by
  simp [ClosesLast, hcontrol]

/-- Outside `enqueue` no session is held. -/
theorem holdsSession_result (hcontrol : m.control = .serving) (info : ι) (response : Bytes)
    (sends : DequeueSends) : (m.result π info response sends).HoldsSession := by
  have hspec := m.result_spec π info response sends
  generalize m.result π info response sends = t at hspec ⊢
  cases hspec <;> simp [HoldsSession, hcontrol]

/-- A message of a client is parsed for the session that is there. -/
theorem holdsSession_handleRequest (hcontrol : m.control = .serving) (client : Frame) (body : Bytes)
    (rejection : SendResult) : (m.handleRequest π config client body rejection).HoldsSession := by
  have hspec := m.handleRequest_spec π config client body rejection
  generalize m.handleRequest π config client body rejection = t at hspec ⊢
  cases hspec with
  | ignored | opened | hungUp | threw => simp [HoldsSession, hcontrol]
  | @parsed session parsed request => cases parsed <;> simp [HoldsSession]
  | rejectionThrew | rejected => simp [HoldsSession]

/-- A request that was forwarded leaves its session in place. -/
theorem holdsSession_forward {client : Frame} (hsession : m.server.sessions.find client ≠ none)
    {parsed : ρ} {rest : List ρ} {info : ι} (hforwards : m.Forwards π client parsed rest info t) :
    t.HoldsSession := by
  cases hforwards with
  | threw => simp [HoldsSession]
  | again => simpa [HoldsSession] using hsession
  | undefined _ hnone => exact absurd hnone hsession
  | sent => cases rest <;> simp [HoldsSession]

/-- `dequeue` leaves the session of a client unless it closes it. Only then, it is sure to return. -/
theorem find_dequeued_iff {s : Server σ ι} {client : Frame} (hsession : s.sessions.find client ≠ none)
    {info : ι} {response : Bytes} {sends : DequeueSends} {outcome : Dequeued σ ι} {actions : List Action}
    (hspec : s.Dequeues π info response sends (outcome, actions)) :
    ((outcome.server s).sessions.find client ≠ none ↔ ¬ s.Closes π info sends client) ∧
      (s.Closes π info sends client → ∃ u, outcome = .returned u) := by
  cases hspec with
  | unknown hfind => simp [Dequeued.server, Server.Closes, hfind, hsession]
  | responseThrew _ hresponse => simp [Dequeued.server, Server.Closes, hresponse, hsession]
  | kept _ _ hkeep => simp [Dequeued.server, Server.Closes, hkeep, hsession]
  | closeThrew _ _ _ hclose | notClosed _ _ _ hclose =>
    simp [Dequeued.server, Server.Closes, hclose, hsession]
  | @closed owner _ hcloses =>
    refine ⟨?_, fun _ => ⟨_, rfl⟩⟩
    have hcloses_iff : s.Closes π info sends client ↔ client = owner := by
      simp [Server.Closes, hcloses.1, hcloses.2.1, hcloses.2.2.1, hcloses.2.2.2, eq_comm]
    show ((s.destroy owner).forget _).sessions.find client ≠ none ↔ _
    rw [hcloses_iff, Server.forget_sessions, Server.destroy_sessions, UnorderedMap.find_erase]
    split_ifs with howner
    · simp [howner]
    · simp [howner, hsession]
  | @undefined owner hcloses hnone =>
    -- the session that is gone is that of another client
    have hnot : ¬ s.Closes π info sends client := by
      intro hcloses'
      obtain rfl : owner = client := Option.some.inj (hcloses.1.symm.trans hcloses'.1)
      exact hsession hnone
    exact ⟨iff_of_true hsession hnot, fun hcloses' => absurd hcloses' hnot⟩

/-- A health check leaves the session for the requests after it unless it closes it. -/
theorem holdsSession_answer_iff {client : Frame} {session : Session σ}
    (hsession : m.server.sessions.find client = some session) {rest : List ρ} {info : ι}
    {sends : DequeueSends} (hanswers : m.Answers π config client rest info sends t) :
    t.HoldsSession ↔
      (rest ≠ [] → ¬ (m.server.remember π client session info).Closes π info sends client) := by
  have hkept : (m.server.remember π client session info).sessions.find client ≠ none := by
    simp
  cases hanswers with
  | destroyed hnone => cases hsession.symm.trans hnone
  | returned hfound hd =>
    obtain rfl := Option.some.inj (hsession.symm.trans hfound)
    rw [← (find_dequeued_iff hkept (Server.dequeues_of_eq hd)).1]
    cases rest <;> simp [HoldsSession, Dequeued.server]
  | threw hfound hd | undefined hfound hd =>
    obtain rfl := Option.some.inj (hsession.symm.trans hfound)
    -- where the session is closed, `dequeue` returns
    have hnot : ¬ (m.server.remember π client session info).Closes π info sends client := by
      intro hcloses
      obtain ⟨u, hreturned⟩ := (find_dequeued_iff hkept (Server.dequeues_of_eq hd)).2 hcloses
      cases hreturned
    exact iff_of_true (by simp [HoldsSession]) fun _ => hnot

/-- `handle_timeouts` holds no session. -/
theorem holdsSession_expire {dropDead : ℤ} (hcontrol : m.control = .expiring dropDead)
    (sends : DequeueSends) : (m.expire π dropDead sends).HoldsSession := by
  have hspec := m.expire_spec π dropDead sends
  generalize m.expire π dropDead sends = t at hspec ⊢
  cases hspec with
  | finished | young | threw | undefined => simp [HoldsSession]
  | returned => simp [HoldsSession, hcontrol]

/-- A rejection closes the connection after it has last used the session. -/
theorem holdsSession_disconnect {client : Frame} (hsession : m.server.sessions.find client ≠ none)
    (close : SendResult) : (m.disconnect client close).HoldsSession := by
  obtain ⟨session, hfound⟩ := Option.ne_none_iff_exists'.mp hsession
  by_cases hclose : close = .accepted <;> simp [disconnect, HoldsSession, hfound, hclose]

/-- A round of `enqueue` leaves its session in place unless the health check closed it and requests are left. -/
theorem holdsSession_enqueue_iff {client : Frame} {parsed : ρ} {rest : List ρ} {now : ℕ}
    {info text : SendResult} {sends : DequeueSends}
    (hcontrol : m.control = .enqueueing client (parsed :: rest))
    (hsession : m.server.sessions.find client ≠ none) :
    (m.enqueue π config client parsed rest now info text sends).HoldsSession ↔
      m.ClosesLast π config (.next now info text sends) := by
  obtain ⟨session, hfound⟩ := Option.ne_none_iff_exists'.mp hsession
  have hspec := m.enqueue_spec π config client parsed rest now info text sends
  generalize m.enqueue π config client parsed rest now info text sends = t at hspec ⊢
  cases hspec with
  | threw hmatch => cases rest <;> simp [HoldsSession, ClosesLast, call, hcontrol, hmatch]
  | forwards hmatch hforwards =>
    refine iff_of_true ?_ (by cases rest <;> simp [ClosesLast, call, hcontrol, hmatch])
    exact holdsSession_forward (m := { m with server := m.server.count }) hsession hforwards
  | answers hmatch hanswers =>
    refine (holdsSession_answer_iff (m := { m with server := m.server.count }) hfound hanswers).trans ?_
    cases rest <;> simp [ClosesLast, call, hcontrol, hmatch, hfound]

/-- A step leaves the session in its place exactly if a health check that closes it comes last. -/
theorem holdsSession_step_iff (hm : m.HoldsSession) {input : ServerInput ι}
    (hstep : m.step π config input = some t) :
    t.HoldsSession ↔ m.ClosesLast π config input := by
  cases stepped_of_step hstep with
  | result info response sends hcontrol =>
    exact iff_of_true (holdsSession_result hcontrol _ _ _) (closesLast_of_serving hcontrol _)
  | message client body rejection hcontrol =>
    exact iff_of_true (holdsSession_handleRequest hcontrol _ _ _) (closesLast_of_serving hcontrol _)
  | enqueue now info text sends hcontrol =>
    apply holdsSession_enqueue_iff hcontrol
    simpa [HoldsSession, hcontrol] using hm
  | enqueued now info text sends hcontrol => simp [HoldsSession, ClosesLast, hcontrol]
  | @disconnect client close hcontrol =>
    have hsession : m.server.sessions.find client ≠ none := by
      simpa [HoldsSession, hcontrol] using hm
    exact iff_of_true (holdsSession_disconnect hsession close) (by simp [ClosesLast, hcontrol])
  | timeouts now hcontrol => simp [HoldsSession, ClosesLast, hcontrol]
  | expire sends hcontrol =>
    exact iff_of_true (holdsSession_expire hcontrol sends) (by simp [ClosesLast, hcontrol])

/-- In a run of the server, the session is always there exactly if every health check that closes it
is the last request of its message. -/
theorem holdsSession_iff {inputs : List (ServerInput ι)}
    (hrun : run (step π config) .start inputs = some m) :
    Always (step π config) .start inputs HoldsSession ↔
      StepsMeet (step π config) .start inputs (ClosesLast π config) :=
  always_iff_stepsMeet (B := fun _ _ => True) trivial
    (fun _ _ _ _ ht hu => holdsSession_step_iff ht hu) (fun _ _ _ _ _ _ => trivial) hrun

/-- A server that answers health checks itself. -/
def checked : ServerConfig HttpRequest where
  maxRequestSize := 10485760
  requestTimeout := 15
  healthCheckMatcher r := some (r.path = ascii "/health_check")
  healthCheckResponse := ascii "HTTP/1.1 200 OK\r\n\r\n"

/-- A client connects and sends a message. Two rounds of `enqueue` find that every send succeeds. -/
def healthChecks (message : Bytes) : List (ServerInput HttpRequestInfo) :=
  [.message [1] [] .accepted, .message [1] message .accepted,
    .next 100 .accepted .accepted ⟨.accepted, .accepted⟩,
    .next 100 .accepted .accepted ⟨.accepted, .accepted⟩]

/-- `holdsSession_iff` for a health check on a kept connection before the one that closes it. -/
theorem holdsSession_keepAlive :
    Always (step (httpProtocol .percent) checked) .start
      (healthChecks (ascii "GET /health_check HTTP/1.1\r\n\r\nGET /health_check HTTP/1.0\r\n\r\n"))
      HoldsSession := by
  obtain ⟨m, hm⟩ := Option.isSome_iff_exists.mp
    (by decide : (run (step (httpProtocol .percent) checked) .start (healthChecks
      (ascii "GET /health_check HTTP/1.1\r\n\r\nGET /health_check HTTP/1.0\r\n\r\n"))).isSome)
  exact (holdsSession_iff hm).mpr (by decide)

/-- The first of two health checks closes the session, the second uses it. -/
theorem uses_destroyedSession :
    ¬ ∀ inputs m, run (step (httpProtocol .percent) checked) .start inputs = some m →
      Always (step (httpProtocol .percent) checked) .start inputs HoldsSession := by
  intro hholds
  have hrun : (run (step (httpProtocol .percent) checked) .start (healthChecks
      (ascii "GET /health_check HTTP/1.0\r\n\r\nGET /health_check HTTP/1.0\r\n\r\n"))).map
        (·.control) = some (.undefined .destroyedSession) := by decide
  obtain ⟨m, hm, hcontrol⟩ := Option.map_eq_some_iff.mp hrun
  have hlast := hholds _ m hm _ [] m (List.append_nil _).symm hm
  simp [HoldsSession, hcontrol] at hlast

end Machine

end PrimeServer
