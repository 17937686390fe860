import PrimeServer.Server.Books

/-!
# How the server stops

An exception that leaves `serve`, and the dereference of the end of `sessions`, both come from a call of
`dequeue`: the first from one that throws in `handle_timeouts`, the second from one that closes a session
which is gone.

## Main results

* `Machine.call_of_stopped`: the call that a step stops with.
-/

namespace PrimeServer

open Transition

variable {σ ρ ι : Type} {π : Protocol σ ρ ι} {config : ServerConfig ρ}

/-- How a call of `dequeue` ends. -/
def Call.outcome (π : Protocol σ ρ ι) (call : Call σ ι) : Dequeued σ ι :=
  (call.server.dequeue π call.info call.response call.sends).1

/-- The session that a call closes is there. -/
def Call.FindsSession (π : Protocol σ ρ ι) (call : Call σ ι) : Prop :=
  ∀ client, call.server.Closes π call.info call.sends client →
    call.server.sessions.find client ≠ none

/-- Whether a call finds its session is decidable. -/
instance (call : Call σ ι) : Decidable (call.FindsSession π) :=
  decidable_of_iff
    (∀ client ∈ call.server.requests.find (π.key call.info),
      call.server.Closes π call.info call.sends client →
        (call.server.sessions.find client).isSome) (by
    simp only [Call.FindsSession, Option.isSome_iff_ne_none]
    exact ⟨fun h client hcloses => h client hcloses.1 hcloses, fun h client _ => h client⟩)

/-- A call that finds its session does not dereference the end of the map. -/
theorem Call.outcome_ne_undefined {call : Call σ ι} (hfinds : call.FindsSession π) :
    call.outcome π ≠ .undefined := by
  intro houtcome
  have hspec := Server.dequeue_spec π call.server call.info call.response call.sends
  generalize hd : call.server.dequeue π call.info call.response call.sends = d at hspec
  have hundefined : d.1 = .undefined := by rw [← hd]; exact houtcome
  cases hspec with
  | undefined hcloses hsession => exact hfinds _ hcloses hsession
  | unknown | responseThrew | kept | closeThrew | notClosed | closed => cases hundefined

/-- A call throws when a send to the client of its request does. -/
theorem Call.threw_of_outcome {call : Call σ ι} {server : Server σ ι}
    (houtcome : call.outcome π = .threw server) :
    ∃ client, call.server.requests.find (π.key call.info) = some client ∧
      (call.sends.response = .threw ∨
        π.keepAlive call.info = false ∧ call.sends.close = .threw) := by
  have hspec := Server.dequeue_spec π call.server call.info call.response call.sends
  generalize hd : call.server.dequeue π call.info call.response call.sends = d at hspec
  have hthrew : d.1 = .threw server := by rw [← hd]; exact houtcome
  cases hspec with
  | @responseThrew client hfind hresponse => exact ⟨client, hfind, Or.inl hresponse⟩
  | @closeThrew client hfind _ hkeep hclose => exact ⟨client, hfind, Or.inr ⟨hkeep, hclose⟩⟩
  | unknown | kept | notClosed | closed | undefined => cases hthrew

namespace Machine

variable {m t : Machine σ ρ ι} {input : ServerInput ι}

/-- The machine has stopped in a way that only a call of `dequeue` leads to. -/
def Stopped (m : Machine σ ρ ι) : Prop :=
  m.control = .escaped ∨ m.control = .undefined .missingSession

/-- A message of a client does not stop the loop. -/
theorem not_stopped_handleRequest (hcontrol : m.control = .serving) (client : Frame) (body : Bytes)
    (rejection : SendResult) : ¬ (m.handleRequest π config client body rejection).Stopped := by
  have hspec := m.handleRequest_spec π config client body rejection
  generalize m.handleRequest π config client body rejection = t at hspec ⊢
  cases hspec with
  | ignored | opened | hungUp | threw => simp [Stopped, hcontrol]
  | parsed | rejectionThrew | rejected => simp [Stopped]

/-- Forwarding a request does not stop the loop. -/
theorem not_stopped_forward {client : Frame} {parsed : ρ} {rest : List ρ} {info : ι}
    (hforwards : m.Forwards π client parsed rest info t) : ¬ t.Stopped := by
  cases hforwards <;> simp [Stopped]

/-- Closing a connection after a rejection does not stop the loop. -/
theorem not_stopped_disconnect (client : Frame) (close : SendResult) :
    ¬ (m.disconnect client close).Stopped := by
  have hspec := m.disconnect_spec client close
  generalize m.disconnect client close = t at hspec ⊢
  cases hspec <;> simp [Stopped]

/-- The call of `dequeue` with which a step has stopped the machine. -/
def StoppedBy (π : Protocol σ ρ ι) (input : ServerInput ι) (t : Machine σ ρ ι) (call : Call σ ι) :
    Prop :=
  t.control = .undefined .missingSession ∧ call.outcome π = .undefined ∨
    t.control = .escaped ∧ (∃ sends, input = .expire sends) ∧
      ∃ server, call.outcome π = .threw server

/-- A result that stops the loop does it by its call. -/
theorem stoppedBy_result (hcontrol : m.control = .serving) {info : ι} {response : Bytes}
    {sends : DequeueSends} (ht : (m.result π info response sends).Stopped) :
    (m.result π info response sends).StoppedBy π (.result info response sends)
      { server := m.server, info, response, sends } := by
  have hspec := m.result_spec π info response sends
  generalize m.result π info response sends = t at hspec ht ⊢
  cases hspec with
  | returned | threw => simp [Stopped, hcontrol] at ht
  | undefined hd => exact Or.inl ⟨rfl, congrArg Prod.fst hd⟩

/-- A health check that stops the loop does it by its call. -/
theorem stoppedBy_answer {client : Frame} {session : Session σ}
    (hsession : m.server.sessions.find client = some session) {rest : List ρ} {info : ι}
    {sends : DequeueSends} (hanswers : m.Answers π config client rest info sends t) (ht : t.Stopped) :
    t.StoppedBy π input
      { server := m.server.remember π client session info
        info
        response := config.healthCheckResponse
        sends } := by
  cases hanswers with
  | destroyed | returned | threw => simp [Stopped] at ht
  | undefined hfound hd =>
    obtain rfl := Option.some.inj (hsession.symm.trans hfound)
    exact Or.inl ⟨rfl, congrArg Prod.fst hd⟩

/-- A timeout that stops the loop does it by its call. -/
theorem stoppedBy_expire {dropDead : ℤ} (hcontrol : m.control = .expiring dropDead)
    {sends : DequeueSends} (ht : (m.expire π dropDead sends).Stopped) :
    ∃ call, m.call π config (.expire sends) = some call ∧
      (m.expire π dropDead sends).StoppedBy π (.expire sends) call := by
  have hspec := m.expire_spec π dropDead sends
  generalize m.expire π dropDead sends = t at hspec ht ⊢
  cases hspec with
  | finished | young => simp [Stopped] at ht
  | returned => simp [Stopped, hcontrol] at ht
  | @threw _ _ server _ hhistory hold hd =>
    refine ⟨_, call_expire hcontrol hhistory hold sends, Or.inr ⟨rfl, ⟨sends, rfl⟩, server, ?_⟩⟩
    exact congrArg Prod.fst hd
  | undefined hhistory hold hd =>
    exact ⟨_, call_expire hcontrol hhistory hold sends, Or.inl ⟨rfl, congrArg Prod.fst hd⟩⟩

/-- A round of `enqueue` that stops the loop does it by the call it makes. -/
theorem stoppedBy_enqueue {client : Frame} {parsed : ρ} {rest : List ρ}
    (hcontrol : m.control = .enqueueing client (parsed :: rest)) {now : ℕ} {info text : SendResult}
    {sends : DequeueSends}
    (ht : (m.enqueue π config client parsed rest now info text sends).Stopped) :
    ∃ call, m.call π config (.next now info text sends) = some call ∧
      (m.enqueue π config client parsed rest now info text sends).StoppedBy π
        (.next now info text sends) call := by
  have hspec := m.enqueue_spec π config client parsed rest now info text sends
  generalize m.enqueue π config client parsed rest now info text sends = t at hspec ht ⊢
  cases hspec with
  | threw => simp [Stopped] at ht
  | forwards _ hforwards => exact absurd ht (not_stopped_forward hforwards)
  | answers hmatch hanswers =>
    -- only a health check that is answered makes a call
    cases hsession : m.server.sessions.find client with
    | none =>
      cases hanswers with
      | destroyed => simp [Stopped] at ht
      | returned hfound | threw hfound | undefined hfound => cases hsession.symm.trans hfound
    | some session =>
      refine ⟨_, call_next hcontrol hmatch hsession now info text sends, ?_⟩
      exact stoppedBy_answer (m := { m with server := m.server.count }) hsession hanswers ht

/-- A step that stops the machine makes a call of `dequeue` that ends in the same way. -/
theorem call_of_stopped (hstep : m.step π config input = some t) (ht : t.Stopped) :
    ∃ call, m.call π config input = some call ∧ t.StoppedBy π input call := by
  cases stepped_of_step hstep with
  | result info response sends hcontrol => exact ⟨_, rfl, stoppedBy_result hcontrol ht⟩
  | message client body rejection hcontrol =>
    exact absurd ht (not_stopped_handleRequest hcontrol _ _ _)
  | enqueue now info text sends hcontrol => exact stoppedBy_enqueue hcontrol ht
  | enqueued | timeouts => simp [Stopped] at ht
  | disconnect => exact absurd ht (not_stopped_disconnect _ _)
  | expire sends hcontrol => exact stoppedBy_expire hcontrol ht

end Machine

end PrimeServer
