import PrimeServer.Server.Operations

/-!
# The books of the server

The sessions, the requests of each session and the requests that are being worked on are the books of
the server. All that its steps do to them is put together from a few changes.

## Main results

* `Server.dequeue_spec`: all that `dequeue` can do;
* `KeepsBooks.step`: what every change keeps, every step keeps.
-/

namespace PrimeServer

open Transition

variable {σ ρ ι : Type} {π : Protocol σ ρ ι} {config : ServerConfig ρ}

namespace Server

variable {s t : Server σ ι} {info : ι} {response : Bytes} {sends : DequeueSends}
  {actions : List Action} {client : Frame}

@[simp]
theorem count_sessions (s : Server σ ι) : s.count.sessions = s.sessions := rfl

@[simp]
theorem count_requests (s : Server σ ι) : s.count.requests = s.requests := rfl

@[simp]
theorem forget_sessions (s : Server σ ι) (key : UInt64) : (s.forget key).sessions = s.sessions := rfl

@[simp]
theorem forget_requests (s : Server σ ι) (key : UInt64) :
    (s.forget key).requests = s.requests.erase key := rfl

@[simp]
theorem destroy_sessions (s : Server σ ι) (client : Frame) :
    (s.destroy client).sessions = s.sessions.erase client := rfl

@[simp]
theorem destroy_requests (s : Server σ ι) (client : Frame) :
    (s.destroy client).requests = s.requests := rfl

@[simp]
theorem remember_sessions (s : Server σ ι) (client : Frame) (session : Session σ) (info : ι) :
    (s.remember π client session info).sessions =
      s.sessions.assign client { session with enqueued := session.enqueued ++ [π.key info] } := rfl

@[simp]
theorem remember_requests (s : Server σ ι) (client : Frame) (session : Session σ) (info : ι) :
    (s.remember π client session info).requests = s.requests.emplace (π.key info) client := rfl

/-- The requests on the books after one was remembered. -/
theorem of_find_requests_remember {s : Server σ ι} {client owner : Frame} {session : Session σ}
    {info : ι} {key : UInt64}
    (h : (s.remember π client session info).requests.find key = some owner) :
    s.requests.find key = some owner ∨ key = π.key info ∧ owner = client := by
  rw [remember_requests] at h
  -- `emplace` does nothing for a key that is known
  cases hknown : s.requests.find (π.key info) with
  | some other =>
    rw [UnorderedMap.emplace_of_find_eq_some hknown] at h
    exact Or.inl h
  | none =>
    rw [UnorderedMap.emplace_of_find_eq_none hknown, UnorderedMap.find_assign] at h
    split_ifs at h with hkey
    · exact Or.inr ⟨hkey, (Option.some.inj h).symm⟩
    · exact Or.inl h

/-- Hanging up takes the requests of the session off the books. -/
theorem find_requests_foldl_forget (keys : List UInt64) (s : Server σ ι) (key : UInt64) :
    (keys.foldl forget s).requests.find key = if key ∈ keys then none else s.requests.find key := by
  induction keys generalizing s with
  | nil => simp
  | cons k keys ih =>
    rw [List.foldl_cons, ih, forget_requests, UnorderedMap.find_erase]
    by_cases hkey : key ∈ keys <;> by_cases hk : key = k <;> simp [hkey, hk]

theorem sessions_foldl_forget (keys : List UInt64) (s : Server σ ι) :
    (keys.foldl forget s).sessions = s.sessions := by
  induction keys generalizing s with
  | nil => rfl
  | cons k keys ih => rw [List.foldl_cons, ih, forget_sessions]

/-- The keys in the list of a client's session. -/
def listed (s : Server σ ι) (client : Frame) : List UInt64 :=
  ((s.sessions.find client).map Session.enqueued).getD []

/-! ### `dequeue` -/

/-- Answering a request closes the session of its client. -/
def Closes (π : Protocol σ ρ ι) (s : Server σ ι) (info : ι) (sends : DequeueSends) (client : Frame) :
    Prop :=
  s.requests.find (π.key info) = some client ∧ sends.response ≠ .threw ∧ π.keepAlive info = false ∧
    sends.close = .accepted

/-- Whether a call closes a session is decidable. -/
instance : Decidable (s.Closes π info sends client) := by
  unfold Closes
  infer_instance

/-- What `dequeue` does. -/
inductive Dequeues (π : Protocol σ ρ ι) (s : Server σ ι) (info : ι) (response : Bytes)
    (sends : DequeueSends) : Dequeued σ ι × List Action → Prop where
  /-- The request is not known, or no more. -/
  | unknown (hfind : s.requests.find (π.key info) = none) :
      Dequeues π s info response sends (.returned s, [])
  /-- The response is not sent, and everything stays as it was. -/
  | responseThrew {client : Frame} (hfind : s.requests.find (π.key info) = some client)
      (hresponse : sends.response = .threw) :
      Dequeues π s info response sends
        (.threw s, [.response (π.key info) client response sends.response])
  /-- The response is sent, or was dropped, and the connection is kept. -/
  | kept {client : Frame} (hfind : s.requests.find (π.key info) = some client)
      (hresponse : sends.response ≠ .threw) (hkeep : π.keepAlive info = true) :
      Dequeues π s info response sends
        (.returned (s.forget (π.key info)),
          [.response (π.key info) client response sends.response])
  /-- The response is sent, or was dropped, and the closing frame is not. -/
  | closeThrew {client : Frame} (hfind : s.requests.find (π.key info) = some client)
      (hresponse : sends.response ≠ .threw) (hkeep : π.keepAlive info = false)
      (hclose : sends.close = .threw) :
      Dequeues π s info response sends
        (.threw s, [.response (π.key info) client response sends.response,
          .closed client sends.close])
  /-- The response is sent, or was dropped, and the closing frame was dropped. -/
  | notClosed {client : Frame} (hfind : s.requests.find (π.key info) = some client)
      (hresponse : sends.response ≠ .threw) (hkeep : π.keepAlive info = false)
      (hclose : sends.close = .again) :
      Dequeues π s info response sends
        (.returned (s.forget (π.key info)),
          [.response (π.key info) client response sends.response, .closed client sends.close])
  /-- The connection is closed and all the keys of its session are published. -/
  | closed {client : Frame} {session : Session σ} (hcloses : s.Closes π info sends client)
      (hsession : s.sessions.find client = some session) :
      Dequeues π s info response sends
        (.returned ((s.destroy client).forget (π.key info)),
          [.response (π.key info) client response sends.response, .closed client sends.close] ++
            session.enqueued.map .interrupt)
  /-- The session is gone. -/
  | undefined {client : Frame} (hcloses : s.Closes π info sends client)
      (hsession : s.sessions.find client = none) :
      Dequeues π s info response sends
        (.undefined, [.response (π.key info) client response sends.response,
          .closed client sends.close])

/-- The one specification of `dequeue`: every proof about a response starts from here. -/
theorem dequeue_spec (π : Protocol σ ρ ι) (s : Server σ ι) (info : ι) (response : Bytes)
    (sends : DequeueSends) : Dequeues π s info response sends (s.dequeue π info response sends) := by
  unfold dequeue
  cases hfind : s.requests.find (π.key info) with
  | none => exact .unknown hfind
  | some client =>
    by_cases hresponse : sends.response = .threw
    · simp only [if_pos hresponse]
      exact .responseThrew hfind hresponse
    cases hkeep : π.keepAlive info with
    | true =>
      simp only [if_neg hresponse, if_true]
      exact .kept hfind hresponse hkeep
    | false =>
      simp only [if_neg hresponse, Bool.false_eq_true, if_false]
      split
      case h_1 hclose => exact .closeThrew hfind hresponse hkeep hclose
      case h_2 hclose => exact .notClosed hfind hresponse hkeep hclose
      case h_3 hclose =>
        have hcloses : s.Closes π info sends client := ⟨hfind, hresponse, hkeep, hclose⟩
        split
        case h_1 hsession => exact .undefined hcloses hsession
        case h_2 session hsession => exact .closed hcloses hsession

/-- The specification for a call whose outcome has been given a name. -/
theorem dequeues_of_eq {d : Dequeued σ ι × List Action} (h : s.dequeue π info response sends = d) :
    Dequeues π s info response sends d :=
  h ▸ dequeue_spec π s info response sends

/-- The requests that are being worked on, and those of each session, are the same. -/
structure SameBooks (s t : Server σ ι) : Prop where
  /-- The same requests are in progress. -/
  requests : t.requests = s.requests
  /-- The same clients have sessions, with the same keys. -/
  sessions : ∀ client,
    (t.sessions.find client).map Session.enqueued = (s.sessions.find client).map Session.enqueued

theorem SameBooks.refl (s : Server σ ι) : s.SameBooks s := ⟨rfl, fun _ => rfl⟩

/-- Two records with the same sessions and requests know the same connections. -/
theorem SameBooks.sessions_ne_none_iff (h : s.SameBooks t) (client : Frame) :
    t.sessions.find client ≠ none ↔ s.sessions.find client ≠ none := by
  have hsessions := h.sessions client
  cases hs : s.sessions.find client <;> cases ht : t.sessions.find client <;> simp_all

/-- Another parser state in a session is no change of the books. -/
theorem SameBooks.assign {s : Server σ ι} {client : Frame} {session : Session σ}
    (hsession : s.sessions.find client = some session) (request : σ) (requestId : UInt32) :
    s.SameBooks
      { s with requestId, sessions := s.sessions.assign client { session with request } } := by
  refine ⟨rfl, fun c => ?_⟩
  simp only [UnorderedMap.find_assign]
  split_ifs with hc
  · simp [hc, hsession]
  · rfl

end Server

/-- The server after `dequeue`. -/
def Dequeued.server (s : Server σ ι) : Dequeued σ ι → Server σ ι
  | .returned t | .threw t => t
  | .undefined => s

/-- Actions that change no books: no session comes or goes, and no request is remembered or answered. -/
def Action.Inert : Action → Prop
  | .rejection _ _ _ | .interrupt _ | .forwarded _ _ => True
  | .closed _ result => result ≠ .accepted
  | .opened _ | .hungUp _ | .accepted _ _ | .response _ _ _ _ => False

/-- An action that is not inert is not among inert ones. -/
theorem mem_append_inert {wire actions : List Action} {action : Action}
    (hinert : ∀ a ∈ actions, a.Inert) (haction : ¬ action.Inert) :
    action ∈ wire ++ actions ↔ action ∈ wire := by
  rw [List.mem_append, or_iff_left_iff_imp]
  exact fun hmem => absurd (hinert action hmem) haction

/-- A call of `dequeue`. -/
structure Call (σ ι : Type) where
  /-- The server at the time of the call. -/
  server : Server σ ι
  /-- The info of the request that is answered. -/
  info : ι
  /-- The text of the response. -/
  response : Bytes
  /-- What the calls of `send` return. -/
  sends : DequeueSends

namespace Machine

/-- The call of `dequeue` that a step makes. -/
def call (π : Protocol σ ρ ι) (config : ServerConfig ρ) (m : Machine σ ρ ι) :
    ServerInput ι → Option (Call σ ι)
  | .result info response sends => some { server := m.server, info, response, sends }
  | .next now _ _ sends =>
    match m.control with
    | .enqueueing client (parsed :: _) =>
      match config.healthCheckMatcher parsed, m.server.sessions.find client with
      | some true, some session =>
        let info := π.toInfo parsed m.server.requestId now
        some
          { server := m.server.count.remember π client session info
            info
            response := config.healthCheckResponse
            sends }
      | _, _ => none
    | _ => none
  | .expire sends =>
    match m.control, m.server.requestHistory with
    | .expiring dropDead, info :: _ =>
      if dropDead > 0 ∧ (π.timeStamp info).toNat < dropDead then
        some { server := m.server, info, response := π.timeout info, sends }
      else none
    | _, _ => none
  | .message _ _ _ | .disconnect _ | .timeouts _ => none

/-- For a health check the call is made by `enqueue`, after the request has been remembered. -/
theorem call_next {m : Machine σ ρ ι} {client : Frame} {parsed : ρ} {rest : List ρ}
    {session : Session σ} (hcontrol : m.control = .enqueueing client (parsed :: rest))
    (hmatch : config.healthCheckMatcher parsed = some true)
    (hsession : m.server.sessions.find client = some session) (now : ℕ) (info text : SendResult)
    (sends : DequeueSends) :
    m.call π config (.next now info text sends) =
      some
        { server := m.server.count.remember π client session
            (π.toInfo parsed m.server.requestId now)
          info := π.toInfo parsed m.server.requestId now
          response := config.healthCheckResponse
          sends } := by
  simp only [Machine.call, hcontrol, hmatch, hsession]

/-- For an expired request the call is made by `handle_timeouts`, with the text of a timeout. -/
theorem call_expire {m : Machine σ ρ ι} {dropDead : ℤ} {info : ι} {history : List ι}
    (hcontrol : m.control = .expiring dropDead) (hhistory : m.server.requestHistory = info :: history)
    (hold : dropDead > 0 ∧ (π.timeStamp info).toNat < dropDead) (sends : DequeueSends) :
    m.call π config (.expire sends) =
      some { server := m.server, info, response := π.timeout info, sends } := by
  simp only [Machine.call, hcontrol, hhistory, if_pos hold]

/-- The calls of `dequeue` that steps make: for the result of a worker, for a health check and for a request
that is too old. -/
inductive Calls (π : Protocol σ ρ ι) (config : ServerConfig ρ) (m : Machine σ ρ ι) :
    ServerInput ι → Call σ ι → Prop where
  /-- For a result that has come back. -/
  | result (info : ι) (response : Bytes) (sends : DequeueSends) :
      Calls π config m (.result info response sends) { server := m.server, info, response, sends }
  /-- For a health check, after the request has been put on the books. -/
  | answer {client : Frame} {parsed : ρ} {rest : List ρ} {session : Session σ} (now : ℕ)
      (info text : SendResult) (sends : DequeueSends)
      (hcontrol : m.control = .enqueueing client (parsed :: rest))
      (hmatch : config.healthCheckMatcher parsed = some true)
      (hsession : m.server.sessions.find client = some session) :
      Calls π config m (.next now info text sends)
        { server := m.server.count.remember π client session
            (π.toInfo parsed m.server.requestId now)
          info := π.toInfo parsed m.server.requestId now
          response := config.healthCheckResponse
          sends }
  /-- For the oldest request, when it has timed out. -/
  | expire {dropDead : ℤ} {info : ι} {history : List ι} (sends : DequeueSends)
      (hcontrol : m.control = .expiring dropDead)
      (hhistory : m.server.requestHistory = info :: history)
      (hold : dropDead > 0 ∧ (π.timeStamp info).toNat < dropDead) :
      Calls π config m (.expire sends) { server := m.server, info, response := π.timeout info, sends }

/-- What a function gives is one of the calls a step can make. -/
theorem calls_of_call {m : Machine σ ρ ι} {input : ServerInput ι} {call : Call σ ι}
    (hcall : m.call π config input = some call) : m.Calls π config input call := by
  cases input with
  | result info response sends =>
    obtain rfl := Option.some.inj hcall
    exact .result info response sends
  | next now info text sends =>
    simp only [Machine.call] at hcall
    split at hcall
    case h_1 client parsed rest hcontrol =>
      split at hcall
      case h_1 session hmatch hsession =>
        obtain rfl := Option.some.inj hcall
        exact .answer now info text sends hcontrol hmatch hsession
      case h_2 => cases hcall
    case h_2 => cases hcall
  | expire sends =>
    simp only [Machine.call] at hcall
    split at hcall
    case h_1 dropDead info history hcontrol hhistory =>
      split_ifs at hcall with hold
      obtain rfl := Option.some.inj hcall
      exact .expire sends hcontrol hhistory hold
    case h_2 => cases hcall
  | message | disconnect | timeouts => cases hcall

/-- A call of `dequeue` is made on the server as it is, or when it has just remembered a request. -/
theorem server_of_call {m : Machine σ ρ ι} {input : ServerInput ι} {call : Call σ ι}
    (hcall : m.call π config input = some call) :
    call.server = m.server ∨
      ∃ client session, m.server.sessions.find client = some session ∧
        call.server = m.server.count.remember π client session call.info := by
  cases calls_of_call hcall with
  | result | expire => exact Or.inl rfl
  | @answer client _ _ session _ _ _ _ _ _ hsession => exact Or.inr ⟨client, session, hsession, rfl⟩

/-- The step closes a session after a rejection. -/
def Disconnects (m : Machine σ ρ ι) (client : Frame) : ServerInput ι → Prop
  | .disconnect close => m.control = .rejecting client ∧ close = .accepted
  | _ => False

end Machine

/-! ### The books

What a step does to sessions and requests is at most a few of these: nothing, a session that comes or
goes, a request that is remembered, a call of `dequeue`. -/

/-- Conditions under which the books are changed. -/
structure BookConditions (σ ι : Type) where
  /-- For an empty message of a client. -/
  blank : Server σ ι → List Action → Frame → Prop
  /-- For a request that is about to be remembered under a key. -/
  key : List Action → UInt64 → Prop
  /-- For a call of `dequeue`. -/
  dequeue : Server σ ι → ι → DequeueSends → Prop
  /-- For closing the session of a rejected client. -/
  disconnect : Server σ ι → Frame → Prop

/-- A step meets the conditions. -/
structure BookConditions.Met (C : BookConditions σ ι) (π : Protocol σ ρ ι) (config : ServerConfig ρ)
    (m : Machine σ ρ ι) (input : ServerInput ι) : Prop where
  /-- The condition on the message of a client that connects or disconnects. -/
  blank : ∀ client rejection, input = .message client [] rejection → C.blank m.server m.wire client
  /-- The condition on a key under which `enqueue` remembers a request. -/
  key : ∀ client parsed rest now info text sends, m.control = .enqueueing client (parsed :: rest) →
    input = .next now info text sends →
      C.key m.wire (π.key (π.toInfo parsed m.server.requestId now))
  /-- The condition on each call of `dequeue`, whoever makes it. -/
  dequeue : ∀ call ∈ m.call π config input, C.dequeue call.server call.info call.sends
  /-- The condition on a rejection after which the connection is closed. -/
  disconnect : ∀ client, m.Disconnects client input → C.disconnect m.server client

/-- Nothing is asked of a step. -/
def BookConditions.free (σ ι : Type) : BookConditions σ ι where
  blank _ _ _ := True
  key _ _ := True
  dequeue _ _ _ := True
  disconnect _ _ := True

/-- Without conditions every step is allowed. -/
theorem BookConditions.met_free (m : Machine σ ρ ι) (input : ServerInput ι) :
    (free σ ι).Met π config m input :=
  ⟨fun _ _ _ => trivial, fun _ _ _ _ _ _ _ _ _ => trivial, fun _ _ => trivial, fun _ _ => trivial⟩

/-- A property of the books that every change keeps under the conditions. -/
structure KeepsBooks (π : Protocol σ ρ ι) (C : BookConditions σ ι)
    (I : Server σ ι → List Action → Prop) : Prop where
  /-- It does not depend on the parsers, the counter and the history, nor on inert actions. -/
  quiet : ∀ {s t wire actions}, I s wire → s.SameBooks t → (∀ a ∈ actions, a.Inert) →
    I t (wire ++ actions)
  /-- It holds after a client has connected. -/
  opened : ∀ {s wire client}, I s wire → C.blank s wire client → s.sessions.find client = none →
    I { s with sessions := s.sessions.emplace client { request := π.fresh, enqueued := [] } }
      (wire ++ [.opened client])
  /-- It holds after a client has disconnected. -/
  hungUp : ∀ {s wire client session}, I s wire → C.blank s wire client →
    s.sessions.find client = some session →
      I ((session.enqueued.foldl Server.forget s).destroy client)
        (wire ++ (session.enqueued.map .interrupt ++ [.hungUp client]))
  /-- It holds after a request has been put on the books. -/
  remembered : ∀ {s wire client session info actions}, I s wire → C.key wire (π.key info) →
    s.sessions.find client = some session → (∀ a ∈ actions, a.Inert) →
      I (s.remember π client session info) (wire ++ actions ++ [.accepted (π.key info) client])
  /-- It holds after a call of `dequeue`. -/
  dequeued : ∀ {s wire info response sends outcome actions}, I s wire → C.dequeue s info sends →
    s.Dequeues π info response sends (outcome, actions) → I (outcome.server s) (wire ++ actions)
  /-- It holds after a rejected client's connection has been closed. -/
  disconnected : ∀ {s wire client session}, I s wire → C.disconnect s client →
    s.sessions.find client = some session →
      I (s.destroy client) (wire ++ [.closed client .accepted] ++ session.enqueued.map .interrupt)

namespace KeepsBooks

variable {C : BookConditions σ ι} {I : Server σ ι → List Action → Prop} {m t : Machine σ ρ ι}

/-- Nothing that can be seen happens, and the books stay as they are. -/
theorem unseen (h : KeepsBooks π C I) {s t : Server σ ι} {wire : List Action} (hs : I s wire)
    (hbooks : s.SameBooks t) : I t wire := by
  have hnone : ∀ a ∈ ([] : List Action), a.Inert := nofun
  simpa using h.quiet hs hbooks hnone

/-- A message of a client keeps what the books keep. -/
theorem handleRequest (h : KeepsBooks π C I) (hm : I m.server m.wire) (client : Frame) (body : Bytes)
    (rejection : SendResult) (hblank : body = [] → C.blank m.server m.wire client) :
    I (m.handleRequest π config client body rejection).server
      (m.handleRequest π config client body rejection).wire := by
  have hspec := m.handleRequest_spec π config client body rejection
  generalize m.handleRequest π config client body rejection = t at hspec ⊢
  cases hspec with
  | ignored => exact hm
  | opened hsession hbody => exact h.opened hm (hblank hbody) hsession
  | hungUp hsession hbody => exact h.hungUp hm (hblank hbody) hsession
  | parsed hsession => exact h.unseen hm (.assign hsession _ _)
  | threw hsession => exact h.unseen hm (.assign hsession _ _)
  | rejectionThrew hsession | rejected hsession =>
    exact h.quiet hm (.assign hsession _ _) (by simp [Action.Inert])

/-- A request that was forwarded, and was remembered for it. -/
theorem forward (h : KeepsBooks π C I) (hm : I m.server m.wire) {client : Frame} {parsed : ρ}
    {rest : List ρ} {info : ι} (hkey : C.key m.wire (π.key info))
    (hforwards : m.Forwards π client parsed rest info t) : I t.server t.wire := by
  have hinert : ∀ text, ∀ a ∈ [Action.forwarded (π.key info) text], a.Inert := by
    simp [Action.Inert]
  cases hforwards with
  | threw | again => exact hm
  | undefined => exact h.quiet hm (.refl _) (hinert _)
  | sent _ hsession => exact h.remembered hm hkey hsession (hinert _)

/-- A health check: the request is remembered and answered at once. -/
theorem answer (h : KeepsBooks π C I) (hm : I m.server m.wire) {client : Frame} {rest : List ρ}
    {info : ι} (hkey : C.key m.wire (π.key info)) {sends : DequeueSends}
    (hdequeue : ∀ session, m.server.sessions.find client = some session →
      C.dequeue (m.server.remember π client session info) info sends)
    (hanswers : m.Answers π config client rest info sends t) : I t.server t.wire := by
  have hnone : ∀ a ∈ ([] : List Action), a.Inert := nofun
  cases hanswers with
  | destroyed => exact hm
  | returned hsession hd | threw hsession hd | undefined hsession hd =>
    have hremembered := h.remembered hm hkey hsession hnone
    have hdequeued := h.dequeued hremembered (hdequeue _ hsession) (Server.dequeues_of_eq hd)
    rwa [List.append_nil] at hdequeued

/-- A result that came back from the workers. -/
theorem result (h : KeepsBooks π C I) (hm : I m.server m.wire) (info : ι) (response : Bytes)
    {sends : DequeueSends} (hdequeue : C.dequeue m.server info sends) :
    I (m.result π info response sends).server (m.result π info response sends).wire := by
  have hspec := m.result_spec π info response sends
  generalize m.result π info response sends = t at hspec ⊢
  cases hspec with
  | returned hd | threw hd | undefined hd => exact h.dequeued hm hdequeue (Server.dequeues_of_eq hd)

/-- An expired request, answered with a timeout. -/
theorem expire (h : KeepsBooks π C I) (hm : I m.server m.wire) {dropDead : ℤ} {sends : DequeueSends}
    (hdequeue : ∀ info history, m.server.requestHistory = info :: history → dropDead > 0 →
      (π.timeStamp info).toNat < dropDead → C.dequeue m.server info sends) :
    I (m.expire π dropDead sends).server (m.expire π dropDead sends).wire := by
  have hinterrupted : ∀ key, I m.server (m.wire ++ [.interrupt key]) := fun key =>
    h.quiet hm (.refl _) (by simp [Action.Inert])
  have hspec := m.expire_spec π dropDead sends
  generalize m.expire π dropDead sends = t at hspec ⊢
  cases hspec with
  | finished | young => exact hm
  | @returned info _ _ _ hhistory hold hd =>
    have hdequeued := h.dequeued (hinterrupted (π.key info)) (hdequeue _ _ hhistory hold.1 hold.2)
      (Server.dequeues_of_eq hd)
    -- the history is no part of the books
    exact h.unseen hdequeued ⟨rfl, fun _ => rfl⟩
  | threw hhistory hold hd | undefined hhistory hold hd =>
    exact h.dequeued (hinterrupted _) (hdequeue _ _ hhistory hold.1 hold.2) (Server.dequeues_of_eq hd)

/-- A connection that the server closes because of a request it could not parse. -/
theorem disconnect (h : KeepsBooks π C I) (hm : I m.server m.wire) {client : Frame}
    {close : SendResult} (hdisconnect : close = .accepted → C.disconnect m.server client) :
    I (m.disconnect client close).server (m.disconnect client close).wire := by
  have hspec := m.disconnect_spec client close
  generalize m.disconnect client close = t at hspec ⊢
  cases hspec with
  | undefined => exact hm
  | closed hsession hclose => exact hclose ▸ h.disconnected hm (hdisconnect hclose) hsession
  | kept _ hclose => exact h.quiet hm (.refl _) (by simp [Action.Inert, hclose])

/-- One request of those that were parsed, forwarded or answered. -/
theorem enqueue (h : KeepsBooks π C I) (hm : I m.server m.wire) {client : Frame} {parsed : ρ}
    {rest : List ρ} {now : ℕ} {info text : SendResult} {sends : DequeueSends}
    (hcontrol : m.control = .enqueueing client (parsed :: rest))
    (hC : C.Met π config m (.next now info text sends)) :
    I (m.enqueue π config client parsed rest now info text sends).server
      (m.enqueue π config client parsed rest now info text sends).wire := by
  have hkey := hC.key client parsed rest now info text sends hcontrol rfl
  -- the next id is no part of the books
  have hnext : I m.server.count m.wire := h.unseen hm ⟨rfl, fun _ => rfl⟩
  have hspec := m.enqueue_spec π config client parsed rest now info text sends
  generalize m.enqueue π config client parsed rest now info text sends = t at hspec ⊢
  cases hspec with
  | threw => exact hnext
  | forwards _ hforwards => exact h.forward (m := { m with server := m.server.count }) hnext hkey hforwards
  | answers hmatch hanswers =>
    refine h.answer (m := { m with server := m.server.count }) hnext hkey (fun session hsession => ?_)
      hanswers
    exact hC.dequeue _ (Machine.call_next hcontrol hmatch hsession now info text sends)

/-- What every change of the books keeps, every step keeps. -/
theorem step (h : KeepsBooks π C I) {input : ServerInput ι} (hC : C.Met π config m input)
    (hm : I m.server m.wire) (hstep : m.step π config input = some t) : I t.server t.wire := by
  cases Machine.stepped_of_step hstep with
  | result info response sends => exact h.result hm info response (hC.dequeue _ rfl)
  | message client body rejection =>
    exact h.handleRequest hm client body rejection fun hbody =>
      hC.blank client rejection (by rw [hbody])
  | enqueue now info text sends hcontrol => exact h.enqueue hm hcontrol hC
  | enqueued | timeouts => exact hm
  | @disconnect client close hcontrol =>
    exact h.disconnect hm fun hclose => hC.disconnect client ⟨hcontrol, hclose⟩
  | expire sends hcontrol =>
    refine h.expire hm fun info history hhistory hpos hold => ?_
    exact hC.dequeue _ (Machine.call_expire hcontrol hhistory ⟨hpos, hold⟩ sends)

/-- What every change of the books keeps under no condition, every run keeps. -/
theorem of_run (h : KeepsBooks π (.free σ ι) I) (hstart : I .start []) {inputs : List (ServerInput ι)}
    (hrun : run (Machine.step π config) .start inputs = some m) : I m.server m.wire :=
  invariant_of_steps (P := fun m => I m.server m.wire) hstart
    (fun t input _ ht hstep => h.step (BookConditions.met_free t input) ht hstep) hrun

end KeepsBooks

/-- What was done stays done. -/
theorem keepsBooks_mem (action : Action) :
    KeepsBooks π (.free σ ι) fun _ wire => action ∈ wire where
  quiet h _ _ := List.mem_append_left _ h
  opened h _ _ := List.mem_append_left _ h
  hungUp h _ _ := List.mem_append_left _ h
  remembered h _ _ _ := List.mem_append_left _ (List.mem_append_left _ h)
  dequeued h _ _ := List.mem_append_left _ h
  disconnected h _ _ := List.mem_append_left _ (List.mem_append_left _ h)

/-- The wire only grows. -/
theorem Machine.mem_wire_of_step {m t : Machine σ ρ ι} {input : ServerInput ι}
    (hstep : m.step π config input = some t) {action : Action} (h : action ∈ m.wire) :
    action ∈ t.wire :=
  (keepsBooks_mem action).step (BookConditions.met_free m input) h hstep

end PrimeServer
