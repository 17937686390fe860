import PrimeServer.Server.Machine

/-!
# The operations of the server

What each of the operations that steps consist of can do. What steps keep is proved from these lemmas, so
that it does not depend on how the operations get to their results.

## Main results

* `Machine.handleRequest_spec`: all that a message of a client can do;
* `Machine.enqueue_spec`: all that a round of `enqueue` can do with a request;
* `Machine.result_spec`: all that the result of a worker can do;
* `Machine.expire_spec`: all that a round of `handle_timeouts` can do.
-/

namespace PrimeServer

variable {σ ρ ι : Type}

namespace Machine

/-- What `handle_request` does up to the loop of `enqueue`. -/
inductive Handles (π : Protocol σ ρ ι) (config : ServerConfig ρ) (m : Machine σ ρ ι) (client : Frame)
    (body : Bytes) (rejection : SendResult) : Machine σ ρ ι → Prop where
  /-- The client is not known. -/
  | ignored (hsession : m.server.sessions.find client = none) (hbody : body ≠ []) :
      Handles π config m client body rejection m
  /-- The client connects. -/
  | opened (hsession : m.server.sessions.find client = none) (hbody : body = []) :
      Handles π config m client body rejection
        { m with
          server :=
            { m.server with
              sessions := m.server.sessions.emplace client { request := π.fresh, enqueued := [] } }
          wire := m.wire ++ [.opened client] }
  /-- The client disconnects, and all the keys of its session are published. -/
  | hungUp {session : Session σ} (hsession : m.server.sessions.find client = some session)
      (hbody : body = []) :
      Handles π config m client body rejection
        { m with
          server := (session.enqueued.foldl Server.forget m.server).destroy client
          wire := m.wire ++ (session.enqueued.map .interrupt ++ [.hungUp client]) }
  /-- The parser returns requests, which are to be enqueued. -/
  | parsed {session : Session σ} {parsed : List ρ} {request : σ}
      (hsession : m.server.sessions.find client = some session) (hbody : body ≠ [])
      (hparsed : π.fromStream session.request config.maxRequestSize body = .requests parsed request) :
      Handles π config m client body rejection
        { m with
          server :=
            { m.server with sessions := m.server.sessions.assign client { session with request } }
          control := .enqueueing client parsed }
  /-- The parser throws, and so does the answer to that. -/
  | rejectionThrew {session : Session σ} {response : Frame} {request : σ}
      (hsession : m.server.sessions.find client = some session) (hbody : body ≠ [])
      (hparsed : π.fromStream session.request config.maxRequestSize body = .rejected response request)
      (hrejection : rejection = .threw) :
      Handles π config m client body rejection
        { server :=
            { m.server with sessions := m.server.sessions.assign client { session with request } }
          control := .serving
          wire := m.wire ++ [.rejection client response rejection] }
  /-- The parser throws, and the answer to that is sent. -/
  | rejected {session : Session σ} {response : Frame} {request : σ}
      (hsession : m.server.sessions.find client = some session) (hbody : body ≠ [])
      (hparsed : π.fromStream session.request config.maxRequestSize body = .rejected response request)
      (hrejection : rejection ≠ .threw) :
      Handles π config m client body rejection
        { server :=
            Server.count
              { m.server with sessions := m.server.sessions.assign client { session with request } }
          control := .rejecting client
          wire := m.wire ++ [.rejection client response rejection] }
  /-- The parser throws what no handler of `handle_request` is for. -/
  | threw {session : Session σ} {request : σ}
      (hsession : m.server.sessions.find client = some session) (hbody : body ≠ [])
      (hparsed : π.fromStream session.request config.maxRequestSize body = .threw request) :
      Handles π config m client body rejection
        { m with
          server :=
            { m.server with sessions := m.server.sessions.assign client { session with request } } }

/-- The specification of `handle_request`. -/
theorem handleRequest_spec (π : Protocol σ ρ ι) (config : ServerConfig ρ) (m : Machine σ ρ ι)
    (client : Frame) (body : Bytes) (rejection : SendResult) :
    m.Handles π config client body rejection (m.handleRequest π config client body rejection) := by
  unfold handleRequest
  cases hsession : m.server.sessions.find client with
  | none =>
    by_cases hbody : body = []
    · simp only [if_pos hbody]
      exact .opened hsession hbody
    · simp only [if_neg hbody]
      exact .ignored hsession hbody
  | some session =>
    by_cases hbody : body = []
    · simp only [if_pos hbody]
      exact .hungUp hsession hbody
    · simp only [if_neg hbody]
      cases hparsed : π.fromStream session.request config.maxRequestSize body with
      | requests parsed request => exact .parsed hsession hbody hparsed
      | threw request => exact .threw hsession hbody hparsed
      | rejected response request =>
        by_cases hrejection : rejection = .threw
        · simp only [if_pos hrejection]
          exact .rejectionThrew hsession hbody hparsed hrejection
        · simp only [if_neg hrejection]
          exact .rejected hsession hbody hparsed hrejection

/-- What a round of the loop of `enqueue` does with a request that is sent on. -/
inductive Forwards (π : Protocol σ ρ ι) (m : Machine σ ρ ι) (client : Frame) (parsed : ρ) (rest : List ρ)
    (info : ι) : Machine σ ρ ι → Prop where
  /-- A call of `send` or of `to_string` throws. -/
  | threw : Forwards π m client parsed rest info { m with control := .serving }
  /-- The proxy takes no more. -/
  | again : Forwards π m client parsed rest info { m with control := .rejecting client }
  /-- The session is gone when the request has been sent on. -/
  | undefined {text : Bytes} (htext : π.toString parsed = some text)
      (hsession : m.server.sessions.find client = none) :
      Forwards π m client parsed rest info
        { m with
          control := .undefined .destroyedSession
          wire := m.wire ++ [.forwarded (π.key info) text] }
  /-- Both frames were sent, and the request is put on the books. -/
  | sent {text : Bytes} {session : Session σ} (htext : π.toString parsed = some text)
      (hsession : m.server.sessions.find client = some session) :
      Forwards π m client parsed rest info
        { server := m.server.remember π client session info
          control := .enqueueing client rest
          wire := m.wire ++ [.forwarded (π.key info) text] ++ [.accepted (π.key info) client] }

/-- The specification of the part of `enqueue` that forwards a request. -/
theorem forward_spec (π : Protocol σ ρ ι) (m : Machine σ ρ ι) (client : Frame) (parsed : ρ)
    (rest : List ρ) (info : ι) (infoSent textSent : SendResult) :
    m.Forwards π client parsed rest info (m.forward π client parsed rest info infoSent textSent) := by
  unfold forward
  cases infoSent with
  | threw => exact .threw
  | again => exact .again
  | accepted =>
    cases htext : π.toString parsed with
    | none => exact .threw
    | some text =>
      cases textSent with
      | threw => exact .threw
      | again => exact .again
      | accepted =>
        cases hsession : m.server.sessions.find client with
        | none => exact .undefined htext hsession
        | some session => exact .sent htext hsession

/-- What a round of the loop of `enqueue` does with a health check. -/
inductive Answers (π : Protocol σ ρ ι) (config : ServerConfig ρ) (m : Machine σ ρ ι) (client : Frame)
    (rest : List ρ) (info : ι) (sends : DequeueSends) : Machine σ ρ ι → Prop where
  /-- The session is gone. -/
  | destroyed (hsession : m.server.sessions.find client = none) :
      Answers π config m client rest info sends { m with control := .undefined .destroyedSession }
  /-- The health check is answered, and the loop goes on. -/
  | returned {session : Session σ} {server : Server σ ι} {actions : List Action}
      (hsession : m.server.sessions.find client = some session)
      (hdequeue : (m.server.remember π client session info).dequeue π info config.healthCheckResponse
        sends = (.returned server, actions)) :
      Answers π config m client rest info sends
        { server
          control := .enqueueing client rest
          wire := m.wire ++ [.accepted (π.key info) client] ++ actions }
  /-- A send of `dequeue` throws, which ends the loop. -/
  | threw {session : Session σ} {server : Server σ ι} {actions : List Action}
      (hsession : m.server.sessions.find client = some session)
      (hdequeue : (m.server.remember π client session info).dequeue π info config.healthCheckResponse
        sends = (.threw server, actions)) :
      Answers π config m client rest info sends
        { server, control := .serving, wire := m.wire ++ [.accepted (π.key info) client] ++ actions }
  /-- `dequeue` finds no session to close. -/
  | undefined {session : Session σ} {actions : List Action}
      (hsession : m.server.sessions.find client = some session)
      (hdequeue : (m.server.remember π client session info).dequeue π info config.healthCheckResponse
        sends = (.undefined, actions)) :
      Answers π config m client rest info sends
        { server := m.server.remember π client session info
          control := .undefined .missingSession
          wire := m.wire ++ [.accepted (π.key info) client] ++ actions }

/-- The specification of the part of `enqueue` that answers a health check. -/
theorem answer_spec (π : Protocol σ ρ ι) (config : ServerConfig ρ) (m : Machine σ ρ ι) (client : Frame)
    (rest : List ρ) (info : ι) (sends : DequeueSends) :
    m.Answers π config client rest info sends (m.answer π config client rest info sends) := by
  unfold answer
  cases hsession : m.server.sessions.find client with
  | none => exact .destroyed hsession
  | some session =>
    simp only
    cases hdequeue : (m.server.remember π client session info).dequeue π info config.healthCheckResponse
        sends with
    | mk outcome actions =>
      cases outcome with
      | returned server => exact .returned hsession hdequeue
      | threw server => exact .threw hsession hdequeue
      | undefined => exact .undefined hsession hdequeue

/-- What a round of the loop of `enqueue` does. -/
inductive Enqueues (π : Protocol σ ρ ι) (config : ServerConfig ρ) (m : Machine σ ρ ι) (client : Frame)
    (parsed : ρ) (rest : List ρ) (now : ℕ) (sends : DequeueSends) : Machine σ ρ ι → Prop where
  /-- The matcher throws. -/
  | threw (hmatch : config.healthCheckMatcher parsed = none) :
      Enqueues π config m client parsed rest now sends
        { m with server := m.server.count, control := .serving }
  /-- The request is sent on. -/
  | forwards {t : Machine σ ρ ι} (hmatch : config.healthCheckMatcher parsed = some false)
      (hforwards : Forwards π { m with server := m.server.count } client parsed rest
        (π.toInfo parsed m.server.requestId now) t) :
      Enqueues π config m client parsed rest now sends t
  /-- The request is a health check. -/
  | answers {t : Machine σ ρ ι} (hmatch : config.healthCheckMatcher parsed = some true)
      (hanswers : Answers π config { m with server := m.server.count } client rest
        (π.toInfo parsed m.server.requestId now) sends t) :
      Enqueues π config m client parsed rest now sends t

/-- The specification of one round of `enqueue`. -/
theorem enqueue_spec (π : Protocol σ ρ ι) (config : ServerConfig ρ) (m : Machine σ ρ ι) (client : Frame)
    (parsed : ρ) (rest : List ρ) (now : ℕ) (infoSent textSent : SendResult) (sends : DequeueSends) :
    m.Enqueues π config client parsed rest now sends
      (m.enqueue π config client parsed rest now infoSent textSent sends) := by
  unfold enqueue
  cases hmatch : config.healthCheckMatcher parsed with
  | none => exact .threw hmatch
  | some healthCheck =>
    cases healthCheck with
    | false => exact .forwards hmatch (forward_spec π _ client parsed rest _ infoSent textSent)
    | true => exact .answers hmatch (answer_spec π config _ client rest _ sends)

/-- What the handling of a result does. -/
inductive Results (π : Protocol σ ρ ι) (m : Machine σ ρ ι) (info : ι) (response : Bytes)
    (sends : DequeueSends) : Machine σ ρ ι → Prop where
  /-- `dequeue` returns. -/
  | returned {server : Server σ ι} {actions : List Action}
      (hdequeue : m.server.dequeue π info response sends = (.returned server, actions)) :
      Results π m info response sends { m with server, wire := m.wire ++ actions }
  /-- `dequeue` throws, which `serve` catches. -/
  | threw {server : Server σ ι} {actions : List Action}
      (hdequeue : m.server.dequeue π info response sends = (.threw server, actions)) :
      Results π m info response sends { m with server, wire := m.wire ++ actions }
  /-- `dequeue` finds no session to close. -/
  | undefined {actions : List Action}
      (hdequeue : m.server.dequeue π info response sends = (.undefined, actions)) :
      Results π m info response sends
        { m with control := .undefined .missingSession, wire := m.wire ++ actions }

/-- The specification of what is done with a result. -/
theorem result_spec (π : Protocol σ ρ ι) (m : Machine σ ρ ι) (info : ι) (response : Bytes)
    (sends : DequeueSends) :
    m.Results π info response sends (m.result π info response sends) := by
  unfold result
  cases hdequeue : m.server.dequeue π info response sends with
  | mk outcome actions =>
    cases outcome with
    | returned server => exact .returned hdequeue
    | threw server => exact .threw hdequeue
    | undefined => exact .undefined hdequeue

/-- What a round of the loop of `handle_timeouts` does. -/
inductive Expires (π : Protocol σ ρ ι) (m : Machine σ ρ ι) (dropDead : ℤ) (sends : DequeueSends) :
    Machine σ ρ ι → Prop where
  /-- The history is empty. -/
  | finished (hhistory : m.server.requestHistory = []) :
      Expires π m dropDead sends { m with control := .serving }
  /-- The oldest request is not too old. -/
  | young {info : ι} {history : List ι} (hhistory : m.server.requestHistory = info :: history)
      (hyoung : ¬(dropDead > 0 ∧ (π.timeStamp info).toNat < dropDead)) :
      Expires π m dropDead sends { m with control := .serving }
  /-- The oldest request is answered, and the loop goes on. -/
  | returned {info : ι} {history : List ι} {server : Server σ ι} {actions : List Action}
      (hhistory : m.server.requestHistory = info :: history)
      (hold : dropDead > 0 ∧ (π.timeStamp info).toNat < dropDead)
      (hdequeue : m.server.dequeue π info (π.timeout info) sends = (.returned server, actions)) :
      Expires π m dropDead sends
        { m with
          server := { server with requestHistory := history }
          wire := m.wire ++ [.interrupt (π.key info)] ++ actions }
  /-- A send of `dequeue` throws, which nothing catches. -/
  | threw {info : ι} {history : List ι} {server : Server σ ι} {actions : List Action}
      (hhistory : m.server.requestHistory = info :: history)
      (hold : dropDead > 0 ∧ (π.timeStamp info).toNat < dropDead)
      (hdequeue : m.server.dequeue π info (π.timeout info) sends = (.threw server, actions)) :
      Expires π m dropDead sends
        { server, control := .escaped, wire := m.wire ++ [.interrupt (π.key info)] ++ actions }
  /-- `dequeue` finds no session to close. -/
  | undefined {info : ι} {history : List ι} {actions : List Action}
      (hhistory : m.server.requestHistory = info :: history)
      (hold : dropDead > 0 ∧ (π.timeStamp info).toNat < dropDead)
      (hdequeue : m.server.dequeue π info (π.timeout info) sends = (.undefined, actions)) :
      Expires π m dropDead sends
        { m with
          control := .undefined .missingSession
          wire := m.wire ++ [.interrupt (π.key info)] ++ actions }

/-- The specification of one round of `handle_timeouts`. -/
theorem expire_spec (π : Protocol σ ρ ι) (m : Machine σ ρ ι) (dropDead : ℤ) (sends : DequeueSends) :
    m.Expires π dropDead sends (m.expire π dropDead sends) := by
  unfold expire
  cases hhistory : m.server.requestHistory with
  | nil => exact .finished hhistory
  | cons info history =>
    by_cases hold : dropDead > 0 ∧ (π.timeStamp info).toNat < dropDead
    · simp only [if_pos hold]
      cases hdequeue : m.server.dequeue π info (π.timeout info) sends with
      | mk outcome actions =>
        cases outcome with
        | returned server => exact .returned hhistory hold hdequeue
        | threw server => exact .threw hhistory hold hdequeue
        | undefined => exact .undefined hhistory hold hdequeue
    · simp only [if_neg hold]
      exact .young hhistory hold

/-- What the end of `handle_request` does when `enqueue` returned false. -/
inductive Rejects (m : Machine σ ρ ι) (client : Frame) (close : SendResult) : Machine σ ρ ι → Prop where
  /-- The session is gone. -/
  | undefined (hsession : m.server.sessions.find client = none) :
      Rejects m client close { m with control := .undefined .destroyedSession }
  /-- The closing frame was sent: the session goes, and its keys are published. -/
  | closed {session : Session σ} (hsession : m.server.sessions.find client = some session)
      (hclose : close = .accepted) :
      Rejects m client close
        { server := m.server.destroy client
          control := .serving
          wire := m.wire ++ [.closed client close] ++ session.enqueued.map .interrupt }
  /-- The closing frame was not sent, and the session stays. -/
  | kept {session : Session σ} (hsession : m.server.sessions.find client = some session)
      (hclose : close ≠ .accepted) :
      Rejects m client close { m with control := .serving, wire := m.wire ++ [.closed client close] }

/-- The specification of closing a connection after a rejection. -/
theorem disconnect_spec (m : Machine σ ρ ι) (client : Frame) (close : SendResult) :
    m.Rejects client close (m.disconnect client close) := by
  unfold disconnect
  cases hsession : m.server.sessions.find client with
  | none => exact .undefined hsession
  | some session =>
    by_cases hclose : close = .accepted
    · simp only [if_pos hclose]
      exact .closed hsession hclose
    · simp only [if_neg hclose]
      exact .kept hsession hclose

end Machine

end PrimeServer
