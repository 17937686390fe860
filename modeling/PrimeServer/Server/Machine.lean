import PrimeServer.Cpp.UnorderedMap
import PrimeServer.Library.Transition
import PrimeServer.Zmq.Socket

/-!
# The server

`server_t`: the sessions of its clients, the requests that are being worked on, and what the loop of
`serve` does with results, client messages and time. The class is a template over the protocol; here
the protocol is a parameter.

The loops of `enqueue` and `handle_timeouts` take one step for each round, so that what holds between
rounds can be stated. The results of the calls of `send` on the client and proxy sockets are inputs.
A pair of calls for an identity frame and the frame after it has one result: the second call is only
made when the first returns true, and all that the program asks is whether both did.

Two uses of an iterator or reference may lead nowhere: see `UndefinedUse`. The machine stops there.

`Machine.stepped_of_step` says all that a step can do.
-/

namespace PrimeServer

open Transition

/-- What `from_stream` of a `request_container_t` does. -/
inductive Parsed (σ ρ : Type) where
  /-- It returns requests. -/
  | requests (requests : List ρ) (request : σ)
  /-- It throws a `request_exception_t`, with a response for the client. -/
  | rejected (response : Frame) (request : σ)
  /-- It throws another exception. -/
  | threw (request : σ)
  deriving DecidableEq

/-- A protocol: `request_container_t` while it parses (`σ`) and as a parsed request (`ρ`), and
`request_info_t` (`ι`). -/
structure Protocol (σ ρ ι : Type) where
  /-- The parser of a session that has just been opened. -/
  fresh : σ
  /-- `from_stream`, called with the limit and a message. -/
  fromStream : σ → ℕ → Bytes → Parsed σ ρ
  /-- `to_info`, with the time in seconds at which it is called. -/
  toInfo : ρ → UInt32 → ℕ → ι
  /-- `to_string`, which may throw. -/
  toString : ρ → Option Bytes
  /-- The conversion to `uint64_t`. -/
  key : ι → UInt64
  /-- The seconds at which the request arrived. -/
  timeStamp : ι → UInt32
  /-- Whether the session stays open after the response. -/
  keepAlive : ι → Bool
  /-- The response for a request that timed out. -/
  timeout : ι → Bytes

/-- The parameters of `server_t`. -/
structure ServerConfig (ρ : Type) where
  /-- The limit that `from_stream` is called with. -/
  maxRequestSize : ℕ
  /-- How many seconds a request may take. -/
  requestTimeout : UInt32
  /-- `health_check_matcher`, which never matches when it is empty, and may throw. -/
  healthCheckMatcher : ρ → Option Bool
  /-- What a health check is answered with. -/
  healthCheckResponse : Bytes

/-- An entry of `sessions`: the streaming parser and the keys of the requests that came from it. -/
structure Session (σ : Type) where
  /-- The streaming parser. -/
  request : σ
  /-- The keys of the requests that came from it. -/
  enqueued : List UInt64

/-- The state of `server_t`. -/
structure Server (σ ι : Type) where
  /-- The number of the next request. -/
  requestId : UInt32
  /-- The connections that are open. -/
  sessions : UnorderedMap Frame (Session σ)
  /-- The clients of the requests in progress. -/
  requests : UnorderedMap UInt64 Frame
  /-- The infos of requests in the order in which they were enqueued. -/
  requestHistory : List ι

/-- What the server does that can be seen from outside, and the events of its sessions. -/
inductive Action where
  /-- A session is made for a connection. -/
  | opened (client : Frame)
  /-- The disconnect of a client with a session is handled. -/
  | hungUp (client : Frame)
  /-- A request is remembered as being worked on. -/
  | accepted (key : UInt64) (client : Frame)
  /-- A response to a request is sent. -/
  | response (key : UInt64) (client : Frame) (response : Bytes) (result : SendResult)
  /-- A rejection is sent. -/
  | rejection (client : Frame) (response : Bytes) (result : SendResult)
  /-- An empty frame is sent, which makes libzmq close the connection. -/
  | closed (client : Frame) (result : SendResult)
  /-- A key is published on the interrupt socket. -/
  | interrupt (key : UInt64)
  /-- The info and the text of a request are sent to the proxy. -/
  | forwarded (key : UInt64) (text : Bytes)
  deriving DecidableEq

/-- Uses of an iterator or a reference that lead nowhere. -/
inductive UndefinedUse where
  /-- `enqueue` or `handle_request` uses the session that its arguments point into, and it is gone. -/
  | destroyedSession
  /-- `dequeue` dereferences the end of `sessions`. -/
  | missingSession
  deriving DecidableEq

/-- Where the server is between steps. -/
inductive ServerControl (ρ : Type) where
  /-- In `serve`, with nothing under way. -/
  | serving
  /-- In the loop of `enqueue` for a client, with the parsed requests that are left. -/
  | enqueueing (client : Frame) (rest : List ρ)
  /-- In `handle_request`, after `enqueue` returned false. -/
  | rejecting (client : Frame)
  /-- In the loop of `handle_timeouts`. -/
  | expiring (dropDead : ℤ)
  /-- An exception has left `serve`. -/
  | escaped
  /-- The behaviour of the program has become undefined. -/
  | undefined (use : UndefinedUse)
  deriving DecidableEq

/-- The server with all that it has done. -/
structure Machine (σ ρ ι : Type) where
  /-- The members of `server_t`. -/
  server : Server σ ι
  /-- Where in `serve` it is. -/
  control : ServerControl ρ
  /-- What it has sent and recorded, in order. -/
  wire : List Action

/-- The results of the calls of `send` that `dequeue` makes on the client socket. -/
structure DequeueSends where
  /-- For the frame with the response. -/
  response : SendResult
  /-- For the empty frame that closes the connection. -/
  close : SendResult
  deriving DecidableEq

/-- What can happen to the server. -/
inductive ServerInput (ι : Type) where
  /-- A result arrives from a worker. -/
  | result (info : ι) (response : Bytes) (sends : DequeueSends)
  /-- A client message arrives, with what becomes of a rejection that it may lead to. -/
  | message (client : Frame) (body : Bytes) (rejection : SendResult)
  /-- The loop of `enqueue` takes its next round. -/
  | next (now : ℕ) (info text : SendResult) (sends : DequeueSends)
  /-- `handle_request` disconnects the client of a rejected request. -/
  | disconnect (close : SendResult)
  /-- `handle_timeouts` is called. -/
  | timeouts (now : ℕ)
  /-- The loop of `handle_timeouts` takes its next round. -/
  | expire (sends : DequeueSends)

/-- How `dequeue` ends. -/
inductive Dequeued (σ ι : Type) where
  /-- It returns, with the server changed to this. -/
  | returned (server : Server σ ι)
  /-- It throws, with the server changed to this. -/
  | threw (server : Server σ ι)
  /-- It dereferences the end of `sessions`. -/
  | undefined

section Operations

variable {σ ρ ι : Type} (π : Protocol σ ρ ι) (config : ServerConfig ρ)

/-- A server that nobody has connected to. -/
def Server.start : Server σ ι where
  requestId := 0
  sessions := .empty
  requests := .empty
  requestHistory := []

/-- Before the first turn of `serve`. -/
def Machine.start : Machine σ ρ ι where
  server := .start
  control := .serving
  wire := []

/-- `++request_id`. -/
def Server.count (s : Server σ ι) : Server σ ι := { s with requestId := s.requestId + 1 }

/-- Take a request off the books. -/
def Server.forget (s : Server σ ι) (key : UInt64) : Server σ ι :=
  { s with requests := s.requests.erase key }

/-- Destroy a session. -/
def Server.destroy (s : Server σ ι) (client : Frame) : Server σ ι :=
  { s with sessions := s.sessions.erase client }

/-- `server_t::dequeue`, and what it does that can be seen. -/
def Server.dequeue (s : Server σ ι) (info : ι) (response : Bytes) (sends : DequeueSends) :
    Dequeued σ ι × List Action :=
  -- find the request
  match s.requests.find (π.key info) with
  | none => (.returned s, [])
  | some client =>
    -- reply to the client with the response or an error
    let reply := Action.response (π.key info) client response sends.response
    if sends.response = .threw then (.threw s, [reply])
    -- cleanup and if its not keep alive close the session
    else if π.keepAlive info then (.returned (s.forget (π.key info)), [reply])
    else
      let close := Action.closed client sends.close
      match sends.close with
      | .threw => (.threw s, [reply, close])
      | .again => (.returned (s.forget (π.key info)), [reply, close])
      | .accepted =>
        match s.sessions.find client with
        | none => (.undefined, [reply, close])
        | some session =>
          (.returned ((s.destroy client).forget (π.key info)),
            [reply, close] ++ session.enqueued.map .interrupt)

/-- Remember that a request is being worked on. -/
def Server.remember (s : Server σ ι) (client : Frame) (session : Session σ) (info : ι) :
    Server σ ι :=
  { s with
    sessions :=
      s.sessions.assign client { session with enqueued := session.enqueued ++ [π.key info] }
    requests := s.requests.emplace (π.key info) client
    requestHistory := s.requestHistory ++ [info] }

/-- A round of the loop of `enqueue` in which `parsed` is sent on. -/
def Machine.forward (m : Machine σ ρ ι) (client : Frame) (parsed : ρ) (rest : List ρ) (info : ι)
    (infoSent textSent : SendResult) : Machine σ ρ ι :=
  match infoSent with
  | .threw => { m with control := .serving }
  | .again => { m with control := .rejecting client }
  | .accepted =>
    match π.toString parsed with
    | none => { m with control := .serving }
    | some text =>
      match textSent with
      | .threw => { m with control := .serving }
      | .again => { m with control := .rejecting client }
      | .accepted =>
        let wire := m.wire ++ [.forwarded (π.key info) text]
        match m.server.sessions.find client with
        | none => { m with control := .undefined .destroyedSession, wire }
        | some session =>
          { server := m.server.remember π client session info
            control := .enqueueing client rest
            wire := wire ++ [.accepted (π.key info) client] }

/-- A round of the loop of `enqueue` in which a health check is answered. -/
def Machine.answer (m : Machine σ ρ ι) (client : Frame) (rest : List ρ) (info : ι)
    (sends : DequeueSends) : Machine σ ρ ι :=
  match m.server.sessions.find client with
  | none => { m with control := .undefined .destroyedSession }
  | some session =>
    let server := m.server.remember π client session info
    let wire := m.wire ++ [.accepted (π.key info) client]
    match server.dequeue π info config.healthCheckResponse sends with
    | (.returned server, actions) =>
      { server, control := .enqueueing client rest, wire := wire ++ actions }
    | (.threw server, actions) => { server, control := .serving, wire := wire ++ actions }
    | (.undefined, actions) =>
      { server, control := .undefined .missingSession, wire := wire ++ actions }

/-- A round of the loop of `enqueue`. -/
def Machine.enqueue (m : Machine σ ρ ι) (client : Frame) (parsed : ρ) (rest : List ρ) (now : ℕ)
    (infoSent textSent : SendResult) (sends : DequeueSends) : Machine σ ρ ι :=
  let info := π.toInfo parsed m.server.requestId now
  let m := { m with server := m.server.count }
  match config.healthCheckMatcher parsed with
  | none => { m with control := .serving }
  | some true => m.answer π config client rest info sends
  | some false => m.forward π client parsed rest info infoSent textSent

/-- `server_t::handle_request` up to the loop of `enqueue`. -/
def Machine.handleRequest (m : Machine σ ρ ι) (client : Frame) (body : Bytes)
    (rejection : SendResult) : Machine σ ρ ι :=
  match m.server.sessions.find client with
  | none =>
    if body = [] then
      -- connecting makes space for a streaming request
      { m with
        server :=
          { m.server with
            sessions := m.server.sessions.emplace client { request := π.fresh, enqueued := [] } }
        wire := m.wire ++ [.opened client] }
    -- unknown client
    else m
  | some session =>
    if body = [] then
      -- disconnecting interrupts all of the outstanding requests
      { m with
        server := (session.enqueued.foldl Server.forget m.server).destroy client
        wire := m.wire ++ (session.enqueued.map .interrupt ++ [.hungUp client]) }
    else
      match π.fromStream session.request config.maxRequestSize body with
      | .requests parsed request =>
        { m with
          server :=
            { m.server with sessions := m.server.sessions.assign client { session with request } }
          control := .enqueueing client parsed }
      -- something went wrong, either in parsing or size limitation
      | .rejected response request =>
        let server :=
          { m.server with sessions := m.server.sessions.assign client { session with request } }
        let wire := m.wire ++ [.rejection client response rejection]
        if rejection = .threw then { server, control := .serving, wire }
        else
          { server := server.count
            control := .rejecting client
            wire }
      | .threw request =>
        { m with
          server :=
            { m.server with sessions := m.server.sessions.assign client { session with request } } }

/-- The end of `server_t::handle_request` when `enqueue` returned false. -/
def Machine.disconnect (m : Machine σ ρ ι) (client : Frame) (close : SendResult) : Machine σ ρ ι :=
  match m.server.sessions.find client with
  | none => { m with control := .undefined .destroyedSession }
  | some session =>
    let wire := m.wire ++ [.closed client close]
    if close = .accepted then
      { server := m.server.destroy client
        control := .serving
        wire := wire ++ session.enqueued.map .interrupt }
    else { m with control := .serving, wire }

/-- The limit below which `handle_timeouts` drops requests. -/
def dropDead (now : ℕ) : ℤ := now - config.requestTimeout.toNat

/-- A round of the loop of `handle_timeouts`. -/
def Machine.expire (m : Machine σ ρ ι) (dropDead : ℤ) (sends : DequeueSends) : Machine σ ρ ι :=
  match m.server.requestHistory with
  | [] => { m with control := .serving }
  | info :: history =>
    if dropDead > 0 ∧ (π.timeStamp info).toNat < dropDead then
      let wire := m.wire ++ [.interrupt (π.key info)]
      match m.server.dequeue π info (π.timeout info) sends with
      | (.returned server, actions) =>
        { m with server := { server with requestHistory := history }, wire := wire ++ actions }
      -- nothing catches an exception here
      | (.threw server, actions) => { server, control := .escaped, wire := wire ++ actions }
      | (.undefined, actions) =>
        { m with control := .undefined .missingSession, wire := wire ++ actions }
    else { m with control := .serving }

/-- A result from a worker is handled. -/
def Machine.result (m : Machine σ ρ ι) (info : ι) (response : Bytes) (sends : DequeueSends) :
    Machine σ ρ ι :=
  match m.server.dequeue π info response sends with
  | (.returned server, actions) | (.threw server, actions) =>
    { m with server, wire := m.wire ++ actions }
  | (.undefined, actions) =>
    { m with control := .undefined .missingSession, wire := m.wire ++ actions }

/-- One step. Between the calls that it makes, `serve` may take results, client messages and timeouts in
any order. -/
def Machine.step (m : Machine σ ρ ι) : ServerInput ι → Option (Machine σ ρ ι)
  | .result info response sends =>
    match m.control with
    | .serving => some (m.result π info response sends)
    | _ => none
  | .message client body rejection =>
    match m.control with
    | .serving => some (m.handleRequest π config client body rejection)
    | _ => none
  | .next now info text sends =>
    match m.control with
    | .enqueueing client (parsed :: rest) =>
      some (m.enqueue π config client parsed rest now info text sends)
    | .enqueueing _ [] => some { m with control := .serving }
    | _ => none
  | .disconnect close =>
    match m.control with
    | .rejecting client => some (m.disconnect client close)
    | _ => none
  | .timeouts now =>
    match m.control with
    | .serving => some { m with control := .expiring (dropDead config now) }
    | _ => none
  | .expire sends =>
    match m.control with
    | .expiring dropDead => some (m.expire π dropDead sends)
    | _ => none

/-- All that a step can do, and where the server has to be for it. -/
inductive Machine.Stepped (m : Machine σ ρ ι) : ServerInput ι → Machine σ ρ ι → Prop where
  /-- A result is received. -/
  | result (info : ι) (response : Bytes) (sends : DequeueSends) (hcontrol : m.control = .serving) :
      Stepped m (.result info response sends) (m.result π info response sends)
  /-- A message of a client is received. -/
  | message (client : Frame) (body : Bytes) (rejection : SendResult) (hcontrol : m.control = .serving) :
      Stepped m (.message client body rejection) (m.handleRequest π config client body rejection)
  /-- The loop of `enqueue` takes the next request. -/
  | enqueue {client : Frame} {parsed : ρ} {rest : List ρ} (now : ℕ) (info text : SendResult)
      (sends : DequeueSends) (hcontrol : m.control = .enqueueing client (parsed :: rest)) :
      Stepped m (.next now info text sends)
        (m.enqueue π config client parsed rest now info text sends)
  /-- The loop of `enqueue` has come to its end. -/
  | enqueued {client : Frame} (now : ℕ) (info text : SendResult) (sends : DequeueSends)
      (hcontrol : m.control = .enqueueing client []) :
      Stepped m (.next now info text sends) { m with control := .serving }
  /-- The connection is closed after a rejection. -/
  | disconnect {client : Frame} (close : SendResult) (hcontrol : m.control = .rejecting client) :
      Stepped m (.disconnect close) (m.disconnect client close)
  /-- `handle_timeouts` is called. -/
  | timeouts (now : ℕ) (hcontrol : m.control = .serving) :
      Stepped m (.timeouts now) { m with control := .expiring (dropDead config now) }
  /-- The loop of `handle_timeouts` takes its next turn. -/
  | expire {dropDead : ℤ} (sends : DequeueSends) (hcontrol : m.control = .expiring dropDead) :
      Stepped m (.expire sends) (m.expire π dropDead sends)

variable {π config}

/-- What a step can be, one case for each input that the server takes. -/
theorem Machine.stepped_of_step {m t : Machine σ ρ ι} {input : ServerInput ι}
    (h : m.step π config input = some t) : m.Stepped π config input t := by
  -- each input is taken in one place of the loop only, `next` in two
  cases input with
  | result info response sends =>
    simp only [step] at h
    split at h
    case h_1 hcontrol =>
      obtain rfl := Option.some.inj h
      exact .result info response sends hcontrol
    case h_2 => cases h
  | message client body rejection =>
    simp only [step] at h
    split at h
    case h_1 hcontrol =>
      obtain rfl := Option.some.inj h
      exact .message client body rejection hcontrol
    case h_2 => cases h
  | next now info text sends =>
    simp only [step] at h
    split at h
    case h_1 hcontrol =>
      obtain rfl := Option.some.inj h
      exact .enqueue now info text sends hcontrol
    case h_2 hcontrol =>
      obtain rfl := Option.some.inj h
      exact .enqueued now info text sends hcontrol
    case h_3 => cases h
  | disconnect close =>
    simp only [step] at h
    split at h
    case h_1 hcontrol =>
      obtain rfl := Option.some.inj h
      exact .disconnect close hcontrol
    case h_2 => cases h
  | timeouts now =>
    simp only [step] at h
    split at h
    case h_1 hcontrol =>
      obtain rfl := Option.some.inj h
      exact .timeouts now hcontrol
    case h_2 => cases h
  | expire sends =>
    simp only [step] at h
    split at h
    case h_1 hcontrol =>
      obtain rfl := Option.some.inj h
      exact .expire sends hcontrol
    case h_2 => cases h

end Operations

end PrimeServer
