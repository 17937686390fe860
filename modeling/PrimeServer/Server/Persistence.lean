import PrimeServer.Http.Emitted
import PrimeServer.Server.Interrupts

/-!
# Persistent connections

The server closes a connection after a response if the request asks for that, by its version and by its
`Connection` header. `to_info` compares the value of the header with two spellings, and the bits that it sets
are all that workers and `dequeue` learn of the header.

## Main results

* `HttpRequest.closesAsAsked_iff`: when the server decides as the request asks;
* `HttpRequest.persists_iff`: when the response also carries the matching header;
* `Machine.closes_of_run`: all answers in a run are for requests that were handed out.
-/

namespace PrimeServer

open Transition

namespace HttpRequest

/-- The `Connection` header of the request has this value, whatever the case of its name and its value. -/
def Asks (r : HttpRequest) (option : Bytes) : Prop :=
  ∃ header ∈ r.headers.entries,
    caseless header.1 = caseless (ascii "Connection") ∧ caseless header.2 = caseless option

/-- Whether a request asks for an option is decidable. -/
instance (r : HttpRequest) (option : Bytes) : Decidable (r.Asks option) :=
  inferInstanceAs (Decidable (∃ header ∈ r.headers.entries, _))

/-- The connection is to be closed after the response. -/
def ToClose (r : HttpRequest) : Prop :=
  r.version = ascii "HTTP/1.0" ∧ ¬ r.Asks (ascii "keep-alive") ∨
    r.version = ascii "HTTP/1.1" ∧ r.Asks (ascii "close")

/-- The value of the `Connection` header that matches the one of the request, in lower case. -/
def matching (r : HttpRequest) : Option Bytes :=
  if r.Asks (ascii "keep-alive") then some (ascii "keep-alive")
  else if r.Asks (ascii "close") then some (ascii "close")
  else none

/-- The value is spelled in this way if it is this one at all. -/
def Spells (r : HttpRequest) (option : Bytes) : Prop :=
  r.Asks option → r.headers.find (ascii "Connection") = some option

/-- The info is one that the server makes for the request. -/
def IsInfo (r : HttpRequest) (info : HttpRequestInfo) : Prop :=
  ∃ id now, info = r.toInfo id now

end HttpRequest

/-- A call of `dequeue` answers a request of a client that has a session. -/
structure Call.Answers {σ ρ ι : Type} (π : Protocol σ ρ ι) (call : Call σ ι) (client : Frame) : Prop where
  /-- The client has sent the request that is answered. -/
  request : call.server.requests.find (π.key call.info) = some client
  /-- It has a session. -/
  session : call.server.sessions.find client ≠ none
  /-- The response was sent, or the socket was full. -/
  response : call.sends.response ≠ .threw

namespace HttpRequest

variable {curl : Curl} {r : HttpRequest} {response : HttpResponse} {option : Bytes}

/-- Whenever the server answers the request, it closes the connection exactly if it is to be closed. -/
def ClosesAsAsked (curl : Curl) (r : HttpRequest) : Prop :=
  ∀ (config : ServerConfig HttpRequest) (m t : Machine RequestParser HttpRequest HttpRequestInfo)
    (input : ServerInput HttpRequestInfo) (call : Call RequestParser HttpRequestInfo) (client : Frame),
    m.step (httpProtocol curl) config input = some t →
    m.call (httpProtocol curl) config input = some call → r.IsInfo call.info →
    call.Answers (httpProtocol curl) client →
      ∃ actions, t.wire = m.wire ++ actions ∧
        (.closed client call.sends.close ∈ actions ↔ r.ToClose) ∧
        (t.server.sessions.find client = none ↔ r.ToClose ∧ call.sends.close = .accepted)

/-- The connection persists as the request asks, and the response carries the matching header. -/
structure Persists (curl : Curl) (r : HttpRequest) (response : HttpResponse) : Prop where
  /-- The server closes the session exactly if the request asks for it. -/
  closes : r.ClosesAsAsked curl
  /-- With every info that the server makes for the request the header is the matching one. -/
  carries : ∀ info : WorkerInfo, r.IsInfo info.toHttpRequestInfo →
    ((response.fromInfo info).1.headers.find (ascii "Connection")).map caseless = r.matching ∧
      r.IsInfo (response.fromInfo info).2.toHttpRequestInfo

/-- The value of the `Connection` header is spelled as `to_info` has it where the decision rests on it. -/
structure SpellsDecision (r : HttpRequest) : Prop where
  /-- For HTTP/1.0 a connection is kept only on request. -/
  keepAlive : r.version = ascii "HTTP/1.0" → r.Spells (ascii "Keep-Alive")
  /-- For HTTP/1.1 a connection is closed only on request. -/
  close : r.version = ascii "HTTP/1.1" → r.Spells (ascii "Close")

/-- The value of the `Connection` header is spelled as `to_info` has it, and the response has no such header
yet; or the decision does not rest on the value, and the response has the matching header. -/
structure Understood (r : HttpRequest) (response : HttpResponse) : Prop where
  /-- The server decides as the request asks. -/
  decision : r.SpellsDecision
  /-- The header is there already, or `from_info` adds the right one. -/
  header : (response.headers.find (ascii "Connection")).map caseless = r.matching ∨
    response.headers.find (ascii "Connection") = none ∧
      r.Spells (ascii "Keep-Alive") ∧ r.Spells (ascii "Close")

/-! ### The bits of the info -/

/-- The header map finds the value, however its name is written. -/
theorem asks_iff : r.Asks option ↔
    ∃ value, r.headers.find (ascii "Connection") = some value ∧ caseless value = caseless option := by
  constructor
  · rintro ⟨⟨name, value⟩, hmem, hname, hvalue⟩
    exact ⟨value, AssocMap.find_of_mem hmem hname, hvalue⟩
  · rintro ⟨value, hfind, hvalue⟩
    obtain ⟨name, hname, hmem⟩ := AssocMap.mem_entries_of_find hfind
    exact ⟨(name, value), hmem, hname, hvalue⟩

/-- A header whose value is the option asks for it. -/
theorem asks_of_find (h : r.headers.find (ascii "Connection") = some option) : r.Asks option :=
  asks_iff.mpr ⟨option, h, rfl⟩

/-- The case of the option does not matter. -/
theorem asks_congr {option' : Bytes} (h : caseless option = caseless option') :
    r.Asks option ↔ r.Asks option' := by
  rw [asks_iff, asks_iff, h]

/-- Options are compared without case. -/
theorem asks_keepAlive : r.Asks (ascii "keep-alive") ↔ r.Asks (ascii "Keep-Alive") :=
  asks_congr (by decide)

/-- Options are compared without case. -/
theorem asks_close : r.Asks (ascii "close") ↔ r.Asks (ascii "Close") :=
  asks_congr (by decide)

/-- There is one value. -/
theorem not_asks_close_of_asks_keepAlive (h : r.Asks (ascii "keep-alive")) : ¬ r.Asks (ascii "close") := by
  intro hclose
  obtain ⟨value, hfind, hvalue⟩ := asks_iff.mp h
  obtain ⟨value', hfind', hvalue'⟩ := asks_iff.mp hclose
  obtain rfl : value = value' := Option.some.inj (hfind.symm.trans hfind')
  exact absurd (hvalue.symm.trans hvalue') (by decide)

/-- Where the option is spelled as the library has it the header lookup decides. -/
theorem Spells.find_iff (h : r.Spells option) :
    r.headers.find (ascii "Connection") = some option ↔ r.Asks option :=
  ⟨asks_of_find, h⟩

/-- What the bits of the info come to. -/
theorem keepAlive_toInfo (hversion : r.version ∈ supportedVersions) (id : UInt32) (now : ℕ) :
    (r.toInfo id now).keepAlive = false ↔
      r.version = ascii "HTTP/1.0" ∧
          r.headers.find (ascii "Connection") ≠ some (ascii "Keep-Alive") ∨
        r.version = ascii "HTTP/1.1" ∧ r.headers.find (ascii "Connection") = some (ascii "Close") := by
  have hdistinct : ascii "HTTP/1.1" ≠ ascii "HTTP/1.0" := by decide
  have hversions : r.version = ascii "HTTP/1.0" ∨ r.version = ascii "HTTP/1.1" := by
    simpa [supportedVersions] using hversion
  rcases hversions with hold | hnew
  · simp [HttpRequestInfo.keepAlive, toInfo, hold, hdistinct.symm]
  · simp [HttpRequestInfo.keepAlive, toInfo, hnew, hdistinct]

/-- The bits say whether the connection is to be closed, if the value is spelled as it has to be. -/
theorem keepAlive_toInfo_iff (hversion : r.version ∈ supportedVersions) (id : UInt32) (now : ℕ) :
    ((r.toInfo id now).keepAlive = false ↔ r.ToClose) ↔ r.SpellsDecision := by
  have hdistinct : ascii "HTTP/1.1" ≠ ascii "HTTP/1.0" := by decide
  have hversions : r.version = ascii "HTTP/1.0" ∨ r.version = ascii "HTTP/1.1" := by
    simpa [supportedVersions] using hversion
  rw [keepAlive_toInfo hversion, ToClose, asks_keepAlive, asks_close]
  constructor
  · intro hdecision
    refine ⟨fun hold hasks => ?_, fun hnew hasks => ?_⟩
    · -- without the bit an old connection would be closed, although it asks to be kept
      by_contra hspelled
      have hclosed := hdecision.mp (Or.inl ⟨hold, hspelled⟩)
      rcases hclosed with ⟨-, hnot⟩ | ⟨hnew, -⟩
      · exact hnot hasks
      · exact hdistinct (hnew.symm.trans hold)
    · have hcloses := hdecision.mpr (Or.inr ⟨hnew, hasks⟩)
      rcases hcloses with ⟨hold, -⟩ | ⟨-, hspelled⟩
      · exact absurd (hnew.symm.trans hold) hdistinct
      · exact hspelled
  · intro hspells
    rcases hversions with hold | hnew
    · simp [hold, hdistinct.symm, (hspells.keepAlive hold).find_iff]
    · simp [hnew, hdistinct, (hspells.close hnew).find_iff]

end HttpRequest

/-! ### Closing a connection -/

section Closing

variable {σ ρ ι : Type} {π : Protocol σ ρ ι} {config : ServerConfig ρ}

/-- `dequeue` closes the connection of a client with a session exactly if the info is not to keep it. -/
theorem Server.Dequeues.mem_closed_iff {s : Server σ ι} {info : ι} {response : Bytes} {sends : DequeueSends}
    {outcome : Dequeued σ ι} {actions : List Action} {client : Frame}
    (h : s.Dequeues π info response sends (outcome, actions))
    (hfind : s.requests.find (π.key info) = some client) (hsession : s.sessions.find client ≠ none)
    (hresponse : sends.response ≠ .threw) :
    (.closed client sends.close ∈ actions ↔ π.keepAlive info = false) ∧
      ((outcome.server s).sessions.find client = none ↔
        π.keepAlive info = false ∧ sends.close = .accepted) := by
  cases h with
  | unknown hunknown => simp [hunknown] at hfind
  | responseThrew _ hthrew => exact absurd hthrew hresponse
  | kept _ _ hkeep => simp [Dequeued.server, hkeep, hsession]
  | closeThrew hfound _ hkeep hclose | notClosed hfound _ hkeep hclose =>
    obtain rfl := Option.some.inj (hfound.symm.trans hfind)
    simp [Dequeued.server, hkeep, hclose, hsession]
  | closed hcloses =>
    obtain rfl := Option.some.inj (hcloses.1.symm.trans hfind)
    simp [Dequeued.server, hcloses.2.2.1, hcloses.2.2.2]
  | undefined hcloses hnone =>
    obtain rfl := Option.some.inj (hcloses.1.symm.trans hfind)
    exact absurd hnone hsession

/-- What a step does with its call of `dequeue`: nothing else that it does closes a connection. -/
theorem Machine.dequeues_of_call {m t : Machine σ ρ ι} {input : ServerInput ι} {call : Call σ ι}
    (hstep : m.step π config input = some t) (hcall : m.call π config input = some call) :
    ∃ outcome before actions, (∀ client result, .closed client result ∉ before) ∧
      t.wire = m.wire ++ before ++ actions ∧
      t.server.sessions = (outcome.server call.server).sessions ∧
      call.server.Dequeues π call.info call.response call.sends (outcome, actions) := by
  cases calls_of_call hcall with
  | result info response sends =>
    cases stepped_of_step hstep with
    | result =>
      have hspec := m.result_spec π info response sends
      generalize m.result π info response sends = t at hspec ⊢
      cases hspec with
      | returned hd | threw hd | undefined hd =>
        exact ⟨_, [], _, by simp, by simp, rfl, Server.dequeues_of_eq hd⟩
  | @answer client parsed rest session now infoSent textSent sends hcontrol hmatch hsession =>
    cases stepped_of_step hstep with
    | enqueued _ _ _ _ hdone => simp [hcontrol] at hdone
    | enqueue _ _ _ _ hnext =>
      obtain ⟨rfl, rfl, rfl⟩ : client = _ ∧ parsed = _ ∧ rest = _ := by
        simpa [hcontrol] using hnext
      have hspec := m.enqueue_spec π config client parsed rest now infoSent textSent sends
      generalize m.enqueue π config client parsed rest now infoSent textSent sends = t at hspec ⊢
      cases hspec with
      -- the loop answers by itself
      | threw hno | forwards hno => simp [hmatch] at hno
      | answers _ hanswers =>
        cases hanswers with
        | destroyed hnone => cases hsession.symm.trans hnone
        | returned hfound hd | threw hfound hd | undefined hfound hd =>
          obtain rfl := Option.some.inj (hsession.symm.trans hfound)
          exact ⟨_, [.accepted _ client], _, by simp, rfl, rfl, Server.dequeues_of_eq hd⟩
  | @expire dropDead info history sends hcontrol hhistory hold =>
    cases stepped_of_step hstep with
    | expire _ hexpiring =>
      obtain rfl : dropDead = _ := by simpa [hcontrol] using hexpiring
      have hspec := m.expire_spec π dropDead sends
      generalize m.expire π dropDead sends = t at hspec ⊢
      cases hspec with
      -- there is a request at the front, and it is old
      | finished hnil => cases hhistory.symm.trans hnil
      | young hfront hyoung =>
        obtain ⟨rfl, rfl⟩ := List.cons.inj (hhistory.symm.trans hfront)
        exact absurd hold hyoung
      | returned hfront _ hd | threw hfront _ hd | undefined hfront _ hd =>
        obtain ⟨rfl, rfl⟩ := List.cons.inj (hhistory.symm.trans hfront)
        exact ⟨_, [.interrupt (π.key info)], _, by simp, rfl, rfl, Server.dequeues_of_eq hd⟩

end Closing

/-- A server that works on one request. -/
def Machine.working (info : HttpRequestInfo) : Machine RequestParser HttpRequest HttpRequestInfo where
  server :=
    { requestId := 1
      sessions := UnorderedMap.empty.assign [1] { request := .fresh, enqueued := [info.key] }
      requests := UnorderedMap.empty.assign info.key [1]
      requestHistory := [info] }
  control := .serving
  wire := []

namespace HttpRequest

variable {curl : Curl} {r : HttpRequest} {response : HttpResponse}

/-- The server closes connections as a request asks if and only if the request spells the value of its
`Connection` header in the one way, where the decision rests on it. -/
theorem closesAsAsked_iff (hversion : r.version ∈ supportedVersions) :
    r.ClosesAsAsked curl ↔ r.SpellsDecision := by
  constructor
  · intro hcloses
    -- a server that works on nothing but this request, and a worker that answers it
    let info := r.toInfo 0 0
    let sends : DequeueSends := ⟨.accepted, .accepted⟩
    let call : Call RequestParser HttpRequestInfo :=
      { server := (Machine.working info).server, info, response := [], sends }
    have hanswers : call.Answers (httpProtocol curl) [1] :=
      ⟨UnorderedMap.find_assign_self _ _ _, by simp [call, Machine.working], by simp [call, sends]⟩
    have hcall : (Machine.working info).call (httpProtocol curl) Machine.checked (.result info [] sends) =
        some call := rfl
    obtain ⟨t, hstep⟩ : ∃ t, (Machine.working info).step (httpProtocol curl) Machine.checked
        (.result info [] sends) = some t := ⟨_, rfl⟩
    obtain ⟨actions, hwire, hclosed, -⟩ := hcloses _ _ t _ call [1] hstep hcall ⟨0, 0, rfl⟩ hanswers
    obtain ⟨outcome, before, dequeued, hbefore, hwire', -, hspec⟩ :=
      Machine.dequeues_of_call hstep hcall
    have hkeep := (hspec.mem_closed_iff hanswers.request hanswers.session hanswers.response).1
    have hactions : actions = before ++ dequeued := by
      rw [hwire, List.append_assoc] at hwire'
      exact List.append_cancel_left hwire'
    refine (keepAlive_toInfo_iff hversion 0 0).mp (hkeep.symm.trans ?_)
    rw [← hclosed, hactions, List.mem_append, or_iff_right (hbefore _ _)]
  · rintro hspells config m t input call client hstep hcall ⟨id, now, hinfo⟩ hanswers
    obtain ⟨outcome, before, dequeued, hbefore, hwire, hsessions, hspec⟩ :=
      Machine.dequeues_of_call hstep hcall
    obtain ⟨hclosed, hgone⟩ :=
      hspec.mem_closed_iff hanswers.request hanswers.session hanswers.response
    have hkeep : (httpProtocol curl).keepAlive call.info = false ↔ r.ToClose :=
      hinfo ▸ (keepAlive_toInfo_iff hversion id now).mpr hspells
    refine ⟨before ++ dequeued, by rw [hwire, List.append_assoc], ?_, ?_⟩
    · rw [List.mem_append, or_iff_right (hbefore _ _), hclosed, hkeep]
    · rw [hsessions, hgone, hkeep]

/-! ### The header of the response -/

/-- `from_info` leaves a `Connection` header alone, and adds one for each bit otherwise. -/
theorem find_fromInfo (response : HttpResponse) (info : WorkerInfo) :
    (response.fromInfo info).1.headers.find (ascii "Connection") =
      (response.headers.find (ascii "Connection")).or
        (if info.connectionKeepAlive then some (ascii "Keep-Alive")
        else if info.connectionClose then some (ascii "Close")
        else none) := by
  unfold HttpResponse.fromInfo
  cases hkeep : info.connectionKeepAlive <;> cases hclose : info.connectionClose <;>
    cases hfind : response.headers.find (ascii "Connection") <;>
    simp [hfind, AssocMap.find_insert]

/-- Both bits follow the header exactly if its value is spelled as it has to be. -/
theorem bits_eq_matching_iff (id : UInt32) (now : ℕ) :
    Option.map caseless
        (if (r.toInfo id now).connectionKeepAlive then some (ascii "Keep-Alive")
        else if (r.toInfo id now).connectionClose then some (ascii "Close")
        else none) = r.matching ↔
      r.Spells (ascii "Keep-Alive") ∧ r.Spells (ascii "Close") := by
  have hkeepAlive : caseless (ascii "Keep-Alive") = ascii "keep-alive" := by decide
  have hclose : caseless (ascii "Close") = ascii "close" := by decide
  have hwords : ascii "close" ≠ ascii "keep-alive" := by decide
  unfold matching toInfo
  simp only [decide_eq_true_eq, asks_keepAlive, asks_close, apply_ite (Option.map caseless),
    Option.map_some, Option.map_none, hkeepAlive, hclose]
  constructor
  · intro hbits
    refine ⟨fun hasks => ?_, fun hasks => ?_⟩
    · by_contra hspelled
      -- at most the other bit is set, and its word is another one
      rw [if_neg hspelled, if_pos hasks] at hbits
      split_ifs at hbits
      exact hwords (Option.some.inj hbits)
    · have hnot : ¬ r.Asks (ascii "Keep-Alive") := fun hkeep =>
        not_asks_close_of_asks_keepAlive (asks_keepAlive.mpr hkeep) (asks_close.mpr hasks)
      rw [if_neg fun hfind => hnot (asks_of_find hfind), if_neg hnot, if_pos hasks] at hbits
      split_ifs at hbits with hfind
      exact hfind
  · rintro ⟨hkeep, hspelled⟩
    simp only [hkeep.find_iff, hspelled.find_iff]

/-- Without a header of that kind to match, the bits are not set. -/
theorem spells_of_matching_eq_none (h : r.matching = none) :
    r.Spells (ascii "Keep-Alive") ∧ r.Spells (ascii "Close") := by
  unfold matching at h
  split_ifs at h with hkeep hclose
  exact ⟨fun hasks => absurd (asks_keepAlive.mpr hasks) hkeep,
    fun hasks => absurd (asks_close.mpr hasks) hclose⟩

/-- The response carries the matching header. -/
theorem carries_iff :
    (∀ info : WorkerInfo, r.IsInfo info.toHttpRequestInfo →
      ((response.fromInfo info).1.headers.find (ascii "Connection")).map caseless = r.matching ∧
        r.IsInfo (response.fromInfo info).2.toHttpRequestInfo) ↔
    (response.headers.find (ascii "Connection")).map caseless = r.matching ∨
      response.headers.find (ascii "Connection") = none ∧
        r.Spells (ascii "Keep-Alive") ∧ r.Spells (ascii "Close") := by
  constructor
  · intro hcarries
    have hcarried := (hcarries { r.toInfo 0 0 with responseCode := 0 } ⟨0, 0, rfl⟩).1
    rw [find_fromInfo] at hcarried
    -- a header of its own stays, so that the bits decide only where there is none
    cases hown : response.headers.find (ascii "Connection") with
    | none =>
      rw [hown, Option.none_or] at hcarried
      exact Or.inr ⟨rfl, (bits_eq_matching_iff 0 0).mp hcarried⟩
    | some value =>
      rw [hown, Option.some_or] at hcarried
      exact Or.inl hcarried
  · rintro hheader info ⟨id, now, hinfo⟩
    refine ⟨?_, id, now, hinfo⟩
    rw [find_fromInfo, hinfo]
    rcases hheader with hmatching | ⟨hnone, hspells⟩
    · cases hown : response.headers.find (ascii "Connection") with
      | none =>
        rw [hown] at hmatching
        rw [Option.none_or]
        exact (bits_eq_matching_iff id now).mpr (spells_of_matching_eq_none hmatching.symm)
      | some value => rw [Option.some_or, ← hown, hmatching]
    · rw [hnone, Option.none_or]
      exact (bits_eq_matching_iff id now).mpr hspells

/-- A response of a worker before `from_info`. -/
def okResponse : HttpResponse where
  code := 200
  message := ascii "OK"
  body := []
  headers := .empty
  version := []

/-- `GET /a?b=c` with one header. -/
def withHeader (version name value : String) : HttpRequest where
  method := .get
  path := ascii "/a"
  query := AssocMap.empty.insert (ascii "b") [ascii "c"]
  body := []
  headers := AssocMap.empty.insert (ascii name) (ascii value)
  version := ascii version
  logLine := ascii "GET /a?b=c " ++ ascii version

end HttpRequest

/-! ### Runs

The infos that the server has are those of requests that its parsers handed out. -/

/-- The parsers of the sessions are reachable, and the history has infos of requests only. -/
structure Server.OfRequests (curl : Curl) (s : Server RequestParser HttpRequestInfo) : Prop where
  /-- The parsers of the sessions have come from fresh ones. -/
  parsers : ∀ client session, s.sessions.find client = some session →
    RequestParser.Reachable curl session.request
  /-- The infos in the history are of requests that a parser handed out. -/
  history : ∀ info ∈ s.requestHistory, ∃ r, Emitted curl r ∧ r.IsInfo info

namespace Server.OfRequests

variable {curl : Curl} {s t : Server RequestParser HttpRequestInfo} {client : Frame}
  {session : Session RequestParser}

/-- Sessions go, and infos are dropped. -/
theorem mono (h : s.OfRequests curl)
    (hsessions : ∀ owner owned, t.sessions.find owner = some owned → s.sessions.find owner = some owned)
    (hhistory : ∀ info ∈ t.requestHistory, info ∈ s.requestHistory) : t.OfRequests curl where
  parsers owner owned hfind := h.parsers owner owned (hsessions owner owned hfind)
  history info hmem := h.history info (hhistory info hmem)

/-- The sessions have no part in it. -/
theorem destroy (h : s.OfRequests curl) (client : Frame) : (s.destroy client).OfRequests curl := by
  refine h.mono (fun owner owned hfind => ?_) fun _ => id
  rw [destroy_sessions, UnorderedMap.find_erase] at hfind
  split_ifs at hfind
  exact hfind

/-- Forgetting a key leaves the requests of the others. -/
theorem forget (h : s.OfRequests curl) (key : UInt64) : (s.forget key).OfRequests curl :=
  h.mono (fun _ _ => id) fun _ => id

/-- Forgetting the keys of a session leaves the requests of the others. -/
theorem forgetAll (h : s.OfRequests curl) (keys : List UInt64) :
    (keys.foldl Server.forget s).OfRequests curl := by
  induction keys generalizing s with
  | nil => exact h
  | cons key keys ih => exact ih (h.forget key)

/-- A session has another parser. -/
theorem assign (h : s.OfRequests curl) (hsession : RequestParser.Reachable curl session.request)
    (client : Frame) (requestId : UInt32) :
    OfRequests curl { s with requestId, sessions := s.sessions.assign client session } := by
  refine ⟨fun owner owned hfind => ?_, h.history⟩
  rw [UnorderedMap.find_assign] at hfind
  split_ifs at hfind
  · obtain rfl := Option.some.inj hfind
    exact hsession
  · exact h.parsers owner owned hfind

/-- A request that is remembered has an info made from a request the parser emitted. -/
theorem remember (h : s.OfRequests curl) (hsession : s.sessions.find client = some session)
    {r : HttpRequest} (hr : Emitted curl r) {info : HttpRequestInfo} (hinfo : r.IsInfo info) :
    (s.remember (httpProtocol curl) client session info).OfRequests curl := by
  let listed : Session RequestParser := { session with enqueued := session.enqueued ++ [info.key] }
  have hreachable : RequestParser.Reachable curl listed.request := h.parsers client session hsession
  have hassigned := h.assign hreachable client s.requestId
  refine ⟨hassigned.parsers, fun other hmem => ?_⟩
  rcases List.mem_append.mp hmem with hold | hnew
  · exact h.history other hold
  · exact ⟨r, hr, List.mem_singleton.mp hnew ▸ hinfo⟩

/-- `dequeue` remembers no request. -/
theorem dequeue (h : s.OfRequests curl) {info : HttpRequestInfo} {response : Bytes}
    {sends : DequeueSends} {outcome : Dequeued RequestParser HttpRequestInfo} {actions : List Action}
    (hspec : s.Dequeues (httpProtocol curl) info response sends (outcome, actions)) :
    (outcome.server s).OfRequests curl := by
  cases hspec with
  | unknown | responseThrew | closeThrew | undefined => exact h
  | kept | notClosed => exact h.forget _
  | closed => exact (h.destroy _).forget _

end Server.OfRequests

namespace Machine

variable {curl : Curl} {config : ServerConfig HttpRequest}
  {m t : Machine RequestParser HttpRequest HttpRequestInfo}

/-- All infos are of requests that were handed out, and so are the requests that are to be sent on. -/
structure OfRequests (curl : Curl) (m : Machine RequestParser HttpRequest HttpRequestInfo) : Prop where
  /-- This holds of the server. -/
  server : m.server.OfRequests curl
  /-- The requests that wait were handed out by a parser. -/
  parsed : ∀ client rest, m.control = .enqueueing client rest → ∀ r ∈ rest, Emitted curl r

/-- What the server sees of a parser comes from a call of `from_stream`. -/
theorem reachable_of_parsed {p : RequestParser} (hp : RequestParser.Reachable curl p) {maxSize : ℕ}
    {message : Bytes} {parsed : Parsed RequestParser HttpRequest} :
    (httpProtocol curl).fromStream p maxSize message = parsed →
      match parsed with
      | .requests requests q => RequestParser.Reachable curl q ∧ ∀ r ∈ requests, Emitted curl r
      | .rejected _ q | .threw q => RequestParser.Reachable curl q := by
  rintro rfl
  change match p.parsed curl maxSize message with
    | .requests requests q => RequestParser.Reachable curl q ∧ ∀ r ∈ requests, Emitted curl r
    | .rejected _ q | .threw q => RequestParser.Reachable curl q
  unfold RequestParser.parsed
  cases hread : p.fromStream curl maxSize message with
  | returned requests q =>
    exact ⟨.returned hp hread, fun r hr => ⟨p, maxSize, message, requests, q, hp, hread, hr⟩⟩
  | threw e q => cases e <;> exact .threw hp hread
  | diverged => exact hp

/-- What was parsed of a message was emitted by the parser. -/
theorem ofRequests_handleRequest (hm : m.OfRequests curl) (client : Frame) (body : Bytes)
    (rejection : SendResult) :
    (m.handleRequest (httpProtocol curl) config client body rejection).OfRequests curl := by
  have hspec := m.handleRequest_spec (httpProtocol curl) config client body rejection
  generalize m.handleRequest (httpProtocol curl) config client body rejection = t at hspec ⊢
  cases hspec with
  | ignored => exact hm
  | opened hsession =>
    refine ⟨?_, hm.parsed⟩
    rw [UnorderedMap.emplace_of_find_eq_none hsession]
    exact hm.server.assign .fresh client m.server.requestId
  | hungUp => exact ⟨(hm.server.forgetAll _).destroy client, hm.parsed⟩
  | parsed hsession _ hparsed =>
    have hreachable := reachable_of_parsed (hm.server.parsers client _ hsession) hparsed
    refine ⟨hm.server.assign hreachable.1 client m.server.requestId, fun owner rest hrest => ?_⟩
    obtain ⟨rfl, rfl⟩ := ServerControl.enqueueing.inj hrest
    exact hreachable.2
  | rejectionThrew hsession _ hparsed | rejected hsession _ hparsed =>
    have hreachable := reachable_of_parsed (hm.server.parsers client _ hsession) hparsed
    exact ⟨hm.server.assign hreachable client _, nofun⟩
  | threw hsession _ hparsed =>
    have hreachable := reachable_of_parsed (hm.server.parsers client _ hsession) hparsed
    exact ⟨hm.server.assign hreachable client _, hm.parsed⟩

/-- A round of `enqueue`. -/
theorem ofRequests_enqueue (hm : m.OfRequests curl) {client : Frame} {parsed : HttpRequest}
    {rest : List HttpRequest} (hcontrol : m.control = .enqueueing client (parsed :: rest)) (now : ℕ)
    (infoSent textSent : SendResult) (sends : DequeueSends) :
    (m.enqueue (httpProtocol curl) config client parsed rest now infoSent textSent sends).OfRequests
      curl := by
  obtain ⟨hparsed, hrest⟩ := List.forall_mem_cons.mp (hm.parsed client _ hcontrol)
  have hinfo : parsed.IsInfo ((httpProtocol curl).toInfo parsed m.server.requestId now) := ⟨_, _, rfl⟩
  have hserver : m.server.count.OfRequests curl := hm.server.mono (fun _ _ => id) fun _ => id
  have hnext : ∀ owner requests, ServerControl.enqueueing client rest = .enqueueing owner requests →
      ∀ r ∈ requests, Emitted curl r := by
    rintro owner requests ⟨⟩
    exact hrest
  have hspec := m.enqueue_spec (httpProtocol curl) config client parsed rest now infoSent textSent sends
  generalize m.enqueue (httpProtocol curl) config client parsed rest now infoSent textSent sends = t
    at hspec ⊢
  cases hspec with
  | threw => exact ⟨hserver, nofun⟩
  | forwards _ hforwards =>
    cases hforwards with
    | threw | again | undefined => exact ⟨hserver, nofun⟩
    | sent _ hsession => exact ⟨hserver.remember hsession hparsed hinfo, hnext⟩
  | answers _ hanswers =>
    cases hanswers with
    | destroyed => exact ⟨hserver, nofun⟩
    | returned hsession hd =>
      exact ⟨(hserver.remember hsession hparsed hinfo).dequeue (Server.dequeues_of_eq hd), hnext⟩
    | threw hsession hd =>
      exact ⟨(hserver.remember hsession hparsed hinfo).dequeue (Server.dequeues_of_eq hd), nofun⟩
    | undefined hsession => exact ⟨hserver.remember hsession hparsed hinfo, nofun⟩

/-- `handle_timeouts` remembers no request. -/
theorem ofRequests_expire (hm : m.OfRequests curl) (dropDead : ℤ) (sends : DequeueSends) :
    (m.expire (httpProtocol curl) dropDead sends).OfRequests curl := by
  have hspec := m.expire_spec (httpProtocol curl) dropDead sends
  generalize m.expire (httpProtocol curl) dropDead sends = t at hspec ⊢
  cases hspec with
  | finished | young => exact ⟨hm.server, nofun⟩
  | @returned info history server actions hhistory _ hd =>
    -- the request that was answered leaves the history
    have hdequeued := hm.server.dequeue (Server.dequeues_of_eq hd)
    refine ⟨⟨hdequeued.parsers, fun other hmem => hm.server.history other ?_⟩, hm.parsed⟩
    rw [hhistory]
    exact List.mem_cons_of_mem _ hmem
  | threw _ _ hd => exact ⟨hm.server.dequeue (Server.dequeues_of_eq hd), nofun⟩
  | undefined => exact ⟨hm.server, nofun⟩

/-- One step keeps every info made from an emitted request. -/
theorem OfRequests.step (hm : m.OfRequests curl) {input : ServerInput HttpRequestInfo}
    (hstep : m.step (httpProtocol curl) config input = some t) : t.OfRequests curl := by
  cases stepped_of_step hstep with
  | result info response sends hcontrol =>
    have hspec := m.result_spec (httpProtocol curl) info response sends
    generalize m.result (httpProtocol curl) info response sends = t at hspec ⊢
    cases hspec with
    | returned hd | threw hd => exact ⟨hm.server.dequeue (Server.dequeues_of_eq hd), hm.parsed⟩
    | undefined => exact ⟨hm.server, nofun⟩
  | message client body rejection hcontrol => exact ofRequests_handleRequest hm client body rejection
  | enqueue now info text sends hcontrol => exact ofRequests_enqueue hm hcontrol now info text sends
  | enqueued | timeouts => exact ⟨hm.server, nofun⟩
  | @disconnect client close =>
    have hspec := m.disconnect_spec client close
    generalize m.disconnect client close = t at hspec ⊢
    cases hspec with
    | undefined | kept => exact ⟨hm.server, nofun⟩
    | closed => exact ⟨hm.server.destroy client, nofun⟩
  | @expire dropDead sends => exact ofRequests_expire hm dropDead sends

/-- In every run each info was made from a request that the parser emitted. -/
theorem ofRequests_of_run {inputs : List (ServerInput HttpRequestInfo)}
    (hrun : run (step (httpProtocol curl) config) .start inputs = some m) : m.OfRequests curl := by
  refine invariant_of_steps (P := OfRequests curl) ?_ (fun _ _ _ ht hstep => ht.step hstep) hrun
  exact ⟨⟨fun _ _ hfind => by simp [start, Server.start] at hfind, nofun⟩, nofun⟩

/-- In every run, each answer is for a request that was handed out, if those of the workers are. The
connection is closed as that request asks, if the value of its `Connection` header is spelled in the one
way. -/
theorem closes_of_run {inputs : List (ServerInput HttpRequestInfo)}
    (hrun : run (step (httpProtocol curl) config) .start inputs = some m)
    {input : ServerInput HttpRequestInfo} (hstep : m.step (httpProtocol curl) config input = some t)
    (hreturns : ∀ info response sends, input = .result info response sends →
      ∃ r, Emitted curl r ∧ r.IsInfo info)
    {call : Call RequestParser HttpRequestInfo} (hcall : m.call (httpProtocol curl) config input = some call)
    {client : Frame} (hanswers : call.Answers (httpProtocol curl) client) :
    ∃ r, Emitted curl r ∧ r.IsInfo call.info ∧ (r.SpellsDecision →
      (t.server.sessions.find client = none ↔ r.ToClose ∧ call.sends.close = .accepted)) := by
  have hm := ofRequests_of_run hrun
  -- the result of a worker, a request of the message, or one of the history
  obtain ⟨r, hr, hinfo⟩ : ∃ r, Emitted curl r ∧ r.IsInfo call.info := by
    cases calls_of_call hcall with
    | result info response sends => exact hreturns info response sends rfl
    | @answer client parsed rest _ _ _ _ _ hcontrol =>
      exact ⟨parsed, hm.parsed client _ hcontrol parsed List.mem_cons_self, _, _, rfl⟩
    | expire _ _ hhistory => exact hm.server.history _ (hhistory ▸ List.mem_cons_self)
  refine ⟨r, hr, hinfo, fun hspells => ?_⟩
  have hcloses : r.ClosesAsAsked curl := (HttpRequest.closesAsAsked_iff hr.isRequest.version).mpr hspells
  obtain ⟨_, -, -, hgone⟩ := hcloses config m t input call client hstep hcall hinfo hanswers
  exact hgone

end Machine

end PrimeServer
