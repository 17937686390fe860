import PrimeServer.Primes.Workers
import PrimeServer.Server.Iteration
import PrimeServer.Service.Answers

/-!
# `prime_serverd`

The service with two stages: the workers of the first one parse the request and send the number in it to the
second one, where the workers find out whether it is prime. The infos that they are given are read from
memory and written back.

## Main results

* `Primes.replies_of_run`: the clients get the right answers for the numbers from two on, whatever else
  happens in the service.
-/

namespace PrimeServer

open Transition

deriving instance DecidableEq for WorkResult

namespace Service

variable {curl : Curl} {order : RequestOrder} {works : WorkFunctions (HttpRequestInfo.layoutIn curl order)}
  {config : ServerConfig HttpRequest} {heartBeat : ℕ → Frame → Frame}
  {s : Service (RequestParser × List Bytes) HttpRequest HttpRequestInfo} {events : List (Service.Event HttpRequestInfo)}

/-- The response for a request with this info that was too old when `handle_timeouts` was called. -/
def Expired (config : ServerConfig HttpRequest) (events : List (Service.Event HttpRequestInfo))
    (info : HttpRequestInfo) (body : Bytes) : Prop :=
  body = HttpRequest.timeout info ∧
    ∃ now, .server (.timeouts now) ∈ events ∧ info.timeStamp.toNat < dropDead config now

/-- A request that has timed out has been too old when `handle_timeouts` was called, as its key has its time in it. -/
theorem expired_of_timedOut {info : HttpRequestInfo} {body : Bytes}
    (h : TimedOut (orderedProtocol curl order) config (events.filterMap Event.timeoutsAt) info.key body) :
    Expired config events info body := by
  obtain ⟨info', hkey, rfl, now, hnow, hold⟩ := h
  refine ⟨rfl, now, mem_timeoutsAt.mp hnow, ?_⟩
  -- the key has the time stamp in it
  have hstamp' := (orderedProtocol_stamped curl order).key info'
  have hstamp : stampOf info.key = info.timeStamp.toNat := (orderedProtocol_stamped curl order).key info
  rw [hkey] at hstamp'
  rwa [← hstamp', hstamp] at hold

/-- The workers of an HTTP service are given the text of the request, and read its info. -/
theorem httpAnswer_of_run
    (hrun : run (step (HttpRequestInfo.layoutIn curl order) config) (.start heartBeat) events = some s)
    {p : Posted HttpRequest HttpRequestInfo} (hp : p ∈ s.posted) {body : Bytes}
    (hanswer : works.Answer p body ∨
      TimedOut (orderedProtocol curl order) config (events.filterMap Event.timeoutsAt) p.info.key body) :
    (∃ text last, p.request.toString curl = .ok text ∧
        (WorkerInfo.read ((HttpRequestInfo.layoutIn curl order).bytes p.info)).toHttpRequestInfo = p.info ∧
        works.Answers 0 ((HttpRequestInfo.layoutIn curl order).bytes p.info) [text] last body) ∨
      Expired config events p.info body := by
  refine hanswer.imp ?_ expired_of_timedOut
  rintro ⟨text, last, htext, hanswers⟩
  obtain ⟨id, now, hinfo⟩ := toInfo_of_run hrun p hp
  refine ⟨text, last, ?_, ?_, hanswers⟩
  · cases htoString : p.request.toString curl with
    | error e => simp [orderedProtocol, htoString, Except.toOption] at htext
    | ok written =>
      simp only [orderedProtocol, htoString, Except.toOption, Option.some.injEq] at htext
      rw [htext]
  · rw [hinfo]
    exact (HttpRequestInfo.layoutIn curl order).read_bytes p.request id now

/-- Each response of an HTTP service goes to the client of its request. -/
theorem httpResponse_of_run
    (hproper : StepsMeet (step (HttpRequestInfo.layoutIn curl order) config) (.start heartBeat) events
      (Proper works config))
    (hrun : run (step (HttpRequestInfo.layoutIn curl order) config) (.start heartBeat) events = some s)
    {p : Posted HttpRequest HttpRequestInfo} (hp : p ∈ s.posted) {client : Frame} {body : Bytes}
    (hresponse : .response p.info.key client body .accepted ∈ s.machine.wire) :
    client = p.client ∧
      ((∃ text last, p.request.toString curl = .ok text ∧
          (WorkerInfo.read ((HttpRequestInfo.layoutIn curl order).bytes p.info)).toHttpRequestInfo = p.info ∧
          works.Answers 0 ((HttpRequestInfo.layoutIn curl order).bytes p.info) [text] last body) ∨
        Expired config events p.info body) := by
  obtain ⟨hclient, hanswer⟩ := response_of_run hproper hrun hp hresponse
  exact ⟨hclient, httpAnswer_of_run hrun hp hanswer⟩

end Service

namespace Primes

/-- The function returns, and this is left in the request info. -/
def Outcome.Gives (result : WorkResult) (left : Frame) : Outcome → Prop
  | .returned result' info => result' = result ∧ info.bytes = left
  | .threw _ | .terminated | .undefined | .diverged => False

instance (result : WorkResult) (left : Frame) : (outcome : Outcome) → Decidable (outcome.Gives result left)
  | .returned result' info => inferInstanceAs (Decidable (result' = result ∧ info.bytes = left))
  | .threw _ | .terminated | .undefined | .diverged => isFalse id

/-- The bytes of a response with a body. -/
def render (code : ℕ) (message : String) (body : Bytes) (info : WorkerInfo) : Bytes :=
  let response : HttpResponse :=
    { code, message := ascii message, body, headers := .empty, version := ascii "HTTP/1.1" }
  (response.fromInfo info).1.toString

/-- The number that is sent back for a number: the right one from two on, and the number itself below. -/
def answer (n : ℕ) : ℕ := if n < 2 then n else if n.Prime then n else sizeMax

/-- What a client should be told about the text of its request. -/
inductive Says (curl : Curl) (text : Bytes) (info : WorkerInfo) : Bytes → Prop where
  /-- The number that was asked for, if it is prime, and a sentinel if not. -/
  | number {request : HttpRequest} {n : ℕ} (hread : HttpRequest.fromString curl text = some (.ok request))
      (hnumber : possiblePrime request = some (.ok n)) :
      Says curl text info (render 200 "OK" (decimal (answer n)) info)
  /-- The request could not be read. -/
  | noRequest {e : StdException} (hread : HttpRequest.fromString curl text = some (.error (.std e))) :
      Says curl text info (render 400 "Bad Request" e.what info)
  /-- The request asks for no number. -/
  | noNumber {request : HttpRequest} {e : StdException}
      (hread : HttpRequest.fromString curl text = some (.ok request))
      (hnumber : possiblePrime request = some (.error e)) :
      Says curl text info (render 400 "Bad Request" e.what info)

/-! ### The work functions -/

variable {curl : Curl} {order : RequestOrder} {turns : ℕ} {info info' : WorkerInfo} {result : WorkResult} {left : Frame}

/-- What a function gives it has returned. -/
theorem returned_of_gives {outcome : Outcome} (h : outcome.Gives result left) :
    ∃ info, outcome = .returned result info ∧ left = info.bytes := by
  cases outcome with
  | returned result' info =>
    obtain ⟨rfl, rfl⟩ := h
    exact ⟨info, rfl, rfl⟩
  | threw | terminated | undefined | diverged => exact h.elim

/-- The response is rendered. -/
theorem of_respond {code : ℕ} {message : String} {body : Bytes}
    (h : respond code message body info = .returned result info') :
    result = { intermediate := false, messages := [render code message body info], heartBeat := [] } ∧
      info'.toHttpRequestInfo = info.toHttpRequestInfo := by
  obtain ⟨rfl, rfl⟩ := Outcome.returned.inj h
  exact ⟨rfl, rfl⟩

/-- What a parse worker returns. -/
inductive Parses (curl : Curl) (text : Bytes) (info : WorkerInfo) : WorkResult → WorkerInfo → Prop where
  | number {request : HttpRequest} {n : ℕ} (hread : HttpRequest.fromString curl text = some (.ok request))
      (hnumber : possiblePrime request = some (.ok n)) :
      Parses curl text info (forwarded (.ofNat n)) info
  | complaint {body : Bytes} {info' : WorkerInfo} (hkeeps : info'.toHttpRequestInfo = info.toHttpRequestInfo)
      (htold : Says curl text info body) :
      Parses curl text info { intermediate := false, messages := [body], heartBeat := [] } info'

/-- A parse worker returns a number for the next stage or a complaint for the client. -/
theorem parses_of_returned {text : Frame} {job : List Frame}
    (h : parse curl (text :: job) info = .returned result info') : Parses curl text info result info' := by
  simp only [parse] at h
  split at h
  case h_1 | h_2 => cases h
  case h_3 e hread =>
    obtain ⟨rfl, hkeeps⟩ := of_respond h
    exact .complaint hkeeps (.noRequest hread)
  case h_4 request hread =>
    split at h
    case h_1 => cases h
    case h_2 e hnumber =>
      obtain ⟨rfl, hkeeps⟩ := of_respond h
      exact .complaint hkeeps (.noNumber hread hnumber)
    case h_3 n hnumber =>
      obtain ⟨rfl, rfl⟩ := Outcome.returned.inj h
      exact .number hread hnumber

/-- Of the request info, a response only shows what the server knows, too. -/
theorem render_congr (h : info'.toHttpRequestInfo = info.toHttpRequestInfo) (code : ℕ) (message : String)
    (body : Bytes) : render code message body info' = render code message body info := by
  unfold render HttpResponse.fromInfo
  rw [h]

/-- What a client is told does not depend on the code that a worker has left in the info. -/
theorem Says.congr {text body : Bytes} (htold : Says curl text info' body)
    (h : info'.toHttpRequestInfo = info.toHttpRequestInfo) : Says curl text info body := by
  cases htold with
  | number hread hnumber =>
    rw [render_congr h]
    exact .number hread hnumber
  | noRequest hread =>
    rw [render_congr h]
    exact .noRequest hread
  | noNumber hread hnumber =>
    rw [render_congr h]
    exact .noNumber hread hnumber

/-- However many turns the loop has taken, it was left where it had to be. -/
theorem tried_of_divide {prime : UInt64} {s t : Division} (hs : Tried prime s)
    (h : divide prime turns s = some t) : Tried prime t ∧ turn prime t = none := by
  induction turns generalizing s with
  | zero => cases h
  | succ turns ih =>
    rw [divide] at h
    cases hturn : turn prime s with
    | none =>
      rw [hturn] at h
      obtain rfl := Option.some.inj h
      exact ⟨hs, hturn⟩
    | some u =>
      rw [hturn] at h
      exact ih (hs.turn hturn).1 h

/-- Where the loop ends, the answer is right. -/
theorem verdict_of_divide {n : UInt64} {s : Division} (h : divide n turns (.start n) = some s) :
    (if s.divisor < s.high then sizeMax else n.toNat) = answer n.toNat := by
  obtain ⟨htried, hturn⟩ := tried_of_divide (tried_start n) h
  unfold answer
  by_cases hsmall : n.toNat < 2
  · -- the loop is not entered
    have hnot : ¬ s.divisor < s.high := by
      have htwo := htried.two_le
      have hle := htried.high_le
      rw [UInt64.lt_iff_toNat_lt]
      omega
    rw [if_neg hnot, if_pos hsmall]
  · simp only [if_neg hsmall, divisor_lt_high_iff htried hturn (not_lt.mp hsmall), ite_not]

/-- A compute worker answers. -/
theorem of_compute {job : List Frame} (h : compute turns job info = .returned result info') :
    result.intermediate = false ∧ info'.toHttpRequestInfo = info.toHttpRequestInfo := by
  unfold compute at h
  split at h
  case h_1 => cases h
  case h_2 =>
    split_ifs at h
    dsimp only at h
    split at h
    case h_1 => cases h
    case h_2 =>
      obtain ⟨rfl, hkeeps⟩ := of_respond h
      exact ⟨rfl, hkeeps⟩

/-- A compute worker answers a forwarded number with the right number. -/
theorem of_compute_forwarded {n : UInt64}
    (h : compute turns (forwarded n).messages info = .returned result info') :
    result.messages = [render 200 "OK" (decimal (answer n.toNat)) info] := by
  rw [compute_forwarded] at h
  split at h
  case h_1 => cases h
  case h_2 s hs =>
    rw [verdict_of_divide hs] at h
    obtain ⟨rfl, -⟩ := of_respond h
    rfl

/-- A number that was read without an error was read by `stoul`. -/
theorem stoul_of_mapError {f : StoulError → StdException} {s : Bytes} {n : ℕ}
    (h : (stoul 10 s).mapError f = .ok n) : stoul 10 s = .ok n := by
  cases hs : stoul 10 s with
  | error e =>
    rw [hs] at h
    cases h
  | ok m =>
    rw [hs] at h
    exact congrArg Except.ok (Except.ok.inj h)

/-- The number in a request is one of 64 bits. -/
theorem lt_of_possiblePrime {request : HttpRequest} {n : ℕ} (h : possiblePrime request = some (.ok n)) :
    n < 2 ^ 64 := by
  unfold possiblePrime at h
  dsimp only at h
  split at h
  case h_1 =>
    split_ifs at h
    · cases h
    · split at h
      case h_1 => exact stoul_lt (stoul_of_mapError (Option.some.inj h))
      case h_2 => cases h
  case h_2 =>
    split_ifs at h
    exact stoul_lt (stoul_of_mapError (Option.some.inj h))
  case h_3 => cases h

/-- The workers read the info from memory. -/
def work (f : List Frame → WorkerInfo → Outcome)
    (hwhole : ∀ {job info result info'}, f job info = .returned result info' → result.intermediate = true →
      result.messages ≠ []) : WorkFunction where
  Returns info frames result left := (f frames (.read info)).Gives result left
  whole h hintermediate := by
    obtain ⟨info, hreturned, -⟩ := returned_of_gives h
    exact hwhole hreturned hintermediate

/-- A number is forwarded as a message. -/
theorem whole_parse {job : List Frame} (h : parse curl job info = .returned result info')
    (hintermediate : result.intermediate = true) : result.messages ≠ [] := by
  obtain ⟨n, rfl⟩ := forwarded_of_parse h hintermediate
  exact List.cons_ne_nil _ _

/-- A compute worker has no intermediate results. -/
theorem whole_compute {job : List Frame} (h : compute turns job info = .returned result info')
    (hintermediate : result.intermediate = true) : result.messages ≠ [] := by
  simp [(of_compute h).1] at hintermediate

/-- What the server knows is still there when the info is written back. -/
theorem read_bytes_of_kept {frame : Frame} (h : info'.toHttpRequestInfo = (WorkerInfo.read frame).toHttpRequestInfo) :
    (HttpRequestInfo.layoutIn curl order).read info'.bytes = (HttpRequestInfo.layoutIn curl order).read frame := by
  show (WorkerInfo.read info'.bytes).toHttpRequestInfo = (WorkerInfo.read frame).toHttpRequestInfo
  have hversion : info'.version < 2 ^ 3 := by
    rw [h]
    exact WorkerInfo.version_read_lt frame
  rw [WorkerInfo.toHttpRequestInfo_read_bytes info' hversion, h]

/-- The stages of `prime_serverd`, with a limit on the turns of the loop. -/
def works (curl : Curl) (order : RequestOrder) (turns : ℕ) : WorkFunctions (HttpRequestInfo.layoutIn curl order) where
  stage
    | 0 => work (parse curl) whole_parse
    | _ + 1 => work (compute turns) whole_compute
  keeps {i info frames result left} h := by
    have hkeeps : ∃ info' : WorkerInfo, left = info'.bytes ∧
        info'.toHttpRequestInfo = (WorkerInfo.read info).toHttpRequestInfo := by
      cases i with
      | zero =>
        obtain ⟨info', hreturned, rfl⟩ := returned_of_gives h
        refine ⟨info', rfl, ?_⟩
        cases frames with
        | nil => cases hreturned
        | cons text job =>
          cases parses_of_returned hreturned with
          | number => rfl
          | complaint hkeeps => exact hkeeps
      | succ i =>
        obtain ⟨info', hreturned, rfl⟩ := returned_of_gives h
        exact ⟨info', rfl, (of_compute hreturned).2⟩
    obtain ⟨info', rfl, hsame⟩ := hkeeps
    exact read_bytes_of_kept hsame

/-- What the two stages make of a text is what its client should be told. -/
theorem says_of_answers {frame last : Frame} {text body : Bytes}
    (h : (works curl order turns).Answers 0 frame [text] last body) : Says curl text (.read frame) body := by
  cases h with
  | final hreturns hfinal hmessages =>
    obtain ⟨info', hreturned, -⟩ := returned_of_gives hreturns
    cases parses_of_returned hreturned with
    | number => cases hfinal
    | complaint _ htold =>
      obtain ⟨rfl, -⟩ := List.cons.inj hmessages
      exact htold
  | @intermediate _ _ left _ _ _ result hreturns hintermediate hlater =>
    obtain ⟨info', hreturned, rfl⟩ := returned_of_gives hreturns
    cases parses_of_returned hreturned with
    | complaint => cases hintermediate
    | @number request n hread hnumber =>
      -- the number is on its way to the second stage, which answers
      have hkeeps := (works curl order turns).keeps hreturns
      cases hlater with
      | intermediate hreturns' hintermediate' =>
        obtain ⟨_, hreturned', -⟩ := returned_of_gives hreturns'
        simp [(of_compute hreturned').1] at hintermediate'
      | final hreturns' _ hmessages' =>
        obtain ⟨_, hreturned', -⟩ := returned_of_gives hreturns'
        rw [of_compute_forwarded hreturned', UInt64.toNat_ofNat_of_lt' (lt_of_possiblePrime hnumber),
          render_congr hkeeps] at hmessages'
        obtain ⟨rfl, -⟩ := List.cons.inj hmessages'
        exact .number hread hnumber

variable {config : ServerConfig HttpRequest} {heartBeat : ℕ → Frame → Frame}
  {s : Service (RequestParser × List Bytes) HttpRequest HttpRequestInfo} {events : List (Service.Event HttpRequestInfo)}

/-- In every run, each response that was sent for a request that was sent on is the right answer for the
number in the text of the request, or the complaint that there is none, unless the request was too old when
`handle_timeouts` was called. -/
theorem replies_of_run
    (hproper : StepsMeet (Service.step (HttpRequestInfo.layoutIn curl order) config) (.start heartBeat) events
      (Service.Proper (works curl order turns) config))
    (hrun : run (Service.step (HttpRequestInfo.layoutIn curl order) config) (.start heartBeat) events = some s)
    {p : Posted HttpRequest HttpRequestInfo} (hp : p ∈ s.posted) {client : Frame} {body : Bytes}
    (hresponse : .response p.info.key client body .accepted ∈ s.machine.wire) :
    client = p.client ∧
      ((∃ text, p.request.toString curl = .ok text ∧
          Says curl text { toHttpRequestInfo := p.info, responseCode := 0 } body) ∨
        Service.Expired config events p.info body) := by
  obtain ⟨hclient, hanswer⟩ := Service.httpResponse_of_run hproper hrun hp hresponse
  refine ⟨hclient, hanswer.imp_left ?_⟩
  rintro ⟨text, last, htext, hread, hanswers⟩
  exact ⟨text, htext, (says_of_answers hanswers).congr hread⟩

instance (i : ℕ) (info : Frame) (frames : List Frame) (result : WorkResult) (left : Frame) :
    Decidable (((works curl order turns).stage i).Returns info frames result left) :=
  match i with
  | 0 => inferInstanceAs (Decidable ((parse curl frames (.read info)).Gives result left))
  | _ + 1 => inferInstanceAs (Decidable ((compute turns frames (.read info)).Gives result left))

/-- The server of `prime_serverd`, without a health check. -/
def defaults : ServerConfig HttpRequest where
  maxRequestSize := 10485760
  requestTimeout := 4294967295
  healthCheckMatcher _ := some false
  healthCheckResponse := []

/-- The info of the first request, at time 100. -/
def firstInfo (responseCode : ℕ) : WorkerInfo where
  id := 0
  timeStamp := 100
  version := 1
  connectionKeepAlive := false
  connectionClose := false
  responseCode

/-- A client asks for the number seven. -/
def seven : List (Service.Event HttpRequestInfo) :=
  let sends : DequeueSends := ⟨.accepted, .accepted⟩
  let answered : WorkResult :=
    { intermediate := false
      messages := [render 200 "OK" (decimal 7) (firstInfo 0)]
      heartBeat := [] }
  [.server (.message [1] [] .accepted),
    .server (.message [1] (ascii "GET /is_prime?possible_prime=7 HTTP/1.1\r\n\r\n") .accepted),
    .server (.next 100 .accepted .accepted sends), .server (.next 100 .accepted .accepted sends),
    .work 0 (.advertise [9]), .work 0 (.forward (some ([9], 0)) none), .deliver 0 0 [],
    .work 0 (.forward none (some .null)), .work 0 (.take [9] false),
    .work 0 (.finish [9] (forwarded 7) (firstInfo 0).bytes),
    .work 1 (.advertise [9]), .work 1 (.forward (some ([9], 0)) none), .deliver 1 0 [],
    .work 1 (.forward none (some .null)), .work 1 (.take [9] false),
    .work 1 (.finish [9] answered (firstInfo 200).bytes), .receive 0 sends]

/-- `replies_of_run` for a client that asks for the number seven. -/
theorem replies_of_run_seven :
    ∃ s, run (Service.step (HttpRequestInfo.layoutIn .percent .insertion) defaults) (.start fun _ _ => []) seven =
        some s ∧
      ∃ p ∈ s.posted, ∃ body, .response p.info.key [1] body .accepted ∈ s.machine.wire ∧
        [1] = p.client ∧
          ((∃ text, p.request.toString .percent = .ok text ∧
              Says .percent text { toHttpRequestInfo := p.info, responseCode := 0 } body) ∨
            Service.Expired defaults seven p.info body) := by
  have hrun : (run (Service.step (HttpRequestInfo.layoutIn .percent .insertion) defaults) (.start fun _ _ => [])
      seven).map (fun s => s.posted.map fun p => decide (.response p.info.key [1]
        (render 200 "OK" (decimal 7) (firstInfo 0)) .accepted ∈ s.machine.wire)) = some [true] := by decide
  obtain ⟨s, hs, hposted⟩ := Option.map_eq_some_iff.mp hrun
  obtain ⟨p, hp, hresponse⟩ := List.map_eq_singleton_iff.mp hposted
  have hmem : p ∈ s.posted := by rw [hp]; exact List.mem_singleton_self p
  have hproper : StepsMeet (Service.step (HttpRequestInfo.layoutIn .percent .insertion) defaults) (.start fun _ _ => [])
      seven (Service.Proper (works .percent .insertion 10) defaults) := by decide
  exact ⟨s, hs, p, hmem, _, of_decide_eq_true hresponse,
    replies_of_run hproper hs hmem (of_decide_eq_true hresponse)⟩

end Primes

end PrimeServer
