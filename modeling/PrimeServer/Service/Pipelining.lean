import PrimeServer.Http.Pipelining
import PrimeServer.Server.Iteration
import PrimeServer.Service.Conversation

/-!
# Pipelined requests to a service

A client may send one request after another over its connection without waiting for the responses, and what
the server reads of the connection may be cut anywhere. If none of the requests is too long, the server rejects
nothing, and the client is sent nothing but answers to requests that have come to their ends. The headers and the
parameters of a request may be sent on in another order than they came in.

## Main results

* `Service.pipelined_of_run`: this holds in every run whose steps are proper, if none of the requests is a health
  check.
-/

namespace PrimeServer

open Chunking Matching Transition

variable {σ ρ ι : Type} {π : Protocol σ ρ ι}

/-- The messages of a client that has connected, of whose stream a part has come, and that may have hung up. -/
inductive Delivers (stream : Bytes) : List Bytes → Prop where
  /-- The client has not connected. -/
  | unopened : Delivers stream []
  /-- The client has connected and has sent a part of the stream. -/
  | streaming {pieces : List Bytes} (hpieces : ∀ piece ∈ pieces, piece ≠ []) (hstream : pieces.flatten <+: stream) :
      Delivers stream ([] :: pieces)
  /-- The client has connected, has sent a part of the stream and has disconnected. -/
  | hungUp {pieces : List Bytes} (hpieces : ∀ piece ∈ pieces, piece ≠ []) (hstream : pieces.flatten <+: stream) :
      Delivers stream ([] :: pieces ++ [[]])

/-- What the parser returned is what the server enqueues. -/
theorem RequestParser.parsed_of_returned {curl : Curl} {maxSize : ℕ} {p t : RequestParser} {piece : Bytes}
    {requests : List HttpRequest} (h : (grammar curl maxSize).fromStream p piece = .returned requests t) :
    (httpProtocol curl).fromStream p maxSize piece = .requests requests t := by
  show p.parsed curl maxSize piece = _
  rw [parsed, RequestParser.fromStream, h]

/-- What a parser makes of the pieces of a stream is heard, in whatever order its maps are gone through. -/
theorem RequestParser.run_hear (order : RequestOrder) {curl : Curl} {config : ServerConfig HttpRequest}
    {q t : RequestParser} {pieces : List Bytes} {requests : List HttpRequest}
    (hpieces : ∀ piece ∈ pieces, piece ≠ [])
    (hfeed : feed (grammar curl config.maxRequestSize).fromStream q pieces = .returned requests t)
    (messages : List Bytes) (before : List HttpRequest) :
    ∃ heard, List.Forall₂ HttpRequest.SameAs requests heard ∧
      run ((orderedProtocol curl order).hear config) (.streaming (q, messages), before) pieces =
        some (.streaming (t, messages ++ pieces), before ++ heard) := by
  induction pieces generalizing q messages before requests with
  | nil =>
    obtain ⟨rfl, rfl⟩ := Reading.returned.inj hfeed
    exact ⟨[], .nil, by rw [run_nil, List.append_nil, List.append_nil]⟩
  | cons piece pieces ih =>
    obtain ⟨hpiece, hpieces⟩ := List.forall_mem_cons.mp hpieces
    obtain ⟨first, u, later, hfirst, hlater, rfl⟩ := feed_cons_eq_returned.mp hfeed
    obtain ⟨arranged, hsame, hread⟩ := parsed_ordered order (parsed_of_returned hfirst) messages
    have hhear : (orderedProtocol curl order).hear config (.streaming (q, messages), before) piece =
        some (.streaming (u, messages ++ [piece]), before ++ arranged) := by
      simp only [Protocol.hear, if_neg hpiece, hread]
    obtain ⟨heard, hheard, hrun⟩ := ih hpieces hlater (messages ++ [piece]) (before ++ arranged)
    refine ⟨arranged ++ heard, List.rel_append hsame hheard, ?_⟩
    rw [run_cons, hhear, Option.bind_some, hrun, List.append_assoc messages, List.singleton_append,
      List.append_assoc before]

/-- The requests of a stream that have come to their ends are heard. -/
theorem RequestParser.exists_heard {curl : Curl} {config : ServerConfig HttpRequest} {texts bodies : List Bytes}
    {requests : List HttpRequest} (htexts : List.Forall₂ (Whole curl config.maxRequestSize) texts requests)
    (hbodies : Delivers texts.flatten bodies) (order : RequestOrder) :
    ∃ connection k heard, List.Forall₂ HttpRequest.SameAs (requests.take k) heard ∧
      run ((orderedProtocol curl order).hear config) (.unopened, []) bodies = some (connection, heard) ∧
      (texts.take k).flatten <+: bodies.flatten := by
  have hpieces : ∀ {pieces : List Bytes}, (∀ piece ∈ pieces, piece ≠ []) → pieces.flatten <+: texts.flatten →
      ∃ t k heard, List.Forall₂ HttpRequest.SameAs (requests.take k) heard ∧
        run ((orderedProtocol curl order).hear config) (.unopened, []) ([] :: pieces) =
          some (.streaming t, heard) ∧ (texts.take k).flatten <+: pieces.flatten := by
    intro pieces hpieces hstream
    obtain ⟨k, read, t, hfeed, hread, -⟩ := (awaits_beginning .get htexts).feed hpieces hstream
    obtain ⟨heard, hsame, hrun⟩ := run_hear order hpieces hfeed [] []
    refine ⟨(t, pieces), k, heard, hsame, ?_, read, hread.symm⟩
    have hconnects : (orderedProtocol curl order).hear config (.unopened, []) [] =
        some (.streaming (orderedProtocol curl order).fresh, []) := rfl
    rw [run_cons, hconnects, Option.bind_some]
    exact hrun
  cases hbodies with
  | unopened => exact ⟨.unopened, 0, [], .nil, rfl, List.nil_prefix⟩
  | streaming hne hstream =>
    obtain ⟨t, k, heard, hsame, hrun, hbegins⟩ := hpieces hne hstream
    exact ⟨.streaming t, k, heard, hsame, hrun, by simpa using hbegins⟩
  | hungUp hne hstream =>
    -- the last message has no bytes, so that it adds nothing to the stream
    obtain ⟨t, k, heard, hsame, hrun, hbegins⟩ := hpieces hne hstream
    exact ⟨.hungUp, k, heard, hsame, run_concat_eq_some.mpr ⟨_, hrun, rfl⟩, by simpa using hbegins⟩

namespace Service

variable {curl : Curl} {order : RequestOrder} {works : WorkFunctions (HttpRequestInfo.layoutIn curl order)}
  {config : ServerConfig HttpRequest} {heartBeat : ℕ → Frame → Frame}
  {s : Service (RequestParser × List Bytes) HttpRequest HttpRequestInfo} {events : List (Event HttpRequestInfo)}
  {client : Frame} {texts : List Bytes} {requests : List HttpRequest}

/-- What was parsed of some of the texts of a client is the same, but for the order of the maps, as what was asked
in them. -/
theorem mem_of_heard {heard : List HttpRequest} {k : ℕ}
    (hheard : List.Forall₂ HttpRequest.SameAs (requests.take k) heard) {r : HttpRequest} (hr : r ∈ heard) :
    ∃ request ∈ requests, request.SameAs r := by
  obtain ⟨request, hrequest, hsame⟩ := exists_of_mem hheard hr
  exact ⟨request, List.mem_of_mem_take hrequest, hsame⟩

/-- A client whose requests are not too long, and no health checks, is sent no rejection, and each text that it is
sent is for another request that has come to its end. It is what the stages make of the request, with its headers
and its parameters in some order, or the response for a request that was too old when `handle_timeouts` was
called. -/
theorem pipelined_of_run
    (hproper : StepsMeet (step (HttpRequestInfo.layoutIn curl order) config) (start heartBeat) events
      (Proper works config))
    (hrun : run (step (HttpRequestInfo.layoutIn curl order) config) (start heartBeat) events = some s)
    (htexts : List.Forall₂ (RequestParser.Whole curl config.maxRequestSize) texts requests)
    (hplain : ∀ request ∈ requests, ∀ r, request.SameAs r → config.healthCheckMatcher r ≠ some true)
    (hdelivers : Delivers texts.flatten (events.filterMap (Event.messageOf client))) :
    (∀ text result, .rejection client text result ∉ s.machine.wire) ∧
    ∃ k, (texts.take k).flatten <+: (events.filterMap (Event.messageOf client)).flatten ∧
      ∃ heard, List.Forall₂ HttpRequest.SameAs (requests.take k) heard ∧
        ∃ asked : List (Posted HttpRequest HttpRequestInfo),
          (asked.map Posted.request).Subperm heard ∧ (∀ p ∈ asked, p ∈ s.posted ∧ p.client = client) ∧
          List.Forall₂ (fun p text => works.Answer p text ∨
              TimedOut (orderedProtocol curl order) config (events.filterMap Event.timeoutsAt) p.info.key text)
            asked (s.machine.wire.filterMap (Action.textTo client)) := by
  obtain ⟨connection, k, heard, hsame, hheard, hbegins⟩ := RequestParser.exists_heard htexts hdelivers order
  have hanswered : ∀ r ∈ heard, config.healthCheckMatcher r ≠ some true := by
    intro r hr
    obtain ⟨request, hrequest, hsameAs⟩ := mem_of_heard hsame hr
    exact hplain request hrequest r hsameAs
  obtain ⟨hunrejected, hasked⟩ := conversation_of_run hproper hrun hheard hanswered
  exact ⟨hunrejected, k, hbegins, heard, hsame, hasked⟩

/-- Each text that a client is sent is for another text of its own, and what was sent on for that one is what was
parsed of it, with the maps in some order. -/
theorem exists_asked_of_run {Asks : Bytes → HttpRequest → Prop}
    (hproper : StepsMeet (step (HttpRequestInfo.layoutIn curl order) config) (start heartBeat) events
      (Proper works config))
    (hrun : run (step (HttpRequestInfo.layoutIn curl order) config) (start heartBeat) events = some s)
    (htexts : ∀ text ∈ texts, ∃ request,
      RequestParser.Whole curl config.maxRequestSize text request ∧ Asks text request)
    (hplain : ∀ r, config.healthCheckMatcher r ≠ some true)
    (hdelivers : Delivers texts.flatten (events.filterMap (Event.messageOf client))) :
    ∃ k asked, (texts.take k).flatten <+: (events.filterMap (Event.messageOf client)).flatten ∧
      asked.Subperm (texts.take k) ∧
      List.Forall₂ (fun text body => ∃ p ∈ s.posted, (∃ request, Asks text request ∧ request.SameAs p.request) ∧
          (works.Answer p body ∨
            TimedOut (orderedProtocol curl order) config (events.filterMap Event.timeoutsAt) p.info.key body))
        asked (s.machine.wire.filterMap (Action.textTo client)) := by
  obtain ⟨requests, hmatching⟩ := exists_matching htexts
  obtain ⟨connection, k, heard, hsame, hheard, hbegins⟩ :=
    RequestParser.exists_heard (hmatching.imp fun _ _ h => h.1) hdelivers order
  obtain ⟨-, posted, hsubperm, hposted, hanswers⟩ := conversation_of_run hproper hrun hheard fun r _ => hplain r
  -- the texts that what was heard was parsed of
  have hasks : List.Forall₂ Asks (texts.take k) (requests.take k) :=
    List.forall₂_take k (hmatching.imp fun _ _ h => h.2)
  obtain ⟨asked, hasked, hpart⟩ := matching_part (matching_comp hasks hsame).flip hsubperm
  rw [List.forall₂_map_left_iff] at hasked
  refine ⟨k, asked, hbegins, hpart, (matching_comp hasked.flip
    ((List.forall₂_and_left _ _).mpr ⟨hposted, hanswers⟩)).imp ?_⟩
  rintro text body ⟨p, hsource, ⟨hp, -⟩, hanswer⟩
  exact ⟨p, hp, hsource, hanswer⟩

/-- The only stage sends back the texts that it was sent. -/
def sendBackTexts (curl : Curl) (order : RequestOrder) : WorkFunctions (HttpRequestInfo.layoutIn curl order) where
  stage _ := Workshop.echo
  keeps h := congrArg _ h.2.2

/-- Whether a request is sent back is decidable. -/
instance (i : ℕ) (info : Frame) (frames : List Frame) (result : WorkResult) (left : Frame) :
    Decidable (((sendBackTexts curl order).stage i).Returns info frames result left) :=
  inferInstanceAs (Decidable (Workshop.echo.Returns info frames result left))

/-- The server allows so many bytes, and has no health check. -/
def limited (maxRequestSize : ℕ) : ServerConfig HttpRequest where
  maxRequestSize
  requestTimeout := 4294967295
  healthCheckMatcher _ := some false
  healthCheckResponse := []

/-- A worker answers the job that comes next. -/
def sentBack (worker : Frame) (info : WorkerInfo) (text : Bytes) : List (Event HttpRequestInfo) :=
  let result : WorkResult := { intermediate := false, messages := [text], heartBeat := [] }
  [.work 0 (.advertise worker), .work 0 (.forward (some (worker, 0)) none), .deliver 0 0 [],
    .work 0 (.forward none (some .null)), .work 0 (.take worker false), .work 0 (.finish worker result info.bytes)]

/-- A client connects and sends two requests in two pieces, the second of which is sent back first. -/
def twoSentBack : List (Event HttpRequestInfo) :=
  let stream := RequestParser.twoTexts.flatten
  let sends : DequeueSends := ⟨.accepted, .accepted⟩
  let next : Event HttpRequestInfo := .server (.next 100 .accepted .accepted sends)
  let info (id : UInt32) : WorkerInfo :=
    { id, timeStamp := 100, version := 1, connectionKeepAlive := false, connectionClose := false, responseCode := 0 }
  let text (i : ℕ) : Bytes := (RequestParser.twoRequests[i]?.bind fun r => (r.toString .percent).toOption).getD []
  [.server (.message [1] [] .accepted), .server (.message [1] (stream.take 30) .accepted), next, next,
    .server (.message [1] (stream.drop 30) .accepted), next, next] ++
    sentBack [9] (info 0) (text 0) ++ sentBack [8] (info 1) (text 1) ++ [.receive 1 sends, .receive 0 sends]

/-- `pipelined_of_run` for two requests in one message. -/
theorem pipelined_of_run_twoSentBack :
    ∃ s, run (step (HttpRequestInfo.layoutIn .percent .insertion) (limited 45)) (start fun _ _ => []) twoSentBack =
        some s ∧
      (s.machine.wire.filterMap (Action.textTo [1])).length = 2 ∧
      (∀ text result, .rejection [1] text result ∉ s.machine.wire) ∧
      ∃ k, (RequestParser.twoTexts.take k).flatten <+: (twoSentBack.filterMap (Event.messageOf [1])).flatten ∧
        ∃ heard, List.Forall₂ HttpRequest.SameAs (RequestParser.twoRequests.take k) heard ∧
          ∃ asked : List (Posted HttpRequest HttpRequestInfo),
            (asked.map Posted.request).Subperm heard ∧ (∀ p ∈ asked, p ∈ s.posted ∧ p.client = [1]) ∧
            List.Forall₂ (fun p text => (sendBackTexts .percent .insertion).Answer p text ∨
                TimedOut (orderedProtocol .percent .insertion) (limited 45)
                  (twoSentBack.filterMap Event.timeoutsAt) p.info.key text)
              asked (s.machine.wire.filterMap (Action.textTo [1])) := by
  have hrun : (run (step (HttpRequestInfo.layoutIn .percent .insertion) (limited 45)) (start fun _ _ => [])
      twoSentBack).map (fun s => (s.machine.wire.filterMap (Action.textTo [1])).length) = some 2 := by
    decide +kernel
  obtain ⟨s, hs, hlength⟩ := Option.map_eq_some_iff.mp hrun
  have hproper : StepsMeet (step (HttpRequestInfo.layoutIn .percent .insertion) (limited 45)) (start fun _ _ => [])
      twoSentBack (Proper (sendBackTexts .percent .insertion) (limited 45)) := by decide +kernel
  have hbodies : twoSentBack.filterMap (Event.messageOf [1]) =
      [] :: [RequestParser.twoTexts.flatten.take 30, RequestParser.twoTexts.flatten.drop 30] := by decide
  have hdelivers : Delivers RequestParser.twoTexts.flatten (twoSentBack.filterMap (Event.messageOf [1])) := by
    rw [hbodies]
    exact .streaming (by decide) (by decide)
  exact ⟨s, hs, hlength,
    pipelined_of_run hproper hs RequestParser.whole_twoTexts (by simp [limited]) hdelivers⟩

end Service

end PrimeServer
