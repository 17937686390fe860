import PrimeServer.Primes.Program

/-!
# `prime_echod`

The service with one stage, whose workers put the text of the request into the body of the response.

## Main results

* `Echo.echoes_of_run`: a client of `prime_echod` that sends one request after another finds the texts of its own
  requests in the responses, each of them once at most, wherever the two streams are cut.
-/

namespace PrimeServer

open Automaton Matching Transition

namespace Echo

open Primes

/-! ### The work function -/

/-- The work function of the echo workers. Nothing that it tries throws. -/
def echo (job : List Frame) (info : WorkerInfo) : Outcome :=
  match job with
  | [] => .undefined
  | text :: _ => respond 200 "OK" text info

variable {curl : Curl} {order : RequestOrder} {info info' : WorkerInfo} {result : WorkResult} {left : Frame}

/-- An echo worker answers. -/
theorem of_echo {job : List Frame} (h : echo job info = .returned result info') :
    ∃ text later, job = text :: later ∧
      result = { intermediate := false, messages := [render 200 "OK" text info], heartBeat := [] } ∧
      info'.toHttpRequestInfo = info.toHttpRequestInfo := by
  cases job with
  | nil => cases h
  | cons text later => exact ⟨text, later, rfl, of_respond h⟩

/-- The echo workers have no intermediate results. -/
theorem whole_echo {job : List Frame} (h : echo job info = .returned result info')
    (hintermediate : result.intermediate = true) : result.messages ≠ [] := by
  obtain ⟨text, later, -, rfl, -⟩ := of_echo h
  cases hintermediate

/-- The stage of `prime_echod`. -/
def works (curl : Curl) (order : RequestOrder) : WorkFunctions (HttpRequestInfo.layoutIn curl order) where
  stage _ := work echo whole_echo
  keeps h := by
    obtain ⟨info', hreturned, rfl⟩ := returned_of_gives h
    obtain ⟨-, -, -, -, hkeeps⟩ := of_echo hreturned
    exact read_bytes_of_kept hkeeps

/-- The only result of an echo worker is a response with the text of its job. -/
theorem of_returns {i : ℕ} {frame : Frame} {job : List Frame}
    (h : ((works curl order).stage i).Returns frame job result left) : ∃ text later, job = text :: later ∧
      result = { intermediate := false, messages := [render 200 "OK" text (.read frame)], heartBeat := [] } := by
  obtain ⟨info', hreturned, -⟩ := returned_of_gives (show (echo job (.read frame)).Gives result left from h)
  obtain ⟨text, later, hjob, hresult, -⟩ := of_echo hreturned
  exact ⟨text, later, hjob, hresult⟩

/-- The body of the response is the text. -/
theorem render_of_answers {frame last : Frame} {text body : Bytes}
    (h : (works curl order).Answers 0 frame [text] last body) : body = render 200 "OK" text (.read frame) := by
  cases h with
  | final hreturns hfinal hmessages =>
    obtain ⟨text', later, hjob, rfl⟩ := of_returns hreturns
    obtain ⟨rfl, -⟩ := List.cons.inj hjob
    obtain ⟨rfl, -⟩ := List.cons.inj hmessages
    rfl
  | intermediate hreturns hintermediate =>
    obtain ⟨text', later, -, rfl⟩ := of_returns hreturns
    cases hintermediate

/-! ### The service -/

variable {heartBeat : ℕ → Frame → Frame} {s : Service (RequestParser × List Bytes) HttpRequest HttpRequestInfo}
  {events : List (Service.Event HttpRequestInfo)} {client : Frame} {texts messages : List Bytes} {collect : Collect}

/-- The response is the echo of the text: its body is what is written for the request that the server has parsed
of the text, with the headers and the parameters in some order. -/
def Echoes (curl : Curl) (text response : Bytes) : Prop :=
  ∃ (request r : HttpRequest) (written : Bytes) (info : WorkerInfo),
    RequestParser.Whole curl defaults.maxRequestSize text request ∧ request.toString curl = .ok text ∧
      request.SameAs r ∧ r.toString curl = .ok written ∧ written.Perm text ∧
        response = render 200 "OK" written info

/-- Each text that a client is sent is the echo of another text that it sent. -/
theorem echoes_of_texts (hcurl : curl.Documented)
    (hproper : StepsMeet (Service.step (HttpRequestInfo.layoutIn curl order) defaults) (.start heartBeat) events
      (Service.Proper (works curl order) defaults))
    (hrun : run (Service.step (HttpRequestInfo.layoutIn curl order) defaults) (.start heartBeat) events = some s)
    (hclock : ∀ now, .server (.timeouts now) ∈ events → now < 2 ^ 32)
    (htexts : ∀ text ∈ texts, ∃ r : HttpRequest, r.Readable ∧ r.toString curl = .ok text ∧
      text.length ≤ defaults.maxRequestSize)
    (hdelivers : Delivers texts.flatten (events.filterMap (Service.Event.messageOf client))) :
    ∃ k echoed, (texts.take k).flatten <+: (events.filterMap (Service.Event.messageOf client)).flatten ∧
      echoed.Subperm (texts.take k) ∧
      List.Forall₂ (Echoes curl) echoed (s.machine.wire.filterMap (Action.textTo client)) := by
  -- each text is one request for the server
  have hrequests : ∀ text ∈ texts, ∃ request : HttpRequest,
      RequestParser.Whole curl defaults.maxRequestSize text request ∧
        RequestParser.Whole curl defaults.maxRequestSize text request ∧ request.toString curl = .ok text ∧
          0 ∉ request.pathQuery ∧ (percentEncode request.pathQuery).length < 2 ^ 31 := by
    intro text htext
    obtain ⟨r, hreadable, hwritten, hle⟩ := htexts text htext
    obtain ⟨logLine, hwhole⟩ := RequestParser.exists_whole hreadable hcurl hwritten hle
    refine ⟨_, hwhole, hwhole, ?_, HttpRequest.zero_not_mem_pathQuery hreadable.isRequest.target, hreadable.short⟩
    rw [HttpRequest.toString_sentHeaders, hwritten]
  obtain ⟨k, echoed, hbegins, hpart, hanswers⟩ :=
    Service.exists_asked_of_run hproper hrun hrequests (by simp [defaults]) hdelivers
  refine ⟨k, echoed, hbegins, hpart, hanswers.imp ?_⟩
  rintro text body ⟨p, hp, ⟨request, ⟨hwhole, htext, hzero, hshort⟩, hsame⟩, hanswer⟩
  rcases Service.httpAnswer_of_run hrun hp hanswer with ⟨written, last, hwritten, -, hanswers⟩ | hexpired
  · exact ⟨request, p.request, written, _, hwhole, htext, hsame, hwritten,
      hsame.toString_perm hcurl hzero hshort htext hwritten, render_of_answers hanswers⟩
  · exact absurd hexpired (not_expired hclock p.info body)

/-- A client of `prime_echod` that sends one request after another finds the texts of its own requests in the
responses, each of them once at most, whatever the server, the proxy and the workers have done in between, and
however the streams were cut. It finds all responses when the last of them has come. -/
theorem echoes_of_run (hcurl : curl.Documented)
    (hproper : StepsMeet (Service.step (HttpRequestInfo.layoutIn curl order) defaults) (.start heartBeat) events
      (Service.Proper (works curl order) defaults))
    (hrun : run (Service.step (HttpRequestInfo.layoutIn curl order) defaults) (.start heartBeat) events = some s)
    (hclock : ∀ now, .server (.timeouts now) ∈ events → now < 2 ^ 32)
    (htexts : ∀ text ∈ texts, ∃ r : HttpRequest, r.Readable ∧ r.toString curl = .ok text ∧
      text.length ≤ defaults.maxRequestSize)
    (hdelivers : Delivers texts.flatten (events.filterMap (Service.Event.messageOf client)))
    (hreceives : messages.flatten <+: (s.machine.wire.filterMap (Action.textTo client)).flatten)
    (hcollect : ∀ handed response, ∃ more, collect handed response = .ok more) (more : Bool) :
    ∃ k, (texts.take k).flatten <+: (events.filterMap (Service.Event.messageOf client)).flatten ∧
      ∃ echoed handed, echoed.Subperm (texts.take k) ∧ List.Forall₂ (Echoes curl) echoed handed ∧
        (∃ c more', httpClient.streamAll collect .fresh messages more [] =
          .returned handed.length c more' handed) ∧
        (messages.flatten = (s.machine.wire.filterMap (Action.textTo client)).flatten →
          handed = s.machine.wire.filterMap (Action.textTo client)) := by
  obtain ⟨k, echoed, hbegins, hpart, hechoes⟩ := echoes_of_texts hcurl hproper hrun hclock htexts hdelivers
  generalize s.machine.wire.filterMap (Action.textTo client) = responses at hreceives hechoes ⊢
  -- the client finds the responses in the stream, one after another
  have hspans : ∀ response ∈ responses, Spans Scanner.step Scanner.start response Scanner.start := by
    intro response hresponse
    obtain ⟨text, hechoed, request, r, written, info, hwhole, -, -, -, hperm, rfl⟩ :=
      exists_of_mem hechoes hresponse
    have hlength : written.length ≤ defaults.maxRequestSize := hperm.length_eq.trans_le hwhole.length_le
    exact spans_render 200 info (by decide) (hlength.trans_lt (by decide))
  have hwhole := run_spanStep_flatten hspans
  obtain ⟨rest, hrest⟩ := hreceives
  rw [← hrest, Automaton.run_append, Option.bind_eq_some_iff] at hwhole
  obtain ⟨⟨u, handed⟩, hfound, hlater⟩ := hwhole
  obtain ⟨⟨v, later⟩, hends, heq⟩ := Option.map_eq_some_iff.mp hlater
  obtain ⟨rfl, rfl⟩ := Prod.mk.inj heq
  obtain ⟨more', hstream⟩ := HttpClient.scans.streamAll hcollect Scanner.valid_start hfound more []
  refine ⟨k, hbegins, echoed.take handed.length, handed, ?_, ?_, ⟨_, more', hstream⟩, fun hall => ?_⟩
  · exact (List.take_sublist _ _).subperm.trans hpart
  · exact (List.forall₂_take_append _ _ _ hechoes)
  · -- nothing is left of the stream
    obtain rfl : rest = [] := by
      rw [hall] at hrest
      simpa using hrest
    obtain ⟨-, rfl⟩ := Prod.mk.inj (Option.some.inj hends)
    rw [List.append_nil]

instance (i : ℕ) (frame : Frame) (job : List Frame) (result : WorkResult) (left : Frame) :
    Decidable (((works curl order).stage i).Returns frame job result left) :=
  inferInstanceAs (Decidable ((echo job (.read frame)).Gives result left))

/-- A worker deals with a request. -/
def echoedBy (worker : Frame) (id : UInt32) (text : Bytes) : List (Service.Event HttpRequestInfo) :=
  let info : WorkerInfo := { firstInfo 0 with id }
  let answered : WorkResult := { intermediate := false, messages := [render 200 "OK" text info], heartBeat := [] }
  [.work 0 (.advertise worker), .work 0 (.forward (some (worker, 0)) none), .deliver 0 0 [],
    .work 0 (.forward none (some .null)), .work 0 (.take worker false),
    .work 0 (.finish worker answered { info with responseCode := 200 }.bytes)]

/-- The requests arrive in two pieces, and the second one is answered first. -/
def twoEchoes : List (Service.Event HttpRequestInfo) :=
  let stream := twoTexts.flatten
  let sends : DequeueSends := ⟨.accepted, .accepted⟩
  let next : Service.Event HttpRequestInfo := .server (.next 100 .accepted .accepted sends)
  [.server (.message [1] [] .accepted), .server (.message [1] (stream.take 70) .accepted), next, next,
    .server (.message [1] (stream.drop 70) .accepted), next, next] ++
    echoedBy [9] 0 (twoTexts[0]?.getD []) ++ echoedBy [8] 1 (twoTexts[1]?.getD []) ++
    [.receive 1 sends, .receive 0 sends]

/-- The responses come back in two pieces. -/
def twoPieces : List Bytes :=
  let stream := (twoTexts.reverse.map fun text => render 200 "OK" text (firstInfo 0)).flatten
  [stream.take 50, stream.drop 50]

/-- Two requests arrive, the second one is answered first, and the client finds both responses. -/
theorem echoes_of_run_twoEchoes :
    ∃ k echoed handed, handed.length = 2 ∧ echoed.Subperm (twoTexts.take k) ∧
      List.Forall₂ (Echoes .percent) echoed handed ∧
        ∃ c more', httpClient.streamAll (fun _ _ => .ok true) .fresh twoPieces true [] =
          .returned handed.length c more' handed := by
  have hrun : (run (Service.step (HttpRequestInfo.layoutIn .percent .insertion) defaults) (.start fun _ _ => [])
      twoEchoes).map (fun s => s.machine.wire.filterMap (Action.textTo [1])) =
        some (twoTexts.reverse.map fun text => render 200 "OK" text (firstInfo 0)) := by decide +kernel
  obtain ⟨s, hs, hwire⟩ := Option.map_eq_some_iff.mp hrun
  have hproper : StepsMeet (Service.step (HttpRequestInfo.layoutIn .percent .insertion) defaults) (.start fun _ _ => [])
      twoEchoes (Service.Proper (works .percent .insertion) defaults) := by decide +kernel
  have hclock : ∀ now, .server (.timeouts now) ∈ twoEchoes → now < 2 ^ 32 := by
    have hnever : twoEchoes.filterMap Service.Event.timeoutsAt = [] := by decide
    intro now hnow
    rw [← Service.mem_timeoutsAt, hnever] at hnow
    cases hnow
  have htexts : ∀ text ∈ twoTexts, ∃ r : HttpRequest, r.Readable ∧ r.toString .percent = .ok text ∧
      text.length ≤ defaults.maxRequestSize := by
    intro text htext
    obtain ⟨n, hn, rfl⟩ := List.mem_map.mp htext
    have hboth : ∀ n ∈ [3, 5], n < 2 ^ 64 ∧
        (Range.parsed n).toString .percent = .ok (((Range.asked n).toString .percent).toOption.getD []) ∧
        (((Range.asked n).toString .percent).toOption.getD []).length ≤ defaults.maxRequestSize := by decide
    obtain ⟨hlt, hwritten, hle⟩ := hboth n hn
    exact ⟨_, Range.readable_parsed hlt, hwritten, hle⟩
  have hbodies : twoEchoes.filterMap (Service.Event.messageOf [1]) =
      [] :: [twoTexts.flatten.take 70, twoTexts.flatten.drop 70] := by decide
  have hdelivers : Delivers twoTexts.flatten (twoEchoes.filterMap (Service.Event.messageOf [1])) := by
    rw [hbodies]
    exact .streaming (by decide) (by decide)
  have hall : twoPieces.flatten = (s.machine.wire.filterMap (Action.textTo [1])).flatten := by
    rw [hwire, twoPieces, List.flatten_cons, List.flatten_singleton, List.take_append_drop]
  have hreceives : twoPieces.flatten <+: (s.machine.wire.filterMap (Action.textTo [1])).flatten := by rw [hall]
  have hcollect : ∀ handed response, ∃ more, (fun _ _ => .ok true : Collect) handed response = .ok more :=
    fun _ _ => ⟨true, rfl⟩
  obtain ⟨k, -, echoed, handed, hpart, hechoes, hstream, hhanded⟩ :=
    echoes_of_run Curl.percent_documented hproper hs hclock htexts hdelivers hreceives hcollect true
  refine ⟨k, echoed, handed, ?_, hpart, hechoes, hstream⟩
  rw [hhanded hall, hwire]
  rfl

end Echo

end PrimeServer
