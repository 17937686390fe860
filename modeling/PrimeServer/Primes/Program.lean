import PrimeServer.Primes.Batch
import PrimeServer.Service.Pipelining

/-!
# `prime_serverd` in batch mode

The client of the batch mode is connected to the server that runs in the same program. It sends its requests one
after another, in one stream of bytes, and what the server sends back is another stream. Whatever happens in
between, the client ends up with the primes.

## Main results

* `Primes.primes_of_service`: if `batch` returns, it has found all primes between the two numbers, except for two;
  and it does return when all responses have come.
-/

namespace PrimeServer

open Matching Transition

namespace Primes

variable {curl : Curl}

/-! ### The requests -/

namespace Range

/-- The requests are short. -/
theorem length_le_of_asked (hcurl : curl.Documented) {n : ℕ} (hn : n < 2 ^ 64) {text : Bytes}
    (htext : (asked n).toString curl = .ok text) : text.length ≤ 200 := by
  have hlength : (asked n).pathQuery.length = 25 + (decimal n).length := by
    show (ascii "/is_prime?possible_prime=" ++ decimal n).length = _
    rw [List.length_append]
    rfl
  have hdecimal := length_decimal_le hn
  have hshort : (asked n).pathQuery.length < 2 ^ 31 := by omega
  have hzero : 0 ∉ (asked n).pathQuery := by
    change 0 ∉ (parsed n).pathQuery
    exact HttpRequest.zero_not_mem_pathQuery (isTarget_parsed n)
  have hencode : urlEncode curl (asked n).pathQuery = .ok (cString (percentEncode (asked n).pathQuery)) := by
    rw [urlEncode, toInt_of_lt hshort, hcurl.escape _ hzero hshort]
  have hwritten : text = ascii "GET" ++ ascii " " ++ cString (percentEncode (asked n).pathQuery) ++ ascii " " ++
      ascii "HTTP/1.1" ++ crlf ++ [] ++ crlf := by
    have hmethod : methodToString.lookup (asked n).method = some (ascii "GET") := rfl
    rw [HttpRequest.toString, hmethod, hencode] at htext
    exact (Except.ok.inj htext).symm
  -- a byte is encoded as three at most, and the number has twenty digits at most
  have hencoded : (cString (percentEncode (asked n).pathQuery)).length ≤ 135 := by
    have hcut := (List.takeWhile_sublist (· ≠ 0) (l := percentEncode (asked n).pathQuery)).length_le
    rw [← cString] at hcut
    have hthree := length_percentEncode_le (asked n).pathQuery
    omega
  have hends : (ascii "GET").length = 3 ∧ (ascii " ").length = 1 ∧ (ascii "HTTP/1.1").length = 8 ∧
      crlf.length = 2 := by decide
  rw [hwritten]
  simp only [List.length_append, List.length_nil]
  omega

end Range

/-! ### The program -/

open Range

variable {order : RequestOrder} {turns : ℕ} {heartBeat : ℕ → Frame → Frame}
  {s : Service (RequestParser × List Bytes) HttpRequest HttpRequestInfo} {events : List (Service.Event HttpRequestInfo)}
  {client : Frame} {range : Range} {argv1 : Bytes} {first last calls : ℕ} {inputs : List ClientInput}
  {c : Client HttpClient}

/-- No request is too old before the clock wraps. -/
theorem not_expired (hclock : ∀ now, .server (.timeouts now) ∈ events → now < 2 ^ 32) (info : HttpRequestInfo)
    (body : Bytes) : ¬Service.Expired defaults events info body := by
  rintro ⟨-, now, hnow, hold⟩
  have hlt := hclock now hnow
  have hdropDead : dropDead defaults now ≤ 0 := by
    have htimeout : defaults.requestTimeout.toNat = 4294967295 := by decide
    rw [dropDead, htimeout]
    omega
  omega

/-- Each text that a client is sent is what it should be told of another one of its requests, so that something
can be added for the requests that are not answered. -/
theorem told_of_run (hcurl : curl.Documented)
    (hproper : StepsMeet (Service.step (HttpRequestInfo.layoutIn curl order) defaults) (.start heartBeat) events
      (Service.Proper (works curl order turns) defaults))
    (hrun : run (Service.step (HttpRequestInfo.layoutIn curl order) defaults) (.start heartBeat) events = some s)
    (hclock : ∀ now, .server (.timeouts now) ∈ events → now < 2 ^ 32) {texts : List Bytes}
    (htexts : ∀ text ∈ texts, ∃ n < 2 ^ 64, (asked n).toString curl = .ok text)
    (hdelivers : Delivers texts.flatten (events.filterMap (Service.Event.messageOf client))) :
    ∃ answers more, List.Forall₂ (fun text body => ∃ info, Says curl text info body) texts answers ∧
      answers.Perm (s.machine.wire.filterMap (Action.textTo client) ++ more) := by
  -- there is one parameter and no header, so that no order has to be chosen
  have hrequests : ∀ text ∈ texts, ∃ request : HttpRequest,
      RequestParser.Whole curl defaults.maxRequestSize text request ∧
        ∀ r, request.SameAs r → r.toString curl = .ok text := by
    intro text htext
    obtain ⟨n, hn, hasked⟩ := htexts text htext
    have hshort : text.length ≤ defaults.maxRequestSize := (length_le_of_asked hcurl hn hasked).trans (by decide)
    have hwritten : (parsed n).toString curl = .ok text := (toString_parsed n).trans hasked
    obtain ⟨logLine, hwhole⟩ := RequestParser.exists_whole (readable_parsed hn) hcurl hwritten hshort
    refine ⟨_, hwhole, fun r hsame => ?_⟩
    rw [hsame.toString_eq (le_refl 1) (Nat.zero_le 1), HttpRequest.toString_sentHeaders, hwritten]
  obtain ⟨k, asked, -, hpart, hanswers⟩ :=
    Service.exists_asked_of_run hproper hrun hrequests (by simp [defaults]) hdelivers
  have hreplies : List.Forall₂ (fun text body => ∃ info, Says curl text info body) asked
      (s.machine.wire.filterMap (Action.textTo client)) := by
    refine hanswers.imp ?_
    rintro text body ⟨p, hp, ⟨request, hwrites, hsame⟩, hanswer⟩
    have hwritten := hwrites p.request hsame
    rcases Service.httpAnswer_of_run hrun hp hanswer with ⟨text', last, hwritten', -, hanswers⟩ | hexpired
    · obtain rfl : text = text' := Except.ok.inj (hwritten.symm.trans hwritten')
      exact ⟨_, says_of_answers hanswers⟩
    · exact absurd hexpired (not_expired hclock p.info body)
  -- what could be said to the requests without a response stands in for it
  have htold : ∀ text ∈ texts, ∃ body info, Says curl text info body := by
    intro text htext
    obtain ⟨n, hn, hasked⟩ := htexts text htext
    exact ⟨_, firstInfo 0, (says_iff hcurl hn hasked).mpr rfl⟩
  exact complete_matching hreplies (hpart.trans (List.take_sublist k texts).subperm) htold

/-- `prime_serverd` in batch mode: if `batch` returns, it has found all primes between the two numbers, except for
two, whatever the server, the proxies and the workers have done in between, and however the streams were cut. It
does return when there is a response for each number and the last of them has come. -/
theorem primes_of_service (hcurl : curl.Documented) (hmode : Mode.ofArgument argv1 = .ok (.batch range))
    (hfirst : stoul 10 (startText argv1) = .ok first) (hlast : stoul 10 (endText argv1) = .ok last)
    (hpos : last ≠ 0)
    (hproper : StepsMeet (Service.step (HttpRequestInfo.layoutIn curl order) defaults) (.start heartBeat) events
      (Service.Proper (works curl order turns) defaults))
    (hservice : run (Service.step (HttpRequestInfo.layoutIn curl order) defaults) (.start heartBeat) events = some s)
    (hclock : ∀ now, .server (.timeouts now) ∈ events → now < 2 ^ 32)
    (hbatch : run (Client.step httpClient range.collectFunction 8912) (.start httpClient 8912) inputs = some c)
    (hasks : inputs.filterMap ClientInput.outcome = (List.range calls).map (range.request curl))
    (hprompt : StepsMeet (Client.step httpClient range.collectFunction 8912) (.start httpClient 8912) inputs
      (Client.Prompt httpClient))
    (hdelivers : Delivers c.sent.flatten (events.filterMap (Service.Event.messageOf client)))
    (hreceives : (inputs.filterMap ClientInput.message).flatten <+:
      (s.machine.wire.filterMap (Action.textTo client)).flatten) :
    (c.control = .returned →
      (range.collected c.handed).primes = (Finset.Icc first last).filter fun n => n.Prime ∧ n ≠ 2) ∧
    ((s.machine.wire.filterMap (Action.textTo client)).length = range.requests →
      (inputs.filterMap ClientInput.message).flatten = (s.machine.wire.filterMap (Action.textTo client)).flatten →
        c.control = .returned) := by
  have hsent := sent_of_asks range hcurl calls
  rw [← hasks, ← Client.sent_of_run hbatch] at hsent
  have htexts : ∀ text ∈ c.sent, ∃ n < 2 ^ 64, (asked n).toString curl = .ok text := by
    intro text htext
    obtain ⟨i, -, hi, hasked⟩ := exists_of_mem hsent htext
    exact ⟨range.number i, number_lt hi, hasked⟩
  obtain ⟨answers, more, hanswers, hperm⟩ := told_of_run hcurl hproper hservice hclock htexts hdelivers
  obtain ⟨hspans, hnumbers⟩ := told_of_answers hcurl hsent hanswers
  have hreplied : ((s.machine.wire.filterMap (Action.textTo client) ++ more).map resultNumber).Perm
      ((List.range (min calls range.requests)).map fun i => some (answer (range.number i))) := by
    rw [← hnumbers]
    exact (hperm.map resultNumber).symm
  have hstream : (inputs.filterMap ClientInput.message).flatten <+:
      (s.machine.wire.filterMap (Action.textTo client) ++ more).flatten := by
    rw [List.flatten_append]
    exact hreceives.trans (List.prefix_append _ _)
  obtain ⟨hprimes, hreturns⟩ := primes_of_replies hmode hfirst hlast hpos hbatch hprompt
    (fun body hbody => hspans body (hperm.mem_iff.mpr hbody)) hreplied hstream
  refine ⟨hprimes, fun hall hreceived => ?_⟩
  -- no response is missing
  have hlength : (s.machine.wire.filterMap (Action.textTo client)).length + more.length =
      min calls range.requests := by simpa using hreplied.length_eq
  obtain rfl : more = [] := List.length_eq_zero_iff.mp (by omega)
  rw [List.append_nil] at hreturns
  exact hreturns (by omega) hreceived

/-- The odd numbers from three to five. -/
def threeToFive : Range where
  primeStart := oddFrom 3
  primeEnd := oddUpTo 5
  odd_primeStart := odd_oddFrom 3
  odd_primeEnd := odd_oddUpTo 5
  three_le := le_max_right _ _
  lt := by decide
  primeEnd_lt := Nat.mod_lt _ (by decide)

/-- A worker of each stage deals with a request for a prime. -/
def dealtWith (worker : Frame) (id : UInt32) (n : ℕ) : List (Service.Event HttpRequestInfo) :=
  let info : WorkerInfo := { firstInfo 0 with id }
  let answered : WorkResult :=
    { intermediate := false
      messages := [render 200 "OK" (decimal n) info]
      heartBeat := [] }
  [.work 0 (.advertise worker), .work 0 (.forward (some (worker, 0)) none), .deliver 0 0 [],
    .work 0 (.forward none (some .null)), .work 0 (.take worker false),
    .work 0 (.finish worker (forwarded (.ofNat n)) info.bytes),
    .work 1 (.advertise worker), .work 1 (.forward (some (worker, 0)) none), .deliver 1 0 [],
    .work 1 (.forward none (some .null)), .work 1 (.take worker false),
    .work 1 (.finish worker answered { info with responseCode := 200 }.bytes)]

/-- The texts of the two requests. -/
def twoTexts : List Bytes := [3, 5].map fun n => ((asked n).toString .percent).toOption.getD []

/-- The requests arrive in two pieces, and the second one is answered first. -/
def twoPrimes : List (Service.Event HttpRequestInfo) :=
  let stream := twoTexts.flatten
  let sends : DequeueSends := ⟨.accepted, .accepted⟩
  let next : Service.Event HttpRequestInfo := .server (.next 100 .accepted .accepted sends)
  [.server (.message [1] [] .accepted), .server (.message [1] (stream.take 70) .accepted), next, next,
    .server (.message [1] (stream.drop 70) .accepted), next, next] ++
    dealtWith [9] 0 3 ++ dealtWith [8] 1 5 ++ [.receive 1 sends, .receive 0 sends]

/-- The client asks twice, and is then given both responses in two pieces. -/
def twoAnswers : List ClientInput :=
  let stream := told 5 ++ told 3
  (List.range 3).map (fun i => .request (threeToFive.request .percent i)) ++
    [.receive (stream.take 50), .receive (stream.drop 50)]

/-- `primes_of_service` for the numbers from three to five, the second of which is answered first. -/
theorem primes_of_service_twoPrimes :
    ∃ s c, run (Service.step (HttpRequestInfo.layoutIn .percent .insertion) defaults) (.start fun _ _ => []) twoPrimes =
        some s ∧
      run (Client.step httpClient threeToFive.collectFunction 8912) (.start httpClient 8912) twoAnswers = some c ∧
      c.control = .returned ∧
      (threeToFive.collected c.handed).primes = (Finset.Icc 3 5).filter fun n => n.Prime ∧ n ≠ 2 := by
  have hservice : (run (Service.step (HttpRequestInfo.layoutIn .percent .insertion) defaults) (.start fun _ _ => [])
      twoPrimes).map (fun s => s.machine.wire.filterMap (Action.textTo [1])) = some [told 5, told 3] := by
    decide +kernel
  obtain ⟨s, hs, htexts⟩ := Option.map_eq_some_iff.mp hservice
  have hproper : StepsMeet (Service.step (HttpRequestInfo.layoutIn .percent .insertion) defaults) (.start fun _ _ => [])
      twoPrimes (Service.Proper (works .percent .insertion 10) defaults) := by decide +kernel
  have hbatch : (run (Client.step httpClient threeToFive.collectFunction 8912) (.start httpClient 8912)
      twoAnswers).map (fun c => (c.control, c.sent)) = some (.returned, twoTexts) := by decide +kernel
  obtain ⟨c, hc, heq⟩ := Option.map_eq_some_iff.mp hbatch
  obtain ⟨hcontrol, hsent⟩ := Prod.mk.inj heq
  have hasks : twoAnswers.filterMap ClientInput.outcome = (List.range 3).map (threeToFive.request .percent) := by
    decide
  have hprompt : StepsMeet (Client.step httpClient threeToFive.collectFunction 8912) (.start httpClient 8912)
      twoAnswers (Client.Prompt httpClient) := by decide +kernel
  have hmode : Mode.ofArgument (ascii "3,5") = .ok (.batch threeToFive) := rfl
  have hbodies : twoPrimes.filterMap (Service.Event.messageOf [1]) =
      [] :: [twoTexts.flatten.take 70, twoTexts.flatten.drop 70] := by decide
  have hdelivers : Delivers c.sent.flatten (twoPrimes.filterMap (Service.Event.messageOf [1])) := by
    rw [hsent, hbodies]
    exact .streaming (by decide) (by decide)
  have hclock : ∀ now, .server (.timeouts now) ∈ twoPrimes → now < 2 ^ 32 := by
    have hnever : twoPrimes.filterMap Service.Event.timeoutsAt = [] := by decide
    intro now hnow
    rw [← Service.mem_timeoutsAt, hnever] at hnow
    cases hnow
  have hreceives : (twoAnswers.filterMap ClientInput.message).flatten <+:
      (s.machine.wire.filterMap (Action.textTo [1])).flatten := by
    rw [htexts]
    decide
  have hprimes := primes_of_service Curl.percent_documented hmode rfl rfl (by decide) hproper hs hclock hc hasks
    hprompt hdelivers hreceives
  exact ⟨s, c, hs, hc, hcontrol, hprimes.1 hcontrol⟩

end Primes

end PrimeServer
