import Mathlib.Order.Interval.Finset.Nat
import Mathlib.Tactic.NormNum.Prime
import PrimeServer.Client.Counting
import PrimeServer.Http.Endings
import PrimeServer.Http.RoundTrip
import PrimeServer.Http.Splitting
import PrimeServer.Primes.Service

/-!
# The batch mode of `prime_serverd`

Given two numbers, `prime_serverd` is its own client: it asks for each odd number between them and collects
the primes that come back.

## Main results

* `Primes.primes_of_batch`: if the requests are answered, in whatever order the answers come back and however
  they are cut into messages, `batch` returns with all primes between the two numbers, except for two.
-/

namespace PrimeServer

open Transition Automaton

namespace Primes

/-! ### The range -/

/-- The odd numbers from `prime_start` to `prime_end`. -/
structure Range where
  /-- The first number that the client asks about. -/
  primeStart : ℕ
  /-- The last number. -/
  primeEnd : ℕ
  /-- An even start is raised by one. -/
  odd_primeStart : primeStart % 2 = 1
  /-- An even end is lowered by one, so that the numbers reach it in steps of two. -/
  odd_primeEnd : primeEnd % 2 = 1
  /-- No number below three is asked about. -/
  three_le : 3 ≤ primeStart
  /-- The check of the range. -/
  lt : primeStart < primeEnd
  /-- The numbers fit a `size_t`. -/
  primeEnd_lt : primeEnd < 2 ^ 64
  deriving DecidableEq

/-- `prime_start`, for the number that was given. -/
def oddFrom (given : ℕ) : ℕ := max (given + if given % 2 = 0 then 1 else 0) 3

/-- `prime_end`, for the number that was given. Before 0 comes the last number of 64 bits. -/
def oddUpTo (given : ℕ) : ℕ := (given + (2 ^ 64 - if given % 2 = 0 then 1 else 0)) % 2 ^ 64

/-- The first number to ask for is odd. -/
theorem odd_oddFrom (given : ℕ) : oddFrom given % 2 = 1 := by
  unfold oddFrom
  split_ifs <;> omega

/-- The last number to ask for is odd. -/
theorem odd_oddUpTo (given : ℕ) : oddUpTo given % 2 = 1 := by
  unfold oddUpTo
  split_ifs <;> omega

/-- What the first argument of `prime_serverd` asks for. -/
inductive Mode where
  | daemon (serverEndpoint : Bytes)
  | batch (range : Range)
  /-- It is no valid range. -/
  | invalid
  deriving DecidableEq

/-- `argv1.substr(0, argv1.find(','))`. -/
def startText (argv1 : Bytes) : Bytes := (splitAt (byte ',') argv1).elim argv1 Prod.fst

/-- `argv1.substr(argv1.find(',') + 1)`: without a comma it is all of the text. -/
def endText (argv1 : Bytes) : Bytes := (splitAt (byte ',') argv1).elim argv1 Prod.snd

/-- The first argument is read. -/
def Mode.ofArgument (argv1 : Bytes) : Except StoulError Mode :=
  if ascii "://" <:+: argv1 then .ok (.daemon argv1)
  else do
    let first ← stoul 10 (startText argv1)
    let last ← stoul 10 (endText argv1)
    if h : oddFrom first < oddUpTo last then
      return .batch
        { primeStart := oddFrom first
          primeEnd := oddUpTo last
          odd_primeStart := odd_oddFrom first
          odd_primeEnd := odd_oddUpTo last
          three_le := le_max_right _ _
          lt := h
          primeEnd_lt := Nat.mod_lt _ (by decide) }
    else return .invalid

namespace Range

/-- The number of requests. -/
def requests (range : Range) : ℕ := (range.primeEnd - range.primeStart) / 2 + 1

/-- The number that is asked for when this many requests were produced before. -/
def number (range : Range) (producedRequests : ℕ) : ℕ := range.primeStart + 2 * producedRequests

/-- What `to_string` is called with. -/
def asked (n : ℕ) : HttpRequest where
  method := .get
  path := ascii "/is_prime?possible_prime=" ++ decimal n
  query := .empty
  body := []
  headers := .empty
  version := ascii "HTTP/1.1"
  logLine := []

/-- The request function. -/
def request (curl : Curl) (range : Range) (producedRequests : ℕ) : Requested :=
  if producedRequests < range.requests then
    match (asked (range.number producedRequests)).toString curl with
    | .ok request => .request request
    | .error _ => .threw .std
  -- blank request means we are done
  else .nothing

/-- What the collect function captures. -/
structure Collected where
  /-- The set that the program prints. -/
  primes : Finset ℕ
  /-- How many results have come in. -/
  collectedResults : ℕ

/-- `stoul(response_str.substr(response_str.rfind('\n')))`, with `none` where it throws. -/
def resultNumber (response : Bytes) : Option ℕ :=
  if byte '\n' ∈ response then
    (stoul 10 (byte '\n' :: response.rtakeWhile (· ≠ byte '\n'))).toOption
  else none

/-- A call of the collect function. -/
def collect (range : Range) (s : Collected) (response : Bytes) : Collected × Bool :=
  let primes :=
    match resultNumber response with
    | some number => if number ≠ sizeMax then insert number s.primes else s.primes
    | none => s.primes
  ({ primes, collectedResults := s.collectedResults + 1 }, s.collectedResults + 1 < range.requests)

/-- What was collected from the responses. -/
def collected (range : Range) (handed : List Bytes) : Collected :=
  handed.foldl (fun s response => (range.collect s response).1) { primes := ∅, collectedResults := 0 }

/-- The collect function. -/
def collectFunction (range : Range) : Collect := fun handed response =>
  .ok (range.collect (range.collected handed) response).2

end Range

/-! ### What is collected -/

namespace Range

variable {range : Range}

/-- A response is collected after those before it. -/
theorem collected_append_singleton (handed : List Bytes) (response : Bytes) :
    range.collected (handed ++ [response]) = (range.collect (range.collected handed) response).1 := by
  simp [collected]

/-- Each response is counted, also one without a prime. -/
theorem collectedResults_collected (handed : List Bytes) :
    (range.collected handed).collectedResults = handed.length := by
  induction handed using List.reverseRecOn with
  | nil => rfl
  | append_singleton handed response ih =>
    rw [collected_append_singleton, List.length_append, ← ih]
    rfl

/-- The collect function counts. -/
theorem counts_collectFunction : range.collectFunction.Counts range.requests := by
  intro handed response
  rw [← collectedResults_collected]
  rfl

/-- A number is found if it is in a response, unless it is the sentinel. -/
theorem mem_primes_collected {handed : List Bytes} {n : ℕ} :
    n ∈ (range.collected handed).primes ↔
      n ≠ sizeMax ∧ ∃ response ∈ handed, resultNumber response = some n := by
  induction handed using List.reverseRecOn with
  | nil => simp [collected]
  | append_singleton handed response ih =>
    rw [collected_append_singleton]
    simp only [collect, List.mem_append, List.mem_singleton, or_and_right, exists_or, exists_eq_left]
    cases hresponse : resultNumber response with
    | none => simpa using ih
    | some number =>
      simp only [Option.some.injEq]
      by_cases hsentinel : number = sizeMax
      · subst hsentinel
        simp only [ne_eq, not_true_eq_false, if_false, ih]
        constructor
        · exact fun h => ⟨h.1, Or.inl h.2⟩
        · rintro ⟨hne, hbefore | rfl⟩
          · exact ⟨hne, hbefore⟩
          · exact absurd rfl hne
      · simp only [ne_eq, hsentinel, not_false_eq_true, if_true, Finset.mem_insert, ih]
        constructor
        · rintro (rfl | h)
          · exact ⟨hsentinel, Or.inr rfl⟩
          · exact ⟨h.1, Or.inl h.2⟩
        · rintro ⟨hne, hbefore | rfl⟩
          · exact Or.inr ⟨hne, hbefore⟩
          · exact Or.inl rfl

end Range

variable {curl : Curl}

/-! ### What is asked -/

namespace Range

/-- What a worker reads of the text. -/
def parsed (n : ℕ) : HttpRequest :=
  { asked n with
    path := ascii "/is_prime"
    query := AssocMap.empty.insert (ascii "possible_prime") [decimal n] }

/-- The request that is asked and the one that is parsed are written in the same way. -/
theorem toString_parsed (n : ℕ) : (parsed n).toString curl = (asked n).toString curl := by
  have hquery : (parsed n).pathQuery = (asked n).pathQuery := rfl
  unfold HttpRequest.toString
  rw [hquery]
  rfl

/-- Only digits are written for a number. -/
theorem not_mem_decimal {c : UInt8} (hc : isdigit c = false) (n : ℕ) : c ∉ decimal n := by
  intro hmem
  simp [isdigit_of_mem_decimal hmem] at hc

/-- The target of a request for a number can be written and read back. -/
theorem isTarget_parsed (n : ℕ) : IsTarget (parsed n).path (parsed n).query where
  question := by
    show byte '?' ∉ ascii "/is_prime"
    decide
  zero := by
    show 0 ∉ ascii "/is_prime"
    decide
  readable := by
    intro e he
    obtain rfl : e = (ascii "possible_prime", [decimal n]) := List.mem_singleton.mp he
    refine ⟨List.cons_ne_nil _ _, fun v hv => ?_⟩
    obtain rfl : v = decimal n := List.mem_singleton.mp hv
    refine ⟨⟨?_, ?_, not_mem_decimal (by decide) n⟩, ?_, not_mem_decimal (by decide) n⟩
    · show byte '&' ∉ ascii "possible_prime"
      decide
    · show byte '=' ∉ ascii "possible_prime"
      decide
    · show 0 ∉ ascii "possible_prime"
      decide

/-- A request for a number is read as it was written. -/
theorem readable_parsed {n : ℕ} (hn : n < 2 ^ 64) : (parsed n).Readable where
  isRequest := by
    refine ⟨?_, isTarget_parsed n, fun e he => absurd he List.not_mem_nil⟩
    show ascii "HTTP/1.1" ∈ supportedVersions
    decide
  query := List.cons_ne_nil _ _
  framed := by
    intro _
    show (AssocMap.empty : Headers).find (ascii "Transfer-Encoding") ≠ some (ascii "chunked")
    decide
  short := by
    have hlength : (parsed n).pathQuery.length = 25 + (decimal n).length := by
      show (ascii "/is_prime?possible_prime=" ++ decimal n).length = _
      rw [List.length_append]
      rfl
    have hencoded := length_percentEncode_le (parsed n).pathQuery
    have hdecimal := length_decimal_le hn
    omega

/-- A worker finds the number in the text of a request. -/
theorem exists_text (hcurl : curl.Documented) {n : ℕ} (hn : n < 2 ^ 64) :
    ∃ text request, (asked n).toString curl = .ok text ∧ HttpRequest.fromString curl text = some (.ok request) ∧
      possiblePrime request = some (.ok n) := by
  obtain ⟨text, logLine, htext, t, hstream, -⟩ := (readable_parsed hn).exists_oneMessage hcurl
  refine ⟨text, _, by rw [← toString_parsed, htext], HttpRequest.fromString_of_returned hstream, ?_⟩
  show some ((stoul 10 (decimal n)).mapError StdException.stoul) = _
  rw [stoul_decimal hn]
  rfl

end Range

/-! ### What is answered -/

variable {info : WorkerInfo}

/-- The response that a worker renders. -/
def rendered (code : ℕ) (message : String) (body : Bytes) (info : WorkerInfo) : HttpResponse :=
  (HttpResponse.fromInfo { code, message := ascii message, body, headers := .empty, version := ascii "HTTP/1.1" }
    info).1

/-- The header that a response without others gets from the request info. -/
def connection (keepAlive close : Bool) : Headers :=
  let headers : Headers :=
    if keepAlive then AssocMap.empty.insert (ascii "Connection") (ascii "Keep-Alive") else .empty
  if close then headers.insert (ascii "Connection") (ascii "Close") else headers

/-- What a response has from the request info is harmless. -/
theorem plain_rendered (code : ℕ) {message : String} {body : Bytes} (info : WorkerInfo)
    (hmessage : OneLine (ascii message)) (hbody : body.length < 2 ^ 64) :
    (rendered code message body info).Plain where
  version := by
    show OneLine (if info.version ≠ 0 then ascii "HTTP/1.1" else ascii "HTTP/1.0")
    split_ifs <;> decide
  message := hmessage
  headers := by
    have hheaders : ∀ keepAlive close : Bool, ∀ header ∈ (connection keepAlive close).entries,
        OneLine header.1 ∧ byte ':' ∉ header.1 ∧ OneLine header.2 := by decide
    exact hheaders info.connectionKeepAlive info.connectionClose
  body := hbody

/-- A rendered response has one header at most, so that every iteration order makes the same text of it. -/
theorem toStringIn_rendered (headerOrder : AssocMap.Order caseless Bytes) (code : ℕ) (message : String)
    (body : Bytes) (info : WorkerInfo) :
    (rendered code message body info).toStringIn headerOrder = render code message body info := by
  have hone : ∀ keepAlive close : Bool, (connection keepAlive close).entries.length ≤ 1 := by decide
  exact HttpResponse.toStringIn_eq headerOrder (hone info.connectionKeepAlive info.connectionClose)

/-- A rendered response is one response for the client, if its body is not too long to be announced. -/
theorem spans_render (code : ℕ) {message : String} {body : Bytes} (info : WorkerInfo)
    (hmessage : OneLine (ascii message)) (hbody : body.length < 2 ^ 64) :
    Spans Scanner.step Scanner.start (render code message body info) Scanner.start :=
  (plain_rendered code info hmessage hbody).spans

/-- What `rfind` cuts off. -/
theorem rtakeWhile_append {c : UInt8} {body : Bytes} (hbody : c ∉ body) (front : Bytes) :
    (front ++ c :: body).rtakeWhile (· ≠ c) = body := by
  have hall : ∀ b ∈ body.reverse, decide (b ≠ c) = true := by
    intro b hb
    have hne : b ≠ c := fun h => hbody (h ▸ List.mem_reverse.mp hb)
    simpa using hne
  rw [List.rtakeWhile, List.reverse_append, List.reverse_cons, List.append_assoc,
    List.takeWhile_append_of_pos hall]
  simp

/-- Space in front of a number is skipped. -/
theorem stoul_cons_of_isspace {b : UInt8} (h : isspace b = true) (s : Bytes) :
    stoul 10 (b :: s) = stoul 10 s := by
  rw [stoul, stoul, List.dropWhile_cons_of_pos h]

/-- The number is what comes after the last line end. -/
theorem resultNumber_render {n : ℕ} (hn : n < 2 ^ 64) :
    Range.resultNumber (render 200 "OK" (decimal n) info) = some n := by
  have hshape : ∃ front, render 200 "OK" (decimal n) info = front ++ byte '\n' :: decimal n := by
    have hcrlf : crlf = [byte '\r'] ++ [byte '\n'] := by decide
    show ∃ front, _ ++ crlf ++ decimal n = front ++ ([byte '\n'] ++ decimal n)
    rw [hcrlf]
    exact ⟨_, by simp only [← List.append_assoc]; rfl⟩
  obtain ⟨front, hfront⟩ := hshape
  have hmem : byte '\n' ∈ front ++ byte '\n' :: decimal n := by simp
  rw [hfront, Range.resultNumber, if_pos hmem, rtakeWhile_append (Range.not_mem_decimal (by decide) n),
    stoul_cons_of_isspace (by decide), stoul_decimal hn]
  rfl

/-- From three on, no answer but the number itself says that it is prime. -/
theorem answer_eq_iff {m n : ℕ} (hm : 3 ≤ m) (hn : n ≠ sizeMax) : answer m = n ↔ m = n ∧ n.Prime := by
  have htwo : ¬ m < 2 := by omega
  rw [answer, if_neg htwo]
  split_ifs with hprime
  · constructor
    · rintro rfl
      exact ⟨rfl, hprime⟩
    · exact And.left
  · constructor
    · exact fun h => absurd h.symm hn
    · rintro ⟨rfl, h⟩
      exact absurd h hprime

/-- The number that stands for "not a prime" is none, so that it is never taken for an answer. -/
theorem not_prime_sizeMax : ¬ sizeMax.Prime := by
  intro h
  have hthree : (3 : ℕ) ∣ sizeMax := by decide
  rcases (Nat.dvd_prime h).mp hthree with hone | hself
  · exact absurd hone (by decide)
  · exact absurd hself (by decide)

/-- The answer for a number fits into 64 bits again. -/
theorem answer_lt {m : ℕ} (hm : m < 2 ^ 64) : answer m < 2 ^ 64 := by
  unfold answer
  split_ifs
  · exact hm
  · exact hm
  · decide

namespace Range

variable {range : Range}

/-- Each number that is asked for fits into 64 bits. -/
theorem number_lt {i : ℕ} (hi : i < range.requests) : range.number i < 2 ^ 64 := by
  have hlt := range.lt
  have hend := range.primeEnd_lt
  have hodd := range.odd_primeStart
  have hodd' := range.odd_primeEnd
  unfold requests at hi
  unfold number
  omega

/-- Two is never asked for. -/
theorem three_le_number (i : ℕ) : 3 ≤ range.number i :=
  range.three_le.trans (Nat.le_add_right _ _)

/-- The primes that are asked for. -/
theorem exists_number_iff {n : ℕ} (hprime : n.Prime) :
    (∃ i < range.requests, range.number i = n) ↔ range.primeStart ≤ n ∧ n ≤ range.primeEnd := by
  have hlt := range.lt
  have hodd := range.odd_primeStart
  have hodd' := range.odd_primeEnd
  unfold requests number
  constructor
  · rintro ⟨i, hi, rfl⟩
    omega
  · rintro ⟨hstart, hend⟩
    have hn : n % 2 = 1 := hprime.eq_two_or_odd.resolve_left (by have := range.three_le; omega)
    exact ⟨(n - range.primeStart) / 2, by omega, by omega⟩

/-- What is sent are the texts of the first few numbers. -/
theorem sent_of_asks (range : Range) (hcurl : curl.Documented) (calls : ℕ) :
    List.Forall₂ (fun i text => i < range.requests ∧ (asked (range.number i)).toString curl = .ok text)
      (List.range (min calls range.requests))
      (((List.range calls).map (request curl range)).filterMap Requested.text) := by
  induction calls with
  | zero => simp
  | succ calls ih =>
    rw [List.range_succ, List.map_append, List.filterMap_append, List.map_singleton]
    by_cases hmore : calls < range.requests
    · obtain ⟨text, _, htext, -⟩ := exists_text hcurl (number_lt hmore)
      have hmin : min (calls + 1) range.requests = min calls range.requests + 1 := by omega
      have hcalls : min calls range.requests = calls := by omega
      have hlast : [request curl range calls].filterMap Requested.text = [text] := by
        simp [request, hmore, htext, Requested.text]
      rw [hlast, hmin, List.range_succ]
      refine List.rel_append ih ?_
      rw [hcalls]
      exact .cons ⟨hmore, htext⟩ .nil
    · have hmin : min (calls + 1) range.requests = min calls range.requests := by omega
      have hlast : [request curl range calls].filterMap Requested.text = [] := by
        simp [request, hmore, Requested.text]
      rw [hlast, hmin, List.append_nil]
      exact ih

/-- What a client should be told about the text of a request. -/
theorem says_iff (hcurl : curl.Documented) {n : ℕ} (hn : n < 2 ^ 64) {text body : Bytes}
    (htext : (asked n).toString curl = .ok text) :
    Says curl text info body ↔ body = render 200 "OK" (decimal (answer n)) info := by
  obtain ⟨text', request, htext', hread, hnumber⟩ := exists_text hcurl hn
  obtain rfl : text = text' := Except.ok.inj (htext.symm.trans htext')
  constructor
  · intro htold
    cases htold with
    | number hread' hnumber' =>
      obtain rfl := Except.ok.inj (Option.some.inj (hread.symm.trans hread'))
      obtain rfl := Except.ok.inj (Option.some.inj (hnumber.symm.trans hnumber'))
      rfl
    | noRequest hread' => cases Option.some.inj (hread.symm.trans hread')
    | noNumber hread' hnumber' =>
      obtain rfl := Except.ok.inj (Option.some.inj (hread.symm.trans hread'))
      cases Option.some.inj (hnumber.symm.trans hnumber')
  · rintro rfl
    exact .number hread hnumber

/-- Each answer is one response, with the answer for its number. -/
theorem told_of_answers (hcurl : curl.Documented) {is : List ℕ} {texts answers : List Bytes}
    (hsent : List.Forall₂
      (fun i text => i < range.requests ∧ (asked (range.number i)).toString curl = .ok text) is texts)
    (hanswers : List.Forall₂ (fun text body => ∃ info, Says curl text info body) texts answers) :
    (∀ body ∈ answers, Spans Scanner.step Scanner.start body Scanner.start) ∧
      answers.map resultNumber = is.map fun i => some (answer (range.number i)) := by
  induction hsent generalizing answers with
  | nil =>
    cases hanswers
    exact ⟨by simp, rfl⟩
  | @cons i text is texts hfirst hsent ih =>
    obtain ⟨hi, htext⟩ := hfirst
    cases hanswers with
    | @cons _ body _ answers hbody hanswers =>
      obtain ⟨info, htold⟩ := hbody
      have hn := number_lt hi
      have hdecimal : (decimal (answer (range.number i))).length < 2 ^ 64 :=
        (length_decimal_le (answer_lt hn)).trans_lt (by decide)
      obtain rfl := (says_iff hcurl hn htext).mp htold
      obtain ⟨hspans, hnumbers⟩ := ih hanswers
      constructor
      · rw [List.forall_mem_cons]
        exact ⟨spans_render 200 info (by decide) hdecimal, hspans⟩
      · rw [List.map_cons, List.map_cons, hnumbers, resultNumber_render (answer_lt hn)]

/-- The range that is asked for is the one of the argument, made odd at both ends. -/
theorem of_ofArgument {argv1 : Bytes} (hmode : Mode.ofArgument argv1 = .ok (.batch range)) {first last : ℕ}
    (hfirst : stoul 10 (startText argv1) = .ok first) (hlast : stoul 10 (endText argv1) = .ok last) :
    range.primeStart = oddFrom first ∧ range.primeEnd = oddUpTo last := by
  unfold Mode.ofArgument at hmode
  split_ifs at hmode
  · cases hmode
  · rw [hfirst, hlast] at hmode
    by_cases hlt : oddFrom first < oddUpTo last
    · obtain rfl : _ = range := by simpa [hlt, pure, Except.pure, bind, Except.bind] using hmode
      exact ⟨rfl, rfl⟩
    · simp [hlt, pure, Except.pure, bind, Except.bind] at hmode

/-- The primes of the range are those between the two numbers, except for two. -/
theorem range_iff {first last n : ℕ} (hprime : n.Prime) (hlast : last ≠ 0) (hlt : last < 2 ^ 64) :
    oddFrom first ≤ n ∧ n ≤ oddUpTo last ↔ n ≠ 2 ∧ first ≤ n ∧ n ≤ last := by
  unfold oddFrom oddUpTo
  have htwo := hprime.two_le
  rcases hprime.eq_two_or_odd with rfl | hodd
  · simp
  · split_ifs <;> omega

end Range

open Range

variable {range : Range} {argv1 : Bytes} {first last calls : ℕ} {inputs : List ClientInput} {c : Client HttpClient}
  {answers replies : List Bytes}

/-- A client that finds the answers to all of its requests in the stream, in whatever order, returns when it has
found the last one, with the primes. -/
theorem primes_of_replies (hmode : Mode.ofArgument argv1 = .ok (.batch range))
    (hfirst : stoul 10 (startText argv1) = .ok first) (hlast : stoul 10 (endText argv1) = .ok last)
    (hpos : last ≠ 0)
    (hrun : run (Client.step httpClient range.collectFunction 8912) (.start httpClient 8912) inputs = some c)
    (hprompt : StepsMeet (Client.step httpClient range.collectFunction 8912) (.start httpClient 8912) inputs
      (Client.Prompt httpClient))
    (hspans : ∀ body ∈ replies, Spans Scanner.step Scanner.start body Scanner.start)
    (hnumbers : (replies.map resultNumber).Perm
      ((List.range (min calls range.requests)).map fun i => some (answer (range.number i))))
    (hstream : (inputs.filterMap ClientInput.message).flatten <+: replies.flatten) :
    (c.control = .returned →
      (range.collected c.handed).primes = (Finset.Icc first last).filter fun n => n.Prime ∧ n ≠ 2) ∧
    (range.requests ≤ calls → (inputs.filterMap ClientInput.message).flatten = replies.flatten →
      c.control = .returned) := by
  -- the client finds the replies in the stream, one after another
  have hwhole := run_spanStep_flatten hspans
  obtain ⟨rest, hrest⟩ := hstream
  have haccepted : Automaton.run (spanStep Scanner.step) (Scanner.start, [])
      ((inputs.filterMap ClientInput.message).flatten ++ rest) ≠ none := by
    rw [hrest, hwhole]
    exact Option.some_ne_none _
  have hcounted := Client.counted_of_run HttpClient.scans counts_collectFunction (Nat.succ_pos _) (by decide)
    Scanner.valid_start rfl hrun hprompt haccepted
  obtain ⟨hinv, hfound, -, -, hreturned⟩ := hcounted
  have hall := hwhole
  rw [← hrest, Automaton.run_append_of_run hfound] at hall
  obtain ⟨⟨u, later⟩, hlater, heq⟩ := Option.map_eq_some_iff.mp hall
  obtain rfl : c.handed ++ later = replies := (Prod.mk.inj heq).2
  have hlength : c.handed.length + later.length = min calls range.requests := by
    simpa using hnumbers.length_eq
  constructor
  · intro hcontrol
    have hrequests := hreturned.mp hcontrol
    -- all requests are sent and answered
    obtain rfl : later = [] := by
      rw [← List.length_eq_zero_iff]
      omega
    have hmin : min calls range.requests = range.requests := by omega
    rw [hmin, List.append_nil] at hnumbers
    obtain ⟨hstart, hend⟩ := of_ofArgument hmode hfirst hlast
    ext n
    have hfinds : (∃ response ∈ c.handed, resultNumber response = some n) ↔
        ∃ i < range.requests, answer (range.number i) = n := by
      rw [← List.mem_map, hnumbers.mem_iff]
      simp
    rw [mem_primes_collected, Finset.mem_filter, Finset.mem_Icc, hfinds]
    constructor
    · rintro ⟨hne, i, hi, hanswer⟩
      obtain ⟨hnumber, hprime⟩ := (answer_eq_iff (three_le_number i) hne).mp hanswer
      have hrange := (exists_number_iff hprime).mp ⟨i, hi, hnumber⟩
      rw [hstart, hend, range_iff hprime hpos (stoul_lt hlast)] at hrange
      exact ⟨hrange.2, hprime, hrange.1⟩
    · rintro ⟨hbetween, hprime, htwo⟩
      have hrange := (range_iff hprime hpos (stoul_lt hlast)).mpr ⟨htwo, hbetween⟩
      rw [← hstart, ← hend] at hrange
      obtain ⟨i, hi, hnumber⟩ := (exists_number_iff hprime).mpr hrange
      have hne : n ≠ sizeMax := fun h => not_prime_sizeMax (h ▸ hprime)
      exact ⟨hne, i, hi, (answer_eq_iff (three_le_number i) hne).mpr ⟨hnumber, hprime⟩⟩
  · intro hsentAll hreceived
    obtain rfl : rest = [] := by
      rw [hreceived] at hrest
      simpa using hrest
    obtain ⟨-, rfl⟩ := Prod.mk.inj (Option.some.inj hlater)
    apply hreturned.mpr
    rw [List.length_nil] at hlength
    omega

/-- If the requests that were sent are answered, in whatever order, and the first message of each round
completes a response, then `batch` returns with all primes between the two numbers, except for two. It does
return when all requests are answered. -/
theorem primes_of_batch (hcurl : curl.Documented) (hmode : Mode.ofArgument argv1 = .ok (.batch range))
    (hfirst : stoul 10 (startText argv1) = .ok first) (hlast : stoul 10 (endText argv1) = .ok last)
    (hpos : last ≠ 0)
    (hrun : run (Client.step httpClient range.collectFunction 8912) (.start httpClient 8912) inputs = some c)
    (hasks : inputs.filterMap ClientInput.outcome = (List.range calls).map (range.request curl))
    (hprompt : StepsMeet (Client.step httpClient range.collectFunction 8912) (.start httpClient 8912) inputs
      (Client.Prompt httpClient))
    (hanswers : List.Forall₂ (fun text body => ∃ info, Says curl text info body) c.sent answers)
    (hreplies : replies.Perm answers)
    (hstream : (inputs.filterMap ClientInput.message).flatten <+: replies.flatten) :
    (c.control = .returned →
      (range.collected c.handed).primes = (Finset.Icc first last).filter fun n => n.Prime ∧ n ≠ 2) ∧
    (c.sent.length = range.requests → (inputs.filterMap ClientInput.message).flatten = replies.flatten →
      c.control = .returned) := by
  have hsent := sent_of_asks range hcurl calls
  rw [← hasks, ← Client.sent_of_run hrun] at hsent
  obtain ⟨hspans, hnumbers⟩ := told_of_answers hcurl hsent hanswers
  have hreplied : (replies.map resultNumber).Perm
      ((List.range (min calls range.requests)).map fun i => some (answer (range.number i))) := by
    rw [← hnumbers]
    exact hreplies.map resultNumber
  -- a request has been made by each call that did not come too late
  have hcalls : min calls range.requests = c.sent.length := by
    rw [← hsent.length_eq, List.length_range]
  obtain ⟨hprimes, hreturns⟩ := primes_of_replies hmode hfirst hlast hpos hrun hprompt
    (fun body hbody => hspans body (hreplies.mem_iff.mp hbody)) hreplied hstream
  exact ⟨hprimes, fun hall => hreturns (by omega)⟩

/-- A response with a number. -/
def told (n : ℕ) : Bytes := render 200 "OK" (decimal n) (firstInfo 0)

/-- The odd numbers from four to ten. -/
def fourToTen : Range where
  primeStart := 5
  primeEnd := 9
  odd_primeStart := rfl
  odd_primeEnd := rfl
  three_le := by decide
  lt := by decide
  primeEnd_lt := by decide

/-- The number nine is answered first, and the answer for five is cut. -/
def threeRequests : List ClientInput :=
  let stream := told sizeMax ++ told 5 ++ told 7
  (List.range 4).map (fun i => .request (fourToTen.request .percent i)) ++
    [.receive (stream.take 70), .receive (stream.drop 70)]

/-- `primes_of_batch` for the numbers from four to ten, with three requests. -/
theorem primes_of_batch_threeRequests :
    ∃ c, run (Client.step httpClient fourToTen.collectFunction 8912) (.start httpClient 8912) threeRequests =
        some c ∧ c.control = .returned ∧
      (fourToTen.collected c.handed).primes = (Finset.Icc 4 10).filter fun n => n.Prime ∧ n ≠ 2 := by
  have hends : (run (Client.step httpClient fourToTen.collectFunction 8912) (.start httpClient 8912)
      threeRequests).map Client.control = some .returned := by decide
  obtain ⟨c, hrun, hcontrol⟩ := Option.map_eq_some_iff.mp hends
  have hasks : threeRequests.filterMap ClientInput.outcome = (List.range 4).map (fourToTen.request .percent) := by
    decide
  have hprompt : StepsMeet (Client.step httpClient fourToTen.collectFunction 8912) (.start httpClient 8912)
      threeRequests (Client.Prompt httpClient) := by decide
  -- each of the three is told what it should be
  have hfive : answer 5 = 5 := by norm_num [answer]
  have hseven : answer 7 = 7 := by norm_num [answer]
  have hnine : answer 9 = sizeMax := by norm_num [answer]
  have hsent := sent_of_asks fourToTen Curl.percent_documented 4
  rw [← hasks, ← Client.sent_of_run hrun] at hsent
  have hanswers : List.Forall₂ (fun text body => ∃ info, Says .percent text info body) c.sent
      [told 5, told 7, told sizeMax] := by
    have hmap : [told 5, told 7, told sizeMax] =
        (List.range 3).map fun i => told (answer (fourToTen.number i)) := by
      show _ = [told (answer 5), told (answer 7), told (answer 9)]
      rw [hfive, hseven, hnine]
    rw [hmap, List.forall₂_map_right_iff]
    refine List.Forall₂.flip (hsent.imp ?_)
    rintro i text ⟨hi, htext⟩
    exact ⟨firstInfo 0, (says_iff Curl.percent_documented (number_lt hi) htext).mpr rfl⟩
  have hreplies : ([told sizeMax] ++ [told 5, told 7]).Perm ([told 5, told 7] ++ [told sizeMax]) :=
    List.perm_append_comm
  have hstream : (threeRequests.filterMap ClientInput.message).flatten = [told sizeMax, told 5, told 7].flatten := by
    decide
  have hmode : Mode.ofArgument (ascii "4,10") = .ok (.batch fourToTen) := rfl
  have hbatch := primes_of_batch Curl.percent_documented hmode rfl rfl (by decide) hrun hasks hprompt hanswers
    hreplies (hstream ▸ List.prefix_rfl)
  exact ⟨c, hrun, hcontrol, hbatch.1 hcontrol⟩

end Primes

end PrimeServer
