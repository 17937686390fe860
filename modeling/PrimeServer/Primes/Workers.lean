import PrimeServer.Pipeline.Worker
import PrimeServer.Primes.Division
import PrimeServer.Server.Http

/-!
# The workers of `prime_serverd`

A worker that parses requests and forwards the numbers in them, and one that finds out whether a number is
prime and answers.

## Main results

* `Primes.computes_iff`: the compute stage answers right for the numbers from two on, and for no other;
* `Primes.right_iff`: the same for what the parse stage makes of a job.
-/

namespace PrimeServer

/-- `what()`. -/
def StdException.what : StdException → Bytes
  | .runtimeError what => ascii what
  | .stoul _ => ascii "stoul"

namespace Primes

/-- What a call of a work function does. -/
inductive Outcome where
  /-- It returns a result, and leaves this in the request info. -/
  | returned (result : WorkResult) (info : WorkerInfo)
  /-- A `request_exception_t` leaves it. -/
  | threw (e : HttpRequest.RequestException)
  /-- `throw` without an exception calls `std::terminate`. -/
  | terminated
  /-- It reads a frame that is not there. -/
  | undefined
  /-- A loop does not end. -/
  | diverged

/-- A response becomes the message of the result. -/
def respond (code : ℕ) (message : String) (body : Bytes) (info : WorkerInfo) : Outcome :=
  let response : HttpResponse :=
    { code, message := ascii message, body, headers := .empty, version := ascii "HTTP/1.1" }
  let (response, info) := response.fromInfo info
  .returned { intermediate := false, messages := [response.toString], heartBeat := [] } info

/-- The bytes of a `size_t` in memory. -/
def bytesOf (n : UInt64) : Frame := (List.range 8).map fun i => .ofNat (n.toNat / 256 ^ i)

/-- The result with which a number is forwarded. -/
def forwarded (n : UInt64) : WorkResult where
  intermediate := true
  messages := [bytesOf n]
  heartBeat := []

/-- The number in a request. `none` means that `std::terminate` is called. -/
def possiblePrime (request : HttpRequest) : Option (Except StdException ℕ) :=
  match request.method with
  | .get =>
    let usage := .runtimeError "GET requests should look like: 'is_prime?possible_prime=SOME_NUMBER'"
    if request.path ≠ ascii "/is_prime" then some (.error usage)
    else
      match request.query.find (ascii "possible_prime") with
      | some [value] => some ((stoul 10 value).mapError .stoul)
      | _ => some (.error usage)
  | .post =>
    let usage :=
      .runtimeError "POST requests should have a path of 'is_prime' and a body with 'SOME_NUMBER'"
    if request.body = [] then none else some ((stoul 10 request.body).mapError fun _ => usage)
  | _ => some (.error (.runtimeError "Only GET and POST requests supported"))

/-- The work function of the parse workers. -/
def parse (curl : Curl) (job : List Frame) (info : WorkerInfo) : Outcome :=
  match job with
  | [] => .undefined
  | text :: _ =>
    match HttpRequest.fromString curl text with
    | none => .diverged
    -- not derived from `std::exception`
    | some (.error (.request e)) => .threw e
    | some (.error (.std e)) => respond 400 "Bad Request" e.what info
    | some (.ok request) =>
      match possiblePrime request with
      | none => .terminated
      | some (.error e) => respond 400 "Bad Request" e.what info
      | some (.ok n) => .returned (forwarded (.ofNat n)) info

/-- The work function of the compute workers, with a limit on the turns of its loop. -/
def compute (turns : ℕ) (job : List Frame) (info : WorkerInfo) : Outcome :=
  match job with
  | [] => .undefined
  | number :: _ =>
    if number.length < 8 then .undefined
    else
      -- check if its prime
      let prime := jobOf number
      match divide prime turns (.start prime) with
      | none => .diverged
      | some s =>
        -- if it was prime send it back unmolested, else the sentinel value meaning not prime
        let prime := if s.divisor < s.high then sizeMax else prime.toNat
        respond 200 "OK" (decimal prime) info

/-- A number for itself if it is prime, and the sentinel value otherwise. -/
def verdict (n : UInt64) : ℕ := if n.toNat.Prime then n.toNat else sizeMax

/-- The compute stage ends for a number, with the right answer. -/
def Computes (n : UInt64) (info : WorkerInfo) : Prop :=
  ∃ turns, ∀ limit ≥ turns, compute limit (forwarded n).messages info =
    respond 200 "OK" (decimal (verdict n)) info

/-- What the parse stage forwards for a job is a number for which the compute stage ends, with the right
answer. -/
def Right (curl : Curl) (job : List Frame) (info : WorkerInfo) : Prop :=
  ∀ result info', parse curl job info = .returned result info' → result.intermediate = true →
    ∃ n, result = forwarded n ∧ Computes n info'

/-! ### The number on its way -/

/-- A number is forwarded in eight bytes. -/
@[simp]
theorem length_bytesOf (n : UInt64) : (bytesOf n).length = 8 := by
  simp [bytesOf]

/-- The compute worker reads the number that the parse worker wrote. -/
@[simp]
theorem jobOf_bytesOf (n : UInt64) : jobOf (bytesOf n) = n := by
  have hlt := n.toNat_lt
  apply UInt64.toNat_inj.mp
  simp only [jobOf, bytesOf, List.range, List.range.loop, List.map_cons, List.map_nil, List.take_succ_cons,
    List.take_nil, List.foldr_cons, List.foldr_nil, UInt8.toNat_ofNat', UInt64.toNat_ofNat']
  omega

/-! ### The body of a response -/

/-- The digits in front of a line end are those of the number. -/
theorem takeWhile_decimal (n : ℕ) (rest : Bytes) :
    (decimal n ++ (crlf ++ rest)).takeWhile isdigit = decimal n := by
  rw [List.takeWhile_append_of_pos fun _ hb => isdigit_of_mem_decimal hb]
  have hcrlf : (crlf ++ rest).takeWhile isdigit = [] := rfl
  rw [hcrlf, List.append_nil]

/-- The text of a response shows its body. -/
theorem generic_inj {code : ℕ} {message version : Bytes} {headers : Headers} {body body' : Bytes}
    (h : HttpResponse.generic code message headers body version =
      HttpResponse.generic code message headers body' version) : body = body' := by
  simp only [HttpResponse.generic, List.append_assoc, List.append_cancel_left_eq] at h
  have hlength := congrArg (List.takeWhile isdigit) h
  rw [takeWhile_decimal, takeWhile_decimal] at hlength
  rw [hlength] at h
  simpa using h

/-- Different bodies make different responses. -/
theorem respond_inj {code : ℕ} {message : String} {body body' : Bytes} {info : WorkerInfo}
    (h : respond code message body info = respond code message body' info) : body = body' := by
  have hresult := (Outcome.returned.inj h).1
  have hmessages := congrArg WorkResult.messages hresult
  exact generic_inj (List.cons.inj hmessages).1

/-! ### The verdict -/

/-- A compute worker reads the number that was forwarded to it. -/
theorem compute_forwarded (limit : ℕ) (n : UInt64) (info : WorkerInfo) :
    compute limit (forwarded n).messages info =
      match divide n limit (.start n) with
      | none => .diverged
      | some s => respond 200 "OK" (decimal (if s.divisor < s.high then sizeMax else n.toNat)) info := by
  simp [compute, forwarded]

/-- The compute stage ends for every number, with one of two answers. -/
theorem compute_spec (n : UInt64) (info : WorkerInfo) {limit : ℕ} (hlimit : n.toNat < limit) :
    ∃ s, Tried n s ∧ turn n s = none ∧ compute limit (forwarded n).messages info =
      respond 200 "OK" (decimal (if s.divisor < s.high then sizeMax else n.toNat)) info := by
  obtain ⟨turns, rfl⟩ : ∃ turns, limit = turns + 1 := ⟨limit - 1, by omega⟩
  have hturns : n.toNat ≤ turns + (Division.start n).divisor.toNat := by omega
  obtain ⟨s, hs, htried, hturn⟩ := divide_spec (tried_start n) hturns
  exact ⟨s, htried, hturn, by rw [compute_forwarded, hs]⟩

/-- The compute stage answers right exactly for the numbers from two on. -/
theorem computes_iff (n : UInt64) (info : WorkerInfo) : Computes n info ↔ 2 ≤ n.toNat := by
  constructor
  · rintro ⟨turns, hright⟩
    by_contra hsmall
    have hverdict : verdict n = sizeMax := if_neg fun hprime => hsmall hprime.two_le
    have hlimit : n.toNat < max turns (n.toNat + 1) := by omega
    obtain ⟨s, htried, -, hcompute⟩ := compute_spec n info hlimit
    -- the loop is not even entered
    have hleft : ¬ s.divisor < s.high := by
      have htwo := htried.two_le
      have hle := htried.high_le
      rw [UInt64.lt_iff_toNat_lt]
      omega
    rw [hright _ (le_max_left _ _), if_neg hleft, hverdict] at hcompute
    have hdecimal := congrArg (stoul 10) (respond_inj hcompute)
    rw [stoul_decimal (by decide), stoul_decimal n.toNat_lt] at hdecimal
    have hsentinel : sizeMax = n.toNat := Except.ok.inj hdecimal
    unfold sizeMax at hsentinel
    omega
  · intro htwo
    refine ⟨n.toNat + 1, fun limit hlimit => ?_⟩
    obtain ⟨s, htried, hturn, hcompute⟩ := compute_spec n info hlimit
    rw [hcompute, verdict]
    simp only [divisor_lt_high_iff htried hturn htwo, ite_not]

/-- What the parse stage forwards is a number. -/
theorem forwarded_of_parse {curl : Curl} {job : List Frame} {info info' : WorkerInfo}
    {result : WorkResult} (h : parse curl job info = .returned result info')
    (hforward : result.intermediate = true) : ∃ n, result = forwarded n := by
  have hanswer : ∀ body, respond 400 "Bad Request" body info ≠ .returned result info' := by
    intro body hrespond
    obtain rfl := (Outcome.returned.inj hrespond).1
    cases hforward
  unfold parse at h
  split at h
  case h_1 => cases h
  case h_2 text rest =>
    split at h
    case h_1 | h_2 => cases h
    case h_3 => exact absurd h (hanswer _)
    case h_4 request hread =>
      split at h
      case h_1 => cases h
      case h_2 => exact absurd h (hanswer _)
      case h_3 n hn => exact ⟨.ofNat n, (Outcome.returned.inj h).1.symm⟩

/-- Different numbers are forwarded as different messages. -/
theorem forwarded_injective : Function.Injective forwarded := by
  intro n n' h
  have hmessages := congrArg WorkResult.messages h
  have hbytes : bytesOf n = bytesOf n' := (List.cons.inj hmessages).1
  rw [← jobOf_bytesOf n, hbytes, jobOf_bytesOf]

/-- For each job, what the parse stage forwards is a number, and the compute stage ends with the right answer
if and only if that number is at least two. -/
theorem right_iff (curl : Curl) (job : List Frame) (info : WorkerInfo) :
    Right curl job info ↔
      ∀ n info', parse curl job info = .returned (forwarded n) info' → 2 ≤ n.toNat := by
  constructor
  · intro hright n info' hparse
    obtain ⟨n', hresult, hcomputes⟩ := hright _ info' hparse rfl
    rw [forwarded_injective hresult]
    exact (computes_iff n' info').mp hcomputes
  · intro htwo result info' hparse hforward
    obtain ⟨n, rfl⟩ := forwarded_of_parse hparse hforward
    exact ⟨n, rfl, (computes_iff n info').mpr (htwo n info' hparse)⟩

/-- A GET request with the number 0. -/
def zeroRequest : Bytes := ascii "GET /is_prime?possible_prime=0 HTTP/1.1\r\n\r\n"

/-- Zero is sent back unmolested. -/
theorem not_right : ¬ ∀ (curl : Curl) (job : List Frame) (info : WorkerInfo), Right curl job info := by
  intro hright
  let info : WorkerInfo :=
    { id := 0
      timeStamp := 100
      version := 1
      connectionKeepAlive := false
      connectionClose := false
      responseCode := 0 }
  have hnumber : (HttpRequest.fromString .percent zeroRequest).map (Except.map possiblePrime) =
      some (.ok (some (.ok 0))) := by decide
  have hparse : parse .percent [zeroRequest] info = .returned (forwarded 0) info := by
    obtain ⟨read, hread, hnumber⟩ := Option.map_eq_some_iff.mp hnumber
    cases read with
    | error => cases hnumber
    | ok request =>
      have hprime : possiblePrime request = some (.ok 0) := Except.ok.inj hnumber
      simp only [parse, hread, hprime]
      rfl
  obtain ⟨n, hresult, hcomputes⟩ := hright .percent [zeroRequest] info _ _ hparse rfl
  obtain rfl := forwarded_injective hresult
  exact absurd ((computes_iff 0 info).mp hcomputes) (by decide)

end Primes

end PrimeServer
