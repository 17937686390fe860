import PrimeServer.Http.Intake
import PrimeServer.Http.Percent

/-!
# The size limit of a request

`from_stream` bails out when `consumed + partial_buffer.size() + body_length` exceeds the limit. The
sum is taken modulo `2 ^ 64`, and `consumed` counts no more of a token than what came with the call
that completed it.

## Main results

* `Intake.sum_exact_iff`: the sum is exact throughout a run if and only if no declared length takes it
  past `2 ^ 64`;
* `Intake.received_le`: while the sum is exact and no token but the last of a request is cut between
  calls, a request never has more than the limit and one message of bytes.
-/

namespace PrimeServer

open Chunking Transition

namespace RequestParser

/-- The sum at the top of the loop is what it would be without a bound on `size_t`. -/
def SumExact (p : RequestParser) : Prop :=
  p.occupied = p.consumed + p.partialBuffer.length + p.bodyLength

/-- The sum is exact if it fits into a `size_t`. -/
theorem sumExact_iff {p : RequestParser} :
    p.SumExact ↔ p.consumed + p.partialBuffer.length + p.bodyLength < 2 ^ 64 :=
  Nat.mod_eq_iff_lt (by decide)

instance (p : RequestParser) : Decidable p.SumExact := by
  unfold SumExact
  infer_instance

/-- The complete token declares the length of what follows: a blank line after a `Content-Length`, or
the length of a chunk. -/
inductive Declares (p : RequestParser) (n : ℕ) : Prop where
  | contentLength {value : Bytes} (hs : p.state = .headers) (hnil : p.partialBuffer = [])
      (hfind : p.headers.find (ascii "Content-Length") = some value) (hn : stoul 10 value = .ok n)
  | chunkLength (hs : p.state = .chunkLength) (hn : stoul 16 p.partialBuffer = .ok n)

/-- The complete token is the last one of a request. -/
def EndsRequest (p : RequestParser) : Prop :=
  p.state = .body ∨ p.partialBuffer = [] ∧
    (p.state = .trailer ∨ p.state = .headers ∧ p.headers.find (ascii "Content-Length") = none ∧
      p.headers.find (ascii "Transfer-Encoding") ≠ some (ascii "chunked"))

instance (p : RequestParser) : Decidable p.EndsRequest := by
  unfold EndsRequest
  infer_instance

variable {curl : Curl} {p q : RequestParser} {n : ℕ}

/-- A declared length becomes the number of bytes to skip. -/
theorem Declares.advances (curl : Curl) (h : Declares p n) :
    ∃ q, Advances curl p none q ∧ q.consumed = p.consumed ∧ q.bodyLength = n := by
  cases h with
  | contentLength hs hnil hfind hn => exact ⟨_, .sized hs hnil hfind hn, rfl, rfl⟩
  | chunkLength hs hn => exact ⟨_, .chunkLength hs hn, rfl, rfl⟩

/-- A token that does not end a request leaves the count alone, and the number of bytes to skip unless
it declares a length. -/
theorem Advances.bodyLength_eq (h : Advances curl p none q) :
    q.consumed = p.consumed ∧ (q.bodyLength = p.bodyLength ∨ Declares p q.bodyLength) := by
  cases h with
  | method | path | version | header | chunked | chunk => exact ⟨rfl, .inl rfl⟩
  | sized hs hnil hfind hn => exact ⟨rfl, .inr (.contentLength hs hnil hfind hn)⟩
  | chunkLength hs hn => exact ⟨rfl, .inr (.chunkLength hs hn)⟩

/-- A token that hands out a request leaves nothing behind. -/
theorem Advances.flushed {request : HttpRequest} (h : Advances curl p (some request) q) :
    q.consumed = 0 ∧ q.partialBuffer = [] ∧ q.bodyLength = 0 := by
  cases h <;> exact ⟨rfl, rfl, rfl⟩

/-- A token that hands nothing out does not end a request. -/
theorem Advances.not_endsRequest (h : Advances curl p none q) : ¬p.EndsRequest := by
  unfold EndsRequest
  cases h with
  | header hs hne => rcases hs with hs | hs <;> simp [hs, hne]
  | method hs | path hs | version hs | chunkLength hs | chunk hs => simp [hs]
  | sized hs _ hfind => simp [hs, hfind]
  | chunked hs _ _ hte => simp [hs, hte]

/-- A token has one outcome. -/
theorem Advances.unique {m m' : Option HttpRequest} {q' : RequestParser}
    (h : Advances curl p m q) (h' : Advances curl p m' q') : m = m' ∧ q = q' := by
  have hnext := (token_eq_next_iff.mpr h).symm.trans (token_eq_next_iff.mpr h')
  simpa using hnext

end RequestParser

namespace Intake

open RequestParser

variable {curl : Curl}

/-! ### Wrap-around -/

/-- The bytes counted and buffered, and twice those at hand, fit into a `size_t`. A token that makes
the loop throw is both counted and left in the buffer. -/
def BytesFit (s : Intake) : Event → Prop
  | .call _ _ => True
  | .turn => ∀ maxSize cursor, s.call = some (maxSize, cursor) →
    s.parser.consumed + s.parser.partialBuffer.length + 2 * cursor.length < 2 ^ 64

instance (s : Intake) : (event : Event) → Decidable (s.BytesFit event)
  | .call _ _ => isTrue trivial
  | .turn =>
    match h : s.call with
    | none => isTrue (by simp [BytesFit, h])
    | some (_, cursor) =>
      decidable_of_iff
        (s.parser.consumed + s.parser.partialBuffer.length + 2 * cursor.length < 2 ^ 64)
        (by simp [BytesFit, h])

/-- A length that the turn accepts fits into a `size_t` together with the bytes counted so far. -/
def LengthsFit (s : Intake) : Event → Prop
  | .call _ _ => True
  | .turn => ∀ maxSize cursor, s.call = some (maxSize, cursor) → s.parser.occupied ≤ maxSize →
    s.parser.Complete cursor → ∀ n, Declares (s.parser.completed cursor) n →
      (s.parser.completed cursor).consumed + n < 2 ^ 64

/-- A step from a state with an exact sum leads to one exactly if the length that it accepts fits. -/
theorem sumExact_step_iff {s t : Intake} {event : Event} (hfit : BytesFit s event)
    (hs : s.parser.SumExact) (h : step curl s event = some t) :
    t.parser.SumExact ↔ LengthsFit s event := by
  cases event with
  | call maxSize start =>
    obtain ⟨-, rfl⟩ := step_call_eq_some_iff.mp h
    have hsame : (if start = [] then s else { s with call := some (maxSize, start) }).parser =
        s.parser := by split_ifs <;> rfl
    simp only [LengthsFit, hsame, hs]
  | turn =>
    obtain ⟨maxSize, cursor, hcall, hturned⟩ := turned_of_step h
    have hbytes := hfit maxSize cursor hcall
    have hread := s.parser.length_search cursor
    have hconsumed : (s.parser.completed cursor).consumed =
        s.parser.consumed + (s.parser.search cursor).read.length :=
      Nat.mod_eq_of_lt (by omega)
    have hC : LengthsFit s .turn ↔ (s.parser.occupied ≤ maxSize → s.parser.Complete cursor →
        ∀ n, Declares (s.parser.completed cursor) n →
          (s.parser.completed cursor).consumed + n < 2 ^ 64) := by
      simp [LengthsFit, hcall]
    rw [hC, sumExact_iff]
    rw [sumExact_iff] at hs
    cases hturned with
    -- only a turn that reads a length can add more than it has read
    | oversized hsize => exact ⟨fun _ hle => absurd hle (Nat.not_le.mpr hsize), fun _ => hs⟩
    | suspended _ hc | ranOut _ hc =>
      refine ⟨fun _ _ hc' => absurd hc' hc, fun _ => ?_⟩
      simp only [Parser.suspended, List.length_append]
      omega
    | @threw e p _ _ hp =>
      refine ⟨fun _ _ _ n hn => ?_, fun _ => ?_⟩
      · obtain ⟨q, hq, -⟩ := hn.advances curl
        rw [← token_eq_next_iff, hp] at hq
        cases hq
      · have hentity := toHttpEntity_of_token_threw hp
        have hbuffer : (s.parser.completed cursor).partialBuffer.length ≤
            s.parser.partialBuffer.length + (s.parser.search cursor).read.length := by
          simp only [Parser.completed, List.length_take, List.length_append]
          omega
        rw [hentity, hconsumed]
        change _ + _ + 0 < _
        omega
    | @advanced p hsize hc hp =>
      obtain ⟨hcount, hlength⟩ := hp.bodyLength_eq
      simp only [Parser.clearBuffer, List.length_nil, Nat.add_zero, hcount]
      constructor
      · intro hsum _ _ n hn
        obtain ⟨q, hq, -, rfl⟩ := hn.advances curl
        rwa [(hp.unique hq).2] at hsum
      · intro hfits
        -- the next length is zero, or one that was declared
        rcases hlength with hzero | hdeclares
        · rw [hzero, hconsumed]
          change _ + 0 < _
          omega
        · exact hfits hsize hc _ hdeclares
    | @emitted p request hsize hc hp =>
      obtain ⟨hcount, -, hlength⟩ := hp.flushed
      refine ⟨fun _ _ _ n hn => ?_, fun _ => by simp [Parser.clearBuffer, hcount, hlength]⟩
      obtain ⟨q, hq, -⟩ := hn.advances curl
      exact absurd (hp.unique hq).1 (by simp)

/-- Over the calls of a run, none of which brings more bytes than fit, the sum at the top of the loop
is exact throughout if and only if every length that is accepted fits. -/
theorem sum_exact_iff (curl : Curl) {events : List Event} {s : Intake}
    (hrun : run (step curl) fresh events = some s)
    (hbytes : StepsMeet (step curl) fresh events BytesFit) :
    Always (step curl) fresh events (fun s => s.parser.SumExact) ↔
      StepsMeet (step curl) fresh events LengthsFit :=
  always_iff_stepsMeet (P := fun s => s.parser.SumExact) (sumExact_iff.mpr (by decide))
    (fun _ _ _ hfit hs h => sumExact_step_iff hfit hs h) hbytes hrun

/-- A request that announces as many bytes as a `size_t` can count. -/
def hugeLength : List Event :=
  .call 10485760 (ascii "GET / HTTP/1.1\r\nContent-Length: 18446744073709551615\r\n\r\n") ::
    List.replicate 5 .turn

/-- `sum_exact_iff` for a request that announces the greatest length that there is. -/
theorem sum_exact_iff_hugeLength :
    Always (step .percent) fresh hugeLength (fun s => s.parser.SumExact) ↔
      StepsMeet (step .percent) fresh hugeLength LengthsFit := by
  obtain ⟨s, hrun⟩ := Option.isSome_iff_exists.mp
    (by decide : (run (step .percent) fresh hugeLength).isSome)
  exact sum_exact_iff .percent hrun (by decide)

/-- The 56 bytes of the head and the announced length add up to 55. -/
theorem sum_wraps :
    ∃ s, run (step .percent) fresh hugeLength = some s ∧ s.call.isSome ∧ s.parser.occupied = 55 ∧
      s.parser.consumed + s.parser.partialBuffer.length + s.parser.bodyLength = 2 ^ 64 + 55 ∧
      ¬s.parser.SumExact := by
  have hrun : (run (step .percent) fresh hugeLength).map (fun s =>
      (s.call.isSome, s.parser.occupied,
        s.parser.consumed + s.parser.partialBuffer.length + s.parser.bodyLength)) =
      some (true, 55, 2 ^ 64 + 55) := by decide
  obtain ⟨s, hs, hvalues⟩ := Option.map_eq_some_iff.mp hrun
  obtain ⟨hcall, hoccupied, hsum⟩ : s.call.isSome = true ∧ s.parser.occupied = 55 ∧
      s.parser.consumed + s.parser.partialBuffer.length + s.parser.bodyLength = 2 ^ 64 + 55 := by
    simpa using hvalues
  refine ⟨s, hs, hcall, hoccupied, hsum, fun hexact => ?_⟩
  rw [SumExact, hoccupied, hsum] at hexact
  exact absurd hexact (by decide)

/-! ### The bytes of a request -/

/-- The bytes of the turn are all counted: the sum and the count are exact, and a token of which a
part came with an earlier call is the last of its request. -/
def Accounted (s : Intake) : Event → Prop
  | .call _ _ => True
  | .turn => ∀ maxSize cursor, s.call = some (maxSize, cursor) →
    s.parser.SumExact ∧ s.parser.consumed + cursor.length < 2 ^ 64 ∧
      (s.parser.Complete cursor → ¬EndsRequest (s.parser.completed cursor) →
        s.parser.partialBuffer = [])

instance (s : Intake) : (event : Event) → Decidable (s.Accounted event)
  | .call _ _ => isTrue trivial
  | .turn =>
    match h : s.call with
    | none => isTrue (by simp [Accounted, h])
    | some (_, cursor) =>
      decidable_of_iff
        (s.parser.SumExact ∧ s.parser.consumed + cursor.length < 2 ^ 64 ∧
          (s.parser.Complete cursor → ¬EndsRequest (s.parser.completed cursor) →
            s.parser.partialBuffer = []))
        (by simp [Accounted, h])

/-- A call with the limit of the server and a message of at most `bound` bytes. -/
def Event.Within (maxSize bound : ℕ) : Event → Prop
  | .call max start => max = maxSize ∧ start.length ≤ bound
  | .turn => True

instance (maxSize bound : ℕ) : (event : Event) → Decidable (event.Within maxSize bound)
  | .call max start => inferInstanceAs (Decidable (max = maxSize ∧ start.length ≤ bound))
  | .turn => isTrue trivial

/-- As long as no call has thrown, the bytes of the request are counted or in the buffer, and between
calls they are within the limit and one message. -/
structure Limited (maxSize bound : ℕ) (s : Intake) : Prop where
  /-- Each call has the limit and at most so many bytes. -/
  within : ∀ max cursor, s.call = some (max, cursor) → max = maxSize ∧ cursor.length ≤ bound
  /-- No byte of the request has escaped the count. -/
  counted : s.failed = false → s.received ≤ s.parser.consumed + s.parser.partialBuffer.length
  /-- Between two calls the request is at most one message over the limit. -/
  limited : s.failed = false → s.call = none → s.received ≤ maxSize + bound

/-- The bound holds after a turn if it held before, and if the bytes of the call were accounted for. -/
theorem limited_step {maxSize bound : ℕ} {s t : Intake} {event : Event}
    (hs : s.Limited maxSize bound) (hevent : event.Within maxSize bound)
    (hcount : Accounted s event) (h : step curl s event = some t) : t.Limited maxSize bound := by
  cases event with
  | call max start =>
    obtain ⟨hnone, rfl⟩ := step_call_eq_some_iff.mp h
    split_ifs with hnil
    · exact hs
    · refine ⟨?_, hs.counted, fun _ hcall => by cases hcall⟩
      rintro max' cursor hcall
      obtain ⟨rfl, rfl⟩ : max = max' ∧ start = cursor := by simpa using hcall
      exact hevent
  | turn =>
    obtain ⟨max, cursor, hcall, hturned⟩ := turned_of_step h
    obtain ⟨rfl, hbound⟩ := hs.within max cursor hcall
    obtain ⟨hexact, hfit, hcut⟩ := hcount max cursor hcall
    have hread := s.parser.length_search cursor
    cases hturned with
    | oversized | ranOut | threw =>
      exact ⟨fun _ _ hcall => (by cases hcall), fun hok => (by cases hok), fun hok => by cases hok⟩
    | suspended hsize hc =>
      have hcounted := hs.counted
      unfold SumExact at hexact
      refine ⟨fun _ _ hcall => (by cases hcall), fun hok => ?_, fun hok _ => ?_⟩
      · have := hcounted hok
        simp only [Parser.suspended, List.length_append]
        omega
      · have := hcounted hok
        simp only
        omega
    | @advanced p hsize hc hp =>
      -- the buffer was empty, so that all bytes of the turn are counted
      have hbuffer := hcut hc hp.not_endsRequest
      have hconsumed : p.consumed =
          s.parser.consumed + (s.parser.search cursor).read.length :=
        hp.bodyLength_eq.1.trans (Nat.mod_eq_of_lt (by omega))
      refine ⟨?_, fun hok => ?_, fun _ hcall => by cases hcall⟩
      · rintro _ _ ⟨⟩
        exact ⟨rfl, by omega⟩
      · have hcounted := hs.counted hok
        rw [hbuffer, List.length_nil] at hcounted
        simp only [Parser.clearBuffer, hconsumed, List.length_nil]
        omega
    | emitted =>
      refine ⟨?_, fun _ => Nat.zero_le _, fun _ hcall => by cases hcall⟩
      rintro _ _ ⟨⟩
      exact ⟨rfl, by omega⟩

/-- When a call returns, no more than the limit and one message of bytes has come for the request that
is still being parsed, if the bytes of each turn were counted. -/
theorem received_le (curl : Curl) {maxSize bound : ℕ} {events : List Event} {s : Intake}
    (hevents : ∀ event ∈ events, event.Within maxSize bound)
    (hcount : StepsMeet (step curl) fresh events Accounted)
    (hrun : run (step curl) fresh events = some s) (hreturned : s.call = none)
    (hok : s.failed = false) : s.received ≤ maxSize + bound := by
  have hstart : fresh.Limited maxSize bound := ⟨nofun, fun _ => Nat.zero_le _, fun _ _ => Nat.zero_le _⟩
  have hlimited : s.Limited maxSize bound :=
    invariant_of_stepsMeet hstart
      (fun _ _ _ ht hC hu => limited_step ht hC.1 hC.2 hu)
      ((stepsMeet_of_forall hevents).and hcount) hrun
  exact hlimited.limited hok hreturned

/-- A request of which only the last token, the blank line, is cut. -/
theorem received_le_example :
    ∃ s, run (step .percent) fresh
      [.call 40 (ascii "GET / HTTP/1.1\r\n"), .turn, .turn, .turn, .turn,
        .call 40 (ascii "A: b\r\n\r"), .turn, .turn] = some s ∧ s.received ≤ 40 + 16 := by
  have hrun : (run (step .percent) fresh
      [.call 40 (ascii "GET / HTTP/1.1\r\n"), .turn, .turn, .turn, .turn,
        .call 40 (ascii "A: b\r\n\r"), .turn, .turn]).map (fun s => (s.call, s.failed)) =
      some (none, false) := by decide
  obtain ⟨s, hs, hvalues⟩ := Option.map_eq_some_iff.mp hrun
  obtain ⟨hcall, hfailed⟩ : s.call = none ∧ s.failed = false := by simpa using hvalues
  exact ⟨s, hs, received_le .percent (by decide) (by decide) hs hcall hfailed⟩

/-- Header lines that are cut before their last byte. -/
def slowHeaders : List Event :=
  [.call 40 (ascii "GET / HTTP/1.1\r"), .turn, .turn, .turn,
    .call 40 (ascii "\nA: bbbbbbbbbbb\r"), .turn, .turn,
    .call 40 (ascii "\nA: bbbbbbbbbbb\r"), .turn, .turn,
    .call 40 (ascii "\nA: bbbbbbbbbbb\r"), .turn, .turn]

/-- With a limit of 40 bytes and messages of at most 16 bytes, 63 bytes of one request are taken. -/
theorem received_not_le :
    (∀ event ∈ slowHeaders, event.Within 40 16) ∧
      ∃ s, run (step .percent) fresh slowHeaders = some s ∧ s.call = none ∧ s.failed = false ∧
        ¬s.received ≤ 40 + 16 := by
  have hrun : (run (step .percent) fresh slowHeaders).map (fun s =>
      (s.call, s.failed, s.received)) = some (none, false, 63) := by decide
  obtain ⟨s, hs, hvalues⟩ := Option.map_eq_some_iff.mp hrun
  obtain ⟨hcall, hfailed, hreceived⟩ : s.call = none ∧ s.failed = false ∧ s.received = 63 := by
    simpa using hvalues
  exact ⟨by decide, s, hs, hcall, hfailed, by omega⟩

end Intake

end PrimeServer
