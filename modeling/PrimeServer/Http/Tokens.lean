import PrimeServer.Http.Loop
import PrimeServer.Http.Request

/-!
# Tokens

The two `switch` statements as relations: one constructor for each way in which the loop goes on after
a token. All that is proved about runs of the parsers is proved by cases on these.

## Main results

* `RequestParser.token_eq_next_iff`, `ResponseParser.token_eq_next_iff`: the relations say all that
  the two functions do;
* `RequestParser.grammar_lawful`, `ResponseParser.grammar_lawful`: both loops end on every input.
-/

namespace PrimeServer

open Chunking Delimiter

namespace RequestParser

open HttpRequest

/-- The ways in which a request parser goes on after a token. -/
inductive Advances (curl : Curl) (p : RequestParser) : Option HttpRequest → RequestParser → Prop where
  /-- The method is known. -/
  | method {m : Method} (hs : p.state = .method)
      (hm : stringToMethod.lookup p.partialBuffer = some m) :
      Advances curl p none
        { p with
          fields := { p.fields with method := m, logLine := p.partialBuffer ++ p.delimiter }
          state := .path }
  /-- The path can be decoded. From here on tokens end at a line end. -/
  | path {path : Bytes} (hs : p.state = .path) (hdecode : urlDecode curl p.partialBuffer = .ok path) :
      Advances curl p none
        { p with
          fields :=
            { p.fields with
              path
              logLine := p.fields.logLine ++ p.partialBuffer ++ p.delimiter }
          delimiter := crlf
          state := .version }
  /-- The version is supported. Now the path is split. -/
  | version (hs : p.state = .version) (hv : p.partialBuffer ∈ supportedVersions) :
      Advances curl p none
        { p with
          version := p.partialBuffer
          fields :=
            { p.fields with
              path := (splitPathQuery p.fields.path).1
              query := (splitPathQuery p.fields.path).2
              logLine := p.fields.logLine ++ p.partialBuffer }
          state := .headers }
  /-- A header line, or a line after the last chunk. -/
  | header {name after : Bytes} (hs : p.state = .headers ∨ p.state = .trailer)
      (hne : p.partialBuffer ≠ []) (hsplit : splitAt (byte ':') p.partialBuffer = some (name, after)) :
      Advances curl p none
        { p with headers := p.headers.insert name (after.dropWhile (· = byte ' ')) }
  /-- The blank line, with a length announced: the body is next and ends at its length. -/
  | sized {value : Bytes} {n : ℕ} (hs : p.state = .headers) (hnil : p.partialBuffer = [])
      (hfind : p.headers.find (ascii "Content-Length") = some value) (hn : stoul 10 value = .ok n) :
      Advances curl p none { p with bodyLength := n, delimiter := [], state := .body }
  /-- The blank line, with a chunked body announced. -/
  | chunked (hs : p.state = .headers) (hnil : p.partialBuffer = [])
      (hfind : p.headers.find (ascii "Content-Length") = none)
      (hte : p.headers.find (ascii "Transfer-Encoding") = some (ascii "chunked")) :
      Advances curl p none { p with state := .chunkLength }
  /-- The blank line, with no body announced: the request is complete. -/
  | plain (hs : p.state = .headers) (hnil : p.partialBuffer = [])
      (hfind : p.headers.find (ascii "Content-Length") = none)
      (hte : p.headers.find (ascii "Transfer-Encoding") ≠ some (ascii "chunked")) :
      Advances curl p (some p.gathered)
        (flushStream { p with fields := { p.fields with logLine := [] } })
  /-- The blank line after the last chunk: the request is complete. -/
  | trailed (hs : p.state = .trailer) (hnil : p.partialBuffer = []) :
      Advances curl p (some p.gathered)
        (flushStream { p with fields := { p.fields with logLine := [] } })
  /-- The body, which completes the request. -/
  | body (hs : p.state = .body) :
      Advances curl p (some { p.gathered with body := p.partialBuffer })
        (flushStream { p with
          body := p.partialBuffer
          fields := { p.fields with logLine := [] } })
  /-- A chunk-length line. A zero announces the end. -/
  | chunkLength {n : ℕ} (hs : p.state = .chunkLength) (hn : stoul 16 p.partialBuffer = .ok n) :
      Advances curl p none
        { p with bodyLength := n, state := if n ≠ 0 then .chunk else .trailer }
  /-- The data of a chunk. -/
  | chunk (hs : p.state = .chunk) :
      Advances curl p none { p with body := p.body ++ p.partialBuffer, state := .chunkLength }

/-- A blank line after the header lines. -/
theorem blankLine_of_headers {p : RequestParser} (hs : p.state = .headers) :
    blankLine p =
      match p.headers.find (ascii "Content-Length") with
      | some value =>
        match stoul 10 value with
        | .error _ => .threw (.request response400) p
        | .ok n => .next none { p with bodyLength := n, delimiter := [], state := .body }
      | none =>
        if p.headers.find (ascii "Transfer-Encoding") = some (ascii "chunked") then
          .next none { p with state := .chunkLength }
        else emit p := by
  have hne : p.state ≠ .trailer := by simp [hs]
  rw [blankLine, if_pos hne]
  cases p.headers.find (ascii "Content-Length") with
  | some value => cases stoul 10 value <;> rfl
  | none => simp only [hne, ne_eq, not_false_eq_true, true_and]

/-- A blank line after the trailer lines. -/
theorem blankLine_of_trailer {p : RequestParser} (hs : p.state = .trailer) :
    blankLine p = emit p := by
  simp [blankLine, hs]

/-- A header line. -/
def line (p : RequestParser) : Token RequestFields HttpRequest RequestError :=
  match splitAt (byte ':') p.partialBuffer with
  | none => .threw (.request response400) p
  | some (name, after) =>
    .next none { p with headers := p.headers.insert name (after.dropWhile (· = byte ' ')) }

/-- Header lines and trailer lines are dealt with in the same way: one that is empty ends the section. -/
theorem token_of_line {curl : Curl} {p : RequestParser}
    (hs : p.state = .headers ∨ p.state = .trailer) :
    token curl p = if p.partialBuffer ≠ [] then line p else blankLine p := by
  obtain ⟨⟨_, _, _, _, _, _, state, _, _⟩, _⟩ := p
  change state = .headers ∨ state = .trailer at hs
  rcases hs with rfl | rfl <;> rfl

/-- A header line makes a header of what is before its first colon and behind the spaces that follow it. -/
theorem line_eq_next_iff {p q : RequestParser} {emitted : Option HttpRequest} :
    line p = .next emitted q ↔
      emitted = none ∧ ∃ name after, splitAt (byte ':') p.partialBuffer = some (name, after) ∧
        q = { p with headers := p.headers.insert name (after.dropWhile (· = byte ' ')) } := by
  unfold line
  cases hsplit : splitAt (byte ':') p.partialBuffer with
  | none => simp
  | some parts =>
    obtain ⟨name, after⟩ := parts
    simp only [Token.next.injEq, Option.some.injEq, Prod.mk.injEq]
    constructor
    · rintro ⟨rfl, rfl⟩
      exact ⟨rfl, name, after, ⟨rfl, rfl⟩, rfl⟩
    · rintro ⟨rfl, _, _, ⟨rfl, rfl⟩, rfl⟩
      exact ⟨rfl, rfl⟩

namespace Advances

variable {curl : Curl} {p q : RequestParser} {emitted : Option HttpRequest}

/-- An empty line ends the headers or the trailer, and may end the request. -/
theorem of_blankLine (hs : p.state = .headers ∨ p.state = .trailer) (hnil : p.partialBuffer = [])
    (h : blankLine p = .next emitted q) : Advances curl p emitted q := by
  rcases hs with hs | hs
  · -- the headers say how the body is framed
    rw [blankLine_of_headers hs] at h
    cases hfind : p.headers.find (ascii "Content-Length") with
    | some value =>
      cases hn : stoul 10 value with
      | error e => simp [hfind, hn] at h
      | ok n =>
        simp only [hfind, hn, Token.next.injEq] at h
        obtain ⟨rfl, rfl⟩ := h
        exact .sized hs hnil hfind hn
    | none =>
      by_cases hte : p.headers.find (ascii "Transfer-Encoding") = some (ascii "chunked")
      · simp only [hfind, hte, if_true, Token.next.injEq] at h
        obtain ⟨rfl, rfl⟩ := h
        exact .chunked hs hnil hfind hte
      · simp only [hfind, hte, if_false, emit, Token.next.injEq] at h
        obtain ⟨rfl, rfl⟩ := h
        exact .plain hs hnil hfind hte
  · rw [blankLine_of_trailer hs] at h
    simp only [emit, Token.next.injEq] at h
    obtain ⟨rfl, rfl⟩ := h
    exact .trailed hs hnil

/-- Any other line adds a header. -/
theorem of_line (hs : p.state = .headers ∨ p.state = .trailer) (hne : p.partialBuffer ≠ [])
    (h : line p = .next emitted q) : Advances curl p emitted q := by
  obtain ⟨rfl, name, after, hsplit, rfl⟩ := line_eq_next_iff.mp h
  exact .header hs hne hsplit

/-- The loop goes on with a token in no other way. -/
theorem of_token (h : token curl p = .next emitted q) : Advances curl p emitted q := by
  cases hs : p.state
  case message | code => simp [token, hs] at h
  case method =>
    cases hm : stringToMethod.lookup p.partialBuffer with
    | none => simp [token, hs, hm] at h
    | some m =>
      simp only [token, hs, hm, Token.next.injEq] at h
      obtain ⟨rfl, rfl⟩ := h
      exact .method hs hm
  case path =>
    cases hd : urlDecode curl p.partialBuffer with
    | error e => simp [token, hs, hd] at h
    | ok path =>
      simp only [token, hs, hd, Token.next.injEq] at h
      obtain ⟨rfl, rfl⟩ := h
      exact .path hs hd
  case version =>
    by_cases hv : p.partialBuffer ∈ supportedVersions
    · simp only [token, hs, hv, not_true_eq_false, if_false, Token.next.injEq] at h
      obtain ⟨rfl, rfl⟩ := h
      exact .version hs hv
    · simp [token, hs, hv] at h
  case headers | trailer =>
    have hline : p.state = .headers ∨ p.state = .trailer := by simp [hs]
    rw [token_of_line hline] at h
    by_cases hnil : p.partialBuffer = []
    · rw [if_neg (not_not.mpr hnil)] at h
      exact of_blankLine hline hnil h
    · rw [if_pos hnil] at h
      exact of_line hline hnil h
  case body =>
    simp only [token, hs, emit, Token.next.injEq] at h
    obtain ⟨rfl, rfl⟩ := h
    exact .body hs
  case chunkLength =>
    cases hn : stoul 16 p.partialBuffer with
    | error e => simp [token, hs, hn] at h
    | ok n =>
      simp only [token, hs, hn, Token.next.injEq] at h
      obtain ⟨rfl, rfl⟩ := h
      exact .chunkLength hs hn
  case chunk =>
    simp only [token, hs, Token.next.injEq] at h
    obtain ⟨rfl, rfl⟩ := h
    exact .chunk hs

/-- The loop goes on with a token in each of these ways. -/
theorem token_eq (h : Advances curl p emitted q) : token curl p = .next emitted q := by
  cases h with
  | method hs hm => simp [token, hs, hm]
  | path hs hdecode => simp [token, hs, hdecode]
  | version hs hv => simp [token, hs, hv]
  | @header name after hs hne hsplit =>
    rw [token_of_line hs, if_pos hne]
    exact line_eq_next_iff.mpr ⟨rfl, name, after, hsplit, rfl⟩
  | sized hs hnil hfind hn =>
    rw [token_of_line (.inl hs), if_neg (not_not.mpr hnil), blankLine_of_headers hs, hfind]
    simp only [hn]
  | chunked hs hnil hfind hte =>
    rw [token_of_line (.inl hs), if_neg (not_not.mpr hnil), blankLine_of_headers hs, hfind]
    simp only [hte, if_true]
  | plain hs hnil hfind hte =>
    rw [token_of_line (.inl hs), if_neg (not_not.mpr hnil), blankLine_of_headers hs, hfind]
    simp only [hte, if_false]
    rfl
  | trailed hs hnil =>
    rw [token_of_line (.inr hs), if_neg (not_not.mpr hnil), blankLine_of_trailer hs]
    rfl
  | body hs => simp [token, hs, emit, gathered]
  | chunkLength hs hn => simp [token, hs, hn]
  | chunk hs => simp [token, hs]

end Advances

/-- The relation says all that the loop can go on with. -/
theorem token_eq_next_iff {curl : Curl} {p q : RequestParser} {emitted : Option HttpRequest} :
    token curl p = .next emitted q ↔ Advances curl p emitted q :=
  ⟨.of_token, Advances.token_eq⟩

/-- A header line without a colon leaves the parser as it is. -/
theorem eq_of_line_threw {p q : RequestParser} {e : RequestError} (h : line p = .threw e q) : q = p := by
  unfold line at h
  split at h
  · exact (Token.threw.inj h).2.symm
  · cases h

/-- An empty line that announces what cannot be read leaves the parser as it is. -/
theorem eq_of_blankLine_threw {p q : RequestParser} {e : RequestError} (h : blankLine p = .threw e q) :
    q = p := by
  unfold blankLine at h
  split at h
  · split at h
    · exact (Token.threw.inj h).2.symm
    · cases h
  · split at h <;> cases h

/-- A token that makes the loop throw leaves the parser as it was, up to the line for the log. -/
theorem eq_of_token_threw {curl : Curl} {p q : RequestParser} {e : RequestError}
    (h : token curl p = .threw e q) :
    ∃ logLine, q = { p with fields := { p.fields with logLine } } := by
  by_cases hline : p.state = .headers ∨ p.state = .trailer
  · rw [token_of_line hline] at h
    split_ifs at h
    · exact ⟨_, eq_of_line_threw h⟩
    · exact ⟨_, eq_of_blankLine_threw h⟩
  · -- in the start line, the line for the log may have been written before the throw
    cases hs : p.state
    case message | code =>
      simp only [token, hs, Token.threw.injEq] at h
      exact ⟨_, h.2.symm⟩
    case method =>
      cases hm : stringToMethod.lookup p.partialBuffer <;>
        simp only [token, hs, hm, Token.threw.injEq, reduceCtorEq] at h
      exact ⟨_, h.2.symm⟩
    case path =>
      cases hd : urlDecode curl p.partialBuffer <;>
        simp only [token, hs, hd, Token.threw.injEq, reduceCtorEq] at h
      exact ⟨_, h.2.symm⟩
    case version =>
      by_cases hv : p.partialBuffer ∈ supportedVersions <;>
        simp only [token, hs, hv, not_true_eq_false, not_false_eq_true, if_true, if_false,
          Token.threw.injEq, reduceCtorEq] at h
      exact ⟨_, h.2.symm⟩
    case chunkLength =>
      cases hn : stoul 16 p.partialBuffer <;>
        simp only [token, hs, hn, Token.threw.injEq, reduceCtorEq] at h
      exact ⟨_, h.2.symm⟩
    case body | chunk => simp [token, hs, emit] at h
    case headers => exact absurd (.inl hs) hline
    case trailer => exact absurd (.inr hs) hline

/-- A token that throws does not change what the parser has collected: the caller may look at it. -/
theorem toHttpEntity_of_token_threw {curl : Curl} {p q : RequestParser} {e : RequestError}
    (h : token curl p = .threw e q) : q.toHttpEntity = p.toHttpEntity := by
  obtain ⟨logLine, rfl⟩ := eq_of_token_threw h
  rfl

/-- The delimiter of each state of a request. -/
def delimiterOf : EntityState → Bytes
  | .method | .path => ascii " "
  | .body => []
  | .message | .code | .version | .headers | .chunkLength | .chunk | .trailer => crlf

/-- The parser that a connection begins with waits for the delimiter of its state. -/
theorem wellFormed_fresh : fresh.WellFormed delimiterOf := by
  constructor <;> decide

/-- Every token leaves a parser of requests that waits for the delimiter of its state. -/
theorem grammar_lawful (curl : Curl) (maxSize : ℕ) :
    (grammar curl maxSize).Lawful delimiterOf where
  table_nil s h := by
    cases s <;> first | rfl | exact absurd h (by decide)
  token_next {p q emitted} hd hk h := by
    cases token_eq_next_iff.mp h with
    | method hs _ => exact ⟨by simpa [hs, delimiterOf] using hd, hk⟩
    | path | sized => exact ⟨rfl, hk⟩
    | version hs _ => exact ⟨by simpa [hs, delimiterOf] using hd, hk⟩
    | header hs _ _ => exact ⟨hd, hk⟩
    | chunked hs _ _ _ => exact ⟨by simpa [hs, delimiterOf] using hd, hk⟩
    | plain | trailed | body => exact ⟨rfl, rfl⟩
    | chunkLength hs _ =>
      refine ⟨?_, hk⟩
      split_ifs <;> simpa [hs, delimiterOf] using hd
    | chunk hs => exact ⟨by simpa [hs, delimiterOf] using hd, hk⟩
  token_body {p q emitted} hs h := by
    cases token_eq_next_iff.mp h with
    | method | path | version | sized | chunked | plain | trailed | chunkLength | chunk =>
      simp_all
    | header hs' => rcases hs' with hs' | hs' <;> simp_all
    | body => exact nofun

end RequestParser

namespace ResponseParser

/-- The ways in which a response parser goes on after a token. -/
inductive Advances (p : ResponseParser) : Option HttpResponse → ResponseParser → Prop where
  /-- The version is supported. -/
  | version (hs : p.state = .version) (hv : p.partialBuffer ∈ supportedVersions) :
      Advances p none { p with version := p.partialBuffer, state := .code }
  /-- The code is a number, of which 16 bits are kept. From here on tokens end at a line end. -/
  | code {n : ℕ} (hs : p.state = .code) (hn : stoul 10 p.partialBuffer = .ok n) :
      Advances p none
        { p with
          fields := { p.fields with code := n % 2 ^ 16 }
          delimiter := crlf
          state := .message }
  /-- The reason phrase, whatever it is. -/
  | message (hs : p.state = .message) :
      Advances p none
        { p with fields := { p.fields with message := p.partialBuffer }, state := .headers }
  /-- A header line, or a line after the last chunk. -/
  | header {name value : Bytes} (hs : p.state = .headers ∨ p.state = .trailer)
      (hne : p.partialBuffer ≠ [])
      (hsplit : splitAtSeparator (ascii ": ") p.partialBuffer = some (name, value)) :
      Advances p none { p with headers := p.headers.insert name value }
  /-- The blank line, with a length announced: the body is next and ends at its length. -/
  | sized {value : Bytes} {n : ℕ} (hs : p.state = .headers) (hnil : p.partialBuffer = [])
      (hfind : p.headers.find (ascii "Content-Length") = some value) (hn : stoul 10 value = .ok n) :
      Advances p none { p with bodyLength := n, delimiter := [], state := .body }
  /-- The blank line, with a chunked body announced. -/
  | chunked (hs : p.state = .headers) (hnil : p.partialBuffer = [])
      (hfind : p.headers.find (ascii "Content-Length") = none)
      (hte : p.headers.find (ascii "Transfer-Encoding") = some (ascii "chunked")) :
      Advances p none { p with state := .chunkLength }
  /-- The blank line, with no body announced: the response is complete. -/
  | plain (hs : p.state = .headers) (hnil : p.partialBuffer = [])
      (hfind : p.headers.find (ascii "Content-Length") = none)
      (hte : p.headers.find (ascii "Transfer-Encoding") ≠ some (ascii "chunked")) :
      Advances p (some p.gathered) (flushStream p)
  /-- The blank line after the last chunk: the response is complete. -/
  | trailed (hs : p.state = .trailer) (hnil : p.partialBuffer = []) :
      Advances p (some p.gathered) (flushStream p)
  /-- The body, which completes the response. -/
  | body (hs : p.state = .body) :
      Advances p (some { p.gathered with body := p.partialBuffer })
        (flushStream { p with body := p.partialBuffer })
  /-- A chunk-length line. A zero announces the end. -/
  | chunkLength {n : ℕ} (hs : p.state = .chunkLength) (hn : stoul 16 p.partialBuffer = .ok n) :
      Advances p none { p with bodyLength := n, state := if n ≠ 0 then .chunk else .trailer }
  /-- The data of a chunk. -/
  | chunk (hs : p.state = .chunk) :
      Advances p none { p with body := p.body ++ p.partialBuffer, state := .chunkLength }

/-- A blank line after the header lines. -/
theorem blankLine_of_headers {p : ResponseParser} (hs : p.state = .headers) :
    blankLine p =
      match p.headers.find (ascii "Content-Length") with
      | some value =>
        match stoul 10 value with
        | .error e => .threw (.stoul e) p
        | .ok n => .next none { p with bodyLength := n, delimiter := [], state := .body }
      | none =>
        if p.headers.find (ascii "Transfer-Encoding") = some (ascii "chunked") then
          .next none { p with state := .chunkLength }
        else emit p := by
  have hne : p.state ≠ .trailer := by simp [hs]
  rw [blankLine, if_pos hne]
  cases p.headers.find (ascii "Content-Length") with
  | some value => cases stoul 10 value <;> rfl
  | none => simp only [hne, ne_eq, not_false_eq_true, true_and]

/-- A blank line after the trailer lines. -/
theorem blankLine_of_trailer {p : ResponseParser} (hs : p.state = .trailer) :
    blankLine p = emit p := by
  simp [blankLine, hs]

/-- A header line. -/
def line (p : ResponseParser) : Token ResponseFields HttpResponse StdException :=
  match splitAtSeparator (ascii ": ") p.partialBuffer with
  | none => .threw (.runtimeError "Expected http header") p
  | some (name, value) => .next none { p with headers := p.headers.insert name value }

/-- Header lines and trailer lines of responses are dealt with in the same way. -/
theorem token_of_line {p : ResponseParser} (hs : p.state = .headers ∨ p.state = .trailer) :
    token p = if p.partialBuffer ≠ [] then line p else blankLine p := by
  obtain ⟨⟨_, _, _, _, _, _, state, _, _⟩, _⟩ := p
  change state = .headers ∨ state = .trailer at hs
  rcases hs with rfl | rfl <;> rfl

/-- A header line of a response is split at a colon with a blank behind it. -/
theorem line_eq_next_iff {p q : ResponseParser} {emitted : Option HttpResponse} :
    line p = .next emitted q ↔
      emitted = none ∧ ∃ name value,
        splitAtSeparator (ascii ": ") p.partialBuffer = some (name, value) ∧
          q = { p with headers := p.headers.insert name value } := by
  unfold line
  cases hsplit : splitAtSeparator (ascii ": ") p.partialBuffer with
  | none => simp
  | some parts =>
    obtain ⟨name, value⟩ := parts
    simp only [Token.next.injEq, Option.some.injEq, Prod.mk.injEq]
    constructor
    · rintro ⟨rfl, rfl⟩
      exact ⟨rfl, name, value, ⟨rfl, rfl⟩, rfl⟩
    · rintro ⟨rfl, _, _, ⟨rfl, rfl⟩, rfl⟩
      exact ⟨rfl, rfl⟩

namespace Advances

variable {p q : ResponseParser} {emitted : Option HttpResponse}

/-- An empty line ends the headers or the trailer of a response, and may end the response. -/
theorem of_blankLine (hs : p.state = .headers ∨ p.state = .trailer) (hnil : p.partialBuffer = [])
    (h : blankLine p = .next emitted q) : Advances p emitted q := by
  rcases hs with hs | hs
  · -- the headers say how the body is framed
    rw [blankLine_of_headers hs] at h
    cases hfind : p.headers.find (ascii "Content-Length") with
    | some value =>
      cases hn : stoul 10 value with
      | error e => simp [hfind, hn] at h
      | ok n =>
        simp only [hfind, hn, Token.next.injEq] at h
        obtain ⟨rfl, rfl⟩ := h
        exact .sized hs hnil hfind hn
    | none =>
      by_cases hte : p.headers.find (ascii "Transfer-Encoding") = some (ascii "chunked")
      · simp only [hfind, hte, if_true, Token.next.injEq] at h
        obtain ⟨rfl, rfl⟩ := h
        exact .chunked hs hnil hfind hte
      · simp only [hfind, hte, if_false, emit, Token.next.injEq] at h
        obtain ⟨rfl, rfl⟩ := h
        exact .plain hs hnil hfind hte
  · rw [blankLine_of_trailer hs] at h
    simp only [emit, Token.next.injEq] at h
    obtain ⟨rfl, rfl⟩ := h
    exact .trailed hs hnil

/-- Any other line adds a header to a response. -/
theorem of_line (hs : p.state = .headers ∨ p.state = .trailer) (hne : p.partialBuffer ≠ [])
    (h : line p = .next emitted q) : Advances p emitted q := by
  obtain ⟨rfl, name, value, hsplit, rfl⟩ := line_eq_next_iff.mp h
  exact .header hs hne hsplit

/-- The loop goes on with a token in no other way. -/
theorem of_token (h : token p = .next emitted q) : Advances p emitted q := by
  cases hs : p.state
  case method | path => simp [token, hs] at h
  case version =>
    by_cases hv : p.partialBuffer ∈ supportedVersions
    · simp only [token, hs, hv, not_true_eq_false, if_false, Token.next.injEq] at h
      obtain ⟨rfl, rfl⟩ := h
      exact .version hs hv
    · simp [token, hs, hv] at h
  case code =>
    cases hn : stoul 10 p.partialBuffer with
    | error e => simp [token, hs, hn] at h
    | ok n =>
      simp only [token, hs, hn, Token.next.injEq] at h
      obtain ⟨rfl, rfl⟩ := h
      exact .code hs hn
  case message =>
    simp only [token, hs, Token.next.injEq] at h
    obtain ⟨rfl, rfl⟩ := h
    exact .message hs
  case headers | trailer =>
    have hline : p.state = .headers ∨ p.state = .trailer := by simp [hs]
    rw [token_of_line hline] at h
    by_cases hnil : p.partialBuffer = []
    · rw [if_neg (not_not.mpr hnil)] at h
      exact of_blankLine hline hnil h
    · rw [if_pos hnil] at h
      exact of_line hline hnil h
  case body =>
    simp only [token, hs, emit, Token.next.injEq] at h
    obtain ⟨rfl, rfl⟩ := h
    exact .body hs
  case chunkLength =>
    cases hn : stoul 16 p.partialBuffer with
    | error e => simp [token, hs, hn] at h
    | ok n =>
      simp only [token, hs, hn, Token.next.injEq] at h
      obtain ⟨rfl, rfl⟩ := h
      exact .chunkLength hs hn
  case chunk =>
    simp only [token, hs, Token.next.injEq] at h
    obtain ⟨rfl, rfl⟩ := h
    exact .chunk hs

/-- The loop goes on with a token in each of these ways. -/
theorem token_eq (h : Advances p emitted q) : token p = .next emitted q := by
  cases h with
  | version hs hv => simp [token, hs, hv]
  | code hs hn => simp [token, hs, hn]
  | message hs => simp [token, hs]
  | @header name value hs hne hsplit =>
    rw [token_of_line hs, if_pos hne]
    exact line_eq_next_iff.mpr ⟨rfl, name, value, hsplit, rfl⟩
  | sized hs hnil hfind hn =>
    rw [token_of_line (.inl hs), if_neg (not_not.mpr hnil), blankLine_of_headers hs, hfind]
    simp only [hn]
  | chunked hs hnil hfind hte =>
    rw [token_of_line (.inl hs), if_neg (not_not.mpr hnil), blankLine_of_headers hs, hfind]
    simp only [hte, if_true]
  | plain hs hnil hfind hte =>
    rw [token_of_line (.inl hs), if_neg (not_not.mpr hnil), blankLine_of_headers hs, hfind]
    simp only [hte, if_false]
    rfl
  | trailed hs hnil =>
    rw [token_of_line (.inr hs), if_neg (not_not.mpr hnil), blankLine_of_trailer hs]
    rfl
  | body hs => simp [token, hs, emit, gathered]
  | chunkLength hs hn => simp [token, hs, hn]
  | chunk hs => simp [token, hs]

end Advances

/-- The relation says all that the loop can go on with. -/
theorem token_eq_next_iff {p q : ResponseParser} {emitted : Option HttpResponse} :
    token p = .next emitted q ↔ Advances p emitted q :=
  ⟨.of_token, Advances.token_eq⟩

/-- A header line without the separator leaves the parser as it is. -/
theorem eq_of_line_threw {p q : ResponseParser} {e : StdException} (h : line p = .threw e q) : q = p := by
  unfold line at h
  split at h
  · exact (Token.threw.inj h).2.symm
  · cases h

/-- An empty line that announces what cannot be read leaves the parser of responses as it is. -/
theorem eq_of_blankLine_threw {p q : ResponseParser} {e : StdException} (h : blankLine p = .threw e q) :
    q = p := by
  unfold blankLine at h
  split at h
  · split at h
    · exact (Token.threw.inj h).2.symm
    · cases h
  · split at h <;> cases h

/-- A token that makes the loop throw leaves the parser as it was. -/
theorem eq_of_token_threw {p q : ResponseParser} {e : StdException} (h : token p = .threw e q) : q = p := by
  by_cases hline : p.state = .headers ∨ p.state = .trailer
  · rw [token_of_line hline] at h
    split_ifs at h
    · exact eq_of_line_threw h
    · exact eq_of_blankLine_threw h
  · cases hs : p.state
    case method | path =>
      simp only [token, hs, Token.threw.injEq] at h
      exact h.2.symm
    case version =>
      by_cases hv : p.partialBuffer ∈ supportedVersions <;>
        simp only [token, hs, hv, not_true_eq_false, not_false_eq_true, if_true, if_false,
          Token.threw.injEq, reduceCtorEq] at h
      exact h.2.symm
    case code =>
      cases hn : stoul 10 p.partialBuffer <;>
        simp only [token, hs, hn, Token.threw.injEq, reduceCtorEq] at h
      exact h.2.symm
    case chunkLength =>
      cases hn : stoul 16 p.partialBuffer <;>
        simp only [token, hs, hn, Token.threw.injEq, reduceCtorEq] at h
      exact h.2.symm
    case message | body | chunk => simp [token, hs, emit] at h
    case headers => exact absurd (.inl hs) hline
    case trailer => exact absurd (.inr hs) hline

/-- The delimiter of each state of a response. -/
def delimiterOf : EntityState → Bytes
  | .version | .code => ascii " "
  | .body => []
  | .method | .path | .message | .headers | .chunkLength | .chunk | .trailer => crlf

/-- The parser of responses begins with the delimiter of its state. -/
theorem wellFormed_fresh : fresh.WellFormed delimiterOf := by
  constructor <;> decide

/-- Every token leaves a parser of responses that waits for the delimiter of its state. -/
theorem grammar_lawful : grammar.Lawful delimiterOf where
  table_nil s h := by
    cases s <;> first | rfl | exact absurd h (by decide)
  token_next {p q emitted} hd hk h := by
    cases token_eq_next_iff.mp h with
    | version hs _ => exact ⟨by simpa [hs, delimiterOf] using hd, hk⟩
    | code | sized => exact ⟨rfl, hk⟩
    | message hs => exact ⟨by simpa [hs, delimiterOf] using hd, hk⟩
    | header hs _ _ => exact ⟨hd, hk⟩
    | chunked hs _ _ _ => exact ⟨by simpa [hs, delimiterOf] using hd, hk⟩
    | plain | trailed | body => exact ⟨rfl, rfl⟩
    | chunkLength hs _ =>
      refine ⟨?_, hk⟩
      split_ifs <;> simpa [hs, delimiterOf] using hd
    | chunk hs => exact ⟨by simpa [hs, delimiterOf] using hd, hk⟩
  token_body {p q emitted} hs h := by
    cases token_eq_next_iff.mp h with
    | version | code | message | sized | chunked | plain | trailed | chunkLength | chunk =>
      simp_all
    | header hs' => rcases hs' with hs' | hs' <;> simp_all
    | body => exact nofun

end ResponseParser

end PrimeServer
