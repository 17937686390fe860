import Mathlib.Data.List.DropRight
import PrimeServer.Http.Query
import PrimeServer.Http.Tokens

/-!
# The requests that a parser hands out

What holds of every request that `from_stream` returns, whatever it was given before, and whatever it
threw.

## Main results

* `Emitted.isRequest`: the version is supported, the path and the query were split from a text without
  NUL, and each header can be written on a line.
-/

namespace PrimeServer

open Chunking Delimiter

/-- A header that can be written on a line and read back. -/
structure IsHeader (e : Bytes × Bytes) : Prop where
  /-- The name ends at the first colon of the line. -/
  name : byte ':' ∉ e.1
  /-- The value does not begin with the spaces that the parser skips. -/
  value : e.2.dropWhile (· = byte ' ') = e.2
  /-- The delimiter of the line is not seen before its end. -/
  silent : Silent crlf (e.1 ++ ascii ": " ++ e.2)

theorem crlf_ne_nil : crlf ≠ [] := by decide

/-- A header line makes a header: only spaces at the start of its value are lost. -/
theorem isHeader_of_line {name after : Bytes} (hname : byte ':' ∉ name)
    (hsilent : Silent crlf (name ++ byte ':' :: after)) :
    IsHeader (name, after.dropWhile (· = byte ' ')) := by
  obtain ⟨hfirst, hafter⟩ := hsilent.split crlf_ne_nil (by decide)
  have hspaces : Silent crlf (after.takeWhile (· = byte ' ')) := by
    refine silent_of_disjoint crlf_ne_nil fun b hb => ?_
    obtain rfl : b = byte ' ' := by simpa using List.mem_takeWhile_imp hb
    decide
  have hvalue : Silent crlf (after.dropWhile (· = byte ' ')) := by
    refine hspaces.of_append crlf_ne_nil ?_
    rwa [List.takeWhile_append_dropWhile]
  have hspace : Silent crlf [byte ' '] := silent_of_disjoint crlf_ne_nil (by decide)
  refine ⟨hname, List.dropWhile_idempotent _ _, ?_⟩
  have hline := (hfirst.append crlf_ne_nil hspace).append crlf_ne_nil hvalue
  simpa [ascii] using hline

/-- What holds of a request that was handed out. -/
structure IsRequest (r : HttpRequest) : Prop where
  /-- The version is one of those that the parser takes. -/
  version : r.version ∈ supportedVersions
  /-- Path and query are what `split_path_query` can make of a text. -/
  target : IsTarget r.path r.query
  /-- Each header can be written on a line of its own. -/
  headers : ∀ e ∈ r.headers.entries, IsHeader e

namespace RequestParser

open HttpRequest

/-- The version of the request is known. -/
def Versioned : EntityState → Prop
  | .headers | .body | .chunkLength | .chunk | .trailer => True
  | .method | .message | .code | .path | .version => False

/-- What holds of a parser between turns of the loop, and also after an exception. -/
structure Formed (p : RequestParser) : Prop where
  /-- The parser has the delimiter of its state. -/
  wellFormed : p.WellFormed delimiterOf
  /-- The path was made from a C string and has no NUL. -/
  decoded : p.state = .version → 0 ∉ p.fields.path
  /-- Once the version was read the first line was one of a request. -/
  versioned : Versioned p.state → p.version ∈ supportedVersions ∧
    IsTarget p.fields.path p.fields.query
  /-- Each header that was read can be written on a line of its own. -/
  headers : ∀ e ∈ p.headers.entries, IsHeader e
  /-- On a header line nothing is skipped, and the buffer holds the line up to here. -/
  line : p.state = .headers ∨ p.state = .trailer →
    p.bodyLength = 0 ∧ scan crlf 0 p.partialBuffer = ⟨p.partialLength, p.partialBuffer, []⟩

/-- The parser that a connection begins with has nothing in it. -/
theorem formed_fresh : fresh.Formed where
  wellFormed := wellFormed_fresh
  decoded := nofun
  versioned := False.elim
  headers := nofun
  line := nofun

variable {curl : Curl} {p q t : RequestParser} {cursor : Bytes}

/-- Header and trailer lines end with a line break. -/
theorem Formed.delimiter_of_line (hp : p.Formed) (hs : p.state = .headers ∨ p.state = .trailer) :
    p.delimiter = crlf := by
  rw [hp.wellFormed.delimiter_eq]
  rcases hs with hs | hs <;> simp [hs, delimiterOf]

/-- The part of a header line that was read before leaves its search unfinished. -/
theorem Formed.partialLength_lt (hp : p.Formed) (hs : p.state = .headers ∨ p.state = .trailer) :
    p.partialLength < crlf.length := by
  have hle := hp.wellFormed.progress_le
  have hlength : crlf.length = 2 := rfl
  rw [hp.delimiter_of_line hs] at hle
  omega

/-- Running out of bytes inside a token does not change what was formed before. -/
theorem Formed.suspended (hp : p.Formed) (hc : ¬ p.Complete cursor) : Formed (p.suspended cursor) where
  wellFormed := hp.wellFormed.suspended hc
  decoded := hp.decoded
  versioned := hp.versioned
  headers := hp.headers
  line hs := by
    obtain ⟨hbody, hbuffer⟩ := hp.line hs
    have hd := hp.delimiter_of_line hs
    have hlt := hp.partialLength_lt hs
    simp only [Parser.Complete, SkipComplete, hbody, skipScan_zero, hd, not_and, Nat.not_le] at hc
    have hread := scan_of_incomplete (hc (Nat.zero_le _))
    have hwhole : scan crlf 0 (p.partialBuffer ++ cursor) =
        ⟨(scan crlf p.partialLength cursor).progress, p.partialBuffer ++ cursor, []⟩ := by
      rw [scan_append_of_incomplete (by simpa [hbuffer] using hlt), hbuffer, hread]
    refine ⟨by simp [Parser.suspended, hbody], ?_⟩
    simpa [Parser.suspended, Parser.search, hbody, hd] using hwhole

/-- Completing a token does not change what was formed before. -/
theorem Formed.completed (hp : p.Formed) (hc : p.Complete cursor) : Formed (p.completed cursor) where
  wellFormed := ⟨hp.wellFormed.delimiter_eq, Nat.zero_le _⟩
  decoded := hp.decoded
  versioned := hp.versioned
  headers := hp.headers
  line hs := by
    obtain ⟨hbody, hbuffer⟩ := hp.line hs
    have hd := hp.delimiter_of_line hs
    simp only [Parser.Complete, SkipComplete, hbody, skipScan_zero, hd] at hc
    have hsilent := silent_take_of_scan hbuffer (hp.partialLength_lt hs) hc.2
    refine ⟨rfl, ?_⟩
    simpa [Parser.completed, Parser.search, hbody, hd, Silent] using hsilent

/-- A token that throws leaves the parser formed: the texts that it has set aside are in order. -/
theorem Formed.threw (hp : p.Formed) {e : RequestError} (h : token curl p = .threw e q) : q.Formed := by
  obtain ⟨logLine, rfl⟩ := eq_of_token_threw h
  exact ⟨⟨hp.wellFormed.delimiter_eq, hp.wellFormed.progress_le⟩, hp.decoded, hp.versioned,
    hp.headers, hp.line⟩

/-- A parser that starts over. -/
theorem formed_flushStream (p : RequestParser) : (flushStream p).Formed where
  wellFormed := ⟨rfl, Nat.zero_le _⟩
  decoded := nofun
  versioned := False.elim
  headers := nofun
  line := nofun

/-- A target that was decoded is a C string, and has no NUL in it. -/
theorem zero_not_mem_of_urlDecode {encoded path : Bytes} (h : urlDecode curl encoded = .ok path) :
    0 ∉ path := by
  unfold urlDecode at h
  split at h
  · cases h
  · injection h with h
    exact h ▸ zero_not_mem_cString _

/-- A token leads from a state of a request to another one, and hands out only requests. -/
theorem Formed.advances (hp : p.Formed) (hk : p.partialLength = 0) (hb : p.bodyLength = 0)
    {emitted : Option HttpRequest} (h : Advances curl p emitted q) :
    Formed q.clearBuffer ∧ ∀ r ∈ emitted, IsRequest r := by
  have hwellFormed : q.clearBuffer.WellFormed delimiterOf := by
    obtain ⟨hd, hk'⟩ := (grammar_lawful curl 0).token_next hp.wellFormed.delimiter_eq hk
      (token_eq_next_iff.mpr h)
    exact ⟨hd, by simp [Parser.clearBuffer, hk']⟩
  have hscan : scan crlf 0 [] = ⟨p.partialLength, [], []⟩ := by rw [hk, scan_nil]
  cases h with
  | method | sized | chunked | chunk =>
    -- no line begins, and the start line stays as it is, if it has been read
    refine ⟨⟨hwellFormed, fun hs => (by cases hs), fun hs => ?_, hp.headers,
      fun hs => (by rcases hs with hs | hs <;> cases hs)⟩, fun _ hr => by cases hr⟩
    first
    | exact hs.elim
    | exact hp.versioned (by simp_all [Versioned])
  | path hs hdecode =>
    exact ⟨⟨hwellFormed, fun _ => zero_not_mem_of_urlDecode hdecode, False.elim, hp.headers,
      fun hs => (by rcases hs with hs | hs <;> cases hs)⟩, fun _ hr => by cases hr⟩
  | version hs hv =>
    refine ⟨⟨hwellFormed, fun hs => (by cases hs), fun _ => ⟨hv, ?_⟩, hp.headers, fun _ => ⟨hb, hscan⟩⟩,
      fun _ hr => by cases hr⟩
    exact isTarget_splitPathQuery (hp.decoded hs)
  | @header name after hs hne hsplit =>
    refine ⟨⟨hwellFormed, fun hs' => ?_, hp.versioned, fun e he => ?_, fun _ => ⟨hb, hscan⟩⟩,
      fun _ hr => by cases hr⟩
    · rcases hs with hs | hs <;> simp [Parser.clearBuffer, hs] at hs'
    · rcases AssocMap.mem_entries_insert he with he | rfl
      · exact hp.headers e he
      · -- the line has no line end inside, and the name is what is before the first `:`
        obtain ⟨hline, hname⟩ := eq_of_splitAt hsplit
        have hsilent : Silent crlf p.partialBuffer := by
          rw [Silent, (hp.line hs).2, hk]
        exact isHeader_of_line hname (hline ▸ hsilent)
  | plain hs | trailed hs | body hs =>
    refine ⟨formed_flushStream _, ?_⟩
    rintro r ⟨⟩
    obtain ⟨hversion, htarget⟩ := hp.versioned (by simp [hs, Versioned])
    exact ⟨hversion, htarget, hp.headers⟩
  | @chunkLength n hs hn =>
    by_cases hzero : n = 0
    · -- trailer lines begin
      subst hzero
      refine ⟨⟨hwellFormed, fun hs => (by cases hs), fun _ => ?_, hp.headers, fun _ => ⟨rfl, hscan⟩⟩,
        fun _ hr => by cases hr⟩
      exact hp.versioned (by simp [hs, Versioned])
    · simp only [hzero, ne_eq, not_false_eq_true, if_true] at hwellFormed ⊢
      refine ⟨⟨hwellFormed, fun hs => (by cases hs), fun _ => ?_, hp.headers,
        fun hs => (by rcases hs with hs | hs <;> cases hs)⟩, fun _ hr => by cases hr⟩
      exact hp.versioned (by simp [hs, Versioned])

/-- The parser that a call leaves is in order, and what the call hands out are requests. -/
def InOrder : Reading RequestParser HttpRequest RequestError → Prop
  | .threw _ q => q.Formed
  | .returned requests q => q.Formed ∧ ∀ request ∈ requests, IsRequest request
  | .diverged => True

/-- A reading from a parser that is in order. -/
theorem Formed.reads {maxSize : ℕ} {r : Reading RequestParser HttpRequest RequestError}
    (h : (grammar curl maxSize).Reads p cursor r) (hp : p.Formed) : InOrder r := by
  induction h with
  | @stop p cursor r hturn =>
    cases Grammar.turn_eq_stop_iff.mp hturn with
    | oversized => exact hp
    | threw _ hc htoken => exact (hp.completed hc).threw htoken
    | ranOut _ hc => exact hp.suspended hc
    | suspended _ hc => exact ⟨hp.suspended hc, List.forall_mem_nil _⟩
  | @again p q cursor rest emitted r hturn _ ih =>
    obtain ⟨-, hc, -, s, htoken, rfl⟩ := Grammar.turn_eq_again_iff.mp hturn
    obtain ⟨hnext, hemitted⟩ := (hp.completed hc).advances rfl rfl (token_eq_next_iff.mp htoken)
    have hrest : InOrder r := ih hnext
    cases r with
    | threw | diverged => exact hrest
    | returned requests q =>
      obtain ⟨hq, hrequests⟩ := hrest
      refine ⟨hq, fun request hmem => ?_⟩
      rcases List.mem_append.mp hmem with hmem | hmem
      · exact hemitted request (by simpa using hmem)
      · exact hrequests request hmem

/-- Every request that is handed out of a call is in order, and so is the parser after it. -/
theorem Formed.fromStream (hp : p.Formed) (maxSize : ℕ) (start : Bytes) :
    InOrder (p.fromStream curl maxSize start) := by
  by_cases hne : start = []
  · rw [RequestParser.fromStream, Grammar.fromStream, if_pos hne]
    exact ⟨hp, List.forall_mem_nil _⟩
  · exact hp.reads (((grammar_lawful curl maxSize).fromStream_eq_iff_reads hp.wellFormed hne).mp rfl)

/-- The parsers between calls of `from_stream`, whatever they were given and whatever they threw. -/
inductive Reachable (curl : Curl) : RequestParser → Prop where
  /-- A new parser. -/
  | fresh : Reachable curl fresh
  /-- A call of `from_stream` with any limit has returned. -/
  | returned {p q : RequestParser} {maxSize : ℕ} {start : Bytes} {requests : List HttpRequest}
      (hp : Reachable curl p) (h : p.fromStream curl maxSize start = .returned requests q) :
      Reachable curl q
  /-- A call of `from_stream` with any limit has thrown. -/
  | threw {p q : RequestParser} {maxSize : ℕ} {start : Bytes} {e : RequestError}
      (hp : Reachable curl p) (h : p.fromStream curl maxSize start = .threw e q) : Reachable curl q

/-- Every parser that calls of `from_stream` can lead to is formed. -/
theorem Reachable.formed (h : Reachable curl p) : p.Formed := by
  induction h with
  | fresh => exact formed_fresh
  | @returned p q maxSize start requests _ h ih =>
    have horder : InOrder (p.fromStream curl maxSize start) := ih.fromStream maxSize start
    rw [h] at horder
    exact horder.1
  | @threw p q maxSize start e _ h ih =>
    have horder : InOrder (p.fromStream curl maxSize start) := ih.fromStream maxSize start
    rwa [h] at horder

end RequestParser

/-- The requests that `from_stream` hands out on any stream of bytes, cut into any messages. -/
def Emitted (curl : Curl) (r : HttpRequest) : Prop :=
  ∃ p maxSize start requests q, RequestParser.Reachable curl p ∧
    p.fromStream curl maxSize start = .returned requests q ∧ r ∈ requests

/-- Every request that is handed out by any call, after any others, is in order. -/
theorem Emitted.isRequest {curl : Curl} {r : HttpRequest} (h : Emitted curl r) : IsRequest r := by
  obtain ⟨p, maxSize, start, requests, q, hp, hreturned, hmem⟩ := h
  have horder : RequestParser.InOrder (p.fromStream curl maxSize start) :=
    hp.formed.fromStream maxSize start
  rw [hreturned] at horder
  exact horder.2 r hmem

/-- What `from_string` reads, `from_stream` hands out. -/
theorem emitted_of_fromString {curl : Curl} (start : Bytes) {r : HttpRequest}
    (h : HttpRequest.fromString curl start = some (.ok r)) : Emitted curl r := by
  unfold HttpRequest.fromString at h
  split at h
  case h_2 request requests q hreturned =>
    obtain rfl : request = r := by simpa using h
    exact ⟨_, _, _, _, _, .fresh, hreturned, List.mem_cons_self⟩
  all_goals simp at h

end PrimeServer
