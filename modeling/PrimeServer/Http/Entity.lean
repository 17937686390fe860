import PrimeServer.Cpp.Stoul
import PrimeServer.Library.AssocMap
import PrimeServer.Library.Chunking
import PrimeServer.Library.Delimiter

/-!
# HTTP entities

What `http_request_t` and `http_response_t` share: the data of `http_entity_t`, the tokenizer
`consume_until`, and the loop of the two `from_stream` functions, which are written out twice in the
source and differ only in what they do with a token.

The two pointers `cursor` and `end` of the source are the list of the bytes that lie between them.
-/

namespace PrimeServer

open Chunking

/-- The normal form under which `caseless_predicates_t` hashes and compares header names. -/
def caseless (name : Bytes) : Bytes := name.map tolower

/-- `headers_t`. -/
abbrev Headers := AssocMap caseless Bytes

/-- `http_entity_t::state_t`. -/
inductive EntityState where
  | method | message | code | path | version | headers | body | chunkLength | chunk | trailer
  deriving DecidableEq

/-- The keys of `SUPPORTED_VERSIONS`. -/
def supportedVersions : List Bytes := [ascii "HTTP/1.0", ascii "HTTP/1.1"]

/-- `http_entity_t`: the parts of a message and the state of the streaming parser. -/
structure HttpEntity where
  /-- The version of the message, when it was read. -/
  version : Bytes
  /-- The headers that were read so far. -/
  headers : Headers
  /-- The part of the body that was read so far. -/
  body : Bytes
  /-- The C string that ends the current token. -/
  delimiter : Bytes
  /-- The bytes of the current token that earlier calls read. -/
  partialBuffer : Bytes
  /-- How much of the delimiter was seen last. -/
  partialLength : ℕ
  /-- The token that is being read. -/
  state : EntityState
  /-- How many bytes of the current token are still to be skipped before its delimiter counts. -/
  bodyLength : ℕ
  /-- The bytes of finished tokens, counted since the last `flush_stream`. -/
  consumed : ℕ
  deriving DecidableEq

namespace HttpEntity

/-- `http_entity_t::flush_stream`. -/
def flushStream (e : HttpEntity) (state : EntityState) : HttpEntity :=
  { e with
    state
    delimiter := ascii " "
    partialLength := 0
    bodyLength := 0
    consumed := 0
    partialBuffer := []
    version := []
    headers := .empty
    body := [] }

/-- A constructed entity of the given version, headers and body, `http_entity_t::http_entity_t`. -/
def make (version : Bytes) (headers : Headers) (body : Bytes) : HttpEntity where
  version
  headers
  body
  delimiter := ascii " "
  partialBuffer := []
  partialLength := 0
  state := .method
  bodyLength := 0
  consumed := 0

/-- How many bytes at `cursor` are skipped on account of `body_length`, and what is left of it. -/
def skip (bodyLength : ℕ) (cursor : Bytes) : ℕ × ℕ :=
  if bodyLength ≠ 0 then
    -- we have enough
    if bodyLength < cursor.length then (bodyLength, 0)
    -- we dont
    else (cursor.length, bodyLength - cursor.length)
  else (0, 0)

/-- `http_entity_t::consume_until`: whether the token is complete, the entity with the token or what
there is of it in `partialBuffer`, and the bytes after it. -/
def consumeUntil (e : HttpEntity) (cursor : Bytes) : Bool × HttpEntity × Bytes :=
  -- go until we consumed enough bytes
  let (skipped, bodyLength) := skip e.bodyLength cursor
  -- go until delimiter
  let search := Delimiter.scan e.delimiter e.partialLength (cursor.drop skipped)
  let read := cursor.take skipped ++ search.read
  -- we found the delimiter
  if e.delimiter.length ≤ search.progress ∧ bodyLength = 0 then
    (true,
      { e with
        partialBuffer :=
          if read.length < search.progress then
            e.partialBuffer.take (e.partialBuffer.length - (search.progress - read.length))
          else e.partialBuffer ++ read.take (read.length - search.progress)
        partialLength := 0
        bodyLength
        consumed := (e.consumed + read.length) % 2 ^ 64 },
      search.rest)
  -- we ran out
  else
    (false,
      { e with
        partialBuffer := e.partialBuffer ++ read
        partialLength := search.progress
        bodyLength },
      search.rest)

/-- As many bytes as are left of a body are skipped, at most all that have come, and the count goes down by them. -/
theorem skip_eq (bodyLength : ℕ) (cursor : Bytes) :
    skip bodyLength cursor = (min bodyLength cursor.length, bodyLength - cursor.length) := by
  unfold skip
  split_ifs <;> simp <;> omega

end HttpEntity

/-- A streaming parser: an `http_entity_t` and the fields that its subclass adds. -/
structure Parser (φ : Type) extends HttpEntity where
  /-- What the subclass adds. -/
  fields : φ
  deriving DecidableEq

/-- What `from_stream` does with a complete token. -/
inductive Token (φ μ ε : Type) where
  /-- Go on, with the message that the token completed if it completed one. -/
  | next (emitted : Option μ) (p : Parser φ)
  /-- Throw. -/
  | threw (error : ε) (p : Parser φ)
  deriving DecidableEq

/-- What the two `from_stream` functions do in their own way. -/
structure Grammar (φ μ ε : Type) where
  /-- The check at the top of the loop. -/
  oversized : Parser φ → Option ε
  /-- The checks made when the bytes ran out inside a token. -/
  ranOut : Parser φ → Option ε
  /-- The `switch` over the state, run on a complete token. -/
  token : Parser φ → Token φ μ ε

/-- One turn of the loop. -/
inductive Turn (φ μ ε : Type) where
  /-- The loop is left. -/
  | stop (result : Reading (Parser φ) μ ε)
  /-- The loop goes on. -/
  | again (emitted : Option μ) (p : Parser φ) (cursor : Bytes)
  deriving DecidableEq

section Loop

variable {φ μ ε : Type}

namespace Parser

/-- `consume_until` on the entity of a parser. -/
def consumeUntil (p : Parser φ) (cursor : Bytes) : Bool × Parser φ × Bytes :=
  let (found, e, rest) := p.toHttpEntity.consumeUntil cursor
  (found, { p with toHttpEntity := e }, rest)

/-- `partial_buffer.clear()`. -/
def clearBuffer (p : Parser φ) : Parser φ := { p with partialBuffer := [] }

/-- The parser up to the byte count, which depends on how the bytes were cut into calls. -/
def uncounted (p : Parser φ) : Parser φ := { p with consumed := 0 }

end Parser

namespace Grammar

/-- One turn of the loop in `from_stream`. -/
def turn (g : Grammar φ μ ε) (p : Parser φ) (cursor : Bytes) : Turn φ μ ε :=
  match g.oversized p with
  | some e => .stop (.threw e p)
  | none =>
    match p.consumeUntil cursor with
    | (false, p, _) =>
      match g.ranOut p with
      | some e => .stop (.threw e p)
      | none => .stop (.returned [] p)
    | (true, p, cursor) =>
      match g.token p with
      | .threw e p => .stop (.threw e p)
      | .next emitted p => .again emitted p.clearBuffer cursor

/-- The loop of `from_stream`, for at most `fuel` turns. -/
def loop (g : Grammar φ μ ε) : ℕ → Parser φ → Bytes → Reading (Parser φ) μ ε
  | 0, _, _ => .diverged
  | fuel + 1, p, cursor =>
    match g.turn p cursor with
    | .stop result => result
    | .again emitted p cursor => (g.loop fuel p cursor).prepend emitted.toList

/-- `from_stream`. No turn but one on an empty body leaves all bytes where they are, so the loop takes
at most two turns for each byte and two at the end. -/
def fromStream (g : Grammar φ μ ε) (p : Parser φ) (start : Bytes) : Reading (Parser φ) μ ε :=
  if start = [] then .returned [] p else g.loop (2 * start.length + 2) p start

end Grammar

end Loop

end PrimeServer
