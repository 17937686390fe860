import PrimeServer.Http.Entity

/-!
# HTTP responses

`http_response_t`: the text of a response (`generic`, `to_string`) and the streaming parser.
-/

namespace PrimeServer

open Chunking

/-- The standard exceptions thrown by the protocol code. -/
inductive StdException where
  /-- A `std::runtime_error` with this text. -/
  | runtimeError (what : String)
  /-- What `stoul` throws. -/
  | stoul (e : StoulError)
  deriving DecidableEq

/-- The message part of `http_response_t`. -/
structure HttpResponse where
  /-- The status code. -/
  code : ℕ
  /-- The reason phrase. -/
  message : Bytes
  body : Bytes
  headers : Headers
  version : Bytes
  deriving DecidableEq

/-- What `http_response_t` adds to the parser state. -/
structure ResponseFields where
  /-- The status code, when it was read. -/
  code : ℕ
  /-- The reason phrase, when it was read. -/
  message : Bytes
  deriving DecidableEq

/-- `http_response_t` as a streaming parser. -/
abbrev ResponseParser := Parser ResponseFields

/-- One header line of a message. -/
def headerLine (name value : Bytes) : Bytes := name ++ ascii ": " ++ value ++ crlf

namespace HttpResponse

/-- `http_response_t::generic`. -/
def generic (code : ℕ) (message : Bytes) (headers : Headers) (body version : Bytes) : Bytes :=
  version ++ ascii " " ++ decimal code ++ ascii " " ++ message ++ crlf ++
    (headers.entries.flatMap fun (name, value) =>
      if name = ascii "Content-Length" then [] else headerLine name value) ++
    ascii "Content-Length: " ++ decimal body.length ++ crlf ++ crlf ++ body

/-- `http_response_t::to_string`. -/
def toString (r : HttpResponse) : Bytes :=
  generic r.code r.message r.headers r.body r.version

/-- `http_response_t::to_string`, where the headers come in this order. -/
def toStringIn (order : AssocMap.Order caseless Bytes) (r : HttpResponse) : Bytes :=
  toString { r with headers := order.arrange r.headers }

/-- With at most one header there is only one order. -/
theorem toStringIn_eq (order : AssocMap.Order caseless Bytes) {r : HttpResponse}
    (hone : r.headers.entries.length ≤ 1) : r.toStringIn order = r.toString := by
  rw [toStringIn, (order.same r.headers).eq_of_length_le_one hone]

end HttpResponse

namespace ResponseParser

/-- `http_response_t::flush_stream`. -/
def flushStream (p : ResponseParser) : ResponseParser :=
  { p with
    toHttpEntity := p.toHttpEntity.flushStream .version
    fields := { p.fields with message := [] } }

/-- `http_response_t()`. Its `code` is not initialised in the source and not read before it is set. -/
def fresh : ResponseParser :=
  flushStream { toHttpEntity := .make [] .empty [], fields := { code := 0, message := [] } }

/-- The response gathered so far. -/
def gathered (p : ResponseParser) : HttpResponse where
  code := p.fields.code
  message := p.fields.message
  body := p.body
  headers := p.headers
  version := p.version

/-- Hand out the response gathered so far and start over. -/
def emit (p : ResponseParser) : Token ResponseFields HttpResponse StdException :=
  .next (some p.gathered) (flushStream p)

/-- The end of the header lines or of the trailer lines. -/
def blankLine (p : ResponseParser) : Token ResponseFields HttpResponse StdException :=
  match if p.state ≠ .trailer then p.headers.find (ascii "Content-Length") else none with
  -- standard length specified
  | some value =>
    match stoul 10 value with
    | .error e => .threw (.stoul e) p
    | .ok bodyLength => .next none { p with bodyLength, delimiter := [], state := .body }
  | none =>
    -- streaming chunks
    if p.state ≠ .trailer ∧ p.headers.find (ascii "Transfer-Encoding") = some (ascii "chunked") then
      .next none { p with state := .chunkLength }
    else emit p

/-- The `switch` in `http_response_t::from_stream`. -/
def token (p : ResponseParser) : Token ResponseFields HttpResponse StdException :=
  match p.state with
  | .method | .path => .threw (.runtimeError "invalid state") p
  | .message =>
    .next none { p with fields := { p.fields with message := p.partialBuffer }, state := .headers }
  | .code =>
    match stoul 10 p.partialBuffer with
    | .error e => .threw (.stoul e) p
    | .ok code =>
      .next none
        { p with
          fields := { p.fields with code := code % 2 ^ 16 }
          delimiter := crlf
          state := .message }
  | .version =>
    if p.partialBuffer ∉ supportedVersions then .threw (.runtimeError "Unknown http version") p
    else .next none { p with version := p.partialBuffer, state := .code }
  | .trailer | .headers =>
    -- a header is here
    if p.partialBuffer ≠ [] then
      match splitAtSeparator (ascii ": ") p.partialBuffer with
      | none => .threw (.runtimeError "Expected http header") p
      | some (name, value) => .next none { p with headers := p.headers.insert name value }
    -- the end or body
    else blankLine p
  | .body => emit { p with body := p.partialBuffer }
  | .chunkLength =>
    match stoul 16 p.partialBuffer with
    | .error _ => .threw (.runtimeError "Expected chunk length") p
    | .ok bodyLength =>
      .next none { p with bodyLength, state := if bodyLength ≠ 0 then .chunk else .trailer }
  | .chunk => .next none { p with body := p.body ++ p.partialBuffer, state := .chunkLength }

/-- How `http_response_t::from_stream` reads tokens. It makes no check of its own. -/
def grammar : Grammar ResponseFields HttpResponse StdException where
  oversized _ := none
  ranOut _ := none
  token := token

/-- `http_response_t::from_stream`. -/
def fromStream (p : ResponseParser) (start : Bytes) :
    Reading ResponseParser HttpResponse StdException :=
  grammar.fromStream p start

end ResponseParser

end PrimeServer
