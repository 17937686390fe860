import PrimeServer.Http.Response

/-!
# HTTP requests

`http_request_t`: the text of a request (`to_string`), the split of a path and its query, and the
streaming parser. libcurl is not part of the repository: its two functions are the parameter `Curl`,
and `Curl.Documented` says what its documentation promises of them.
-/

namespace PrimeServer

open Chunking

/-- `method_t`. -/
inductive Method where
  | options | get | head | post | put | delete | trace | connect
  deriving DecidableEq

/-- `STRING_TO_METHOD`. -/
def stringToMethod : List (Bytes × Method) :=
  [(ascii "OPTIONS", .options), (ascii "GET", .get), (ascii "HEAD", .head), (ascii "POST", .post),
    (ascii "PUT", .put), (ascii "DELETE", .delete), (ascii "TRACE", .trace),
    (ascii "CONNECT", .connect)]

/-- `METHOD_TO_STRING`. -/
def methodToString : List (Method × Bytes) :=
  [(.options, ascii "OPTIONS"), (.get, ascii "GET"), (.head, ascii "HEAD"), (.post, ascii "POST"),
    (.put, ascii "PUT"), (.delete, ascii "DELETE"), (.trace, ascii "TRACE"),
    (.connect, ascii "CONNECT")]

/-- `name_max`: the length of the longest name. -/
def nameMax (names : List Bytes) : ℕ := names.foldl (fun i name => max i name.length) 0

/-- `METHOD_MAX_SIZE`. -/
def methodMaxSize : ℕ := nameMax (stringToMethod.map Prod.fst) + 1

/-- `VERSION_MAX_SIZE`. -/
def versionMaxSize : ℕ := nameMax supportedVersions + 2

/-- `query_t`. -/
abbrev Query := AssocMap (id : Bytes → Bytes) (List Bytes)

/-! ### libcurl -/

/-- `curl_escape` and `curl_unescape`: they take a string and its length as an `int`, and return a C
string, or null. -/
structure Curl where
  /-- `curl_easy_escape`, with the length as an `int`. -/
  escape : Bytes → ℤ → Option Bytes
  /-- `curl_easy_unescape`, with the length as an `int`, up to the first NUL of what it returns. -/
  unescape : Bytes → ℤ → Option Bytes

/-- The characters that a URL need not escape. -/
def isUnreserved (b : UInt8) : Bool :=
  (byte 'a' ≤ b && b ≤ byte 'z') || (byte 'A' ≤ b && b ≤ byte 'Z') ||
    (byte '0' ≤ b && b ≤ byte '9') || b = byte '-' || b = byte '.' || b = byte '_' || b = byte '~'

/-- A hexadecimal digit. -/
def hexDigit (n : UInt8) : UInt8 := if n < 10 then 48 + n else 55 + n

/-- A byte as it stands in a URL. -/
def percentEncodeByte (b : UInt8) : Bytes :=
  if isUnreserved b then [b] else [byte '%', hexDigit (b / 16), hexDigit (b % 16)]

/-- A text as it stands in a URL: every byte outside the unreserved characters is escaped. -/
def percentEncode (s : Bytes) : Bytes := s.flatMap percentEncodeByte

/-- The documented behaviour of libcurl on texts without NUL whose length fits an `int`: escaping
percent-encodes, and unescaping undoes it. -/
structure Curl.Documented (curl : Curl) : Prop where
  /-- Escaping gives the percent-encoding. -/
  escape : ∀ s : Bytes, 0 ∉ s → s.length < 2 ^ 31 → curl.escape s s.length = some (percentEncode s)
  /-- Unescaping gives back what was encoded. -/
  unescape : ∀ s : Bytes, 0 ∉ s → (percentEncode s).length < 2 ^ 31 →
    curl.unescape (percentEncode s) (percentEncode s).length = some s

/-- `url_encode`. -/
def urlEncode (curl : Curl) (unencoded : Bytes) : Except StdException Bytes :=
  match curl.escape unencoded (toInt unencoded.length) with
  | none => .error (.runtimeError "url encoding failed")
  | some encoded => .ok (cString encoded)

/-- `url_decode`. -/
def urlDecode (curl : Curl) (encoded : Bytes) : Except StdException Bytes :=
  match curl.unescape encoded (toInt encoded.length) with
  | none => .error (.runtimeError "url decoding failed")
  | some decoded => .ok (cString decoded)

/-! ### The text of a request -/

/-- The message part of `http_request_t`. -/
structure HttpRequest where
  method : Method
  path : Bytes
  query : Query
  body : Bytes
  headers : Headers
  version : Bytes
  /-- The first line of the request as it was received. -/
  logLine : Bytes
  deriving DecidableEq

namespace HttpRequest

/-- The parameters of a query as `to_string` writes them. -/
def renderParameters : List (Bytes × Bytes) → Bytes
  | [] => []
  | [(key, value)] => key ++ ascii "=" ++ value
  | (key, value) :: rest => key ++ ascii "=" ++ value ++ ascii "&" ++ renderParameters rest

/-- The path and query string that `to_string` puts together. -/
def pathQuery (r : HttpRequest) : Bytes :=
  if r.query.entries ≠ [] then
    r.path ++ ascii "?" ++ renderParameters (AssocMap.pairs r.query.entries)
  else r.path

/-- The header lines that `to_string` writes. -/
def headerLines (headers : Headers) : Bytes :=
  headers.entries.flatMap fun (name, value) => headerLine name value

/-- What `to_string` writes after the header lines. -/
def lengthAndBody (r : HttpRequest) : Bytes :=
  if r.body ≠ [] then
    (if r.headers.find (ascii "Content-Length") = none then
      headerLine (ascii "Content-Length") (decimal r.body.length) else []) ++ crlf ++ r.body
  else crlf

/-- `http_request_t::to_string`. -/
def toString (curl : Curl) (r : HttpRequest) : Except StdException Bytes :=
  match methodToString.lookup r.method with
  | none => .error (.runtimeError "Unsupported http request method")
  | some method =>
    match urlEncode curl r.pathQuery with
    | .error e => .error e
    | .ok encoded =>
      .ok (method ++ ascii " " ++ encoded ++ ascii " " ++ r.version ++ crlf ++
        headerLines r.headers ++ r.lengthAndBody)

/-- `http_request_t::request_exception_t`. -/
structure RequestException where
  /-- The text of the response that the client is sent. -/
  response : Bytes
  /-- The code of that response. -/
  code : ℕ
  deriving DecidableEq

/-- The constructor of `request_exception_t`. -/
def RequestException.ofResponse (response : HttpResponse) : RequestException where
  response := response.toString
  code := response.code

/-- One of the `RESPONSE_` constants. -/
def rejection (code : ℕ) (message body : String) : RequestException :=
  .ofResponse
    { code
      message := ascii message
      body := ascii body
      headers := AssocMap.empty.insert (ascii "Access-Control-Allow-Origin") (ascii "*")
      version := ascii "HTTP/1.1" }

/-- `RESPONSE_400`. -/
def response400 : RequestException := rejection 400 "Bad Request" "Malformed HTTP request"

/-- `RESPONSE_413`. -/
def response413 : RequestException :=
  rejection 413 "Request Entity Too Large" "The HTTP request was too large"

/-- `RESPONSE_500`. -/
def response500 : RequestException :=
  rejection 500 "Internal Server Error"
    "The server encountered an unexpected condition which prevented it from fulfilling the request"

/-- `RESPONSE_501`. -/
def response501 : RequestException :=
  rejection 501 "Not Implemented" "The HTTP request method is not supported"

/-- `RESPONSE_504`. -/
def response504 : RequestException :=
  rejection 504 "Gateway Time-out" "The server didn't respond in time"

/-- `RESPONSE_505`. -/
def response505 : RequestException :=
  rejection 505 "HTTP Version Not Supported" "The HTTP request version is not supported"

end HttpRequest

/-! ### Splitting a path and its query -/

/-- The iterators of the loop in `split_path_query`: the text from `key_start` on, the text from
`value_start` on, and the key that `kv` points to, if it points to one. -/
structure SplitState where
  /-- The text from `key_start` on. -/
  sinceKey : Bytes
  /-- The text from `value_start` on. -/
  sinceValue : Bytes
  /-- The key that `kv` points to, if it points to one. -/
  kv : Option Bytes
  /-- The query so far. -/
  query : Query

namespace SplitState

/-- Store the value that ends here, or an empty one for a key without value. -/
def store (st : SplitState) : Query :=
  match st.kv with
  -- we have a key where we can put this value
  | some key => st.query.modify key (· ++ [st.sinceValue])
  -- there mustn't have been a value
  | none => st.query.push st.sinceKey []

/-- One turn of the loop over the characters of the query. -/
def step (st : SplitState) (c : UInt8) : SplitState :=
  if c = byte '&' then { sinceKey := [], sinceValue := [], kv := none, query := st.store }
  else if c = byte '=' ∧ st.kv = none then
    { sinceKey := st.sinceKey ++ [c]
      sinceValue := []
      kv := some st.sinceKey
      query := st.query.insert st.sinceKey [] }
  else { st with sinceKey := st.sinceKey ++ [c], sinceValue := st.sinceValue ++ [c] }

/-- The query when all characters are read. -/
def finish (st : SplitState) : Query :=
  if st.sinceKey ≠ [] then st.store else st.query

end SplitState

/-- The loop of `split_path_query` over the text that starts at `key_start`. -/
def splitQuery (text : Bytes) : Query :=
  (text.foldl SplitState.step { sinceKey := [], sinceValue := [], kv := none, query := .empty }).finish

/-- `http_request_t::split_path_query`: the truncated path and the query. Where there is no `?`,
`query_begin` is `npos`, and `begin() + npos + 1` is `begin()` again: all of the path is read as a
query, and the path stays as it is. -/
def splitPathQuery (path : Bytes) : Bytes × Query :=
  match splitAt (byte '?') path with
  | none => (path, splitQuery path)
  | some (before, after) => (before, splitQuery after)

/-! ### The streaming parser -/

/-- What `http_request_t` adds to the parser state. -/
structure RequestFields where
  method : Method
  path : Bytes
  query : Query
  /-- The first line of the request as far as it was read. -/
  logLine : Bytes
  deriving DecidableEq

/-- `http_request_t` as a streaming parser. -/
abbrev RequestParser := Parser RequestFields

/-- What `http_request_t::from_stream` throws. -/
inductive RequestError where
  /-- A `request_exception_t`, which has a response for the client. -/
  | request (e : HttpRequest.RequestException)
  /-- An exception from the standard library. -/
  | std (e : StdException)
  deriving DecidableEq

namespace RequestParser

open HttpRequest

/-- `http_request_t::flush_stream`. -/
def flushStream (p : RequestParser) : RequestParser :=
  { p with
    toHttpEntity := p.toHttpEntity.flushStream .method
    fields := { p.fields with path := [], query := .empty } }

/-- `http_request_t()`. Its `method` is not initialised in the source and not read before it is
set. -/
def fresh : RequestParser :=
  flushStream
    { toHttpEntity := .make [] .empty []
      fields := { method := .get, path := [], query := .empty, logLine := [] } }

/-- The request gathered so far. -/
def gathered (p : RequestParser) : HttpRequest where
  method := p.fields.method
  path := p.fields.path
  query := p.fields.query
  body := p.body
  headers := p.headers
  version := p.version
  logLine := p.fields.logLine

/-- Hand out the request gathered so far and start over. -/
def emit (p : RequestParser) : Token RequestFields HttpRequest RequestError :=
  .next (some p.gathered) (flushStream { p with fields := { p.fields with logLine := [] } })

/-- The end of the header lines or of the trailer lines. -/
def blankLine (p : RequestParser) : Token RequestFields HttpRequest RequestError :=
  match if p.state ≠ .trailer then p.headers.find (ascii "Content-Length") else none with
  -- standard length specified
  | some value =>
    match stoul 10 value with
    | .error _ => .threw (.request response400) p
    | .ok bodyLength => .next none { p with bodyLength, delimiter := [], state := .body }
  | none =>
    -- streaming chunks
    if p.state ≠ .trailer ∧ p.headers.find (ascii "Transfer-Encoding") = some (ascii "chunked") then
      .next none { p with state := .chunkLength }
    -- simple GET or end of TRAILER
    else emit p

/-- The `switch` in `http_request_t::from_stream`. -/
def token (curl : Curl) (p : RequestParser) : Token RequestFields HttpRequest RequestError :=
  match p.state with
  | .message | .code => .threw (.request response500) p
  | .method =>
    match stringToMethod.lookup p.partialBuffer with
    | none => .threw (.request response501) p
    | some method =>
      .next none
        { p with
          fields := { p.fields with method, logLine := p.partialBuffer ++ p.delimiter }
          state := .path }
  | .path =>
    let p := { p with
      fields := { p.fields with logLine := p.fields.logLine ++ p.partialBuffer ++ p.delimiter } }
    match urlDecode curl p.partialBuffer with
    | .error e => .threw (.std e) p
    | .ok path =>
      .next none { p with fields := { p.fields with path }, delimiter := crlf, state := .version }
  | .version =>
    if p.partialBuffer ∉ supportedVersions then .threw (.request response505) p
    else
      let (path, query) := splitPathQuery p.fields.path
      .next none
        { p with
          version := p.partialBuffer
          fields :=
            { p.fields with path, query, logLine := p.fields.logLine ++ p.partialBuffer }
          state := .headers }
  | .trailer | .headers =>
    -- a header is here
    if p.partialBuffer ≠ [] then
      match splitAt (byte ':') p.partialBuffer with
      | none => .threw (.request response400) p
      | some (name, after) =>
        .next none
          { p with headers := p.headers.insert name (after.dropWhile (· = byte ' ')) }
    -- the end or body
    else blankLine p
  | .body => emit { p with body := p.partialBuffer }
  | .chunkLength =>
    match stoul 16 p.partialBuffer with
    | .error _ => .threw (.request response400) p
    | .ok bodyLength =>
      .next none { p with bodyLength, state := if bodyLength ≠ 0 then .chunk else .trailer }
  -- drop the CRLF part of the chunk
  | .chunk => .next none { p with body := p.body ++ p.partialBuffer, state := .chunkLength }

/-- `consumed + partial_buffer.size() + body_length`, added up as `size_t`. -/
def occupied (p : RequestParser) : ℕ :=
  (p.consumed + p.partialBuffer.length + p.bodyLength) % 2 ^ 64

/-- Bail if we've seen too much. -/
def oversized (maxSize : ℕ) (p : RequestParser) : Option RequestError :=
  if p.occupied > maxSize then some (.request response413) else none

/-- Should we have seen a method, or a version, by now? -/
def ranOut (p : RequestParser) : Option RequestError :=
  if p.state = .method ∧ p.partialBuffer.length ≥ methodMaxSize then some (.request response400)
  else if p.state = .version ∧ p.partialBuffer.length ≥ versionMaxSize then
    some (.request response400)
  else none

/-- How `http_request_t::from_stream` reads tokens. -/
def grammar (curl : Curl) (maxSize : ℕ) : Grammar RequestFields HttpRequest RequestError where
  oversized := oversized maxSize
  ranOut := ranOut
  token := token curl

/-- `http_request_t::from_stream`. -/
def fromStream (curl : Curl) (p : RequestParser) (maxSize : ℕ) (start : Bytes) :
    Reading RequestParser HttpRequest RequestError :=
  (grammar curl maxSize).fromStream p start

end RequestParser

/-- `http_request_t::from_string`. The outer `none` stands for a loop that does not end. -/
def HttpRequest.fromString (curl : Curl) (start : Bytes) : Option (Except RequestError HttpRequest) :=
  match RequestParser.fromStream curl .fresh sizeMax start with
  | .returned [] _ => some (.error (.std (.runtimeError "Incomplete http request")))
  | .returned (request :: _) _ => some (.ok request)
  | .threw e _ => some (.error e)
  | .diverged => none

end PrimeServer
