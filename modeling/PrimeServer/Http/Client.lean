import PrimeServer.Client.Batch
import PrimeServer.Cpp.Stoul

/-!
# The HTTP client

`http_client_t`: a scanner that looks for the ends of responses in the stream. It is not the parser of
`http_response_t`. It knows two texts only, the blank line and the start of a `Content-Length` header
that is spelled just so.

A turn of its loop looks at one byte. `begin` of the source is the list of the bytes of this call that
were looked at since the last response.
-/

namespace PrimeServer

/-- `CONTENT_LENGTH`. -/
def contentLengthText : Bytes := ascii "\r\nContent-Length: "

/-- `DOUBLE_RETURN`. -/
def doubleReturnText : Bytes := ascii "\r\n\r\n"

/-- `http_client_t`. The two iterators are indices. -/
structure HttpClient where
  /-- Whether the name of the length header is being looked for. -/
  parseHeaders : Bool
  /-- Whether the digits of the length are being read. -/
  parseLength : Bool
  /-- Whether the bytes of the body are being counted off. -/
  parseBody : Bool
  /-- The digits that were read so far. -/
  contentLength : Bytes
  /-- How many bytes of the body are still to come. -/
  length : ℕ
  /-- How much of the blank line was seen last. -/
  doubleReturnItr : ℕ
  /-- How much of the name of the length header was seen last. -/
  contentLengthItr : ℕ
  /-- The bytes of the current response that earlier messages brought. -/
  buffer : Bytes
  deriving DecidableEq

namespace HttpClient

/-- `http_client_t::reset`. -/
def reset (client : HttpClient) : HttpClient :=
  { client with
    parseHeaders := true
    parseLength := false
    parseBody := false
    contentLength := []
    length := 0
    doubleReturnItr := 0
    contentLengthItr := 0 }

/-- `http_client_t()`. -/
def fresh : HttpClient :=
  reset
    { parseHeaders := true
      parseLength := false
      parseBody := false
      contentLength := []
      length := 0
      doubleReturnItr := 0
      contentLengthItr := 0
      buffer := [] }

/-- `--length`. -/
def eat (client : HttpClient) : HttpClient :=
  { client with length := (client.length + (2 ^ 64 - 1)) % 2 ^ 64 }

/-- Check for the content length header. -/
def findContentLength (client : HttpClient) (c : UInt8) : HttpClient :=
  if client.parseHeaders then
    if contentLengthText[client.contentLengthItr]? = some c then
      let client := { client with contentLengthItr := client.contentLengthItr + 1 }
      if client.contentLengthItr = contentLengthText.length then
        { client with parseHeaders := false, parseLength := true }
      else client
    else { client with contentLengthItr := 0 }
  else client

/-- Check for the double return that separates headers from body or marks the end, and whether a
response is done by now. At the end of the text the iterator reads a NUL. -/
def findDoubleReturn (client : HttpClient) (c : UInt8) (done : Bool) : HttpClient × Bool :=
  if c = doubleReturnText.getD client.doubleReturnItr 0 then
    let client := { client with doubleReturnItr := client.doubleReturnItr + 1 }
    if client.doubleReturnItr = doubleReturnText.length then
      -- we just found an ending but because there was a length header we aren't done
      if client.length ≠ 0 then ({ client with parseBody := true }, done) else (client, true)
    else (client, done)
  else ({ client with doubleReturnItr := 0 }, done)

/-- What becomes of a byte. -/
inductive Look where
  /-- The turn ends early. -/
  | skipped (client : HttpClient) (done : Bool)
  /-- The turn goes on to its end. -/
  | seen (client : HttpClient) (done : Bool)
  /-- The content length is no number. -/
  | threw (e : StoulError) (client : HttpClient)
  deriving DecidableEq

/-- The end of a turn of the loop in `stream_responses`. -/
def findEnd (client : HttpClient) (done : Bool) (c : UInt8) : Look :=
  let (client, done) := (client.findContentLength c).findDoubleReturn c done
  .seen client done

/-- A turn of the loop in `stream_responses` after the check for the body. -/
def lookAhead (client : HttpClient) (done : Bool) (c : UInt8) : Look :=
  -- check for the numbers in the length part
  if client.parseLength then
    -- keep this char of the length
    if isdigit c then .skipped { client with contentLength := client.contentLength ++ [c] } done
    -- done parsing length header
    else
      match stoul 10 client.contentLength with
      | .error e => .threw e client
      | .ok length => { client with length, parseLength := false }.findEnd done c
  else client.findEnd done c

/-- A turn of the loop in `stream_responses`, up to the check for a response that is done. -/
def look (client : HttpClient) (done : Bool) (c : UInt8) : Look :=
  -- if we are trying to get the body
  if client.parseBody then
    -- eat until done
    if client.eat.length = 0 then client.eat.lookAhead true c else .skipped client.eat done
  else client.lookAhead done c

/-- The loop of `stream_responses`, when it has looked at the bytes `begin` since the last response and
`current` are left. -/
def loop (collect : Collect) (client : HttpClient) (done : Bool) (begin : Bytes) :
    Bytes → Bool → ℕ → List Bytes → Streamed HttpClient
  | [], more, collected, handed =>
    .returned collected { client with buffer := client.buffer ++ begin } more handed
  | c :: current, more, collected, handed =>
    match client.look done c with
    | .threw _ client => .threw .std client more handed
    | .skipped client done | .seen client (done@false) =>
      loop collect client done (begin ++ [c]) current more collected handed
    -- we have one ready
    | .seen client true =>
      -- ready to send from buffer
      if client.buffer ≠ [] then
        let client := { client with buffer := client.buffer ++ (begin ++ [c]) }
        match collect handed client.buffer with
        | .error e => .threw e client more (handed ++ [client.buffer])
        | .ok more =>
          loop collect { client with buffer := [] }.reset false [] current more (collected + 1)
            (handed ++ [client.buffer])
      -- ready to send from stream
      else
        match collect handed (begin ++ [c]) with
        | .error e => .threw e client more (handed ++ [begin ++ [c]])
        | .ok more =>
          loop collect client.reset false [] current more (collected + 1) (handed ++ [begin ++ [c]])

/-- `http_client_t::stream_responses`. -/
def streamResponses (collect : Collect) (client : HttpClient) (message : Bytes) (more : Bool)
    (handed : List Bytes) : Streamed HttpClient :=
  if message = [] then .returned 0 client more handed
  else loop collect client false [] message more 0 handed

end HttpClient

/-- The protocol of `http_client_t`. -/
def httpClient : ClientProtocol HttpClient where
  fresh := .fresh
  streamResponses := HttpClient.streamResponses

end PrimeServer
