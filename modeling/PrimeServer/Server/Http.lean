import PrimeServer.Http.Percent
import PrimeServer.Server.Machine

/-!
# The HTTP server

`http_server_t`: the server with `http_request_t` and `http_request_info_t` in the place of its
parameters.
-/

namespace PrimeServer

open Chunking

/-- `http_request_info_t`, as far as the server reads it. -/
structure HttpRequestInfo where
  /-- The number of the request. -/
  id : UInt32
  /-- The seconds at which it arrived. -/
  timeStamp : UInt32
  /-- One for HTTP/1.1 and zero for HTTP/1.0. -/
  version : ℕ
  /-- Whether the request asks to keep the connection. -/
  connectionKeepAlive : Bool
  /-- Whether the request asks to close the connection. -/
  connectionClose : Bool
  deriving DecidableEq

namespace HttpRequestInfo

/-- `http_request_info_t::keep_alive`. -/
def keepAlive (info : HttpRequestInfo) : Bool :=
  (info.version == 0 && info.connectionKeepAlive) || (info.version == 1 && !info.connectionClose)

/-- `http_request_info_t::operator uint64_t`. -/
def key (info : HttpRequestInfo) : UInt64 :=
  info.id.toUInt64 ||| (info.timeStamp.toUInt64 <<< 32)

end HttpRequestInfo

namespace HttpRequest

/-- `http_request_t::to_info`. -/
def toInfo (r : HttpRequest) (id : UInt32) (now : ℕ) : HttpRequestInfo where
  id
  timeStamp := .ofNat now
  version := if r.version = ascii "HTTP/1.0" then 0 else 1
  connectionKeepAlive := r.headers.find (ascii "Connection") = some (ascii "Keep-Alive")
  connectionClose := r.headers.find (ascii "Connection") = some (ascii "Close")

/-- `http_request_t::timeout`. -/
def timeout (_ : HttpRequestInfo) : Bytes := response504.response

end HttpRequest

/-- `http_request_info_t` as a worker has it, with the response code that it leaves there. -/
structure WorkerInfo extends HttpRequestInfo where
  /-- The status code of the response, for the log. -/
  responseCode : ℕ
  deriving DecidableEq

/-- `http_response_t::from_info`: the response, and the info with the response code, for which there are
ten bits. -/
def HttpResponse.fromInfo (r : HttpResponse) (info : WorkerInfo) : HttpResponse × WorkerInfo :=
  let version := if info.version ≠ 0 then ascii "HTTP/1.1" else ascii "HTTP/1.0"
  let headers :=
    if info.connectionKeepAlive then r.headers.insert (ascii "Connection") (ascii "Keep-Alive")
    else r.headers
  let headers :=
    if info.connectionClose then headers.insert (ascii "Connection") (ascii "Close") else headers
  ({ r with version, headers }, { info with responseCode := r.code % 2 ^ 10 })

/-- What the server sees of a call of `http_request_t::from_stream`. -/
def RequestParser.parsed (curl : Curl) (p : RequestParser) (maxSize : ℕ) (message : Bytes) :
    Parsed RequestParser HttpRequest :=
  match p.fromStream curl maxSize message with
  | .returned requests p => .requests requests p
  | .threw (.request e) p => .rejected e.response p
  | .threw (.std _) p => .threw p
  -- the loop always ends
  | .diverged => .threw p

/-- The protocol of `http_server_t`. -/
def httpProtocol (curl : Curl) : Protocol RequestParser HttpRequest HttpRequestInfo where
  fresh := .fresh
  fromStream := RequestParser.parsed curl
  toInfo := HttpRequest.toInfo
  toString r := (r.toString curl).toOption
  key := HttpRequestInfo.key
  timeStamp := HttpRequestInfo.timeStamp
  keepAlive := HttpRequestInfo.keepAlive
  timeout := HttpRequest.timeout

end PrimeServer
