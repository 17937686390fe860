import PrimeServer.Netstring.Entity
import PrimeServer.Server.Machine

/-!
# The netstring server

`netstring_server_t`: the server with `netstring_entity_t` and `netstring_request_info_t` in the place
of its parameters.
-/

namespace PrimeServer

open Chunking

/-- `netstring_request_info_t`. -/
structure NetstringRequestInfo where
  /-- The number of the request. -/
  id : UInt32
  /-- The seconds at which it arrived. -/
  timeStamp : UInt32
  deriving DecidableEq

namespace NetstringRequestInfo

/-- `netstring_request_info_t::keep_alive`. -/
def keepAlive (_ : NetstringRequestInfo) : Bool := true

/-- `netstring_request_info_t::operator uint64_t`. -/
def key (info : NetstringRequestInfo) : UInt64 :=
  info.id.toUInt64 ||| (info.timeStamp.toUInt64 <<< 32)

end NetstringRequestInfo

namespace NetstringEntity

/-- `netstring_entity_t::to_info`. -/
def toInfo (_ : NetstringEntity) (id : UInt32) (now : ℕ) : NetstringRequestInfo where
  id
  timeStamp := .ofNat now

/-- `netstring_entity_t::timeout`. -/
def timeout (_ : NetstringRequestInfo) : Bytes := ascii "7:TIMEOUT,"

/-- What the server sees of a call of `netstring_entity_t::from_stream`. -/
def parsed (p : NetstringEntity) (maxSize : ℕ) (message : Bytes) :
    Parsed NetstringEntity NetstringEntity :=
  match p.fromStream maxSize message with
  | .returned requests p => .requests requests p
  | .threw e p => .rejected e.response p
  -- the loop always ends
  | .diverged => .threw p

end NetstringEntity

/-- The protocol of `netstring_server_t`. -/
def netstringProtocol : Protocol NetstringEntity NetstringEntity NetstringRequestInfo where
  fresh := .fresh
  fromStream := NetstringEntity.parsed
  toInfo := NetstringEntity.toInfo
  toString r := some (NetstringEntity.toString r.body)
  key := NetstringRequestInfo.key
  timeStamp := NetstringRequestInfo.timeStamp
  keepAlive := NetstringRequestInfo.keepAlive
  timeout := NetstringEntity.timeout

/-- A netstring server without health checks. -/
def unchecked : ServerConfig NetstringEntity where
  maxRequestSize := 10485760
  requestTimeout := 5
  healthCheckMatcher _ := some false
  healthCheckResponse := []

end PrimeServer
