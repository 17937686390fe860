import PrimeServer.Http.Forwarding
import PrimeServer.Server.Layout
import PrimeServer.Server.Timeouts

/-!
# The order of headers and parameters

The headers and the parameters of a request are in hash maps, and `to_string` writes them in the order in which
the maps are gone through. The standard leaves this order open. In practice it depends on the buckets of the
table, and so on all that the map has held before: the parser of a session keeps its maps from one request to the
next, and each request that it hands out gets copies of them.

What the server does with a request does not depend on the order, except for the text that it sends on. So the
protocol of the HTTP server is taken once with the maps in the order of insertion, `httpProtocol`, and once with
any order, for the services that the texts go to.

## Main results

* `orderedProtocol`: the HTTP protocol with the maps of each request in some order;
* `parsed_ordered`: what its parser hands out are the requests of `httpProtocol` in this order.
-/

namespace PrimeServer

open HttpRequest

/-- The order in which the maps of the requests of a connection are gone through. It may depend on all messages
that were read from the connection so far, the one with the end of the request included, and on how many requests
came to their ends in that message before. -/
structure RequestOrder where
  /-- What a loop over the maps of this request sees, which may depend on all that was read before. -/
  arrange : List Bytes → ℕ → HttpRequest → HttpRequest
  /-- Nothing but the order changes. -/
  sameAs : ∀ (messages : List Bytes) (i : ℕ) (r : HttpRequest), r.SameAs (arrange messages i r)

/-- The order in which the headers and the parameters came. -/
def RequestOrder.insertion : RequestOrder where
  arrange _ _ r := r
  sameAs _ _ r := .refl r

/-- The protocol of `http_server_t` with the maps of each request in some order. The parser of a session comes
with the messages that it was given, on which the order may depend. -/
def orderedProtocol (curl : Curl) (order : RequestOrder) :
    Protocol (RequestParser × List Bytes) HttpRequest HttpRequestInfo where
  fresh := (.fresh, [])
  fromStream p maxSize message :=
    let messages := p.2 ++ [message]
    match p.1.parsed curl maxSize message with
    | .requests requests q => .requests (requests.mapIdx (order.arrange messages)) (q, messages)
    | .rejected response q => .rejected response (q, messages)
    | .threw q => .threw (q, messages)
  toInfo := HttpRequest.toInfo
  toString r := (r.toString curl).toOption
  key := HttpRequestInfo.key
  timeStamp := HttpRequestInfo.timeStamp
  keepAlive := HttpRequestInfo.keepAlive
  timeout := HttpRequest.timeout

variable {curl : Curl}

/-- The iteration order has no part in the stamps. -/
theorem orderedProtocol_stamped (curl : Curl) (order : RequestOrder) : (orderedProtocol curl order).Stamped where
  toInfo := (httpProtocol_stamped curl).toInfo
  key := (httpProtocol_stamped curl).key

/-- What is put in order is the same request after request. -/
theorem forall₂_mapIdx {α : Type} {R : α → α → Prop} {f : ℕ → α → α} (h : ∀ i a, R a (f i a)) (l : List α) :
    List.Forall₂ R l (l.mapIdx f) := by
  induction l generalizing f with
  | nil => exact .nil
  | cons a l ih =>
    rw [List.mapIdx_cons]
    exact .cons (h 0 a) (ih fun i => h (i + 1))

/-- The parser hands out the requests that it would hand out in the order of insertion, and goes on as it
would. -/
theorem parsed_ordered (order : RequestOrder) {p q : RequestParser} {maxSize : ℕ} {message : Bytes}
    {requests : List HttpRequest}
    (h : (httpProtocol curl).fromStream p maxSize message = .requests requests q) (messages : List Bytes) :
    ∃ arranged, List.Forall₂ SameAs requests arranged ∧
      (orderedProtocol curl order).fromStream (p, messages) maxSize message =
        .requests arranged (q, messages ++ [message]) := by
  refine ⟨_, forall₂_mapIdx (order.sameAs (messages ++ [message])) requests, ?_⟩
  have hparsed : p.parsed curl maxSize message = .requests requests q := h
  simp only [orderedProtocol, hparsed]

/-- `http_request_info_t` in memory does not depend on the order. -/
def HttpRequestInfo.layoutIn (curl : Curl) (order : RequestOrder) : InfoLayout (orderedProtocol curl order) where
  bytes := (layout curl).bytes
  read := (layout curl).read
  read_bytes := (layout curl).read_bytes
  key_read := (layout curl).key_read

end PrimeServer
