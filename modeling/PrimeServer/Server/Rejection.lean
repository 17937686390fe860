import PrimeServer.Http.Cuts
import PrimeServer.Library.Salvage
import PrimeServer.Server.Books
import PrimeServer.Server.Http
import PrimeServer.Server.Netstring
import PrimeServer.Server.Sessions

/-!
# Requests before a rejection

A client sends requests, and after them something that the parser rejects. The requests that are
complete in earlier messages are forwarded. Those that the rejected message completes are lost, although
`handle_request` means to forward whole requests first: the exception leaves `from_stream`, and with it
goes the list of the requests.

## Main results

* `httpProtocol_streams`, `netstringProtocol_streams`: both parsers ignore cuts;
* `forwardedTexts_eq_iff`: two ways of cutting a stream forward the same requests exactly if the
  rejected messages complete the same number of requests.
-/

namespace PrimeServer

open Chunking Transition

variable {σ ρ ι : Type} {π : Protocol σ ρ ι} {config : ServerConfig ρ}

/-- A call of `from_stream` as a reading, whatever it throws. -/
def Parsed.reading : Parsed σ ρ → Reading σ ρ Unit
  | .requests messages request => .returned messages request
  | .rejected _ request => .threw () request
  | .threw request => .threw () request

/-- `from_stream` returned exactly when it did not throw. -/
theorem Parsed.reading_eq_returned {parsed : Parsed σ ρ} {messages : List ρ} {request : σ} :
    parsed.reading = .returned messages request ↔ parsed = .requests messages request := by
  cases parsed <;> simp [reading]

/-- The streaming parser of a protocol without a size limit. -/
def Protocol.read (π : Protocol σ ρ ι) (request : σ) (message : Bytes) : Reading σ ρ Unit :=
  (π.fromStream request sizeMax message).reading

/-- The parser without a size limit ignores cuts. -/
structure Protocol.Streams (π : Protocol σ ρ ι) (inv : σ → Prop) (sim : σ → σ → Prop) : Prop
    extends Streaming π.read inv sim where
  /-- It holds of the parser of a new session. -/
  fresh : inv π.fresh

/-- The netstring parser gives the same for every cutting of a stream. -/
theorem NetstringEntity.streaming :
    Streaming (NetstringEntity.fromStream sizeMax) NetstringEntity.Fits Eq where
  toCutStable := (NetstringEntity.realizes sizeMax).cutStable
  refl _ := rfl
  trans _ _ _ := Eq.trans
  nil hs := ((NetstringEntity.realizes sizeMax).returned_iff hs).mpr rfl
  ends xs hs := ((NetstringEntity.realizes sizeMax).reads xs hs).ne_diverged

/-- The netstring protocol gives the same for every cutting of a stream. -/
theorem netstringProtocol_streams : netstringProtocol.Streams NetstringEntity.Fits Eq where
  toStreaming := by
    refine NetstringEntity.streaming.of_forget fun {p} message hp => ?_
    show (NetstringEntity.parsed p sizeMax message).reading = _
    have hends := NetstringEntity.streaming.ends message hp
    unfold NetstringEntity.parsed
    cases hread : NetstringEntity.fromStream sizeMax p message with
    | returned | threw => rfl
    | diverged => exact absurd hread hends
  fresh := NetstringEntity.fits_fresh

/-- The http parser gives the same for every cutting of a stream, up to what it counts against its limit. -/
theorem RequestParser.streaming (curl : Curl) :
    Streaming (RequestParser.grammar curl sizeMax).fromStream
      (Parser.WellFormed RequestParser.delimiterOf) (fun p q => p.uncounted = q.uncounted) where
  toCutStable := (RequestParser.grammar_ignoresCuts curl).cutStable
    (RequestParser.grammar_lawful curl sizeMax)
  refl _ := rfl
  trans _ _ _ := Eq.trans
  nil _ := rfl
  ends xs hp := (RequestParser.grammar_lawful curl sizeMax).fromStream_ne_diverged hp xs

/-- The http protocol gives the same for every cutting of a stream, up to what it counts against its limit. -/
theorem httpProtocol_streams (curl : Curl) :
    (httpProtocol curl).Streams (Parser.WellFormed RequestParser.delimiterOf)
      (fun p q => p.uncounted = q.uncounted) where
  toStreaming := by
    refine (RequestParser.streaming curl).of_forget fun {p} message hp => ?_
    show (RequestParser.parsed curl p sizeMax message).reading = _
    have hends := (RequestParser.streaming curl).ends message hp
    unfold RequestParser.parsed RequestParser.fromStream
    cases hread : (RequestParser.grammar curl sizeMax).fromStream p message with
    | returned => rfl
    | threw e => cases e <;> rfl
    | diverged => exact absurd hread hends
  fresh := RequestParser.wellFormed_fresh

/-! ### Conversations -/

/-- The text of a request that is sent to the proxy. -/
def Action.text : Action → Option Bytes
  | .forwarded _ text => some text
  | _ => none

/-- The body of a client message. -/
def ServerInput.body : ServerInput ι → Option Bytes
  | .message _ body _ => some body
  | _ => none

namespace Machine

variable {m t : Machine σ ρ ι} {client : Frame}

/-- The texts of the requests that were sent to the proxy. -/
def forwardedTexts (m : Machine σ ρ ι) : List Bytes := m.wire.filterMap Action.text

/-- A server to which a client has just connected. -/
def connected (π : Protocol σ ρ ι) (client : Frame) : Machine σ ρ ι where
  server :=
    { requestId := 0
      sessions := UnorderedMap.empty.emplace client { request := π.fresh, enqueued := [] }
      requests := .empty
      requestHistory := [] }
  control := .serving
  wire := [.opened client]

/-- The parser makes requests of a message, and has no need of the size limit for it. -/
def Accepts (π : Protocol σ ρ ι) (config : ServerConfig ρ) (m : Machine σ ρ ι) (client : Frame)
    (body : Bytes) : Prop :=
  body ≠ [] ∧ ∀ session ∈ m.server.sessions.find client,
    π.fromStream session.request config.maxRequestSize body =
      π.fromStream session.request sizeMax body ∧
    Returns π.read session.request body

/-- The step is one of a client whose messages are accepted, and whose requests are no health checks and
reach the proxy. -/
def Undisturbed (π : Protocol σ ρ ι) (config : ServerConfig ρ) (client : Frame)
    (m : Machine σ ρ ι) : ServerInput ι → Prop
  | .message client' body _ => client' = client ∧ m.Accepts π config client body
  | .next _ info text _ =>
    info = .accepted ∧ text = .accepted ∧
      match m.control with
      | .enqueueing _ (parsed :: _) =>
        config.healthCheckMatcher parsed = some false ∧ π.toString parsed ≠ none
      | _ => True
  | .result _ _ _ | .disconnect _ | .timeouts _ | .expire _ => False

/-- Whether a message is accepted is decidable. -/
instance [DecidableEq σ] [DecidableEq ρ] (m : Machine σ ρ ι) (client : Frame) (body : Bytes) :
    Decidable (m.Accepts π config client body) :=
  haveI := Option.decidableForallMem (p := fun session : Session σ =>
    π.fromStream session.request config.maxRequestSize body =
      π.fromStream session.request sizeMax body ∧ Returns π.read session.request body)
    (m.server.sessions.find client)
  inferInstanceAs (Decidable (_ ∧ _))

/-- Whether a step leaves a client undisturbed is decidable. -/
instance [DecidableEq σ] [DecidableEq ρ] (m : Machine σ ρ ι) (client : Frame) :
    ∀ input : ServerInput ι, Decidable (m.Undisturbed π config client input)
  | .message client' body _ =>
    inferInstanceAs (Decidable (client' = client ∧ m.Accepts π config client body))
  | .next _ info text _ =>
    match h : m.control with
    | .enqueueing _ (parsed :: _) =>
      decidable_of_iff (info = .accepted ∧ text = .accepted ∧
        config.healthCheckMatcher parsed = some false ∧ π.toString parsed ≠ none)
        (by simp [Undisturbed, h])
    | .serving | .enqueueing _ [] | .rejecting _ | .expiring _ | .escaped | .undefined _ =>
      decidable_of_iff (info = .accepted ∧ text = .accepted) (by simp [Undisturbed, h])
  | .result _ _ _ | .disconnect _ | .timeouts _ | .expire _ => inferInstanceAs (Decidable False)

/-- How far the server has come with the messages: what their requests are, and which of them are still
to be forwarded. -/
structure Progress (π : Protocol σ ρ ι) (client : Frame) (pieces : List Bytes) (m : Machine σ ρ ι)
    (session : Session σ) (parsed rest : List ρ) : Prop where
  /-- The messages are not empty. -/
  pieces_ne_nil : ∀ piece ∈ pieces, piece ≠ []
  /-- The client has its session. -/
  found : m.server.sessions.find client = some session
  /-- The parser of the session has read the messages. -/
  read : feed π.read π.fresh pieces = .returned parsed session.request
  /-- What is still to be forwarded waits in `enqueue`. -/
  control : m.control = .serving ∧ rest = [] ∨ m.control = .enqueueing client rest
  /-- The texts that were forwarded are those of the requests in front. -/
  texts : parsed.map π.toString = m.forwardedTexts.map some ++ rest.map π.toString

/-- A client that has just connected has sent nothing. -/
theorem progress_connected (π : Protocol σ ρ ι) (client : Frame) :
    Progress π client [] (connected π client) { request := π.fresh, enqueued := [] } [] [] where
  pieces_ne_nil := nofun
  found := by
    show (UnorderedMap.empty.emplace client _).find client = _
    rw [UnorderedMap.emplace_of_find_eq_none (UnorderedMap.find_empty client),
      UnorderedMap.find_assign_self]
  read := rfl
  control := Or.inl ⟨rfl, rfl⟩
  texts := rfl

/-- A message is parsed, and its requests are to be forwarded. -/
theorem Progress.message {pieces : List Bytes} {session : Session σ} {parsed rest : List ρ}
    (h : Progress π client pieces m session parsed rest) {body : Bytes}
    (haccepts : m.Accepts π config client body) (rejection : SendResult)
    (hstep : m.step π config (.message client body rejection) = some t) :
    ∃ session' more, Progress π client (pieces ++ [body]) t session' (parsed ++ more) more := by
  obtain ⟨hbody, haccepts⟩ := haccepts
  obtain ⟨hunlimited, more, request, hread⟩ := haccepts session h.found
  -- the limit makes no difference for an accepted message
  have hrequests : π.fromStream session.request config.maxRequestSize body =
      .requests more request := by
    rw [hunlimited]
    exact Parsed.reading_eq_returned.mp hread
  rcases h.control with ⟨hserving, rfl⟩ | henqueueing
  · -- the session keeps the parser, and the requests wait to be forwarded
    simp only [Machine.step, hserving, handleRequest, h.found, if_neg hbody, hrequests] at hstep
    obtain rfl := Option.some.inj hstep
    refine ⟨{ session with request }, more, ?_, UnorderedMap.find_assign_self _ _ _, ?_, Or.inr rfl,
      ?_⟩
    · intro piece hpiece
      rcases List.mem_append.mp hpiece with hpiece | hpiece
      · exact h.pieces_ne_nil piece hpiece
      · rwa [List.mem_singleton.mp hpiece]
    · rw [feed_append_of_returned h.read, feed_singleton, hread, Reading.prepend_returned]
    · rw [List.map_append, h.texts, List.map_nil, List.append_nil]
      rfl
  · -- while requests wait, no message is handled
    simp [Machine.step, henqueueing] at hstep

/-- A request is forwarded. -/
theorem Progress.next {pieces : List Bytes} {session : Session σ} {parsed rest : List ρ}
    (h : Progress π client pieces m session parsed rest) {now : ℕ} {sends : DequeueSends}
    (hnext : m.Undisturbed π config client (.next now .accepted .accepted sends))
    (hstep : m.step π config (.next now .accepted .accepted sends) = some t) :
    ∃ session' rest', Progress π client pieces t session' parsed rest' := by
  rcases h.control with ⟨hserving, rfl⟩ | henqueueing
  · simp [Machine.step, hserving] at hstep
  cases rest with
  | nil =>
    simp only [Machine.step, henqueueing] at hstep
    obtain rfl := Option.some.inj hstep
    exact ⟨session, [], h.pieces_ne_nil, h.found, h.read, Or.inl ⟨rfl, rfl⟩, h.texts⟩
  | cons request rest =>
    simp only [Undisturbed, henqueueing, true_and] at hnext
    obtain ⟨hmatch, htext⟩ := hnext
    obtain ⟨text, htext⟩ := Option.ne_none_iff_exists'.mp htext
    -- the request is no health check and can be written, so that it is sent
    have hfound : m.server.count.sessions.find client = some session := h.found
    simp only [Machine.step, henqueueing, Machine.enqueue, hmatch, Machine.forward, htext,
      hfound] at hstep
    obtain rfl := Option.some.inj hstep
    refine ⟨_, rest, h.pieces_ne_nil, UnorderedMap.find_assign_self _ _ _, h.read, Or.inr rfl, ?_⟩
    rw [h.texts, List.map_cons, htext]
    simp [forwardedTexts, List.filterMap_append, Action.text]

/-- What the server has forwarded when all of the messages are handled are the texts of the requests in
them. -/
theorem progress_of_run {inputs : List (ServerInput ι)}
    (hmeet : StepsMeet (step π config) (connected π client) inputs (Undisturbed π config client))
    (hrun : run (step π config) (connected π client) inputs = some m) :
    ∃ session parsed rest,
      Progress π client (inputs.filterMap ServerInput.body) m session parsed rest := by
  refine run_induction
    (P := fun inputs m =>
      StepsMeet (step π config) (connected π client) inputs (Undisturbed π config client) →
        ∃ session parsed rest,
          Progress π client (inputs.filterMap ServerInput.body) m session parsed rest)
    (fun _ => ⟨_, [], [], progress_connected π client⟩)
    (fun inputs m input t hrun ih hstep hmeet => ?_) hrun hmeet
  obtain ⟨session, parsed, rest, hprogress⟩ := ih hmeet.init
  have hundisturbed := hmeet.last hrun
  rw [List.filterMap_append]
  -- a message adds the requests that are read from it, a round of `enqueue` takes one of them off
  cases input with
  | message client' body rejection =>
    obtain ⟨rfl, haccepts⟩ := hundisturbed
    obtain ⟨session', more, hprogress'⟩ := hprogress.message haccepts rejection hstep
    exact ⟨session', _, more, hprogress'⟩
  | next now info text sends =>
    obtain ⟨rfl, rfl, -⟩ := id hundisturbed
    obtain ⟨session', rest', hprogress'⟩ := hprogress.next hundisturbed hstep
    refine ⟨session', parsed, rest', ?_⟩
    show Progress π client (inputs.filterMap ServerInput.body ++ []) t session' parsed rest'
    rwa [List.append_nil]
  | result | disconnect | timeouts | expire => exact hundisturbed.elim

end Machine

/-- A client sends a stream in messages. The server handles them, one of them is rejected. The size
limit plays no part in this. -/
structure Rejection (π : Protocol σ ρ ι) (config : ServerConfig ρ) (client : Frame)
    (stream : Bytes) where
  /-- What happens before the rejected message is handled. -/
  inputs : List (ServerInput ι)
  /-- The server before the rejected message. -/
  machine : Machine σ ρ ι
  /-- The session of the client then. -/
  session : Session σ
  /-- The message that is rejected. -/
  message : Bytes
  /-- The response of the exception. -/
  response : Bytes
  /-- The server after the rejection was sent. -/
  rejected : Machine σ ρ ι
  /-- What the client sends after it. -/
  unread : Bytes
  /-- The messages are a cutting of the stream. -/
  stream_eq : (inputs.filterMap ServerInput.body).flatten ++ message ++ unread = stream
  /-- Until then nothing but this client's requests is handled. -/
  undisturbed : StepsMeet (Machine.step π config) (.connected π client) inputs
    (Machine.Undisturbed π config client)
  /-- The server comes to this state when the client connects and sends them. -/
  run_eq : run (Machine.step π config) .start (.message client [] .accepted :: inputs) = some machine
  /-- The session is there. -/
  found : machine.server.sessions.find client = some session
  /-- The message is not an empty one. -/
  message_ne_nil : message ≠ []
  /-- The limit on the size of requests has no part in the rejection. -/
  unlimited : π.fromStream session.request config.maxRequestSize message =
    π.fromStream session.request sizeMax message
  /-- `from_stream` throws for the message. -/
  throws : ∃ request, π.fromStream session.request sizeMax message = .rejected response request
  /-- The server handles it. -/
  handled : machine.step π config (.message client message .accepted) = some rejected

namespace Rejection

variable {client : Frame} {stream : Bytes}

/-- The requests that the rejected message completes before the bytes for which it is rejected. -/
def lost (r : Rejection π config client stream) : List ρ :=
  salvage π.read r.session.request [] r.message

/-- Of a rejected message nothing is forwarded. -/
theorem forwardedTexts_rejected (r : Rejection π config client stream) :
    r.rejected.forwardedTexts = r.machine.forwardedTexts := by
  obtain ⟨request, hthrows⟩ := r.throws
  have hfrom := r.unlimited.trans hthrows
  have hstep := r.handled
  simp only [Machine.step] at hstep
  split at hstep
  · simp only [Machine.handleRequest, r.found, if_neg r.message_ne_nil, hfrom,
      Option.some.injEq] at hstep
    split_ifs at hstep <;>
      simp [← hstep, Machine.forwardedTexts, List.filterMap_append, Action.text]
  · cases hstep

/-- What is forwarded are the requests of the messages before the rejected one. -/
theorem exists_progress (r : Rejection π config client stream) :
    ∃ parsed, Machine.Progress π client (r.inputs.filterMap ServerInput.body) r.machine r.session
        parsed [] ∧
      parsed.map π.toString = r.rejected.forwardedTexts.map some := by
  have hrun : run (Machine.step π config) (.connected π client) r.inputs = some r.machine := r.run_eq
  obtain ⟨session, parsed, rest, hprogress⟩ := Machine.progress_of_run r.undisturbed hrun
  obtain rfl : session = r.session := Option.some.inj (hprogress.found.symm.trans r.found)
  -- the rejected message is handled when all requests are forwarded
  obtain rfl : rest = [] := by
    rcases hprogress.control with ⟨-, hrest⟩ | henqueueing
    · exact hrest
    · have hstep := r.handled
      simp [Machine.step, henqueueing] at hstep
  refine ⟨parsed, hprogress, ?_⟩
  rw [r.forwardedTexts_rejected, hprogress.texts, List.map_nil, List.append_nil]

variable {inv : σ → Prop} {sim : σ → σ → Prop}

/-- Two ways of cutting a stream forward the same requests exactly if the rejected messages complete the
same number of requests. -/
theorem forwardedTexts_eq_iff (hπ : π.Streams inv sim) (a b : Rejection π config client stream) :
    a.rejected.forwardedTexts = b.rejected.forwardedTexts ↔ a.lost.length = b.lost.length := by
  obtain ⟨ms, hms, hmsTexts⟩ := a.exists_progress
  obtain ⟨ns, hns, hnsTexts⟩ := b.exists_progress
  have hthrows : ∀ r : Rejection π config client stream,
      ¬Returns π.read r.session.request r.message := by
    rintro r ⟨requests, request, hreturned⟩
    obtain ⟨request', hthrows⟩ := r.throws
    rw [Protocol.read, hthrows] at hreturned
    cases hreturned
  -- forwarded and lost requests together are the same
  have hall : ms ++ a.lost = ns ++ b.lost :=
    hπ.append_salvage_eq hπ.fresh hms.pieces_ne_nil hns.pieces_ne_nil hms.read hns.read
      (hπ.inv_of_feed hπ.fresh hms.read) (hπ.inv_of_feed hπ.fresh hns.read) (hthrows a) (hthrows b)
      (a.stream_eq.trans b.stream_eq.symm)
  -- so the forwarded requests are as many exactly if the lost ones are
  have hlength : ms.length + a.lost.length = ns.length + b.lost.length := by
    simpa only [List.length_append] using congrArg List.length hall
  constructor
  · intro htexts
    have hsame : (ms.map π.toString).length = (ns.map π.toString).length := by
      rw [hmsTexts, hnsTexts, htexts]
    rw [List.length_map, List.length_map] at hsame
    omega
  · intro hlost
    obtain ⟨rfl, -⟩ := List.append_inj hall (by omega)
    exact List.map_injective_iff.mpr (fun _ _ => Option.some.inj) (hmsTexts.symm.trans hnsTexts)

/-- The texts that are forwarded and the number of requests that are lost when the server handles the
messages and then rejects one. -/
def outcome (π : Protocol σ ρ ι) (config : ServerConfig ρ) [DecidableEq σ] [DecidableEq ρ]
    (client : Frame) (inputs : List (ServerInput ι)) (message : Bytes) :
    Option (List Bytes × ℕ) := do
  let machine ← run (Machine.step π config) .start (.message client [] .accepted :: inputs)
  let session ← machine.server.sessions.find client
  let rejected ← machine.step π config (.message client message .accepted)
  match π.fromStream session.request sizeMax message with
  | .rejected response request =>
    if π.fromStream session.request config.maxRequestSize message = .rejected response request then
      some (rejected.forwardedTexts, (salvage π.read session.request [] message).length)
    else none
  | _ => none

/-- A run that can be executed gives the rejection it comes to. -/
theorem exists_of_outcome [DecidableEq σ] [DecidableEq ρ] (inputs : List (ServerInput ι))
    (message unread : Bytes) {texts : List Bytes} {n : ℕ}
    (hstream : (inputs.filterMap ServerInput.body).flatten ++ message ++ unread = stream)
    (hmeet : StepsMeet (Machine.step π config) (.connected π client) inputs
      (Machine.Undisturbed π config client))
    (hmessage : message ≠ []) (houtcome : outcome π config client inputs message = some (texts, n)) :
    ∃ r : Rejection π config client stream,
      r.rejected.forwardedTexts = texts ∧ r.lost.length = n := by
  simp only [outcome, Option.bind_eq_bind, Option.bind_eq_some_iff] at houtcome
  obtain ⟨machine, hrun, session, hfound, rejected, hhandled, houtcome⟩ := houtcome
  split at houtcome
  case h_1 response request hthrows =>
    split_ifs at houtcome with hunlimited
    obtain ⟨htexts, hlost⟩ := Prod.mk.inj (Option.some.inj houtcome)
    exact ⟨{ inputs, machine, session, message, response, rejected, unread, stream_eq := hstream,
             undisturbed := hmeet, run_eq := hrun, found := hfound, message_ne_nil := hmessage,
             unlimited := hunlimited.trans hthrows.symm, throws := ⟨request, hthrows⟩,
             handled := hhandled }, htexts, hlost⟩
  case h_2 => cases houtcome

/-- A client message, and the rounds of `enqueue` for its requests. -/
def sends (client : Frame) (body : Bytes) (rounds : ℕ) : List (ServerInput ι) :=
  .message client body .accepted ::
    List.replicate rounds (.next 100 .accepted .accepted ⟨.accepted, .accepted⟩)

/-- A stream that is cut inside its request, and after it. -/
theorem forwardedTexts_eq_iff_cut :
    ∃ a b : Rejection netstringProtocol unchecked [1] (ascii "1:a,?"),
      a.rejected.forwardedTexts = b.rejected.forwardedTexts := by
  obtain ⟨a, -, ha⟩ : ∃ r : Rejection netstringProtocol unchecked [1] (ascii "1:a,?"),
      r.rejected.forwardedTexts = [ascii "1:a,"] ∧ r.lost.length = 0 :=
    exists_of_outcome (sends [1] (ascii "1:a,") 2) (ascii "?") []
      (by decide) (by decide) (by decide) (by decide)
  obtain ⟨b, -, hb⟩ : ∃ r : Rejection netstringProtocol unchecked [1] (ascii "1:a,?"),
      r.rejected.forwardedTexts = [ascii "1:a,"] ∧ r.lost.length = 0 :=
    exists_of_outcome (sends [1] (ascii "1:") 1 ++ sends [1] (ascii "a,") 2) (ascii "?") []
      (by decide) (by decide) (by decide) (by decide)
  exact ⟨a, b, (forwardedTexts_eq_iff netstringProtocol_streams a b).mpr (ha.trans hb.symm)⟩

/-- A request is forwarded when it comes in a message of its own, and lost when what follows it comes in
the same message, with either protocol. -/
theorem loses_request :
    ¬(∀ stream (a b : Rejection netstringProtocol unchecked [1] stream),
      a.rejected.forwardedTexts = b.rejected.forwardedTexts) ∧
    ¬(∀ stream (a b : Rejection (httpProtocol .percent) Machine.checked [1] stream),
      a.rejected.forwardedTexts = b.rejected.forwardedTexts) := by
  constructor
  · intro hsame
    obtain ⟨a, ha, -⟩ : ∃ r : Rejection netstringProtocol unchecked [1] (ascii "1:a,?"),
        r.rejected.forwardedTexts = [ascii "1:a,"] ∧ r.lost.length = 0 :=
      exists_of_outcome (sends [1] (ascii "1:a,") 2) (ascii "?") []
        (by decide) (by decide) (by decide) (by decide)
    obtain ⟨b, hb, -⟩ : ∃ r : Rejection netstringProtocol unchecked [1] (ascii "1:a,?"),
        r.rejected.forwardedTexts = [] ∧ r.lost.length = 1 :=
      exists_of_outcome [] (ascii "1:a,?") [] (by decide) (by decide) (by decide) (by decide)
    have htexts := hsame _ a b
    rw [ha, hb] at htexts
    cases htexts
  · intro hsame
    obtain ⟨a, ha, -⟩ : ∃ r : Rejection (httpProtocol .percent) Machine.checked [1]
          (ascii "GET / HTTP/1.1\r\n\r\nmalformed"),
        r.rejected.forwardedTexts = [ascii "GET %2F%3F%2F%3D HTTP/1.1\r\n\r\n"] ∧ r.lost.length = 0 :=
      exists_of_outcome (sends [1] (ascii "GET / HTTP/1.1\r\n\r\n") 2) (ascii "malformed") []
        (by decide) (by decide) (by decide) (by decide)
    obtain ⟨b, hb, -⟩ : ∃ r : Rejection (httpProtocol .percent) Machine.checked [1]
          (ascii "GET / HTTP/1.1\r\n\r\nmalformed"),
        r.rejected.forwardedTexts = [] ∧ r.lost.length = 1 :=
      exists_of_outcome [] (ascii "GET / HTTP/1.1\r\n\r\nmalformed") []
        (by decide) (by decide) (by decide) (by decide)
    have htexts := hsame _ a b
    rw [ha, hb] at htexts
    cases htexts

end Rejection

end PrimeServer
