import PrimeServer.Cpp.Bytes
import PrimeServer.Library.Automaton
import PrimeServer.Library.Transition

/-!
# The client

`client_t`: the loop of `batch`, which requests a batch and receives responses until the collect
function wants no more. How a client finds the responses in the messages that it receives,
`stream_responses`, is a parameter. The connection message is taken to have arrived, and shutting down
is not modelled.
-/

namespace PrimeServer

/-- What is thrown, as far as the `catch` clauses of `batch` tell it apart. -/
inductive ClientException where
  /-- A `std::exception`. -/
  | std
  /-- Something that is no `std::exception`. -/
  | other
  deriving DecidableEq

/-- `collect_function_t`, as a function of the responses that it was handed before. -/
abbrev Collect := List Bytes → Bytes → Except ClientException Bool

/-- What a call of `stream_responses` does: its return value or exception, the client and `more` after
it, and all responses that were handed to the collect function by then. -/
inductive Streamed (σ : Type) where
  /-- It returns how many responses it has collected. -/
  | returned (collected : ℕ) (client : σ) (more : Bool) (handed : List Bytes)
  /-- It throws, or the collect function that it has called does. -/
  | threw (e : ClientException) (client : σ) (more : Bool) (handed : List Bytes)
  deriving DecidableEq

namespace Streamed

variable {σ : Type}

/-- All responses that were handed to the collect function. -/
def handed : Streamed σ → List Bytes
  | returned _ _ _ handed | threw _ _ _ handed => handed

end Streamed

/-- A class derived from `client_t`. -/
structure ClientProtocol (σ : Type) where
  /-- The client before its first message. -/
  fresh : σ
  /-- `stream_responses`, called with a message when `more` has the given value. -/
  streamResponses : Collect → σ → Bytes → Bool → List Bytes → Streamed σ

/-- Hand over responses one after another: whether the collect function throws, `more` after it, and
what was handed over. -/
def Collect.gather (collect : Collect) :
    Bool → List Bytes → List Bytes → Option ClientException × Bool × List Bytes
  | more, handed, [] => (none, more, handed)
  | more, handed, response :: responses =>
    match collect handed response with
    | .ok more => gather collect more (handed ++ [response]) responses
    | .error e => (some e, more, handed ++ [response])

/-- `stream_responses` hands over the responses that an automaton finds in the message, and throws if the
automaton refuses it. The states of the automaton stand for states of the client. -/
structure ClientProtocol.Scans {σ τ : Type} (π : ClientProtocol σ) (client : τ → σ)
    (step : τ → UInt8 → Option (τ × Option Bytes)) (inv : τ → Prop) : Prop where
  /-- Some state of the automaton stands for the client before its first message. -/
  fresh : ∃ s, inv s ∧ client s = π.fresh
  /-- A byte that the automaton takes leaves it in a state that stands for the client. -/
  inv_step : ∀ {s c t response}, inv s → step s c = some (t, response) → inv t
  /-- The client hands over, one after another, the responses that the automaton finds. -/
  streams : ∀ {s t message responses}, inv s →
    Automaton.run step s message = some (t, responses) → ∀ collect more handed,
      match Collect.gather collect more handed responses with
      | (none, more', handed') =>
        π.streamResponses collect (client s) message more handed =
          .returned responses.length (client t) more' handed'
      | (some e, more', handed') =>
        ∃ t', π.streamResponses collect (client s) message more handed = .threw e t' more' handed'
  /-- The client throws where the automaton stops. -/
  refuses : ∀ {s message}, inv s → Automaton.run step s message = none → ∀ collect more handed,
    ∃ e t' more' handed',
      π.streamResponses collect (client s) message more handed = .threw e t' more' handed'
  /-- Nothing is taken back from the collect function. -/
  appends : ∀ collect client message more handed,
    handed <+: (π.streamResponses collect client message more handed).handed

/-- Messages are given to `stream_responses` one after another. The return values are added up. -/
def ClientProtocol.streamAll {σ : Type} (π : ClientProtocol σ) (collect : Collect) :
    σ → List Bytes → Bool → List Bytes → Streamed σ
  | client, [], more, handed => .returned 0 client more handed
  | client, message :: messages, more, handed =>
    match π.streamResponses collect client message more handed with
    | .threw e client more handed => .threw e client more handed
    | .returned collected client more handed =>
      match π.streamAll collect client messages more handed with
      | .threw e client more handed => .threw e client more handed
      | .returned later client more handed => .returned (collected + later) client more handed

/-- What was handed over stays in front of what is handed over: `collect_function` is never called for a response
twice. -/
theorem Collect.prefix_gather (collect : Collect) (more : Bool) (handed responses : List Bytes) :
    handed <+: (collect.gather more handed responses).2.2 := by
  induction responses generalizing more handed with
  | nil => exact List.prefix_rfl
  | cons response responses ih =>
    rw [gather]
    cases collect handed response with
    | ok more => exact (List.prefix_append _ _).trans (ih more _)
    | error e => exact List.prefix_append _ _

/-- A collect function that never throws is handed all responses. -/
theorem Collect.gather_of_total {collect : Collect}
    (hcollect : ∀ handed response, ∃ more, collect handed response = .ok more) (more : Bool)
    (handed responses : List Bytes) :
    ∃ more', collect.gather more handed responses = (none, more', handed ++ responses) := by
  induction responses generalizing more handed with
  | nil => exact ⟨more, by simp [gather]⟩
  | cons response responses ih =>
    obtain ⟨next, hnext⟩ := hcollect handed response
    obtain ⟨more', hmore⟩ := ih next (handed ++ [response])
    exact ⟨more', by simp [gather, hnext, hmore]⟩

/-- All responses that the automaton finds in the messages are handed over, each in one call, if the
collect function never throws. -/
theorem ClientProtocol.Scans.streamAll {σ τ : Type} {π : ClientProtocol σ} {client : τ → σ}
    {step : τ → UInt8 → Option (τ × Option Bytes)} {inv : τ → Prop} (h : π.Scans client step inv)
    {collect : Collect} (hcollect : ∀ handed response, ∃ more, collect handed response = .ok more)
    {s t : τ} (hs : inv s) {messages responses : List Bytes}
    (hrun : Automaton.run step s messages.flatten = some (t, responses)) (more : Bool)
    (handed : List Bytes) :
    ∃ more', π.streamAll collect (client s) messages more handed =
      .returned responses.length (client t) more' (handed ++ responses) := by
  induction messages generalizing s more handed responses with
  | nil =>
    obtain ⟨rfl, rfl⟩ : s = t ∧ [] = responses := by simpa using hrun
    exact ⟨more, by simp [ClientProtocol.streamAll]⟩
  | cons message messages ih =>
    rw [List.flatten_cons, Automaton.run_append, Option.bind_eq_some_iff] at hrun
    obtain ⟨⟨u, first⟩, hfirst, hrest⟩ := hrun
    obtain ⟨⟨t', later⟩, hlater, heq⟩ := Option.map_eq_some_iff.mp hrest
    obtain ⟨rfl, rfl⟩ : t' = t ∧ first ++ later = responses := by simpa using heq
    -- the first message leaves the client where the automaton is after it
    have hu := Automaton.inv_of_run h.inv_step hs hfirst
    obtain ⟨next, hnext⟩ := Collect.gather_of_total hcollect more handed first
    have hstreams := h.streams hs hfirst collect more handed
    rw [hnext] at hstreams
    obtain hstreams : π.streamResponses collect (client s) message more handed = _ := hstreams
    obtain ⟨more', hmore⟩ := ih hu hlater next (handed ++ first)
    refine ⟨more', ?_⟩
    simp only [ClientProtocol.streamAll, hstreams, hmore, List.length_append, List.append_assoc]

/-- What a call of the request function does. -/
inductive Requested where
  /-- It has nothing more to request. -/
  | nothing
  /-- It sends this as the next request. -/
  | request (text : Bytes)
  /-- It throws. -/
  | threw (e : ClientException)
  deriving DecidableEq

/-- Where the client is in `batch`. -/
inductive ClientControl where
  /-- It requests some, and has asked the request function this often. -/
  | requesting (currentBatch : ℕ)
  /-- It receives some. -/
  | receiving (currentBatch : ℕ)
  /-- `batch` has returned. -/
  | returned
  /-- An exception has left `batch`. -/
  | escaped
  deriving DecidableEq

/-- The state of a client in `batch`. -/
structure Client (σ : Type) where
  /-- The part of the client that the derived class adds. -/
  protocol : σ
  /-- What the collect function returned last, as the loop of `batch` looks at it. -/
  more : Bool
  /-- Where `batch` is. -/
  control : ClientControl
  /-- The requests that it sent. -/
  sent : List Bytes
  /-- The responses that the collect function was handed. -/
  handed : List Bytes

/-- What can happen to a client. -/
inductive ClientInput where
  /-- The request function is called. -/
  | request (outcome : Requested)
  /-- A message is received. -/
  | receive (message : Bytes)

/-- The bodies of the messages that are received. -/
def ClientInput.message : ClientInput → Option Bytes
  | .receive message => some message
  | .request _ => none

namespace Client

variable {σ : Type} (π : ClientProtocol σ) (collect : Collect) (batchSize : ℕ)

/-- Before the first round. With a batch size of 0 there is nothing to do in it. -/
def start : Client σ where
  protocol := π.fresh
  more := false
  control := if 0 < batchSize then .requesting 0 else .returned
  sent := []
  handed := []

/-- Go on after the request function was called. -/
def requested (c : Client σ) (currentBatch : ℕ) : Client σ :=
  if currentBatch < batchSize then { c with control := .requesting currentBatch }
  else { c with more := false, control := .receiving 0 }

/-- Go on after a message was received. -/
def received (c : Client σ) (currentBatch : ℕ) : Client σ :=
  if c.more then
    if currentBatch < batchSize then { c with control := .receiving currentBatch }
    -- keep going while we expect more results
    else { c with control := .requesting 0 }
  else { c with control := .returned }

/-- One step. -/
def step (c : Client σ) : ClientInput → Option (Client σ)
  | .request outcome =>
    match c.control with
    | .requesting currentBatch =>
      some
        (match outcome with
        | .nothing => { c with more := false, control := .receiving 0 }
        | .request text => { c with sent := c.sent ++ [text] }.requested batchSize (currentBatch + 1)
        | .threw .std => c.requested batchSize (currentBatch + 1)
        -- nothing catches it
        | .threw .other => { c with control := .escaped })
    | _ => none
  | .receive message =>
    match c.control with
    | .receiving currentBatch =>
      some
        (match π.streamResponses collect c.protocol message c.more c.handed with
        | .returned collected protocol more handed =>
          { c with protocol, more, handed }.received batchSize (currentBatch + collected)
        | .threw .std protocol more handed =>
          { c with protocol, more, handed }.received batchSize currentBatch
        | .threw .other protocol more handed =>
          { c with protocol, more, handed, control := .escaped })
    | _ => none

end Client

end PrimeServer
