import PrimeServer.Server.Sessions

/-!
# Requests and their sessions

Every request that is being worked on should belong to an open session. A client that hangs up takes
its requests with it. When the server closes a session, after a response or a rejection, it does not
look after the requests that are left.

## Main results

* `Machine.sessions_of_requests`: every request belongs to an open session, as long as the server closes
  no session that has requests left.
-/

namespace PrimeServer

open Transition

variable {σ ρ ι : Type} {π : Protocol σ ρ ι} {config : ServerConfig ρ}

namespace Server

/-- Each request is among those that came from the open session of its client. -/
def Owned (s : Server σ ι) : Prop :=
  ∀ key client, s.requests.find key = some client →
    ∃ session, s.sessions.find client = some session ∧ key ∈ session.enqueued

/-- A server that has just started has no request. -/
theorem owned_start : (start : Server σ ι).Owned := fun _ _ h => by
  simp [start] at h

variable {s t : Server σ ι} {client : Frame} {session : Session σ} {info : ι}

/-- The history and the counters have no part in it. -/
theorem Owned.of_sameBooks (h : s.Owned) (hbooks : s.SameBooks t) : t.Owned := by
  intro key client hfind
  rw [hbooks.requests] at hfind
  obtain ⟨session, hsession, hkey⟩ := h key client hfind
  have henqueued := hbooks.sessions client
  rw [hsession, Option.map_some] at henqueued
  obtain ⟨session', hsession', heq⟩ := Option.map_eq_some_iff.mp henqueued
  exact ⟨session', hsession', heq ▸ hkey⟩

/-- No request belongs to a client without a session. -/
theorem Owned.ne_of_sessions (h : s.Owned) {owner : Frame} {key : UInt64}
    (hfind : s.requests.find key = some owner) (hsession : s.sessions.find client = none) :
    owner ≠ client := by
  rintro rfl
  obtain ⟨session, hfound, -⟩ := h key owner hfind
  exact absurd hfound (by simp [hsession])

/-- A new session owns no request yet. -/
theorem Owned.opened (h : s.Owned) (hsession : s.sessions.find client = none) (session : Session σ) :
    Owned { s with sessions := s.sessions.emplace client session } := by
  intro key owner hfind
  have howner : owner ≠ client := h.ne_of_sessions hfind hsession
  obtain ⟨owned, hfound, hkey⟩ := h key owner hfind
  refine ⟨owned, ?_, hkey⟩
  simp [UnorderedMap.emplace_of_find_eq_none hsession, UnorderedMap.find_assign_of_ne _ _ howner,
    hfound]

/-- Hanging up leaves no request of the session behind. -/
theorem Owned.hangUp (h : s.Owned) (hsession : s.sessions.find client = some session) :
    ((session.enqueued.foldl forget s).destroy client).Owned := by
  intro key owner hfind
  rw [destroy_requests, find_requests_foldl_forget] at hfind
  by_cases hkey : key ∈ session.enqueued
  · simp [hkey] at hfind
  rw [if_neg hkey] at hfind
  obtain ⟨owned, hfound, hmem⟩ := h key owner hfind
  have howner : owner ≠ client := by
    rintro rfl
    obtain rfl : session = owned := Option.some.inj (hsession.symm.trans hfound)
    exact hkey hmem
  refine ⟨owned, ?_, hmem⟩
  rw [destroy_sessions, sessions_foldl_forget, UnorderedMap.find_erase_of_ne _ howner, hfound]

/-- A request that is remembered is owned by the session it came from. -/
theorem Owned.remember (h : s.Owned) (hsession : s.sessions.find client = some session) (info : ι) :
    (s.remember π client session info).Owned := by
  intro key owner hfind
  have hsessions : ∀ owned, s.sessions.find owner = some owned → key ∈ owned.enqueued →
      ∃ session', (s.remember π client session info).sessions.find owner = some session' ∧
        key ∈ session'.enqueued := by
    intro owned hfound hkey
    by_cases howner : owner = client
    · subst howner
      obtain rfl : session = owned := Option.some.inj (hsession.symm.trans hfound)
      exact ⟨_, UnorderedMap.find_assign_self _ _ _, List.mem_append_left _ hkey⟩
    · exact ⟨owned, by simp [UnorderedMap.find_assign_of_ne _ _ howner, hfound], hkey⟩
  cases hknown : s.requests.find (π.key info) with
  | some other =>
    -- an entry that is there is left alone
    rw [remember_requests, UnorderedMap.emplace_of_find_eq_some hknown] at hfind
    obtain ⟨owned, hfound, hkey⟩ := h key owner hfind
    exact hsessions owned hfound hkey
  | none =>
    rw [remember_requests, UnorderedMap.emplace_of_find_eq_none hknown,
      UnorderedMap.find_assign] at hfind
    split_ifs at hfind with hnew
    · obtain rfl : client = owner := Option.some.inj hfind
      exact ⟨_, UnorderedMap.find_assign_self _ _ _, by simp [hnew]⟩
    · obtain ⟨owned, hfound, hkey⟩ := h key owner hfind
      exact hsessions owned hfound hkey

/-- A request that is forgotten needs no owner. -/
theorem Owned.forget (h : s.Owned) (key : UInt64) : (s.forget key).Owned := by
  intro key' owner hfind
  rw [forget_requests, UnorderedMap.find_erase] at hfind
  split_ifs at hfind
  exact h key' owner hfind

/-- A session may go when it has no requests left. -/
theorem Owned.destroy (h : s.Owned) (hnone : ∀ key, s.requests.find key ≠ some client) :
    (s.destroy client).Owned := by
  intro key owner hfind
  obtain ⟨owned, hfound, hkey⟩ := h key owner hfind
  have howner : owner ≠ client := by
    rintro rfl
    exact hnone key hfind
  exact ⟨owned, by simp [UnorderedMap.find_erase_of_ne _ howner, hfound], hkey⟩

/-- A session that answering a request closes has no other requests left. -/
def ClosesEmpty (π : Protocol σ ρ ι) (s : Server σ ι) (info : ι) (sends : DequeueSends) : Prop :=
  ∀ client, s.Closes π info sends client →
    ∀ key, s.requests.find key = some client → key = π.key info

/-- A session that `dequeue` closes leaves no request behind if it lists no other. -/
theorem Owned.dequeue (h : s.Owned) {response : Bytes} {sends : DequeueSends}
    (hempty : s.ClosesEmpty π info sends) {outcome : Dequeued σ ι} {actions : List Action}
    (hspec : s.Dequeues π info response sends (outcome, actions)) : (outcome.server s).Owned := by
  cases hspec with
  | unknown | responseThrew | closeThrew | undefined => exact h
  | kept | notClosed => exact h.forget _
  | @closed owner session hcloses hsession =>
    have hlast := hempty owner hcloses
    refine (h.forget (π.key info)).destroy fun key hfind => ?_
    rw [forget_requests, UnorderedMap.find_erase] at hfind
    split_ifs at hfind with hkey
    exact hkey (hlast key hfind)

end Server

namespace Machine

variable {m t : Machine σ ρ ι}

/-- The server closes no session that has requests left, but for the request that is being
answered. -/
structure ClosesEmpty (π : Protocol σ ρ ι) (config : ServerConfig ρ) (m : Machine σ ρ ι)
    (input : ServerInput ι) : Prop where
  /-- No other request is left of a session that is closed after its response. -/
  answered : ∀ call ∈ m.call π config input, call.server.ClosesEmpty π call.info call.sends
  /-- No request is left of a session that is closed after a rejection. -/
  rejected : ∀ client, m.Disconnects client input →
    ∀ key, m.server.requests.find key ≠ some client

/-- The conditions under which requests have open sessions. -/
def emptyConditions (π : Protocol σ ρ ι) : BookConditions σ ι where
  blank _ _ _ := True
  key _ _ := True
  dequeue s info sends := s.ClosesEmpty π info sends
  disconnect s client := ∀ key, s.requests.find key ≠ some client

/-- Each of the bookkeeping functions keeps every request owned. -/
theorem keepsBooks_owned : KeepsBooks π (emptyConditions π) fun s _ => s.Owned where
  quiet hs hbooks _ := hs.of_sameBooks hbooks
  opened hs _ hsession := hs.opened hsession _
  hungUp hs _ hsession := hs.hangUp hsession
  remembered hs _ hsession _ := hs.remember hsession _
  dequeued hs hempty hspec := hs.dequeue hempty hspec
  disconnected hs hnone _ := hs.destroy hnone

/-- One step keeps every request owned. -/
theorem owned_step (hm : m.server.Owned) {input : ServerInput ι} (hempty : m.ClosesEmpty π config input)
    (hstep : m.step π config input = some t) : t.server.Owned := by
  refine keepsBooks_owned.step ⟨fun _ _ _ => trivial, fun _ _ _ _ _ _ _ _ _ => trivial, ?_, ?_⟩ hm hstep
  · exact hempty.answered
  · exact hempty.rejected

/-- Every request is owned in every run that closes only sessions without further requests. -/
theorem owned_of_run {inputs : List (ServerInput ι)}
    (hmeet : StepsMeet (step π config) .start inputs (ClosesEmpty π config))
    (hrun : run (step π config) .start inputs = some m) : m.server.Owned :=
  invariant_of_stepsMeet (P := fun m => m.server.Owned) Server.owned_start
    (fun _ _ _ ht hempty hstep => owned_step ht hempty hstep) hmeet hrun

/-! ### Looking only at the keys of the session -/

end Machine

/-- Of the keys that the session of the client lists, no others than these belong to requests of the client. -/
def Server.ListsOnly (s : Server σ ι) (client : Frame) (keys : List UInt64) : Prop :=
  ∀ key ∈ s.listed client, s.requests.find key = some client → key ∈ keys

-- key by key, not for all keys that there are
/-- Whether a session lists only some keys can be read off it. -/
instance (s : Server σ ι) (client : Frame) (keys : List UInt64) : Decidable (s.ListsOnly client keys) :=
  List.decidableBAll (fun key => s.requests.find key = some client → key ∈ keys) (s.listed client)

/-- The session lists all requests of the client. -/
theorem Server.Owned.mem_of_listsOnly {s : Server σ ι} (hs : s.Owned) {client : Frame} {keys : List UInt64}
    (hlists : s.ListsOnly client keys) {key : UInt64} (hfind : s.requests.find key = some client) : key ∈ keys := by
  obtain ⟨session, hsession, hkey⟩ := hs key client hfind
  exact hlists key (by simpa [listed, hsession] using hkey) hfind

namespace Machine

variable {m : Machine σ ρ ι}

/-- The client whose session the step closes after a rejection. -/
def rejects (m : Machine σ ρ ι) : ServerInput ι → Option Frame
  | .disconnect .accepted =>
    match m.control with
    | .rejecting client => some client
    | _ => none
  | _ => none

/-- The server closes no session that lists requests that are left, but for the request that is being answered. -/
def ListsEmpty (π : Protocol σ ρ ι) (config : ServerConfig ρ) (m : Machine σ ρ ι) (input : ServerInput ι) : Prop :=
  (∀ call ∈ m.call π config input, ∀ client ∈ call.server.requests.find (π.key call.info),
    call.server.Closes π call.info call.sends client → call.server.ListsOnly client [π.key call.info]) ∧
  ∀ client ∈ m.rejects input, m.server.ListsOnly client []

/-- Whether a step closes a session that lists only its request is decidable. -/
instance (input : ServerInput ι) : Decidable (m.ListsEmpty π config input) := by
  unfold ListsEmpty
  infer_instance

/-- A session that lists only the request that is answered is empty when it is closed. -/
theorem closesEmpty_of_listsEmpty (hm : m.server.Owned) {input : ServerInput ι}
    (hlists : m.ListsEmpty π config input) : m.ClosesEmpty π config input where
  answered call hcall client hcloses key hfind := by
    have howned : call.server.Owned := by
      rcases server_of_call hcall with hserver | ⟨_, _, hsession, hserver⟩
      · rwa [hserver]
      · -- the number of requests is not in the books
        have hcount : m.server.count.Owned := hm
        rw [hserver]
        exact hcount.remember hsession _
    have hmem := howned.mem_of_listsOnly (hlists.1 call hcall client hcloses.1 hcloses) hfind
    exact List.mem_singleton.mp hmem
  rejected client hdisconnects key hfind := by
    cases input with
    | disconnect close =>
      obtain ⟨hcontrol, rfl⟩ := hdisconnects
      have hrejects : m.rejects (.disconnect .accepted) = some client := by simp only [rejects, hcontrol]
      exact List.not_mem_nil (hm.mem_of_listsOnly (hlists.2 client hrejects) hfind)
    | _ => exact hdisconnects

/-- In a run, it is enough to look at the keys that the sessions list. -/
theorem stepsMeet_closesEmpty {inputs : List (ServerInput ι)}
    (h : StepsMeet (step π config) .start inputs (ListsEmpty π config)) :
    StepsMeet (step π config) .start inputs (ClosesEmpty π config) :=
  h.of_invariant (P := fun m => m.server.Owned) Server.owned_start
    (fun _ _ _ ht hempty hstep => owned_step ht hempty hstep) fun _ _ ht hlists => closesEmpty_of_listsEmpty ht hlists

/-- In a run in which the server closes no session that has requests left, every request belongs to an
open session. -/
theorem sessions_of_requests {inputs : List (ServerInput ι)}
    (hmeet : StepsMeet (step π config) .start inputs (ClosesEmpty π config))
    (hrun : run (step π config) .start inputs = some m) {key : UInt64} {client : Frame}
    (hfind : m.server.requests.find key = some client) : m.server.sessions.find client ≠ none := by
  obtain ⟨session, hsession, -⟩ := owned_of_run hmeet hrun key client hfind
  simp [hsession]

/-- The sessions of three clients are closed: after a response, after a rejection, and because the client hangs up
while its request is being worked on. A fourth client sends two requests in one message, and the first of them is
answered. -/
def threeClosings : List (ServerInput HttpRequestInfo) :=
  let sends : DequeueSends := ⟨.accepted, .accepted⟩
  let next : ServerInput HttpRequestInfo := .next 100 .accepted .accepted sends
  let answered (id : UInt32) (version : ℕ) : ServerInput HttpRequestInfo :=
    .result { id, timeStamp := 100, version, connectionKeepAlive := false, connectionClose := false }
      (ascii "HTTP/1.1 200 OK\r\n\r\n") sends
  [.message [1] [] .accepted, .message [1] (ascii "GET /a HTTP/1.0\r\n\r\n") .accepted, next, next, answered 0 0,
    .message [2] [] .accepted, .message [2] (ascii "malformed") .accepted, .disconnect .accepted,
    .message [3] [] .accepted, .message [3] (ascii "GET /b HTTP/1.1\r\n\r\n") .accepted, next, next,
    .message [3] [] .accepted, .message [4] [] .accepted,
    .message [4] (ascii "GET /c HTTP/1.1\r\n\r\nGET /d HTTP/1.1\r\n\r\n") .accepted, next, next, next,
    answered 2 1]

/-- `sessions_of_requests` for a run with a response that closes its session, a rejection and a hang-up. -/
theorem sessions_of_requests_threeClosings :
    ∃ m, run (step (httpProtocol .percent) checked) .start threeClosings = some m ∧
      .closed [1] .accepted ∈ m.wire ∧ .closed [2] .accepted ∈ m.wire ∧ .hungUp [3] ∈ m.wire ∧
        m.server.sessions.find [4] ≠ none := by
  have hrun : (run (step (httpProtocol .percent) checked) .start threeClosings).map
      (fun m => (m.server.requests.find (3 + 100 * 2 ^ 32), decide (.closed [1] .accepted ∈ m.wire),
        decide (.closed [2] .accepted ∈ m.wire), decide (.hungUp [3] ∈ m.wire))) =
      some (some [4], true, true, true) := by decide +kernel
  obtain ⟨m, hm, heq⟩ := Option.map_eq_some_iff.mp hrun
  simp only [Prod.mk.injEq, decide_eq_true_eq] at heq
  obtain ⟨hfind, hanswered, hrejected, hhungUp⟩ := heq
  have hlists : StepsMeet (step (httpProtocol .percent) checked) .start threeClosings
      (ListsEmpty (httpProtocol .percent) checked) := by decide +kernel
  exact ⟨m, hm, hanswered, hrejected, hhungUp, sessions_of_requests (stepsMeet_closesEmpty hlists) hm hfind⟩

/-- After a request, the client sends something malformed. Its session is closed, the request stays. -/
theorem leaves_requests :
    ¬ ∀ inputs m, run (step (httpProtocol .percent) checked) .start inputs = some m →
      ∀ key client, m.server.requests.find key = some client →
        m.server.sessions.find client ≠ none := by
  intro hkept
  have hrun : (run (step (httpProtocol .percent) checked) .start
      [.message [1] [] .accepted,
        .message [1] (ascii "GET / HTTP/1.1\r\n\r\n") .accepted,
        .next 100 .accepted .accepted ⟨.accepted, .accepted⟩,
        .next 100 .accepted .accepted ⟨.accepted, .accepted⟩,
        .message [1] (ascii "malformed") .accepted,
        .disconnect .accepted]).map
      (fun m => (m.server.requests.find (100 * 2 ^ 32), (m.server.sessions.find [1]).isSome)) =
        some (some [1], false) := by decide
  obtain ⟨m, hm, heq⟩ := Option.map_eq_some_iff.mp hrun
  obtain ⟨hfind, hnone⟩ := Prod.mk.inj heq
  exact hkept _ m hm _ _ hfind (by simpa using hnone)

end Machine

end PrimeServer
