import PrimeServer.Server.Outcomes
import PrimeServer.Server.Sessions

/-!
# Responses

Worker results, timeouts and health checks all answer requests through `dequeue`, in any order and
perhaps more than once. A response that is sent is the first one for its request, and goes to the client
that submitted the request and has not hung up.

## Main results

* `Machine.deliveries_of_run`: this holds in every run in which each client connects and disconnects once
  and no key is used again.
-/

namespace PrimeServer

open Transition

variable {σ ρ ι : Type} {π : Protocol σ ρ ι} {config : ServerConfig ρ}

/-- A response that is now sent to a client for the request of a key is the first one, and goes to the
client that submitted the request and has not hung up. -/
structure Delivered (before : List Action) (key : UInt64) (client : Frame) : Prop where
  /-- The client has sent the request. -/
  submitted : .accepted key client ∈ before
  /-- No other client has sent a request under this key. -/
  owner : ∀ c, .accepted key c ∈ before → c = client
  /-- No response for the key was sent before. -/
  first : ∀ c response, .response key c response .accepted ∉ before
  /-- The client has not hung up. -/
  present : .hungUp client ∉ before

/-- What the actions before an action must be for the action to be right. -/
def Action.Justified (before : List Action) : Action → Prop
  | .response key client _ .accepted => Delivered before key client
  | _ => True

/-- All responses were sent once, to the right client. -/
def Deliveries (wire : List Action) : Prop :=
  ∀ before action, before ++ [action] <+: wire → action.Justified before

/-- The empty messages of a client that the server has handled. -/
def blanks (client : Frame) (wire : List Action) : ℕ :=
  wire.countP fun action => action = .opened client ∨ action = .hungUp client

section Wire

variable {wire actions : List Action} {action : Action} {key : UInt64} {client : Frame}

/-- The empty wire holds no response. -/
theorem deliveries_nil : Deliveries [] := by
  intro before action hbefore
  simp at hbefore

/-- One more action is to be justified by those before it. -/
theorem Deliveries.concat (h : Deliveries wire) (hjustified : action.Justified wire) :
    Deliveries (wire ++ [action]) := by
  intro before action' hbefore
  rcases List.prefix_concat_iff.mp hbefore with heq | hbefore
  · obtain ⟨rfl, heq⟩ := List.append_inj' heq rfl
    obtain rfl : action' = action := by simpa using heq
    exact hjustified
  · exact h before action' hbefore

/-- An inert action needs no justification. -/
theorem Action.Inert.justified (h : action.Inert) (before : List Action) :
    action.Justified before := by
  cases action with
  | response => exact h.elim
  | opened | hungUp | accepted | rejection | closed | interrupt | forwarded => trivial

/-- Inert actions need no justification. -/
theorem Deliveries.append (h : Deliveries wire) (hinert : ∀ a ∈ actions, a.Inert) :
    Deliveries (wire ++ actions) := by
  induction actions generalizing wire with
  | nil => simpa using h
  | cons a actions ih =>
    rw [List.append_cons]
    apply ih
    · exact h.concat ((hinert a (by simp)).justified wire)
    · exact fun b hb => hinert b (by simp [hb])

/-- A message of a client without content either opens a session or ends it. -/
theorem blanks_concat (client : Frame) (wire : List Action) (action : Action) :
    blanks client (wire ++ [action]) =
      blanks client wire + if action = .opened client ∨ action = .hungUp client then 1 else 0 := by
  simp [blanks, List.countP_append, List.countP_cons]

/-- Inert actions are not messages. -/
theorem blanks_append_inert (client : Frame) (wire : List Action)
    (hinert : ∀ a ∈ actions, a.Inert) : blanks client (wire ++ actions) = blanks client wire := by
  have hzero : blanks client actions = 0 := by
    rw [blanks, List.countP_eq_zero]
    intro a ha
    have := hinert a ha
    cases a <;> simp_all [Action.Inert]
  rw [blanks, List.countP_append]
  exact Nat.add_eq_left.mpr hzero

/-- More actions do not undo a delivery. -/
theorem Delivered.append (h : Delivered wire key client) (hinert : ∀ a ∈ actions, a.Inert) :
    Delivered (wire ++ actions) key client where
  submitted := List.mem_append_left _ h.submitted
  owner c hc := h.owner c ((mem_append_inert hinert (by simp [Action.Inert])).mp hc)
  first c response hc :=
    h.first c response ((mem_append_inert hinert (by simp [Action.Inert])).mp hc)
  present hc := h.present ((mem_append_inert hinert (by simp [Action.Inert])).mp hc)

/-- An action that is neither about the request nor the end of its client's connection. -/
theorem Delivered.concat (h : Delivered wire key client) (haccepted : ∀ c, action ≠ .accepted key c)
    (hresponse : ∀ c response, action ≠ .response key c response .accepted)
    (hhungUp : action ≠ .hungUp client) : Delivered (wire ++ [action]) key client where
  submitted := List.mem_append_left _ h.submitted
  owner c hc := h.owner c (by simpa [(haccepted c).symm] using hc)
  first c response hc := h.first c response (by simpa [(hresponse c response).symm] using hc)
  present hc := h.present (by simpa [hhungUp.symm] using hc)

end Wire

/-- A request that is being worked on may still be answered, and its session knows of it unless that
session was closed. -/
structure Pending (s : Server σ ι) (wire : List Action) (key : UInt64) (client : Frame) : Prop where
  /-- A response for the key could be sent. -/
  delivered : Delivered wire key client
  /-- The key is in the session, as long as the server has not closed it. -/
  listed : .closed client .accepted ∉ wire →
    ∃ session, s.sessions.find client = some session ∧ key ∈ session.enqueued

/-- What the books say agrees with what was done. A client that has a session has sent an empty message
for it, and another one if it had a session before.

It holds at the start (`tracked_start`), and a step keeps it (`tracked_step`) under two conditions. The first is
`Machine.Assumed`: no send of the response or of the closing frame throws, a client sends at most two empty
messages, and no request is accepted under a key that was accepted before. The second is `Machine.FindsSession`:
a call of `dequeue` that closes a session finds it. -/
structure Tracked (s : Server σ ι) (wire : List Action) : Prop where
  /-- Each response was sent once, and to the client that had sent the request. -/
  deliveries : Deliveries wire
  /-- A response could be sent for each request in progress. -/
  pending : ∀ key client, s.requests.find key = some client → Pending s wire key client
  /-- A session is opened by an empty message. -/
  opened : ∀ client, s.sessions.find client ≠ none → 1 ≤ blanks client wire
  /-- A session that is there again after the server has closed it was opened by a second one. -/
  closed : ∀ client, .closed client .accepted ∈ wire →
    1 ≤ blanks client wire ∧ (s.sessions.find client ≠ none → 2 ≤ blanks client wire)
  /-- A client that has hung up has no session, and has sent both of its empty messages. -/
  hungUp : ∀ client, .hungUp client ∈ wire →
    s.sessions.find client = none ∧ 2 ≤ blanks client wire

/-- A server that has just started has delivered nothing. -/
theorem tracked_start : Tracked (Server.start : Server σ ι) [] where
  deliveries := deliveries_nil
  pending _ _ hfind := by simp [Server.start] at hfind
  opened _ hsession := by simp [Server.start] at hsession
  closed _ hclosed := by simp at hclosed
  hungUp _ hhungUp := by simp at hhungUp

namespace Tracked

variable {s t : Server σ ι} {wire actions : List Action} {key : UInt64} {client : Frame}
  {session : Session σ}

/-- Inert actions change neither what was accepted nor what was delivered. -/
theorem append (h : Tracked s wire) (hinert : ∀ a ∈ actions, a.Inert) :
    Tracked s (wire ++ actions) where
  deliveries := h.deliveries.append hinert
  pending key client hfind := by
    refine ⟨(h.pending key client hfind).delivered.append hinert, fun hclosed => ?_⟩
    exact (h.pending key client hfind).listed fun hmem => hclosed (List.mem_append_left _ hmem)
  opened client hsession := by
    rw [blanks_append_inert client wire hinert]
    exact h.opened client hsession
  closed client hclosed := by
    rw [mem_append_inert hinert (by simp [Action.Inert])] at hclosed
    rw [blanks_append_inert client wire hinert]
    exact h.closed client hclosed
  hungUp client hhungUp := by
    rw [mem_append_inert hinert (by simp [Action.Inert])] at hhungUp
    rw [blanks_append_inert client wire hinert]
    exact h.hungUp client hhungUp

/-- The history and the counters have no part in it. -/
theorem of_sameBooks (h : Tracked s wire) (hbooks : s.SameBooks t) : Tracked t wire where
  deliveries := h.deliveries
  pending key client hfind := by
    have hpending := h.pending key client (hbooks.requests ▸ hfind)
    refine ⟨hpending.delivered, fun hclosed => ?_⟩
    obtain ⟨session, hsession, hkey⟩ := hpending.listed hclosed
    have henqueued := hbooks.sessions client
    rw [hsession, Option.map_some] at henqueued
    obtain ⟨session', hsession', heq⟩ := Option.map_eq_some_iff.mp henqueued
    exact ⟨session', hsession', heq ▸ hkey⟩
  opened client hsession := h.opened client ((hbooks.sessions_ne_none_iff client).mp hsession)
  closed client hclosed :=
    ⟨(h.closed client hclosed).1, fun hsession =>
      (h.closed client hclosed).2 ((hbooks.sessions_ne_none_iff client).mp hsession)⟩
  hungUp client hhungUp := by
    refine ⟨?_, (h.hungUp client hhungUp).2⟩
    by_contra hsession
    exact (hbooks.sessions_ne_none_iff client).mp hsession (h.hungUp client hhungUp).1

/-- Answering a request takes it off the books. -/
theorem answer (h : Tracked s wire) (hfind : s.requests.find key = some client) (response : Bytes)
    (result : SendResult) :
    Tracked (s.forget key) (wire ++ [.response key client response result]) where
  deliveries := by
    apply h.deliveries.concat
    cases result with
    | accepted => exact (h.pending key client hfind).delivered
    | again | threw => trivial
  pending key' owner hfind' := by
    rw [Server.forget_requests, UnorderedMap.find_erase] at hfind'
    split_ifs at hfind' with hkey
    have hpending := h.pending key' owner hfind'
    refine ⟨hpending.delivered.concat (by simp) (fun c r => ?_) (by simp), fun hclosed => ?_⟩
    · -- the response is that of another request
      simp [Ne.symm hkey]
    · exact hpending.listed (by simpa using hclosed)
  opened owner hsession := by
    simpa [blanks_concat] using h.opened owner hsession
  closed owner hclosed := by
    have hbefore := h.closed owner (by simpa using hclosed)
    simpa [blanks_concat] using hbefore
  hungUp owner hhungUp := by
    have hbefore := h.hungUp owner (by simpa using hhungUp)
    simpa [blanks_concat] using hbefore

/-- The server closes a session. -/
theorem close (h : Tracked s wire) (hsession : s.sessions.find client = some session) :
    Tracked (s.destroy client) (wire ++ [.closed client .accepted]) where
  deliveries := h.deliveries.concat trivial
  pending key owner hfind := by
    have hpending := h.pending key owner hfind
    refine ⟨hpending.delivered.concat (by simp) (by simp) (by simp), fun hclosed => ?_⟩
    -- a request whose session is still there belongs to another client
    obtain ⟨hclosed, howner⟩ : .closed owner .accepted ∉ wire ∧ owner ≠ client := by
      simpa using hclosed
    obtain ⟨owned, hfound, hkey⟩ := hpending.listed hclosed
    exact ⟨owned, by simp [UnorderedMap.find_erase_of_ne _ howner, hfound], hkey⟩
  opened owner howner := by
    rw [Server.destroy_sessions, UnorderedMap.find_erase] at howner
    split_ifs at howner with heq
    · exact absurd rfl howner
    · simpa [blanks_concat] using h.opened owner howner
  closed owner hclosed := by
    by_cases heq : owner = client
    · subst heq
      refine ⟨?_, fun howner => absurd (UnorderedMap.find_erase_self _ _) howner⟩
      -- the session that is closed was opened by an empty message
      simpa [blanks_concat] using h.opened owner (by simp [hsession])
    · have hbefore := h.closed owner (by simpa [heq] using hclosed)
      simpa [blanks_concat, UnorderedMap.find_erase_of_ne _ heq] using hbefore
  hungUp owner hhungUp := by
    obtain ⟨hnone, hblanks⟩ := h.hungUp owner (by simpa using hhungUp)
    refine ⟨?_, by simpa [blanks_concat] using hblanks⟩
    rw [Server.destroy_sessions, UnorderedMap.find_erase]
    split_ifs <;> simp [hnone]

/-- A client connects. -/
theorem connect (h : Tracked s wire) (hblanks : blanks client wire < 2)
    (hnone : s.sessions.find client = none) (session : Session σ) :
    Tracked { s with sessions := s.sessions.emplace client session }
      (wire ++ [.opened client]) := by
  have hsessions : ∀ owner, owner ≠ client →
      (s.sessions.emplace client session).find owner = s.sessions.find owner := fun owner howner => by
    rw [UnorderedMap.emplace_of_find_eq_none hnone, UnorderedMap.find_assign_of_ne _ _ howner]
  refine ⟨h.deliveries.concat trivial, fun key owner hfind => ?_, fun owner howner => ?_,
    fun owner hclosed => ?_, fun owner hhungUp => ?_⟩
  · have hpending := h.pending key owner hfind
    refine ⟨hpending.delivered.concat (by simp) (by simp) (by simp), fun hclosed => ?_⟩
    obtain ⟨owned, hfound, hkey⟩ := hpending.listed (by simpa using hclosed)
    -- whoever waits for a response has a session, and this client has none
    have howner : owner ≠ client := by
      rintro rfl
      simp [hnone] at hfound
    exact ⟨owned, by rw [hsessions owner howner, hfound], hkey⟩
  · rw [blanks_concat]
    by_cases heq : owner = client
    · simp [heq]
    · have hbefore := h.opened owner (by rwa [← hsessions owner heq])
      omega
  · obtain ⟨hone, htwo⟩ := h.closed owner (by simpa using hclosed)
    rw [blanks_concat]
    refine ⟨by omega, fun howner => ?_⟩
    by_cases heq : owner = client
    · simpa [heq] using hone
    · have hbefore := htwo (by rwa [← hsessions owner heq])
      omega
  · obtain ⟨howner, htwo⟩ := h.hungUp owner (by simpa using hhungUp)
    -- who has hung up has sent two blank messages
    have hne : owner ≠ client := by
      rintro rfl
      omega
    rw [blanks_concat]
    exact ⟨by rw [hsessions owner hne, howner], by omega⟩

/-- A client with a session hangs up. It has connected only once, so that no session of it was closed
before, and all its requests are taken off the books. -/
theorem hangUp (h : Tracked s wire) (hblanks : blanks client wire < 2)
    (hsession : s.sessions.find client = some session) :
    Tracked ((session.enqueued.foldl Server.forget s).destroy client)
      (wire ++ (session.enqueued.map .interrupt ++ [.hungUp client])) := by
  have hinert : ∀ a ∈ session.enqueued.map Action.interrupt, a.Inert := by simp [Action.Inert]
  -- a session that was closed would mean a second empty message before this one
  have hnotClosed : .closed client .accepted ∉ wire := fun hclosed => by
    have htwo := (h.closed client hclosed).2 (by simp [hsession])
    omega
  have hsessions : ∀ owner, ((session.enqueued.foldl Server.forget s).destroy client).sessions.find
      owner = if owner = client then none else s.sessions.find owner := fun owner => by
    rw [Server.destroy_sessions, Server.sessions_foldl_forget, UnorderedMap.find_erase]
  rw [← List.append_assoc]
  have h' := h.append hinert
  generalize wire ++ session.enqueued.map Action.interrupt = wire' at h'
  refine ⟨h'.deliveries.concat trivial, fun key owner hfind => ?_, fun owner howner => ?_,
    fun owner hclosed => ?_, fun owner hhungUp => ?_⟩
  · rw [Server.destroy_requests, Server.find_requests_foldl_forget] at hfind
    split_ifs at hfind with hkey
    have howner : owner ≠ client := by
      rintro rfl
      -- the requests of the client are all in its session, and go with it
      obtain ⟨owned, hfound, hmem⟩ := (h.pending key owner hfind).listed hnotClosed
      obtain rfl : session = owned := Option.some.inj (hsession.symm.trans hfound)
      exact hkey hmem
    have hpending := h'.pending key owner hfind
    refine ⟨hpending.delivered.concat (by simp) (by simp) (by simp [Ne.symm howner]),
      fun hclosed => ?_⟩
    rw [hsessions, if_neg howner]
    exact hpending.listed (by simpa using hclosed)
  · rw [hsessions] at howner
    rw [blanks_concat]
    split_ifs at howner with heq
    · exact absurd rfl howner
    · have hbefore := h'.opened owner howner
      omega
  · obtain ⟨hone, htwo⟩ := h'.closed owner (by simpa using hclosed)
    rw [blanks_concat, hsessions]
    refine ⟨by omega, fun howner => ?_⟩
    split_ifs at howner with heq
    · exact absurd rfl howner
    · have hbefore := htwo howner
      omega
  · rw [blanks_concat, hsessions]
    by_cases heq : owner = client
    · subst heq
      have hone := h'.opened owner (by simp [hsession])
      simpa using hone
    · obtain ⟨howner, htwo⟩ := h'.hungUp owner (by simpa [heq] using hhungUp)
      rw [if_neg heq]
      exact ⟨howner, by omega⟩

/-- A request is remembered under a new key. -/
theorem remember (h : Tracked s wire) {info : ι} (hkey : ∀ c, .accepted (π.key info) c ∉ wire)
    (hsession : s.sessions.find client = some session) :
    Tracked (s.remember π client session info) (wire ++ [.accepted (π.key info) client]) := by
  -- the key is new, so that nothing is on the books for it
  have hunknown : s.requests.find (π.key info) = none := by
    by_contra hknown
    obtain ⟨owner, hfind⟩ := Option.ne_none_iff_exists'.mp hknown
    exact hkey owner (h.pending _ owner hfind).delivered.submitted
  -- a response to the key would have had a request before it
  have hunanswered : ∀ c r, .response (π.key info) c r .accepted ∉ wire := fun c r hmem => by
    obtain ⟨before, after, rfl⟩ := List.append_of_mem hmem
    have hjustified := h.deliveries before _ ⟨after, List.append_cons .. |>.symm⟩
    exact hkey c (List.mem_append_left _ hjustified.submitted)
  have hnotHungUp : .hungUp client ∉ wire := fun hhungUp => by
    have hnone := (h.hungUp client hhungUp).1
    simp [hsession] at hnone
  have hsessions : ∀ owner, (s.remember π client session info).sessions.find owner ≠ none ↔
      s.sessions.find owner ≠ none := fun owner => by
    rw [Server.remember_sessions, UnorderedMap.find_assign]
    by_cases heq : owner = client <;> simp [heq, hsession]
  refine ⟨h.deliveries.concat trivial, fun key owner hfind => ?_, fun owner howner => ?_,
    fun owner hclosed => ?_, fun owner hhungUp => ?_⟩
  · rw [Server.remember_requests, UnorderedMap.emplace_of_find_eq_none hunknown,
      UnorderedMap.find_assign] at hfind
    split_ifs at hfind with hnew
    · obtain rfl : client = owner := Option.some.inj hfind
      subst hnew
      refine ⟨⟨by simp, fun c hc => ?_, fun c r hc => ?_, fun hhungUp => ?_⟩, fun _ => ?_⟩
      · simpa [hkey c] using hc
      · exact hunanswered c r (by simpa using hc)
      · exact hnotHungUp (by simpa using hhungUp)
      · exact ⟨_, UnorderedMap.find_assign_self _ _ _, by simp⟩
    · have hpending := h.pending key owner hfind
      refine ⟨hpending.delivered.concat (by simp [Ne.symm hnew]) (by simp) (by simp),
        fun hclosed => ?_⟩
      obtain ⟨owned, hfound, hmem⟩ := hpending.listed (by simpa using hclosed)
      by_cases heq : owner = client
      · subst heq
        obtain rfl : session = owned := Option.some.inj (hsession.symm.trans hfound)
        exact ⟨_, UnorderedMap.find_assign_self _ _ _, List.mem_append_left _ hmem⟩
      · exact ⟨owned, by simp [UnorderedMap.find_assign_of_ne _ _ heq, hfound], hmem⟩
  · simpa [blanks_concat] using h.opened owner ((hsessions owner).mp howner)
  · obtain ⟨hone, htwo⟩ := h.closed owner (by simpa using hclosed)
    rw [hsessions]
    simpa [blanks_concat] using And.intro hone htwo
  · obtain ⟨hnone, htwo⟩ := h.hungUp owner (by simpa using hhungUp)
    refine ⟨?_, by simpa [blanks_concat] using htwo⟩
    by_contra howner
    exact (hsessions owner).mp howner hnone

/-- A response is sent for a key that is still in `requests`, which is where it stops to be after it. -/
theorem dequeue (h : Tracked s wire) {info : ι} {response : Bytes} {sends : DequeueSends}
    (hreturned : sends.response ≠ .threw ∧ sends.close ≠ .threw)
    (hfinds : ∀ owner, s.Closes π info sends owner → s.sessions.find owner ≠ none)
    {outcome : Dequeued σ ι} (hspec : s.Dequeues π info response sends (outcome, actions)) :
    Tracked (outcome.server s) (wire ++ actions) := by
  cases hspec with
  | unknown =>
    rw [List.append_nil]
    exact h
  | responseThrew _ hresponse => exact absurd hresponse hreturned.1
  | closeThrew _ _ _ hclose => exact absurd hclose hreturned.2
  | undefined hcloses hsession => exact absurd hsession (hfinds _ hcloses)
  | kept hfind => exact h.answer hfind response sends.response
  | notClosed hfind _ _ hclose =>
    rw [List.append_cons]
    exact (h.answer hfind response sends.response).append (by simp [Action.Inert, hclose])
  | @closed owner session hcloses hsession =>
    -- the response, then the end of the connection, then the interrupts
    have hclosed := (h.answer hcloses.1 response sends.response).close hsession
    have hinert : ∀ a ∈ session.enqueued.map Action.interrupt, a.Inert := by simp [Action.Inert]
    have hinterrupted := hclosed.append hinert
    rw [hcloses.2.2.2]
    simp only [List.append_assoc] at hinterrupted
    exact hinterrupted

/-- The last response before the end of `sessions` is dereferenced is like any other. -/
theorem lost (h : Tracked s wire) (hfind : s.requests.find key = some client) (response : Bytes)
    (sent close : SendResult) :
    Deliveries (wire ++ [.response key client response sent, .closed client close]) := by
  rw [List.append_cons]
  exact (h.answer hfind response sent).deliveries.concat trivial

end Tracked

/-! ### Runs -/

/-- A request is remembered under this key. -/
def Action.accepts (key : UInt64) : Action → Bool
  | .accepted used _ => used = key
  | _ => false

/-- The key was not given to a request before. -/
def Unused (key : UInt64) (wire : List Action) : Prop :=
  ∀ action ∈ wire, ¬ action.accepts key

/-- Whether a key is unused can be read off the wire. -/
instance (key : UInt64) (wire : List Action) : Decidable (Unused key wire) :=
  inferInstanceAs (Decidable (∀ action ∈ wire, ¬ action.accepts key))

namespace Machine

variable {m t : Machine σ ρ ι}

/-- The key of the request that `enqueue` sends on next. -/
def nextKey (π : Protocol σ ρ ι) (m : Machine σ ρ ι) (now : ℕ) : Option UInt64 :=
  match m.control with
  | .enqueueing _ (parsed :: _) => some (π.key (π.toInfo parsed m.server.requestId now))
  | _ => none

/-- What may be assumed of a step. An empty message of a client is its first one, with which it connects, or its
second one, with which it disconnects. The id and the time stamp of a request are together unique: its key was
not accepted before. The sends of the response and of the closing frame return, be it with `false`. -/
def Assumed (π : Protocol σ ρ ι) (m : Machine σ ρ ι) : ServerInput ι → Prop
  | .message client [] _ => blanks client m.wire < 2
  | .message _ (_ :: _) _ | .disconnect _ | .timeouts _ => True
  | .result _ _ sends | .expire sends => sends.response ≠ .threw ∧ sends.close ≠ .threw
  | .next now _ _ sends =>
    (sends.response ≠ .threw ∧ sends.close ≠ .threw) ∧ ∀ key ∈ m.nextKey π now, Unused key m.wire

/-- The assumptions about a step are decidable. -/
instance : (input : ServerInput ι) → Decidable (m.Assumed π input)
  | .message client [] _ => inferInstanceAs (Decidable (blanks client m.wire < 2))
  | .message _ (_ :: _) _ | .disconnect _ | .timeouts _ => isTrue trivial
  | .result _ _ sends | .expire sends =>
    inferInstanceAs (Decidable (sends.response ≠ .threw ∧ sends.close ≠ .threw))
  | .next now _ _ sends =>
    -- not by a search through all keys
    have : Decidable (∀ key ∈ m.nextKey π now, Unused key m.wire) :=
      Option.decidableForallMem (m.nextKey π now)
    inferInstanceAs (Decidable ((sends.response ≠ .threw ∧ sends.close ≠ .threw) ∧
      ∀ key ∈ m.nextKey π now, Unused key m.wire))

/-- The session that a call of `dequeue` closes is there. Where it is not, `dequeue` dereferences the end of
`sessions`. -/
def FindsSession (π : Protocol σ ρ ι) (config : ServerConfig ρ) (m : Machine σ ρ ι)
    (input : ServerInput ι) : Prop :=
  ∀ call ∈ m.call π config input, call.FindsSession π

/-- Whether a step finds its session is decidable. -/
instance (input : ServerInput ι) : Decidable (m.FindsSession π config input) :=
  inferInstanceAs (Decidable (∀ call ∈ m.call π config input, call.FindsSession π))

/-- The conditions under which responses are sent once and to the right client. -/
def deliveryConditions (π : Protocol σ ρ ι) : BookConditions σ ι where
  blank _ wire client := blanks client wire < 2
  key wire key := Unused key wire
  dequeue s info sends :=
    (sends.response ≠ .threw ∧ sends.close ≠ .threw) ∧
      ∀ client, s.Closes π info sends client → s.sessions.find client ≠ none
  disconnect _ _ := True

/-- Each of the bookkeeping functions keeps the books tracked. -/
theorem keepsBooks_tracked : KeepsBooks π (deliveryConditions π) Tracked where
  quiet hs hbooks hinert := (hs.of_sameBooks hbooks).append hinert
  opened hs hblanks hnone := hs.connect hblanks hnone _
  hungUp hs hblanks hsession := hs.hangUp hblanks hsession
  remembered hs hkey hsession hinert := by
    refine (hs.append hinert).remember (fun c hmem => ?_) hsession
    rw [mem_append_inert hinert (by simp [Action.Inert])] at hmem
    exact hkey _ hmem (by simp [Action.accepts])
  dequeued hs hdequeue hspec := hs.dequeue hdequeue.1 hdequeue.2 hspec
  disconnected {s wire client session} hs _ hsession :=
    (hs.close hsession).append (by simp [Action.Inert])

/-- The sends of a call are those of its step. -/
theorem Assumed.returned {input : ServerInput ι} (h : m.Assumed π input) {call : Call σ ι}
    (hcall : m.call π config input = some call) :
    call.sends.response ≠ .threw ∧ call.sends.close ≠ .threw := by
  cases calls_of_call hcall with
  | result | expire => exact h
  | answer => exact h.1

/-- One step keeps the books tracked. -/
theorem tracked_step (hm : Tracked m.server m.wire) {input : ServerInput ι}
    (hassumed : m.Assumed π input) (hfinds : m.FindsSession π config input)
    (hstep : m.step π config input = some t) : Tracked t.server t.wire := by
  refine keepsBooks_tracked.step ⟨?_, ?_, ?_, fun _ _ => trivial⟩ hm hstep
  · rintro client rejection rfl
    exact hassumed
  · rintro client parsed rest now info text sends hcontrol rfl
    exact hassumed.2 _ (by simp [nextKey, hcontrol])
  · exact fun call hcall => ⟨hassumed.returned hcall, hfinds call hcall⟩

/-- A call of `dequeue` that finds no session to close has sent the response and the closing frame, and then
dereferences the end of `sessions`. -/
theorem dequeue_of_lost {call : Call σ ι} (hlost : ¬ call.FindsSession π) :
    ∃ client, call.server.requests.find (π.key call.info) = some client ∧
      call.server.dequeue π call.info call.response call.sends =
        (.undefined, [.response (π.key call.info) client call.response call.sends.response,
          .closed client call.sends.close]) := by
  obtain ⟨client, hcloses, hsession⟩ : ∃ client,
      call.server.Closes π call.info call.sends client ∧ call.server.sessions.find client = none := by
    simpa [Call.FindsSession] using hlost
  obtain ⟨hfind, hresponse, hkeep, hclose⟩ := hcloses
  refine ⟨client, hfind, ?_⟩
  simp only [Server.dequeue, hfind, hsession, hclose, hkeep, if_neg hresponse, Bool.false_eq_true, if_false]

/-- A step whose call of `dequeue` finds no session to close stops the server, and has sent a response only
to the client of the request. -/
theorem deliveries_of_lost (hm : Tracked m.server m.wire) {input : ServerInput ι}
    (hassumed : m.Assumed π input) (hlost : ¬ m.FindsSession π config input)
    (hstep : m.step π config input = some t) :
    Deliveries t.wire ∧ t.control = .undefined .missingSession := by
  obtain ⟨call, hcall, hlost⟩ : ∃ call, m.call π config input = some call ∧ ¬ call.FindsSession π := by
    simpa [FindsSession] using hlost
  obtain ⟨client, hfind, hdequeue⟩ := dequeue_of_lost hlost
  -- what the server knows when `dequeue` is called, for each of the three callers
  cases calls_of_call hcall with
  | result info response sends =>
    cases stepped_of_step hstep with
    | result => simpa [result, hdequeue] using hm.lost hfind response sends.response sends.close
  | @answer owner parsed rest session now info text sends hcontrol hmatch hsession =>
    have hcounted : Tracked m.server.count m.wire := hm.of_sameBooks ⟨rfl, fun _ => rfl⟩
    have hunused : Unused (π.key (π.toInfo parsed m.server.requestId now)) m.wire :=
      hassumed.2 _ (by simp [nextKey, hcontrol])
    have hnever : ∀ c, .accepted (π.key (π.toInfo parsed m.server.requestId now)) c ∉ m.wire := fun c hmem =>
      hunused _ hmem (by simp [Action.accepts])
    have hremembered := hcounted.remember hnever hsession
    simp only [step, hcontrol] at hstep
    obtain rfl := Option.some.inj hstep
    simpa [enqueue, answer, hmatch, hsession, hdequeue] using
      hremembered.lost hfind config.healthCheckResponse sends.response sends.close
  | @expire limit info history sends hcontrol hhistory hold =>
    have hpublished : Tracked m.server (m.wire ++ [.interrupt (π.key info)]) := hm.append (by simp [Action.Inert])
    simp only [step, hcontrol] at hstep
    obtain rfl := Option.some.inj hstep
    simpa [expire, hhistory, hold.1, hold.2, hdequeue] using
      hpublished.lost hfind (π.timeout info) sends.response sends.close

/-- In every run, under any order of connects, data, disconnects, health checks, timeouts and results, all
responses are sent once and to the right client. Where the program uses a session that is gone, the machine has
stopped, and all that was sent until then is right. -/
theorem deliveries_of_run {inputs : List (ServerInput ι)}
    (hassumed : StepsMeet (step π config) .start inputs (Assumed π))
    (hrun : run (step π config) .start inputs = some m) : Deliveries m.wire := by
  -- the books are kept until the behaviour of the program is undefined
  have hinvariant : Deliveries m.wire ∧ (m.control ≠ .undefined .missingSession → Tracked m.server m.wire) := by
    refine invariant_of_stepsMeet (P := fun m => Deliveries m.wire ∧
        (m.control ≠ .undefined .missingSession → Tracked m.server m.wire))
      ⟨deliveries_nil, fun _ => tracked_start⟩ (fun t input u ht hmeet hstep => ?_) hassumed hrun
    have htracked : Tracked t.server t.wire := ht.2 fun hstopped => by
      cases input <;> simp [step, hstopped] at hstep
    by_cases hfinds : t.FindsSession π config input
    · have hkept := tracked_step htracked hmeet hfinds hstep
      exact ⟨hkept.deliveries, fun _ => hkept⟩
    · obtain ⟨hdeliveries, hstopped⟩ := deliveries_of_lost htracked hmeet hfinds hstep
      exact ⟨hdeliveries, fun hgoes => absurd hstopped hgoes⟩
  exact hinvariant.1

/-- A health check and a request in one message. The result for the request comes twice. -/
def answeredTwice : List (ServerInput HttpRequestInfo) :=
  let result := .result
    { id := 1
      timeStamp := 100
      version := 0
      connectionKeepAlive := false
      connectionClose := false }
    (ascii "HTTP/1.0 200 OK\r\n\r\n") ⟨.accepted, .accepted⟩
  healthChecks (ascii "GET /health_check HTTP/1.1\r\n\r\nGET / HTTP/1.0\r\n\r\n") ++
    [.next 100 .accepted .accepted ⟨.accepted, .accepted⟩, result, result,
      .message [1] [] .accepted]

/-- `deliveries_of_run` for a client whose request is answered twice. -/
theorem deliveries_of_run_answeredTwice :
    ∃ m, run (step (httpProtocol .percent) checked) .start answeredTwice = some m ∧ Deliveries m.wire := by
  obtain ⟨m, hm⟩ := Option.isSome_iff_exists.mp
    (by decide : (run (step (httpProtocol .percent) checked) .start answeredTwice).isSome)
  exact ⟨m, hm, deliveries_of_run (by decide) hm⟩

end Machine

end PrimeServer
