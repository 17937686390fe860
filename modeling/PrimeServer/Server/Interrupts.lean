import PrimeServer.Server.Sessions
import PrimeServer.Server.Timeouts

/-!
# Interrupts

A key on the interrupt socket tells the workers to give up a request. Keys are published when a session
ends, for all requests that ever came from it, and by `handle_timeouts` for all that are too old. Neither
the list of a session nor the history forgets a request that was answered.

## Main results

* `Machine.published_of_step`: `Machine.interrupts` is what a step publishes;
* `Machine.interruptsOutstanding_of_run`: all published keys are those of requests that are being worked
  on, as long as no request that ends with its session or times out was answered or withdrawn before.
-/

namespace PrimeServer

open Transition

variable {σ ρ ι : Type} {π : Protocol σ ρ ι} {config : ServerConfig ρ}

/-- The key that an action publishes on the interrupt socket. -/
def Action.published : Action → Option UInt64
  | .interrupt key => some key
  | .opened _ | .hungUp _ | .accepted _ _ | .response _ _ _ _ | .rejection _ _ _ | .closed _ _
  | .forwarded _ _ => none

/-- A response to a request was sent, or at least not refused by an exception. -/
def Action.answers (key : UInt64) : Action → Bool
  | .response key' _ _ result => key' = key ∧ result ≠ .threw
  | .opened _ | .hungUp _ | .accepted _ _ | .rejection _ _ _ | .closed _ _ | .interrupt _
  | .forwarded _ _ => false

/-- The client that submitted a request has hung up. -/
def Action.withdrawn (key : UInt64) (wire : List Action) : Action → Bool
  | .accepted key' client => key' = key ∧ .hungUp client ∈ wire
  | .opened _ | .hungUp _ | .response _ _ _ _ | .rejection _ _ _ | .closed _ _ | .interrupt _
  | .forwarded _ _ => false

/-- A request was answered, or its client has hung up. -/
def Released (key : UInt64) (wire : List Action) : Prop :=
  (∃ action ∈ wire, action.answers key) ∨ ∃ action ∈ wire, action.withdrawn key wire

instance (key : UInt64) (wire : List Action) : Decidable (Released key wire) :=
  inferInstanceAs (Decidable (_ ∨ _))

/-! ### What is published -/

/-- Hanging up publishes each key of the session, and takes its request off the books before the next
one. -/
def Server.hangUps : List UInt64 → Server σ ι → List (UInt64 × Server σ ι)
  | [], _ => []
  | key :: keys, s => (key, s) :: hangUps keys (s.forget key)

/-- The client whose session a call of `dequeue` closes. -/
def Call.closes (π : Protocol σ ρ ι) (call : Call σ ι) : Option Frame :=
  (call.server.requests.find (π.key call.info)).filter
    (call.server.Closes π call.info call.sends ·)

/-- The keys that a call of `dequeue` publishes when it closes a session. -/
def Call.interrupts (π : Protocol σ ρ ι) (call : Call σ ι) : List (UInt64 × Server σ ι) :=
  (call.closes π).toList.flatMap fun client =>
    (call.server.listed client).map fun key => (key, call.server)

namespace Machine

/-- The request that `handle_timeouts` drops. -/
def expired (π : Protocol σ ρ ι) (m : Machine σ ρ ι) : ServerInput ι → Option ι
  | .expire _ =>
    match m.control, m.server.requestHistory with
    | .expiring dropDead, info :: _ =>
      if dropDead > 0 ∧ (π.timeStamp info).toNat < dropDead then some info else none
    | _, _ => none
  | _ => none

/-- The keys that a step publishes on the interrupt socket, each with the server at that moment. -/
def interrupts (π : Protocol σ ρ ι) (config : ServerConfig ρ) (m : Machine σ ρ ι)
    (input : ServerInput ι) : List (UInt64 × Server σ ι) :=
  ((m.expired π input).toList.map fun info => (π.key info, m.server)) ++
    ((m.call π config input).toList.flatMap (Call.interrupts π) ++
      match input, m.control with
      | .message client [] _, .serving => Server.hangUps (m.server.listed client) m.server
      | .disconnect .accepted, .rejecting client =>
        (m.server.listed client).map fun key => (key, m.server)
      | _, _ => [])

/-- Every key that the step publishes is that of a request which is being worked on at that moment. -/
def InterruptsOutstanding (π : Protocol σ ρ ι) (config : ServerConfig ρ) (m : Machine σ ρ ι)
    (input : ServerInput ι) : Prop :=
  ∀ interrupt ∈ m.interrupts π config input, interrupt.2.requests.find interrupt.1 ≠ none

instance (m : Machine σ ρ ι) (input : ServerInput ι) :
    Decidable (m.InterruptsOutstanding π config input) := by
  unfold InterruptsOutstanding
  infer_instance

/-- The client that hangs up. -/
def hangsUp : ServerInput ι → Option Frame
  | .message client [] _ => some client
  | _ => none

/-- The client whose session the step ends: it hangs up, or the server closes the session after a
rejection or a response. -/
def ending (π : Protocol σ ρ ι) (config : ServerConfig ρ) (m : Machine σ ρ ι) (input : ServerInput ι) :
    Option Frame :=
  match input, m.control with
  | .message client [] _, _ => some client
  | .disconnect .accepted, .rejecting client => some client
  | _, _ => (m.call π config input).bind (Call.closes π)

/-- No request is answered or withdrawn before its session ends or its time is up. -/
structure EndsWaiting (π : Protocol σ ρ ι) (config : ServerConfig ρ) (m : Machine σ ρ ι)
    (input : ServerInput ι) : Prop where
  /-- When a session ends, all its requests are still waiting for their answers. -/
  session : ∀ client ∈ m.ending π config input, ∀ key ∈ m.server.listed client, ¬ Released key m.wire
  /-- No two requests of a client that hangs up have the same key. -/
  nodup : ∀ client ∈ hangsUp input, (m.server.listed client).Nodup
  /-- A request that times out is still waiting for its answer. -/
  timeout : ∀ info ∈ m.expired π input, ¬ Released (π.key info) m.wire

instance (m : Machine σ ρ ι) (input : ServerInput ι) : Decidable (m.EndsWaiting π config input) :=
  -- key by key, not for all keys that there are
  have (client : Frame) : Decidable (∀ key ∈ m.server.listed client, ¬ Released key m.wire) :=
    List.decidableBAll _ _
  decidable_of_iff
    ((∀ client ∈ m.ending π config input, ∀ key ∈ m.server.listed client, ¬ Released key m.wire) ∧
      (∀ client ∈ hangsUp input, (m.server.listed client).Nodup) ∧
        ∀ info ∈ m.expired π input, ¬ Released (π.key info) m.wire)
    ⟨fun h => ⟨h.1, h.2.1, h.2.2⟩, fun h => ⟨h.session, h.nodup, h.timeout⟩⟩

end Machine

section Published

variable {s t : Server σ ι} {client : Frame} {session : Session σ}

/-- The keys listed for a client with a session. -/
theorem Server.listed_of_find (h : s.sessions.find client = some session) :
    s.listed client = session.enqueued := by
  simp [listed, h]

/-- No keys are listed for a client without one. -/
theorem Server.listed_of_find_eq_none (h : s.sessions.find client = none) :
    s.listed client = [] := by
  simp [listed, h]

/-- The keys that a hang-up publishes are those it was given. -/
@[simp]
theorem Server.map_fst_hangUps (keys : List UInt64) (s : Server σ ι) :
    (Server.hangUps keys s).map Prod.fst = keys := by
  induction keys generalizing s with
  | nil => rfl
  | cons key keys ih => rw [hangUps, List.map_cons, ih]

/-- An interrupt publishes its key. -/
@[simp]
theorem Action.published_comp_interrupt : Action.published ∘ Action.interrupt = some := rfl

/-- Each key with the server at the moment of its publication. -/
private theorem map_fst_map (keys : List UInt64) (s : Server σ ι) :
    (keys.map fun key => (key, s)).map Prod.fst = keys := by
  simp [Function.comp_def]

/-- The client whose session a call closes. -/
theorem Call.closes_eq_some {call : Call σ ι} :
    call.closes π = some client ↔ call.server.Closes π call.info call.sends client := by
  rw [closes, Option.filter_eq_some_iff, decide_eq_true_iff]
  exact and_iff_right_of_imp And.left

/-- A call that closes a session publishes what was listed for it. -/
theorem Call.interrupts_of_closes {call : Call σ ι}
    (h : call.server.Closes π call.info call.sends client) :
    call.interrupts π = (call.server.listed client).map fun key => (key, call.server) := by
  simp [interrupts, closes_eq_some.mpr h]

/-- A call that closes no session publishes nothing. -/
theorem Call.interrupts_of_not_closes {call : Call σ ι}
    (h : ∀ client, ¬ call.server.Closes π call.info call.sends client) : call.interrupts π = [] := by
  have hnone : call.closes π = none :=
    Option.eq_none_iff_forall_ne_some.mpr fun client hclient => h client (closes_eq_some.mp hclient)
  simp [interrupts, hnone]

/-- What `dequeue` publishes. -/
theorem Call.published (call : Call σ ι) :
    (call.server.dequeue π call.info call.response call.sends).2.filterMap Action.published =
      (call.interrupts π).map Prod.fst := by
  have hspec := Server.dequeue_spec π call.server call.info call.response call.sends
  generalize call.server.dequeue π call.info call.response call.sends = dequeued at hspec
  cases hspec with
  -- nothing is published unless a session is closed
  | unknown hfind =>
    rw [interrupts_of_not_closes (by simp [Server.Closes, hfind])]
    rfl
  | responseThrew hfind hresponse =>
    rw [interrupts_of_not_closes (by simp [Server.Closes, hresponse])]
    rfl
  | kept hfind hresponse hkeep =>
    rw [interrupts_of_not_closes (by simp [Server.Closes, hkeep])]
    rfl
  | closeThrew hfind _ _ hclose | notClosed hfind _ _ hclose =>
    rw [interrupts_of_not_closes (by simp [Server.Closes, hclose])]
    rfl
  | closed hcloses hsession =>
    rw [interrupts_of_closes hcloses, map_fst_map, Server.listed_of_find hsession]
    simp [List.filterMap_cons, Action.published]
  | undefined hcloses hsession =>
    rw [interrupts_of_closes hcloses, map_fst_map, Server.listed_of_find_eq_none hsession]
    rfl

end Published

namespace Machine

variable {m t : Machine σ ρ ι}

/-- A result publishes what its call interrupts. -/
theorem published_result (m : Machine σ ρ ι) (info : ι) (response : Bytes) (sends : DequeueSends) :
    (m.result π info response sends).wire.filterMap Action.published =
      m.wire.filterMap Action.published ++
        (Call.interrupts π { server := m.server, info, response, sends }).map Prod.fst := by
  have hpublished := Call.published (π := π) { server := m.server, info, response, sends }
  have hspec := m.result_spec π info response sends
  generalize m.result π info response sends = t at hspec ⊢
  cases hspec with
  | returned hd | threw hd | undefined hd =>
    simp only [hd] at hpublished
    simp [List.filterMap_append, hpublished]

/-- Of the messages of clients only the empty one publishes, and what was listed. -/
theorem published_handleRequest (m : Machine σ ρ ι) (client : Frame) (body : Bytes)
    (rejection : SendResult) :
    (m.handleRequest π config client body rejection).wire.filterMap Action.published =
      m.wire.filterMap Action.published ++ if body = [] then m.server.listed client else [] := by
  have hspec := m.handleRequest_spec π config client body rejection
  generalize m.handleRequest π config client body rejection = t at hspec ⊢
  cases hspec with
  | ignored _ hbody | parsed _ hbody | threw _ hbody => simp [hbody]
  | opened hsession hbody =>
    rw [Server.listed_of_find_eq_none hsession]
    simp [hbody, List.filterMap_append, List.filterMap_cons, Action.published]
  | hungUp hsession hbody =>
    -- the keys of the session are published
    rw [Server.listed_of_find hsession]
    simp [hbody, List.filterMap_append, List.filterMap_cons, Action.published]
  | rejectionThrew _ hbody | rejected _ hbody =>
    simp [hbody, List.filterMap_append, List.filterMap_cons, Action.published]

/-- A request that was forwarded publishes nothing. -/
theorem published_forward {client : Frame} {parsed : ρ} {rest : List ρ} {info : ι}
    (hforwards : m.Forwards π client parsed rest info t) :
    t.wire.filterMap Action.published = m.wire.filterMap Action.published := by
  cases hforwards with
  | threw | again => rfl
  | undefined | sent => simp [List.filterMap_append, List.filterMap_cons, Action.published]

/-- A health check that closes its session publishes what was listed, the key of the check with it. -/
theorem published_answer {client : Frame} {session : Session σ}
    (hsession : m.server.sessions.find client = some session) {rest : List ρ} {info : ι}
    {sends : DequeueSends} (hanswers : m.Answers π config client rest info sends t) :
    t.wire.filterMap Action.published =
      m.wire.filterMap Action.published ++
        (Call.interrupts π
          { server := m.server.remember π client session info
            info
            response := config.healthCheckResponse
            sends }).map Prod.fst := by
  have hpublished := Call.published (π := π)
    { server := m.server.remember π client session info
      info
      response := config.healthCheckResponse
      sends }
  cases hanswers with
  | destroyed hnone => cases hsession.symm.trans hnone
  | returned hfound hd | threw hfound hd | undefined hfound hd =>
    obtain rfl := Option.some.inj (hsession.symm.trans hfound)
    simp only [hd] at hpublished
    simp [List.filterMap_append, List.filterMap_cons, hpublished, Action.published]

/-- A rejection publishes what was listed if the connection was closed. -/
theorem published_disconnect (m : Machine σ ρ ι) (client : Frame) (close : SendResult) :
    (m.disconnect client close).wire.filterMap Action.published =
      m.wire.filterMap Action.published ++
        if close = .accepted then m.server.listed client else [] := by
  have hspec := m.disconnect_spec client close
  generalize m.disconnect client close = t at hspec ⊢
  cases hspec with
  | undefined hsession => simp [Server.listed_of_find_eq_none hsession]
  | closed hsession hclose =>
    rw [Server.listed_of_find hsession]
    simp [hclose, List.filterMap_append, List.filterMap_cons, Action.published]
  | kept _ hclose => simp [hclose, List.filterMap_append, List.filterMap_cons, Action.published]

/-- A timeout publishes what its call interrupts. -/
theorem published_expire (m : Machine σ ρ ι) {dropDead : ℤ}
    (hcontrol : m.control = .expiring dropDead) (sends : DequeueSends) :
    (m.expire π dropDead sends).wire.filterMap Action.published =
      m.wire.filterMap Action.published ++
        (m.interrupts π config (.expire sends)).map Prod.fst := by
  unfold interrupts
  simp only [expired, call, hcontrol]
  have hspec := m.expire_spec π dropDead sends
  generalize m.expire π dropDead sends = t at hspec ⊢
  cases hspec with
  | finished hhistory => simp [hhistory]
  | young hhistory hyoung => simp [hhistory, if_neg hyoung]
  | @returned info _ _ _ hhistory hold hd | @threw info _ _ _ hhistory hold hd
    | @undefined info _ _ hhistory hold hd =>
    -- the key of the request, and then what `dequeue` publishes
    have hpublished := Call.published (π := π)
      { server := m.server, info, response := π.timeout info, sends }
    simp only [hd] at hpublished
    simp [hhistory, if_pos hold, List.filterMap_append, hpublished, Action.published]

/-- What a step publishes. -/
theorem published_of_step {input : ServerInput ι} (hstep : m.step π config input = some t) :
    t.wire.filterMap Action.published =
      m.wire.filterMap Action.published ++ (m.interrupts π config input).map Prod.fst := by
  cases stepped_of_step hstep with
  | result info response sends hcontrol =>
    rw [published_result]
    simp [interrupts, expired, call]
  | message client body rejection hcontrol =>
    rw [published_handleRequest]
    cases body <;> simp [interrupts, expired, call, hcontrol]
  | @enqueue client parsed rest now info text sends hcontrol =>
    have hspec := m.enqueue_spec π config client parsed rest now info text sends
    generalize m.enqueue π config client parsed rest now info text sends = t at hspec ⊢
    cases hspec with
    | threw hmatch => simp [interrupts, expired, call, hcontrol, hmatch]
    | forwards hmatch hforwards =>
      rw [published_forward hforwards]
      simp [interrupts, expired, call, hcontrol, hmatch]
    | answers hmatch hanswers =>
      cases hsession : m.server.sessions.find client with
      | none =>
        -- the session was closed by a health check before this request
        cases hanswers with
        | destroyed => simp [interrupts, expired, call, hcontrol, hmatch, hsession]
        | returned hfound | threw hfound | undefined hfound => cases hsession.symm.trans hfound
      | some session =>
        rw [published_answer (m := { m with server := m.server.count }) hsession hanswers]
        simp [interrupts, expired, call, hcontrol, hmatch, hsession]
  | enqueued now info text sends hcontrol => simp [interrupts, expired, call, hcontrol]
  | @disconnect client close hcontrol =>
    rw [published_disconnect]
    cases close <;> simp [interrupts, expired, call, hcontrol, Function.comp_def]
  | timeouts now hcontrol => simp [interrupts, expired, call]
  | expire sends hcontrol => exact published_expire m hcontrol sends

end Machine

/-! ### What is on the books -/

section Released

variable {key : UInt64} {client : Frame} {wire wire' : List Action}

/-- A longer wire releases as much. -/
theorem Released.mono (h : Released key wire) (hwire : ∀ a ∈ wire, a ∈ wire') :
    Released key wire' := by
  rcases h with ⟨action, hmem, hanswers⟩ | ⟨action, hmem, hwithdrawn⟩
  · exact Or.inl ⟨action, hwire action hmem, hanswers⟩
  · refine Or.inr ⟨action, hwire action hmem, ?_⟩
    cases action with
    | accepted key' client =>
      obtain ⟨hkey, hhungUp⟩ : key' = key ∧ .hungUp client ∈ wire := by
        simpa [Action.withdrawn] using hwithdrawn
      simpa [Action.withdrawn] using And.intro hkey (hwire _ hhungUp)
    | opened | hungUp | response | rejection | closed | interrupt | forwarded => cases hwithdrawn

/-- A key stays released. -/
theorem Released.append (h : Released key wire) (actions : List Action) :
    Released key (wire ++ actions) :=
  h.mono fun _ => List.mem_append_left actions

/-- A response that was sent releases its key. -/
theorem released_of_response {response : Bytes} {result : SendResult}
    (hmem : .response key client response result ∈ wire) (hresult : result ≠ .threw) :
    Released key wire :=
  Or.inl ⟨_, hmem, by simp [Action.answers, hresult]⟩

/-- A hang-up releases the keys of its client. -/
theorem released_of_hungUp (haccepted : .accepted key client ∈ wire)
    (hhungUp : .hungUp client ∈ wire) : Released key wire :=
  Or.inr ⟨_, haccepted, by simp [Action.withdrawn, hhungUp]⟩

end Released

/-- A request that is remembered is on the books, and so is all that was. -/
theorem Server.find_requests_remember {s : Server σ ι} {client : Frame} {session : Session σ} {info : ι}
    {key : UInt64} (h : s.requests.find key ≠ none ∨ key = π.key info) :
    (s.remember π client session info).requests.find key ≠ none := by
  rw [Server.remember_requests]
  cases hknown : s.requests.find (π.key info) with
  | some other =>
    rw [UnorderedMap.emplace_of_find_eq_some hknown]
    rcases h with hfind | rfl
    · exact hfind
    · simp [hknown]
  | none =>
    rw [UnorderedMap.emplace_of_find_eq_none hknown, UnorderedMap.find_assign]
    split_ifs with heq
    · simp
    · exact h.resolve_right heq

/-- Hanging up takes no request off the books before its own key is published. -/
theorem Server.find_requests_of_mem_hangUps {keys : List UInt64} {s : Server σ ι}
    {interrupt : UInt64 × Server σ ι} (hnodup : keys.Nodup) (hmem : interrupt ∈ hangUps keys s)
    (hfind : s.requests.find interrupt.1 ≠ none) : interrupt.2.requests.find interrupt.1 ≠ none := by
  induction keys generalizing s with
  | nil => simp [hangUps] at hmem
  | cons key keys ih =>
    obtain ⟨hkey, hnodup⟩ := List.nodup_cons.mp hnodup
    rcases List.mem_cons.mp (show interrupt ∈ (key, s) :: hangUps keys (s.forget key) from hmem) with
      rfl | hmem
    · exact hfind
    · apply ih hnodup hmem
      have hlater : interrupt.1 ∈ keys := by
        rw [← map_fst_hangUps keys (s.forget key)]
        exact List.mem_map_of_mem hmem
      have hne : interrupt.1 ≠ key := fun heq => hkey (heq ▸ hlater)
      rwa [forget_requests, UnorderedMap.find_erase, if_neg hne]

/-- A request that was accepted is on the books until it is released, and the lists of the sessions have
only requests that their clients submitted. -/
structure Recorded (s : Server σ ι) (wire : List Action) : Prop where
  /-- A request that was accepted is in progress or was released. -/
  waiting : ∀ key client, .accepted key client ∈ wire →
    s.requests.find key ≠ none ∨ Released key wire
  /-- A session lists only keys of requests from its client. -/
  listed : ∀ client, ∀ key ∈ s.listed client, .accepted key client ∈ wire

/-- A server that has just started has recorded nothing. -/
theorem recorded_start : Recorded (Server.start : Server σ ι) [] where
  waiting _ _ haccepted := by simp at haccepted
  listed _ _ hkey := by simp [Server.listed, Server.start] at hkey

namespace Recorded

variable {s t : Server σ ι} {wire actions : List Action} {client : Frame} {session : Session σ}

/-- The history and the counters have no part in it. -/
theorem quiet (h : Recorded s wire) (hbooks : s.SameBooks t) (hinert : ∀ a ∈ actions, a.Inert) :
    Recorded t (wire ++ actions) where
  waiting key owner haccepted := by
    rw [mem_append_inert hinert (by simp [Action.Inert])] at haccepted
    rw [hbooks.requests]
    exact (h.waiting key owner haccepted).imp id fun hreleased => hreleased.append actions
  listed owner key hkey := by
    rw [Server.listed, hbooks.sessions] at hkey
    exact List.mem_append_left _ (h.listed owner key hkey)

/-- A new session lists nothing. -/
theorem opened (h : Recorded s wire) (hnone : s.sessions.find client = none) (request : σ) :
    Recorded { s with sessions := s.sessions.emplace client { request, enqueued := [] } }
      (wire ++ [.opened client]) where
  waiting key owner haccepted :=
    (h.waiting key owner (by simpa using haccepted)).imp id fun hreleased => hreleased.append _
  listed owner key hkey := by
    simp only [Server.listed, UnorderedMap.emplace_of_find_eq_none hnone,
      UnorderedMap.find_assign] at hkey
    split_ifs at hkey
    · simp at hkey
    · exact List.mem_append_left _ (h.listed owner key hkey)

/-- Taking requests off the books that are released, and sessions. -/
theorem release (h : Recorded s wire) (hrequests : ∀ key, s.requests.find key ≠ none →
      t.requests.find key ≠ none ∨ Released key (wire ++ actions))
    (hlisted : ∀ owner, ∀ key ∈ t.listed owner, key ∈ s.listed owner)
    (haccepted : ∀ key owner, .accepted key owner ∉ actions) : Recorded t (wire ++ actions) where
  waiting key owner hmem := by
    rcases List.mem_append.mp hmem with hmem | hmem
    · rcases h.waiting key owner hmem with hfind | hreleased
      · exact hrequests key hfind
      · exact Or.inr (hreleased.append actions)
    · exact absurd hmem (haccepted key owner)
  listed owner key hkey := List.mem_append_left _ (h.listed owner key (hlisted owner key hkey))

/-- Removing a session lists no more keys. -/
theorem listed_destroy {owner : Frame} {key : UInt64} (h : key ∈ (s.destroy client).listed owner) :
    key ∈ s.listed owner := by
  simp only [Server.listed, Server.destroy_sessions, UnorderedMap.find_erase] at h
  split_ifs at h
  · simp at h
  · exact h

/-- A hang-up releases all the keys that were listed for its client. -/
theorem hangUp (h : Recorded s wire) (hsession : s.sessions.find client = some session) :
    Recorded ((session.enqueued.foldl Server.forget s).destroy client)
      (wire ++ (session.enqueued.map .interrupt ++ [.hungUp client])) := by
  refine h.release (fun key hfind => ?_) (fun owner key hkey => ?_) (by simp)
  · rw [Server.destroy_requests, Server.find_requests_foldl_forget]
    split_ifs with hkey
    · -- the client submitted the requests of its session
      right
      have haccepted := h.listed client key (by rwa [Server.listed_of_find hsession])
      exact released_of_hungUp (List.mem_append_left _ haccepted) (by simp)
    · exact Or.inl hfind
  · have hkey' := listed_destroy hkey
    rwa [Server.listed, Server.sessions_foldl_forget] at hkey'

/-- A request is accepted when it is remembered. -/
theorem remember (h : Recorded s wire) (hsession : s.sessions.find client = some session) (info : ι)
    (hinert : ∀ a ∈ actions, a.Inert) :
    Recorded (s.remember π client session info)
      (wire ++ actions ++ [.accepted (π.key info) client]) where
  waiting key owner haccepted := by
    rcases List.mem_append.mp haccepted with haccepted | haccepted
    · rw [mem_append_inert hinert (by simp [Action.Inert])] at haccepted
      rcases h.waiting key owner haccepted with hfind | hreleased
      · exact Or.inl (Server.find_requests_remember (Or.inl hfind))
      · exact Or.inr ((hreleased.append actions).append _)
    · obtain ⟨rfl, -⟩ : key = π.key info ∧ owner = client := by simpa using haccepted
      exact Or.inl (Server.find_requests_remember (Or.inr rfl))
  listed owner key hkey := by
    simp only [Server.listed, Server.remember_sessions, UnorderedMap.find_assign] at hkey
    split_ifs at hkey with howner
    · subst howner
      -- the keys of the session are the old ones and the new one
      rcases List.mem_append.mp (show key ∈ session.enqueued ++ [π.key info] from hkey) with
        hold | hnew
      · have haccepted := h.listed owner key (by rwa [Server.listed_of_find hsession])
        simp [haccepted]
      · simp [List.mem_singleton.mp hnew]
    · have haccepted := h.listed owner key hkey
      simp [haccepted]

/-- A response releases its key, and forgets it. -/
theorem dequeue (h : Recorded s wire) {info : ι} {response : Bytes} {sends : DequeueSends}
    {outcome : Dequeued σ ι} (hspec : s.Dequeues π info response sends (outcome, actions)) :
    Recorded (outcome.server s) (wire ++ actions) := by
  -- the request that is answered is the only one that goes
  have hforget : ∀ {owner : Frame}, .response (π.key info) owner response sends.response ∈ actions →
      sends.response ≠ .threw → ∀ key, s.requests.find key ≠ none →
        (s.forget (π.key info)).requests.find key ≠ none ∨ Released key (wire ++ actions) := by
    intro owner hmem hresponse key hfind
    rw [Server.forget_requests, UnorderedMap.find_erase]
    split_ifs with hkey
    · exact Or.inr (released_of_response (hkey ▸ List.mem_append_right _ hmem) hresponse)
    · exact Or.inl hfind
  cases hspec with
  | unknown => exact h.release (fun _ => Or.inl) (fun _ _ => id) (by simp)
  | responseThrew | closeThrew | undefined =>
    exact h.release (fun _ => Or.inl) (fun _ _ => id) (by simp)
  | kept hfind hresponse | notClosed hfind hresponse =>
    exact h.release (hforget List.mem_cons_self hresponse) (fun _ _ => id) (by simp)
  | closed hcloses _ =>
    have hanswered := hforget (List.mem_append_left _ List.mem_cons_self) hcloses.2.1
    exact h.release hanswered (fun _ _ => listed_destroy) (by simp)

/-- Each of the bookkeeping functions keeps the books recorded. -/
theorem keepsBooks : KeepsBooks π (.free σ ι) Recorded where
  quiet hs hbooks hinert := hs.quiet hbooks hinert
  opened hs _ hnone := hs.opened hnone _
  hungUp hs _ hsession := hs.hangUp hsession
  remembered hs _ hsession hinert := hs.remember hsession _ hinert
  dequeued hs _ hspec := hs.dequeue hspec
  disconnected {s wire client session} hs _ _ := by
    rw [List.append_assoc]
    exact hs.release (fun _ => Or.inl) (fun _ _ => listed_destroy) (by simp)

end Recorded

namespace Machine

variable {m t : Machine σ ρ ι}

/-- The requests in the history were accepted. -/
def HistoryAccepted (π : Protocol σ ρ ι) (m : Machine σ ρ ι) : Prop :=
  ∀ info ∈ m.server.requestHistory, ∃ client, .accepted (π.key info) client ∈ m.wire

/-- A request that enters the history is accepted in the same step. -/
theorem accepted_of_forward {client : Frame} {parsed : ρ} {rest : List ρ} {info info' : ι}
    (hforwards : m.Forwards π client parsed rest info' t) (hinfo : info ∈ t.server.requestHistory) :
    info ∈ m.server.requestHistory ∨ .accepted (π.key info) client ∈ t.wire := by
  cases hforwards with
  | threw | again | undefined => exact Or.inl hinfo
  | sent =>
    rcases List.mem_append.mp hinfo with hold | hnew
    · exact Or.inl hold
    · rw [List.mem_singleton.mp hnew]
      exact Or.inr (by simp)

/-- A health check enters the history after it has been accepted. -/
theorem accepted_of_answer {client : Frame} {rest : List ρ} {info info' : ι} {sends : DequeueSends}
    (hanswers : m.Answers π config client rest info' sends t)
    (hinfo : info ∈ t.server.requestHistory) :
    info ∈ m.server.requestHistory ∨ .accepted (π.key info) client ∈ t.wire := by
  cases hanswers with
  | destroyed => exact Or.inl hinfo
  | returned hsession hd | threw hsession hd | undefined hsession hd =>
    -- answering the health check takes no part in the history
    have hhistory := (Server.dequeues_of_eq hd).history.1
    have hremembered : info ∈ m.server.requestHistory ++ [info'] := by
      rw [← show _ = m.server.requestHistory ++ [info'] from hhistory]
      exact hinfo
    rcases List.mem_append.mp hremembered with hold | hnew
    · exact Or.inl hold
    · rw [List.mem_singleton.mp hnew]
      exact Or.inr (by simp)

/-- A request enters the history after it has been accepted. -/
theorem accepted_of_enqueue {client : Frame} {parsed : ρ} {rest : List ρ} {now : ℕ}
    {sends : DequeueSends} {info : ι} (henqueues : m.Enqueues π config client parsed rest now sends t)
    (hinfo : info ∈ t.server.requestHistory) :
    info ∈ m.server.requestHistory ∨ .accepted (π.key info) client ∈ t.wire := by
  cases henqueues with
  | threw => exact Or.inl hinfo
  | forwards _ hforwards =>
    exact accepted_of_forward (m := { m with server := m.server.count }) hforwards hinfo
  | answers _ hanswers =>
    exact accepted_of_answer (m := { m with server := m.server.count }) hanswers hinfo

/-- One step keeps the history accepted. -/
theorem HistoryAccepted.step (hm : m.HistoryAccepted π) {input : ServerInput ι}
    (hstep : m.step π config input = some t) : t.HistoryAccepted π := by
  -- what was accepted before the step still is after it
  have hold : ∀ info ∈ m.server.requestHistory, ∃ client, .accepted (π.key info) client ∈ t.wire := by
    intro info hinfo
    obtain ⟨client, haccepted⟩ := hm info hinfo
    exact ⟨client, mem_wire_of_step hstep haccepted⟩
  intro info hinfo
  cases stepped_of_step hstep with
  | @enqueue client parsed rest now infoSent textSent sends hcontrol =>
    have henqueues := m.enqueue_spec π config client parsed rest now infoSent textSent sends
    rcases accepted_of_enqueue henqueues hinfo with hinfo | haccepted
    · exact hold info hinfo
    · exact ⟨client, haccepted⟩
  | enqueued | timeouts => exact hold info hinfo
  | result info' response sends =>
    cases result_ages m info' response sends with
    | kept hhistory => exact hold info (hhistory ▸ hinfo)
  | message client body rejection =>
    cases handleRequest_ages m client body rejection with
    | kept hhistory => exact hold info (hhistory ▸ hinfo)
  | @disconnect client close =>
    cases disconnect_ages (π := π) m client close with
    | kept hhistory => exact hold info (hhistory ▸ hinfo)
  | @expire dropDead sends hcontrol =>
    cases expire_ages m dropDead sends with
    | kept hhistory => exact hold info (hhistory ▸ hinfo)
    | dropped hhistory => exact hold info (by rw [hhistory]; exact List.mem_cons_of_mem _ hinfo)

/-- In every run the history holds only what was accepted. -/
theorem historyAccepted_of_run {inputs : List (ServerInput ι)}
    (hrun : run (step π config) .start inputs = some m) : m.HistoryAccepted π :=
  invariant_of_steps (P := HistoryAccepted π)
    (fun info hinfo => by simp [start, Server.start] at hinfo)
    (fun _ _ _ ht hstep => ht.step hstep) hrun

/-- A session ends when a call of `dequeue` closes it. -/
theorem ending_of_closes {input : ServerInput ι} {call : Call σ ι}
    (hcall : m.call π config input = some call) {client : Frame}
    (hcloses : call.server.Closes π call.info call.sends client) :
    m.ending π config input = some client := by
  have hclient := Call.closes_eq_some.mpr hcloses
  cases input with
  | result | expire => simp [ending, hcall, hclient]
  | next => simp [ending, hcall, hclient]
  | message | disconnect | timeouts => simp [Machine.call] at hcall

/-- What an ending session publishes through `dequeue`. -/
theorem find_requests_of_call {input : ServerInput ι} {call : Call σ ι}
    (hcall : m.call π config input = some call)
    (hwaiting : ∀ client ∈ m.ending π config input, ∀ key ∈ m.server.listed client,
      m.server.requests.find key ≠ none)
    {interrupt : UInt64 × Server σ ι} (hmem : interrupt ∈ call.interrupts π) :
    interrupt.2.requests.find interrupt.1 ≠ none := by
  obtain ⟨client, hclient, hmem⟩ := List.mem_flatMap.mp hmem
  have hcloses := Call.closes_eq_some.mp (Option.mem_toList.mp hclient)
  obtain ⟨key, hkey, rfl⟩ := List.mem_map.mp hmem
  have hold : key ∈ m.server.listed client → m.server.requests.find key ≠ none :=
    hwaiting client (ending_of_closes hcall hcloses) key
  show call.server.requests.find key ≠ none
  rcases server_of_call hcall with hserver | ⟨owner, session, hsession, hserver⟩
  · rw [hserver] at hkey ⊢
    exact hold hkey
  · -- the call is made for a request that has just been remembered
    rw [hserver] at hkey ⊢
    apply Server.find_requests_remember
    rw [Server.listed, Server.remember_sessions, UnorderedMap.find_assign] at hkey
    split_ifs at hkey with howner
    · subst howner
      rcases List.mem_append.mp (show key ∈ session.enqueued ++ [π.key call.info] from hkey) with
        hkey | hkey
      · exact Or.inl (hold (by rwa [Server.listed_of_find hsession]))
      · exact Or.inr (List.mem_singleton.mp hkey)
    · exact Or.inl (hold hkey)

/-- A request that times out is the oldest of the history. -/
theorem mem_requestHistory_of_expired {input : ServerInput ι} {info : ι}
    (h : info ∈ m.expired π input) : info ∈ m.server.requestHistory := by
  unfold expired at h
  split at h
  case h_1 =>
    split at h
    case h_1 hhistory =>
      split_ifs at h
      · obtain rfl := Option.some.inj h
        rw [hhistory]
        exact List.mem_cons_self
      · cases h
    case h_2 => cases h
  case h_2 => cases h

/-- One step publishes keys of requests that are being worked on if those whose sessions end or whose time
is up were waiting. -/
theorem interruptsOutstanding (hm : Recorded m.server m.wire) (hhistory : m.HistoryAccepted π)
    {input : ServerInput ι} (hends : m.EndsWaiting π config input) :
    m.InterruptsOutstanding π config input := by
  have hlisted : ∀ client ∈ m.ending π config input, ∀ key ∈ m.server.listed client,
      m.server.requests.find key ≠ none := fun client hclient key hkey =>
    (hm.waiting key client (hm.listed client key hkey)).resolve_right
      (hends.session client hclient key hkey)
  intro interrupt hmem
  rcases List.mem_append.mp hmem with hmem | hmem
  · -- `handle_timeouts` publishes the key of the request that it drops
    obtain ⟨info, hinfo, rfl⟩ := List.mem_map.mp hmem
    rw [Option.mem_toList] at hinfo
    obtain ⟨client, haccepted⟩ := hhistory info (mem_requestHistory_of_expired hinfo)
    exact (hm.waiting _ client haccepted).resolve_right (hends.timeout info hinfo)
  rcases List.mem_append.mp hmem with hmem | hmem
  · obtain ⟨call, hcall, hmem⟩ := List.mem_flatMap.mp hmem
    exact find_requests_of_call (Option.mem_toList.mp hcall) hlisted hmem
  split at hmem
  case h_1 client rejection _ _ _ =>
    apply Server.find_requests_of_mem_hangUps (hends.nodup client rfl) hmem
    have hkey : interrupt.1 ∈ m.server.listed client := by
      rw [← Server.map_fst_hangUps (m.server.listed client) m.server]
      exact List.mem_map_of_mem hmem
    exact hlisted client rfl _ hkey
  case h_2 client hcontrol _ _ =>
    obtain ⟨key, hkey, rfl⟩ := List.mem_map.mp hmem
    exact hlisted client (by simp only [ending, hcontrol]; rfl) key hkey
  case h_3 => simp at hmem

/-- In every run in which no request is answered or withdrawn before its session ends or its time is up,
all keys that are published are those of requests that are being worked on. -/
theorem interruptsOutstanding_of_run {inputs : List (ServerInput ι)}
    (hends : StepsMeet (step π config) .start inputs (EndsWaiting π config)) :
    StepsMeet (step π config) .start inputs (InterruptsOutstanding π config) := by
  intro before input after t hsplit hrun
  have hrecorded : Recorded t.server t.wire := Recorded.keepsBooks.of_run recorded_start hrun
  exact interruptsOutstanding hrecorded (historyAccepted_of_run hrun)
    (hends before input after t hsplit hrun)

/-- A client connects and sends a message with one request, which is sent on. -/
def oneRequest (message : Bytes) : List (ServerInput HttpRequestInfo) :=
  [.message [1] [] .accepted, .message [1] message .accepted,
    .next 100 .accepted .accepted ⟨.accepted, .accepted⟩,
    .next 100 .accepted .accepted ⟨.accepted, .accepted⟩]

/-- The client hangs up while its request is being worked on. -/
theorem interruptsOutstanding_hangUp :
    StepsMeet (step (httpProtocol .percent) checked) .start
      (oneRequest (ascii "GET / HTTP/1.1\r\n\r\n") ++ [.message [1] [] .accepted])
      (InterruptsOutstanding (httpProtocol .percent) checked) :=
  interruptsOutstanding_of_run (by decide)

/-- The client hangs up after its request was answered. -/
def answeredThenHangUp : List (ServerInput HttpRequestInfo) :=
  oneRequest (ascii "GET / HTTP/1.1\r\n\r\n") ++
    [.result
        { id := 0
          timeStamp := 100
          version := 1
          connectionKeepAlive := false
          connectionClose := false }
        (ascii "HTTP/1.1 200 OK\r\n\r\n") ⟨.accepted, .accepted⟩,
      .message [1] [] .accepted]

/-- A request of a kept connection that is answered before its client goes away is interrupted with the others. -/
theorem interrupts_answered :
    ¬ ∀ inputs, StepsMeet (step (httpProtocol .percent) checked) .start inputs
      (InterruptsOutstanding (httpProtocol .percent) checked) := by
  intro houtstanding
  have hanswered : ¬ StepsMeet (step (httpProtocol .percent) checked) .start answeredThenHangUp
      (InterruptsOutstanding (httpProtocol .percent) checked) := by decide
  exact hanswered (houtstanding answeredThenHangUp)

end Machine

end PrimeServer
