import PrimeServer.Server.Responses

/-!
# The conversation with a client

The messages of one client, in their order, decide what the parser of its session is given, whatever else the
server does between them. The requests that are read from them are those that the server accepts from the
client, less the ones that it gives up, and if the parser has nothing against the messages, the client is sent
no rejection.

## Main results

* `Machine.Talks.step`: how the conversation with a client goes on;
* `Machine.next_of_accepted`: what is accepted is the next of the requests that wait;
* `nodup_responsesTo`: the responses that a client is sent are for different requests.
-/

namespace PrimeServer

open Transition

variable {σ ρ ι : Type} {π : Protocol σ ρ ι} {config : ServerConfig ρ}

/-! ### What is heard -/

/-- The connection of a client, with what the parser has of its next request. -/
inductive Connection (σ : Type) where
  /-- The client has said nothing yet. -/
  | unopened
  /-- The client has connected, and the parser has read what it has said since. -/
  | streaming (request : σ)
  /-- The client has disconnected. -/
  | hungUp
  deriving DecidableEq

/-- The parser takes a message of a client. It is to find nothing wrong with it. -/
def Protocol.hear (π : Protocol σ ρ ι) (config : ServerConfig ρ) (heard : Connection σ × List ρ) (body : Bytes) :
    Option (Connection σ × List ρ) :=
  match heard with
  -- an empty message opens the connection, and another one ends it
  | (.unopened, parsed) => if body = [] then some (.streaming π.fresh, parsed) else none
  | (.streaming request, parsed) =>
    if body = [] then some (.hungUp, parsed)
    else
      match π.fromStream request config.maxRequestSize body with
      | .requests more request => some (.streaming request, parsed ++ more)
      -- the parser has something against the message
      | .rejected _ _ | .threw _ => none
  | (.hungUp, _) => none

/-- All that can be heard. -/
inductive Protocol.Hears (π : Protocol σ ρ ι) (config : ServerConfig ρ) :
    Connection σ × List ρ → Bytes → Connection σ × List ρ → Prop where
  /-- The first empty message. -/
  | connects {parsed : List ρ} : Hears π config (.unopened, parsed) [] (.streaming π.fresh, parsed)
  /-- The second empty message. -/
  | hangsUp {request : σ} {parsed : List ρ} : Hears π config (.streaming request, parsed) [] (.hungUp, parsed)
  /-- A message that the parser takes. -/
  | sends {request request' : σ} {parsed more : List ρ} {body : Bytes} (hbody : body ≠ [])
      (hparsed : π.fromStream request config.maxRequestSize body = .requests more request') :
      Hears π config (.streaming request, parsed) body (.streaming request', parsed ++ more)

/-- What is heard of a body, one case at a time. -/
theorem Protocol.hears_of_hear {heard heard' : Connection σ × List ρ} {body : Bytes}
    (h : π.hear config heard body = some heard') : π.Hears config heard body heard' := by
  obtain ⟨connection, parsed⟩ := heard
  cases connection with
  | unopened =>
    simp only [hear] at h
    split_ifs at h with hbody
    obtain rfl := Option.some.inj h
    subst hbody
    exact .connects
  | hungUp => cases h
  | streaming request =>
    simp only [hear] at h
    split_ifs at h with hbody
    · obtain rfl := Option.some.inj h
      subst hbody
      exact .hangsUp
    · split at h
      case h_1 more request' hparsed =>
        obtain rfl := Option.some.inj h
        exact .sends hbody hparsed
      case h_2 | h_3 => cases h

/-- What is read stays. -/
theorem Protocol.Hears.prefix_parsed {heard heard' : Connection σ × List ρ} {body : Bytes}
    (h : π.Hears config heard body heard') : heard.2 <+: heard'.2 := by
  cases h with
  | connects | hangsUp => exact List.prefix_rfl
  | sends => exact List.prefix_append _ _

/-! ### The session of a client -/

/-- A session of a client that is there has been there, with the same parser. -/
def Server.KeepsParser (s t : Server σ ι) (client : Frame) : Prop :=
  ∀ session ∈ t.sessions.find client, ∃ before ∈ s.sessions.find client, before.request = session.request

namespace Server.KeepsParser

variable {s t u : Server σ ι} {client owner : Frame} {session : Session σ}

/-- The parsers are part of the sessions. -/
theorem of_sessions (h : t.sessions = s.sessions) (client : Frame) : s.KeepsParser t client :=
  fun session hsession => ⟨session, h ▸ hsession, rfl⟩

theorem trans (h : s.KeepsParser t client) (h' : t.KeepsParser u client) : s.KeepsParser u client := by
  intro session hsession
  obtain ⟨between, hbetween, hsame⟩ := h' session hsession
  obtain ⟨before, hbefore, hrequest⟩ := h between hbetween
  exact ⟨before, hbefore, hrequest.trans hsame⟩

/-- Removing a session changes no other session's parser. -/
theorem destroy (s : Server σ ι) (owner client : Frame) : s.KeepsParser (s.destroy owner) client := by
  intro session hsession
  rw [destroy_sessions, UnorderedMap.find_erase] at hsession
  split_ifs at hsession
  · cases hsession
  · exact ⟨session, hsession, rfl⟩

/-- The session of another client is changed. -/
theorem assign (hne : client ≠ owner) (h : t.sessions = s.sessions.assign owner session) :
    s.KeepsParser t client := by
  intro other hother
  rw [h, UnorderedMap.find_assign_of_ne _ _ hne] at hother
  exact ⟨other, hother, rfl⟩

/-- A request that is remembered is added to the session and leaves its parser. -/
theorem remember (hsession : s.sessions.find owner = some session) (info : ι) (client : Frame) :
    s.KeepsParser (s.remember π owner session info) client := by
  by_cases hclient : client = owner
  · subst hclient
    intro other hother
    rw [remember_sessions, UnorderedMap.find_assign_self] at hother
    obtain rfl := Option.some.inj hother
    exact ⟨session, hsession, rfl⟩
  · exact assign hclient (remember_sessions s owner session info)

/-- A response leaves the parser of each session that it does not remove. -/
theorem dequeue {info : ι} {response : Bytes} {sends : DequeueSends} {outcome : Dequeued σ ι}
    {actions : List Action} (hspec : s.Dequeues π info response sends (outcome, actions)) (client : Frame) :
    s.KeepsParser (outcome.server s) client := by
  cases hspec with
  | unknown | responseThrew | kept | closeThrew | notClosed | undefined => exact of_sessions rfl client
  | @closed owner => exact (destroy s owner client).trans (of_sessions rfl client)

end Server.KeepsParser

/-- The session agrees with what was heard. A session that was closed is not there any more. -/
def Connection.Matches : Connection σ → Option (Session σ) → Prop
  | .unopened, session => session = none
  | .streaming request, session => ∀ s ∈ session, s.request = request
  | .hungUp, _ => True

/-- The connection follows the parser as long as the session is there. -/
theorem Connection.Matches.of_keepsParser {connection : Connection σ} {s t : Server σ ι} {client : Frame}
    (h : connection.Matches (s.sessions.find client)) (hkeeps : s.KeepsParser t client) :
    connection.Matches (t.sessions.find client) := by
  cases connection with
  | hungUp => trivial
  | streaming request =>
    intro session hsession
    obtain ⟨before, hbefore, hsame⟩ := hkeeps session hsession
    exact hsame.symm.trans (h before hbefore)
  | unopened =>
    cases hsession : t.sessions.find client with
    | none => rfl
    | some session =>
      obtain ⟨before, hbefore, -⟩ := hkeeps session hsession
      cases h.symm.trans hbefore

/-! ### Steps that are not for the client -/

/-- The requests of a client that wait for their rounds of `enqueue`. -/
def ServerControl.waiting (client : Frame) : ServerControl ρ → List ρ
  | .enqueueing owner rest => if owner = client then rest else []
  | .serving | .rejecting _ | .expiring _ | .escaped | .undefined _ => []

/-- The message that a client has sent. -/
def ServerInput.messageOf (client : Frame) : ServerInput ι → Option Bytes
  | .message owner body _ => if owner = client then some body else none
  | .result _ _ _ | .next _ _ _ _ | .disconnect _ | .timeouts _ | .expire _ => none

namespace Machine

variable {m t : Machine σ ρ ι} {client owner : Frame}

/-- A client is left alone: the parser of its session stays, it is sent no rejection, and no more than the
given requests wait. -/
structure LeavesAlone (m t : Machine σ ρ ι) (client : Frame) (waiting : List ρ) : Prop where
  /-- The client's parser stays as it is. -/
  parser : m.server.KeepsParser t.server client
  /-- What waits for the client afterwards has waited before. -/
  waiting : t.control.waiting client <:+ waiting
  /-- The client is sent no rejection. -/
  unrejected : ∀ text result, .rejection client text result ∈ t.wire → .rejection client text result ∈ m.wire

/-- No rejection is among the actions of `dequeue`. -/
theorem rejection_notMem_of_dequeues {s : Server σ ι} {info : ι} {response : Bytes} {sends : DequeueSends}
    {outcome : Dequeued σ ι} {actions : List Action} (h : s.Dequeues π info response sends (outcome, actions))
    (text : Bytes) (result : SendResult) : .rejection client text result ∉ actions := by
  cases h <;> simp

/-- `dequeue` accepts no request. -/
theorem accepted_notMem_of_dequeues {s : Server σ ι} {info : ι} {response : Bytes} {sends : DequeueSends}
    {outcome : Dequeued σ ι} {actions : List Action} (h : s.Dequeues π info response sends (outcome, actions))
    (key : UInt64) : .accepted key client ∉ actions := by
  cases h <;> simp

/-- A request of the client that was forwarded leaves those after it. -/
theorem leavesAlone_forward {parsed : ρ} {rest : List ρ} {info : ι} (h : m.Forwards π owner parsed rest info t)
    (client : Frame) : m.LeavesAlone t client ((ServerControl.enqueueing owner rest).waiting client) := by
  cases h with
  -- the loop is left, and nothing waits any more
  | threw | again => exact ⟨.of_sessions rfl client, List.nil_suffix, fun _ _ h => h⟩
  | undefined => exact ⟨.of_sessions rfl client, List.nil_suffix, by simp⟩
  | sent _ hsession => exact ⟨.remember hsession info client, List.suffix_rfl, by simp⟩

/-- A request of the client that was answered leaves those after it. -/
theorem leavesAlone_answer {rest : List ρ} {info : ι} {sends : DequeueSends}
    (h : m.Answers π config owner rest info sends t) (client : Frame) :
    m.LeavesAlone t client ((ServerControl.enqueueing owner rest).waiting client) := by
  cases h with
  | destroyed => exact ⟨.of_sessions rfl client, List.nil_suffix, fun _ _ h => h⟩
  | returned hsession hd =>
    have hdequeues := Server.dequeues_of_eq hd
    exact ⟨(Server.KeepsParser.remember hsession info client).trans (.dequeue hdequeues client),
      List.suffix_rfl, by simp [rejection_notMem_of_dequeues hdequeues]⟩
  | threw hsession hd =>
    have hdequeues := Server.dequeues_of_eq hd
    exact ⟨(Server.KeepsParser.remember hsession info client).trans (.dequeue hdequeues client),
      List.nil_suffix, by simp [rejection_notMem_of_dequeues hdequeues]⟩
  | undefined hsession hd =>
    exact ⟨.remember hsession info client, List.nil_suffix,
      by simp [rejection_notMem_of_dequeues (Server.dequeues_of_eq hd)]⟩

/-- In a round of `enqueue`, the first of the requests waits no longer. -/
theorem leavesAlone_enqueue (π : Protocol σ ρ ι) (config : ServerConfig ρ) (m : Machine σ ρ ι) (owner : Frame)
    (parsed : ρ) (rest : List ρ) (now : ℕ) (info text : SendResult) (sends : DequeueSends) (client : Frame) :
    m.LeavesAlone (m.enqueue π config owner parsed rest now info text sends) client
      ((ServerControl.enqueueing owner rest).waiting client) := by
  have hspec := m.enqueue_spec π config owner parsed rest now info text sends
  generalize m.enqueue π config owner parsed rest now info text sends = t at hspec ⊢
  have hcount : m.server.KeepsParser m.server.count client := .of_sessions rfl client
  cases hspec with
  | threw => exact ⟨.of_sessions rfl client, List.nil_suffix, fun _ _ h => h⟩
  | forwards _ hforwards =>
    obtain ⟨hparser, hwaiting, hunrejected⟩ := leavesAlone_forward hforwards client
    exact ⟨hcount.trans hparser, hwaiting, hunrejected⟩
  | answers _ hanswers =>
    obtain ⟨hparser, hwaiting, hunrejected⟩ := leavesAlone_answer hanswers client
    exact ⟨hcount.trans hparser, hwaiting, hunrejected⟩

/-- A message of another client. -/
theorem leavesAlone_handleRequest (π : Protocol σ ρ ι) (config : ServerConfig ρ) (m : Machine σ ρ ι)
    (hne : client ≠ owner) (body : Bytes) (rejection : SendResult) :
    m.LeavesAlone (m.handleRequest π config owner body rejection) client (m.control.waiting client) := by
  have hspec := m.handleRequest_spec π config owner body rejection
  generalize m.handleRequest π config owner body rejection = t at hspec ⊢
  cases hspec with
  | ignored => exact ⟨.of_sessions rfl client, List.suffix_rfl, fun _ _ h => h⟩
  | opened hsession =>
    exact ⟨.assign hne (UnorderedMap.emplace_of_find_eq_none hsession _), List.suffix_rfl, by simp⟩
  | @hungUp session =>
    have hforgotten : m.server.KeepsParser (session.enqueued.foldl Server.forget m.server) client :=
      .of_sessions (Server.sessions_foldl_forget _ _) client
    exact ⟨hforgotten.trans (.destroy _ owner client), List.suffix_rfl, by simp⟩
  | parsed =>
    -- the requests that wait now are the other client's
    refine ⟨.assign hne rfl, ?_, fun _ _ h => h⟩
    simp [ServerControl.waiting, Ne.symm hne]
  | rejectionThrew | rejected => exact ⟨.assign hne rfl, List.nil_suffix, by simp [hne]⟩
  | threw => exact ⟨.assign hne rfl, List.suffix_rfl, fun _ _ h => h⟩

/-- A timeout takes no request from those that wait. -/
theorem leavesAlone_expire (π : Protocol σ ρ ι) (m : Machine σ ρ ι) (dropDead : ℤ) (sends : DequeueSends)
    (client : Frame) :
    m.LeavesAlone (m.expire π dropDead sends) client (m.control.waiting client) := by
  have hspec := m.expire_spec π dropDead sends
  generalize m.expire π dropDead sends = t at hspec ⊢
  cases hspec with
  | finished | young => exact ⟨.of_sessions rfl client, List.nil_suffix, fun _ _ h => h⟩
  | returned _ _ hd =>
    have hdequeues := Server.dequeues_of_eq hd
    exact ⟨(Server.KeepsParser.dequeue hdequeues client).trans (.of_sessions rfl client), List.suffix_rfl,
      by simp [rejection_notMem_of_dequeues hdequeues]⟩
  | threw _ _ hd =>
    have hdequeues := Server.dequeues_of_eq hd
    exact ⟨.dequeue hdequeues client, List.nil_suffix, by simp [rejection_notMem_of_dequeues hdequeues]⟩
  | undefined _ _ hd =>
    exact ⟨.of_sessions rfl client, List.nil_suffix,
      by simp [rejection_notMem_of_dequeues (Server.dequeues_of_eq hd)]⟩

/-- A result takes no request from those that wait. -/
theorem leavesAlone_result (π : Protocol σ ρ ι) (m : Machine σ ρ ι) (info : ι) (response : Bytes)
    (sends : DequeueSends) (client : Frame) :
    m.LeavesAlone (m.result π info response sends) client (m.control.waiting client) := by
  have hspec := m.result_spec π info response sends
  generalize m.result π info response sends = t at hspec ⊢
  cases hspec with
  | returned hd | threw hd =>
    have hdequeues := Server.dequeues_of_eq hd
    exact ⟨.dequeue hdequeues client, List.suffix_rfl, by simp [rejection_notMem_of_dequeues hdequeues]⟩
  | undefined hd =>
    exact ⟨.of_sessions rfl client, List.nil_suffix,
      by simp [rejection_notMem_of_dequeues (Server.dequeues_of_eq hd)]⟩

/-- A step that takes no message of the client leaves it alone. -/
theorem leavesAlone_of_step {input : ServerInput ι} (hstep : m.step π config input = some t)
    (hother : input.messageOf client = none) : m.LeavesAlone t client (m.control.waiting client) := by
  cases stepped_of_step hstep with
  | result info response sends hcontrol => exact leavesAlone_result π m info response sends client
  | message owner body rejection hcontrol =>
    have hne : client ≠ owner := by
      rintro rfl
      simp [ServerInput.messageOf] at hother
    exact leavesAlone_handleRequest π config m hne body rejection
  | @enqueue owner parsed rest now info text sends hcontrol =>
    obtain ⟨hparser, hwaiting, hunrejected⟩ :=
      leavesAlone_enqueue π config m owner parsed rest now info text sends client
    -- the first of the requests has been taken
    refine ⟨hparser, hwaiting.trans ?_, hunrejected⟩
    simp only [hcontrol, ServerControl.waiting]
    split_ifs
    · exact List.suffix_cons _ _
    · exact List.nil_suffix
  | enqueued | timeouts => exact ⟨.of_sessions rfl client, List.nil_suffix, fun _ _ h => h⟩
  | @disconnect owner close =>
    have hspec := m.disconnect_spec owner close
    generalize m.disconnect owner close = t at hspec ⊢
    cases hspec with
    | undefined => exact ⟨.of_sessions rfl client, List.nil_suffix, fun _ _ h => h⟩
    | closed => exact ⟨.destroy _ owner client, List.nil_suffix, by simp⟩
    | kept => exact ⟨.of_sessions rfl client, List.nil_suffix, by simp⟩
  | expire sends => exact leavesAlone_expire π m _ sends client

/-- A key is accepted by `forward` with both frames sent. -/
theorem of_accepted_forward {parsed : ρ} {rest : List ρ} {info : ι} {infoSent textSent : SendResult} {key : UInt64}
    (haccepted : .accepted key client ∈ (m.forward π owner parsed rest info infoSent textSent).wire) :
    .accepted key client ∈ m.wire ∨ owner = client ∧ key = π.key info ∧
      infoSent = .accepted ∧ textSent = .accepted ∧ π.toString parsed ≠ none := by
  unfold forward at haccepted
  cases infoSent with
  | threw | again => exact Or.inl haccepted
  | accepted =>
    cases htext : π.toString parsed with
    | none => exact Or.inl (by simpa [htext] using haccepted)
    | some text =>
      cases textSent with
      | threw | again => exact Or.inl (by simpa [htext] using haccepted)
      | accepted =>
        -- the key is accepted when the request is remembered, for which the session is needed
        cases hsession : m.server.sessions.find owner with
        | none => exact Or.inl (by simpa [htext, hsession] using haccepted)
        | some session =>
          simp only [htext, hsession, List.mem_append, List.mem_singleton, reduceCtorEq, or_false,
            Action.accepted.injEq] at haccepted
          exact haccepted.imp_right fun h => ⟨h.2.symm, h.1, rfl, rfl, Option.some_ne_none _⟩

/-- A key is accepted by a health check for the request it answers. -/
theorem of_accepted_answer {rest : List ρ} {info : ι} {sends : DequeueSends} {key : UInt64}
    (h : m.Answers π config owner rest info sends t) (haccepted : .accepted key client ∈ t.wire) :
    .accepted key client ∈ m.wire ∨ owner = client ∧ key = π.key info := by
  cases h with
  | destroyed => exact Or.inl haccepted
  | returned _ hd | threw _ hd | undefined _ hd =>
    simp only [List.mem_append, List.mem_singleton, Action.accepted.injEq,
      accepted_notMem_of_dequeues (Server.dequeues_of_eq hd), or_false] at haccepted
    exact haccepted.imp_right fun h => ⟨h.2.symm, h.1⟩

/-- A key is accepted in a round of `enqueue`, for the first of the requests that wait. It is sent on in the
same step, or it is a health check. -/
theorem next_of_accepted {input : ServerInput ι} (hstep : m.step π config input = some t) {key : UInt64}
    (haccepted : .accepted key client ∈ t.wire) :
    .accepted key client ∈ m.wire ∨ ∃ parsed rest now info text sends,
      m.control = .enqueueing client (parsed :: rest) ∧ input = .next now info text sends ∧
      key = π.key (π.toInfo parsed m.server.requestId now) ∧
        (config.healthCheckMatcher parsed = some true ∨ config.healthCheckMatcher parsed = some false ∧
          info = .accepted ∧ text = .accepted ∧ π.toString parsed ≠ none) := by
  cases stepped_of_step hstep with
  | result info response sends =>
    have hspec := m.result_spec π info response sends
    generalize m.result π info response sends = t at hspec haccepted
    left
    cases hspec with
    | returned hd | threw hd | undefined hd =>
      -- `dequeue` puts no request on the books
      simpa [accepted_notMem_of_dequeues (Server.dequeues_of_eq hd)] using haccepted
  | message owner body rejection =>
    have hspec := m.handleRequest_spec π config owner body rejection
    generalize m.handleRequest π config owner body rejection = t at hspec haccepted
    left
    cases hspec with
    | ignored | parsed | threw => exact haccepted
    | opened | hungUp | rejectionThrew | rejected => simpa using haccepted
  | @enqueue owner parsed rest now info text sends hcontrol =>
    simp only [enqueue] at haccepted
    cases hmatch : config.healthCheckMatcher parsed with
    | none =>
      left
      simpa [hmatch] using haccepted
    | some healthCheck =>
      cases healthCheck with
      | true =>
        rw [hmatch] at haccepted
        -- a health check is put on the books before it is answered
        refine (of_accepted_answer (answer_spec π config _ owner rest _ sends) haccepted).imp_right ?_
        rintro ⟨rfl, hkey⟩
        exact ⟨parsed, rest, now, info, text, sends, hcontrol, rfl, hkey, Or.inl hmatch⟩
      | false =>
        rw [hmatch] at haccepted
        -- a request is put on the books when both frames were sent
        refine (of_accepted_forward haccepted).imp_right ?_
        rintro ⟨rfl, hkey, hsent⟩
        exact ⟨parsed, rest, now, info, text, sends, hcontrol, rfl, hkey, Or.inr ⟨hmatch, hsent⟩⟩
  | enqueued | timeouts => exact Or.inl haccepted
  | @disconnect owner close =>
    have hspec := m.disconnect_spec owner close
    generalize m.disconnect owner close = t at hspec haccepted
    left
    cases hspec with
    | undefined => exact haccepted
    | closed | kept => simpa using haccepted
  | @expire dropDead sends =>
    have hspec := m.expire_spec π dropDead sends
    generalize m.expire π dropDead sends = t at hspec haccepted
    left
    cases hspec with
    | finished | young => exact haccepted
    | returned _ _ hd | threw _ _ hd | undefined _ _ hd =>
      simpa [accepted_notMem_of_dequeues (Server.dequeues_of_eq hd)] using haccepted

/-! ### The conversation -/

/-- How far the conversation with a client has come: what was heard of it, and which of the requests were
taken. -/
structure Talks (heard : Connection σ × List ρ) (taken : List ρ) (client : Frame) (m : Machine σ ρ ι) :
    Prop where
  /-- The session has the parser of the connection, while there is one. -/
  parser : heard.1.Matches (m.server.sessions.find client)
  /-- What was taken and what waits are requests that were parsed, in their order. -/
  sublist : (taken ++ m.control.waiting client).Sublist heard.2
  /-- The client was sent no rejection. -/
  unrejected : ∀ text result, .rejection client text result ∉ m.wire

variable {heard heard' : Connection σ × List ρ} {taken : List ρ}

/-- Before the first message nothing was heard and nothing is known. -/
theorem talks_start (client : Frame) : (start : Machine σ ρ ι).Talks (.unopened, []) [] client where
  parser := UnorderedMap.find_empty client
  sublist := .slnil
  unrejected _ _ hrejection := by simp [start] at hrejection

/-- A step that leaves a client alone keeps what it said and what was taken of it. -/
theorem Talks.leftAlone {waiting : List ρ} (h : m.Talks heard taken client)
    (hleaves : m.LeavesAlone t client waiting) (more : List ρ)
    (hwaiting : (more ++ waiting).Sublist (m.control.waiting client)) :
    t.Talks heard (taken ++ more) client where
  parser := h.parser.of_keepsParser hleaves.parser
  sublist := by
    rw [List.append_assoc]
    refine List.Sublist.trans ?_ h.sublist
    refine List.Sublist.append_left (List.Sublist.trans ?_ hwaiting) _
    exact hleaves.waiting.sublist.append_left _
  unrejected text result hrejection := h.unrejected text result (hleaves.unrejected text result hrejection)

/-- A step that is not for the client, or in which a request of it is given up. -/
theorem Talks.step {input : ServerInput ι} (h : m.Talks heard taken client)
    (hother : input.messageOf client = none) (hstep : m.step π config input = some t) :
    t.Talks heard taken client := by
  simpa using h.leftAlone (leavesAlone_of_step hstep hother) [] (List.Sublist.refl _)

/-- A round of `enqueue` that takes the next request of the client. -/
theorem Talks.take {parsed : ρ} {rest : List ρ} {now : ℕ} {info text : SendResult} {sends : DequeueSends}
    (h : m.Talks heard taken client) (hcontrol : m.control = .enqueueing client (parsed :: rest))
    (hstep : m.step π config (.next now info text sends) = some t) :
    t.Talks heard (taken ++ [parsed]) client := by
  simp only [Machine.step, hcontrol] at hstep
  obtain rfl := Option.some.inj hstep
  refine h.leftAlone (leavesAlone_enqueue π config m client parsed rest now info text sends client) [parsed] ?_
  simp [hcontrol, ServerControl.waiting]

/-- A message of the client with which the parser finds nothing wrong. -/
theorem Talks.message {body : Bytes} {rejection : SendResult} (h : m.Talks heard taken client)
    (hhears : π.Hears config heard body heard')
    (hstep : m.step π config (.message client body rejection) = some t) : t.Talks heard' taken client := by
  cases stepped_of_step hstep with
  | message _ _ _ hcontrol =>
    have hspec := m.handleRequest_spec π config client body rejection
    generalize m.handleRequest π config client body rejection = t at hspec ⊢
    obtain ⟨hparser, hsublist, hunrejected⟩ := h
    -- no request of the client waits while a message is taken
    rw [hcontrol, ServerControl.waiting, List.append_nil] at hsublist
    cases hhears with
    | connects =>
      cases hspec with
      | ignored _ hbody => exact absurd rfl hbody
      | opened hsession =>
        refine ⟨fun session hfound => ?_, by simpa [hcontrol, ServerControl.waiting] using hsublist,
          by simpa using hunrejected⟩
        rw [UnorderedMap.emplace_of_find_eq_none hsession, UnorderedMap.find_assign_self] at hfound
        obtain rfl := Option.some.inj hfound
        rfl
      | hungUp hsession | parsed hsession | rejectionThrew hsession | rejected hsession | threw hsession =>
        cases hparser.symm.trans hsession
    | hangsUp =>
      cases hspec with
      | opened | hungUp =>
        exact ⟨trivial, by simpa [hcontrol, ServerControl.waiting] using hsublist, by simpa using hunrejected⟩
      | ignored _ hbody | parsed _ hbody | rejectionThrew _ hbody | rejected _ hbody | threw _ hbody =>
        exact absurd rfl hbody
    | @sends request request' parsed more _ hbody hparsed =>
      cases hspec with
      | opened _ hnil | hungUp _ hnil => exact absurd hnil hbody
      | ignored hsession =>
        -- the session was closed before, and what the parser made of the message is not taken
        refine ⟨fun session hfound => ?_, ?_, hunrejected⟩
        · cases hsession.symm.trans hfound
        · rw [hcontrol, ServerControl.waiting, List.append_nil]
          exact hsublist.trans (List.sublist_append_left _ _)
      | @parsed session _ _ hsession _ hread =>
        -- the session has the parser that was heard, so that it reads the same
        rw [hparser session hsession, hparsed] at hread
        obtain ⟨rfl, rfl⟩ := Parsed.requests.inj hread
        refine ⟨fun other hfound => ?_, ?_, hunrejected⟩
        · rw [UnorderedMap.find_assign_self] at hfound
          obtain rfl := Option.some.inj hfound
          rfl
        · simp only [ServerControl.waiting, if_true]
          exact hsublist.append_right more
      | @rejectionThrew session _ _ hsession _ hread | @rejected session _ _ hsession _ hread
      | @threw session _ hsession _ hread =>
        rw [hparser session hsession, hparsed] at hread
        cases hread

end Machine

/-! ### What a client is sent -/

/-- The text that a client is sent. -/
def Action.textTo (client : Frame) : Action → Option Bytes
  | .response _ owner text .accepted | .rejection owner text .accepted => if owner = client then some text else none
  | .response _ _ _ _ | .rejection _ _ _ | .opened _ | .hungUp _ | .accepted _ _ | .closed _ _ | .interrupt _
  | .forwarded _ _ => none

/-- The response that a client is sent, with the key of its request. -/
def Action.responseTo (client : Frame) : Action → Option (UInt64 × Bytes)
  | .response key owner text .accepted => if owner = client then some (key, text) else none
  | .response _ _ _ _ | .rejection _ _ _ | .opened _ | .hungUp _ | .accepted _ _ | .closed _ _ | .interrupt _
  | .forwarded _ _ => none

/-- A response a client has been given is one that was accepted by its socket. -/
theorem responseTo_eq_some {action : Action} {client : Frame} {key : UInt64} {text : Bytes} :
    action.responseTo client = some (key, text) ↔ action = .response key client text .accepted := by
  cases action with
  | response key' owner text' result =>
    cases result with
    | accepted =>
      by_cases hclient : owner = client
      · simp [Action.responseTo, hclient]
      · simp [Action.responseTo, hclient]
    | again | threw => simp [Action.responseTo]
  | rejection | opened | hungUp | accepted | closed | interrupt | forwarded => simp [Action.responseTo]

/-- The responses that a client is sent are for different requests. -/
theorem nodup_responsesTo {wire : List Action} (h : Deliveries wire) (client : Frame) :
    ((wire.filterMap (Action.responseTo client)).map Prod.fst).Nodup := by
  induction wire using List.reverseRecOn with
  | nil => exact List.nodup_nil
  | append_singleton wire action ih =>
    have hbefore := ih fun before action' hbegins => h before action' (hbegins.trans (List.prefix_append _ _))
    rw [List.filterMap_append, List.map_append]
    cases hresponse : action.responseTo client with
    | none => simpa [hresponse] using hbefore
    | some response =>
      obtain ⟨key, text⟩ := response
      obtain rfl := responseTo_eq_some.mp hresponse
      -- there was no response for the key before
      have hdelivered : Delivered wire key client :=
        h wire (.response key client text .accepted) List.prefix_rfl
      rw [List.filterMap_cons_some hresponse, List.filterMap_nil, List.map_singleton]
      refine hbefore.append (List.nodup_singleton key) ?_
      intro key' hmem hkey
      obtain rfl := List.mem_singleton.mp hkey
      obtain ⟨⟨key'', text'⟩, hfound, rfl⟩ := List.mem_map.mp hmem
      obtain ⟨action, haction, hsome⟩ := List.mem_filterMap.mp hfound
      obtain rfl := responseTo_eq_some.mp hsome
      exact hdelivered.first client text' haction

/-- Without rejections, a client is sent its responses. -/
theorem textTo_eq {wire : List Action} {client : Frame}
    (h : ∀ text result, .rejection client text result ∉ wire) :
    wire.filterMap (Action.textTo client) = (wire.filterMap (Action.responseTo client)).map Prod.snd := by
  rw [List.map_filterMap]
  refine List.filterMap_congr fun action haction => ?_
  cases action with
  | response key owner text result =>
    cases result with
    | accepted =>
      simp only [Action.textTo, Action.responseTo]
      split_ifs <;> rfl
    | again | threw => rfl
  | rejection owner text result =>
    cases result with
    | accepted =>
      have hclient : owner ≠ client := by
        rintro rfl
        exact h text .accepted haction
      simp [Action.textTo, Action.responseTo, hclient]
    | again | threw => rfl
  | opened | hungUp | accepted | closed | interrupt | forwarded => rfl

end PrimeServer
