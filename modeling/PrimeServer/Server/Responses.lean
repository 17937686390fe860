import PrimeServer.Server.Delivery

/-!
# Where responses come from

All responses are sent by `dequeue`: for the result of a worker, for a health check, or for a request that
is too old. A request that is sent on is accepted in the same step, and where ids are not used again, a key
is accepted once.

## Main results

* `Machine.response_of_step`: a response that a step sends is that of its call of `dequeue`;
* `Machine.accepted_of_forwarded`: a request that was sent on is accepted for its client;
* `keepsBooks_acceptedOnce`: a key belongs to one client.
-/

namespace PrimeServer

open Transition

variable {σ ρ ι : Type} {π : Protocol σ ρ ι} {config : ServerConfig ρ}

/-- The only response that `dequeue` sends is the one it is called with. -/
theorem Server.Dequeues.of_response {s : Server σ ι} {info : ι} {response : Bytes} {sends : DequeueSends}
    {outcome : Dequeued σ ι} {actions : List Action}
    (h : s.Dequeues π info response sends (outcome, actions)) {key : UInt64} {client : Frame}
    {text : Bytes} {result : SendResult} (hresponse : .response key client text result ∈ actions) :
    π.key info = key ∧ response = text := by
  cases h with
  | unknown => simp at hresponse
  | responseThrew | kept | closeThrew | notClosed | undefined | closed =>
    simp only [List.mem_cons, List.mem_append, List.mem_map, List.not_mem_nil, Action.response.injEq,
      reduceCtorEq, and_false, exists_false, or_false] at hresponse
    exact ⟨hresponse.1.symm, hresponse.2.2.1.symm⟩

namespace Machine

variable {m t : Machine σ ρ ι}

/-- A response that is sent in a step is that of the call of `dequeue` that the step makes. -/
theorem response_of_step {input : ServerInput ι} (hstep : m.step π config input = some t) {key : UInt64}
    {client : Frame} {text : Bytes} {result : SendResult}
    (hresponse : .response key client text result ∈ t.wire) :
    .response key client text result ∈ m.wire ∨
      ∃ call, m.call π config input = some call ∧ π.key call.info = key ∧ call.response = text := by
  cases stepped_of_step hstep with
  | result info response sends =>
    have hspec := m.result_spec π info response sends
    generalize m.result π info response sends = t at hspec hresponse
    cases hspec with
    | returned hd | threw hd | undefined hd =>
      refine (List.mem_append.mp hresponse).imp_right fun hnew => ⟨_, rfl, ?_⟩
      -- what `dequeue` has added to the wire is a response of its call
      exact (Server.dequeues_of_eq hd).of_response hnew
  | message client' body rejection =>
    have hspec := m.handleRequest_spec π config client' body rejection
    generalize m.handleRequest π config client' body rejection = t at hspec hresponse
    left
    cases hspec with
    | ignored | parsed | threw => exact hresponse
    | opened | hungUp | rejectionThrew | rejected => simpa using hresponse
  | @enqueue client' parsed rest now infoSent textSent sends hcontrol =>
    have hspec := m.enqueue_spec π config client' parsed rest now infoSent textSent sends
    generalize m.enqueue π config client' parsed rest now infoSent textSent sends = t at hspec hresponse
    cases hspec with
    | threw => exact Or.inl hresponse
    | forwards _ hforwards =>
      left
      cases hforwards with
      | threw | again => exact hresponse
      | undefined | sent => simpa using hresponse
    | answers hmatch hanswers =>
      cases hanswers with
      | destroyed => exact Or.inl hresponse
      | returned hsession hd | threw hsession hd | undefined hsession hd =>
        rcases List.mem_append.mp hresponse with hold | hnew
        · exact Or.inl (by simpa using hold)
        · refine Or.inr ⟨_, call_next hcontrol hmatch hsession now infoSent textSent sends, ?_⟩
          exact (Server.dequeues_of_eq hd).of_response hnew
  | enqueued | timeouts => exact Or.inl hresponse
  | @disconnect client' close hcontrol =>
    have hspec := m.disconnect_spec client' close
    generalize m.disconnect client' close = t at hspec hresponse
    left
    cases hspec with
    | undefined => exact hresponse
    | closed | kept => simpa using hresponse
  | @expire dropDead sends hcontrol =>
    have hspec := m.expire_spec π dropDead sends
    generalize m.expire π dropDead sends = t at hspec hresponse
    cases hspec with
    | finished | young => exact Or.inl hresponse
    | returned hhistory hold hd | threw hhistory hold hd | undefined hhistory hold hd =>
      rcases List.mem_append.mp hresponse with hbefore | hnew
      · exact Or.inl (by simpa using hbefore)
      · refine Or.inr ⟨_, call_expire hcontrol hhistory hold sends, ?_⟩
        exact (Server.dequeues_of_eq hd).of_response hnew

/-- A request that is sent on is accepted for its client, whose session is there. -/
theorem accepted_of_forwarded (hholds : m.HoldsSession) {client : Frame} {parsed : ρ} {rest : List ρ}
    {now : ℕ} {sends : DequeueSends} (hcontrol : m.control = .enqueueing client (parsed :: rest))
    (hmatch : config.healthCheckMatcher parsed = some false) (htext : π.toString parsed ≠ none)
    (hstep : m.step π config (.next now .accepted .accepted sends) = some t) :
    .accepted (π.key (π.toInfo parsed m.server.requestId now)) client ∈ t.wire := by
  obtain ⟨text, htext⟩ := Option.ne_none_iff_exists'.mp htext
  have hsession : m.server.sessions.find client ≠ none := by simpa [HoldsSession, hcontrol] using hholds
  obtain ⟨session, hsession⟩ := Option.ne_none_iff_exists'.mp hsession
  simp only [step, hcontrol] at hstep
  obtain rfl := Option.some.inj hstep
  simp [enqueue, hmatch, forward, htext, hsession]

/-- A request that is answered as a health check is accepted in the same step. -/
theorem accepted_of_call_next {now : ℕ} {info text : SendResult} {sends : DequeueSends} {call : Call σ ι}
    (hcall : m.call π config (.next now info text sends) = some call)
    (hstep : m.step π config (.next now info text sends) = some t) :
    ∃ client, .accepted (π.key call.info) client ∈ t.wire := by
  cases calls_of_call hcall with
  | @answer client parsed rest session _ _ _ _ hcontrol hmatch hsession =>
    refine ⟨client, ?_⟩
    simp only [step, hcontrol] at hstep
    obtain rfl := Option.some.inj hstep
    have hspec := m.enqueue_spec π config client parsed rest now info text sends
    generalize m.enqueue π config client parsed rest now info text sends = t at hspec ⊢
    cases hspec with
    | threw hthrew => simp [hthrew] at hmatch
    | forwards hforward => simp [hforward] at hmatch
    | answers _ hanswers =>
      cases hanswers with
      | destroyed hnone => cases hsession.symm.trans hnone
      | returned | threw | undefined => simp

end Machine

/-- A key is accepted for one client only. -/
def AcceptedOnce (wire : List Action) : Prop :=
  ∀ key c c', .accepted key c ∈ wire → .accepted key c' ∈ wire → c = c'

/-- Actions that accept no key leave every key accepted once. -/
theorem AcceptedOnce.append {wire actions : List Action} (h : AcceptedOnce wire)
    (hactions : ∀ key client, .accepted key client ∉ actions) : AcceptedOnce (wire ++ actions) := by
  have hold : ∀ {key client}, .accepted key client ∈ wire ++ actions → .accepted key client ∈ wire :=
    fun hmem => (List.mem_append.mp hmem).resolve_right (hactions _ _)
  exact fun key c c' hc hc' => h key c c' (hold hc) (hold hc')

/-- Where no key is used again, each key is accepted for one client. -/
theorem keepsBooks_acceptedOnce :
    KeepsBooks π (Machine.deliveryConditions π) fun _ wire => AcceptedOnce wire where
  quiet hs _ hinert := hs.append fun key client hmem => hinert _ hmem
  opened hs _ _ := hs.append (by simp)
  hungUp hs _ _ := hs.append (by simp)
  remembered {s wire client session info actions} hs hkey _ hinert := by
    have hs' := hs.append fun key client hmem => hinert _ hmem
    -- the new key is not among those that were accepted before
    have hnew : ∀ c, .accepted (π.key info) c ∉ wire ++ actions := fun c hmem => by
      rw [mem_append_inert hinert (by simp [Action.Inert])] at hmem
      exact hkey _ hmem (by simp [Action.accepts])
    intro key c c' hc hc'
    rw [List.mem_append, List.mem_singleton, Action.accepted.injEq] at hc hc'
    rcases hc with hc | ⟨rfl, rfl⟩
    · rcases hc' with hc' | ⟨rfl, rfl⟩
      · exact hs' key c c' hc hc'
      · exact absurd hc (hnew c)
    · rcases hc' with hc' | ⟨-, rfl⟩
      · exact absurd hc' (hnew c')
      · rfl
  dequeued hs _ hspec := hs.append fun key client hmem => by
    cases hspec <;> simp at hmem
  disconnected hs _ _ := by
    rw [List.append_assoc]
    exact hs.append (by simp)

end PrimeServer
