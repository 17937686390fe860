import PrimeServer.Server.Interrupts
import PrimeServer.Server.Responses

/-!
# Which requests are revoked

The keys on the interrupt socket are not any keys: each is that of a request that was accepted for a client,
and after that the client has hung up, or the server has closed its session, or the request was too old
when `handle_timeouts` was called.

## Main results

* `Machine.revoked_of_step`: a step publishes keys of such requests only.
-/

namespace PrimeServer

open Transition

variable {σ ρ ι : Type} {π : Protocol σ ρ ι} {config : ServerConfig ρ}

/-- The client of a request was gone after the request was accepted. -/
def Ended (key : UInt64) (client : Frame) (wire : List Action) : Prop :=
  [.accepted key client, .hungUp client].Sublist wire ∨
    [.accepted key client, .closed client .accepted].Sublist wire

section Ended

variable {key : UInt64} {client : Frame} {wire actions : List Action}

/-- A request stays ended. -/
theorem Ended.append (h : Ended key client wire) (actions : List Action) :
    Ended key client (wire ++ actions) :=
  h.imp (fun h => h.trans (List.sublist_append_left _ _)) fun h =>
    h.trans (List.sublist_append_left _ _)

/-- A hang-up ends the requests of its client. -/
theorem ended_of_hungUp (haccepted : .accepted key client ∈ wire) (hhungUp : .hungUp client ∈ actions) :
    Ended key client (wire ++ actions) :=
  Or.inl ((List.singleton_sublist.mpr haccepted).append (List.singleton_sublist.mpr hhungUp))

/-- A close ends the requests of its client. -/
theorem ended_of_closed (haccepted : .accepted key client ∈ wire)
    (hclosed : .closed client .accepted ∈ actions) : Ended key client (wire ++ actions) :=
  Or.inr ((List.singleton_sublist.mpr haccepted).append (List.singleton_sublist.mpr hclosed))

end Ended

/-- The keys that `dequeue` publishes are those of the session that it closes. -/
theorem Server.Dequeues.ended {s : Server σ ι} {info : ι} {response : Bytes} {sends : DequeueSends}
    {outcome : Dequeued σ ι} {actions wire : List Action} (hs : Recorded s wire)
    (h : s.Dequeues π info response sends (outcome, actions)) {key : UInt64}
    (hkey : .interrupt key ∈ actions) : ∃ client, Ended key client (wire ++ actions) := by
  cases h with
  | unknown | responseThrew | kept | closeThrew | notClosed | undefined => simp at hkey
  | @closed client session hcloses hsession =>
    have hmem : key ∈ session.enqueued := by simpa using hkey
    have haccepted := hs.listed client key (by rwa [Server.listed_of_find hsession])
    exact ⟨client, ended_of_closed haccepted (by simp [hcloses.2.2.2])⟩

namespace Machine

variable {m t : Machine σ ρ ι} {key : UInt64}

/-- Of the messages of a client only the hang-up interrupts, and it ends what it interrupts. -/
theorem ended_of_handleRequest (hm : Recorded m.server m.wire) {client : Frame} {body : Bytes}
    {rejection : SendResult} (hhandles : m.Handles π config client body rejection t)
    (hkey : .interrupt key ∈ t.wire) : .interrupt key ∈ m.wire ∨ Ended key client t.wire := by
  cases hhandles with
  | ignored | parsed | threw => exact Or.inl hkey
  | opened | rejectionThrew | rejected => exact Or.inl (by simpa using hkey)
  | @hungUp session hsession =>
    refine (List.mem_append.mp hkey).imp_right fun hnew => ?_
    have hmem : key ∈ session.enqueued := by simpa using hnew
    have haccepted := hm.listed client key (by rwa [Server.listed_of_find hsession])
    exact ended_of_hungUp haccepted (by simp)

/-- A health check interrupts only when it closes its session. -/
theorem ended_of_answer (hm : Recorded m.server m.wire) {client : Frame} {rest : List ρ} {info : ι}
    {sends : DequeueSends} (hanswers : m.Answers π config client rest info sends t)
    (hkey : .interrupt key ∈ t.wire) : .interrupt key ∈ m.wire ∨ ∃ c, Ended key c t.wire := by
  cases hanswers with
  | destroyed => exact Or.inl hkey
  | returned hsession hd | threw hsession hd | undefined hsession hd =>
    -- the health check is remembered first
    have hremembered : Recorded (m.server.remember π client _ info)
        (m.wire ++ [] ++ [.accepted (π.key info) client]) := hm.remember hsession info (by simp)
    rw [List.append_nil] at hremembered
    rcases List.mem_append.mp hkey with hold | hnew
    · exact Or.inl (by simpa using hold)
    · exact Or.inr ((Server.dequeues_of_eq hd).ended hremembered hnew)

/-- A rejection interrupts only when the connection was closed. -/
theorem ended_of_disconnect (hm : Recorded m.server m.wire) {client : Frame} {close : SendResult}
    (hstep : m.step π config (.disconnect close) = some t) (hcontrol : m.control = .rejecting client)
    (hkey : .interrupt key ∈ t.wire) : .interrupt key ∈ m.wire ∨ Ended key client t.wire := by
  simp only [step, hcontrol] at hstep
  obtain rfl := Option.some.inj hstep
  have hspec := m.disconnect_spec client close
  generalize m.disconnect client close = t at hspec hkey ⊢
  cases hspec with
  | undefined => exact Or.inl hkey
  | kept => exact Or.inl (by simpa using hkey)
  | @closed session hsession hclose =>
    rw [List.append_assoc] at hkey ⊢
    refine (List.mem_append.mp hkey).imp_right fun hnew => ?_
    have hmem : key ∈ session.enqueued := by simpa using hnew
    have haccepted := hm.listed client key (by rwa [Server.listed_of_find hsession])
    exact ended_of_closed haccepted (by simp [hclose])

/-- What a step publishes is the key of a request whose client is gone, or of the request that
`handle_timeouts` drops. -/
theorem revoked_of_step (hm : Recorded m.server m.wire) {input : ServerInput ι}
    (hstep : m.step π config input = some t) (hkey : .interrupt key ∈ t.wire) :
    .interrupt key ∈ m.wire ∨ (∃ client, Ended key client t.wire) ∨
      ∃ info ∈ m.expired π input, π.key info = key := by
  cases stepped_of_step hstep with
  | result info response sends =>
    have hspec := m.result_spec π info response sends
    generalize m.result π info response sends = t at hspec hkey ⊢
    cases hspec with
    | returned hd | threw hd | undefined hd =>
      refine (List.mem_append.mp hkey).imp_right fun hnew => Or.inl ?_
      exact (Server.dequeues_of_eq hd).ended hm hnew
  | message client body rejection =>
    have hspec := m.handleRequest_spec π config client body rejection
    exact (ended_of_handleRequest hm hspec hkey).imp_right fun h => Or.inl ⟨client, h⟩
  | @enqueue client parsed rest now infoSent textSent sends hcontrol =>
    have hspec := m.enqueue_spec π config client parsed rest now infoSent textSent sends
    generalize m.enqueue π config client parsed rest now infoSent textSent sends = t at hspec hkey ⊢
    cases hspec with
    | threw => exact Or.inl hkey
    | forwards _ hforwards =>
      left
      cases hforwards with
      | threw | again => exact hkey
      | undefined | sent => simpa using hkey
    | answers _ hanswers =>
      have hcount : Recorded m.server.count m.wire := ⟨hm.waiting, hm.listed⟩
      exact (ended_of_answer (m := { m with server := m.server.count }) hcount hanswers hkey).imp_right Or.inl
  | enqueued | timeouts => exact Or.inl hkey
  | @disconnect client close hcontrol =>
    exact (ended_of_disconnect hm hstep hcontrol hkey).imp_right fun h => Or.inl ⟨client, h⟩
  | @expire dropDead sends hcontrol =>
    have hspec := m.expire_spec π dropDead sends
    generalize m.expire π dropDead sends = t at hspec hkey ⊢
    cases hspec with
    | finished | young => exact Or.inl hkey
    | @returned info _ _ _ hhistory hold hd | @threw info _ _ _ hhistory hold hd
      | @undefined info _ _ hhistory hold hd =>
      -- the key of the request that is dropped is published before it is answered
      have hexpired : m.expired π (.expire sends) = some info := by
        simp only [expired, hcontrol, hhistory, if_pos hold]
      rcases List.mem_append.mp hkey with hbefore | hnew
      · rcases List.mem_append.mp hbefore with hwire | hinfo
        · exact Or.inl hwire
        · exact Or.inr (Or.inr ⟨info, hexpired, by simpa [eq_comm] using hinfo⟩)
      · have hquiet : Recorded m.server (m.wire ++ [.interrupt (π.key info)]) :=
          hm.quiet (.refl _) (by simp [Action.Inert])
        exact Or.inr (Or.inl ((Server.dequeues_of_eq hd).ended hquiet hnew))

end Machine

/-- What was done was done before what is done later. -/
theorem keepsBooks_extends (before : List Action) :
    KeepsBooks π (.free σ ι) fun _ wire => before <+: wire where
  quiet h _ _ := h.trans (List.prefix_append _ _)
  opened h _ _ := h.trans (List.prefix_append _ _)
  hungUp h _ _ := h.trans (List.prefix_append _ _)
  remembered h _ _ _ := (h.trans (List.prefix_append _ _)).trans (List.prefix_append _ _)
  dequeued h _ _ := h.trans (List.prefix_append _ _)
  disconnected h _ _ := (h.trans (List.prefix_append _ _)).trans (List.prefix_append _ _)

/-- The wire only grows. -/
theorem Machine.prefix_of_step {m t : Machine σ ρ ι} {input : ServerInput ι}
    (hstep : m.step π config input = some t) : m.wire <+: t.wire :=
  (keepsBooks_extends m.wire).step (BookConditions.met_free m input) List.prefix_rfl hstep

/-- The time at which `handle_timeouts` is called. -/
def ServerInput.timeoutsAt : ServerInput ι → Option ℕ
  | .timeouts now => some now
  | .result _ _ _ | .message _ _ _ | .next _ _ _ _ | .disconnect _ | .expire _ => none

/-- The calls of `handle_timeouts` among the inputs. -/
theorem mem_timeoutsAt {inputs : List (ServerInput ι)} {now : ℕ} :
    now ∈ inputs.filterMap ServerInput.timeoutsAt ↔ .timeouts now ∈ inputs := by
  constructor
  · intro h
    obtain ⟨input, hmem, htime⟩ := List.mem_filterMap.mp h
    cases input with
    | timeouts time =>
      obtain rfl := Option.some.inj htime
      exact hmem
    | result | message | next | disconnect | expire => cases htime
  · exact fun h => List.mem_filterMap.mpr ⟨_, h, rfl⟩

/-- Each step of a run takes one of the inputs of the run. -/
theorem Machine.stepsMeet_timeoutsAt {m : Machine σ ρ ι} (inputs : List (ServerInput ι)) :
    StepsMeet (Machine.step π config) m inputs fun _ input =>
      ∀ now, input = .timeouts now → now ∈ inputs.filterMap ServerInput.timeoutsAt := by
  rintro before _ after t hsplit - now rfl
  rw [mem_timeoutsAt, hsplit]
  simp

/-- A request was accepted, and then its client was gone, or it was too old at one of these times. -/
def Revoked (config : ServerConfig ρ) (times : List ℕ) (key : UInt64) (wire : List Action) : Prop :=
  ∃ client, .accepted key client ∈ wire ∧
    (Ended key client wire ∨ ∃ now ∈ times, stampOf key < dropDead config now)

/-- A request that has ended was accepted. -/
theorem Ended.accepted {key : UInt64} {client : Frame} {wire : List Action} (h : Ended key client wire) :
    .accepted key client ∈ wire :=
  h.elim (fun h => h.subset List.mem_cons_self) fun h => h.subset List.mem_cons_self

/-- What was revoked stays revoked. -/
theorem Revoked.append {times : List ℕ} {key : UInt64} {wire : List Action}
    (h : Revoked config times key wire) (actions : List Action) :
    Revoked config times key (wire ++ actions) := by
  obtain ⟨client, haccepted, hgone⟩ := h
  exact ⟨client, List.mem_append_left _ haccepted, hgone.imp_left fun hended => hended.append actions⟩

namespace Machine

variable {m t : Machine σ ρ ι} {times : List ℕ}

/-- The limit of `handle_timeouts` was computed when it was called. -/
def CalledAt (config : ServerConfig ρ) (times : List ℕ) : ServerControl ρ → Prop
  | .expiring limit => ∃ now ∈ times, limit = dropDead config now
  | .serving | .enqueueing _ _ | .rejecting _ | .escaped | .undefined _ => True

/-- What is known of the keys that were published. `handle_timeouts` was called at these times. -/
structure Revokes (π : Protocol σ ρ ι) (config : ServerConfig ρ) (times : List ℕ)
    (m : Machine σ ρ ι) : Prop where
  /-- The books say which requests are in progress. -/
  recorded : Recorded m.server m.wire
  /-- The history holds only requests that were accepted. -/
  history : m.HistoryAccepted π
  /-- `handle_timeouts` works with one of the times. -/
  calledAt : CalledAt config times m.control
  /-- The request of a published key has ended or has timed out at one of the times. -/
  revoked : ∀ key, .interrupt key ∈ m.wire → Revoked config times key m.wire

/-- A server that has just started has revoked nothing. -/
theorem revokes_start (times : List ℕ) : (start : Machine σ ρ ι).Revokes π config times where
  recorded := recorded_start
  history info hinfo := by simp [start, Server.start] at hinfo
  calledAt := trivial
  revoked _ hkey := by simp [start] at hkey

/-- `handle_timeouts` is at work only after it was called. -/
theorem calledAt_of_step (hm : CalledAt config times m.control) {input : ServerInput ι}
    (htimes : ∀ now, input = .timeouts now → now ∈ times) (hstep : m.step π config input = some t) :
    CalledAt config times t.control := by
  cases stepped_of_step hstep with
  | timeouts now => exact ⟨now, htimes now rfl, rfl⟩
  | enqueued => trivial
  | result info response sends hcontrol =>
    have hspec := m.result_spec π info response sends
    generalize m.result π info response sends = t at hspec ⊢
    cases hspec with
    | returned | threw => exact hm
    | undefined => trivial
  | message client body rejection hcontrol =>
    have hspec := m.handleRequest_spec π config client body rejection
    generalize m.handleRequest π config client body rejection = t at hspec ⊢
    cases hspec with
    | ignored | opened | hungUp | threw => exact hm
    | parsed | rejectionThrew | rejected => trivial
  | @enqueue client parsed rest now infoSent textSent sends hcontrol =>
    have hspec := m.enqueue_spec π config client parsed rest now infoSent textSent sends
    generalize m.enqueue π config client parsed rest now infoSent textSent sends = t at hspec ⊢
    cases hspec with
    | threw => trivial
    | forwards _ hforwards => cases hforwards <;> trivial
    | answers _ hanswers => cases hanswers <;> trivial
  | @disconnect client close hcontrol =>
    have hspec := m.disconnect_spec client close
    generalize m.disconnect client close = t at hspec ⊢
    cases hspec <;> trivial
  | @expire limit sends hcontrol =>
    have hspec := m.expire_spec π limit sends
    generalize m.expire π limit sends = t at hspec ⊢
    cases hspec with
    -- the loop goes on with the same limit
    | returned => exact hm
    | finished | young | threw | undefined => trivial

/-- The request that `handle_timeouts` drops is older than its limit. -/
theorem old_of_expired {input : ServerInput ι} {info : ι} (h : info ∈ m.expired π input) :
    ∃ limit, m.control = .expiring limit ∧ (π.timeStamp info).toNat < limit := by
  unfold expired at h
  split at h
  case h_1 =>
    split at h
    case h_1 limit _ _ hcontrol _ =>
      split_ifs at h with hold
      · obtain rfl := Option.some.inj h
        exact ⟨limit, hcontrol, hold.2⟩
      · cases h
    case h_2 => cases h
  case h_2 => cases h

/-- One step keeps every interrupt revoking. -/
theorem Revokes.step (hπ : π.Stamped) (hm : m.Revokes π config times) {input : ServerInput ι}
    (htimes : ∀ now, input = .timeouts now → now ∈ times) (hstep : m.step π config input = some t) :
    t.Revokes π config times where
  recorded := Recorded.keepsBooks.step (BookConditions.met_free m input) hm.recorded hstep
  history := hm.history.step hstep
  calledAt := calledAt_of_step hm.calledAt htimes hstep
  revoked key hkey := by
    rcases revoked_of_step hm.recorded hstep hkey with hold | ⟨client, hended⟩ | ⟨info, hinfo, rfl⟩
    · obtain ⟨actions, hwire⟩ := prefix_of_step hstep
      rw [← hwire]
      exact (hm.revoked key hold).append actions
    · exact ⟨client, hended.accepted, Or.inl hended⟩
    · -- the time stamp of a request that is dropped is below the limit
      obtain ⟨client, haccepted⟩ := hm.history info (mem_requestHistory_of_expired hinfo)
      obtain ⟨limit, hcontrol, hold⟩ := old_of_expired hinfo
      obtain ⟨now, hnow, rfl⟩ : ∃ now ∈ times, limit = dropDead config now := by
        simpa only [CalledAt, hcontrol] using hm.calledAt
      exact ⟨client, mem_wire_of_step hstep haccepted, Or.inr ⟨now, hnow, by rwa [hπ.key]⟩⟩

end Machine

end PrimeServer
