import PrimeServer.Server.Layout
import PrimeServer.Server.Revocation

/-!
# Keys and history

Each request gets the next id, and is accepted under a key made of its id and the time. What was accepted is
appended to the history, and `handle_timeouts` removes requests from its front.

## Main results

* `Machine.nodup_acceptedKeys_of_run`: no key is accepted twice before the ids have gone round;
* `Machine.history_of_run`: the history has all requests that were accepted except for the first ones, which
  were too old when `handle_timeouts` was called.
-/

namespace PrimeServer

open Transition

variable {σ ρ ι : Type} {π : Protocol σ ρ ι} {config : ServerConfig ρ}

/-- The key under which a request is accepted. -/
def Action.acceptedKey : Action → Option UInt64
  | .accepted key _ => some key
  | .opened _ | .hungUp _ | .response _ _ _ _ | .rejection _ _ _ | .closed _ _ | .interrupt _
  | .forwarded _ _ => none

/-- The keys of the requests that were accepted, in this order. -/
def acceptedKeys (wire : List Action) : List UInt64 := wire.filterMap Action.acceptedKey

@[simp]
theorem acceptedKeys_nil : acceptedKeys [] = [] := rfl

@[simp]
theorem acceptedKeys_cons (action : Action) (wire : List Action) :
    acceptedKeys (action :: wire) = action.acceptedKey.toList ++ acceptedKeys wire := by
  cases h : action.acceptedKey <;> simp [acceptedKeys, h]

/-- The keys accepted by two stretches of the wire are those of both. -/
@[simp]
theorem acceptedKeys_append (wire actions : List Action) :
    acceptedKeys (wire ++ actions) = acceptedKeys wire ++ acceptedKeys actions :=
  List.filterMap_append

/-- An interrupt accepts no key. -/
@[simp]
theorem acceptedKeys_map_interrupt (keys : List UInt64) : acceptedKeys (keys.map .interrupt) = [] := by
  simp [acceptedKeys, Action.acceptedKey]

/-- The id in a key. -/
def idOf (key : UInt64) : UInt32 := key.toUInt32

/-- The id can be read back from the key. -/
theorem idOf_keyOf (id timeStamp : UInt32) : idOf (keyOf id timeStamp) = id := by
  have hid : id.toNat < 2 ^ 32 := id.toNat_lt
  apply UInt32.toNat_inj.mp
  rw [idOf, UInt64.toNat_toUInt32, toNat_keyOf]
  omega

/-- The key of a request has the id that the server has given it. -/
def Protocol.Numbered (π : Protocol σ ρ ι) : Prop :=
  ∀ parsed id now, idOf (π.key (π.toInfo parsed id now)) = id

/-- The key of an http request holds its id. -/
theorem httpProtocol_numbered (curl : Curl) : (httpProtocol curl).Numbered := fun _ id now =>
  idOf_keyOf id (.ofNat now)

/-- The key of a netstring holds its id. -/
theorem netstringProtocol_numbered : netstringProtocol.Numbered := fun _ id now =>
  idOf_keyOf id (.ofNat now)

/-- `dequeue` accepts nothing and gives out no id. -/
theorem Server.Dequeues.register {s : Server σ ι} {info : ι} {response : Bytes} {sends : DequeueSends}
    {outcome : Dequeued σ ι} {actions : List Action}
    (h : s.Dequeues π info response sends (outcome, actions)) :
    (outcome.server s).requestId = s.requestId ∧ acceptedKeys actions = [] := by
  cases h with
  | unknown | responseThrew | kept | closeThrew | notClosed | undefined => exact ⟨rfl, rfl⟩
  | closed => exact ⟨rfl, by simp [Action.acceptedKey]⟩

/-- Forgetting keys counts no request. -/
@[simp]
theorem Server.foldl_forget_requestId (keys : List UInt64) (s : Server σ ι) :
    (keys.foldl forget s).requestId = s.requestId := by
  induction keys generalizing s with
  | nil => rfl
  | cons key keys ih => exact ih (s.forget key)

namespace Machine

variable {m t : Machine σ ρ ι}

/-- What a step can do to the ids, the keys and the history. -/
inductive Registers (π : Protocol σ ρ ι) (m : Machine σ ρ ι) (input : ServerInput ι)
    (t : Machine σ ρ ι) : Prop where
  | kept (hid : t.server.requestId = m.server.requestId) (hkeys : acceptedKeys t.wire = acceptedKeys m.wire)
      (hhistory : t.server.requestHistory = m.server.requestHistory)
  /-- An id is given out for nothing. -/
  | counted (hid : t.server.requestId = m.server.requestId + 1)
      (hkeys : acceptedKeys t.wire = acceptedKeys m.wire)
      (hhistory : t.server.requestHistory = m.server.requestHistory)
  | accepted {parsed : ρ} {now : ℕ} (hid : t.server.requestId = m.server.requestId + 1)
      (hkeys : acceptedKeys t.wire =
        acceptedKeys m.wire ++ [π.key (π.toInfo parsed m.server.requestId now)])
      (hhistory : t.server.requestHistory =
        m.server.requestHistory ++ [π.toInfo parsed m.server.requestId now])
  /-- The oldest request is dropped. -/
  | dropped {info : ι} (hid : t.server.requestId = m.server.requestId)
      (hkeys : acceptedKeys t.wire = acceptedKeys m.wire)
      (hhistory : m.server.requestHistory = info :: t.server.requestHistory)
      (hexpired : m.expired π input = some info) (hpublished : .interrupt (π.key info) ∈ t.wire)

/-- A request that was forwarded is registered under the next id. -/
theorem registers_forward {client : Frame} {parsed : ρ} {rest : List ρ} {now : ℕ}
    {input : ServerInput ι}
    (hforwards : Forwards π { m with server := m.server.count } client parsed rest
      (π.toInfo parsed m.server.requestId now) t) : Registers π m input t := by
  cases hforwards with
  | threw | again => exact .counted rfl rfl rfl
  | undefined => exact .counted rfl (by simp [Action.acceptedKey]) rfl
  | sent => exact .accepted rfl (by simp [Action.acceptedKey]) rfl

/-- A health check is registered under the next id. -/
theorem registers_answer {client : Frame} {parsed : ρ} {rest : List ρ} {now : ℕ} {sends : DequeueSends}
    {input : ServerInput ι}
    (hanswers : Answers π config { m with server := m.server.count } client rest
      (π.toInfo parsed m.server.requestId now) sends t) : Registers π m input t := by
  cases hanswers with
  | destroyed => exact .counted rfl rfl rfl
  | returned _ hd | threw _ hd | undefined _ hd =>
    -- the request is remembered, whatever becomes of the answer
    obtain ⟨hid, hkeys⟩ := (Server.dequeues_of_eq hd).register
    obtain ⟨hhistory, -⟩ := (Server.dequeues_of_eq hd).history
    refine .accepted hid ?_ hhistory
    simp [hkeys, Action.acceptedKey]

/-- A timeout registers nothing. -/
theorem registers_expire {limit : ℤ} {sends : DequeueSends} (hcontrol : m.control = .expiring limit)
    (hexpires : m.Expires π limit sends t) : Registers π m (.expire sends) t := by
  cases hexpires with
  | finished | young => exact .kept rfl rfl rfl
  | @returned info history _ _ hhistory hold hd =>
    obtain ⟨hid, hkeys⟩ := (Server.dequeues_of_eq hd).register
    refine .dropped hid ?_ hhistory ?_ (by simp)
    · simp [hkeys, Action.acceptedKey]
    · simp only [expired, hcontrol, hhistory, if_pos hold]
  | threw _ _ hd | undefined _ _ hd =>
    obtain ⟨hid, hkeys⟩ := (Server.dequeues_of_eq hd).register
    obtain ⟨hhistory, -⟩ := (Server.dequeues_of_eq hd).history
    exact .kept hid (by simp [hkeys, Action.acceptedKey]) hhistory

/-- What one step does to the counter and to the keys. -/
theorem registers_of_step {input : ServerInput ι} (hstep : m.step π config input = some t) :
    Registers π m input t := by
  cases stepped_of_step hstep with
  | enqueued | timeouts => exact .kept rfl rfl rfl
  | result info response sends =>
    have hspec := m.result_spec π info response sends
    generalize m.result π info response sends = t at hspec ⊢
    cases hspec with
    | returned hd | threw hd | undefined hd =>
      -- `dequeue` neither counts nor accepts
      obtain ⟨hid, hkeys⟩ := (Server.dequeues_of_eq hd).register
      obtain ⟨hhistory, -⟩ := (Server.dequeues_of_eq hd).history
      exact .kept hid (by simp [hkeys]) hhistory
  | message client body rejection =>
    have hspec := m.handleRequest_spec π config client body rejection
    generalize m.handleRequest π config client body rejection = t at hspec ⊢
    cases hspec with
    | ignored | parsed | threw => exact .kept rfl rfl rfl
    | opened | rejectionThrew => exact .kept rfl (by simp [Action.acceptedKey]) rfl
    | @hungUp session =>
      refine .kept ?_ (by simp [Action.acceptedKey]) ?_
      · exact Server.foldl_forget_requestId session.enqueued m.server
      · exact Server.foldl_forget_requestHistory session.enqueued m.server
    | rejected => exact .counted rfl (by simp [Action.acceptedKey]) rfl
  | @enqueue client parsed rest now infoSent textSent sends hcontrol =>
    have hspec := m.enqueue_spec π config client parsed rest now infoSent textSent sends
    generalize m.enqueue π config client parsed rest now infoSent textSent sends = t at hspec ⊢
    cases hspec with
    | threw => exact .counted rfl rfl rfl
    | forwards _ hforwards => exact registers_forward hforwards
    | answers _ hanswers => exact registers_answer hanswers
  | @disconnect client close =>
    have hspec := m.disconnect_spec client close
    generalize m.disconnect client close = t at hspec ⊢
    cases hspec with
    | undefined => exact .kept rfl rfl rfl
    | closed | kept => exact .kept rfl (by simp [Action.acceptedKey]) rfl
  | @expire limit sends hcontrol => exact registers_expire hcontrol (m.expire_spec π limit sends)

/-! ### Keys -/

/-- How long after the server stood at `m` the id of a key was given out. -/
def offset (m : Machine σ ρ ι) (key : UInt64) : ℕ := (idOf key - m.server.requestId).toNat

/-- Since the server stood at `m`, some ids have been given out, and the keys that were accepted have ids of
these, one after the other. -/
def Numbers (m t : Machine σ ρ ι) (count : ℕ) : Prop :=
  t.server.requestId = m.server.requestId + .ofNat count ∧
    ∃ keys, acceptedKeys t.wire = acceptedKeys m.wire ++ keys ∧
      keys.Pairwise (fun a b => m.offset a < m.offset b) ∧ ∀ key ∈ keys, m.offset key < count

/-- Nothing was numbered yet. -/
theorem numbers_self (m : Machine σ ρ ι) : m.Numbers m 0 :=
  ⟨(UInt32.add_zero _).symm, [], (List.append_nil _).symm, .nil, by simp⟩

/-- The id that is given out next. -/
theorem Numbers.offset_eq {count : ℕ} (h : m.Numbers t count) (hcount : count < 2 ^ 32) {key : UInt64}
    (hkey : idOf key = t.server.requestId) : m.offset key = count := by
  rw [offset, hkey, h.1, UInt32.add_comm, UInt32.add_sub_cancel, UInt32.toNat_ofNat_of_lt' hcount]

/-- Counting on without accepting a key leaves the numbering. -/
theorem Numbers.mono {count count' : ℕ} {u : Machine σ ρ ι} (h : m.Numbers t count) (hle : count ≤ count')
    (hid : u.server.requestId = m.server.requestId + .ofNat count')
    (hkeys : acceptedKeys u.wire = acceptedKeys t.wire) : m.Numbers u count' := by
  obtain ⟨-, keys, hsplit, hpairwise, hlt⟩ := h
  exact ⟨hid, keys, by rw [hkeys, hsplit], hpairwise, fun key hkey => (hlt key hkey).trans_le hle⟩

/-- A step gives out one id at most. -/
theorem Numbers.step (hπ : π.Numbered) {count : ℕ} (h : m.Numbers t count) (hcount : count < 2 ^ 32)
    {input : ServerInput ι} {u : Machine σ ρ ι} (hstep : t.step π config input = some u) :
    m.Numbers u count ∨ m.Numbers u (count + 1) := by
  have hnext : t.server.requestId + 1 = m.server.requestId + .ofNat (count + 1) := by
    rw [h.1, UInt32.add_assoc, UInt32.ofNat_add]
    rfl
  cases registers_of_step hstep with
  | kept hid hkeys | dropped hid hkeys => exact Or.inl (h.mono le_rfl (hid.trans h.1) hkeys)
  | counted hid hkeys => exact Or.inr (h.mono (Nat.le_succ count) (hid.trans hnext) hkeys)
  | @accepted parsed now hid hkeys =>
    have hoffset := h.offset_eq hcount (hπ parsed t.server.requestId now)
    obtain ⟨-, keys, hsplit, hpairwise, hlt⟩ := h
    refine Or.inr ⟨hid.trans hnext, keys ++ [π.key (π.toInfo parsed t.server.requestId now)], ?_, ?_, ?_⟩
    · rw [hkeys, hsplit, List.append_assoc]
    · rw [List.pairwise_append]
      refine ⟨hpairwise, List.pairwise_singleton _ _, fun key hkey new hnew => ?_⟩
      rw [List.mem_singleton.mp hnew, hoffset]
      exact hlt key hkey
    · intro key hkey
      rcases List.mem_append.mp hkey with hkey | hkey
      · exact (hlt key hkey).trans (Nat.lt_succ_self count)
      · rw [List.mem_singleton.mp hkey, hoffset]
        exact Nat.lt_succ_self count

/-- From any state on, the keys that are accepted while at most 2^32 things happen to the server are all
different. -/
theorem nodup_acceptedKeys_of_run (hπ : π.Numbered) {inputs : List (ServerInput ι)}
    (hrun : run (step π config) m inputs = some t) (hlength : inputs.length ≤ 2 ^ 32) :
    ∃ keys, acceptedKeys t.wire = acceptedKeys m.wire ++ keys ∧ keys.Nodup := by
  obtain ⟨count, -, -, keys, hsplit, hpairwise, -⟩ : ∃ count ≤ inputs.length, m.Numbers t count := by
    refine run_induction (P := fun inputs t => inputs.length ≤ 2 ^ 32 → ∃ count ≤ inputs.length,
      m.Numbers t count) (fun _ => ⟨0, le_rfl, m.numbers_self⟩) (fun inputs t input u _ ih hstep hlength => ?_)
      hrun hlength
    rw [List.length_append, List.length_singleton] at hlength ⊢
    obtain ⟨count, hcount, hnumbers⟩ := ih (by omega)
    rcases hnumbers.step hπ (by omega) hstep with hnumbers | hnumbers
    · exact ⟨count, by omega, hnumbers⟩
    · exact ⟨count + 1, by omega, hnumbers⟩
  refine ⟨keys, hsplit, hpairwise.imp fun hlt heq => ?_⟩
  rw [heq] at hlt
  exact lt_irrefl _ hlt

/-- A client connects and sends two requests in one message. -/
def twoRequests : List (ServerInput NetstringRequestInfo) :=
  let sends : DequeueSends := ⟨.accepted, .accepted⟩
  [.message [1] [] .accepted, .message [1] (ascii "3:abc,3:xyz,") .accepted,
    .next 100 .accepted .accepted sends, .next 104 .accepted .accepted sends,
    .next 104 .accepted .accepted sends]

/-- `nodup_acceptedKeys_of_run` for two requests in one message. -/
theorem nodup_acceptedKeys_of_run_twoRequests :
    ∃ m, run (step netstringProtocol unchecked) .start twoRequests = some m ∧
      acceptedKeys m.wire = [keyOf 0 100, keyOf 1 104] ∧
      ∃ keys, acceptedKeys m.wire = acceptedKeys [] ++ keys ∧ keys.Nodup := by
  have hrun : (run (step netstringProtocol unchecked) .start twoRequests).map
      (fun m => acceptedKeys m.wire) = some [keyOf 0 100, keyOf 1 104] := by decide
  obtain ⟨m, hm, hkeys⟩ := Option.map_eq_some_iff.mp hrun
  exact ⟨m, hm, hkeys, nodup_acceptedKeys_of_run netstringProtocol_numbered hm (by decide)⟩

/-! ### The history -/

/-- The requests in the history are those that were accepted, in this order, without the first ones, which
were too old at one of these times. -/
def Remembers (π : Protocol σ ρ ι) (config : ServerConfig ρ) (times : List ℕ) (m : Machine σ ρ ι) :
    Prop :=
  ∃ dropped, acceptedKeys m.wire = dropped ++ m.server.requestHistory.map π.key ∧
    ∀ key ∈ dropped, .interrupt key ∈ m.wire ∧ ∃ now ∈ times, stampOf key < dropDead config now

/-- One step keeps the history remembered. -/
theorem Remembers.step (hπ : π.Stamped) {times : List ℕ} (h : m.Remembers π config times)
    (hcalled : CalledAt config times m.control) {input : ServerInput ι}
    (hstep : m.step π config input = some t) : t.Remembers π config times := by
  obtain ⟨dropped, hsplit, hdropped⟩ := h
  have hold : ∀ key ∈ dropped, .interrupt key ∈ t.wire ∧ ∃ now ∈ times, stampOf key < dropDead config now :=
    fun key hkey => ⟨mem_wire_of_step hstep (hdropped key hkey).1, (hdropped key hkey).2⟩
  cases registers_of_step hstep with
  | kept _ hkeys hhistory | counted _ hkeys hhistory =>
    exact ⟨dropped, by rw [hkeys, hhistory, hsplit], hold⟩
  | accepted _ hkeys hhistory =>
    refine ⟨dropped, ?_, hold⟩
    rw [hkeys, hhistory, hsplit, List.map_append, List.append_assoc]
    rfl
  | @dropped info _ hkeys hhistory hexpired hpublished =>
    refine ⟨dropped ++ [π.key info], ?_, fun key hkey => ?_⟩
    · rw [hkeys, hsplit, hhistory, List.map_cons, List.append_assoc]
      rfl
    · rcases List.mem_append.mp hkey with hkey | hkey
      · exact hold key hkey
      · -- the oldest request was below the limit
        rw [List.mem_singleton.mp hkey]
        obtain ⟨limit, hcontrol, hlimit⟩ := old_of_expired hexpired
        obtain ⟨now, hnow, rfl⟩ : ∃ now ∈ times, limit = dropDead config now := by
          simpa only [CalledAt, hcontrol] using hcalled
        exact ⟨hpublished, now, hnow, by rwa [hπ.key]⟩

/-- In every run, the history has the requests that were accepted, in this order, except for the first ones.
These were older than the timeout when `handle_timeouts` was called, and their keys were published. -/
theorem history_of_run (hπ : π.Stamped) {inputs : List (ServerInput ι)}
    (hrun : run (step π config) .start inputs = some m) :
    ∃ dropped, acceptedKeys m.wire = dropped ++ m.server.requestHistory.map π.key ∧
      ∀ key ∈ dropped, .interrupt key ∈ m.wire ∧
        ∃ now, .timeouts now ∈ inputs ∧ stampOf key < dropDead config now := by
  let times := inputs.filterMap ServerInput.timeoutsAt
  have hstart : CalledAt config times (start : Machine σ ρ ι).control ∧
      (start : Machine σ ρ ι).Remembers π config times := ⟨trivial, [], rfl, by simp⟩
  have hinvariant : CalledAt config times m.control ∧ m.Remembers π config times := by
    refine invariant_of_stepsMeet
      (P := fun m => CalledAt config times m.control ∧ m.Remembers π config times)
      hstart (fun m input t hm htimes hstep => ?_) (stepsMeet_timeoutsAt inputs) hrun
    exact ⟨calledAt_of_step hm.1 htimes hstep, hm.2.step hπ hm.1 hstep⟩
  obtain ⟨-, dropped, hsplit, hdropped⟩ := hinvariant
  refine ⟨dropped, hsplit, fun key hkey => ?_⟩
  obtain ⟨hpublished, now, hnow, hold⟩ := hdropped key hkey
  exact ⟨hpublished, now, mem_timeoutsAt.mp hnow, hold⟩

/-- The first request is too old at the end, the second one is not. -/
theorem history_of_run_twoRequests :
    ∃ m, run (step netstringProtocol unchecked) .start
        (twoRequests ++ [.timeouts 106, .expire ⟨.accepted, .accepted⟩, .expire ⟨.accepted, .accepted⟩]) =
          some m ∧
      m.server.requestHistory.map netstringProtocol.key = [keyOf 1 104] ∧
      ∃ dropped, acceptedKeys m.wire = dropped ++ m.server.requestHistory.map netstringProtocol.key ∧
        ∀ key ∈ dropped, .interrupt key ∈ m.wire ∧
          ∃ now, .timeouts now ∈ twoRequests ++ [.timeouts 106, .expire ⟨.accepted, .accepted⟩,
            .expire ⟨.accepted, .accepted⟩] ∧ stampOf key < dropDead unchecked now := by
  have hrun : (run (step netstringProtocol unchecked) .start
      (twoRequests ++ [.timeouts 106, .expire ⟨.accepted, .accepted⟩, .expire ⟨.accepted, .accepted⟩])).map
        (fun m => m.server.requestHistory.map netstringProtocol.key) = some [keyOf 1 104] := by decide
  obtain ⟨m, hm, hhistory⟩ := Option.map_eq_some_iff.mp hrun
  exact ⟨m, hm, hhistory, history_of_run netstringProtocol_stamped hm⟩

end Machine

end PrimeServer
