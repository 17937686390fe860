import PrimeServer.Server.Sessions

/-!
# The order of responses

A response goes out when its answer is handled, be it the result of a worker, a timeout or a health check.
Responses carry no id, so that a client with several requests under way knows them by their order only.

## Main results

* `Machine.inOrder_of_run`: responses leave a connection in the order of its requests as long as each
  answer is for the oldest request of its connection that is not answered yet.
-/

namespace PrimeServer

open Transition

variable {σ ρ ι : Type} {π : Protocol σ ρ ι} {config : ServerConfig ρ}

/-- The key of a request that is received from a client. -/
def Action.receivedFrom (client : Frame) : Action → Option UInt64
  | .accepted key owner => if owner = client then some key else none
  | .opened _ | .hungUp _ | .response _ _ _ _ | .rejection _ _ _ | .closed _ _ | .interrupt _
  | .forwarded _ _ => none

/-- The key of a request whose response is sent to a client. -/
def Action.sentTo (client : Frame) : Action → Option UInt64
  | .response key owner _ result => if owner = client ∧ result = .accepted then some key else none
  | .opened _ | .hungUp _ | .accepted _ _ | .rejection _ _ _ | .closed _ _ | .interrupt _
  | .forwarded _ _ => none

/-- The responses that were sent to a client are in the order in which its requests were received. -/
def InOrder (client : Frame) (wire : List Action) : Prop :=
  (wire.filterMap (Action.sentTo client)).Sublist (wire.filterMap (Action.receivedFrom client))

/-- Whether a client was answered in order can be read off the wire. -/
instance (client : Frame) (wire : List Action) : Decidable (InOrder client wire) := by
  unfold InOrder
  infer_instance

/-- A request of the client waits for its answer, or has it. -/
def settle (client : Frame) (pending : List UInt64) : Action → List UInt64
  | .accepted key owner => if owner = client then pending ++ [key] else pending
  | .response key owner _ result =>
    if owner = client ∧ result ≠ .threw then pending.erase key else pending
  | .opened _ | .hungUp _ | .rejection _ _ _ | .closed _ _ | .interrupt _ | .forwarded _ _ => pending

/-- The requests of a client that are not answered yet, oldest first. -/
def pending (client : Frame) (wire : List Action) : List UInt64 :=
  wire.foldl (settle client) []

namespace Machine

/-- What was done when a step calls `dequeue`: a health check has just been remembered. -/
def wireAtCall (π : Protocol σ ρ ι) (m : Machine σ ρ ι) (call : Call σ ι) : ServerInput ι → List Action
  | .next _ _ _ _ =>
    match m.control with
    | .enqueueing client _ => m.wire ++ [.accepted (π.key call.info) client]
    | _ => m.wire
  | .result _ _ _ | .message _ _ _ | .disconnect _ | .timeouts _ | .expire _ => m.wire

/-- An answer is for the oldest request of its connection that is not answered yet. -/
def AnswersOldest (π : Protocol σ ρ ι) (config : ServerConfig ρ) (m : Machine σ ρ ι)
    (input : ServerInput ι) : Prop :=
  ∀ call ∈ m.call π config input, ∀ client ∈ call.server.requests.find (π.key call.info),
    (pending client (m.wireAtCall π call input)).head? = some (π.key call.info)

/-- Whether a step answers the oldest request is decidable. -/
instance (m : Machine σ ρ ι) (input : ServerInput ι) : Decidable (m.AnswersOldest π config input) := by
  unfold AnswersOldest
  infer_instance

end Machine

/-! ### What is pending -/

section Settled

variable {client : Frame} {wire actions : List Action}

/-- The requests of a client are those that were settled, in whose order the responses were sent, and
those that are pending. -/
def Settled (client : Frame) (wire : List Action) : Prop :=
  ∃ settled, wire.filterMap (Action.receivedFrom client) = settled ++ pending client wire ∧
    (wire.filterMap (Action.sentTo client)).Sublist settled

/-- What is settled at every prefix is in order as a whole. -/
theorem Settled.inOrder (h : Settled client wire) : InOrder client wire := by
  obtain ⟨settled, hreceived, hsent⟩ := h
  show (wire.filterMap (Action.sentTo client)).Sublist _
  rw [hreceived]
  exact hsent.trans (List.sublist_append_left settled _)

/-- An empty wire is settled. -/
theorem settled_nil (client : Frame) : Settled client [] :=
  ⟨[], rfl, .refl _⟩

/-- The pending keys after one more action. -/
theorem pending_concat (client : Frame) (wire : List Action) (action : Action) :
    pending client (wire ++ [action]) = settle client (pending client wire) action := by
  simp [pending]

/-- An action that neither submits nor answers a request. -/
def Action.Aside : Action → Prop
  | .opened _ | .hungUp _ | .rejection _ _ _ | .closed _ _ | .interrupt _ | .forwarded _ _ => True
  | .accepted _ _ | .response _ _ _ _ => False

/-- An action that takes no request and gives no response changes nothing that is pending. -/
theorem Action.Aside.settle {action : Action} (h : action.Aside) (client : Frame) (keys : List UInt64) :
    action.receivedFrom client = none ∧ action.sentTo client = none ∧
      PrimeServer.settle client keys action = keys := by
  cases action with
  | accepted | response => exact False.elim h
  | opened | hungUp | rejection | closed | interrupt | forwarded => exact ⟨rfl, rfl, rfl⟩

/-- Actions aside leave a wire settled. -/
theorem Settled.aside (h : Settled client wire) (haside : ∀ a ∈ actions, a.Aside) :
    Settled client (wire ++ actions) := by
  induction actions generalizing wire with
  | nil => rwa [List.append_nil]
  | cons action actions ih =>
    rw [List.append_cons]
    refine ih ?_ fun a ha => haside a (List.mem_cons_of_mem _ ha)
    obtain ⟨settled, hreceived, hsent⟩ := h
    obtain ⟨hnot, hnone, hpending⟩ :=
      (haside action List.mem_cons_self).settle client (pending client wire)
    refine ⟨settled, ?_, ?_⟩
    · rw [pending_concat, hpending, List.filterMap_append, hreceived]
      simp [hnot]
    · simpa [hnone] using hsent

/-- A request that is accepted waits behind those before it. -/
theorem Settled.accepted (h : Settled client wire) (key : UInt64) (owner : Frame) :
    Settled client (wire ++ [.accepted key owner]) := by
  obtain ⟨settled, hreceived, hsent⟩ := h
  refine ⟨settled, ?_, by simpa [List.filterMap_cons, Action.sentTo] using hsent⟩
  rw [pending_concat, List.filterMap_append, hreceived]
  by_cases howner : owner = client <;> simp [settle, Action.receivedFrom, howner]

/-- The oldest request that is pending is answered. -/
theorem Settled.response (h : Settled client wire) {key : UInt64} {owner : Frame}
    (holdest : (pending owner wire).head? = some key) (response : Bytes) (result : SendResult) :
    Settled client (wire ++ [.response key owner response result]) := by
  obtain ⟨settled, hreceived, hsent⟩ := h
  by_cases hanswered : owner = client ∧ result ≠ .threw
  · obtain ⟨rfl, hresult⟩ := hanswered
    obtain ⟨rest, hpending⟩ := List.head?_eq_some_iff.mp holdest
    refine ⟨settled ++ [key], ?_, ?_⟩
    · rw [pending_concat, List.filterMap_append, hreceived, hpending]
      simp [settle, Action.receivedFrom, hresult]
    · rw [List.filterMap_append]
      apply List.Sublist.append hsent
      by_cases hsend : result = .accepted <;> simp [Action.sentTo, hsend]
  · -- nothing is answered, or on another connection
    have hsend : ¬ (owner = client ∧ result = .accepted) := by
      rintro ⟨rfl, rfl⟩
      exact hanswered ⟨rfl, by decide⟩
    refine ⟨settled, ?_, ?_⟩
    · rw [pending_concat, List.filterMap_append, hreceived]
      simp [settle, Action.receivedFrom, hanswered]
    · simpa [List.filterMap_cons, Action.sentTo, hsend] using hsent

/-- `dequeue` settles its request. -/
theorem Settled.dequeue (h : Settled client wire) {s : Server σ ι} {info : ι} {response : Bytes}
    {sends : DequeueSends} {outcome : Dequeued σ ι}
    (holdest : ∀ owner ∈ s.requests.find (π.key info),
      (pending owner wire).head? = some (π.key info))
    (hspec : s.Dequeues π info response sends (outcome, actions)) :
    Settled client (wire ++ actions) := by
  -- the response settles the request, and the rest neither submits nor answers one
  have hanswer : ∀ owner, s.requests.find (π.key info) = some owner → ∀ rest : List Action,
      (∀ a ∈ rest, a.Aside) →
        Settled client (wire ++ (.response (π.key info) owner response sends.response :: rest)) := by
    intro owner hfind rest haside
    rw [List.append_cons]
    exact (h.response (holdest owner hfind) response sends.response).aside haside
  cases hspec with
  | unknown => exact h.aside nofun
  | responseThrew hfind => exact hanswer _ hfind [] nofun
  | kept hfind => exact hanswer _ hfind [] nofun
  | closeThrew hfind | notClosed hfind => exact hanswer _ hfind [_] (by simp [Action.Aside])
  | undefined hcloses => exact hanswer _ hcloses.1 [_] (by simp [Action.Aside])
  | closed hcloses => exact hanswer _ hcloses.1 _ (by simp [Action.Aside])

end Settled

namespace Machine

variable {m t : Machine σ ρ ι} {client : Frame}

/-- A result for the oldest request settles it. -/
theorem settled_result (hm : Settled client m.wire) (info : ι) (response : Bytes) (sends : DequeueSends)
    (holdest : ∀ owner ∈ m.server.requests.find (π.key info),
      (pending owner m.wire).head? = some (π.key info)) :
    Settled client (m.result π info response sends).wire := by
  have hspec := m.result_spec π info response sends
  generalize m.result π info response sends = t at hspec ⊢
  cases hspec with
  | returned hd | threw hd | undefined hd => exact hm.dequeue holdest (Server.dequeues_of_eq hd)

/-- What a client says settles nothing. -/
theorem settled_handleRequest (hm : Settled client m.wire) (owner : Frame) (body : Bytes)
    (rejection : SendResult) :
    Settled client (m.handleRequest π config owner body rejection).wire := by
  have hspec := m.handleRequest_spec π config owner body rejection
  generalize m.handleRequest π config owner body rejection = t at hspec ⊢
  cases hspec with
  | ignored | parsed | threw => exact hm
  | opened | rejectionThrew | rejected => exact hm.aside (by simp [Action.Aside])
  | hungUp =>
    apply hm.aside
    intro action haction
    rcases List.mem_append.mp haction with hinterrupt | hhungUp
    · obtain ⟨key, -, rfl⟩ := List.mem_map.mp hinterrupt
      trivial
    · rw [List.mem_singleton.mp hhungUp]
      trivial

/-- A request that was forwarded waits. -/
theorem settled_forward (hm : Settled client m.wire) {owner : Frame} {parsed : ρ} {rest : List ρ}
    {info : ι} (hforwards : m.Forwards π owner parsed rest info t) : Settled client t.wire := by
  have hforwarded : ∀ text, Settled client (m.wire ++ [.forwarded (π.key info) text]) := fun text =>
    hm.aside (by simp [Action.Aside])
  cases hforwards with
  | threw | again => exact hm
  | undefined => exact hforwarded _
  | sent => exact (hforwarded _).accepted _ _

/-- A health check settles the request it answers, if no other waits. -/
theorem settled_answer (hm : Settled client m.wire) {owner : Frame} {rest : List ρ} {info : ι}
    {sends : DequeueSends}
    (holdest : ∀ session, m.server.sessions.find owner = some session →
      ∀ other ∈ (m.server.remember π owner session info).requests.find (π.key info),
        (pending other (m.wire ++ [.accepted (π.key info) owner])).head? = some (π.key info))
    (hanswers : m.Answers π config owner rest info sends t) : Settled client t.wire := by
  cases hanswers with
  | destroyed => exact hm
  | returned hsession hd | threw hsession hd | undefined hsession hd =>
    have haccepted := hm.accepted (π.key info) owner
    exact haccepted.dequeue (holdest _ hsession) (Server.dequeues_of_eq hd)

/-- A rejection and the close after it answer no request. -/
theorem settled_disconnect (hm : Settled client m.wire) (owner : Frame) (close : SendResult) :
    Settled client (m.disconnect owner close).wire := by
  have hclosed : Settled client (m.wire ++ [.closed owner close]) := hm.aside (by simp [Action.Aside])
  have hspec := m.disconnect_spec owner close
  generalize m.disconnect owner close = t at hspec ⊢
  cases hspec with
  | undefined => exact hm
  | closed => exact hclosed.aside (by simp [Action.Aside])
  | kept => exact hclosed

/-- A timeout of the oldest request settles it. -/
theorem settled_expire (hm : Settled client m.wire) {dropDead : ℤ}
    (hcontrol : m.control = .expiring dropDead) (sends : DequeueSends)
    (holdest : m.AnswersOldest π config (.expire sends)) :
    Settled client (m.expire π dropDead sends).wire := by
  have hinterrupted : ∀ key, Settled client (m.wire ++ [.interrupt key]) := fun key =>
    hm.aside (by simp [Action.Aside])
  have hspec := m.expire_spec π dropDead sends
  generalize m.expire π dropDead sends = t at hspec ⊢
  cases hspec with
  | finished | young => exact hm
  | returned hhistory hold hd | threw hhistory hold hd | undefined hhistory hold hd =>
    refine (hinterrupted _).dequeue (fun owner howner => ?_) (Server.dequeues_of_eq hd)
    rw [pending_concat]
    exact holdest _ (call_expire hcontrol hhistory hold sends) owner howner

/-- One step that answers the oldest request keeps the wire settled. -/
theorem settled_step (hm : Settled client m.wire) {input : ServerInput ι}
    (holdest : m.AnswersOldest π config input) (hstep : m.step π config input = some t) :
    Settled client t.wire := by
  cases stepped_of_step hstep with
  | result info response sends =>
    exact settled_result hm info response sends (holdest _ rfl)
  | message owner body rejection => exact settled_handleRequest hm owner body rejection
  | @enqueue owner parsed rest now info text sends hcontrol =>
    have hspec := m.enqueue_spec π config owner parsed rest now info text sends
    generalize m.enqueue π config owner parsed rest now info text sends = t at hspec ⊢
    cases hspec with
    | threw => exact hm
    | forwards _ hforwards =>
      exact settled_forward (m := { m with server := m.server.count }) hm hforwards
    | answers hmatch hanswers =>
      refine settled_answer (m := { m with server := m.server.count }) hm (fun session hsession => ?_)
        hanswers
      have hcall := call_next (π := π) hcontrol hmatch hsession now info text sends
      simpa only [wireAtCall, hcontrol] using holdest _ hcall
  | enqueued | timeouts => exact hm
  | @disconnect owner close => exact settled_disconnect hm owner close
  | expire sends hcontrol => exact settled_expire hm hcontrol sends holdest

/-- In every run in which each answer is for the oldest request of its connection that is not answered
yet, the responses leave each connection in the order in which its requests were received. -/
theorem inOrder_of_run {inputs : List (ServerInput ι)}
    (holdest : StepsMeet (step π config) .start inputs (AnswersOldest π config))
    (hrun : run (step π config) .start inputs = some m) (client : Frame) : InOrder client m.wire := by
  apply Settled.inOrder
  exact invariant_of_stepsMeet (P := fun m => Settled client m.wire) (settled_nil client)
    (fun _ _ _ ht hinput hstep => settled_step ht hinput hstep) holdest hrun

/-- Two requests in one message, and the results of workers for those with the given ids. -/
def pipelined (ids : List UInt32) : List (ServerInput HttpRequestInfo) :=
  healthChecks (ascii "GET /a HTTP/1.1\r\n\r\nGET /b HTTP/1.1\r\n\r\n") ++
    .next 100 .accepted .accepted ⟨.accepted, .accepted⟩ ::
      ids.map fun id => .result
        { id
          timeStamp := 100
          version := 1
          connectionKeepAlive := false
          connectionClose := false }
        (ascii "HTTP/1.1 200 OK\r\n\r\n") ⟨.accepted, .accepted⟩

/-- `inOrder_of_run` for two requests that are answered in their order. -/
theorem inOrder_pipelined :
    ∃ m, run (step (httpProtocol .percent) checked) .start (pipelined [0, 1]) = some m ∧
      ∀ client, InOrder client m.wire := by
  obtain ⟨m, hm⟩ := Option.isSome_iff_exists.mp
    (by decide : (run (step (httpProtocol .percent) checked) .start (pipelined [0, 1])).isSome)
  exact ⟨m, hm, inOrder_of_run (by decide) hm⟩

/-- The second of two requests is answered first. -/
theorem not_inOrder :
    ¬ ∀ inputs m, run (step (httpProtocol .percent) checked) .start inputs = some m →
      ∀ client, InOrder client m.wire := by
  intro hordered
  have hrun : (run (step (httpProtocol .percent) checked) .start (pipelined [1, 0])).map
      (fun m => decide (InOrder [1] m.wire)) = some false := by decide
  obtain ⟨m, hm, hwire⟩ := Option.map_eq_some_iff.mp hrun
  exact of_decide_eq_false hwire (hordered _ m hm [1])

end Machine

end PrimeServer
