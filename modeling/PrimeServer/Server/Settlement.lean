import PrimeServer.Server.Interrupts
import PrimeServer.Server.Responses

/-!
# The end of a request

A request is at its end when a response was sent for it or its client has hung up. When its result comes, it is
at its end, also if it is not on the books any more: it is taken off them only for one of these reasons.

## Main results

* `keepsBooks_addressed`: responses are for the clients that sent the requests;
* `Machine.atEnd_result`: when its result has come, a request is at its end.
-/

namespace PrimeServer

variable {σ ρ ι : Type} {π : Protocol σ ρ ι}

/-! ### The clients of responses -/

/-- The requests on the books and the responses belong to the clients that sent the requests. -/
structure Addressed (s : Server σ ι) (wire : List Action) : Prop where
  /-- A request in progress belongs to the client that sent it. -/
  requests : ∀ key client, s.requests.find key = some client → .accepted key client ∈ wire
  /-- A response goes to the client that sent the request. -/
  responses : ∀ key client text result, .response key client text result ∈ wire → .accepted key client ∈ wire

/-- A server that has just started has accepted nothing. -/
theorem addressed_start : Addressed (Server.start : Server σ ι) [] where
  requests _ _ hfind := by simp [Server.start] at hfind
  responses _ _ _ _ hresponse := by cases hresponse

/-- Nothing comes onto the books. -/
theorem Addressed.append {s t : Server σ ι} {wire actions : List Action} (h : Addressed s wire)
    (hrequests : ∀ key client, t.requests.find key = some client → s.requests.find key = some client)
    (hresponses : ∀ key client text result, .response key client text result ∈ actions →
      s.requests.find key = some client) : Addressed t (wire ++ actions) where
  requests key client hfind := List.mem_append_left _ (h.requests key client (hrequests key client hfind))
  responses key client text result hresponse := by
    rcases List.mem_append.mp hresponse with hold | hnew
    · exact List.mem_append_left _ (h.responses key client text result hold)
    · exact List.mem_append_left _ (h.requests key client (hresponses key client text result hnew))

/-- `dequeue` puts nothing on the books. -/
theorem Server.Dequeues.find_of_find {s : Server σ ι} {info : ι} {response : Bytes} {sends : DequeueSends}
    {outcome : Dequeued σ ι} {actions : List Action} (h : s.Dequeues π info response sends (outcome, actions))
    {key : UInt64} {client : Frame} (hfind : (outcome.server s).requests.find key = some client) :
    s.requests.find key = some client := by
  have hforget : ∀ {t : Server σ ι}, t.requests = s.requests →
      (t.forget (π.key info)).requests.find key = some client → s.requests.find key = some client := by
    intro t hsame hfind
    rw [forget_requests, UnorderedMap.find_erase, hsame] at hfind
    split_ifs at hfind
    exact hfind
  cases h with
  | unknown | responseThrew | closeThrew | undefined => exact hfind
  | kept | notClosed | closed => exact hforget rfl hfind

/-- What `dequeue` sends is for the client on the books. -/
theorem Server.Dequeues.find_of_response {s : Server σ ι} {info : ι} {response : Bytes} {sends : DequeueSends}
    {outcome : Dequeued σ ι} {actions : List Action} (h : s.Dequeues π info response sends (outcome, actions))
    {key : UInt64} {client : Frame} {text : Bytes} {result : SendResult}
    (hresponse : .response key client text result ∈ actions) : s.requests.find key = some client := by
  have hclient : ∀ {owner : Frame} {later : List Action}, s.requests.find (π.key info) = some owner →
      (∀ key client text result, .response key client text result ∉ later) →
        .response key client text result ∈ .response (π.key info) owner response sends.response :: later →
          s.requests.find key = some client := by
    intro owner later hfind hlater hmem
    obtain ⟨rfl, rfl, -⟩ := Action.response.inj ((List.mem_cons.mp hmem).resolve_right (hlater _ _ _ _))
    exact hfind
  cases h with
  | unknown => cases hresponse
  | responseThrew hfind | kept hfind | closeThrew hfind | notClosed hfind =>
    exact hclient hfind (by simp) hresponse
  | closed hcloses | undefined hcloses => exact hclient hcloses.1 (by simp) hresponse

/-- Each of the bookkeeping functions keeps every request addressed. -/
theorem keepsBooks_addressed : KeepsBooks π (.free σ ι) Addressed where
  quiet hs hbooks hinert := by
    refine hs.append (fun key client hfind => hbooks.requests ▸ hfind) fun key client text result hmem => ?_
    exact absurd (hinert _ hmem) (by simp [Action.Inert])
  opened hs _ _ := hs.append (fun _ _ => id) (by simp)
  hungUp hs _ _ := by
    refine hs.append (fun key client hfind => ?_) (by simp)
    -- the requests that are left were there before
    rw [Server.destroy_requests, Server.find_requests_foldl_forget] at hfind
    split_ifs at hfind
    exact hfind
  remembered {s wire client session info actions} hs _ _ hinert := by
    -- what is inert is no response
    have hbefore : Addressed s (wire ++ actions) := by
      refine hs.append (fun _ _ => id) fun key client text result hmem => ?_
      exact absurd (hinert _ hmem) (by simp [Action.Inert])
    constructor
    · intro key owner hfind
      rcases Server.of_find_requests_remember hfind with hold | ⟨rfl, rfl⟩
      · exact List.mem_append_left _ (hbefore.requests key owner hold)
      · exact List.mem_append_right _ (List.mem_singleton_self _)
    · intro key owner text result hresponse
      have hold : .response key owner text result ∈ wire ++ actions := by simpa using hresponse
      exact List.mem_append_left _ (hbefore.responses key owner text result hold)
  dequeued hs _ hspec :=
    hs.append (fun _ _ => hspec.find_of_find) fun _ _ _ _ => hspec.find_of_response
  disconnected hs _ _ := by
    rw [List.append_assoc]
    exact hs.append (fun _ _ => id) (by simp)

/-! ### The end of a request -/

/-- A request is at its end for its client: the send of a response for it has returned, be it with `false` as the
socket was full, or the client has hung up. A send that throws, which is what it does for a connection that no
longer exists, ends no request. -/
def AtEnd (key : UInt64) (client : Frame) (wire : List Action) : Prop :=
  (∃ text result, result ≠ .threw ∧ .response key client text result ∈ wire) ∨ .hungUp client ∈ wire

/-- A request stays at its end. -/
theorem AtEnd.mono {key : UInt64} {client : Frame} {wire wire' : List Action} (h : AtEnd key client wire)
    (hwire : ∀ a ∈ wire, a ∈ wire') : AtEnd key client wire' := by
  rcases h with ⟨text, result, hresult, hresponse⟩ | hhungUp
  · exact Or.inl ⟨text, result, hresult, hwire _ hresponse⟩
  · exact Or.inr (hwire _ hhungUp)

/-- Where each key is accepted for one client, a request that is released is at its end for this client. -/
theorem atEnd_of_released {s : Server σ ι} {wire : List Action} (haddressed : Addressed s wire)
    (honce : AcceptedOnce wire) {key : UInt64} {client : Frame} (haccepted : .accepted key client ∈ wire)
    (h : Released key wire) : AtEnd key client wire := by
  rcases h with ⟨action, hmem, hanswers⟩ | ⟨action, hmem, hwithdrawn⟩
  · -- the response went to the client for which the key was accepted
    cases action with
    | response key' owner text result =>
      obtain ⟨rfl, hresult⟩ : key' = key ∧ result ≠ .threw := by simpa [Action.answers] using hanswers
      obtain rfl := honce _ _ _ (haddressed.responses _ _ _ _ hmem) haccepted
      exact Or.inl ⟨text, result, hresult, hmem⟩
    | opened | hungUp | accepted | rejection | closed | interrupt | forwarded => cases hanswers
  · cases action with
    | accepted key' owner =>
      obtain ⟨rfl, hhungUp⟩ : key' = key ∧ .hungUp owner ∈ wire := by
        simpa [Action.withdrawn] using hwithdrawn
      obtain rfl := honce _ _ _ hmem haccepted
      exact Or.inr hhungUp
    | opened | hungUp | response | rejection | closed | interrupt | forwarded => cases hwithdrawn

/-- A request on the books is answered. -/
theorem Server.Dequeues.response_mem {s : Server σ ι} {info : ι} {response : Bytes} {sends : DequeueSends}
    {outcome : Dequeued σ ι} {actions : List Action} (h : s.Dequeues π info response sends (outcome, actions))
    {client : Frame} (hfind : s.requests.find (π.key info) = some client) :
    .response (π.key info) client response sends.response ∈ actions := by
  cases h with
  | unknown hnone => cases hfind.symm.trans hnone
  | responseThrew hfound | kept hfound | closeThrew hfound | notClosed hfound =>
    obtain rfl := Option.some.inj (hfind.symm.trans hfound)
    exact List.mem_cons_self
  | closed hcloses | undefined hcloses =>
    obtain rfl := Option.some.inj (hfind.symm.trans hcloses.1)
    exact List.mem_cons_self

/-- When its result has come, a request is at its end. -/
theorem Machine.atEnd_result {m : Machine σ ρ ι} (hrecorded : Recorded m.server m.wire)
    (haddressed : Addressed m.server m.wire) (honce : AcceptedOnce m.wire) {info : ι} {client : Frame}
    (haccepted : .accepted (π.key info) client ∈ m.wire) (response : Bytes) {sends : DequeueSends}
    (hsends : sends.response ≠ .threw) : AtEnd (π.key info) client (m.result π info response sends).wire := by
  have hspec := m.result_spec π info response sends
  generalize m.result π info response sends = t at hspec ⊢
  cases hspec with
  | returned hd | threw hd | undefined hd =>
    have hdequeues := Server.dequeues_of_eq hd
    cases hfind : m.server.requests.find (π.key info) with
    | none =>
      -- it was taken off the books before
      have hreleased := (hrecorded.waiting _ client haccepted).resolve_left (not_not.mpr hfind)
      exact (atEnd_of_released haddressed honce haccepted hreleased).mono fun _ => List.mem_append_left _
    | some owner =>
      obtain rfl := honce _ _ _ (haddressed.requests _ owner hfind) haccepted
      exact Or.inl ⟨response, _, hsends, List.mem_append_right _ (hdequeues.response_mem hfind)⟩

end PrimeServer
