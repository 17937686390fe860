import PrimeServer.Server.Books
import PrimeServer.Server.Http
import PrimeServer.Server.Netstring

/-!
# Timeouts

The history holds the infos of all requests that were remembered, in the order in which they came. With
a clock that does not go back this is the order of their time stamps, and the infos of the requests that
are being worked on are all in it. So the requests that are too old can be found at its front.

The behaviour of the conversion of a time to `uint32_t` is defined for the times that fit only.

## Main results

* `Machine.Ages`: all that a step can do to the history;
* `Machine.timeouts_correct`: `handle_timeouts` answers and drops the requests that are too old, and no
  others.
-/

namespace PrimeServer

open Transition

/-- The time stamp in a key. -/
def stampOf (key : UInt64) : ℕ := (key >>> 32).toNat

/-- The time stamp can be read back from the key. -/
theorem stampOf_key (id stamp : UInt32) :
    stampOf (id.toUInt64 ||| (stamp.toUInt64 <<< 32)) = stamp.toNat := by
  -- the id fills the low half of the key, and the time stamp the high half
  have hid : id.toNat < 2 ^ 32 := id.toNat_lt
  have hstamp : stamp.toNat < 2 ^ 32 := stamp.toNat_lt
  have hlow : id.toNat >>> 32 = 0 := by
    rw [Nat.shiftRight_eq_div_pow]
    exact Nat.div_eq_of_lt hid
  have hfits : stamp.toNat <<< 32 < 2 ^ 64 := by
    rw [Nat.shiftLeft_eq]
    omega
  simp only [stampOf, UInt64.toNat_shiftRight, UInt64.toNat_or, UInt64.toNat_shiftLeft,
    UInt32.toNat_toUInt64]
  show (id.toNat ||| (stamp.toNat <<< 32) % 2 ^ 64) >>> 32 = stamp.toNat
  rw [Nat.mod_eq_of_lt hfits, Nat.shiftRight_or_distrib, hlow, Nat.zero_or,
    Nat.shiftLeft_shiftRight]

/-- A request info has the time at which it was made, and its key has it, too. -/
structure Protocol.Stamped {σ ρ ι : Type} (π : Protocol σ ρ ι) : Prop where
  /-- The time stamp is the time of the call, as far as it fits. -/
  toInfo : ∀ parsed id now, π.timeStamp (π.toInfo parsed id now) = .ofNat now
  /-- The time stamp can be read off the key. -/
  key : ∀ info, stampOf (π.key info) = (π.timeStamp info).toNat

/-- The key of an http request holds its time stamp. -/
theorem httpProtocol_stamped (curl : Curl) : (httpProtocol curl).Stamped where
  toInfo _ _ _ := rfl
  key info := stampOf_key info.id info.timeStamp

/-- The key of a netstring holds its time stamp. -/
theorem netstringProtocol_stamped : netstringProtocol.Stamped where
  toInfo _ _ _ := rfl
  key info := stampOf_key info.id info.timeStamp

/-- The time that the program reads off the clock. -/
def ServerInput.time {ι : Type} : ServerInput ι → Option ℕ
  | .next now _ _ _ | .timeouts now => some now
  | .result _ _ _ | .message _ _ _ | .disconnect _ | .expire _ => none

/-- The clock does not go back, and the times at which requests arrive fit the time stamps. -/
structure Clock {ι : Type} (inputs : List (ServerInput ι)) : Prop where
  /-- The clock is read at times that do not decrease. -/
  mono : (inputs.filterMap ServerInput.time).Pairwise (· ≤ ·)
  /-- Time stamps have 32 bits. -/
  fits : ∀ now info text sends, .next now info text sends ∈ inputs → now < 2 ^ 32

/-- A clock that does not go back has not gone back before. -/
theorem Clock.init {ι : Type} {inputs : List (ServerInput ι)} {input : ServerInput ι}
    (h : Clock (inputs ++ [input])) : Clock inputs where
  mono := by
    have hmono := h.mono
    rw [List.filterMap_append] at hmono
    exact (List.pairwise_append.mp hmono).1
  fits now info text sends hmem := h.fits now info text sends (List.mem_append_left _ hmem)

/-- A time read last is not less than those before it. -/
theorem Clock.le_last {ι : Type} {inputs : List (ServerInput ι)} {input : ServerInput ι}
    (h : Clock (inputs ++ [input])) {now : ℕ} (hnow : input.time = some now) {before : ℕ}
    (hbefore : before ∈ inputs.filterMap ServerInput.time) : before ≤ now := by
  have hmono := h.mono
  rw [List.filterMap_append] at hmono
  refine (List.pairwise_append.mp hmono).2.2 before hbefore now ?_
  simp [hnow]

variable {σ ρ ι : Type} {π : Protocol σ ρ ι} {config : ServerConfig ρ}

/-- The action is a response to the request. -/
def Action.respondsTo (key : UInt64) : Action → Bool
  | .response key' _ _ _ => key' = key
  | _ => false

/-- An interrupt responds to nothing. -/
@[simp]
theorem Action.respondsTo_interrupt (key key' : UInt64) : respondsTo key (.interrupt key') = false :=
  rfl

@[simp]
theorem Action.respondsTo_closed (key : UInt64) (client : Frame) (result : SendResult) :
    respondsTo key (.closed client result) = false := rfl

@[simp]
theorem Action.respondsTo_response (key key' : UInt64) (client : Frame) (response : Bytes)
    (result : SendResult) :
    respondsTo key (.response key' client response result) = decide (key' = key) := rfl

/-! ### The history -/

namespace Server

variable {s t : Server σ ι} {info : ι} {response : Bytes} {sends : DequeueSends} {client : Frame}

/-- Forgetting keys leaves the history. -/
@[simp]
theorem foldl_forget_requestHistory (keys : List UInt64) (s : Server σ ι) :
    (keys.foldl forget s).requestHistory = s.requestHistory := by
  induction keys generalizing s with
  | nil => rfl
  | cons k keys ih =>
    rw [List.foldl_cons, ih]
    rfl

/-- The requests of `t` are among those of `s`. -/
def Fewer (s t : Server σ ι) : Prop :=
  ∀ key client, t.requests.find key = some client → s.requests.find key = some client

/-- Nothing was added. -/
theorem Fewer.refl (s : Server σ ι) : s.Fewer s := fun _ _ h => h

/-- Forgetting a key adds no request. -/
theorem fewer_forget (s : Server σ ι) (key : UInt64) : s.Fewer (s.forget key) := by
  intro key' client hfind
  rw [forget_requests, UnorderedMap.find_erase] at hfind
  split_ifs at hfind
  exact hfind

/-- `dequeue` takes no part in the history, and adds no request. -/
theorem Dequeues.history {outcome : Dequeued σ ι} {actions : List Action}
    (h : s.Dequeues π info response sends (outcome, actions)) :
    (outcome.server s).requestHistory = s.requestHistory ∧ s.Fewer (outcome.server s) := by
  cases h with
  | unknown | responseThrew | closeThrew | undefined => exact ⟨rfl, .refl s⟩
  | kept | notClosed => exact ⟨rfl, s.fewer_forget _⟩
  | closed => exact ⟨rfl, s.fewer_forget _⟩

/-- A request that was dequeued is not among the requests. -/
theorem Dequeues.forgotten {actions : List Action}
    (h : s.Dequeues π info response sends (.returned t, actions)) (key : UInt64) :
    t.requests.find key = if key = π.key info then none else s.requests.find key := by
  cases h with
  | unknown hfind =>
    split_ifs with hkey
    · rw [hkey, hfind]
    · rfl
  | kept | notClosed | closed => exact UnorderedMap.find_erase _ _ _

/-- `dequeue` answers its request if it is being worked on, and no other. -/
theorem Dequeues.responses {actions : List Action}
    (h : s.Dequeues π info response sends (.returned t, actions)) (key : UInt64) :
    actions.filter (Action.respondsTo key) =
      if key = π.key info then
        (s.requests.find key).toList.map fun client =>
          .response key client response sends.response
      else [] := by
  -- the interrupts for a session that is closed are no responses
  have hinterrupts : ∀ keys : List UInt64,
      (keys.map Action.interrupt).filter (Action.respondsTo key) = [] := by
    intro keys
    simp [List.filter_eq_nil_iff]
  by_cases hkey : key = π.key info
  · subst hkey
    rw [if_pos rfl]
    cases h with
    | unknown hfind => simp [hfind]
    | kept hfind | notClosed hfind => simp [hfind]
    | closed hcloses => simp [hcloses.1, hinterrupts]
  · rw [if_neg hkey]
    cases h with
    | unknown => rfl
    | kept | notClosed => simp [Ne.symm hkey]
    | closed => simp [Ne.symm hkey, hinterrupts]

end Server

namespace Machine

variable {m t : Machine σ ρ ι}

/-- What a step can do to the history and to the requests that are being worked on. -/
inductive Ages (π : Protocol σ ρ ι) (s t : Server σ ι) : ServerInput ι → Prop
  /-- The history stays as it is, and no request comes in. -/
  | kept {input : ServerInput ι} (hhistory : t.requestHistory = s.requestHistory)
      (hrequests : s.Fewer t) : Ages π s t input
  /-- The newest request is remembered. -/
  | remembered {parsed : ρ} {id : UInt32} {now : ℕ} {infoSent textSent : SendResult}
      {sends : DequeueSends}
      (hhistory : t.requestHistory = s.requestHistory ++ [π.toInfo parsed id now])
      (hrequests : ∀ key client, t.requests.find key = some client →
        key = π.key (π.toInfo parsed id now) ∨ s.requests.find key = some client) :
      Ages π s t (.next now infoSent textSent sends)
  /-- The oldest request is dropped. -/
  | dropped {info : ι} {sends : DequeueSends} (hhistory : s.requestHistory = info :: t.requestHistory)
      (hrequests : ∀ key, t.requests.find key =
        if key = π.key info then none else s.requests.find key) :
      Ages π s t (.expire sends)

/-- The next id takes no part in this. -/
theorem Ages.of_count {s t : Server σ ι} {input : ServerInput ι} (h : Ages π s.count t input) :
    Ages π s t input := by
  cases h with
  | kept hhistory hrequests => exact .kept hhistory hrequests
  | remembered hhistory hrequests => exact .remembered hhistory hrequests
  | dropped hhistory hrequests => exact .dropped hhistory hrequests

/-- A request that is remembered goes to the end of the history. -/
theorem remember_ages (s : Server σ ι) (client : Frame) (session : Session σ) (info : ι) :
    (s.remember π client session info).requestHistory = s.requestHistory ++ [info] ∧
      ∀ key owner, (s.remember π client session info).requests.find key = some owner →
        key = π.key info ∨ s.requests.find key = some owner := by
  refine ⟨rfl, fun key owner hfind => ?_⟩
  rcases Server.of_find_requests_remember hfind with hold | ⟨hkey, -⟩
  · exact Or.inr hold
  · exact Or.inl hkey

/-- A request that was forwarded has the time of its round. -/
theorem forward_ages {client : Frame} {parsed : ρ} {rest : List ρ} {id : UInt32} {now : ℕ}
    (hforwards : m.Forwards π client parsed rest (π.toInfo parsed id now) t)
    (infoSent textSent : SendResult) (sends : DequeueSends) :
    Ages π m.server t.server (.next now infoSent textSent sends) := by
  cases hforwards with
  | threw | again | undefined => exact .kept rfl (.refl _)
  | @sent text session =>
    obtain ⟨hhistory, hrequests⟩ :=
      remember_ages (π := π) m.server client session (π.toInfo parsed id now)
    exact .remembered hhistory hrequests

/-- A health check has the time of its round. -/
theorem answer_ages {client : Frame} {parsed : ρ} {rest : List ρ} {id : UInt32} {now : ℕ}
    {sends : DequeueSends} (hanswers : m.Answers π config client rest (π.toInfo parsed id now) sends t)
    (infoSent textSent : SendResult) :
    Ages π m.server t.server (.next now infoSent textSent sends) := by
  cases hanswers with
  | destroyed => exact .kept rfl (.refl _)
  | @returned session _ _ _ hd | @threw session _ _ _ hd | @undefined session _ _ hd =>
    obtain ⟨hhistory, hrequests⟩ :=
      remember_ages (π := π) m.server client session (π.toInfo parsed id now)
    -- the answer takes at most requests away
    obtain ⟨hsame, hfewer⟩ := (Server.dequeues_of_eq hd).history
    exact .remembered (hsame.trans hhistory) fun key owner hfind =>
      hrequests key owner (hfewer key owner hfind)

/-- A round of `handle_timeouts` takes the first of the history. -/
theorem expire_ages (m : Machine σ ρ ι) (dropDead : ℤ) (sends : DequeueSends) :
    Ages π m.server (m.expire π dropDead sends).server (.expire sends) := by
  have hspec := m.expire_spec π dropDead sends
  generalize m.expire π dropDead sends = t at hspec ⊢
  cases hspec with
  | finished | young | undefined => exact .kept rfl (.refl _)
  | returned hhistory _ hd => exact .dropped hhistory (Server.dequeues_of_eq hd).forgotten
  | threw _ _ hd =>
    obtain ⟨hsame, hfewer⟩ := (Server.dequeues_of_eq hd).history
    exact .kept hsame hfewer

/-- A result leaves the history. -/
theorem result_ages (m : Machine σ ρ ι) (info : ι) (response : Bytes) (sends : DequeueSends) :
    Ages π m.server (m.result π info response sends).server (.result info response sends) := by
  have hspec := m.result_spec π info response sends
  generalize m.result π info response sends = t at hspec ⊢
  cases hspec with
  | returned hd | threw hd =>
    obtain ⟨hsame, hfewer⟩ := (Server.dequeues_of_eq hd).history
    exact .kept hsame hfewer
  | undefined => exact .kept rfl (.refl _)

/-- A message of a client leaves the history. -/
theorem handleRequest_ages (m : Machine σ ρ ι) (client : Frame) (body : Bytes) (rejection : SendResult) :
    Ages π m.server (m.handleRequest π config client body rejection).server
      (.message client body rejection) := by
  have hspec := m.handleRequest_spec π config client body rejection
  generalize m.handleRequest π config client body rejection = t at hspec ⊢
  cases hspec with
  | ignored | opened | parsed | rejectionThrew | rejected | threw => exact .kept rfl (.refl _)
  | hungUp =>
    -- hanging up takes the requests of the session away
    refine .kept (Server.foldl_forget_requestHistory _ _) fun key owner hfind => ?_
    rw [Server.destroy_requests, Server.find_requests_foldl_forget] at hfind
    split_ifs at hfind
    exact hfind

/-- A round of `enqueue` adds at most the request of its time. -/
theorem enqueue_ages (m : Machine σ ρ ι) (client : Frame) (parsed : ρ) (rest : List ρ) (now : ℕ)
    (info text : SendResult) (sends : DequeueSends) :
    Ages π m.server (m.enqueue π config client parsed rest now info text sends).server
      (.next now info text sends) := by
  have hspec := m.enqueue_spec π config client parsed rest now info text sends
  generalize m.enqueue π config client parsed rest now info text sends = t at hspec ⊢
  cases hspec with
  | threw => exact .kept rfl (.refl _)
  | forwards _ hforwards => exact (forward_ages hforwards info text sends).of_count
  | answers _ hanswers => exact (answer_ages hanswers info text).of_count

/-- A rejection leaves the history. -/
theorem disconnect_ages (m : Machine σ ρ ι) (client : Frame) (close : SendResult) :
    Ages π m.server (m.disconnect client close).server (.disconnect close) := by
  have hspec := m.disconnect_spec client close
  generalize m.disconnect client close = t at hspec ⊢
  cases hspec <;> exact .kept rfl (.refl _)

/-- What one step does to the history and to the requests. -/
theorem ages_of_step {input : ServerInput ι} (hstep : m.step π config input = some t) :
    Ages π m.server t.server input := by
  cases stepped_of_step hstep with
  | result info response sends => exact result_ages m info response sends
  | message client body rejection => exact handleRequest_ages m client body rejection
  | enqueue now info text sends => exact enqueue_ages m _ _ _ now info text sends
  | enqueued | timeouts => exact .kept rfl (.refl _)
  | disconnect close => exact disconnect_ages m _ close
  | expire sends => exact expire_ages m _ sends

/-- The requests that are being worked on are in the history, which is in the order of its time stamps.
The time stamps were read off the clock. -/
structure Aged (π : Protocol σ ρ ι) (times : List ℕ) (s : Server σ ι) : Prop where
  /-- A request in progress is in the history. -/
  recorded : ∀ key client, s.requests.find key = some client → key ∈ s.requestHistory.map π.key
  /-- The history begins with the oldest request. -/
  sorted : s.requestHistory.Pairwise fun a b => (π.timeStamp a).toNat ≤ (π.timeStamp b).toNat
  /-- The time stamps are times at which the clock was read. -/
  read : ∀ info ∈ s.requestHistory, (π.timeStamp info).toNat ∈ times

/-- One step keeps the history in the order of its times. -/
theorem Aged.step (hπ : π.Stamped) {inputs : List (ServerInput ι)} {input : ServerInput ι}
    (hclock : Clock (inputs ++ [input])) (hm : Aged π (inputs.filterMap ServerInput.time) m.server)
    (hstep : m.step π config input = some t) :
    Aged π ((inputs ++ [input]).filterMap ServerInput.time) t.server := by
  have hread : ∀ stamp ∈ inputs.filterMap ServerInput.time,
      stamp ∈ (inputs ++ [input]).filterMap ServerInput.time := by
    intro stamp hstamp
    rw [List.filterMap_append]
    exact List.mem_append_left _ hstamp
  cases ages_of_step hstep with
  | kept hhistory hrequests =>
    refine ⟨fun key client hfind => ?_, ?_, fun info hinfo => ?_⟩
    · rw [hhistory]
      exact hm.recorded key client (hrequests key client hfind)
    · rw [hhistory]
      exact hm.sorted
    · rw [hhistory] at hinfo
      exact hread _ (hm.read info hinfo)
  | @remembered parsed id now infoSent textSent sends hhistory hrequests =>
    have hnow : now < 2 ^ 32 := hclock.fits now infoSent textSent sends (by simp)
    have hstamp : (π.timeStamp (π.toInfo parsed id now)).toNat = now := by
      rw [hπ.toInfo, UInt32.toNat_ofNat_of_lt' hnow]
    refine ⟨fun key client hfind => ?_, ?_, fun info hinfo => ?_⟩
    · rw [hhistory, List.map_append]
      rcases hrequests key client hfind with rfl | hknown
      · exact List.mem_append_right _ (List.mem_singleton_self _)
      · exact List.mem_append_left _ (hm.recorded key client hknown)
    · rw [hhistory, List.pairwise_append]
      refine ⟨hm.sorted, List.pairwise_singleton _ _, fun info hinfo newest hnewest => ?_⟩
      -- the newest request has the time that was read last
      obtain rfl := List.mem_singleton.mp hnewest
      rw [hstamp]
      exact hclock.le_last rfl (hm.read info hinfo)
    · rw [hhistory] at hinfo
      rcases List.mem_append.mp hinfo with hold | hnew
      · exact hread _ (hm.read info hold)
      · rw [List.mem_singleton.mp hnew, hstamp]
        simp [ServerInput.time]
  | @dropped info sends hhistory hrequests =>
    have hsorted := hm.sorted
    rw [hhistory] at hsorted
    refine ⟨fun key client hfind => ?_, (List.pairwise_cons.mp hsorted).2, fun info' hinfo => ?_⟩
    · rw [hrequests] at hfind
      split_ifs at hfind with hkey
      have hrecorded := hm.recorded key client hfind
      rw [hhistory, List.map_cons, List.mem_cons] at hrecorded
      exact hrecorded.resolve_left hkey
    · exact hread _ (hm.read info' (by simp [hhistory, hinfo]))

/-- In every run under a clock that does not go back the history is in the order of its times. -/
theorem aged_of_run (hπ : π.Stamped) {inputs : List (ServerInput ι)} (hclock : Clock inputs)
    (hrun : run (step π config) .start inputs = some m) :
    Aged π (inputs.filterMap ServerInput.time) m.server := by
  refine run_induction
    (P := fun inputs m => Clock inputs → Aged π (inputs.filterMap ServerInput.time) m.server)
    (fun _ => ⟨?_, .nil, ?_⟩) (fun inputs t input u _ ih hstep hclock => ?_) hrun hclock
  · intro key client hfind
    simp [Machine.start, Server.start] at hfind
  · intro info hinfo
    simp [Machine.start, Server.start] at hinfo
  · exact (ih hclock.init).step hπ hclock hstep

/-! ### The loop of `handle_timeouts` -/

/-- The call of `dequeue` that the step makes does not throw, and a connection that is closed takes no
frames. -/
def Delivers (π : Protocol σ ρ ι) (config : ServerConfig ρ) (m : Machine σ ρ ι)
    (input : ServerInput ι) : Prop :=
  ∀ call ∈ m.call π config input,
    call.sends.response ≠ .threw ∧ call.sends.close ≠ .threw ∧
      ∀ client, call.server.requests.find (π.key call.info) = some client →
        call.server.sessions.find client = none → call.sends.close = .again

/-- The sends of a timeout are those of its input. -/
theorem sends_of_call_expire {sends : DequeueSends} {call : Call σ ι}
    (hcall : call ∈ m.call π config (.expire sends)) : call.sends = sends := by
  cases calls_of_call hcall with
  | expire => rfl

/-- Requests have been dropped from the front of the history. Each of them that was being worked on has
had one response. -/
structure Drops (π : Protocol σ ρ ι) (m t : Machine σ ρ ι) (dropped : List ι) : Prop where
  /-- What was dropped was at the front of the history. -/
  history : m.server.requestHistory = dropped ++ t.server.requestHistory
  /-- Of the requests in progress those that were dropped are gone. -/
  requests : ∀ key, t.server.requests.find key =
    if key ∈ dropped.map π.key then none else m.server.requests.find key
  /-- One response was sent for each of those, and none for any other. -/
  responses : ∃ actions, t.wire = m.wire ++ actions ∧ ∀ key,
    (key ∈ dropped.map π.key → ∀ client, m.server.requests.find key = some client →
      ∃ info result, π.key info = key ∧ actions.filter (Action.respondsTo key) =
        [.response key client (π.timeout info) result]) ∧
    (key ∉ dropped.map π.key ∨ m.server.requests.find key = none →
      actions.filter (Action.respondsTo key) = [])

/-- Where nothing was dropped nothing has changed. -/
theorem Drops.none {m t : Machine σ ρ ι} (hserver : t.server = m.server) (hwire : t.wire = m.wire) :
    Drops π m t [] where
  history := by rw [hserver]; rfl
  requests key := by simp [hserver]
  responses := ⟨[], by simp [hwire], fun key => ⟨by simp, fun _ => rfl⟩⟩

/-- Dropping in two goes. -/
theorem Drops.trans {m u t : Machine σ ρ ι} {first rest : List ι} (hfirst : Drops π m u first)
    (hrest : Drops π u t rest) : Drops π m t (first ++ rest) where
  history := by rw [hfirst.history, hrest.history, List.append_assoc]
  requests key := by
    rw [hrest.requests, hfirst.requests, List.map_append]
    -- a key that was dropped twice is gone once
    by_cases hf : key ∈ first.map π.key <;> by_cases hr : key ∈ rest.map π.key <;> simp [hf, hr]
  responses := by
    obtain ⟨as, has, hfirst'⟩ := hfirst.responses
    obtain ⟨bs, hbs, hrest'⟩ := hrest.responses
    refine ⟨as ++ bs, by rw [hbs, has, List.append_assoc], fun key => ?_⟩
    obtain ⟨hanswered, hsilent⟩ := hfirst' key
    obtain ⟨hanswered', hsilent'⟩ := hrest' key
    rw [List.filter_append, List.map_append, List.mem_append]
    by_cases hf : key ∈ first.map π.key
    · -- what was dropped first is answered then, and no more
      have hgone : u.server.requests.find key = Option.none := by rw [hfirst.requests, if_pos hf]
      rw [hsilent' (Or.inr hgone), List.append_nil]
      refine ⟨fun _ => hanswered hf, fun hno => hsilent ?_⟩
      rcases hno with hno | hno
      · exact absurd (Or.inl hf) hno
      · exact Or.inr hno
    · -- what was not dropped first is left for the rest
      have hsame : u.server.requests.find key = m.server.requests.find key := by
        rw [hfirst.requests, if_neg hf]
      rw [hsilent (Or.inl hf), List.nil_append, ← hsame]
      refine ⟨fun hr => hanswered' (hr.resolve_left hf), fun hno => hsilent' ?_⟩
      rcases hno with hno | hno
      · exact Or.inl fun hr => hno (Or.inr hr)
      · exact Or.inr hno

/-- A round of the loop drops the oldest request if it is too old. -/
theorem step_expire_old {dropDead : ℤ} {info : ι} {history : List ι} {sends : DequeueSends}
    (hcontrol : m.control = .expiring dropDead) (hhistory : m.server.requestHistory = info :: history)
    (hold : dropDead > 0 ∧ (π.timeStamp info).toNat < dropDead)
    (hdelivers : Delivers π config m (.expire sends)) :
    ∃ u, m.step π config (.expire sends) = some u ∧ u.control = .expiring dropDead ∧
      Drops π m u [info] := by
  obtain ⟨hresponse, hclose, hclosed⟩ :=
    hdelivers _ (call_expire hcontrol hhistory hold sends)
  have hstep : m.step π config (.expire sends) = some (m.expire π dropDead sends) := by
    simp only [Machine.step, hcontrol]
  refine ⟨_, hstep, ?_⟩
  have hspec := m.expire_spec π dropDead sends
  generalize m.expire π dropDead sends = u at hspec ⊢
  cases hspec with
  | finished hnil => cases hhistory.symm.trans hnil
  | young hfound hyoung =>
    obtain ⟨rfl, -⟩ := List.cons.inj (hhistory.symm.trans hfound)
    exact absurd hold hyoung
  | threw hfound _ hd =>
    obtain ⟨rfl, -⟩ := List.cons.inj (hhistory.symm.trans hfound)
    cases Server.dequeues_of_eq hd with
    | responseThrew hfind hthrew => exact absurd hthrew hresponse
    | closeThrew hfind hr hk hthrew => exact absurd hthrew hclose
  | undefined hfound _ hd =>
    obtain ⟨rfl, -⟩ := List.cons.inj (hhistory.symm.trans hfound)
    -- a closed connection does not take the frame that closes it
    cases Server.dequeues_of_eq hd with
    | @undefined client hcloses hsession =>
      have hagain := hclosed client hcloses.1 hsession
      rw [hcloses.2.2.2] at hagain
      cases hagain
  | @returned _ _ server actions hfound _ hd =>
    obtain ⟨rfl, rfl⟩ := List.cons.inj (hhistory.symm.trans hfound)
    have hspec := Server.dequeues_of_eq hd
    refine ⟨hcontrol, hhistory, fun key => ?_,
      [.interrupt (π.key info)] ++ actions, List.append_assoc _ _ _, fun key => ?_⟩
    · simp [hspec.forgotten key]
    · rw [List.filter_append, hspec.responses key, List.map_singleton, List.mem_singleton]
      constructor
      · rintro rfl client hfind
        exact ⟨info, sends.response, rfl, by simp [hfind]⟩
      · rintro (hkey | hfind)
        · simp [hkey]
        · simp [hfind]

/-- The loop ends at the first request that is not too old. -/
theorem step_expire_young {dropDead : ℤ} {sends : DequeueSends}
    (hcontrol : m.control = .expiring dropDead)
    (hyoung : ∀ info ∈ m.server.requestHistory.head?, dropDead ≤ (π.timeStamp info).toNat) :
    m.step π config (.expire sends) = some { m with control := .serving } := by
  simp only [Machine.step, hcontrol, Machine.expire]
  cases hhistory : m.server.requestHistory with
  | nil => rfl
  | cons info history =>
    have hstamp : ¬((π.timeStamp info).toNat : ℤ) < dropDead :=
      Int.not_lt.mpr (hyoung info (by rw [hhistory]; rfl))
    simp only [hstamp, and_false, if_false]

/-- The loop ends after a round for each of the requests that it drops, and one more. -/
theorem exists_run_expire {dropDead : ℤ} (hpos : dropDead > 0) {rounds : List DequeueSends}
    (hcontrol : m.control = .expiring dropDead)
    (hrounds : m.server.requestHistory.length < rounds.length)
    (hdelivers : StepsMeet (step π config) m (rounds.map .expire) (Delivers π config)) :
    ∃ k t dropped, run (step π config) m ((rounds.take k).map .expire) = some t ∧
      t.control = .serving ∧ Drops π m t dropped ∧
      (∀ info ∈ dropped, (π.timeStamp info).toNat < dropDead) ∧
      ∀ info ∈ t.server.requestHistory.head?, dropDead ≤ (π.timeStamp info).toNat := by
  -- by induction on the rounds, with a request less in each
  induction rounds generalizing m with
  | nil => exact absurd hrounds (Nat.not_lt_zero _)
  | cons sends rounds ih =>
    rw [List.map_cons, stepsMeet_cons] at hdelivers
    obtain ⟨hfirst, hrest⟩ := hdelivers
    by_cases hyoung : ∀ info ∈ m.server.requestHistory.head?, dropDead ≤ (π.timeStamp info).toNat
    · -- no request is too old, and this round ends the loop
      have hstep : m.step π config (.expire sends) = some { m with control := .serving } :=
        step_expire_young hcontrol hyoung
      refine ⟨1, { m with control := .serving }, [], ?_, rfl, .none rfl rfl, nofun, hyoung⟩
      simp [run_cons, hstep]
    · -- the oldest request is too old, and one round drops it
      obtain ⟨info, hhead, hold⟩ : ∃ info ∈ m.server.requestHistory.head?,
          (π.timeStamp info).toNat < dropDead := by simpa using hyoung
      obtain ⟨history, hhistory⟩ := List.head?_eq_some_iff.mp hhead
      obtain ⟨u, hstep, hu, hdrops⟩ := step_expire_old hcontrol hhistory ⟨hpos, hold⟩ hfirst
      have hshorter : u.server.requestHistory.length < rounds.length := by
        have hlength := congrArg List.length hdrops.history
        simp only [List.length_append, List.length_singleton] at hlength
        rw [List.length_cons] at hrounds
        omega
      obtain ⟨k, t, dropped, hrun, ht, hrestDrops, hdropped, hleft⟩ := ih hu hshorter (hrest u hstep)
      refine ⟨k + 1, t, [info] ++ dropped, ?_, ht, hdrops.trans hrestDrops, ?_, hleft⟩
      · rw [List.take_succ_cons, List.map_cons, run_cons, hstep]
        exact hrun
      · intro info' hinfo
        rcases List.mem_append.mp hinfo with hinfo | hinfo
        · rw [List.mem_singleton.mp hinfo]
          exact hold
        · exact hdropped info' hinfo

/-- What `handle_timeouts` is for: the requests with a time stamp below the limit are answered once and
dropped, those with another one are kept. -/
structure TimesOut (π : Protocol σ ρ ι) (limit : ℤ) (m t : Machine σ ρ ι) : Prop where
  /-- No request in progress is older than the limit. -/
  young : ∀ key client, t.server.requests.find key = some client → limit ≤ stampOf key
  /-- Those that were not older are still in progress. -/
  kept : ∀ key client, m.server.requests.find key = some client → limit ≤ stampOf key →
    t.server.requests.find key = some client
  /-- Each that was older was answered once. -/
  answered : ∃ actions, t.wire = m.wire ++ actions ∧ ∀ key client,
    m.server.requests.find key = some client → stampOf key < limit →
      t.server.requests.find key = none ∧
      ∃ info result, π.key info = key ∧ actions.filter (Action.respondsTo key) =
        [.response key client (π.timeout info) result]

/-- What was dropped is what had timed out when the first that is left had not. -/
theorem Drops.timesOut (hπ : π.Stamped) {limit : ℤ} {times : List ℕ} (hm : Aged π times m.server)
    {dropped : List ι} (hdrops : Drops π m t dropped)
    (hdropped : ∀ info ∈ dropped, (π.timeStamp info).toNat < limit)
    (hleft : ∀ info ∈ t.server.requestHistory.head?, limit ≤ (π.timeStamp info).toNat) :
    TimesOut π limit m t := by
  have hsorted := hm.sorted
  rw [hdrops.history, List.pairwise_append] at hsorted
  -- the first of those that are left is the oldest of them
  have hallLeft : ∀ info ∈ t.server.requestHistory, limit ≤ (π.timeStamp info).toNat := by
    intro info hinfo
    cases hhistory : t.server.requestHistory with
    | nil =>
      rw [hhistory] at hinfo
      cases hinfo
    | cons first rest =>
      have hfirst := hleft first (by rw [hhistory]; rfl)
      rw [hhistory] at hinfo hsorted
      rcases List.mem_cons.mp hinfo with rfl | hrest
      · exact hfirst
      · have hle := (List.pairwise_cons.mp hsorted.2.1).1 info hrest
        omega
  -- the requests that are being worked on are dropped exactly if they are too old
  have hiff : ∀ key client, m.server.requests.find key = some client →
      (key ∈ dropped.map π.key ↔ stampOf key < limit) := by
    intro key client hfind
    constructor
    · intro hmem
      obtain ⟨info, hinfo, rfl⟩ := List.mem_map.mp hmem
      rw [hπ.key]
      exact hdropped info hinfo
    · intro hold
      have hrecorded := hm.recorded key client hfind
      rw [hdrops.history, List.map_append, List.mem_append] at hrecorded
      rcases hrecorded with hmem | hmem
      · exact hmem
      · obtain ⟨info, hinfo, rfl⟩ := List.mem_map.mp hmem
        rw [hπ.key] at hold
        exact absurd (hallLeft info hinfo) (Int.not_le.mpr hold)
  refine ⟨fun key client hfind => ?_, fun key client hfind hyoung => ?_, ?_⟩
  · rw [hdrops.requests] at hfind
    split_ifs at hfind with hmem
    exact Int.not_lt.mp fun hold => hmem ((hiff key client hfind).mpr hold)
  · have hmem : key ∉ dropped.map π.key := fun hmem =>
      Int.not_lt.mpr hyoung ((hiff key client hfind).mp hmem)
    rw [hdrops.requests, if_neg hmem, hfind]
  · obtain ⟨actions, hwire, hresponses⟩ := hdrops.responses
    refine ⟨actions, hwire, fun key client hfind hold => ?_⟩
    have hmem := (hiff key client hfind).mpr hold
    exact ⟨by rw [hdrops.requests, if_pos hmem], (hresponses key).1 hmem client hfind⟩

/-- Whatever happened before, `handle_timeouts` returns, has answered and dropped the requests that are
older than the timeout, and has kept the others. -/
theorem timeouts_correct (hπ : π.Stamped) {inputs : List (ServerInput ι)} (hclock : Clock inputs)
    (hrun : run (step π config) .start inputs = some m) (hserving : m.control = .serving) {now : ℕ}
    (hnow : config.requestTimeout.toNat < now) {rounds : List DequeueSends}
    (hrounds : m.server.requestHistory.length < rounds.length)
    (hdelivers : StepsMeet (step π config) m (.timeouts now :: rounds.map .expire)
      (Delivers π config)) :
    ∃ k t, run (step π config) m (.timeouts now :: (rounds.take k).map .expire) = some t ∧
      t.control = .serving ∧ TimesOut π (now - config.requestTimeout.toNat) m t := by
  -- the program does nothing unless the limit is positive
  have hpos : dropDead config now > 0 := by
    unfold dropDead
    omega
  have hstep : m.step π config (.timeouts now) =
      some { m with control := .expiring (dropDead config now) } := by
    simp only [Machine.step, hserving]
  rw [stepsMeet_cons] at hdelivers
  obtain ⟨k, t, dropped, hexpire, ht, hdrops, hdropped, hleft⟩ :=
    exists_run_expire (m := { m with control := .expiring (dropDead config now) }) hpos rfl hrounds
      (hdelivers.2 _ hstep)
  refine ⟨k, t, ?_, ht, ?_⟩
  · rw [run_cons, hstep]
    exact hexpire
  · have haged := aged_of_run hπ hclock hrun
    have hdrops' : Drops π m t dropped := ⟨hdrops.history, hdrops.requests, hdrops.responses⟩
    exact hdrops'.timesOut hπ haged hdropped hleft

/-- A client sends two requests, ten seconds apart. -/
def tenSecondsApart : List (ServerInput NetstringRequestInfo) :=
  [.message [1] [] .accepted,
    .message [1] (ascii "1:a,") .accepted,
    .next 100 .accepted .accepted ⟨.accepted, .accepted⟩,
    .next 100 .accepted .accepted ⟨.accepted, .accepted⟩,
    .message [1] (ascii "1:b,") .accepted,
    .next 110 .accepted .accepted ⟨.accepted, .accepted⟩,
    .next 110 .accepted .accepted ⟨.accepted, .accepted⟩]

/-- After eleven seconds the first of them has timed out. -/
theorem timeouts_correct_tenSecondsApart :
    ∃ m k t, run (step netstringProtocol unchecked) .start tenSecondsApart = some m ∧
      run (step netstringProtocol unchecked) m
        (.timeouts 111 :: ((List.replicate 3 ⟨.accepted, .again⟩).take k).map .expire) = some t ∧
      t.control = .serving ∧ TimesOut netstringProtocol (111 - 5) m t := by
  have hrun : (run (step netstringProtocol unchecked) .start tenSecondsApart).map
      (fun m => (m.control, m.server.requestHistory.length)) = some (.serving, 2) := by decide
  obtain ⟨m, hm, heq⟩ := Option.map_eq_some_iff.mp hrun
  obtain ⟨hserving, hlength⟩ := Prod.mk.inj heq
  have hclock : Clock tenSecondsApart := by
    refine ⟨by decide, fun now info text sends hmem => ?_⟩
    simp only [tenSecondsApart, List.mem_cons, ServerInput.next.injEq, reduceCtorEq, false_or,
      List.not_mem_nil, or_false] at hmem
    omega
  have hdelivers : StepsMeet (step netstringProtocol unchecked) m
      (.timeouts 111 :: (List.replicate 3 ⟨.accepted, .again⟩).map .expire)
      (Delivers netstringProtocol unchecked) := by
    -- no frame that closes a connection is taken
    refine (stepsMeet_of_forall (P := fun input => ∀ m : Machine _ _ _,
      Delivers netstringProtocol unchecked m input) ?_).imp fun t _ h => h t
    intro input hinput m call hcall
    have hsends : call.sends = ⟨.accepted, .again⟩ := by
      rcases List.mem_cons.mp hinput with rfl | hinput
      · cases hcall
      · obtain ⟨sends, hmem, rfl⟩ := List.mem_map.mp hinput
        rw [List.eq_of_mem_replicate hmem] at hcall
        exact sends_of_call_expire hcall
    rw [hsends]
    exact ⟨by decide, by decide, fun _ _ _ => rfl⟩
  have hnow : (unchecked.requestTimeout).toNat < 111 := by decide
  have hrounds : m.server.requestHistory.length < (List.replicate 3 ⟨.accepted, .again⟩ :
      List DequeueSends).length := by
    rw [hlength]
    decide
  obtain ⟨k, t, hrun', ht, htimes⟩ :=
    timeouts_correct netstringProtocol_stamped hclock hm hserving hnow hrounds hdelivers
  exact ⟨m, k, t, hm, hrun', ht, htimes⟩

end Machine

end PrimeServer
