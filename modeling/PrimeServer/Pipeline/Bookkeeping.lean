import PrimeServer.Pipeline.Proxy

/-!
# The bookkeeping of the proxy

The three containers of `proxy_t` describe one set of workers, and jobs go to the worker that was
chosen or to the one that has waited longest.

## Main results

* `Proxy.bored_spec`, `Proxy.requested_spec`: all that the two halves of a turn do;
* `Forwarding.forward_correct`: in every run the bookkeeping is sound and every job goes where it
  should.
-/

namespace PrimeServer

open Transition

namespace Proxy

/-- `fifo`, `workers` and `heart_beats` describe the same workers, each of them once. -/
structure Bookkeeping (p : Proxy) : Prop where
  /-- No list node is in `fifo` twice. -/
  nodup : p.nodes.Nodup
  /-- The two maps are inverse to each other. -/
  owner : ∀ node worker, p.heartBeats.find node = some worker ↔ p.workers.find worker = some node
  /-- The heartbeats that are known are those of the nodes in `fifo`. -/
  listed : ∀ node, node ∈ p.nodes ↔ ∃ worker, p.heartBeats.find node = some worker

/-- The proxy without a worker and its node. -/
def without (p : Proxy) (node : Node) (worker : Frame) : Proxy where
  fifo := p.fifo.filter fun entry => entry.1 ≠ node
  workers := p.workers.erase worker
  heartBeats := p.heartBeats.erase node

/-- A proxy without workers has its books in order. -/
theorem bookkeeping_start : start.Bookkeeping where
  nodup := List.nodup_nil
  owner _ _ := by simp [start]
  listed _ := by simp [start, nodes]

variable {p : Proxy}

/-- Taking a worker out of the queue takes out its node and no other one. -/
theorem nodes_without (p : Proxy) (node : Node) (worker : Frame) :
    (p.without node worker).nodes = p.nodes.filter (· ≠ node) := by
  simp only [nodes, without, List.filter_map]
  rfl

/-- Taking away a worker and its node keeps the books. -/
theorem Bookkeeping.without (hp : p.Bookkeeping) {node : Node} {worker : Frame}
    (howner : p.workers.find worker = some node) : (p.without node worker).Bookkeeping where
  nodup := by
    rw [nodes_without]
    exact hp.nodup.filter _
  owner n w := by
    have hn : p.heartBeats.find node = some worker := (hp.owner node worker).mpr howner
    simp only [Proxy.without, UnorderedMap.find_erase]
    split_ifs with h₁ h₂ h₂
    · simp
    · -- the worker of the node that is gone is the one that is gone
      subst h₁
      simp only [false_iff, ← hp.owner, hn, Option.some.injEq]
      exact fun h => h₂ h.symm
    · subst h₂
      simp only [iff_false, hp.owner, howner, Option.some.injEq]
      exact fun h => h₁ h.symm
    · exact hp.owner n w
  listed n := by
    rw [nodes_without, List.mem_filter, hp.listed]
    simp only [Proxy.without, UnorderedMap.find_erase]
    split_ifs with h <;> simp [h]

/-- A heartbeat of a worker that is not known appends its node; one of a known worker changes no
node. -/
theorem bored_spec (hp : p.Bookkeeping) {h : HeartBeat} (hfresh : h.node ∉ p.nodes) :
    ∃ q, p.bored h = .ok q ∧ q.Bookkeeping ∧
      (p.workers.find h.worker = none ∧ q.nodes = p.nodes ++ [h.node] ∧
          q.heartBeats = p.heartBeats.assign h.node h.worker ∧
          q.workers = p.workers.assign h.worker h.node ∨
        p.workers.find h.worker ≠ none ∧ q.nodes = p.nodes ∧ q.heartBeats = p.heartBeats ∧
          q.workers = p.workers) := by
  cases hfind : p.workers.find h.worker with
  | none =>
    -- a fresh address belongs to no heartbeat
    have hnode : p.heartBeats.find h.node = none :=
      Option.eq_none_iff_forall_ne_some.mpr fun w hw => hfresh ((hp.listed _).mpr ⟨w, hw⟩)
    have hnodes : (p.fifo ++ [(h.node, h.heartBeat)]).map Prod.fst = p.nodes ++ [h.node] := by
      simp [nodes]
    refine ⟨
      { fifo := p.fifo ++ [(h.node, h.heartBeat)]
        workers := p.workers.assign h.worker h.node
        heartBeats := p.heartBeats.assign h.node h.worker }, ?_, ⟨?_, ?_, ?_⟩,
      .inl ⟨rfl, hnodes, rfl, rfl⟩⟩
    · simp only [bored, hfind, UnorderedMap.emplace_of_find_eq_none hfind,
        UnorderedMap.emplace_of_find_eq_none hnode]
    · rw [nodes, hnodes, List.nodup_append]
      refine ⟨hp.nodup, by simp, fun n hn m hm => ?_⟩
      rintro rfl
      exact hfresh (List.mem_singleton.mp hm ▸ hn)
    · intro n w
      simp only [UnorderedMap.find_assign]
      split_ifs with h₁ h₂ h₂
      · simp [h₁, h₂]
      · -- the new node belongs to the new worker only
        simp only [Option.some.injEq]
        refine ⟨fun hw => absurd hw.symm h₂, fun hw => ?_⟩
        rw [h₁] at hw
        exact absurd ((hp.owner _ _).mpr hw) (by simp [hnode])
      · simp only [Option.some.injEq]
        refine ⟨fun hw => ?_, fun hw => absurd hw.symm h₁⟩
        rw [h₂] at hw
        exact absurd ((hp.owner _ _).mp hw) (by simp [hfind])
      · exact hp.owner n w
    · intro n
      rw [nodes, hnodes, List.mem_append, List.mem_singleton, hp.listed]
      simp only [UnorderedMap.find_assign]
      split_ifs with h₁ <;> simp [h₁]
  | some node =>
    -- the node is in the list, so that its heartbeat is replaced and the order kept
    have hmem : node ∈ p.nodes := (hp.listed node).mpr ⟨_, (hp.owner _ _).mpr hfind⟩
    let fifo := p.fifo.map fun entry => if entry.1 = node then (node, h.heartBeat) else entry
    have hnodes : fifo.map Prod.fst = p.nodes := by
      rw [List.map_map]
      refine List.map_congr_left fun entry _ => ?_
      simp only [Function.comp_apply]
      split_ifs with hentry
      · exact hentry.symm
      · rfl
    have hbored : p.bored h = .ok { p with fifo } := by
      simp only [bored, hfind, if_pos hmem, fifo]
    refine ⟨{ p with fifo }, hbored, ⟨?_, hp.owner, fun n => ?_⟩, .inr ⟨nofun, hnodes, rfl, rfl⟩⟩
    · show (fifo.map Prod.fst).Nodup
      rw [hnodes]
      exact hp.nodup
    · show n ∈ fifo.map Prod.fst ↔ _
      rw [hnodes, hp.listed]

/-! ### Jobs -/

/-- The calls of `send` are for the worker and then the frames of the job, in this order. -/
theorem isPrefix_sendJob (worker : Frame) (messages : List Frame) (results : List SendResult) :
    (sendJob worker messages results).map Prod.fst <+: worker :: messages := by
  match results with
  | [] => simpa [sendJob] using isPrefix_sendAll [] messages
  | .accepted :: results => simpa [sendJob] using isPrefix_sendAll results messages
  | .again :: _ | .threw :: _ => simp [sendJob]

/-- Where every call returns true, no frame is left out. -/
theorem sendJob_of_accepted {worker : Frame} {messages : List Frame} {results : List SendResult}
    (h : ∀ call ∈ sendJob worker messages results, call.2 = .accepted) :
    (sendJob worker messages results).map Prod.fst = worker :: messages := by
  match results with
  | [] =>
    rw [sendJob, List.map_cons, map_sendAll]
    rintro ⟨call, hcall, hthrew⟩
    simpa [hthrew] using h call (List.mem_cons_of_mem _ hcall)
  | .accepted :: results =>
    rw [sendJob, List.map_cons, map_sendAll]
    rintro ⟨call, hcall, hthrew⟩
    simpa [hthrew] using h call (List.mem_cons_of_mem _ hcall)
  | .again :: _ | .threw :: _ => simp [sendJob] at h

/-- Where all sends are accepted, none throws. -/
theorem not_threw_sendJob_nil (worker : Frame) (messages : List Frame) :
    ¬(sendJob worker messages []).Threw := by
  rw [sendJob]
  simpa [Sends.Threw] using not_threw_sendAll_nil messages

/-- Where all sends are accepted, no frame is left out. -/
theorem map_sendJob_nil (worker : Frame) (messages : List Frame) :
    (sendJob worker messages []).map Prod.fst = worker :: messages := by
  rw [sendJob, List.map_cons, map_sendAll (not_threw_sendAll_nil messages)]

/-- The worker that a job goes to, given when the workers have registered. -/
structure Target (p : Proxy) (registered : Frame → ℕ) (choice : Choice) (node : Node)
    (worker : Frame) : Prop where
  /-- The worker is the one that the node belongs to. -/
  owner : p.workers.find worker = some node
  /-- The chosen heartbeat is respected if it is there. -/
  chosen : ∀ n, choice = .pointer n → n ∈ p.nodes → node = n
  /-- Otherwise no worker has waited longer. -/
  longest : (∀ n, choice = .pointer n → n ∉ p.nodes) →
    ∀ other m, p.workers.find other = some m → registered worker ≤ registered other

/-- All that a job can do: the `choose_function` throws; a call of `send` throws, and the worker stays;
or the worker is sent the job and is gone. -/
inductive Served (p : Proxy) (registered : Frame → ℕ) (job : Job) (results : List SendResult) :
    Choice → Proxy → Option Dispatch → Prop where
  /-- The choice function throws before anything has changed. -/
  | unchosen : Served p registered job results .threw p none
  /-- A send throws, and the worker stays on the books. -/
  | threw {choice : Choice} {node : Node} {worker : Frame} {sends : Sends} (hchoice : choice ≠ .threw)
      (htarget : p.Target registered choice node worker)
      (hsends : sends = sendJob worker (job.info :: job.frames) results)
      (hsent : sends.map Prod.fst <+: worker :: job.info :: job.frames) (hthrew : sends.Threw) :
      Served p registered job results choice p (some { worker, sends })
  /-- The job is sent to the worker, which is then off the books. -/
  | served {choice : Choice} {node : Node} {worker : Frame} {sends : Sends}
      (hchoice : choice ≠ .threw) (htarget : p.Target registered choice node worker)
      (hsends : sends = sendJob worker (job.info :: job.frames) results)
      (hsent : sends.map Prod.fst <+: worker :: job.info :: job.frames)
      (hall : (∀ call ∈ sends, call.2 = .accepted) →
        sends.map Prod.fst = worker :: job.info :: job.frames) :
      Served p registered job results choice (p.without node worker) (some { worker, sends })

/-- The workers stand in `fifo` in the order in which they have registered. -/
def Ordered (p : Proxy) (registered : Frame → ℕ) : Prop :=
  p.nodes.Pairwise fun n m => ∀ v w, p.heartBeats.find n = some v → p.heartBeats.find m = some w →
    registered v < registered w

/-- The node that is picked is the chosen one if it is there, and the first one otherwise. -/
theorem pick_spec (hp : p.Bookkeeping) {registered : Frame → ℕ} (hordered : p.Ordered registered)
    (hne : p.fifo ≠ []) (choice : Option Node) :
    ∃ node worker, p.pick choice = .ok (node, worker) ∧ p.workers.find worker = some node ∧
      (∀ n, choice = some n → n ∈ p.nodes → node = n) ∧
      ((∀ n, choice = some n → n ∉ p.nodes) →
        ∀ other m, p.workers.find other = some m → registered worker ≤ registered other) := by
  -- a pointer to a heartbeat in the list is respected, anything else means the front
  by_cases hchosen : ∃ n ∈ p.nodes, choice = some n
  · obtain ⟨n, hn, rfl⟩ := hchosen
    obtain ⟨worker, hworker⟩ := (hp.listed n).mp hn
    refine ⟨n, worker, by simp [pick, hworker], (hp.owner _ _).mp hworker, ?_, ?_⟩
    · rintro _ ⟨⟩ -
      rfl
    · exact fun hnot => absurd hn (hnot n rfl)
  · have hlookup : (choice.bind fun node => (p.heartBeats.find node).map (node, ·)) = none := by
      rw [Option.bind_eq_none_iff]
      intro n hn
      rw [Option.map_eq_none_iff, Option.eq_none_iff_forall_ne_some]
      exact fun w hw => hchosen ⟨n, (hp.listed n).mpr ⟨w, hw⟩, hn⟩
    obtain ⟨⟨node, beat⟩, fifo, hfifo⟩ := List.exists_cons_of_ne_nil hne
    have hnodes : p.nodes = node :: fifo.map Prod.fst := by simp [nodes, hfifo]
    obtain ⟨worker, hworker⟩ := (hp.listed node).mp (by simp [hnodes])
    refine ⟨node, worker, ?_, (hp.owner _ _).mp hworker, ?_, ?_⟩
    · simp only [pick, hlookup, hfifo, List.head?_cons, hworker]
    · exact fun n hn hmem => absurd ⟨n, hmem, hn⟩ hchosen
    · intro _ other m hother
      have hm : p.heartBeats.find m = some other := (hp.owner _ _).mpr hother
      rw [Ordered, hnodes, List.pairwise_cons] at hordered
      rcases List.mem_cons.mp (hnodes ▸ (hp.listed m).mpr ⟨other, hm⟩) with rfl | hrest
      · obtain rfl : worker = other := by simpa [hworker] using hm
        exact Nat.le_refl _
      · exact Nat.le_of_lt (hordered.1 m hrest worker other hworker hm)

/-- Where the books are in order, taking a worker out of them does not fail. -/
theorem drop_eq (hp : p.Bookkeeping) {node : Node} {worker : Frame}
    (howner : p.workers.find worker = some node) : p.drop node worker = .ok (p.without node worker) := by
  have hmem : node ∈ p.nodes := (hp.listed node).mpr ⟨worker, (hp.owner _ _).mpr howner⟩
  simp only [drop, howner, if_pos hmem, without]

/-- A job is handed over to its target, or a call of `send` throws. -/
theorem handOver_spec (hp : p.Bookkeeping) {registered : Frame → ℕ} {job : Job} {choice : Choice}
    (hchoice : choice ≠ .threw) {node : Node} {worker : Frame}
    (htarget : p.Target registered choice node worker) (results : List SendResult) :
    ∃ q d, p.handOver job node worker results = .ok (q, d) ∧ p.Served registered job results choice q d := by
  -- the worker is dropped only after the sends
  by_cases hthrew : (sendJob worker (job.info :: job.frames) results).Threw
  · exact ⟨p, _, by simp only [handOver, if_pos hthrew],
      .threw hchoice htarget rfl (isPrefix_sendJob _ _ _) hthrew⟩
  · have hserved : p.Served registered job results choice (p.without node worker)
        (some { worker, sends := sendJob worker (job.info :: job.frames) results }) :=
      .served hchoice htarget rfl (isPrefix_sendJob _ _ _) sendJob_of_accepted
    exact ⟨_, _, by simp only [handOver, if_neg hthrew, drop_eq hp htarget.owner], hserved⟩

/-- A job taken when a worker is there is served. -/
theorem requested_spec (hp : p.Bookkeeping) {registered : Frame → ℕ} (hordered : p.Ordered registered)
    (hne : p.fifo ≠ []) (job : Job) (choice : Choice) (results : List SendResult) :
    ∃ q d, p.requested job choice results = .ok (q, d) ∧ p.Served registered job results choice q d := by
  cases choice with
  | threw => exact ⟨p, none, rfl, .unchosen⟩
  | null =>
    -- without a choice the worker that has waited longest is taken
    obtain ⟨node, worker, hpick, howner, -, hlongest⟩ := pick_spec hp hordered hne none
    have htarget : p.Target registered .null node worker :=
      ⟨howner, nofun, fun _ => hlongest nofun⟩
    simp only [requested, hpick]
    exact handOver_spec hp (by simp) htarget results
  | pointer n =>
    obtain ⟨node, worker, hpick, howner, hchosen, hlongest⟩ := pick_spec hp hordered hne (some n)
    have htarget : p.Target registered (.pointer n) node worker := by
      refine ⟨howner, ?_, fun hnot => hlongest ?_⟩
      · rintro _ ⟨⟩ hmem
        exact hchosen n rfl hmem
      · rintro _ ⟨⟩
        exact hnot n rfl
    simp only [requested, hpick]
    exact handOver_spec hp (by simp) htarget results

/-- Serving a job keeps the books. -/
theorem Served.bookkeeping {registered : Frame → ℕ} {job : Job} {results : List SendResult}
    {choice : Choice} {q : Proxy} {d : Option Dispatch}
    (h : p.Served registered job results choice q d) (hp : p.Bookkeeping) : q.Bookkeeping := by
  cases h with
  | unchosen | threw => exact hp
  | served _ htarget => exact hp.without htarget.owner

/-- Serving a job keeps the order. -/
theorem Served.ordered {registered : Frame → ℕ} {job : Job} {results : List SendResult}
    {choice : Choice} {q : Proxy} {d : Option Dispatch}
    (h : p.Served registered job results choice q d) (hp : p.Ordered registered) :
    q.Ordered registered := by
  cases h with
  | unchosen | threw => exact hp
  | @served _ node worker =>
    unfold Ordered
    rw [nodes_without]
    refine (hp.filter _).imp fun {n m} hnm v w hv hw => ?_
    simp only [without, UnorderedMap.find_erase] at hv hw
    split_ifs at hv hw
    exact hnm v w hv hw

/-- Serving a job makes no worker known. -/
theorem Served.find_workers {registered : Frame → ℕ} {job : Job} {results : List SendResult}
    {choice : Choice} {q : Proxy} {d : Option Dispatch}
    (h : p.Served registered job results choice q d) {worker : Frame} {node : Node}
    (hfind : q.workers.find worker = some node) : p.workers.find worker = some node := by
  cases h with
  | unchosen | threw => exact hfind
  | served =>
    simp only [without, UnorderedMap.find_erase] at hfind
    split_ifs at hfind
    exact hfind

end Proxy

namespace Forwarding

open Proxy

/-- What holds between turns. -/
structure Sound (s : Forwarding) : Prop where
  /-- The program has done nothing undefined so far. -/
  undefined : s.undefined = none
  /-- The three containers of the proxy agree. -/
  bookkeeping : s.proxy.Bookkeeping
  /-- `fifo` is in the order of the registrations. -/
  ordered : s.proxy.Ordered s.registered
  /-- All registrations are in the past. -/
  past : ∀ worker node, s.proxy.workers.find worker = some node → s.registered worker < s.clock

/-- What a turn does: the books are kept after its heartbeat, a job finds a worker and is served, and
nothing else is sent. -/
structure TurnCorrect (s : Forwarding) (turn : ForwardTurn) (t : Forwarding) : Prop where
  /-- The heartbeat leaves the containers in agreement. -/
  heard : (s.hear turn.heartBeat).proxy.Bookkeeping
  /-- Without a job nothing else changes. -/
  idle : turn.job = none → t.proxy = (s.hear turn.heartBeat).proxy ∧ t.dispatched = s.dispatched
  /-- A job is taken only if a worker is there, and goes to the one that was chosen for it. -/
  served : ∀ job choice results, turn.job = some (job, choice, results) →
    (s.hear turn.heartBeat).proxy.fifo ≠ [] ∧
      ∃ d, (s.hear turn.heartBeat).proxy.Served (s.hear turn.heartBeat).registered job results
        choice t.proxy d ∧ t.dispatched = s.dispatched ++ d.toList

/-- A proxy that has not begun to forward is in order. -/
theorem sound_start : start.Sound where
  undefined := rfl
  bookkeeping := bookkeeping_start
  ordered := List.Pairwise.nil
  past _ _ h := by simp [start, Proxy.start] at h

variable {s : Forwarding}

/-- A heartbeat keeps what holds between turns, and takes no node away. -/
theorem Sound.hear (hs : s.Sound) {h : Option HeartBeat} (hfresh : ∀ b ∈ h, b.node ∉ s.proxy.nodes) :
    (s.hear h).Sound ∧ (s.hear h).dispatched = s.dispatched ∧
      (s.proxy.fifo ≠ [] → (s.hear h).proxy.fifo ≠ []) := by
  cases h with
  | none => exact ⟨hs, rfl, id⟩
  | some b =>
    obtain ⟨q, hbored, hq, hcases⟩ := bored_spec hs.bookkeeping (hfresh b rfl)
    -- whether a worker is waiting can be read off the nodes
    have hfifo : ∀ r : Proxy, r.fifo ≠ [] ↔ r.nodes ≠ [] := fun r => by simp [nodes]
    rcases hcases with ⟨hnew, hnodes, hbeats, hworkers⟩ | ⟨hknown, hnodes, hbeats, hworkers⟩
    · simp only [Forwarding.hear, hbored, if_pos hnew]
      refine ⟨⟨hs.undefined, hq, ?_, ?_⟩, trivial, fun _ => ?_⟩
      · -- the new node is the last one, and no clock reading so far is as late as its own
        have hold : ∀ n ∈ s.proxy.nodes, ∀ v,
            (s.proxy.heartBeats.assign b.node b.worker).find n = some v →
              s.proxy.heartBeats.find n = some v ∧ v ≠ b.worker := by
          intro n hn v hv
          have hne : n ≠ b.node := fun heq => hfresh b rfl (heq ▸ hn)
          rw [UnorderedMap.find_assign_of_ne _ _ hne] at hv
          refine ⟨hv, fun heq => ?_⟩
          rw [hs.bookkeeping.owner, heq, hnew] at hv
          cases hv
        unfold Ordered
        rw [hnodes, hbeats, List.pairwise_append]
        refine ⟨hs.ordered.imp_of_mem fun {n m} hn hm hnm v w hv hw => ?_, by simp,
          fun n hn m hm v w hv hw => ?_⟩
        · obtain ⟨hv, hv'⟩ := hold n hn v hv
          obtain ⟨hw, hw'⟩ := hold m hm w hw
          show Function.update s.registered b.worker s.clock v <
            Function.update s.registered b.worker s.clock w
          rw [Function.update_of_ne hv', Function.update_of_ne hw']
          exact hnm v w hv hw
        · obtain ⟨hv, hv'⟩ := hold n hn v hv
          obtain rfl : b.worker = w := by simpa [List.mem_singleton.mp hm] using hw
          show Function.update s.registered b.worker s.clock v <
            Function.update s.registered b.worker s.clock b.worker
          rw [Function.update_of_ne hv', Function.update_self]
          exact hs.past v n ((hs.bookkeeping.owner _ _).mp hv)
      · intro worker node hfind
        rw [hworkers, UnorderedMap.find_assign] at hfind
        by_cases hw : worker = b.worker
        · simp [hw]
        · rw [if_neg hw] at hfind
          show Function.update s.registered b.worker s.clock worker < s.clock + 1
          rw [Function.update_of_ne hw]
          exact Nat.lt_succ_of_lt (hs.past worker node hfind)
      · rw [hfifo, hnodes]
        simp
    · simp only [Forwarding.hear, hbored, if_neg hknown]
      refine ⟨⟨hs.undefined, hq, ?_, ?_⟩, trivial, fun hne => ?_⟩
      · unfold Ordered
        rw [hnodes, hbeats]
        exact hs.ordered
      · rw [hworkers]
        exact hs.past
      · rw [hfifo, hnodes, ← hfifo]
        exact hne

/-- Every turn of `forward` is one of those that `Possible` lists. -/
theorem possible_of_step {turn : ForwardTurn} {t : Forwarding} (h : s.step turn = some t) :
    s.Possible turn := by
  unfold Forwarding.step at h
  split_ifs at h with hpossible
  exact hpossible

/-- A worker that is known after a heartbeat was known before it, or has sent it. -/
theorem Sound.find_hear (hs : s.Sound) {h : Option HeartBeat}
    (hfresh : ∀ b ∈ h, b.node ∉ s.proxy.nodes) {worker : Frame}
    (hfind : (s.hear h).proxy.workers.find worker ≠ none) :
    (∃ b ∈ h, b.worker = worker) ∨ s.proxy.workers.find worker ≠ none := by
  cases h with
  | none => exact .inr hfind
  | some b =>
    obtain ⟨q, hbored, -, hcases⟩ := bored_spec hs.bookkeeping (hfresh b rfl)
    have hproxy : (s.hear (some b)).proxy = q := by
      simp only [Forwarding.hear, hbored]
      split_ifs <;> rfl
    rw [hproxy] at hfind
    rcases hcases with ⟨-, -, -, hworkers⟩ | ⟨-, -, -, hworkers⟩
    · rw [hworkers, UnorderedMap.find_assign] at hfind
      split_ifs at hfind with heq
      · exact .inl ⟨b, rfl, heq.symm⟩
      · exact .inr hfind
    · exact .inr (hworkers ▸ hfind)

/-- A turn keeps what holds between turns, and does what it should. -/
theorem Sound.step (hs : s.Sound) {turn : ForwardTurn} {t : Forwarding} (h : s.step turn = some t) :
    t.Sound ∧ s.TurnCorrect turn t := by
  unfold Forwarding.step at h
  split_ifs at h with hpossible
  obtain ⟨-, hpolled, hfresh⟩ := hpossible
  obtain ⟨hheard, hsent, hkept⟩ := hs.hear hfresh
  simp only [if_pos hheard.undefined, Option.some.injEq] at h
  subst h
  cases hjob : turn.job with
  | none => exact ⟨hheard, hheard.bookkeeping, fun _ => ⟨rfl, hsent⟩, by simp [hjob]⟩
  | some request =>
    obtain ⟨job, choice, results⟩ := request
    -- the poll looked upstream, so a worker was there, and the heartbeat took none away
    have hne : (s.hear turn.heartBeat).proxy.fifo ≠ [] := by
      refine hkept fun hnil => ?_
      rcases hpolled with hnone | htwo
      · rw [hjob] at hnone
        cases hnone
      · simp [expire, hnil] at htwo
    obtain ⟨q, d, hrequested, hserved⟩ :=
      requested_spec hheard.bookkeeping hheard.ordered hne job choice results
    simp only [serve, hrequested]
    refine ⟨⟨hheard.undefined, hserved.bookkeeping hheard.bookkeeping,
      hserved.ordered hheard.ordered, fun worker node hfind =>
        hheard.past worker node (hserved.find_workers hfind)⟩, hheard.bookkeeping, ?_, ?_⟩
    · rw [hjob]
      nofun
    · rintro job' choice' results' hjob'
      obtain ⟨rfl, rfl, rfl⟩ : job = job' ∧ choice = choice' ∧ results = results' := by
        simpa [hjob] using hjob'
      exact ⟨hne, d, hserved, by rw [hsent]⟩

/-- In every run of the proxy, whatever the heartbeats, the jobs, the choices and the results of the
sends, the behaviour is defined and the books are kept, and each turn does what it should. -/
theorem forward_correct {turns : List ForwardTurn} {s : Forwarding}
    (hrun : run step start turns = some s) :
    s.undefined = none ∧ s.proxy.Bookkeeping ∧
      ∀ turn t, s.step turn = some t → s.TurnCorrect turn t := by
  have hsound : s.Sound := invariant_of_steps sound_start (fun _ _ _ hs h => (hs.step h).1) hrun
  exact ⟨hsound.undefined, hsound.bookkeeping, fun _ _ h => (hsound.step h).2⟩

/-- Two workers report, and the job that comes with the second heartbeat is for the second worker. -/
theorem forward_correct_example :
    ∃ s, run step start
      [{ heartBeat := some ⟨ascii "a", ascii "A", 1⟩, job := none },
        { heartBeat := some ⟨ascii "b", ascii "B", 2⟩
          job := some (⟨ascii "server", ascii "info", [ascii "1:B,"]⟩, .pointer 2, []) }] = some s ∧
      s.dispatched = [{ worker := ascii "b"
                        sends := [(ascii "b", .accepted), (ascii "info", .accepted),
                          (ascii "1:B,", .accepted)] }] ∧
      s.proxy.nodes = [1] ∧ s.proxy.Bookkeeping := by
  have hrun : (run step start
      [{ heartBeat := some ⟨ascii "a", ascii "A", 1⟩, job := none },
        { heartBeat := some ⟨ascii "b", ascii "B", 2⟩
          job := some (⟨ascii "server", ascii "info", [ascii "1:B,"]⟩, .pointer 2, []) }]).map
      (fun s => (s.dispatched, s.proxy.nodes)) =
      some ([⟨ascii "b", [(ascii "b", .accepted), (ascii "info", .accepted),
        (ascii "1:B,", .accepted)]⟩], [1]) := by decide
  obtain ⟨s, hs, hvalues⟩ := Option.map_eq_some_iff.mp hrun
  obtain ⟨hdispatched, hnodes⟩ := Prod.mk.inj hvalues
  exact ⟨s, hs, hdispatched, hnodes, (forward_correct hs).2.1⟩

end Forwarding

end PrimeServer
