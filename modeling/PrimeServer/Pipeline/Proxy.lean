import PrimeServer.Cpp.UnorderedMap
import PrimeServer.Library.Transition
import PrimeServer.Zmq.Socket

/-!
# The load balancing proxy

`proxy_t`: the workers that have reported that they are bored, in the order in which they did, and the
loop that hands jobs to them. `fifo` is a list of nodes, each with its address, because `heart_beats`
is keyed by the addresses of these nodes.

A step is one turn of the loop of `forward`. Running out of memory is not modelled.
-/

namespace PrimeServer

/-- The address of a list node. -/
abbrev Node := ℕ

/-- The state of `proxy_t`. -/
structure Proxy where
  /-- The nodes and their heartbeats. -/
  fifo : List (Node × Frame)
  /-- The node of a worker. -/
  workers : UnorderedMap Frame Node
  /-- The worker of a node. -/
  heartBeats : UnorderedMap Node Frame

/-- A message from a worker: its address and its heartbeat. -/
structure HeartBeat where
  /-- The worker that it comes from. -/
  worker : Frame
  /-- What it says, for `choose_worker` to look at. -/
  heartBeat : Frame
  /-- The address that a new list node gets. -/
  node : Node

/-- What the `choose_function` does: it has no preference, or is not there; it returns a pointer, to a
heartbeat or to anything else; it throws. -/
inductive Choice where
  /-- It returns no heartbeat: the first worker of `fifo` gets the job. -/
  | null
  /-- It returns the heartbeat of this node. -/
  | pointer (node : Node)
  /-- It throws. -/
  | threw
  deriving DecidableEq

/-- A message from upstream: the previous hop, the request info and the frames of the job. -/
structure Job where
  /-- The sender, which the proxy takes off. -/
  upstream : Frame
  /-- The request info, in front of the other frames. -/
  info : Frame
  /-- The frames that the worker is given after it. -/
  frames : List Frame

/-- What happens in a turn of the loop. -/
structure ForwardTurn where
  /-- A heartbeat, if one has arrived. -/
  heartBeat : Option HeartBeat
  /-- A job, the choice made for it, and what the calls of `send` do. -/
  job : Option (Job × Choice × List SendResult)

/-- The calls of `send` for a job, and the worker that it was meant for. -/
structure Dispatch where
  /-- The worker that was chosen. -/
  worker : Frame
  /-- The calls of `send` for the job. -/
  sends : Sends
  deriving DecidableEq

/-- Uses of an iterator or a reference that lead nowhere. -/
inductive Undefined where
  /-- `fifo.front()` on an empty list. -/
  | front
  /-- The end of `heart_beats` is dereferenced. -/
  | heartBeats
  /-- The end of `workers` is dereferenced. -/
  | workers
  /-- An iterator to a node that is not in `fifo` is used. -/
  | node
  deriving DecidableEq

namespace Proxy

/-- A proxy that no worker has reported to. -/
def start : Proxy where
  fifo := []
  workers := .empty
  heartBeats := .empty

/-- The addresses of the nodes. -/
def nodes (p : Proxy) : List Node := p.fifo.map Prod.fst

/-- `proxy_t::expire`: how many of the sockets, downstream and upstream, are polled. -/
def expire (p : Proxy) : ℕ := (if p.fifo.length = 0 then 0 else 1) + 1

/-- This worker is bored. -/
def bored (p : Proxy) (h : HeartBeat) : Except Undefined Proxy :=
  match p.workers.find h.worker with
  -- its a new worker
  | none =>
    .ok
      { fifo := p.fifo ++ [(h.node, h.heartBeat)]
        workers := p.workers.emplace h.worker h.node
        heartBeats := p.heartBeats.emplace h.node h.worker }
  -- not new but update heartbeat just in case
  | some node =>
    if node ∈ p.nodes then
      .ok
        { p with
          fifo := p.fifo.map fun entry => if entry.1 = node then (node, h.heartBeat) else entry }
    else .error .node

/-- The node of the heartbeat that gets the job, and its worker. -/
def pick (p : Proxy) (choice : Option Node) : Except Undefined (Node × Frame) :=
  match choice.bind fun node => (p.heartBeats.find node).map (node, ·) with
  | some entry => .ok entry
  -- either you didnt want to choose or you sent back garbage
  | none =>
    match p.fifo.head? with
    | none => .error .front
    | some (node, _) =>
      match p.heartBeats.find node with
      | none => .error .heartBeats
      | some worker => .ok (node, worker)

/-- The calls of `send` that hand the frames of a job to a worker. -/
def sendJob (worker : Frame) (messages : List Frame) : List SendResult → Sends
  | [] => (worker, .accepted) :: sendAll [] messages
  | .accepted :: results => (worker, .accepted) :: sendAll results messages
  | result :: _ => [(worker, result)]

/-- They are dead to us until they report back. -/
def drop (p : Proxy) (node : Node) (worker : Frame) : Except Undefined Proxy :=
  match p.workers.find worker with
  | none => .error .workers
  | some workerNode =>
    if workerNode ∈ p.nodes then
      .ok
        { fifo := p.fifo.filter fun entry => entry.1 ≠ workerNode
          workers := p.workers.erase worker
          heartBeats := p.heartBeats.erase node }
    else .error .node

/-- Hand a job to the worker of a node. If a call of `send` throws, the proxy stays as it is. -/
def handOver (p : Proxy) (job : Job) (node : Node) (worker : Frame) (results : List SendResult) :
    Except Undefined (Proxy × Option Dispatch) :=
  let sends := sendJob worker (job.info :: job.frames) results
  if sends.Threw then .ok (p, some { worker, sends })
  else
    match p.drop node worker with
    | .error e => .error e
    | .ok p => .ok (p, some { worker, sends })

/-- Request for work. -/
def requested (p : Proxy) (job : Job) (choice : Choice) (results : List SendResult) :
    Except Undefined (Proxy × Option Dispatch) :=
  match choice with
  | .threw => .ok (p, none)
  | .null =>
    match p.pick none with
    | .error e => .error e
    | .ok (node, worker) => p.handOver job node worker results
  | .pointer node =>
    match p.pick (some node) with
    | .error e => .error e
    | .ok (node, worker) => p.handOver job node worker results

end Proxy

/-- `proxy_t` in its loop, with the order in which its workers have registered and all that it has
sent. -/
structure Forwarding where
  /-- The containers of `proxy_t`. -/
  proxy : Proxy
  /-- How many times a worker has registered. -/
  clock : ℕ
  /-- When a worker has registered last. -/
  registered : Frame → ℕ
  /-- The dispatches so far. -/
  dispatched : List Dispatch
  /-- The behaviour of the program has become undefined. -/
  undefined : Option Undefined

namespace Forwarding

/-- Before the first turn. -/
def start : Forwarding where
  proxy := .start
  clock := 0
  registered _ := 0
  dispatched := []
  undefined := none

/-- The turns that can happen: a job is taken only if the poll looked upstream, and a new list node is
not one of those in the list. -/
def Possible (s : Forwarding) (turn : ForwardTurn) : Prop :=
  s.undefined = none ∧ (turn.job = none ∨ s.proxy.expire = 2) ∧
    ∀ h ∈ turn.heartBeat, h.node ∉ s.proxy.nodes

instance (s : Forwarding) (turn : ForwardTurn) : Decidable (s.Possible turn) := by
  unfold Possible
  infer_instance

/-- The first half of a turn. -/
def hear (s : Forwarding) : Option HeartBeat → Forwarding
  | none => s
  | some h =>
    match s.proxy.bored h with
    | .error e => { s with undefined := some e }
    | .ok proxy =>
      if s.proxy.workers.find h.worker = none then
        { s with
          proxy
          clock := s.clock + 1
          registered := Function.update s.registered h.worker s.clock }
      else { s with proxy }

/-- The second half of a turn. -/
def serve (s : Forwarding) : Option (Job × Choice × List SendResult) → Forwarding
  | none => s
  | some (job, choice, results) =>
    match s.proxy.requested job choice results with
    | .error e => { s with undefined := some e }
    | .ok (proxy, dispatch) => { s with proxy, dispatched := s.dispatched ++ dispatch.toList }

/-- A turn of the loop of `forward`. -/
def step (s : Forwarding) (turn : ForwardTurn) : Option Forwarding :=
  if s.Possible turn then
    let heard := s.hear turn.heartBeat
    some (if heard.undefined = none then heard.serve turn.job else heard)
  else none

end Forwarding

end PrimeServer
