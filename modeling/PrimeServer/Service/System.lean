import PrimeServer.Library.Components
import PrimeServer.Pipeline.Results
import PrimeServer.Server.Layout

/-!
# A service

A server, the stages behind it and the messages between them. The server sends each request to the proxy of
the first stage. The workers of a stage send intermediate results to the proxy of the next one, and final
results back to the server, which publishes the keys of the requests that nobody waits for any more. The
messages on their way to a proxy, or to the server, may arrive in any order.

Requests are numbered in the order in which the server has sent them on. The numbers are not part of any
message, they are kept to say where a request is.

## Main results

* `Service.machine_isComponent`, `Service.stage_isComponent`: in a service, the server and the stages run as
  they do alone.
-/

namespace PrimeServer

open Transition

/-- A request that the server sends on. -/
structure Posted (ρ ι : Type) where
  /-- The client that has sent it. -/
  client : Frame
  /-- The request that was parsed. -/
  request : ρ
  /-- The info that the server made for it. -/
  info : ι

/-- A server with the stages behind it. -/
structure Service (σ ρ ι : Type) where
  /-- The server and what it has done. -/
  machine : Machine σ ρ ι
  /-- The requests that were sent on. -/
  posted : List (Posted ρ ι)
  /-- The parts of a message to the first proxy of which the last part is missing. -/
  unsent : List Frame
  /-- The messages on their way to the proxy of a stage, with the numbers of their requests. -/
  underway : ℕ → List (ℕ × List Frame)
  /-- The proxies and their workers, one stage after the other. -/
  stages : ℕ → Workshop
  /-- The request that a job of a stage is for. -/
  origin : ℕ → ℕ → ℕ
  /-- The messages on their way to the server, with the numbers of their requests. -/
  loopback : List (ℕ × List Frame)
  /-- The requests for which the server has received a result. -/
  received : List ℕ
  /-- The requests for which a worker was done with a job without sending anything on. -/
  dropped : List ℕ

/-- What can happen in a service. -/
inductive Service.Event (ι : Type) where
  /-- Something happens to the server, other than a result. -/
  | server (input : ServerInput ι)
  /-- A message arrives at the proxy of a stage. -/
  | deliver (stage k : ℕ) (upstream : Frame)
  /-- The proxy or a worker of a stage goes on. -/
  | work (stage : ℕ) (event : Workshop.Event)
  /-- A key that was published arrives at a worker. -/
  | interrupt (stage : ℕ) (worker : Frame) (key : UInt64)
  /-- The server receives a result. -/
  | receive (k : ℕ) (sends : DequeueSends)

/-- Results come from workers. -/
def ServerInput.isResult {ι : Type} : ServerInput ι → Bool
  | .result _ _ _ => true
  | .message _ _ _ | .next _ _ _ _ | .disconnect _ | .timeouts _ | .expire _ => false

/-- Jobs and interrupts come from elsewhere. -/
def Workshop.Event.internal : Workshop.Event → Bool
  | .submit _ | .interrupt _ _ => false
  | .forward _ _ | .advertise _ | .wake _ _ | .take _ _ | .bail _ | .finish _ _ _ | .fail _ _
  | .cleanup _ _ | .check _ _ => true

variable {σ ρ ι : Type}

/-- The request that a round of `enqueue` tries to send on, with what the calls of `send` do. -/
def Machine.posts (π : Protocol σ ρ ι) (config : ServerConfig ρ) (m : Machine σ ρ ι) :
    ServerInput ι → Option (Posted ρ ι × SendResult × SendResult)
  | .next now info text _ =>
    match m.control with
    | .enqueueing client (parsed :: _) =>
      if config.healthCheckMatcher parsed = some false then
        some ({ client, request := parsed, info := π.toInfo parsed m.server.requestId now }, info, text)
      else none
    | _ => none
  | _ => none

namespace Service

/-- Nobody has connected, nothing is on its way, and the workers have just been constructed. -/
def start (heartBeat : ℕ → Frame → Frame) : Service σ ρ ι where
  machine := .start
  posted := []
  unsent := []
  underway _ := []
  stages i := .start (heartBeat i)
  origin _ _ := 0
  loopback := []
  received := []
  dropped := []

section Steps

variable {π : Protocol σ ρ ι} (layout : InfoLayout π) (config : ServerConfig ρ)

/-- The server sends on a request, in two parts. -/
def post (s : Service σ ρ ι) (p : Posted ρ ι) (info text : SendResult) : Service σ ρ ι :=
  match info, π.toString p.request, text with
  | .accepted, some body, .accepted =>
    { s with
      posted := s.posted ++ [p]
      unsent := []
      underway :=
        Function.update s.underway 0
          (s.underway 0 ++ [(s.posted.length, s.unsent ++ [layout.bytes p.info, body])]) }
  -- the message stays open
  | .accepted, _, _ => { s with unsent := s.unsent ++ [layout.bytes p.info] }
  | _, _, _ => s

/-- The server goes on. -/
def serve (s : Service σ ρ ι) (input : ServerInput ι) (machine : Machine σ ρ ι) : Service σ ρ ι :=
  let s' := match s.machine.posts π config input with
    | none => s
    | some (p, info, text) => s.post layout p info text
  { s' with machine }

/-- A stage goes on. What its workers have sent is on its way. -/
def advance (s : Service σ ρ ι) (stage : ℕ) (workshop : Workshop) : Service σ ρ ι :=
  let sent := workshop.sent.drop (s.stages stage).sent.length
  let concluded := workshop.concluded.drop (s.stages stage).concluded.length
  let message (m : SentOn) := (s.origin stage m.job, m.frames)
  { s with
    stages := Function.update s.stages stage workshop
    underway :=
      Function.update s.underway (stage + 1)
        (s.underway (stage + 1) ++ (sent.filter fun m => !m.loopback).map message)
    loopback := s.loopback ++ (sent.filter fun m => m.loopback).map message
    dropped :=
      s.dropped ++
        (concluded.filter fun number => number ∉ sent.map SentOn.job).map (s.origin stage) }

/-- The job that the proxy of a stage takes a message for, and the request that it is for. -/
def arriving (s : Service σ ρ ι) (stage k : ℕ) (upstream : Frame) : Option (ℕ × Job) :=
  match (s.underway stage)[k]? with
  | some (number, info :: frames) => some (number, { upstream, info, frames })
  | _ => none

/-- What the server takes a message from a worker for, and the request that it is for. -/
def arrived (s : Service σ ρ ι) (k : ℕ) (sends : DequeueSends) : Option (ℕ × ServerInput ι) :=
  match s.loopback[k]? with
  | some (number, info :: frames) =>
    some (number, .result (layout.read info) ((info :: frames).getLast (List.cons_ne_nil _ _)) sends)
  | _ => none

/-- One step. -/
def step (s : Service σ ρ ι) : Event ι → Option (Service σ ρ ι)
  | .server input =>
    if input.isResult then none
    else (s.machine.step π config input).map (s.serve layout config input)
  | .deliver stage k upstream =>
    match s.arriving stage k upstream with
    | none => none
    | some (number, job) =>
      ((s.stages stage).step (.submit job)).map fun workshop =>
        { s with
          underway := Function.update s.underway stage ((s.underway stage).eraseIdx k)
          stages := Function.update s.stages stage workshop
          origin :=
            Function.update s.origin stage
              (Function.update (s.origin stage) (s.stages stage).submitted.length number) }
  | .work stage event =>
    if event.internal then ((s.stages stage).step event).map (s.advance stage) else none
  | .interrupt stage w key =>
    if .interrupt key ∈ s.machine.wire then
      ((s.stages stage).step (.interrupt w key)).map (s.advance stage)
    else none
  | .receive k sends =>
    match s.arrived layout k sends with
    | none => none
    | some (number, input) =>
      (s.machine.step π config input).map fun machine =>
        { s with machine, loopback := s.loopback.eraseIdx k, received := s.received ++ [number] }

/-- What an event does to the server. -/
def serverInput (s : Service σ ρ ι) : Event ι → Option (ServerInput ι)
  | .server input => some input
  | .receive k sends => (s.arrived layout k sends).map Prod.snd
  | .deliver _ _ _ | .work _ _ | .interrupt _ _ _ => none

/-- What an event does to a stage. -/
def stageInput (i : ℕ) (s : Service σ ρ ι) : Event ι → Option Workshop.Event
  | .deliver stage k upstream =>
    if stage = i then (s.arriving stage k upstream).map fun (_, job) => .submit job else none
  | .work stage event => if stage = i then some event else none
  | .interrupt stage w key => if stage = i then some (.interrupt w key) else none
  | .server _ | .receive _ _ => none

/-! ### Components -/

variable {layout config} {s t : Service σ ρ ι}

@[simp]
theorem serve_machine (s : Service σ ρ ι) (input : ServerInput ι) (machine : Machine σ ρ ι) :
    (s.serve layout config input machine).machine = machine := rfl

/-- Posting a request leaves the stages. -/
@[simp]
theorem post_stages (s : Service σ ρ ι) (p : Posted ρ ι) (info text : SendResult) :
    (s.post layout p info text).stages = s.stages := by
  unfold post
  split <;> rfl

/-- What the server does by itself leaves the stages. -/
@[simp]
theorem serve_stages (s : Service σ ρ ι) (input : ServerInput ι) (machine : Machine σ ρ ι) :
    (s.serve layout config input machine).stages = s.stages := by
  unfold serve
  split <;> simp

/-- An event of the server is a step of its machine. -/
theorem step_server {input : ServerInput ι} (hstep : s.step layout config (.server input) = some t) :
    ∃ machine, s.machine.step π config input = some machine ∧ t = s.serve layout config input machine := by
  simp only [step] at hstep
  split_ifs at hstep
  obtain ⟨machine, hmachine, rfl⟩ := Option.map_eq_some_iff.mp hstep
  exact ⟨machine, hmachine, rfl⟩

/-- A delivery is a job submitted to its stage. -/
theorem step_deliver {stage k : ℕ} {upstream : Frame}
    (hstep : s.step layout config (.deliver stage k upstream) = some t) :
    ∃ number job workshop, s.arriving stage k upstream = some (number, job) ∧
      (s.stages stage).step (.submit job) = some workshop ∧
      t = { s with
        underway := Function.update s.underway stage ((s.underway stage).eraseIdx k)
        stages := Function.update s.stages stage workshop
        origin :=
          Function.update s.origin stage
            (Function.update (s.origin stage) (s.stages stage).submitted.length number) } := by
  simp only [step] at hstep
  cases harriving : s.arriving stage k upstream with
  | none => simp [harriving] at hstep
  | some arriving =>
    simp only [harriving] at hstep
    obtain ⟨workshop, hworkshop, rfl⟩ := Option.map_eq_some_iff.mp hstep
    exact ⟨arriving.1, arriving.2, workshop, rfl, hworkshop, rfl⟩

/-- Work is a step of its stage, and what it has sent goes on. -/
theorem step_work {stage : ℕ} {event : Workshop.Event}
    (hstep : s.step layout config (.work stage event) = some t) :
    event.internal = true ∧
      ∃ workshop, (s.stages stage).step event = some workshop ∧ t = s.advance stage workshop := by
  simp only [step] at hstep
  split_ifs at hstep with hinternal
  obtain ⟨workshop, hworkshop, rfl⟩ := Option.map_eq_some_iff.mp hstep
  exact ⟨hinternal, workshop, hworkshop, rfl⟩

/-- An interrupt that the server has published is a step of the stage that hears it. -/
theorem step_interrupt {stage : ℕ} {w : Frame} {key : UInt64}
    (hstep : s.step layout config (.interrupt stage w key) = some t) :
    .interrupt key ∈ s.machine.wire ∧
      ∃ workshop, (s.stages stage).step (.interrupt w key) = some workshop ∧
        t = s.advance stage workshop := by
  simp only [step] at hstep
  split_ifs at hstep with hpublished
  obtain ⟨workshop, hworkshop, rfl⟩ := Option.map_eq_some_iff.mp hstep
  exact ⟨hpublished, workshop, hworkshop, rfl⟩

/-- A result that arrives is a step of the server's machine. -/
theorem step_receive {k : ℕ} {sends : DequeueSends}
    (hstep : s.step layout config (.receive k sends) = some t) :
    ∃ number input machine, s.arrived layout k sends = some (number, input) ∧
      s.machine.step π config input = some machine ∧
      t = { s with machine, loopback := s.loopback.eraseIdx k, received := s.received ++ [number] } := by
  simp only [step] at hstep
  cases harrived : s.arrived layout k sends with
  | none => simp [harrived] at hstep
  | some arrived =>
    simp only [harrived] at hstep
    obtain ⟨machine, hmachine, rfl⟩ := Option.map_eq_some_iff.mp hstep
    exact ⟨arrived.1, arrived.2, machine, rfl, hmachine, rfl⟩

/-- In a service, the server runs as it does alone. -/
theorem machine_isComponent :
    IsComponent (step layout config) (Machine.step π config) machine (serverInput layout) where
  of_input_eq_none {s t event} hstep hinput := by
    cases event with
    | server input => simp [serverInput] at hinput
    | receive k sends =>
      obtain ⟨number, input, machine, harrived, -, -⟩ := step_receive hstep
      simp [serverInput, harrived] at hinput
    | deliver stage k upstream =>
      obtain ⟨number, job, workshop, -, -, rfl⟩ := step_deliver hstep
      rfl
    | work stage event =>
      obtain ⟨-, workshop, -, rfl⟩ := step_work hstep
      rfl
    | interrupt stage w key =>
      obtain ⟨-, workshop, -, rfl⟩ := step_interrupt hstep
      rfl
  of_input_eq_some {s t event input} hstep hinput := by
    cases event with
    | server input' =>
      obtain rfl := Option.some.inj hinput
      obtain ⟨machine, hmachine, rfl⟩ := step_server hstep
      exact hmachine
    | receive k sends =>
      obtain ⟨number, input', machine, harrived, hmachine, rfl⟩ := step_receive hstep
      obtain rfl : input' = input := by simpa [serverInput, harrived] using hinput
      exact hmachine
    | deliver | work | interrupt => cases hinput

/-- Only the stage that an event is for goes on. -/
theorem step_stages {event : Event ι} (hstep : s.step layout config event = some t) (i : ℕ) :
    (stageInput i s event = none ∧ t.stages i = s.stages i) ∨
      ∃ input, stageInput i s event = some input ∧ (s.stages i).step input = some (t.stages i) := by
  have hupdate : ∀ {stage : ℕ} {input : Workshop.Event} {workshop : Workshop},
      (s.stages stage).step input = some workshop →
        (stage ≠ i ∧ Function.update s.stages stage workshop i = s.stages i) ∨
          (stage = i ∧ (s.stages i).step input = some (Function.update s.stages stage workshop i)) := by
    intro stage input workshop hworkshop
    by_cases hi : stage = i
    · subst hi
      exact Or.inr ⟨rfl, by simpa using hworkshop⟩
    · exact Or.inl ⟨hi, Function.update_of_ne (Ne.symm hi) _ _⟩
  cases event with
  | server input =>
    obtain ⟨machine, -, rfl⟩ := step_server hstep
    exact Or.inl ⟨rfl, by simp⟩
  | receive k sends =>
    obtain ⟨number, input, machine, -, -, rfl⟩ := step_receive hstep
    exact Or.inl ⟨rfl, rfl⟩
  | deliver stage k upstream =>
    obtain ⟨number, job, workshop, harriving, hworkshop, rfl⟩ := step_deliver hstep
    simp only [stageInput, harriving, Option.map_some]
    refine (hupdate hworkshop).imp (fun h => ⟨if_neg h.1, h.2⟩) fun h => ⟨_, if_pos h.1, h.2⟩
  | work stage event =>
    obtain ⟨-, workshop, hworkshop, rfl⟩ := step_work hstep
    exact (hupdate hworkshop).imp (fun h => ⟨if_neg h.1, h.2⟩) fun h => ⟨_, if_pos h.1, h.2⟩
  | interrupt stage w key =>
    obtain ⟨-, workshop, hworkshop, rfl⟩ := step_interrupt hstep
    exact (hupdate hworkshop).imp (fun h => ⟨if_neg h.1, h.2⟩) fun h => ⟨_, if_pos h.1, h.2⟩

/-- In a service, each stage runs as it does alone. -/
theorem stage_isComponent (i : ℕ) :
    IsComponent (step layout config) Workshop.step (fun s => s.stages i) (stageInput i) where
  of_input_eq_none hstep hinput := by
    rcases step_stages hstep i with ⟨-, hsame⟩ | ⟨input, hsome, -⟩
    · exact hsame
    · simp [hinput] at hsome
  of_input_eq_some hstep hinput := by
    rcases step_stages hstep i with ⟨hnone, -⟩ | ⟨input, hsome, hinputStep⟩
    · simp [hinput] at hnone
    · obtain rfl := Option.some.inj (hsome.symm.trans hinput)
      exact hinputStep

end Steps

end Service

end PrimeServer
