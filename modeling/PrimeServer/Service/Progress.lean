import PrimeServer.Pipeline.Progress
import PrimeServer.Service.Places

/-!
# A service does not get stuck

Whatever has happened in a service, each request that the server has sent on can come back to the server, or
be dropped by a worker that has no result for it: the stages finish their jobs one after the other, and what
they send on is taken by the next stage or by the server.

## Main results

* `Service.Live.step`: what keeps a service going is kept by each step in which nothing is lost;
* `Service.Live.canReach_beyond`: what is in a stage can leave it;
* `Service.drained_of_run`: from each state of each run, the service can finish all requests.
-/

namespace PrimeServer

open Transition

namespace Workshop.Content

variable {work : WorkFunction} {s : Workshop}

/-- What is known for a work function is known for any. -/
theorem any (h : s.Content work) : s.Content .any where
  sound := h.sound
  upstream := h.upstream
  inbox := h.inbox
  hands := h.hands
  working := h.working
  unsent := h.unsent
  sent m hm := by
    obtain ⟨job, hjob, hcarries⟩ := h.sent m hm
    refine ⟨job, hjob, ?_⟩
    cases hcarries with
    | intermediate hreturns hintermediate => exact .intermediate (work.whole hreturns) hintermediate
    | final hreturns hfinal hmessages => exact .final (work.whole hreturns) hfinal hmessages

/-- A message begins with a request info. -/
theorem frames_ne_nil (h : s.Content work) {m : SentOn} (hm : m ∈ s.sent) : m.frames ≠ [] := by
  obtain ⟨job, -, hcarries⟩ := h.sent m hm
  cases hcarries <;> simp

/-- Only intermediate results go to the next stage. -/
theorem loopback_of_final (h : s.Content work)
    (hfinal : ∀ info frames result left, work.Returns info frames result left →
      result.intermediate = false) {m : SentOn} (hm : m ∈ s.sent) : m.loopback = true := by
  obtain ⟨job, -, hcarries⟩ := h.sent m hm
  cases hcarries with
  | final => rfl
  | intermediate hreturns hintermediate =>
    rw [hfinal _ _ _ _ hreturns] at hintermediate
    cases hintermediate

end Workshop.Content

namespace Workshop

variable {work : WorkFunction} {s t : Workshop}

/-- A job that a step moves is elsewhere in the stage, or has just been concluded. -/
theorem Live.mem_occupants_or_concluded (h : s.Live work) (ht : t.Live work) {event : Event}
    (hsubmitted : t.submitted = s.submitted) (hstep : s.step event = some t) {number : ℕ} {place : Place}
    (hplace : place ≠ .concluded) (hnumber : number ∈ s.occupants place) :
    (∃ place ≠ .concluded, number ∈ t.occupants place) ∨
      number ∈ t.concluded.drop s.concluded.length := by
  obtain ⟨before, hbefore⟩ := h.placed
  obtain ⟨after, hafter⟩ := ht.placed
  have hlt : number < t.submitted.length := hsubmitted ▸ hbefore.lt_of_mem hnumber
  obtain ⟨place', hplace', -⟩ := hafter.existsUnique hlt
  by_cases hconcluded : place' = .concluded
  · subst hconcluded
    obtain ⟨new, hnew⟩ := concluded_of_step h.content hstep
    -- it was not concluded before
    have hold : number ∉ s.concluded := fun hmem =>
      hplace (((hbefore.mem_iff place number).mp hnumber).2.symm.trans
        ((hbefore.mem_iff .concluded number).mp hmem).2)
    have hmem : number ∈ s.concluded ++ new := by rwa [hnew]
    refine Or.inr ?_
    rw [← hnew, List.drop_left]
    exact (List.mem_append.mp hmem).resolve_left hold
  · exact Or.inl ⟨place', hconcluded, hplace'⟩

end Workshop

namespace Service

variable {σ ρ ι : Type} {π : Protocol σ ρ ι} {layout : InfoLayout π} {config : ServerConfig ρ}
  {s t : Service σ ρ ι} {works : ℕ → WorkFunction} {last : ℕ}

/-- Nothing is lost in the stages and no worker ends, and work functions return what they may: no choice function
throws, the functions of the user throw at most a `std::exception`, no intermediate result is without messages,
and no interrupt has the key that a worker has between jobs. Nothing is asked of the server. -/
def Harmless (works : ℕ → WorkFunction) (s : Service σ ρ ι) : Event ι → Prop
  | .work stage event => (s.stages stage).Returns (works stage) event ∧ event.Harmless
  | .interrupt _ _ key => key ≠ noJob
  | .server _ | .deliver _ _ _ | .receive _ _ => True

/-- Whether an event is harmless is decidable where it is for the work functions. -/
instance [∀ i info frames result left, Decidable ((works i).Returns info frames result left)] :
    (event : Event ι) → Decidable (s.Harmless works event)
  | .work stage event =>
    inferInstanceAs (Decidable ((s.stages stage).Returns (works stage) event ∧ event.Harmless))
  | .interrupt _ _ key => inferInstanceAs (Decidable (key ≠ noJob))
  | .server _ | .deliver _ _ _ | .receive _ _ => isTrue trivial

/-- The work functions of this stage and those after it have no intermediate results, so that a request comes
back from this stage at the latest. -/
def Ends (works : ℕ → WorkFunction) (last : ℕ) : Prop :=
  ∀ i ≥ last, ∀ info frames result left, (works i).Returns info frames result left →
    result.intermediate = false

/-- What a harmless event gives a stage is harmless there. -/
theorem Harmless.stageInput {event : Event ι} (h : s.Harmless works event) {i : ℕ}
    {input : Workshop.Event} (hinput : stageInput i s event = some input) :
    (s.stages i).Returns (works i) input ∧ input.Harmless := by
  cases event with
  | server | receive => cases hinput
  | deliver stage k upstream =>
    simp only [Service.stageInput] at hinput
    split_ifs at hinput
    obtain ⟨arriving, -, rfl⟩ := Option.map_eq_some_iff.mp hinput
    exact ⟨trivial, trivial⟩
  | work stage event =>
    simp only [Service.stageInput] at hinput
    split_ifs at hinput with hi
    obtain rfl := Option.some.inj hinput
    subst hi
    exact h
  | interrupt stage w key =>
    simp only [Service.stageInput] at hinput
    split_ifs at hinput
    obtain rfl := Option.some.inj hinput
    exact ⟨trivial, h⟩

/-- A harmless event loses nothing. -/
theorem Harmless.lossless {event : Event ι} (h : s.Harmless works event) : s.Lossless event := by
  cases event with
  | server | deliver | interrupt | receive => trivial
  | work stage event =>
    cases event with
    | forward => exact h.2
    | finish w result left =>
      have hreturns := h.1
      simp only [Workshop.Returns] at hreturns
      simp only [Lossless, Workshop.Returns]
      cases hcontrol : ((s.stages stage).workers w).control with
      | working => exact (works stage).whole (by rwa [hcontrol] at hreturns)
      | advertising | polling | cleaning | checking | escaped => trivial
    | _ => trivial

/-- What keeps a service going. -/
structure Live (works : ℕ → WorkFunction) (last : ℕ) (s : Service σ ρ ι) : Prop where
  /-- Each stage can go on. -/
  stages : ∀ i, (s.stages i).Live (works i)
  /-- Each request is in one place. -/
  placed : s.Placed
  /-- The messages to the proxies have frames. -/
  underway : ∀ i, ∀ entry ∈ s.underway i, entry.2 ≠ []
  /-- The messages to the server have frames. -/
  loopback : ∀ entry ∈ s.loopback, entry.2 ≠ []
  /-- Nothing was sent beyond the last stage. -/
  short : ∀ i > last, s.underway i = []

/-- Before the first event nothing can be stuck. -/
theorem live_start (works : ℕ → WorkFunction) (last : ℕ) (heartBeat : ℕ → Frame → Frame) :
    (start heartBeat : Service σ ρ ι).Live works last where
  stages i := Workshop.live_start (works i) (heartBeat i)
  placed := placed_start heartBeat
  underway _ _ hentry := by simp [start] at hentry
  loopback _ hentry := by simp [start] at hentry
  short _ _ := rfl

/-! ### Steps -/

/-- What holds of the messages underway. -/
theorem Live.underway_advance (h : s.Live works last) (hends : Ends works last) {stage : ℕ}
    {workshop : Workshop} (hworkshop : workshop.Content (works stage)) :
    (∀ i, ∀ entry ∈ (s.advance stage workshop).underway i, entry.2 ≠ []) ∧
      (∀ entry ∈ (s.advance stage workshop).loopback, entry.2 ≠ []) ∧
      ∀ i > last, (s.advance stage workshop).underway i = [] := by
  refine ⟨fun i entry hentry => ?_, fun entry hentry => ?_, fun i hi => ?_⟩
  · by_cases hstage : i = stage + 1
    · subst hstage
      simp only [advance, Function.update_self, List.mem_append, List.mem_map, List.mem_filter] at hentry
      rcases hentry with hentry | ⟨m, ⟨hm, -⟩, rfl⟩
      · exact h.underway _ entry hentry
      · exact hworkshop.frames_ne_nil (List.mem_of_mem_drop hm)
    · simp only [advance, Function.update_of_ne hstage] at hentry
      exact h.underway i entry hentry
  · simp only [advance, List.mem_append, List.mem_map, List.mem_filter] at hentry
    rcases hentry with hentry | ⟨m, ⟨hm, -⟩, rfl⟩
    · exact h.loopback entry hentry
    · exact hworkshop.frames_ne_nil (List.mem_of_mem_drop hm)
  · by_cases hstage : i = stage + 1
    · subst hstage
      simp only [advance, Function.update_self, h.short _ hi, List.nil_append, List.map_eq_nil_iff,
        List.filter_eq_nil_iff]
      -- from the last stage on, nothing is sent to the next one
      intro m hm
      rw [hworkshop.loopback_of_final (hends stage (by omega)) (List.mem_of_mem_drop hm)]
      simp
    · simp only [advance, Function.update_of_ne hstage]
      exact h.short i hi

/-- A request that is posted is underway to the first stage, and not without frames. -/
theorem Live.underway_post (h : s.Live works last) (p : Posted ρ ι) (info text : SendResult) :
    (∀ i, ∀ entry ∈ (s.post layout p info text).underway i, entry.2 ≠ []) ∧
      (∀ entry ∈ (s.post layout p info text).loopback, entry.2 ≠ []) ∧
      ∀ i > last, (s.post layout p info text).underway i = [] := by
  unfold post
  split
  case h_1 body hbody =>
    refine ⟨fun i entry hentry => ?_, h.loopback, fun i hi => ?_⟩
    · by_cases hfirst : i = 0
      · subst hfirst
        simp only [Function.update_self, List.mem_append, List.mem_singleton] at hentry
        rcases hentry with hentry | rfl
        · exact h.underway 0 entry hentry
        · simp
      · simp only [Function.update_of_ne hfirst] at hentry
        exact h.underway i entry hentry
    · simp only [Function.update_of_ne (Nat.ne_of_gt (Nat.zero_lt_of_lt hi))]
      exact h.short i hi
  case h_2 => exact ⟨h.underway, h.loopback, h.short⟩
  case h_3 => exact ⟨h.underway, h.loopback, h.short⟩

/-- A step in which nothing is lost keeps the service going. -/
theorem Live.step (h : s.Live works last) (hends : Ends works last) {event : Event ι}
    (hharmless : s.Harmless works event) (hstep : s.step layout config event = some t) :
    t.Live works last := by
  have hstages : ∀ i, (t.stages i).Live (works i) := by
    intro i
    rcases step_stages hstep i with ⟨-, hsame⟩ | ⟨input, hinput, hworkshop⟩
    · rw [hsame]
      exact h.stages i
    · obtain ⟨hreturns, hinput⟩ := hharmless.stageInput hinput
      exact (h.stages i).step hreturns hinput hworkshop
  -- a harmless event loses nothing
  have hplaced : t.Placed :=
    h.placed.step (fun i => (h.stages i).content.any) hharmless.lossless hstep
  -- no message without frames is sent on
  have hmessages : (∀ i, ∀ entry ∈ t.underway i, entry.2 ≠ []) ∧
      (∀ entry ∈ t.loopback, entry.2 ≠ []) ∧ ∀ i > last, t.underway i = [] := by
    cases event with
    | server input =>
      obtain ⟨machine, -, rfl⟩ := step_server hstep
      unfold serve
      split
      case h_1 => exact ⟨h.underway, h.loopback, h.short⟩
      case h_2 p info text hposts => exact h.underway_post p info text
    | deliver stage k upstream =>
      obtain ⟨number, job, workshop, -, -, rfl⟩ := step_deliver hstep
      refine ⟨fun i entry hentry => ?_, h.loopback, fun i hi => ?_⟩
      · by_cases hi : i = stage
        · subst hi
          simp only [Function.update_self] at hentry
          exact h.underway i entry (List.mem_of_mem_eraseIdx hentry)
        · simp only [Function.update_of_ne hi] at hentry
          exact h.underway i entry hentry
      · by_cases hstage : i = stage
        · subst hstage
          simp [h.short i hi]
        · simp only [Function.update_of_ne hstage]
          exact h.short i hi
    | work stage event =>
      obtain ⟨-, workshop, -, rfl⟩ := step_work hstep
      have hworkshop := (hstages stage).content
      simp only [advance, Function.update_self] at hworkshop
      exact h.underway_advance hends hworkshop
    | interrupt stage w key =>
      obtain ⟨-, workshop, -, rfl⟩ := step_interrupt hstep
      have hworkshop := (hstages stage).content
      simp only [advance, Function.update_self] at hworkshop
      exact h.underway_advance hends hworkshop
    | receive k sends =>
      obtain ⟨number, input, machine, -, -, rfl⟩ := step_receive hstep
      exact ⟨h.underway, fun entry hentry => h.loopback entry (List.mem_of_mem_eraseIdx hentry), h.short⟩
  exact ⟨hstages, hplaced, hmessages.1, hmessages.2.1, hmessages.2.2⟩

/-! ### Ways on -/

/-- The service goes on by itself: nothing comes from clients, no interrupt arrives and nothing times out. The
server sends each response, and where it is to close the connection the closing frame finds the socket full. -/
def GoesOn (works : ℕ → WorkFunction) (s : Service σ ρ ι) : Event ι → Prop
  | .deliver _ _ _ => True
  | .work stage event => (s.stages stage).GoesOn (works stage) event
  | .receive _ sends => sends = ⟨.accepted, .again⟩
  | .server _ | .interrupt _ _ _ => False

/-- An event with which the service goes on is harmless. -/
theorem GoesOn.harmless {event : Event ι} (h : s.GoesOn works event) : s.Harmless works event := by
  cases event with
  | deliver | receive => trivial
  | work => exact ⟨h.1, h.2.harmless⟩
  | server | interrupt => exact h.elim

/-- The server takes a result as long as it is in `serve`, and stays there. -/
theorem control_result (m : Machine σ ρ ι) (info : ι) (response : Bytes) :
    (m.result π info response ⟨.accepted, .again⟩).control = m.control := by
  have hspec := m.result_spec π info response ⟨.accepted, .again⟩
  generalize m.result π info response ⟨.accepted, .again⟩ = t at hspec ⊢
  cases hspec with
  | returned | threw => rfl
  | undefined hdequeue =>
    cases Server.dequeues_of_eq hdequeue with
    | undefined hcloses => cases hcloses.2.2.2

/-- An event with which the service goes on leaves the server serving. -/
theorem serving_of_step (hserving : s.machine.control = .serving) {event : Event ι}
    (hgoes : s.GoesOn works event) (hstep : s.step layout config event = some t) :
    t.machine.control = .serving := by
  cases event with
  | server | interrupt => exact hgoes.elim
  | deliver stage k upstream =>
    obtain ⟨_, _, _, -, -, rfl⟩ := step_deliver hstep
    exact hserving
  | work stage event =>
    obtain ⟨-, _, -, rfl⟩ := step_work hstep
    exact hserving
  | receive k sends =>
    obtain ⟨number, input, machine, harrived, hmachine, rfl⟩ := step_receive hstep
    obtain rfl : sends = ⟨.accepted, .again⟩ := hgoes
    unfold arrived at harrived
    split at harrived
    case h_1 info frames _ =>
      obtain ⟨-, rfl⟩ := by simpa using harrived
      simp only [Machine.step, hserving, Option.some.injEq] at hmachine
      rw [← hmachine, control_result, hserving]
    case h_2 => cases harrived

/-- What has come back stays there, and no request is new. -/
theorem back_of_step {event : Event ι} (hgoes : s.GoesOn works event)
    (hstep : s.step layout config event = some t) :
    t.posted = s.posted ∧ s.received <+: t.received ∧ s.dropped <+: t.dropped := by
  cases event with
  | server | interrupt => exact hgoes.elim
  | deliver stage k upstream =>
    obtain ⟨_, _, _, -, -, rfl⟩ := step_deliver hstep
    exact ⟨rfl, List.prefix_rfl, List.prefix_rfl⟩
  | work stage event =>
    obtain ⟨-, _, -, rfl⟩ := step_work hstep
    exact ⟨rfl, List.prefix_rfl, List.prefix_append _ _⟩
  | receive k sends =>
    obtain ⟨number, input, machine, -, -, rfl⟩ := step_receive hstep
    exact ⟨rfl, List.prefix_append _ _, List.prefix_rfl⟩

/-- The server has a result for the request, or a worker had none. -/
def Back (number : ℕ) (s : Service σ ρ ι) : Prop := number ∈ s.received ∨ number ∈ s.dropped

/-- The service keeps going, and the server is ready for a result. -/
structure Ready (works : ℕ → WorkFunction) (last : ℕ) (s : Service σ ρ ι) : Prop where
  /-- No request is stuck. -/
  live : s.Live works last
  /-- The server waits for a message. -/
  serving : s.machine.control = .serving

/-- An event with which the service goes on leaves it ready. -/
theorem Ready.step (h : s.Ready works last) (hends : Ends works last) {event : Event ι}
    (hgoes : s.GoesOn works event) (hstep : s.step layout config event = some t) :
    t.Ready works last :=
  ⟨h.live.step hends hgoes.harmless hstep, serving_of_step h.serving hgoes hstep⟩

/-- A message is at some position. -/
theorem exists_getElem? {l : List (ℕ × List Frame)} {number : ℕ} (h : number ∈ l.map Prod.fst)
    (hframes : ∀ entry ∈ l, entry.2 ≠ []) :
    ∃ (k : ℕ) (info : Frame) (frames : List Frame), l[k]? = some (number, info :: frames) := by
  obtain ⟨⟨_, frames⟩, hentry, rfl⟩ := List.mem_map.mp h
  obtain ⟨k, hk⟩ := List.mem_iff_getElem?.mp hentry
  obtain ⟨info, frames', hcons⟩ := List.exists_cons_of_ne_nil (hframes _ hentry)
  exact ⟨k, info, frames', hk.trans (by rw [← hcons])⟩

/-- The server receives a result that is on its way to it. -/
theorem Ready.canReach_of_loopback (h : s.Ready works last) {number : ℕ}
    (hnumber : number ∈ s.occupants .loopback) :
    CanReach (Service.step layout config) (GoesOn works) (Back number) s := by
  obtain ⟨k, info, frames, hmessage⟩ := exists_getElem? hnumber h.live.loopback
  have harrived : s.arrived layout k ⟨.accepted, .again⟩ =
      some (number, .result (layout.read info) ((info :: frames).getLast (List.cons_ne_nil _ _))
        ⟨.accepted, .again⟩) := by
    simp only [arrived, hmessage]
  have hstep : ∃ t, s.step layout config (.receive k ⟨.accepted, .again⟩) = some t := by
    simp [Service.step, harrived, Machine.step, h.serving]
  obtain ⟨t, hstep⟩ := hstep
  have hgoes : s.GoesOn works (.receive k ⟨.accepted, .again⟩) := rfl
  refine canReach_of_step hgoes hstep (Or.inl ?_)
  obtain ⟨number', input, machine, harrived', -, rfl⟩ := step_receive hstep
  obtain ⟨rfl, -⟩ := by simpa using harrived.symm.trans harrived'
  simp

/-- The request has left the stage, in the right direction. -/
def Beyond (stage number : ℕ) (s : Service σ ρ ι) : Prop :=
  number ∈ s.occupants (.underway (stage + 1)) ∨ number ∈ s.occupants .loopback ∨
    number ∈ s.occupants .dropped

/-- What is beyond a stage stays beyond it when that stage takes a step. -/
theorem Beyond.advance {stage number : ℕ} (h : s.Beyond stage number) (workshop : Workshop) :
    (s.advance stage workshop).Beyond stage number := by
  rcases h with h | h | h
  · refine Or.inl ?_
    rw [occupants_advance_underway]
    exact List.mem_append_left _ h
  · refine Or.inr (Or.inl ?_)
    rw [occupants_advance_loopback]
    exact List.mem_append_left _ h
  · refine Or.inr (Or.inr ?_)
    rw [occupants_advance_dropped]
    exact List.mem_append_left _ h

/-- A request whose job has just been concluded has left the stage. -/
theorem beyond_of_concluded {stage number : ℕ} {workshop : Workshop}
    (h : number ∈ workshop.concluded.drop (s.stages stage).concluded.length) :
    (s.advance stage workshop).Beyond stage (s.origin stage number) := by
  by_cases hsent : number ∈ (workshop.sent.drop (s.stages stage).sent.length).map SentOn.job
  · obtain ⟨m, hm, rfl⟩ := List.mem_map.mp hsent
    cases hloopback : m.loopback with
    | true =>
      refine Or.inr (Or.inl ?_)
      rw [occupants_advance_loopback]
      exact List.mem_append_right _
        (List.mem_map_of_mem (List.mem_filter.mpr ⟨hm, hloopback⟩))
    | false =>
      refine Or.inl ?_
      rw [occupants_advance_underway, if_pos rfl]
      exact List.mem_append_right _
        (List.mem_map_of_mem (List.mem_filter.mpr ⟨hm, by rw [hloopback]; rfl⟩))
  · refine Or.inr (Or.inr ?_)
    rw [occupants_advance_dropped]
    exact List.mem_append_right _
      (List.mem_map_of_mem (List.mem_filter.mpr ⟨h, by simpa using hsent⟩))

/-- What is in a stage can leave it. -/
theorem Ready.canReach_beyond (h : s.Ready works last) (hends : Ends works last)
    (htotal : ∀ i, (works i).Total) (stage number : ℕ) {place : PrimeServer.Place}
    (hplace : place ≠ .concluded) (hnumber : number ∈ (s.stages stage).occupants place) :
    CanReach (Service.step layout config) (GoesOn works)
      (fun t => t.Ready works last ∧ t.Beyond stage (s.origin stage number)) s := by
  -- the stage goes on alone
  have hway : CanReach (Service.step layout config)
      (fun s event => s.GoesOn works event ∧ ∃ event', event = .work stage event')
      (fun s => number ∈ (s.stages stage).concluded) s := by
    have halone : (s.stages stage).CanConclude (works stage) number :=
      (h.live.stages stage).canReach_concluded (htotal stage)
        ((h.live.stages stage).content.lt_of_mem hplace hnumber)
    refine CanReach.lift (p := fun s : Service σ ρ ι => s.stages stage) ?hlift halone
    case hlift =>
      intro s event workshop hgoes hstep
      have hinternal : event.internal = true := by
        have hown := hgoes.2
        cases event with
        | submit | interrupt => exact hown.elim
        | _ => rfl
      refine ⟨.work stage event, s.advance stage workshop, ⟨hgoes, event, rfl⟩, ?_, ?_⟩
      · simp only [Service.step, if_pos hinternal, hstep, Option.map_some]
      · exact Function.update_self _ _ _
  -- on the way, its job is in the stage or the request has left it
  have hkept := hway.keep (I := fun t => t.Ready works last ∧ t.origin = s.origin ∧
    ((∃ place ≠ .concluded, number ∈ (t.stages stage).occupants place) ∨
      t.Beyond stage (s.origin stage number))) ⟨h, rfl, Or.inl ⟨place, hplace, hnumber⟩⟩ ?hkeep
  case hkeep =>
    rintro t _ u ⟨ht, horigin, hwhere⟩ ⟨hgoes, event, rfl⟩ hstep
    have hu := ht.step hends hgoes hstep
    obtain ⟨hinternal, workshop, hworkshop, rfl⟩ := step_work hstep
    refine ⟨hu, horigin, ?_⟩
    rcases hwhere with ⟨place, hplace, hnumber⟩ | hbeyond
    · have hlive := hu.live.stages stage
      simp only [Service.advance, Function.update_self] at hlive ⊢
      have hsame := Workshop.submitted_of_step (ht.live.stages stage).content.sound
        (submitted_of_internal hinternal) hworkshop
      rcases (ht.live.stages stage).mem_occupants_or_concluded hlive hsame hworkshop hplace hnumber with
        hin | hconcluded
      · exact Or.inl hin
      · rw [← horigin]
        exact Or.inr (beyond_of_concluded hconcluded)
    · exact Or.inr (hbeyond.advance workshop)
  apply (hkept.imp fun t event hC => hC.1).mono
  rintro t ⟨hconcluded, ht, -, ⟨place', hplace', hnumber'⟩ | hbeyond⟩
  · -- the job is concluded, so that it is nowhere else
    obtain ⟨where', hplaced⟩ := (ht.live.stages stage).placed
    have heq := ((hplaced.mem_iff place' number).mp hnumber').2.symm.trans
      ((hplaced.mem_iff .concluded number).mp hconcluded).2
    exact absurd heq hplace'
  · exact ⟨ht, hbeyond⟩

/-- What is on its way to a stage can come back. After the last stage there is nothing on its way. -/
theorem Ready.canReach_of_underway (h : s.Ready works last) (hends : Ends works last)
    (htotal : ∀ i, (works i).Total) {stage number : ℕ}
    (hnumber : number ∈ s.occupants (.underway stage)) :
    CanReach (Service.step layout config) (GoesOn works) (Back number) s := by
  induction hd : last + 1 - stage generalizing s stage with
  | zero =>
    have hempty := h.live.short stage (by omega)
    simp [occupants, hempty] at hnumber
  | succ d ih =>
    obtain ⟨k, info, frames, hmessage⟩ := exists_getElem? hnumber (h.live.underway stage)
    have harriving : s.arriving stage k [] = some (number, { upstream := [], info, frames }) := by
      simp only [arriving, hmessage]
    obtain ⟨t, hstep⟩ : ∃ t, s.step layout config (.deliver stage k []) = some t := by
      simp [Service.step, harriving, Workshop.step]
    have hgoes : s.GoesOn works (.deliver stage k []) := trivial
    have ht := h.step hends hgoes hstep
    apply CanReach.of_step hgoes hstep
    obtain ⟨number', job, workshop, harriving', hworkshop, rfl⟩ := step_deliver hstep
    obtain ⟨rfl, rfl⟩ := by simpa using harriving.symm.trans harriving'
    obtain rfl := Option.some.inj hworkshop
    -- it is the last of the jobs that wait for the proxy
    have hplace : PrimeServer.Place.upstream ≠ .concluded := by simp
    apply (ht.canReach_beyond hends htotal stage (s.stages stage).submitted.length hplace
      (by simp [Workshop.occupants])).trans
    rintro u ⟨hu, hbeyond⟩
    simp only [Function.update_self] at hbeyond
    rcases hbeyond with hnext | hloopback | hdropped
    · exact ih hu hnext (by omega)
    · exact hu.canReach_of_loopback hloopback
    · exact canReach_self (Or.inr hdropped)

/-- Each request can come back. -/
theorem Ready.canReach_back (h : s.Ready works last) (hends : Ends works last)
    (htotal : ∀ i, (works i).Total) {number : ℕ} (hnumber : number < s.posted.length) :
    CanReach (Service.step layout config) (GoesOn works) (Back number) s := by
  obtain ⟨place, hplaced⟩ := h.live.placed
  obtain ⟨place, hplace, -⟩ := hplaced.existsUnique hnumber
  cases place with
  | underway stage => exact h.canReach_of_underway hends htotal hplace
  | loopback => exact h.canReach_of_loopback hplace
  | received => exact canReach_self (Or.inl hplace)
  | dropped => exact canReach_self (Or.inr hplace)
  | stage stage place =>
    by_cases hconcluded : place = .concluded
    · subst hconcluded
      cases hplace
    · rw [occupants_stage _ _ hconcluded] at hplace
      obtain ⟨j, hj, rfl⟩ := List.mem_map.mp hplace
      apply (h.canReach_beyond hends htotal stage j hconcluded hj).trans
      rintro t ⟨ht, hnext | hloopback | hdropped⟩
      · exact ht.canReach_of_underway hends htotal hnext
      · exact ht.canReach_of_loopback hloopback
      · exact canReach_self (Or.inr hdropped)

/-- After a run in which nothing is lost, there is a way on that ends where all requests are back. -/
theorem canReach_back_of_run (hends : Ends works last) (htotal : ∀ i, (works i).Total)
    {heartBeat : ℕ → Frame → Frame} {events : List (Event ι)}
    (hmeet : StepsMeet (step layout config) (start heartBeat) events (Harmless works))
    (hrun : run (step layout config) (start heartBeat) events = some s)
    (hserving : s.machine.control = .serving) :
    s.Ready works last ∧ CanReach (step layout config) (GoesOn works)
      (fun t => t.posted = s.posted ∧ ∀ number < s.posted.length, Back number t) s := by
  have hstart : (start heartBeat : Service σ ρ ι).Live works last := live_start works last heartBeat
  have hlive : s.Live works last :=
    invariant_of_stepsMeet hstart (fun _ _ _ hs hC hstep => hs.step hends hC hstep) hmeet hrun
  have hway : CanReach (step layout config) (GoesOn works) (fun t =>
      (t.Ready works last ∧ t.posted = s.posted) ∧ ∀ number < s.posted.length, Back number t) s := by
    refine canReach_of_forall (I := fun t : Service σ ρ ι => t.Ready works last ∧ t.posted = s.posted)
      ⟨⟨hlive, hserving⟩, rfl⟩ ?hkeep ?hgoal
    case hkeep =>
      rintro t event u ⟨ht, hposted⟩ hgoes hstep
      obtain ⟨hsame, hreceived, hdropped⟩ := back_of_step hgoes hstep
      exact ⟨⟨ht.step hends hgoes hstep, hsame.trans hposted⟩,
        fun _ hback => hback.imp (fun h => hreceived.mem h) fun h => hdropped.mem h⟩
    case hgoal =>
      rintro t ⟨ht, hposted⟩ number hnumber
      exact ht.canReach_back hends htotal (hposted ▸ hnumber)
  exact ⟨⟨hlive, hserving⟩, hway.mono fun t ht => ⟨ht.1.2, ht.2⟩⟩

/-- A client connects and sends a request, and the message is on its way. -/
def oneRequest : List (Event NetstringRequestInfo) := oneAnswer.take 4

end Service

end PrimeServer
