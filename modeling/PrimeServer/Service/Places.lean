import PrimeServer.Service.Answers

/-!
# Where requests are

Each request that the server has sent on is in one place at any time: on its way to a proxy, in a stage, on
its way back, received by the server, or dropped by a worker that was done with it without a result. None is
lost or duplicated, unless a choice function throws.

## Main results

* `Service.placed_of_run`: this holds in every run in which no choice function throws and no intermediate
  result is without messages.
-/

namespace PrimeServer

open Transition Placement

variable {σ ρ ι : Type} {π : Protocol σ ρ ι} {layout : InfoLayout π} {config : ServerConfig ρ}

/-- Where a request can be. -/
inductive Service.Place where
  /-- On its way to the proxy of a stage. -/
  | underway (stage : ℕ)
  /-- In a stage, unless it is concluded there. -/
  | stage (stage : ℕ) (place : PrimeServer.Place)
  /-- On its way to the server. -/
  | loopback
  /-- The server has received a result for it. -/
  | received
  /-- A worker was done with it without sending anything on. -/
  | dropped
  deriving DecidableEq

/-- Any work function whose intermediate results have messages. -/
def WorkFunction.any : WorkFunction where
  Returns _ _ result _ := result.intermediate = true → result.messages ≠ []
  whole h := h

/-- A function that may return anything returns what it likes. -/
instance (info : Frame) (frames : List Frame) (result : WorkResult) (left : Frame) :
    Decidable (WorkFunction.any.Returns info frames result left) :=
  inferInstanceAs (Decidable (result.intermediate = true → result.messages ≠ []))

namespace Workshop

variable {s t : Workshop}

/-- The jobs in a stage were submitted to it. -/
theorem Content.lt_of_mem {work : WorkFunction} (h : s.Content work) {place : Place} {number : ℕ}
    (hplace : place ≠ .concluded) (hnumber : number ∈ s.occupants place) :
    number < s.submitted.length := by
  cases place with
  | upstream =>
    obtain ⟨entry, hentry, rfl⟩ := List.mem_map.mp hnumber
    exact (List.getElem?_eq_some_iff.mp (h.upstream entry hentry)).1
  | inbox w =>
    obtain ⟨entry, hentry, rfl⟩ := List.mem_map.mp hnumber
    exact lt_of_frames (h.inbox w entry hentry)
  | hands w => exact h.hands w number (by simpa [occupants] using hnumber)
  | concluded => exact absurd rfl hplace

end Workshop

namespace Service

variable {s t : Service σ ρ ι}

/-- The requests in a place. -/
def occupants (s : Service σ ρ ι) : Place → List ℕ
  | .underway stage => (s.underway stage).map Prod.fst
  -- what was made of a job that is concluded is somewhere else
  | .stage _ .concluded => []
  | .stage stage place => ((s.stages stage).occupants place).map (s.origin stage)
  | .loopback => s.loopback.map Prod.fst
  | .received => s.received
  | .dropped => s.dropped

/-- Each request is in one place. -/
def Placed (s : Service σ ρ ι) : Prop :=
  ∃ place, Placement.Placed s.posted.length s.occupants place

/-- What a stage holds is numbered by where its jobs came from. -/
theorem occupants_stage (s : Service σ ρ ι) (stage : ℕ) {place : PrimeServer.Place} (h : place ≠ .concluded) :
    s.occupants (.stage stage place) = ((s.stages stage).occupants place).map (s.origin stage) := by
  cases place with
  | concluded => exact absurd rfl h
  | upstream | inbox | hands => rfl

/-- Before the first event no request is anywhere. -/
theorem placed_start (heartBeat : ℕ → Frame → Frame) : (start heartBeat : Service σ ρ ι).Placed := by
  have hempty : (start heartBeat : Service σ ρ ι).occupants = fun _ => [] := by
    funext place
    cases place with
    | stage stage place => cases place <;> rfl
    | underway | loopback | received | dropped => rfl
  rw [Placed, hempty]
  exact ⟨fun _ => .dropped, placed_zero _⟩

/-- A request goes from one place to another. -/
theorem Placed.pick (h : s.Placed) (hposted : t.posted.length = s.posted.length) {p q : Place} (hpq : p ≠ q)
    {before after : List ℕ} {number : ℕ} (hp : s.occupants p = before ++ number :: after)
    (hleft : t.occupants p = before ++ after) (harrived : t.occupants q = s.occupants q ++ [number])
    (hothers : ∀ r, r ≠ p → r ≠ q → t.occupants r = s.occupants r) : t.Placed := by
  obtain ⟨place, hplaced⟩ := h
  exact ⟨_, hposted ▸ hplaced.pick hpq hp hleft harrived hothers⟩

/-! ### A stage goes on -/

section Advance

variable {stage : ℕ} {workshop : Workshop}

/-- A step of one stage moves nothing in the others. -/
theorem occupants_advance_stage (s : Service σ ρ ι) (i : ℕ) {place : PrimeServer.Place}
    (h : place ≠ .concluded) :
    (s.advance stage workshop).occupants (.stage i place) =
      if i = stage then (workshop.occupants place).map (s.origin stage)
      else s.occupants (.stage i place) := by
  rw [occupants_stage _ _ h, occupants_stage _ _ h]
  split_ifs with hi
  · subst hi
    simp [advance]
  · simp [advance, Function.update_of_ne hi]

/-- What a stage sends on is underway to the next one. -/
theorem occupants_advance_underway (s : Service σ ρ ι) (i : ℕ) :
    (s.advance stage workshop).occupants (.underway i) =
      s.occupants (.underway i) ++
        if i = stage + 1 then
          ((workshop.sent.drop (s.stages stage).sent.length).filter fun m => !m.loopback).map
            fun m => s.origin stage m.job
        else [] := by
  split_ifs with hi
  · subst hi
    simp [occupants, advance]
  · simp [occupants, advance, Function.update_of_ne hi]

/-- What a stage sends back is on the loopback. -/
theorem occupants_advance_loopback (s : Service σ ρ ι) :
    (s.advance stage workshop).occupants .loopback =
      s.occupants .loopback ++
        ((workshop.sent.drop (s.stages stage).sent.length).filter fun m => m.loopback).map
          fun m => s.origin stage m.job := by
  simp [occupants, advance]

/-- What a stage concludes without sending it is dropped. -/
theorem occupants_advance_dropped (s : Service σ ρ ι) :
    (s.advance stage workshop).occupants .dropped =
      s.occupants .dropped ++
        ((workshop.concluded.drop (s.stages stage).concluded.length).filter fun number =>
          number ∉ (workshop.sent.drop (s.stages stage).sent.length).map SentOn.job).map
            (s.origin stage) := rfl

/-- A stage that neither sends nor concludes anything changes nothing elsewhere. -/
theorem occupants_advance_of_quiet (hsent : workshop.sent = (s.stages stage).sent)
    (hconcluded : workshop.concluded = (s.stages stage).concluded) {r : Place}
    (hr : ∀ place, r = .stage stage place → place ≠ .concluded →
      workshop.occupants place = (s.stages stage).occupants place) :
    (s.advance stage workshop).occupants r = s.occupants r := by
  cases r with
  | stage i place =>
    by_cases hplace : place = .concluded
    · subst hplace
      rfl
    · rw [occupants_advance_stage s i hplace]
      split_ifs with hi
      · subst hi
        rw [occupants_stage _ _ hplace, hr place rfl hplace]
      · rfl
  | underway i => simp [occupants_advance_underway, hsent]
  | loopback => simp [occupants_advance_loopback, hsent]
  | received => rfl
  | dropped => simp [occupants_advance_dropped, hconcluded]

/-- Two steps of a stage in one. The first neither sends nor concludes anything. -/
theorem advance_advance {first : Workshop} (hsent : first.sent = (s.stages stage).sent)
    (hconcluded : first.concluded = (s.stages stage).concluded) (workshop : Workshop) :
    (s.advance stage first).advance stage workshop = s.advance stage workshop := by
  simp [advance, hsent, hconcluded]

/-- What changes nothing of where the jobs are changes nothing of where the requests are. -/
theorem Placed.same (h : s.Placed) (hsent : workshop.sent = (s.stages stage).sent)
    (hconcluded : workshop.concluded = (s.stages stage).concluded)
    (hplaces : workshop.occupants = (s.stages stage).occupants) : (s.advance stage workshop).Placed := by
  have heq : (s.advance stage workshop).occupants = s.occupants :=
    funext fun _ => occupants_advance_of_quiet hsent hconcluded fun _ _ _ => by rw [hplaces]
  obtain ⟨place, hplaced⟩ := h
  exact ⟨place, heq ▸ hplaced⟩

/-- A job goes from one place in a stage to another. -/
theorem Placed.moveWithin (h : s.Placed) (hsent : workshop.sent = (s.stages stage).sent)
    (hconcluded : workshop.concluded = (s.stages stage).concluded) {p q : PrimeServer.Place}
    (hp : p ≠ .concluded) (hq : q ≠ .concluded) (hpq : p ≠ q) {number : ℕ} {later : List ℕ}
    (hfirst : (s.stages stage).occupants p = number :: later)
    (hmoved : workshop.occupants =
      Function.update (Function.update (s.stages stage).occupants p later) q
        ((s.stages stage).occupants q ++ [number])) :
    (s.advance stage workshop).Placed := by
  have hfirst' : s.occupants (.stage stage p) =
      [] ++ s.origin stage number :: later.map (s.origin stage) := by
    rw [occupants_stage _ _ hp, hfirst]
    rfl
  refine h.pick rfl (p := .stage stage p) (q := .stage stage q) (by simpa using hpq) hfirst' ?_ ?_ ?_
  · rw [occupants_advance_stage s stage hp, if_pos rfl, hmoved, Function.update_of_ne hpq,
      Function.update_self]
    rfl
  · rw [occupants_advance_stage s stage hq, if_pos rfl, hmoved, Function.update_self,
      occupants_stage _ _ hq, List.map_append]
    rfl
  · intro r hrp hrq
    apply occupants_advance_of_quiet hsent hconcluded
    -- nothing else has changed in the stage
    rintro place rfl -
    have hplace : place ≠ p ∧ place ≠ q :=
      ⟨fun heq => hrp (by rw [heq]), fun heq => hrq (by rw [heq])⟩
    rw [hmoved, Function.update_of_ne hplace.2, Function.update_of_ne hplace.1]

/-- A worker is done with its job, and may send a message for it. -/
theorem Placed.release (h : s.Placed) {w : Frame} {number : ℕ}
    (hhands : (s.stages stage).hands w = some number)
    (hconcluded : workshop.concluded = (s.stages stage).concluded ++ [number])
    (hplaces : ∀ place ≠ .concluded, workshop.occupants place =
      if place = .hands w then [] else (s.stages stage).occupants place) (messages : List SentOn)
    (hsent : workshop.sent = (s.stages stage).sent ++ messages)
    (hmessages : messages = [] ∨ ∃ m, messages = [m] ∧ m.job = number) :
    (s.advance stage workshop).Placed := by
  have hdrop : workshop.sent.drop (s.stages stage).sent.length = messages := by
    rw [hsent, List.drop_left]
  have hdone : workshop.concluded.drop (s.stages stage).concluded.length = [number] := by
    rw [hconcluded, List.drop_left]
  have hfirst : s.occupants (.stage stage (.hands w)) = [] ++ s.origin stage number :: [] := by
    rw [occupants_stage _ _ (by simp)]
    simp [Workshop.occupants, hhands]
  have hleft : (s.advance stage workshop).occupants (.stage stage (.hands w)) = [] ++ [] := by
    rw [occupants_advance_stage s stage (by simp), if_pos rfl, hplaces _ (by simp), if_pos rfl]
    rfl
  -- nothing else changes in the stages
  have hstages : ∀ i place, Place.stage i place ≠ .stage stage (.hands w) →
      (s.advance stage workshop).occupants (.stage i place) = s.occupants (.stage i place) := by
    intro i place hne
    by_cases hplace : place = .concluded
    · subst hplace
      rfl
    · rw [occupants_advance_stage s i hplace]
      split_ifs with hi
      · subst hi
        rw [hplaces place hplace, if_neg (by simpa using hne), occupants_stage _ _ hplace]
      · rfl
  rcases hmessages with rfl | ⟨m, rfl, hjob⟩
  · -- the request is dropped
    refine h.pick rfl (by simp) hfirst hleft (q := .dropped) ?_ ?_
    · rw [occupants_advance_dropped, hdrop, hdone]
      rfl
    · intro r hr hdropped
      cases r with
      | stage i place => exact hstages i place hr
      | underway i => simp [occupants_advance_underway, hdrop]
      | loopback => simp [occupants_advance_loopback, hdrop]
      | received => rfl
      | dropped => exact absurd rfl hdropped
  · have hnone : [number].filter (fun number => number ∉ [m].map SentOn.job) = [] := by simp [hjob]
    cases hloopback : m.loopback with
    | true =>
      refine h.pick rfl (by simp) hfirst hleft (q := .loopback) ?_ ?_
      · simp [occupants_advance_loopback, hdrop, hloopback, hjob]
      · intro r hr hne
        cases r with
        | stage i place => exact hstages i place hr
        | underway i => simp [occupants_advance_underway, hdrop, hloopback]
        | loopback => exact absurd rfl hne
        | received => rfl
        | dropped => rw [occupants_advance_dropped, hdrop, hdone, hnone, List.map_nil, List.append_nil]
    | false =>
      refine h.pick rfl (by simp) hfirst hleft (q := .underway (stage + 1)) ?_ ?_
      · simp [occupants_advance_underway, hdrop, hloopback, hjob]
      · intro r hr hne
        cases r with
        | stage i place => exact hstages i place hr
        | underway i =>
          have hi : i ≠ stage + 1 := fun heq => hne (by rw [heq])
          simp [occupants_advance_underway, hi]
        | loopback => simp [occupants_advance_loopback, hdrop, hloopback]
        | received => rfl
        | dropped => rw [occupants_advance_dropped, hdrop, hdone, hnone, List.map_nil, List.append_nil]

/-- Whatever a worker does, its request stays with it or is dropped. -/
theorem Placed.settle (h : s.Placed) (stage : ℕ) (w : Frame) (worker : Worker) :
    (s.advance stage ((s.stages stage).settle w worker)).Placed := by
  by_cases hdone : worker.control.received = none
  · cases hhands : (s.stages stage).hands w with
    | none =>
      rw [Workshop.settle_of_idle hhands]
      exact h.same rfl rfl rfl
    | some number =>
      have hoccupants := Workshop.occupants_settle_of_done hhands hdone
      refine h.release hhands ?_ ?_ [] (by simp) (Or.inl rfl)
      · rw [Workshop.settle_of_done hhands hdone]
      · intro place hplace
        rw [hoccupants, Function.update_of_ne hplace, Function.update_apply]
  · rw [Workshop.settle_of_busy hdone]
    exact h.same rfl rfl rfl

/-- A worker goes on after something else has happened in its stage. -/
theorem Placed.settleAfter {first : Workshop} (h : (s.advance stage first).Placed)
    (hsent : first.sent = (s.stages stage).sent)
    (hconcluded : first.concluded = (s.stages stage).concluded) (w : Frame) (worker : Worker) :
    (s.advance stage (first.settle w worker)).Placed := by
  have hfirst : (s.advance stage first).stages stage = first := Function.update_self _ _ _
  have hsettled := h.settle stage w worker
  rwa [hfirst, advance_advance hsent hconcluded] at hsettled

/-- A work function returns. -/
theorem Placed.finish (h : s.Placed) (hcontent : (s.stages stage).Content .any) {w : Frame}
    {result : WorkResult} {left : Frame} {number : ℕ} {worker : Worker}
    (hhands : (s.stages stage).hands w = some number)
    (hworker : ((s.stages stage).workers w).step (.returned result left []) = some worker)
    (hreturns : (s.stages stage).Returns .any (.finish w result left)) :
    (s.advance stage ((Worker.resultActions result left []).foldl (fun t => t.sendOn w number)
      ((s.stages stage).settle w worker))).Placed := by
  obtain ⟨job, -, hreturned⟩ := hcontent.job_of_finish hhands hworker hreturns
  have hdone : worker.control.received = none := Workshop.received_of_returned hworker
  have hoccupants := Workshop.occupants_settle_of_done hhands hdone
  have hplaces : ∀ place ≠ .concluded, ((s.stages stage).settle w worker).occupants place =
      if place = .hands w then [] else (s.stages stage).occupants place := by
    intro place hplace
    rw [hoccupants, Function.update_of_ne hplace, Function.update_apply]
  have hconcluded : ((s.stages stage).settle w worker).concluded =
      (s.stages stage).concluded ++ [number] := by
    rw [Workshop.settle_of_done hhands hdone]
  have hsent : Workshop.Content.Sent .any ((s.stages stage).settle w worker) number job
      ((Worker.resultActions result left []).foldl (fun t => t.sendOn w number)
        ((s.stages stage).settle w worker)) :=
    Workshop.Content.sent_resultActions (by simpa using hcontent.unsent w) hreturned
  generalize List.foldl _ _ _ = workshop at hsent ⊢
  cases hsent with
  | nothing => exact h.release hhands hconcluded hplaces [] (by simp) (Or.inl rfl)
  | @message m hnumber =>
    refine h.release hhands hconcluded (fun place hplace => ?_) [m] (by simp) (Or.inr ⟨m, rfl, hnumber⟩)
    rw [← hplaces place hplace]
    cases place <;> rfl

/-- A stage goes on without a new job, and its choice function does not throw. -/
theorem Placed.advance (h : s.Placed) (hcontent : (s.stages stage).Content .any) {event : Workshop.Event}
    (hevent : ∀ job, event ≠ .submit job) (hchoice : ∀ worker, event ≠ .forward worker (some .threw))
    (hreturns : (s.stages stage).Returns .any event)
    (hstep : (s.stages stage).step event = some workshop) : (s.advance stage workshop).Placed := by
  cases Workshop.stepped_of_step hcontent.sound hstep with
  | submitted job => exact absurd rfl (hevent job)
  | heard => exact h.same rfl rfl rfl
  | lost => exact absurd rfl (hchoice _)
  | @handed _ _ number job later proxy heartBeats d _ _ hupstream =>
    have hfirst : (s.stages stage).occupants .upstream = number :: later.map Prod.fst := by
      simp [Workshop.occupants, hupstream]
    refine h.moveWithin rfl rfl (p := .upstream) (q := .inbox d.worker) (by simp) (by simp) (by simp)
      hfirst ?_
    rw [Workshop.occupants_deliver, Workshop.occupants_upstream, Function.update_of_ne (by simp)]
  | advertised =>
    refine Placed.settleAfter ?_ ?_ ?_ _ _
    · exact h.same rfl rfl rfl
    · rfl
    · rfl
  | @took w interrupted number info frames later worker hinbox hworker =>
    -- a worker that polls has no job in its hands
    have hhands := hcontent.hands_eq_none (Workshop.received_of_take hworker).1
    have hfirst : (s.stages stage).occupants (.inbox w) = number :: later.map Prod.fst := by
      simp [Workshop.occupants, hinbox]
    refine Placed.settleAfter ?_ ?_ ?_ _ _
    · exact h.moveWithin rfl rfl (p := .inbox w) (q := .hands w) (by simp) (by simp) (by simp) hfirst
        (Workshop.occupants_take hhands)
    · rfl
    · rfl
  | finished hhands hworker => exact h.finish hcontent hhands hworker hreturns
  | wentOn _ hworker => exact h.settle stage _ _

end Advance

/-! ### Steps -/

/-- No choice function throws, and no intermediate result is without messages. Either loses a request: the proxy
has taken the job when it asks for a worker, and a message without its last part takes up the next one. -/
def Lossless (s : Service σ ρ ι) : Event ι → Prop
  | .work _ (.forward _ choice) => choice ≠ some .threw
  | .work stage (.finish w result left) => (s.stages stage).Returns .any (.finish w result left)
  | _ => True

/-- Whether an event loses nothing is decidable. -/
instance : (event : Event ι) → Decidable (s.Lossless event)
  | .work stage event => by
    cases event with
    | forward worker choice => exact inferInstanceAs (Decidable (choice ≠ some .threw))
    | finish w result left =>
      exact inferInstanceAs (Decidable ((s.stages stage).Returns .any (.finish w result left)))
    | _ => exact isTrue trivial
  | .server _ | .deliver _ _ _ | .interrupt _ _ _ | .receive _ _ => isTrue trivial

/-- Where nothing is lost the functions return what they like. -/
theorem Lossless.returns {event : Event ι} (h : s.Lossless event) (i : ℕ) :
    ∀ input ∈ stageInput i s event, (s.stages i).Returns .any input := by
  intro input hinput
  cases event with
  | server | receive => cases hinput
  | deliver stage k upstream =>
    simp only [stageInput, Option.mem_def] at hinput
    split_ifs at hinput
    obtain ⟨arriving, -, rfl⟩ := Option.map_eq_some_iff.mp hinput
    trivial
  | work stage event =>
    simp only [stageInput, Option.mem_def] at hinput
    split_ifs at hinput with hi
    obtain rfl := Option.some.inj hinput
    subst hi
    cases event with
    | finish => exact h
    | _ => trivial
  | interrupt stage w key =>
    simp only [stageInput, Option.mem_def] at hinput
    split_ifs at hinput
    obtain rfl := Option.some.inj hinput
    trivial

/-- One message is taken out of those that are underway. -/
theorem occupants_eraseIdx {l : List (ℕ × List Frame)} {k number : ℕ} {frames : List Frame}
    (h : l[k]? = some (number, frames)) :
    l.map Prod.fst = (l.take k).map Prod.fst ++ number :: (l.drop (k + 1)).map Prod.fst ∧
      (l.eraseIdx k).map Prod.fst = (l.take k).map Prod.fst ++ (l.drop (k + 1)).map Prod.fst := by
  obtain ⟨hlt, hget⟩ := List.getElem?_eq_some_iff.mp h
  constructor
  · conv_lhs => rw [← List.take_append_drop k l, List.drop_eq_getElem_cons hlt, hget]
    simp
  · rw [List.eraseIdx_eq_take_drop_succ, List.map_append]

/-- A request that is posted is underway to the first stage. -/
theorem Placed.post (h : s.Placed) (p : Posted ρ ι) (info text : SendResult) :
    (s.post layout p info text).Placed := by
  unfold Service.post
  split
  case h_1 body hbody =>
    obtain ⟨place, hplaced⟩ := h
    have harrived := hplaced.arrive (.underway 0)
    refine ⟨Function.update place s.posted.length (.underway 0), ?_⟩
    show Placement.Placed (s.posted ++ [p]).length _ _
    rw [List.length_append, List.length_singleton]
    convert harrived using 1
    funext r
    cases r with
    | stage i r => cases r <;> rfl
    | underway i =>
      by_cases hi : i = 0
      · subst hi
        simp [occupants]
      · simp [occupants, hi]
    | loopback | received | dropped => rfl
  case h_2 => exact h
  case h_3 => exact h

/-- A message that arrives at the proxy of a stage is a job that waits there. -/
theorem Placed.deliver (h : s.Placed) {stage k number : ℕ} {upstream : Frame} {job : Job}
    (hcontent : (s.stages stage).Content .any) (harriving : s.arriving stage k upstream = some (number, job))
    {workshop : Workshop} (hstep : (s.stages stage).step (.submit job) = some workshop) :
    Placed
      { s with
        underway := Function.update s.underway stage ((s.underway stage).eraseIdx k)
        stages := Function.update s.stages stage workshop
        origin :=
          Function.update s.origin stage
            (Function.update (s.origin stage) (s.stages stage).submitted.length number) } := by
  obtain ⟨frames, hmessage⟩ : ∃ frames, (s.underway stage)[k]? = some (number, frames) := by
    unfold arriving at harriving
    split at harriving
    case h_1 number' info frames hmessage =>
      obtain ⟨rfl, -⟩ := by simpa using harriving
      exact ⟨_, hmessage⟩
    case h_2 => cases harriving
  obtain rfl := Option.some.inj hstep
  obtain ⟨hbefore, hafter⟩ := occupants_eraseIdx hmessage
  -- the jobs that are already there keep their numbers
  have hold : ∀ place ≠ .concluded,
      ((s.stages stage).occupants place).map
        (Function.update (s.origin stage) (s.stages stage).submitted.length number) =
      ((s.stages stage).occupants place).map (s.origin stage) := by
    intro place hplace
    apply List.map_congr_left
    intro j hj
    exact Function.update_of_ne (Nat.ne_of_lt (hcontent.lt_of_mem hplace hj)) _ _
  refine h.pick rfl (p := .underway stage) (q := .stage stage .upstream) (by simp) hbefore ?_ ?_ ?_
  · simp [occupants, hafter]
  · rw [occupants_stage _ _ (by simp), occupants_stage _ _ (by simp)]
    simp only [Function.update_self]
    rw [Workshop.occupants_submit, Function.update_self, List.map_append, hold _ (by simp)]
    simp
  · intro r hr hr'
    cases r with
    | stage i place =>
      by_cases hplace : place = .concluded
      · subst hplace
        rfl
      · rw [occupants_stage _ _ hplace, occupants_stage _ _ hplace]
        by_cases hi : i = stage
        · subst hi
          have hne : place ≠ .upstream := fun heq => hr' (by rw [heq])
          simp only [Function.update_self]
          rw [Workshop.occupants_submit, Function.update_of_ne hne, hold place hplace]
        · simp only [Function.update_of_ne hi]
    | underway i =>
      have hi : i ≠ stage := fun heq => hr (by rw [heq])
      simp [occupants, Function.update_of_ne hi]
    | loopback | received | dropped => rfl

/-- A result that is received has left the loopback. -/
theorem Placed.receive (h : s.Placed) {k number : ℕ} {sends : DequeueSends} {input : ServerInput ι}
    (harrived : s.arrived layout k sends = some (number, input)) (machine : Machine σ ρ ι) :
    Placed { s with machine, loopback := s.loopback.eraseIdx k, received := s.received ++ [number] } := by
  obtain ⟨frames, hmessage⟩ : ∃ frames, s.loopback[k]? = some (number, frames) := by
    unfold arrived at harrived
    split at harrived
    case h_1 number' last frames hmessage =>
      obtain ⟨rfl, -⟩ := by simpa using harrived
      exact ⟨_, hmessage⟩
    case h_2 => cases harrived
  obtain ⟨hbefore, hafter⟩ := occupants_eraseIdx hmessage
  refine h.pick rfl (p := .loopback) (q := .received) (by simp) hbefore hafter rfl fun r hr hr' => ?_
  cases r with
  | stage i place => cases place <;> rfl
  | underway | dropped => rfl
  | loopback => exact absurd rfl hr
  | received => exact absurd rfl hr'

/-- One event that loses nothing keeps each request in one place. -/
theorem Placed.step (h : s.Placed) (hcontent : ∀ i, (s.stages i).Content .any) {event : Event ι}
    (hlossless : s.Lossless event) (hstep : s.step layout config event = some t) : t.Placed := by
  cases event with
  | server input =>
    obtain ⟨machine, -, rfl⟩ := step_server hstep
    -- the state of the server says nothing about where a request is
    have hsame : ∀ u : Service σ ρ ι, u.Placed → ({ u with machine } : Service σ ρ ι).Placed := by
      intro u hu
      have heq : ({ u with machine } : Service σ ρ ι).occupants = u.occupants := by
        funext r
        cases r with
        | stage i place => cases place <;> rfl
        | underway | loopback | received | dropped => rfl
      obtain ⟨place, hplaced⟩ := hu
      exact ⟨place, heq ▸ hplaced⟩
    unfold serve
    split
    case h_1 => exact hsame s h
    case h_2 p info text hposts => exact hsame _ (h.post p info text)
  | deliver stage k upstream =>
    obtain ⟨number, job, workshop, harriving, hworkshop, rfl⟩ := step_deliver hstep
    exact h.deliver (hcontent stage) harriving hworkshop
  | work stage event =>
    obtain ⟨hinternal, workshop, hworkshop, rfl⟩ := step_work hstep
    -- no work of a stage submits a job to it
    apply h.advance (hcontent stage) (submitted_of_internal hinternal) ?_ ?_ hworkshop
    · rintro worker rfl
      exact hlossless rfl
    · exact hlossless.returns stage event (if_pos rfl)
  | interrupt stage w key =>
    obtain ⟨-, workshop, hworkshop, rfl⟩ := step_interrupt hstep
    have hreturns : (s.stages stage).Returns .any (.interrupt w key) := trivial
    exact h.advance (hcontent stage) (by simp) (by simp) hreturns hworkshop
  | receive k sends =>
    obtain ⟨number, input, machine, harrived, -, rfl⟩ := step_receive hstep
    exact h.receive harrived machine

/-- In every run in which no choice function throws and no intermediate result is without messages, each
request that was sent on is in one place, and once there. -/
theorem placed_of_run {heartBeat : ℕ → Frame → Frame} {events : List (Event ι)}
    (hlossless : StepsMeet (step layout config) (start heartBeat) events Lossless)
    (hrun : run (step layout config) (start heartBeat) events = some s) :
    (∀ number < s.posted.length, ∃! place, number ∈ s.occupants place) ∧
      ∀ place, (s.occupants place).Nodup ∧ ∀ number ∈ s.occupants place, number < s.posted.length := by
  have hplaced : s.Placed := by
    refine run_induction (P := fun events s =>
        StepsMeet (step layout config) (start heartBeat) events Lossless → s.Placed)
      (fun _ => placed_start heartBeat) (fun events s event t hs ih hstep hmeet => ?_) hrun hlossless
    have hcontent : ∀ i, (s.stages i).Content .any := fun i =>
      (stage_isComponent i).invariant (P := fun stage => stage.Content .any)
        (Workshop.content_start _ (heartBeat i)) (fun _ _ _ h hinput hstep => h.step hinput hstep)
        (hmeet.init.imp fun _ _ h => h.returns i) hs
    exact (ih hmeet.init).step hcontent (hmeet.last hs) hstep
  obtain ⟨place, hplaced⟩ := hplaced
  exact ⟨fun number hnumber => hplaced.existsUnique hnumber, fun p =>
    ⟨hplaced.nodup p, fun number hnumber => hplaced.lt_of_mem hnumber⟩⟩

/-- `placed_of_run` for a request that one worker answers. -/
theorem placed_of_run_oneAnswer :
    ∃ s, run (step NetstringRequestInfo.layout unchecked) (start fun _ _ => []) oneAnswer = some s ∧
      s.received = [0] ∧ (∀ number < s.posted.length, ∃! place, number ∈ s.occupants place) ∧
      ∀ place, (s.occupants place).Nodup ∧ ∀ number ∈ s.occupants place, number < s.posted.length := by
  have hrun : (run (step NetstringRequestInfo.layout unchecked) (start fun _ _ => []) oneAnswer).map
      (·.received) = some [0] := by decide
  obtain ⟨s, hs, hreceived⟩ := Option.map_eq_some_iff.mp hrun
  have hlossless : StepsMeet (step NetstringRequestInfo.layout unchecked) (start fun _ _ => []) oneAnswer
      Lossless := by decide
  exact ⟨s, hs, hreceived, placed_of_run hlossless hs⟩

end Service

end PrimeServer
