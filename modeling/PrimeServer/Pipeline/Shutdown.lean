import PrimeServer.Pipeline.Exceptions

/-!
# Shutting down a worker

`shutting_down()` may turn true at any moment. `work` reads it at the top of its loop and in the middle
of it, and `handle_interrupt` reads it whenever it is called. A step of `WorkLoop` reads it at most once,
so that a change between two statements is a change between two steps.

## Main results

* `WorkLoop.run_actions`: as long as the process is not shutting down, `work` takes the steps of a worker;
* `WorkLoop.ends_iff`: no exception leaves `work`, and it returns soon after the process is shutting down,
  exactly if the change does not fall between the check in the middle of the loop and the
  `handle_interrupt` after it, and no exception of another kind comes through.
-/

namespace PrimeServer

open Transition

/-- What `work` is about to do. -/
inductive WorkLoop.Place where
  /-- It reads `shutting_down()` itself. -/
  | reading
  /-- It goes on in the loop. -/
  | inside
  /-- `work` has returned. -/
  | returned
  deriving DecidableEq

/-- A worker in `work`, and whether the process is shutting down. -/
structure WorkLoop where
  /-- The worker whose loop it is. -/
  worker : Worker
  /-- What `shutting_down()` returns. -/
  shuttingDown : Bool
  /-- Where in the loop it is. -/
  place : WorkLoop.Place

/-- What can happen to a worker in `work`. -/
inductive LoopInput where
  /-- `shutting_down()` turns true. -/
  | shutDown
  /-- `work` reads it. -/
  | read
  /-- `poll`, or the `recv_all` of `handle_interrupt` between jobs, throws. -/
  | failed
  /-- Receiving a job, or the interrupts before it, throws. -/
  | unreceived (interrupted : Bool)
  /-- The work function calls `bail` and catches what it throws. -/
  | bailCaught
  /-- A step of the worker itself. -/
  | act (input : WorkerInput)

namespace WorkLoop

/-- `work` has been called. -/
def start (heartBeat : Frame) : WorkLoop where
  worker := .start heartBeat
  shuttingDown := false
  place := .inside

/-- The loop reads `shutting_down()` at its top, after a heartbeat, and in its middle, before it looks at
interrupts. -/
def placeAt : Worker.Control → Place
  | .polling | .checking _ => .reading
  | .advertising | .working _ _ _ | .cleaning _ | .escaped => .inside

/-- A step when the process is shutting down: everything is interrupted. -/
def stepInterrupted (w : Worker) : WorkerInput → Option Worker
  | .poll (some _) interrupted =>
    match w.control with
    | .polling => some { w with job := noJob, control := .cleaning interrupted }
    | _ => none
  | .bail =>
    match w.control with
    | .working _ _ interrupted => some { w with job := noJob, control := .cleaning interrupted }
    | _ => none
  | .check now =>
    match w.control with
    -- nothing catches it here
    | .checking true => some { w with control := .escaped }
    | _ => w.step (.check now)
  | input => w.step input

/-- One step. -/
def step (s : WorkLoop) : LoopInput → Option WorkLoop
  | .shutDown => some { s with shuttingDown := true }
  | .read =>
    match s.place with
    | .reading => some { s with place := if s.shuttingDown then .returned else .inside }
    | _ => none
  | .failed =>
    match s.place, s.worker.control with
    | .inside, .polling | .inside, .checking true =>
      some { s with worker := { s.worker with control := .escaped } }
    | _, _ => none
  | .unreceived interrupted =>
    match s.place, s.worker.control with
    | .inside, .polling =>
      some { s with worker := { s.worker with job := noJob, control := .cleaning interrupted } }
    | _, _ => none
  | .bailCaught =>
    match s.worker.control with
    | .working _ _ _ =>
      if s.shuttingDown then some s
      else
        match s.worker.handleInterrupt false with
        | (w, true) => some { s with worker := w }
        | (_, false) => none
    | _ => none
  | .act (.arrive key) => (s.worker.step (.arrive key)).map fun worker => { s with worker }
  | .act input =>
    match s.place with
    | .inside =>
      (if s.shuttingDown then stepInterrupted s.worker input else s.worker.step input).map
        fun worker => { s with worker, place := placeAt worker.control }
    | _ => none

variable {s t : WorkLoop} {input : LoopInput}

/-- `work` is about to look at interrupts, outside of its `try` blocks. -/
def Exposed (s : WorkLoop) : Prop := s.place = .inside ∧ s.worker.control = .checking true

instance (s : WorkLoop) : Decidable s.Exposed :=
  inferInstanceAs (Decidable (s.place = .inside ∧ s.worker.control = .checking true))

/-- No exception comes through that has nothing to do with shutting down. -/
def Handled (s : WorkLoop) : LoopInput → Prop
  | .failed => False
  | .act input => s.worker.Handled input
  | _ => True

instance (s : WorkLoop) : (input : LoopInput) → Decidable (s.Handled input)
  | .failed => isFalse id
  | .act input => inferInstanceAs (Decidable (s.worker.Handled input))
  | .shutDown | .read | .unreceived _ | .bailCaught => isTrue trivial

/-- No exception comes through, and the process is not shutting down, and does not begin to, while `work`
is about to look at interrupts. -/
def Harmless (s : WorkLoop) (input : LoopInput) : Prop :=
  s.Handled input ∧ (s.Exposed → ¬s.shuttingDown ∧ input ≠ .shutDown)

instance : (input : LoopInput) → Decidable (input = .shutDown)
  | .shutDown => isTrue rfl
  | .read | .failed | .unreceived _ | .bailCaught | .act _ => isFalse nofun

instance (s : WorkLoop) (input : LoopInput) : Decidable (s.Harmless input) :=
  inferInstanceAs (Decidable (s.Handled input ∧ (s.Exposed → ¬s.shuttingDown ∧ ¬input = .shutDown)))

/-- A step of `work` itself. The other steps do not bring it further. -/
def isOwn : LoopInput → Bool
  | .shutDown | .bailCaught | .act (.arrive _) => false
  | .read | .failed | .unreceived _ | .act _ => true

/-- However things go on, `work` returns with its third step at the latest: until then it has another
step to take. What it waits for are the functions of the user. -/
def Returns (s : WorkLoop) : Prop :=
  ∀ inputs t, run step s inputs = some t → StepsMeet step s inputs Harmless →
    t.place = .returned ∨
      inputs.countP isOwn < 3 ∧ ∃ input, isOwn input ∧ t.Harmless input ∧ (t.step input).isSome

/-- No exception has left `work`, and if the process is shutting down, then `work` returns. -/
def Ends (s : WorkLoop) : Prop :=
  s.worker.control ≠ .escaped ∧ (s.shuttingDown → s.Returns)

/-! ### No exception comes through -/

/-- The worker is in its loop, and the process is not shutting down where `work` is exposed. -/
def Sound (s : WorkLoop) : Prop := s.worker.Survives ∧ (s.Exposed → ¬s.shuttingDown)

/-- A loop that has not begun is in order. -/
theorem sound_start (heartBeat : Frame) : (start heartBeat).Sound :=
  ⟨Worker.survives_start heartBeat, fun _ => Bool.false_ne_true⟩

/-- After its own steps `work` reads the flag before it looks at interrupts. -/
theorem placeAt_checking {control : Worker.Control} (h : placeAt control = .inside) (interrupted : Bool) :
    control ≠ .checking interrupted := by
  rintro rfl
  cases h

/-- All that a step can do when the process is shutting down. -/
inductive Interrupted (w : Worker) : WorkerInput → Worker → Prop where
  /-- A job has arrived, and `handle_interrupt` throws before it is worked on. -/
  | refused (job : Frame × List Frame) (interrupted : Bool) (hcontrol : w.control = .polling) :
      Interrupted w (.poll (some job) interrupted)
        { w with job := noJob, control := .cleaning interrupted }
  /-- `bail` throws out of the work function. -/
  | bailed {info : Frame} {frames : List Frame} {interrupted : Bool}
      (hcontrol : w.control = .working info frames interrupted) :
      Interrupted w .bail { w with job := noJob, control := .cleaning interrupted }
  /-- The check at the end of the loop throws where nothing catches it. -/
  | exposed (now : ℕ) (hcontrol : w.control = .checking true) :
      Interrupted w (.check now) { w with control := .escaped }
  /-- What calls `handle_interrupt` not at all is not changed. -/
  | stepped {action : WorkerInput} {v : Worker} (hbail : action ≠ .bail)
      (hpoll : ∀ job interrupted, action ≠ .poll (some job) interrupted)
      (hchecking : ∀ now, action = .check now → w.control ≠ .checking true)
      (hstep : w.step action = some v) : Interrupted w action v

/-- Outside of its own turn, a worker can only be interrupted in one of these ways. -/
theorem interrupted_of_stepInterrupted {w v : Worker} {action : WorkerInput}
    (h : stepInterrupted w action = some v) : Interrupted w action v := by
  cases action with
  | poll job interrupted =>
    cases job with
    | none => exact .stepped nofun nofun nofun h
    | some job =>
      -- `handle_interrupt` throws before the job is worked on, in the `try` block
      cases hcontrol : w.control <;>
        simp only [stepInterrupted, hcontrol, Option.some.injEq, reduceCtorEq] at h
      subst h
      exact .refused job interrupted hcontrol
  | bail =>
    cases hcontrol : w.control <;>
      simp only [stepInterrupted, hcontrol, Option.some.injEq, reduceCtorEq] at h
    subst h
    exact .bailed hcontrol
  | check now =>
    by_cases hcontrol : w.control = .checking true
    · simp only [stepInterrupted, hcontrol, Option.some.injEq] at h
      subst h
      exact .exposed now hcontrol
    · have hstep : w.step (.check now) = some v := by simpa only [stepInterrupted] using h
      exact .stepped nofun nofun (fun _ _ => hcontrol) hstep
  | arrive | advertise | returned | threw | cleanup => exact .stepped nofun nofun nofun h

/-- Of the three calls of `handle_interrupt`, two are in a `try` block. -/
theorem Interrupted.survives_iff_handled {w v : Worker} {action : WorkerInput} (h : Interrupted w action v)
    (hw : w.Survives) (hchecking : w.control ≠ .checking true) : v.Survives ↔ w.Handled action := by
  cases h with
  | refused | bailed => exact iff_of_true rfl trivial
  | exposed now hcontrol => exact absurd hcontrol hchecking
  | stepped _ _ _ hstep => exact Worker.survives_iff_handled hw hstep

/-- A step of the worker inside the loop. -/
theorem sound_act_iff (hs : s.Sound) {input : WorkerInput} {w : Worker}
    (hstep : (if s.shuttingDown then stepInterrupted s.worker input else s.worker.step input) = some w)
    (hplace : s.place = .inside) :
    Sound { s with worker := w, place := placeAt w.control } ↔ s.Harmless (.act input) := by
  obtain ⟨hsurvives, hexposed⟩ := hs
  have hunexposed : ¬Exposed { s with worker := w, place := placeAt w.control } :=
    fun ⟨hinside, hchecking⟩ => placeAt_checking hinside true hchecking
  have hsound : Sound { s with worker := w, place := placeAt w.control } ↔ w.Survives :=
    ⟨And.left, fun hw => ⟨hw, fun h => absurd h hunexposed⟩⟩
  have hharmless : s.Harmless (.act input) ↔ s.worker.Handled input :=
    ⟨And.left, fun hhandled => ⟨hhandled, fun h => ⟨hexposed h, nofun⟩⟩⟩
  rw [hsound, hharmless]
  -- in both cases the worker survives what is handled
  by_cases hdown : s.shuttingDown
  · rw [if_pos hdown] at hstep
    exact (interrupted_of_stepInterrupted hstep).survives_iff_handled hsurvives
      fun hchecking => hexposed ⟨hplace, hchecking⟩ hdown
  · rw [if_neg hdown] at hstep
    exact Worker.survives_iff_handled hsurvives hstep

/-- The worker when `bail` has thrown. -/
def afterBail (s : WorkLoop) : Worker :=
  if s.shuttingDown then s.worker else (s.worker.handleInterrupt false).1

/-- The check for interrupts that a work function has called does not lead out of the loop. -/
theorem afterBail_control (s : WorkLoop) : s.afterBail.control = s.worker.control := by
  unfold afterBail
  split_ifs <;> rfl

/-- All that a step can do. -/
inductive Stepped (s : WorkLoop) : LoopInput → WorkLoop → Prop where
  /-- From now on `shutting_down()` is true. -/
  | shutDown : Stepped s .shutDown { s with shuttingDown := true }
  /-- The condition of the loop is looked at. -/
  | read (hplace : s.place = .reading) :
      Stepped s .read { s with place := if s.shuttingDown then .returned else .inside }
  /-- A socket throws outside of the try block. -/
  | failed (hplace : s.place = .inside)
      (hcontrol : s.worker.control = .polling ∨ s.worker.control = .checking true) :
      Stepped s .failed { s with worker := { s.worker with control := .escaped } }
  /-- A socket throws inside of the try block. -/
  | unreceived (interrupted : Bool) (hplace : s.place = .inside)
      (hcontrol : s.worker.control = .polling) :
      Stepped s (.unreceived interrupted)
        { s with worker := { s.worker with job := noJob, control := .cleaning interrupted } }
  /-- `bail` throws, and the work function catches it. -/
  | bailCaught {info : Frame} {frames : List Frame} {interrupted : Bool}
      (hcontrol : s.worker.control = .working info frames interrupted)
      (hthrew : s.shuttingDown ∨ (s.worker.handleInterrupt false).2) :
      Stepped s .bailCaught { s with worker := s.afterBail }
  /-- An interrupt waits on the socket. -/
  | arrived (key : UInt64) :
      Stepped s (.act (.arrive key))
        { s with worker := { s.worker with waiting := s.worker.waiting ++ [key] } }
  /-- The worker takes a step of its own. -/
  | acted {input : WorkerInput} {w : Worker} (hown : isOwn (.act input)) (hplace : s.place = .inside)
      (hstep : (if s.shuttingDown then stepInterrupted s.worker input else s.worker.step input) =
        some w) :
      Stepped s (.act input) { s with worker := w, place := placeAt w.control }

/-- Each step of the loop is one of those that `Stepped` lists. -/
theorem stepped_of_step (h : s.step input = some t) : s.Stepped input t := by
  cases input with
  | shutDown =>
    obtain rfl := Option.some.inj h
    exact .shutDown
  | read =>
    cases hplace : s.place <;> simp only [step, hplace, Option.some.injEq, reduceCtorEq] at h
    subst h
    exact .read hplace
  | failed =>
    simp only [step] at h
    split at h <;> cases h
    case h_1 hplace hcontrol => exact .failed hplace (Or.inl hcontrol)
    case h_2 hplace hcontrol => exact .failed hplace (Or.inr hcontrol)
  | unreceived interrupted =>
    simp only [step] at h
    split at h <;> cases h
    case h_1 hplace hcontrol => exact .unreceived interrupted hplace hcontrol
  | bailCaught =>
    cases hcontrol : s.worker.control <;> simp only [step, hcontrol, reduceCtorEq] at h
    -- `bail` throws because of the shutdown, or because the job was interrupted
    have hcaught := fun hthrew => Stepped.bailCaught (s := s) hcontrol hthrew
    split_ifs at h with hdown
    · rw [afterBail, if_pos hdown] at hcaught
      obtain rfl := Option.some.inj h
      exact hcaught (Or.inl hdown)
    · rw [afterBail, if_neg hdown] at hcaught
      split at h <;> cases h
      case h_1 w houtcome =>
      rw [houtcome] at hcaught
      exact hcaught (Or.inr rfl)
  | act input =>
    cases input with
    | arrive key =>
      obtain rfl := Option.some.inj h
      exact .arrived key
    | advertise | poll | bail | returned | threw | cleanup | check =>
      cases hplace : s.place <;> simp only [step, hplace, Option.map_eq_some_iff, reduceCtorEq] at h
      obtain ⟨w, hw, rfl⟩ := h
      exact .acted rfl hplace hw

/-- The worker stays in its loop, and is not exposed to the shutdown, exactly if the step is harmless. -/
theorem sound_step_iff (hs : s.Sound) (h : s.step input = some t) : t.Sound ↔ s.Harmless input := by
  obtain ⟨hsurvives, hexposed⟩ := hs
  cases stepped_of_step h with
  | shutDown =>
    constructor
    · exact fun ht => ⟨trivial, fun hs => absurd rfl (ht.2 hs)⟩
    · exact fun hharmless => ⟨hsurvives, fun hs => absurd rfl (hharmless.2 hs).2⟩
  | read hplace =>
    refine iff_of_true ⟨hsurvives, fun ht hdown => ?_⟩ ⟨trivial, fun hs => ?_⟩
    · -- the flag is not set where the loop goes on
      obtain ⟨hinside, -⟩ := ht
      rw [if_pos hdown] at hinside
      cases hinside
    · cases hplace.symm.trans hs.1
  | failed => exact iff_of_false (fun ht => ht.1) (fun hharmless => hharmless.1)
  | unreceived interrupted hplace hcontrol =>
    exact iff_of_true ⟨rfl, fun ht => by cases ht.2⟩
      ⟨trivial, fun hs => by cases hcontrol.symm.trans hs.2⟩
  | bailCaught hcontrol hthrew =>
    have hsame := s.afterBail_control.trans hcontrol
    refine iff_of_true ⟨?_, fun ht => ?_⟩ ⟨trivial, fun hs => by cases hcontrol.symm.trans hs.2⟩
    · simp [Worker.Survives, hsame]
    · cases hsame.symm.trans ht.2
  | arrived key =>
    exact iff_of_true ⟨hsurvives, hexposed⟩ ⟨trivial, fun hs => ⟨hexposed hs, fun h => by cases h⟩⟩
  | acted _ hplace hstep => exact sound_act_iff ⟨hsurvives, hexposed⟩ hstep hplace

/-- The steps of a worker in what happens to it in `work`. -/
def actions (inputs : List LoopInput) : List WorkerInput :=
  inputs.filterMap fun
    | .act input => some input
    | _ => none

/-- As long as the process is not shutting down, `work` takes the steps of a worker. -/
theorem run_actions {inputs : List LoopInput} (hdown : ¬s.shuttingDown)
    (hplain : ∀ input ∈ inputs, input = .read ∨ ∃ action, input = .act action)
    (hrun : run step s inputs = some t) :
    run Worker.step s.worker (actions inputs) = some t.worker := by
  induction inputs generalizing s with
  | nil =>
    obtain rfl : s = t := by simpa using hrun
    rfl
  | cons input inputs ih =>
    obtain ⟨hfirst, hlater⟩ := List.forall_mem_cons.mp hplain
    rw [run_cons, Option.bind_eq_some_iff] at hrun
    obtain ⟨u, hu, hrest⟩ := hrun
    cases stepped_of_step hu with
    | read =>
      -- reading the flag leaves the worker as it is
      have hworker := fun h => ih h hlater hrest
      exact hworker hdown
    | arrived key =>
      have hcons : actions (.act (.arrive key) :: inputs) = .arrive key :: actions inputs := rfl
      have hworker := fun h => ih h hlater hrest
      rw [hcons, run_cons]
      exact hworker hdown
    | shutDown | failed | unreceived | bailCaught => simp at hfirst
    | @acted action w hown hplace hstep =>
      rw [if_neg hdown] at hstep
      have hcons : actions (.act action :: inputs) = action :: actions inputs := rfl
      have hworker := fun h => ih h hlater hrest
      rw [hcons, run_cons, hstep, Option.bind_some]
      exact hworker hdown

/-! ### `work` returns -/

/-- How many steps `work` takes at most until it returns, when the process is shutting down. -/
def togo (s : WorkLoop) : ℕ :=
  match s.place, s.worker.control with
  | .returned, _ => 0
  | .reading, _ => 1
  | .inside, .polling | .inside, .working _ _ _ | .inside, .checking _ => 3
  | .inside, .advertising | .inside, .cleaning _ => 2
  | .inside, .escaped => 0

/-- From wherever it is, `work` needs at most three of its own steps to return. -/
theorem togo_le (s : WorkLoop) : s.togo ≤ 3 := by
  unfold togo
  split <;> omega

/-- An own step inside the loop brings `work` further. -/
theorem togo_act {w v : Worker} {action : WorkerInput} (shuttingDown : Bool)
    (hown : isOwn (.act action)) (hchecking : w.control ≠ .checking true) (h : Interrupted w action v) :
    togo ⟨v, shuttingDown, placeAt v.control⟩ < togo ⟨w, shuttingDown, .inside⟩ := by
  cases h with
  | refused job interrupted hcontrol => simp [togo, placeAt, hcontrol]
  | bailed hcontrol => simp [togo, placeAt, hcontrol]
  | exposed now hcontrol => exact absurd hcontrol hchecking
  | stepped hbail hpoll _ hstep =>
    cases Worker.stepped_of_step hstep with
    | arrived => cases hown
    | advertised _ hcontrol | woke _ hcontrol | returned _ _ _ hcontrol | caught hcontrol
    | uncaught hcontrol | unchecked _ hcontrol => simp [togo, placeAt, hcontrol]
    -- a job is refused and a bail throws, see above
    | took info frames interrupted => exact absurd rfl (hpoll (info, frames) interrupted)
    | bailed | stayed => exact absurd rfl hbail
    | cleaned e hcontrol => by_cases he : e = some .other <;> simp [togo, placeAt, hcontrol, he]
    | interrupted _ hcontrol | checked hcontrol => exact absurd hcontrol hchecking

/-- When the process is shutting down, each own step brings `work` further, and no other step takes it
back. -/
theorem togo_step (hs : s.Sound) (hdown : s.shuttingDown) (h : s.step input = some t) :
    t.shuttingDown ∧ (if isOwn input then 1 else 0) + t.togo ≤ s.togo := by
  cases stepped_of_step h with
  | shutDown => exact ⟨rfl, by simp [isOwn, togo]⟩
  | read hplace => exact ⟨hdown, by simp [isOwn, togo, hplace, hdown]⟩
  | failed hplace hcontrol =>
    refine ⟨hdown, ?_⟩
    rcases hcontrol with hcontrol | hcontrol <;> simp [isOwn, togo, hplace, hcontrol]
  | unreceived interrupted hplace hcontrol =>
    exact ⟨hdown, by simp [isOwn, togo, hplace, hcontrol]⟩
  | bailCaught hcontrol hthrew =>
    exact ⟨hdown, by simp [isOwn, togo, afterBail_control]⟩
  | arrived key => exact ⟨hdown, by simp [isOwn, togo]⟩
  | acted hown hplace hstep =>
    rw [if_pos hdown] at hstep
    have hless := togo_act s.shuttingDown hown (fun hchecking => hs.2 ⟨hplace, hchecking⟩ hdown)
      (interrupted_of_stepInterrupted hstep)
    -- an own step of the worker is one inside the loop
    have hsame : s = ⟨s.worker, s.shuttingDown, .inside⟩ := by rw [← hplace]
    rw [← hsame] at hless
    rw [if_pos hown]
    exact ⟨hdown, by omega⟩

/-- Until `work` has returned it has another step to take. -/
theorem exists_step (hs : s.Sound) (hdown : s.shuttingDown) (hplace : s.place ≠ .returned) :
    ∃ input, isOwn input ∧ s.Harmless input ∧ (s.step input).isSome := by
  have hunexposed : ¬s.Exposed := fun hexposed => hs.2 hexposed hdown
  have hharmless : ∀ {input}, s.Handled input → s.Harmless input :=
    fun hhandled => ⟨hhandled, fun hexposed => absurd hexposed hunexposed⟩
  cases hinside : s.place with
  | returned => exact absurd hinside hplace
  | reading => exact ⟨.read, rfl, hharmless trivial, by simp [step, hinside]⟩
  | inside =>
    cases hcontrol : s.worker.control with
    | advertising =>
      refine ⟨.act (.advertise .accepted), rfl, hharmless trivial, ?_⟩
      simp [step, hinside, hdown, stepInterrupted, Worker.step, hcontrol]
    | polling =>
      refine ⟨.act (.poll none false), rfl, hharmless trivial, ?_⟩
      simp [step, hinside, hdown, stepInterrupted, Worker.step, hcontrol]
    | working info frames interrupted =>
      -- the work function has to return
      refine ⟨.act (.returned ⟨false, [], []⟩ [] []), rfl, hharmless trivial, ?_⟩
      simp [step, hinside, hdown, stepInterrupted, Worker.step, hcontrol]
    | cleaning interrupted =>
      refine ⟨.act (.cleanup none), rfl, hharmless (by simp [Handled, Worker.Handled]), ?_⟩
      simp [step, hinside, hdown, stepInterrupted, Worker.step, hcontrol]
    | checking interrupted =>
      cases interrupted with
      | false =>
        refine ⟨.act (.check 0), rfl, hharmless fun hchecking => ?_, ?_⟩
        · cases hcontrol.symm.trans hchecking
        · simp [step, hinside, hdown, stepInterrupted, Worker.step, hcontrol]
      | true => exact absurd ⟨hinside, hcontrol⟩ hunexposed
    | escaped =>
      have hsurvives := hs.1
      rw [Worker.Survives, hcontrol] at hsurvives
      exact hsurvives.elim

/-- A loop in order returns once the process is shutting down. -/
theorem Sound.returns (hs : s.Sound) (hdown : s.shuttingDown) : s.Returns := by
  intro inputs t hrun hmeet
  have hstep : ∀ t i u, (Sound t ∧ t.shuttingDown) → Harmless t i → step t i = some u →
      (Sound u ∧ u.shuttingDown) ∧ (if isOwn i then 1 else 0) + togo u ≤ togo t := by
    rintro t i u ⟨ht, htdown⟩ hharmless hu
    obtain ⟨hudown, hlower⟩ := togo_step ht htdown hu
    exact ⟨⟨(sound_step_iff ht hu).mpr hharmless, hudown⟩, hlower⟩
  obtain ⟨⟨ht, htdown⟩, hcount⟩ := countP_add_le_of_stepsMeet hstep ⟨hs, hdown⟩ hmeet hrun
  by_cases hplace : t.place = .returned
  · exact Or.inl hplace
  · have hpos : 0 < t.togo := by
      obtain ⟨input, hown, -, hstep⟩ := exists_step ht htdown hplace
      obtain ⟨u, hu⟩ := Option.isSome_iff_exists.mp hstep
      have hlower := (togo_step ht htdown hu).2
      rw [if_pos hown] at hlower
      omega
    have hle := s.togo_le
    exact Or.inr ⟨by omega, exists_step ht htdown hplace⟩

/-- A loop in order ends as it should. -/
theorem Sound.ends (hs : s.Sound) : s.Ends := by
  refine ⟨fun hescaped => ?_, hs.returns⟩
  have hsurvives := hs.1
  rw [Worker.Survives, hescaped] at hsurvives
  exact hsurvives

/-- Where `work` is exposed while the process is shutting down, it cannot return any more. -/
theorem Ends.not_shuttingDown (hs : s.Ends) (hexposed : s.Exposed) : ¬s.shuttingDown := by
  intro hdown
  rcases hs.2 hdown [] s rfl (stepsMeet_nil s Harmless) with hreturned | ⟨-, input, -, hharmless, -⟩
  · cases hexposed.1.symm.trans hreturned
  · exact (hharmless.2 hexposed).1 hdown

/-- What is thrown ends `work`, or it is caught and the job is reset. -/
theorem sound_of_ends (hs : s.Sound) (h : s.step input = some t) (ht : t.Ends) : t.Sound := by
  refine ⟨?_, ht.not_shuttingDown⟩
  have hescaped := ht.1
  cases stepped_of_step h with
  | shutDown | read | arrived => exact hs.1
  | failed => exact absurd rfl hescaped
  | unreceived => exact rfl
  | bailCaught hcontrol hthrew =>
    simp [Worker.Survives, s.afterBail_control.trans hcontrol]
  | acted _ hplace hstep =>
    split_ifs at hstep with hdown
    · cases interrupted_of_stepInterrupted hstep with
      | refused | bailed => exact rfl
      | exposed => exact absurd rfl hescaped
      | stepped _ _ _ hstep => exact (Worker.survives_or_escaped hs.1 hstep).resolve_right hescaped
    · exact (Worker.survives_or_escaped hs.1 hstep).resolve_right hescaped

/-- In a run of `work`, no exception leaves it and it returns when the process is shutting down, exactly
if each step is harmless. -/
theorem ends_iff (heartBeat : Frame) {inputs : List LoopInput} {u : WorkLoop}
    (hrun : run step (start heartBeat) inputs = some u) :
    Always step (start heartBeat) inputs Ends ↔
      StepsMeet step (start heartBeat) inputs Harmless := by
  have hexact : Always step (start heartBeat) inputs Sound ↔
      StepsMeet step (start heartBeat) inputs Harmless :=
    always_iff_stepsMeet (B := fun _ _ => True) (sound_start heartBeat)
      (fun _ _ _ _ hs h => sound_step_iff hs h) (fun _ _ _ _ _ _ => trivial) hrun
  rw [← hexact]
  constructor
  · intro hends js ks t hsplit ht
    refine run_induction (P := fun js t => ∀ ks, inputs = js ++ ks → Sound t)
      (fun _ _ => sound_start heartBeat) (fun js t i v hjs ih hv ks hsplit => ?_) ht ks hsplit
    have hnext : run step (start heartBeat) (js ++ [i]) = some v := run_concat_eq_some.mpr ⟨t, hjs, hv⟩
    exact sound_of_ends (ih (i :: ks) (by simp [hsplit])) hv (hends (js ++ [i]) ks v hsplit hnext)
  · exact fun hsound js ks t hsplit ht => (hsound js ks t hsplit ht).ends

/-- The process is shutting down while a job is worked on, for which `bail` is called. -/
def duringJob : List LoopInput :=
  [.act (.advertise .accepted), .read, .act (.poll (some ([7], [])) true), .shutDown, .act .bail,
    .act (.cleanup none), .read]

/-- `work` ends as it should if the process shuts down while a job is being worked on. -/
theorem ends_duringJob : Always step (start []) duringJob Ends := by
  obtain ⟨u, hu⟩ := Option.isSome_iff_exists.mp (by decide : (run step (start []) duringJob).isSome)
  exact (ends_iff [] hu).mpr (by decide)

/-- The process is shutting down after the check in the middle of the loop. -/
theorem not_ends :
    ¬∀ (inputs : List LoopInput) (u : WorkLoop), StepsMeet step (start []) inputs Handled →
      run step (start []) inputs = some u → u.worker.control ≠ .escaped := by
  intro h
  let inputs : List LoopInput :=
    [.act (.advertise .accepted), .read, .act (.arrive 5), .act (.poll none true), .read, .shutDown,
      .act (.check 0)]
  have hrun : (run step (start []) inputs).map (·.worker.control) = some .escaped := by decide
  obtain ⟨u, hu, hcontrol⟩ := Option.map_eq_some_iff.mp hrun
  exact h inputs u (by decide) hu hcontrol

end WorkLoop

end PrimeServer
