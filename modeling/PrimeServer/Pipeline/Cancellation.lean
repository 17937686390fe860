import PrimeServer.Pipeline.Parts

/-!
# Giving up jobs

Workers give up a job when `handle_interrupt` throws: before the work function is called for it, or when the
work function calls `bail`. They look for the key of the job that they are at.

## Main results

* `Worker.knows_of_step`: workers know the keys that have arrived, and no others;
* `Workshop.GivesUp.knows`: a job is given up by a worker that knows its key.
-/

namespace PrimeServer

namespace Worker

variable {w t : Worker} {key : UInt64}

/-- The key is among the interrupts that were recorded, or among those that wait. -/
def Knows (w : Worker) (key : UInt64) : Prop := w.interrupts.Contains key ∨ key ∈ w.waiting

/-- While it works, `job` is the key of what it works on. -/
def AtJob (w : Worker) : Prop :=
  ∀ info frames interrupted, w.control = .working info frames interrupted → w.job = jobOf info

/-- What a worker would see at its next look, it knows. -/
theorem Sees.knows (h : w.Sees key) : w.Knows key := h.imp_right List.mem_of_mem_head?

/-- Looking at interrupts makes a worker know no key that it could not know before. -/
theorem knows_of_handleInterrupt (forceCheck : Bool) (h : (w.handleInterrupt forceCheck).1.Knows key) :
    w.Knows key := by
  cases hw : w.waiting with
  | nil => simpa [handleInterrupt, remember, Knows, hw] using h
  | cons first waiting =>
    simp only [handleInterrupt, remember, Knows, hw, List.take_succ_cons, List.take_zero,
      List.foldl_cons, List.foldl_nil, List.drop_succ_cons, List.drop_zero,
      UnorderedSet.contains_insert] at h
    rw [Knows, hw, List.mem_cons]
    tauto

/-- Culling adds no keys. -/
theorem contains_of_cull {dropDead : UInt32} {history history' : List UInt64}
    {interrupts interrupts' : UnorderedSet UInt64}
    (hcull : cull dropDead history interrupts = (history', interrupts'))
    (h : interrupts'.Contains key) : interrupts.Contains key := by
  induction history generalizing interrupts with
  | nil =>
    obtain ⟨-, rfl⟩ := Prod.mk.inj hcull
    exact h
  | cons first history ih =>
    rw [cull] at hcull
    split_ifs at hcull
    · have herased := ih hcull
      rw [UnorderedSet.Contains, UnorderedMap.find_erase] at herased
      split_ifs at herased
      · exact absurd rfl herased
      · exact herased
    · obtain ⟨-, rfl⟩ := Prod.mk.inj hcull
      exact h

/-- What `take` makes of the outcome of `handle_interrupt`. -/
theorem take_eq (w : Worker) (info : Frame) (frames : List Frame) (interrupted : Bool) :
    w.take info frames interrupted =
      if (({ w with job := jobOf info } : Worker).handleInterrupt true).2 then
        { (({ w with job := jobOf info } : Worker).handleInterrupt true).1 with
          job := noJob
          control := .cleaning interrupted }
      else
        { (({ w with job := jobOf info } : Worker).handleInterrupt true).1 with
          control := .working info frames interrupted
          wire := (({ w with job := jobOf info } : Worker).handleInterrupt true).1.wire ++
            [.worked info frames] } := by
  unfold take
  generalize ({ w with job := jobOf info } : Worker).handleInterrupt true = outcome
  obtain ⟨t, threw⟩ := outcome
  cases threw <;> rfl

/-- Taking a job makes a worker know no key that it could not know before. -/
theorem knows_of_take {info : Frame} {frames : List Frame} {interrupted : Bool}
    (h : (w.take info frames interrupted).Knows key) : w.Knows key := by
  rw [take_eq] at h
  have hhandled : (({ w with job := jobOf info } : Worker).handleInterrupt true).1.Knows key := by
    split_ifs at h <;> exact h
  exact knows_of_handleInterrupt (w := { w with job := jobOf info }) true hhandled

/-- A key that is new to a worker has just arrived. -/
theorem knows_of_step {input : WorkerInput} (hstep : w.step input = some t) (h : t.Knows key) :
    w.Knows key ∨ input = .arrive key := by
  cases stepped_of_step hstep with
  | arrived key' =>
    rw [Knows, List.mem_append, List.mem_singleton] at h
    rcases h with h | h | rfl
    · exact Or.inl (Or.inl h)
    · exact Or.inl (Or.inr h)
    · exact Or.inr rfl
  | advertised | woke | returned | caught | uncaught | cleaned | unchecked => exact Or.inl h
  | took => exact Or.inl (knows_of_take h)
  | bailed | stayed | interrupted => exact Or.inl (knows_of_handleInterrupt false h)
  | checked _ _ hcull =>
    exact Or.inl (knows_of_handleInterrupt false (h.imp_left (contains_of_cull hcull)))

/-- A worker that has taken a job is at this job. -/
theorem atJob_take (w : Worker) (info : Frame) (frames : List Frame) (interrupted : Bool) :
    (w.take info frames interrupted).AtJob := by
  intro info' frames' interrupted' hworking
  rw [take_eq] at hworking ⊢
  split_ifs at hworking ⊢
  obtain ⟨rfl, -, -⟩ := Control.working.inj hworking
  rfl

/-- A worker stays at its job until it begins with the next one. -/
theorem AtJob.step (h : w.AtJob) {input : WorkerInput} (hstep : w.step input = some t) : t.AtJob := by
  cases stepped_of_step hstep with
  | arrived | stayed => exact h
  | took info frames interrupted => exact atJob_take w info frames interrupted
  | cleaned e =>
    intro info frames interrupted hworking
    dsimp only at hworking
    split_ifs at hworking
  | advertised | woke | bailed | returned | caught | uncaught | unchecked | interrupted | checked =>
    intro info frames interrupted hworking
    cases hworking

end Worker

namespace Workshop

variable {s t : Workshop}

/-- A worker is done with a job because `handle_interrupt` has thrown. -/
inductive GivesUp (s t : Workshop) : Event → ℕ → Prop where
  /-- The work function is not called. -/
  | refused {w : Frame} {interrupted : Bool} {number : ℕ} {received : List Frame}
      {later : List (ℕ × List Frame)} (hinbox : s.inbox w = (number, received) :: later)
      (hdone : t.hands w = none) : GivesUp s t (.take w interrupted) number
  /-- The work function is left. -/
  | bailed {w : Frame} {number : ℕ} (hhands : s.hands w = some number) (hdone : t.hands w = none) :
      GivesUp s t (.bail w) number

/-- A job is given up by a worker that knows its key. -/
theorem GivesUp.knows {work : WorkFunction} (hs : s.Content work) (hat : ∀ w, (s.workers w).AtJob)
    {event : Event} {number : ℕ} (hstep : s.step event = some t) (h : s.GivesUp t event number) :
    ∃ w job, s.submitted[number]? = some job ∧ (s.workers w).Knows (jobOf job.info) := by
  have hspec := stepped_of_step hs.sound hstep
  cases h with
  | @refused w interrupted _ received later hinbox hdone =>
    cases hspec with
    | wentOn hevent => cases hevent
    | @took _ _ number' info frames later' worker hinbox' hworker =>
      obtain ⟨⟨rfl, rfl⟩, -⟩ := by simpa using hinbox.symm.trans hinbox'
      obtain ⟨job, hjob, hframes⟩ :=
        Option.map_eq_some_iff.mp (hs.inbox w (number, info :: frames) (by simp [hinbox']))
      obtain ⟨rfl, -⟩ := List.cons.inj hframes
      refine ⟨w, job, hjob, ?_⟩
      -- the work function is not called only if the key is seen
      cases Worker.stepped_of_step hworker with
      | took _ _ _ hcontrol =>
        have htake := Worker.take_control (s.workers w) job.info frames interrupted
        split_ifs at htake with hsees
        · exact hsees.knows
        · rw [settle_hands, if_neg (by simp [htake, Worker.Control.received])] at hdone
          simp at hdone
  | @bailed w _ hhands hdone =>
    cases hspec with
    | @wentOn _ _ _ worker hevent hworker =>
      obtain ⟨rfl, rfl⟩ := by simpa [Event.input] using hevent
      have hreceived := hs.working w
      rw [hhands, Option.bind_some] at hreceived
      cases Worker.stepped_of_step hworker with
      | @bailed info frames interrupted hcontrol hthrew =>
        rw [hcontrol] at hreceived
        obtain ⟨job, hjob, hframes⟩ := Option.map_eq_some_iff.mp hreceived.symm
        obtain ⟨rfl, -⟩ := List.cons.inj hframes
        have hsees := ((s.workers w).handleInterrupt_snd_iff false).mp hthrew
        rw [hat w job.info frames interrupted hcontrol] at hsees
        exact ⟨w, job, hjob, hsees.2.knows⟩
      | stayed hcontrol =>
        -- the work function goes on
        rw [settle_hands, if_neg, hhands] at hdone
        · cases hdone
        · simp [Worker.handleInterrupt_control, hcontrol, Worker.Control.received]

/-- Interrupts come from elsewhere. -/
theorem interrupt_of_workerInput {event : Event} {w : Frame} {key : UInt64}
    (h : s.workerInput event = some (w, .arrive key)) : event = .interrupt w key := by
  cases event with
  | interrupt v key' =>
    obtain ⟨rfl, rfl⟩ := by simpa [workerInput, Event.input] using h
    rfl
  | take v interrupted =>
    simp only [workerInput] at h
    split at h <;> simp at h
  | submit | forward | advertise | wake | bail | finish | fail | cleanup | check =>
    simp [workerInput, Event.input] at h

end Workshop

end PrimeServer
