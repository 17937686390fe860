import PrimeServer.Http.Percent
import PrimeServer.Netstring.Entity
import PrimeServer.Pipeline.Worker

/-!
# Exceptions in a worker

A work function that parses its job throws what `from_string` throws. `work` catches `std::exception`,
and the exceptions that the two parsers throw for malformed requests are none.

## Main results

* `Worker.survives_iff`: no exception leaves `work` in a run exactly if no job makes its parser throw a
  `request_exception_t`, no cleanup function throws such a thing, and no interrupt is taken for one of
  the job that there is not.
-/

namespace PrimeServer

open Transition

/-- The parser that a work function calls on the first frame of a job. -/
inductive JobParser where
  /-- The worker reads an http request. -/
  | http (curl : Curl)
  /-- The worker reads a netstring. -/
  | netstring

namespace JobParser

/-- What `from_string` throws for a job. -/
def throws : JobParser → List Frame → Option Thrown
  | _, [] => none
  | .http curl, text :: _ =>
    match HttpRequest.fromString curl text with
    | some (.error (.request _)) => some .other
    | some (.error (.std _)) => some .std
    | some (.ok _) | none => none
  | .netstring, text :: _ =>
    match NetstringEntity.fromString text with
    | some (.error (.request _)) => some .other
    | some (.error (.runtimeError _)) => some .std
    | some (.ok _) | none => none

end JobParser

namespace Worker

variable {parser : JobParser} {w t : Worker}

/-- The frames of the job that is being worked on. -/
def Control.frames : Control → Option (List Frame)
  | .working _ frames _ => some frames
  | _ => none

/-- A work function throws only what its parser throws for the job. -/
def ThrowsAs (parser : JobParser) (w : Worker) : WorkerInput → Prop
  | .threw e => ∀ frames ∈ w.control.frames, parser.throws frames = some e
  | _ => True

instance (w : Worker) : (input : WorkerInput) → Decidable (w.ThrowsAs parser input)
  | .threw e =>
    inferInstanceAs (Decidable (∀ frames ∈ w.control.frames, parser.throws frames = some e))
  | .arrive _ | .advertise _ | .poll _ _ | .bail | .returned _ _ _ | .cleanup _ | .check _ =>
    isTrue trivial

/-- The step does not end in an exception that nothing catches. -/
def Caught (parser : JobParser) (w : Worker) : WorkerInput → Prop
  | .threw _ => ∀ frames ∈ w.control.frames, parser.throws frames ≠ some .other
  | .cleanup e => e ≠ some .other
  | .check _ => w.control = .checking true → w.waiting ≠ [] → ¬w.Sees noJob
  | _ => True

instance (w : Worker) : (input : WorkerInput) → Decidable (w.Caught parser input)
  | .threw _ =>
    inferInstanceAs (Decidable (∀ frames ∈ w.control.frames, parser.throws frames ≠ some .other))
  | .cleanup e => inferInstanceAs (Decidable (e ≠ some .other))
  | .check _ =>
    inferInstanceAs (Decidable (w.control = .checking true → w.waiting ≠ [] → ¬w.Sees noJob))
  | .arrive _ | .advertise _ | .poll _ _ | .bail | .returned _ _ _ => isTrue trivial

/-- The worker is in its loop, and `job` is reset between jobs. -/
def Survives (w : Worker) : Prop :=
  match w.control with
  | .working _ _ _ => True
  | .escaped => False
  | _ => w.job = noJob

/-- A worker that has just been made is in its loop. -/
theorem survives_start (heartBeat : Frame) : (start heartBeat).Survives := rfl

/-- Taking a job does not end the loop: an interrupt that is seen is caught. -/
theorem survives_take (w : Worker) (info : Frame) (frames : List Frame) (interrupted : Bool) :
    (w.take info frames interrupted).Survives := by
  unfold take
  split <;> trivial

/-- What a step throws is caught: the functions of the user throw only a `std::exception`, and no interrupt
is taken for one of the job that there is not. -/
def Handled (w : Worker) : WorkerInput → Prop
  | .threw e => e ≠ .other
  | .cleanup e => e ≠ some .other
  | .check _ => w.control = .checking true → w.waiting ≠ [] → ¬w.Sees noJob
  | _ => True

instance (w : Worker) : (input : WorkerInput) → Decidable (w.Handled input)
  | .threw e => inferInstanceAs (Decidable (e ≠ .other))
  | .cleanup e => inferInstanceAs (Decidable (e ≠ some .other))
  | .check _ =>
    inferInstanceAs (Decidable (w.control = .checking true → w.waiting ≠ [] → ¬w.Sees noJob))
  | .arrive _ | .advertise _ | .poll _ _ | .bail | .returned _ _ _ => isTrue trivial

/-- The worker is in its loop after a step exactly if what was thrown is caught. -/
theorem survives_iff_handled {input : WorkerInput} (hw : w.Survives) (h : w.step input = some t) :
    t.Survives ↔ w.Handled input := by
  cases stepped_of_step h with
  | arrived key => exact iff_of_true hw trivial
  | advertised sent hcontrol | woke interrupted hcontrol =>
    simpa [Survives, hcontrol, Handled] using hw
  | took info frames interrupted => exact iff_of_true (survives_take _ _ _ _) trivial
  | bailed | returned => exact iff_of_true rfl trivial
  | stayed hcontrol =>
    refine iff_of_true ?_ trivial
    simp [Survives, handleInterrupt_control, hcontrol]
  | caught hcontrol he => exact iff_of_true rfl he
  | uncaught hcontrol => simp [Survives, Handled]
  | cleaned e hcontrol =>
    by_cases he : e = some .other
    · simp [Survives, Handled, he]
    · simpa [Survives, hcontrol, Handled, he] using hw
  | unchecked now hcontrol => simpa [Survives, hcontrol, Handled] using hw
  | interrupted now hcontrol hthrew =>
    -- between jobs only an interrupt for the value of `job` there makes it throw
    have hjob : w.job = noJob := by simpa [Survives, hcontrol] using hw
    rw [handleInterrupt_snd_iff, hjob] at hthrew
    have hsees : w.waiting ≠ [] ∧ w.Sees noJob := hthrew.imp_left (Or.resolve_left · Bool.false_ne_true)
    simp [Survives, Handled, hcontrol, hsees]
  | checked hcontrol hthrew =>
    have hjob : w.job = noJob := by simpa [Survives, hcontrol] using hw
    rw [handleInterrupt_snd_iff, hjob] at hthrew
    refine iff_of_true hjob fun _ hnew hsees => hthrew ⟨Or.inr hnew, hsees⟩

/-- Outside of jobs `job` is reset, as long as the worker is in its loop. -/
theorem survives_or_escaped {input : WorkerInput} (hw : w.Survives) (h : w.step input = some t) :
    t.Survives ∨ t.control = .escaped := by
  cases stepped_of_step h with
  | arrived key => exact Or.inl hw
  | advertised sent hcontrol | woke interrupted hcontrol | unchecked now hcontrol =>
    exact Or.inl (by simpa [Survives, hcontrol] using hw)
  | took info frames interrupted => exact Or.inl (survives_take _ _ _ _)
  | bailed | returned | caught => exact Or.inl rfl
  | stayed hcontrol => exact Or.inl (by simp [Survives, handleInterrupt_control, hcontrol])
  | uncaught | interrupted => exact Or.inr rfl
  | cleaned e hcontrol =>
    by_cases he : e = some .other
    · exact Or.inr (if_pos he)
    · exact Or.inl (by simpa [Survives, hcontrol, he] using hw)
  | checked hcontrol =>
    have hjob : w.job = noJob := by simpa [Survives, hcontrol] using hw
    exact Or.inl hjob

/-- Of a work function that throws what its parser throws, the parser decides what is caught. -/
theorem handled_iff_caught {input : WorkerInput} (hthrows : w.ThrowsAs parser input)
    (h : w.step input = some t) : w.Handled input ↔ w.Caught parser input := by
  cases stepped_of_step h with
  | caught hcontrol he =>
    have hparser := hthrows _ (by rw [hcontrol]; rfl)
    simp [Handled, Caught, hcontrol, Control.frames, hparser]
  | uncaught hcontrol =>
    have hparser := hthrows _ (by rw [hcontrol]; rfl)
    simp [Handled, Caught, hcontrol, Control.frames, hparser]
  | _ => exact Iff.rfl

/-- The worker is in its loop after a step exactly if nothing was thrown that is not caught. -/
theorem survives_step_iff {input : WorkerInput} (hthrows : w.ThrowsAs parser input) (hw : w.Survives)
    (h : w.step input = some t) : t.Survives ↔ w.Caught parser input :=
  (survives_iff_handled hw h).trans (handled_iff_caught hthrows h)

/-- When the work function throws, the job is reset, the cleanup function is called and the worker
advertises again. -/
def Recovers (w : Worker) (e : Thrown) : Prop :=
  ∀ now sent, ∃ t, run step w [.threw e, .cleanup none, .check now, .advertise sent] = some t ∧
    t.control = .polling ∧ t.job = noJob ∧
      t.wire = w.wire ++ [.cleanedUp, .heartBeat w.heartBeat sent]

/-- A worker recovers from an exception that is caught. -/
theorem recovers {e : Thrown} {frames : List Frame} (hframes : frames ∈ w.control.frames)
    (he : e ≠ .other) (hunseen : w.waiting ≠ [] → ¬w.Sees noJob) : w.Recovers e := by
  intro now sent
  cases hcontrol : w.control <;> simp only [hcontrol, Control.frames, reduceCtorEq, Option.mem_def] at hframes
  case working info _ interrupted =>
  -- what the step and the call of the cleanup function leave
  obtain ⟨v, hv, hjob, hwaiting, hinterrupts, hheartBeat, hchecking, hwire⟩ : ∃ v,
      run step w [.threw e, .cleanup none] = some v ∧ v.job = noJob ∧ v.waiting = w.waiting ∧
        v.interrupts = w.interrupts ∧ v.heartBeat = w.heartBeat ∧ v.control = .checking interrupted ∧
          v.wire = w.wire ++ [.cleanedUp] := by
    cases e with
    | interrupt | std =>
      refine ⟨{ w with
        job := noJob
        control := .checking interrupted
        wire := w.wire ++ [.cleanedUp] }, ?_, rfl, rfl, rfl, rfl, rfl, rfl⟩
      simp [run, step, hcontrol]
    | other => exact absurd rfl he
  obtain ⟨t, ht, hadvertising, hjob', hheartBeat', hwire'⟩ : ∃ t, v.step (.check now) = some t ∧
      t.control = .advertising ∧ t.job = noJob ∧ t.heartBeat = w.heartBeat ∧
        t.wire = w.wire ++ [.cleanedUp] := by
    cases interrupted with
    | false =>
      refine ⟨{ v with control := .advertising }, ?_, rfl, hjob, hheartBeat, hwire⟩
      simp [step, hchecking]
    | true =>
      have hthrew : ¬(v.handleInterrupt false).2 := by
        rw [handleInterrupt_snd_iff, hjob, hwaiting]
        rintro ⟨hnew, hsees⟩
        refine hunseen (hnew.resolve_left Bool.false_ne_true) ?_
        rwa [Sees, hinterrupts, hwaiting] at hsees
      have hsame := handleInterrupt_job v false
      have hsameBeat : (v.handleInterrupt false).1.heartBeat = v.heartBeat := rfl
      have hsameWire : (v.handleInterrupt false).1.wire = v.wire := rfl
      simp only [step, hchecking]
      generalize v.handleInterrupt false = outcome at hthrew hsame hsameBeat hsameWire
      obtain ⟨u, threw⟩ := outcome
      obtain rfl : threw = false := by simpa using hthrew
      exact ⟨_, rfl, rfl, hsame.trans hjob, hsameBeat.trans hheartBeat, hsameWire.trans hwire⟩
  refine ⟨{ t with control := .polling, wire := t.wire ++ [.heartBeat t.heartBeat sent] }, ?_, rfl,
    hjob', ?_⟩
  · have hsplit : [.threw e, .cleanup none, .check now, .advertise sent] =
        [.threw e, .cleanup none] ++ [WorkerInput.check now, .advertise sent] := rfl
    rw [hsplit, run_append, hv, Option.bind_some, run_cons, ht, Option.bind_some]
    simp [run, step, hadvertising]
  · simp [hwire', hheartBeat']

/-- In a run in which the work functions throw what their parsers throw, the worker stays in its loop
exactly if each exception is caught. It recovers from each exception of a parser that is caught. -/
theorem survives_iff (parser : JobParser) (heartBeat : Frame) {inputs : List WorkerInput} {u : Worker}
    (hthrows : StepsMeet step (start heartBeat) inputs (ThrowsAs parser))
    (hrun : run step (start heartBeat) inputs = some u) :
    (Always step (start heartBeat) inputs Survives ↔
        StepsMeet step (start heartBeat) inputs (Caught parser)) ∧
      ∀ (w : Worker) (frames : List Frame) (e : Thrown), frames ∈ w.control.frames →
        parser.throws frames = some e → w.Caught parser (.threw e) →
          (w.waiting ≠ [] → ¬w.Sees noJob) → w.Recovers e := by
  refine ⟨?_, fun w frames e hframes hparser hcaught hunseen => ?_⟩
  · exact always_iff_stepsMeet (survives_start heartBeat)
      (fun _ _ _ hB hP h => survives_step_iff hB hP h) hthrows hrun
  · refine recovers hframes ?_ hunseen
    rintro rfl
    exact hcaught frames hframes hparser

/-- A worker takes a job and its parser throws. -/
def throwing (text : Bytes) (e : Thrown) : List WorkerInput :=
  [.advertise .accepted, .poll (some ([7], [text])) false, .threw e]

/-- A job that is not complete does no harm. -/
theorem survives_iff_incomplete :
    Always step (start []) (throwing (ascii "GET / HTTP/1.1") .std ++ [.cleanup none]) Survives := by
  obtain ⟨u, hu⟩ := Option.isSome_iff_exists.mp
    (by decide : (run step (start []) (throwing (ascii "GET / HTTP/1.1") .std ++ [.cleanup none])).isSome)
  exact (survives_iff (.http .percent) [] (by decide) hu).1.mpr (by decide)

/-- A malformed job ends the worker, with either protocol. -/
theorem not_survives :
    (∃ inputs, StepsMeet step (start []) inputs (ThrowsAs (.http .percent)) ∧
      ∃ u, run step (start []) inputs = some u ∧ ¬u.Survives) ∧
    ∃ inputs, StepsMeet step (start []) inputs (ThrowsAs .netstring) ∧
      ∃ u, run step (start []) inputs = some u ∧ ¬u.Survives := by
  have hrun : (run step (start []) (throwing (ascii "malformed") .other)).map (·.control) =
      some .escaped := by decide
  obtain ⟨u, hu, hcontrol⟩ := Option.map_eq_some_iff.mp hrun
  have hescaped : ¬u.Survives := by simp [Survives, hcontrol]
  exact ⟨⟨_, by decide, u, hu, hescaped⟩, _, by decide, u, hu, hescaped⟩

end Worker

end PrimeServer
