import Mathlib.Data.List.Induction
import Mathlib.Tactic.Common

/-!
# Runs of deterministic transition systems

A step function takes a state and an input to the next state, or refuses the input. `run` takes a
list of inputs. The two rules for runs are `run_induction`, for properties that mention the inputs
taken so far, and `invariant_of_stepsMeet`, for invariants that a step keeps under a condition on the
state before it and its input. `always_iff_stepsMeet` is for conditions that are exact, and
`countP_add_le_of_stepsMeet` for runs that have to end.
-/

namespace Transition

variable {σ ι : Type*} {step : σ → ι → Option σ}

/-- The state reached from `s` by the inputs in order, if none of them is refused. -/
def run (step : σ → ι → Option σ) (s : σ) (inputs : List ι) : Option σ :=
  inputs.foldlM step s

@[simp]
theorem run_nil (s : σ) : run step s [] = some s := rfl

/-- A run takes its first input first. -/
theorem run_cons (s : σ) (i : ι) (is : List ι) :
    run step s (i :: is) = (step s i).bind fun t => run step t is := rfl

/-- A run can be taken in two parts. -/
theorem run_append (s : σ) (is js : List ι) :
    run step s (is ++ js) = (run step s is).bind fun t => run step t js :=
  List.foldlM_append

/-- A run with one input more is the run and then one step. -/
theorem run_concat (s : σ) (is : List ι) (i : ι) :
    run step s (is ++ [i]) = (run step s is).bind fun t => step t i := by
  rw [run_append]
  congr 1
  funext t
  simp [run]

/-- A run with one more input is a run and a step. -/
theorem run_concat_eq_some {s u : σ} {is : List ι} {i : ι} :
    run step s (is ++ [i]) = some u ↔ ∃ t, run step s is = some t ∧ step t i = some u := by
  rw [run_concat, Option.bind_eq_some_iff]

/-- What holds at the start and is passed on by each step of a run holds at its end. -/
theorem run_induction {P : List ι → σ → Prop} {s : σ} (hstart : P [] s)
    (hstep : ∀ is t i u, run step s is = some t → P is t → step t i = some u → P (is ++ [i]) u)
    {is : List ι} {u : σ} (hrun : run step s is = some u) : P is u := by
  induction is using List.reverseRecOn generalizing u with
  | nil =>
    obtain rfl : s = u := by simpa using hrun
    exact hstart
  | append_singleton is i ih =>
    obtain ⟨t, ht, hu⟩ := run_concat_eq_some.mp hrun
    exact hstep is t i u ht (ih ht) hu

/-- Each step of the run is taken from a state and with an input that satisfy `C`. -/
def StepsMeet (step : σ → ι → Option σ) (s : σ) (is : List ι) (C : σ → ι → Prop) : Prop :=
  ∀ js i ks t, is = js ++ i :: ks → run step s js = some t → C t i

/-- What the steps of a run meet, those of its beginning meet. -/
theorem StepsMeet.init {s : σ} {is : List ι} {i : ι} {C : σ → ι → Prop}
    (h : StepsMeet step s (is ++ [i]) C) : StepsMeet step s is C :=
  fun js j ks t hsplit hrun => h js j (ks ++ [i]) t (by simp [hsplit]) hrun

/-- The last step of a run meets the condition in the state before it. -/
theorem StepsMeet.last {s t : σ} {is : List ι} {i : ι} {C : σ → ι → Prop}
    (h : StepsMeet step s (is ++ [i]) C) (hrun : run step s is = some t) : C t i :=
  h is i [] t rfl hrun

/-- If the steps so far meet the condition and the next one does, all of them do. -/
theorem StepsMeet.concat {s t : σ} {is : List ι} {i : ι} {C : σ → ι → Prop} (h : StepsMeet step s is C)
    (hrun : run step s is = some t) (hC : C t i) : StepsMeet step s (is ++ [i]) C := by
  intro js j ks u hsplit hu
  rcases List.eq_nil_or_concat ks with rfl | ⟨ks, k, rfl⟩
  · obtain ⟨rfl, hlast⟩ := List.append_inj' hsplit rfl
    obtain rfl := List.singleton_inj.mp hlast
    obtain rfl := Option.some.inj (hrun.symm.trans hu)
    exact hC
  · rw [List.concat_eq_append, ← List.cons_append, ← List.append_assoc] at hsplit
    exact h js j ks u (List.append_inj' hsplit rfl).1 hu

/-- A condition on the inputs alone can be checked without taking a step. -/
theorem stepsMeet_of_forall {s : σ} {is : List ι} {P : ι → Prop} (h : ∀ i ∈ is, P i) :
    StepsMeet step s is fun _ i => P i :=
  fun js i ks _ hsplit _ => h i (by simp [hsplit])

/-- A stronger condition is enough. -/
theorem StepsMeet.imp {s : σ} {is : List ι} {C D : σ → ι → Prop} (h : StepsMeet step s is C)
    (himp : ∀ t i, C t i → D t i) : StepsMeet step s is D :=
  fun js i ks t hsplit hrun => himp t i (h js i ks t hsplit hrun)

/-- Two conditions that are met are met together. -/
theorem StepsMeet.and {s : σ} {is : List ι} {C D : σ → ι → Prop} (hC : StepsMeet step s is C)
    (hD : StepsMeet step s is D) : StepsMeet step s is fun t i => C t i ∧ D t i :=
  fun js i ks t hsplit hrun => ⟨hC js i ks t hsplit hrun, hD js i ks t hsplit hrun⟩

theorem stepsMeet_nil (s : σ) (C : σ → ι → Prop) : StepsMeet step s [] C :=
  fun js i ks _ hsplit _ => absurd hsplit (by simp)

/-- The first step meets the condition, and the others do in the run from there. -/
theorem stepsMeet_cons {s : σ} {i : ι} {is : List ι} {C : σ → ι → Prop} :
    StepsMeet step s (i :: is) C ↔ C s i ∧ ∀ t, step s i = some t → StepsMeet step t is C := by
  constructor
  · intro h
    refine ⟨h [] i is s rfl rfl, fun t ht js j ks u hsplit hu => ?_⟩
    exact h (i :: js) j ks u (by simp [hsplit]) (by rw [run_cons, ht]; exact hu)
  · rintro ⟨hfirst, hrest⟩ js j ks t hsplit ht
    cases js with
    | nil =>
      obtain ⟨rfl, -⟩ : i = j ∧ is = ks := by simpa using hsplit
      obtain rfl : s = t := by simpa using ht
      exact hfirst
    | cons i' js =>
      obtain ⟨rfl, rfl⟩ : i = i' ∧ is = js ++ j :: ks := by simpa using hsplit
      rw [run_cons, Option.bind_eq_some_iff] at ht
      obtain ⟨u, hu, ht⟩ := ht
      exact hrest u hu js j ks t rfl ht

/-- Whether the steps of a run meet a condition can be decided by taking them. -/
instance decidableStepsMeet {C : σ → ι → Prop} [∀ s i, Decidable (C s i)] :
    ∀ (s : σ) (is : List ι), Decidable (StepsMeet step s is C)
  | s, [] => isTrue (stepsMeet_nil s C)
  | s, i :: is =>
    match h : step s i with
    | none => decidable_of_iff (C s i) (by simp [stepsMeet_cons, h])
    | some t =>
      have := decidableStepsMeet (C := C) t is
      decidable_of_iff (C s i ∧ StepsMeet step t is C) (by simp [stepsMeet_cons, h])

/-- An invariant that each step keeps under the condition holds after a run whose steps all meet the
condition. -/
theorem invariant_of_stepsMeet {P : σ → Prop} {C : σ → ι → Prop} {s : σ} (hstart : P s)
    (hstep : ∀ t i u, P t → C t i → step t i = some u → P u) {is : List ι} {u : σ}
    (hmeet : StepsMeet step s is C) (hrun : run step s is = some u) : P u := by
  refine run_induction (P := fun is t => StepsMeet step s is C → P t) (fun _ => hstart)
    (fun is t i u ht ih hu hm => ?_) hrun hmeet
  exact hstep t i u (ih hm.init) (hm.last ht) hu

/-- A condition that is enough for another one under an invariant. It may be easier to check along a run. -/
theorem StepsMeet.of_invariant {P : σ → Prop} {C D : σ → ι → Prop} {s : σ} {is : List ι} (hstart : P s)
    (hstep : ∀ t i u, P t → D t i → step t i = some u → P u) (himp : ∀ t i, P t → C t i → D t i)
    (h : StepsMeet step s is C) : StepsMeet step s is D := by
  intro js i ks t hsplit hrun
  have hbefore : StepsMeet step s js C := fun js' j ks' u hjs hu =>
    h js' j (ks' ++ i :: ks) u (by simp [hsplit, hjs]) hu
  have ht : P t := invariant_of_stepsMeet hstart
    (fun t i u hP hC hu => hstep t i u hP (himp t i hP hC) hu) hbefore hrun
  exact himp t i ht (h js i ks t hsplit hrun)

/-- All states of a run, its start and its end among them, satisfy `P`. -/
def Always (step : σ → ι → Option σ) (s : σ) (is : List ι) (P : σ → Prop) : Prop :=
  ∀ js ks t, is = js ++ ks → run step s js = some t → P t

/-- If a step from a state with the invariant keeps it exactly under the condition, then a run keeps
the invariant exactly if its steps all meet the condition. The rule may be used for runs whose steps
all satisfy `B`. -/
theorem always_iff_stepsMeet {P : σ → Prop} {B C : σ → ι → Prop} {s : σ} (hstart : P s)
    (hstep : ∀ t i u, B t i → P t → step t i = some u → (P u ↔ C t i)) {is : List ι} {u : σ}
    (hB : StepsMeet step s is B) (hrun : run step s is = some u) :
    Always step s is P ↔ StepsMeet step s is C := by
  constructor
  · intro halways js i ks t hsplit ht
    -- the invariant holds before the step and after it
    have hnext : run step s (js ++ i :: ks) = some u := hsplit ▸ hrun
    rw [List.append_cons, run_append, Option.bind_eq_some_iff] at hnext
    obtain ⟨v, hv, -⟩ := hnext
    obtain ⟨t', ht', hstep'⟩ := run_concat_eq_some.mp hv
    obtain rfl : t = t' := Option.some.inj (ht.symm.trans ht')
    have hP : P t := halways js (i :: ks) t hsplit ht
    exact (hstep t i v (hB js i ks t hsplit ht) hP hstep').mp
      (halways (js ++ [i]) ks v (by simp [hsplit]) hv)
  · intro hmeet js ks t hsplit ht
    have hmeet' : StepsMeet step s js fun t i => B t i ∧ C t i := fun js' i ks' t' hsplit' ht' =>
      have hall : is = js' ++ i :: (ks' ++ ks) := by simp [hsplit, hsplit']
      ⟨hB js' i _ t' hall ht', hmeet js' i _ t' hall ht'⟩
    exact invariant_of_stepsMeet hstart
      (fun t i v hP hBC hv => (hstep t i v hBC.1 hP hv).mpr hBC.2) hmeet' ht

/-- An invariant that every step keeps holds after every run. -/
theorem invariant_of_steps {P : σ → Prop} {s : σ} (hstart : P s)
    (hstep : ∀ t i u, P t → step t i = some u → P u) {is : List ι} {u : σ}
    (hrun : run step s is = some u) : P u :=
  run_induction (P := fun _ t => P t) hstart (fun _ t i u _ ht hu => hstep t i u ht hu) hrun

/-- Where each step that counts lowers a measure and no other step raises it, the measure at the start
limits how many steps of a run count. -/
theorem countP_add_le_of_stepsMeet {P : σ → Prop} {C : σ → ι → Prop} {counts : ι → Bool} {m : σ → ℕ}
    (hstep : ∀ t i u, P t → C t i → step t i = some u → P u ∧ (if counts i then 1 else 0) + m u ≤ m t)
    {s u : σ} {is : List ι} (hs : P s) (hmeet : StepsMeet step s is C) (hrun : run step s is = some u) :
    P u ∧ is.countP counts + m u ≤ m s := by
  induction is generalizing s with
  | nil =>
    obtain rfl : s = u := by simpa using hrun
    exact ⟨hs, by simp⟩
  | cons i is ih =>
    rw [run_cons, Option.bind_eq_some_iff] at hrun
    obtain ⟨t, ht, hrest⟩ := hrun
    obtain ⟨hfirst, hlater⟩ := stepsMeet_cons.mp hmeet
    obtain ⟨hP, hlower⟩ := hstep s i t hs hfirst ht
    obtain ⟨hu, hle⟩ := ih hP (hlater t ht) hrest
    rw [List.countP_cons]
    exact ⟨hu, by omega⟩

end Transition
