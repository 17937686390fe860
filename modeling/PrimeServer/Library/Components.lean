import PrimeServer.Library.Transition

/-!
# Systems made of components

A component of a transition system has a state of its own in the state of the system. In each step of the
system it takes a step of its own, or stays as it is. A run of the system is then a run of the component,
and what is known of the component alone holds of it in the system.

## Main results

* `IsComponent.run`: a run of the system is a run of the component with the inputs that it gets;
* `IsComponent.stepsMeet`: the steps of the component meet what the steps of the system promise of them;
* `IsComponent.invariant`: an invariant of the component holds in the system;
* `IsComponent.trans`: the components of a component are components.
-/

namespace Transition

variable {σ ι τ κ : Type*}

/-- In each step of the system, the component takes the step for the input that it gets, if it gets one. -/
structure IsComponent (step : σ → ι → Option σ) (componentStep : τ → κ → Option τ) (component : σ → τ)
    (input : σ → ι → Option κ) : Prop where
  /-- A step without an input for the component leaves it as it is. -/
  of_input_eq_none : ∀ {s t : σ} {i : ι}, step s i = some t → input s i = none →
    component t = component s
  /-- A step with an input for the component is one of its own steps. -/
  of_input_eq_some : ∀ {s t : σ} {i : ι} {k : κ}, step s i = some t → input s i = some k →
    componentStep (component s) k = some (component t)

/-- The inputs that a component gets in a run of the system. -/
def componentInputs (step : σ → ι → Option σ) (input : σ → ι → Option κ) : σ → List ι → List κ
  | _, [] => []
  | s, i :: is =>
    (input s i).toList ++
      match step s i with
      | none => []
      | some t => componentInputs step input t is

namespace IsComponent

variable {step : σ → ι → Option σ} {componentStep : τ → κ → Option τ} {component : σ → τ}
  {input : σ → ι → Option κ}

/-- A run of the system is a run of the component. -/
theorem run (h : IsComponent step componentStep component input) {s t : σ} {is : List ι}
    (hrun : Transition.run step s is = some t) :
    Transition.run componentStep (component s) (componentInputs step input s is) =
      some (component t) := by
  induction is generalizing s with
  | nil =>
    obtain rfl : s = t := by simpa using hrun
    rfl
  | cons i is ih =>
    rw [run_cons, Option.bind_eq_some_iff] at hrun
    obtain ⟨u, hu, hrest⟩ := hrun
    rw [componentInputs, hu]
    cases hinput : input s i with
    | none =>
      rw [← h.of_input_eq_none hu hinput]
      exact ih hrest
    | some k =>
      show Transition.run componentStep (component s)
        (k :: componentInputs step input u is) = some (component t)
      rw [run_cons, h.of_input_eq_some hu hinput]
      exact ih hrest

/-- What the steps of the system promise of the inputs of the component, its own steps meet. -/
theorem stepsMeet (h : IsComponent step componentStep component input) {C : τ → κ → Prop} {s : σ}
    {is : List ι} (hmeet : StepsMeet step s is fun t i => ∀ k ∈ input t i, C (component t) k) :
    StepsMeet componentStep (component s) (componentInputs step input s is) C := by
  induction is generalizing s with
  | nil => exact stepsMeet_nil _ _
  | cons i is ih =>
    obtain ⟨hfirst, hrest⟩ := stepsMeet_cons.mp hmeet
    rw [componentInputs]
    cases hstep : step s i with
    | none =>
      -- nothing comes after an input that is refused
      cases hinput : input s i with
      | none => exact stepsMeet_nil _ _
      | some k =>
        exact stepsMeet_cons.mpr ⟨hfirst k hinput, fun _ _ => stepsMeet_nil _ _⟩
    | some t =>
      cases hinput : input s i with
      | none =>
        rw [← h.of_input_eq_none hstep hinput]
        exact ih (hrest t hstep)
      | some k =>
        refine stepsMeet_cons.mpr ⟨hfirst k hinput, fun u hu => ?_⟩
        obtain rfl : component t = u :=
          Option.some.inj ((h.of_input_eq_some hstep hinput).symm.trans hu)
        exact ih (hrest t hstep)

/-- What the steps of the component keep under a condition holds of it in the system. -/
theorem invariant (h : IsComponent step componentStep component input) {P : τ → Prop}
    {C : τ → κ → Prop} {s t : σ} (hstart : P (component s))
    (hstep : ∀ u k v, P u → C u k → componentStep u k = some v → P v) {is : List ι}
    (hmeet : StepsMeet step s is fun t i => ∀ k ∈ input t i, C (component t) k)
    (hrun : Transition.run step s is = some t) : P (component t) :=
  invariant_of_stepsMeet hstart hstep (h.stepsMeet hmeet) (h.run hrun)

/-- A component of a component is a component. -/
theorem trans {ω μ : Type*} {partStep : ω → μ → Option ω} {part : τ → ω} {partInput : τ → κ → Option μ}
    (h : IsComponent step componentStep component input)
    (hpart : IsComponent componentStep partStep part partInput) :
    IsComponent step partStep (fun s => part (component s))
      fun s i => (input s i).bind (partInput (component s)) where
  of_input_eq_none {s t i} hstep hinput := by
    cases hk : input s i with
    | none => rw [h.of_input_eq_none hstep hk]
    | some k =>
      rw [hk, Option.bind_some] at hinput
      exact hpart.of_input_eq_none (h.of_input_eq_some hstep hk) hinput
  of_input_eq_some {s t i l} hstep hinput := by
    obtain ⟨k, hk, hl⟩ := Option.bind_eq_some_iff.mp hinput
    exact hpart.of_input_eq_some (h.of_input_eq_some hstep hk) hl

end IsComponent

end Transition
