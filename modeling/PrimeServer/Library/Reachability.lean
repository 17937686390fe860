import PrimeServer.Library.Transition

/-!
# What can still be reached

A state is not stuck if there is a way on from it to what is wanted. The steps on the way may be asked to
meet a condition. `CanReach.trans` puts ways together, `CanReach.keep` says what still holds at the end, and
`canReach_of_forall` takes one goal after the other where no goal that was reached is lost again, and
`CanReach.lift` is for systems made of components.
-/

namespace Transition

variable {σ ι : Type*} {step : σ → ι → Option σ} {C : σ → ι → Prop} {P Q : σ → Prop} {s t : σ}

/-- There are inputs that lead from a state to one with the property, by steps that meet the condition. -/
def CanReach (step : σ → ι → Option σ) (C : σ → ι → Prop) (P : σ → Prop) (s : σ) : Prop :=
  ∃ is t, StepsMeet step s is C ∧ run step s is = some t ∧ P t

/-- What already holds is reached without a step. -/
theorem canReach_self (h : P s) : CanReach step C P s := ⟨[], s, stepsMeet_nil s C, rfl, h⟩

/-- The way begins with a step. -/
theorem CanReach.of_step {i : ι} (hC : C s i) (hstep : step s i = some t) (h : CanReach step C P t) :
    CanReach step C P s := by
  obtain ⟨is, u, hmeet, hrun, hu⟩ := h
  refine ⟨i :: is, u, stepsMeet_cons.mpr ⟨hC, fun t' ht' => ?_⟩, ?_, hu⟩
  · obtain rfl : t = t' := Option.some.inj (hstep.symm.trans ht')
    exact hmeet
  · rw [run_cons, hstep]
    exact hrun

/-- One step is enough. -/
theorem canReach_of_step {i : ι} (hC : C s i) (hstep : step s i = some t) (h : P t) :
    CanReach step C P s := (canReach_self h).of_step hC hstep

/-- One way on can be continued by another one. -/
theorem CanReach.trans (h : CanReach step C P s) (hnext : ∀ t, P t → CanReach step C Q t) :
    CanReach step C Q s := by
  obtain ⟨is, t, hmeet, hrun, ht⟩ := h
  induction is generalizing s with
  | nil =>
    obtain rfl : s = t := by simpa using hrun
    exact hnext s ht
  | cons i is ih =>
    rw [run_cons, Option.bind_eq_some_iff] at hrun
    obtain ⟨u, hu, hrest⟩ := hrun
    obtain ⟨hfirst, hlater⟩ := stepsMeet_cons.mp hmeet
    exact (ih (hlater u hu) hrest).of_step hfirst hu

/-- What is reached may be said in a weaker form. -/
theorem CanReach.mono (h : CanReach step C P s) (hPQ : ∀ t, P t → Q t) : CanReach step C Q s :=
  h.trans fun t ht => canReach_self (hPQ t ht)

/-- Less may be asked of the steps. -/
theorem CanReach.imp {D : σ → ι → Prop} (h : CanReach step C P s) (hCD : ∀ t i, C t i → D t i) :
    CanReach step D P s := by
  obtain ⟨is, t, hmeet, hrun, ht⟩ := h
  exact ⟨is, t, hmeet.imp hCD, hrun, ht⟩

/-- What the steps keep still holds at the end of the way. -/
theorem CanReach.keep {I : σ → Prop} (h : CanReach step C P s) (hs : I s)
    (hkeep : ∀ t i u, I t → C t i → step t i = some u → I u) :
    CanReach step C (fun t => P t ∧ I t) s := by
  obtain ⟨is, t, hmeet, hrun, ht⟩ := h
  exact ⟨is, t, hmeet, hrun, ht, invariant_of_stepsMeet hs hkeep hmeet hrun⟩

/-- Goals that can be reached one by one, and are kept, can be reached together. -/
theorem canReach_of_forall {I : σ → Prop} {G : ℕ → σ → Prop} (hs : I s)
    (hkeep : ∀ t i u, I t → C t i → step t i = some u → I u ∧ ∀ k, G k t → G k u) {n : ℕ}
    (hgoal : ∀ t, I t → ∀ k < n, CanReach step C (G k) t) :
    CanReach step C (fun u => I u ∧ ∀ k < n, G k u) s := by
  induction n with
  | zero => exact canReach_self ⟨hs, fun k hk => absurd hk (Nat.not_lt_zero k)⟩
  | succ n ih =>
    apply (ih fun t ht k hk => hgoal t ht k (Nat.lt_succ_of_lt hk)).trans
    rintro t ⟨ht, hreached⟩
    -- on the way to the last goal the others are kept
    have hway := (hgoal t ht n (Nat.lt_succ_self n)).keep
      (I := fun u => I u ∧ ∀ k < n, G k u) ⟨ht, hreached⟩ fun u i v hu hC hstep => by
        obtain ⟨hv, hkept⟩ := hkeep u i v hu.1 hC hstep
        exact ⟨hv, fun k hk => hkept k (hu.2 k hk)⟩
    apply hway.mono
    rintro u ⟨hlast, hu, hothers⟩
    refine ⟨hu, fun k hk => ?_⟩
    rcases Nat.lt_succ_iff_lt_or_eq.mp hk with hk | rfl
    · exact hothers k hk
    · exact hlast

/-- A way of a component is a way of the system in which each step of the component can be taken. -/
theorem CanReach.lift {σ' ι' : Type*} {step' : σ' → ι' → Option σ'} {C' : σ' → ι' → Prop}
    {p : σ' → σ}
    (hlift : ∀ s i t, C (p s) i → step (p s) i = some t → ∃ i' t', C' s i' ∧ step' s i' = some t' ∧ p t' = t)
    {s : σ'} (h : CanReach step C P (p s)) : CanReach step' C' (fun t => P (p t)) s := by
  obtain ⟨is, t, hmeet, hrun, ht⟩ := h
  induction is generalizing s with
  | nil =>
    obtain rfl : p s = t := by simpa using hrun
    exact canReach_self ht
  | cons i is ih =>
    rw [run_cons, Option.bind_eq_some_iff] at hrun
    obtain ⟨u, hu, hrest⟩ := hrun
    obtain ⟨hfirst, hlater⟩ := stepsMeet_cons.mp hmeet
    obtain ⟨i', u', hC', hstep', rfl⟩ := hlift s i u hfirst hu
    exact (ih (hlater _ hu) hrest).of_step hC' hstep'

end Transition
