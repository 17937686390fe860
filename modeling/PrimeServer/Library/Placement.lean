import Mathlib.Data.List.Nodup
import Mathlib.Logic.Function.Basic
import Mathlib.Tactic.Common

/-!
# Tokens in places

Numbered tokens lie in places, each place a list. `Placed` says that each of the first `n` tokens lies
in exactly one place, and once there. It is kept when a new token comes (`Placed.arrive`) and when the
first token of a place (`Placed.move`), or any token (`Placed.pick`), is moved to the end of another.
-/

namespace Placement

variable {π : Type*} {n i : ℕ} {occupants : π → List ℕ} {place : ℕ → π}

/-- The tokens below `n` lie where `place` says, each of them once, and there are no others. -/
structure Placed (n : ℕ) (occupants : π → List ℕ) (place : ℕ → π) : Prop where
  /-- No place holds an index twice. -/
  nodup : ∀ p, (occupants p).Nodup
  /-- A place holds the indexes that are assigned to it. -/
  mem_iff : ∀ p i, i ∈ occupants p ↔ i < n ∧ place i = p

/-- Without tokens all places are empty. -/
theorem placed_zero (place : ℕ → π) : Placed 0 (fun _ => []) place where
  nodup _ := List.nodup_nil
  mem_iff _ _ := by simp

namespace Placed

/-- Each of the numbers is in exactly one place. -/
theorem existsUnique (h : Placed n occupants place) (hi : i < n) : ∃! p, i ∈ occupants p := by
  refine ⟨place i, (h.mem_iff _ _).mpr ⟨hi, rfl⟩, ?_⟩
  intro p hp
  exact ((h.mem_iff p i).mp hp).2.symm

/-- A token of a place is one of the tokens. -/
theorem lt_of_mem (h : Placed n occupants place) {p : π} (hi : i ∈ occupants p) : i < n :=
  ((h.mem_iff p i).mp hi).1

/-- The order in a place does not matter. -/
theorem congr {others : π → List ℕ} (h : Placed n occupants place)
    (hperm : ∀ p, (others p).Perm (occupants p)) : Placed n others place where
  nodup p := (hperm p).nodup_iff.mpr (h.nodup p)
  mem_iff p i := by rw [(hperm p).mem_iff, h.mem_iff]

variable [DecidableEq π]

/-- A new token comes to a place. -/
theorem arrive (h : Placed n occupants place) (p : π) :
    Placed (n + 1) (Function.update occupants p (occupants p ++ [n])) (Function.update place n p) where
  nodup q := by
    by_cases hq : q = p
    · subst hq
      -- the new token is not one of those that lie there
      have hnew : n ∉ occupants q := fun hmem => absurd (h.lt_of_mem hmem) (Nat.lt_irrefl n)
      rw [Function.update_self]
      apply (h.nodup q).append (List.nodup_singleton n)
      simpa using hnew
    · rw [Function.update_of_ne hq]
      exact h.nodup q
  mem_iff q j := by
    by_cases hj : j = n
    · subst hj
      by_cases hq : q = p
      · simp [hq]
      · have hnot : j ∉ occupants q := fun hmem => absurd (h.lt_of_mem hmem) (Nat.lt_irrefl j)
        simp [Function.update_of_ne hq, hnot, Ne.symm hq]
    · rw [Function.update_of_ne hj]
      have hlt : j < n + 1 ↔ j < n := by omega
      by_cases hq : q = p
      · subst hq
        simp [h.mem_iff, hj, hlt]
      · simp [Function.update_of_ne hq, h.mem_iff, hlt]

/-- The first token of a place moves to the end of another place. -/
theorem move (h : Placed n occupants place) {p q : π} (hpq : p ≠ q) {rest : List ℕ}
    (hp : occupants p = i :: rest) :
    Placed n (Function.update (Function.update occupants p rest) q (occupants q ++ [i]))
      (Function.update place i q) where
  nodup r := by
    have hi : i < n ∧ place i = p := (h.mem_iff p i).mp (by simp [hp])
    by_cases hr : r = q
    · subst hr
      -- the token lay elsewhere
      have hnot : i ∉ occupants r := fun hmem => hpq (hi.2.symm.trans ((h.mem_iff r i).mp hmem).2)
      rw [Function.update_self]
      apply (h.nodup r).append (List.nodup_singleton i)
      simpa using hnot
    · rw [Function.update_of_ne hr]
      by_cases hr' : r = p
      · subst hr'
        have hnodup := h.nodup r
        rw [hp, List.nodup_cons] at hnodup
        rw [Function.update_self]
        exact hnodup.2
      · rw [Function.update_of_ne hr']
        exact h.nodup r
  mem_iff r j := by
    have hi : i < n ∧ place i = p := (h.mem_iff p i).mp (by simp [hp])
    have hnodup := h.nodup p
    rw [hp, List.nodup_cons] at hnodup
    by_cases hj : j = i
    · subst hj
      by_cases hr : r = q
      · simp [hr, hi.1]
      · rw [Function.update_of_ne hr, Function.update_self]
        by_cases hr' : r = p
        · simp [hr', hnodup.1, Ne.symm hpq]
        · simp [Function.update_of_ne hr', h.mem_iff, hi.2, Ne.symm hr', Ne.symm hr]
    · rw [Function.update_of_ne hj]
      by_cases hr : r = q
      · subst hr
        simp [h.mem_iff, hj]
      · rw [Function.update_of_ne hr]
        by_cases hr' : r = p
        · subst hr'
          rw [Function.update_self, ← h.mem_iff, hp]
          simp [hj]
        · rw [Function.update_of_ne hr', h.mem_iff]

/-- Any token of a place moves to the end of another place. -/
theorem pick {others : π → List ℕ} (h : Placed n occupants place) {p q : π} (hpq : p ≠ q)
    {before after : List ℕ} (hp : occupants p = before ++ i :: after) (hleft : others p = before ++ after)
    (harrived : others q = occupants q ++ [i]) (hothers : ∀ r, r ≠ p → r ≠ q → others r = occupants r) :
    Placed n others (Function.update place i q) := by
  -- as if it were the first one
  have hfirst : Placed n (Function.update occupants p (i :: (before ++ after))) place := by
    apply h.congr
    intro r
    by_cases hr : r = p
    · subst hr
      rw [Function.update_self, hp]
      exact List.perm_middle.symm
    · rw [Function.update_of_ne hr]
  have hmoved := hfirst.move hpq (Function.update_self _ _ _)
  rw [Function.update_idem, Function.update_of_ne hpq.symm] at hmoved
  have heq : others =
      Function.update (Function.update occupants p (before ++ after)) q (occupants q ++ [i]) := by
    funext r
    by_cases hrq : r = q
    · rw [hrq, Function.update_self, harrived]
    · rw [Function.update_of_ne hrq]
      by_cases hrp : r = p
      · rw [hrp, Function.update_self, hleft]
      · rw [Function.update_of_ne hrp, hothers r hrp hrq]
  rwa [heq]

end Placed

end Placement
