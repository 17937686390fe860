import Mathlib.Data.Nat.Prime.Basic
import Mathlib.Tactic.Linarith

/-!
# Trial division

The loop of the compute worker of `prime_serverd`. It does not stop at the square root: a growing divisor
and a shrinking quotient meet there.

## Main results

* `Primes.divide_spec`: the loop ends for every number;
* `Primes.divisor_lt_high_iff`: how it ends says whether a number from two on is prime.
-/

namespace PrimeServer.Primes

/-- The variables of the loop. -/
structure Division where
  /-- The number to try next. -/
  divisor : UInt64
  /-- The bound for it: the quotient by the last one. -/
  high : UInt64
  deriving DecidableEq

/-- Before the loop. -/
def Division.start (prime : UInt64) : Division where
  divisor := 2
  high := prime

/-- A turn of the loop. `none` means that the loop is left. -/
def turn (prime : UInt64) (s : Division) : Option Division :=
  if s.divisor < s.high then
    if prime % s.divisor = 0 then none
    else some { divisor := s.divisor + 1, high := prime / s.divisor }
  else none

/-- The loop, with a limit on its turns. -/
def divide (prime : UInt64) : ℕ → Division → Option Division
  | 0, _ => none
  | turns + 1, s =>
    match turn prime s with
    | some t => divide prime turns t
    | none => some s

/-- The loop has got to its divisor without finding one. -/
structure Tried (prime : UInt64) (s : Division) : Prop where
  /-- There is no division by zero. -/
  two_le : 2 ≤ s.divisor.toNat
  /-- The bound is the quotient by the last divisor that was tried. -/
  high : s.high.toNat = prime.toNat / (s.divisor.toNat - 1)
  /-- None of the smaller numbers divides it. -/
  notDvd : ∀ d, 2 ≤ d → d < s.divisor.toNat → ¬ d ∣ prime.toNat

variable {prime : UInt64} {s t : Division} {turns : ℕ}

/-- Before the loop no divisor was tried. -/
theorem tried_start (prime : UInt64) : Tried prime (.start prime) where
  two_le := le_rfl
  high := (Nat.div_one _).symm
  notDvd _ hd hlt := absurd hlt (not_lt.mpr hd)

/-- The quotient is at most the number. -/
theorem Tried.high_le (h : Tried prime s) : s.high.toNat ≤ prime.toNat :=
  h.high ▸ Nat.div_le_self _ _

/-- The remainder is zero exactly for a divisor. -/
theorem mod_eq_zero_iff (prime divisor : UInt64) :
    prime % divisor = 0 ↔ divisor.toNat ∣ prime.toNat := by
  rw [← UInt64.toNat_inj, UInt64.toNat_mod, Nat.dvd_iff_mod_eq_zero]
  rfl

/-- All that a turn can do. The divisor does not wrap around, since it is less than the quotient. -/
theorem Tried.turn (h : Tried prime s) (hturn : turn prime s = some t) :
    Tried prime t ∧ t.divisor.toNat = s.divisor.toNat + 1 := by
  unfold Primes.turn at hturn
  split_ifs at hturn with hlt hdvd
  obtain rfl := Option.some.inj hturn
  rw [mod_eq_zero_iff] at hdvd
  have hdivisor : (s.divisor + 1).toNat = s.divisor.toNat + 1 := by
    -- less than the quotient, which is a number of 64 bits
    have hle := UInt64.lt_iff_toNat_lt.mp hlt
    have hbound := s.high.toNat_lt
    rw [UInt64.toNat_add, show (1 : UInt64).toNat = 1 from rfl, Nat.mod_eq_of_lt (by omega)]
  refine ⟨⟨?_, ?_, fun d hd hd' => ?_⟩, hdivisor⟩
  · simp only [hdivisor]
    exact h.two_le.trans (Nat.le_succ _)
  · simp only [hdivisor, Nat.add_sub_cancel]
    exact UInt64.toNat_div _ _
  · -- the divisor itself was tried in this turn
    simp only [hdivisor] at hd'
    rcases Nat.lt_succ_iff_lt_or_eq.mp hd' with hlower | rfl
    · exact h.notDvd d hd hlower
    · exact hdvd

/-- The loop ends when the divisor has reached the number, if not before. -/
theorem divide_spec (h : Tried prime s) (hturns : prime.toNat ≤ turns + s.divisor.toNat) :
    ∃ t, divide prime (turns + 1) s = some t ∧ Tried prime t ∧ turn prime t = none := by
  induction turns generalizing s with
  | zero =>
    have hturn : turn prime s = none := by
      have hle : s.high ≤ s.divisor := UInt64.le_iff_toNat_le.mpr (by have := h.high_le; omega)
      rw [turn, if_neg (UInt64.not_lt.mpr hle)]
    exact ⟨s, by simp [divide, hturn], h, hturn⟩
  | succ turns ih =>
    cases hturn : turn prime s with
    | none => exact ⟨s, by simp [divide, hturn], h, hturn⟩
    | some u =>
      obtain ⟨hu, hdivisor⟩ := h.turn hturn
      obtain ⟨t, ht, htried⟩ := ih hu (by omega)
      exact ⟨t, by rw [divide, hturn]; exact ht, htried⟩

/-- A number without divisors below a bound is prime, if the bound is above the square root: dividing by the
number before the bound gives no more than the bound. -/
theorem prime_of_notDvd {n d : ℕ} (hn : 2 ≤ n) (hd : 2 ≤ d) (hhigh : n / (d - 1) ≤ d)
    (hnot : ∀ m, 2 ≤ m → m < d → ¬ m ∣ n) : n.Prime := by
  by_contra hprime
  have hfac : n.minFac ^ 2 ≤ n := Nat.minFac_sq_le_self (by omega) hprime
  have hle : d ≤ n.minFac := by
    by_contra hlt
    exact hnot _ (Nat.minFac_prime (by omega)).two_le (not_le.mp hlt) (Nat.minFac_dvd n)
  have hlt : n < (d + 1) * (d - 1) := (Nat.div_lt_iff_lt_mul (by omega)).mp (Nat.lt_succ_of_le hhigh)
  obtain ⟨k, rfl⟩ : ∃ k, d = k + 1 := ⟨d - 1, by omega⟩
  rw [Nat.add_sub_cancel] at hlt
  nlinarith

/-- When the loop has been left, the divisor is less than the quotient exactly for composite numbers. -/
theorem divisor_lt_high_iff (h : Tried prime s) (hturn : turn prime s = none) (hprime : 2 ≤ prime.toNat) :
    s.divisor < s.high ↔ ¬ prime.toNat.Prime := by
  constructor
  · intro hlt
    -- a divisor was found, and it is not the number itself
    have hdvd : s.divisor.toNat ∣ prime.toNat := by
      rw [← mod_eq_zero_iff]
      by_contra hnot
      simp [turn, hlt, hnot] at hturn
    have hless : s.divisor.toNat < prime.toNat := (UInt64.lt_iff_toNat_lt.mp hlt).trans_le h.high_le
    exact Nat.not_prime_of_dvd_of_lt hdvd h.two_le hless
  · intro hcomposite
    by_contra hle
    rw [UInt64.not_lt, UInt64.le_iff_toNat_le, h.high] at hle
    exact hcomposite (prime_of_notDvd hprime h.two_le hle h.notDvd)

end PrimeServer.Primes
