import Mathlib.Data.Nat.Find
import PrimeServer.Files.Path

/-!
# Runs of dots

What the loop of `disk_result` over the dots of a path does at each position of the path.

## Main results

* `Disk.inLongRun_iff`: a position lies in a run of at least two dots if there is a dot at it and another
  one next to it;
* `Disk.sanitised_runs`: the loop turns exactly these runs into slashes.
-/

namespace PrimeServer

namespace Disk

/-- The positions from `start` up to `stop` are all the dots that stand together there. -/
structure DotRun (path : Bytes) (start stop : ℕ) : Prop where
  /-- There are only dots from its start to its end. -/
  dots : ∀ j, start ≤ j → j < stop → path[j]? = some (byte '.')
  /-- No dot comes right before the first one. -/
  first : ∀ j, j + 1 = start → path[j]? ≠ some (byte '.')
  /-- No dot comes right after the last one. -/
  last : path[stop]? ≠ some (byte '.')

/-- The position lies in a maximal run of two or more dots. -/
def InLongRun (path : Bytes) (i : ℕ) : Prop :=
  ∃ start stop, DotRun path start stop ∧ start + 2 ≤ stop ∧ start ≤ i ∧ i < stop

/-- A dot stands right before the position or right after it. The flag says whether one stands before the
text. -/
def BesideDot (before : Bool) (s : Bytes) : ℕ → Prop
  | 0 => before ∨ s[1]? = some (byte '.')
  | i + 1 => s[i]? = some (byte '.') ∨ s[i + 2]? = some (byte '.')

instance (before : Bool) (s : Bytes) : ∀ i, Decidable (BesideDot before s i)
  | 0 => inferInstanceAs (Decidable (before ∨ s[1]? = some (byte '.')))
  | i + 1 => inferInstanceAs (Decidable (s[i]? = some (byte '.') ∨ s[i + 2]? = some (byte '.')))

/-- A byte counts as a dot exactly if it is there and is one. -/
theorem isDot_false_iff {o : Option UInt8} : isDot false o = true ↔ o = some (byte '.') := by
  cases o <;> simp [isDot]

/-- Each character of the rewritten text depends on the one that stood there and on its neighbours. -/
theorem getElem?_collapse (before : Bool) (s : Bytes) (i : ℕ) :
    (collapse before false s)[i]? =
      if s[i]? = some (byte '.') ∧ BesideDot before s i then some (byte '/') else s[i]? := by
  induction s generalizing before i with
  | nil => simp [collapse]
  | cons c s ih =>
    rw [collapse, List.head?_eq_getElem?]
    cases i with
    | zero =>
      simp only [List.getElem?_cons_zero, BesideDot, List.getElem?_cons_succ, isDot_false_iff,
        Option.some.injEq]
      split_ifs <;> rfl
    | succ i =>
      rw [List.getElem?_cons_succ, ih]
      cases i with
      | zero => simp [BesideDot]  -- the flag of the rest says whether the first character is a dot
      | succ i => rfl

/-- From a dot on, the dots that stand together come to an end. -/
theorem exists_run_stop {path : Bytes} {i : ℕ} (hi : path[i]? = some (byte '.')) :
    ∃ stop, i < stop ∧ (∀ j, i ≤ j → j < stop → path[j]? = some (byte '.')) ∧
      path[stop]? ≠ some (byte '.') := by
  have hends : ∃ n, path[i + n]? ≠ some (byte '.') := ⟨path.length, by simp⟩
  have hpos : 0 < Nat.find hends := by
    rw [Nat.find_pos]
    simpa using hi
  refine ⟨i + Nat.find hends, by omega, fun j hij hj => ?_, Nat.find_spec hends⟩
  have hdot := Nat.find_min hends (m := j - i) (by omega)
  rwa [Nat.add_sub_cancel' hij, ne_eq, not_not] at hdot

/-- Up to a position, the dots that stand together begin somewhere. -/
theorem exists_run_start (path : Bytes) (i : ℕ) :
    ∃ start, start ≤ i ∧ (∀ j, start ≤ j → j < i → path[j]? = some (byte '.')) ∧
      ∀ j, j + 1 = start → path[j]? ≠ some (byte '.') := by
  induction i with
  | zero => exact ⟨0, le_rfl, fun j _ hj => absurd hj (Nat.not_lt_zero j), fun j hj => by omega⟩
  | succ i ih =>
    by_cases hdot : path[i]? = some (byte '.')
    · -- the run goes on
      obtain ⟨start, hle, hdots, hfirst⟩ := ih
      refine ⟨start, by omega, fun j hstart hj => ?_, hfirst⟩
      rcases Nat.lt_succ_iff_lt_or_eq.mp hj with hlt | rfl
      · exact hdots j hstart hlt
      · exact hdot
    · -- a run can only begin behind this position
      refine ⟨i + 1, le_rfl, fun j hstart hj => by omega, fun j hj => ?_⟩
      obtain rfl : j = i := by omega
      exact hdot

/-- A position lies in a run of two or more dots if it has a dot, and another one next to it. -/
theorem inLongRun_iff {path : Bytes} {i : ℕ} :
    InLongRun path i ↔ path[i]? = some (byte '.') ∧ BesideDot false path i := by
  constructor
  · rintro ⟨start, stop, hrun, hlong, hstart, hstop⟩
    refine ⟨hrun.dots i hstart hstop, ?_⟩
    -- the run has another position on one of the two sides
    cases i with
    | zero => exact Or.inr (hrun.dots 1 (by omega) (by omega))
    | succ i =>
      by_cases hfirst : start ≤ i
      · exact Or.inl (hrun.dots i hfirst (by omega))
      · exact Or.inr (hrun.dots (i + 2) (by omega) (by omega))
  · rintro ⟨hi, hbeside⟩
    obtain ⟨start, hstart, hbefore, hfirst⟩ := exists_run_start path i
    obtain ⟨stop, hstop, hafter, hlast⟩ := exists_run_stop hi
    have hdots : ∀ j, start ≤ j → j < stop → path[j]? = some (byte '.') := fun j hj hj' => by
      rcases Nat.lt_or_ge j i with hlt | hge
      · exact hbefore j hj hlt
      · exact hafter j hge hj'
    refine ⟨start, stop, ⟨hdots, hfirst, hlast⟩, ?_, hstart, hstop⟩
    -- were the run no longer than this dot, the neighbour would be no dot
    by_contra hshort
    obtain ⟨rfl, rfl⟩ : start = i ∧ stop = i + 1 := by omega
    cases start with
    | zero => exact hbeside.elim (fun h => absurd h (by simp)) hlast
    | succ i => exact hbeside.elim (hfirst i rfl) hlast

instance (path : Bytes) (i : ℕ) : Decidable (InLongRun path i) := decidable_of_iff _ inLongRun_iff.symm

/-- The loop over the dots of a path keeps its length, leaves no two dots next to each other, turns every
dot of a run of two or more into a slash, and changes nothing else. -/
theorem sanitised_runs (path : Bytes) :
    ∃ result, sanitised path = some result ∧
      result.length = path.length ∧
      ¬ascii ".." <:+: result ∧
      ∀ i, result[i]? = if InLongRun path i then some (byte '/') else path[i]? := by
  refine ⟨collapse false false path, sanitised_eq path, length_collapse _ _ path,
    not_infix_collapse _ _ path, fun i => ?_⟩
  simp only [getElem?_collapse, inLongRun_iff]

example : sanitised (ascii "/a.b/../c...d/.") = some (ascii "/a.b////c///d/.") := by decide

end Disk

end PrimeServer
