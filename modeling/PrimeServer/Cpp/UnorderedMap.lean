import Mathlib.Logic.Function.Basic
import Mathlib.Tactic.Common

/-!
# Unordered maps

`std::unordered_map` as far as the program uses it: nothing ever iterates over one of these maps.
-/

namespace PrimeServer

/-- An `std::unordered_map`. -/
@[ext]
structure UnorderedMap (κ ν : Type) where
  /-- `find`, with `none` for `end()`. -/
  find : κ → Option ν

namespace UnorderedMap

variable {κ ν : Type}

/-- A map without entries. -/
def empty : UnorderedMap κ ν where
  find _ := none

@[simp]
theorem find_empty (k : κ) : (empty : UnorderedMap κ ν).find k = none := rfl

variable [DecidableEq κ]

/-- `erase`. -/
def erase (m : UnorderedMap κ ν) (k : κ) : UnorderedMap κ ν where
  find := Function.update m.find k none

/-- Assign through an iterator or a reference to the entry of a key. -/
def assign (m : UnorderedMap κ ν) (k : κ) (v : ν) : UnorderedMap κ ν where
  find := Function.update m.find k (some v)

/-- `emplace`, which leaves an entry that is there alone. -/
def emplace (m : UnorderedMap κ ν) (k : κ) (v : ν) : UnorderedMap κ ν :=
  if m.find k = none then m.assign k v else m

/-- Erasing a key takes away its entry and leaves all others alone. -/
theorem find_erase (m : UnorderedMap κ ν) (k k' : κ) :
    (m.erase k).find k' = if k' = k then none else m.find k' := by
  simp [erase, Function.update_apply]

@[simp]
theorem find_erase_self (m : UnorderedMap κ ν) (k : κ) : (m.erase k).find k = none := by
  rw [find_erase, if_pos rfl]

/-- The entries of other keys are still there after a key was erased. -/
theorem find_erase_of_ne (m : UnorderedMap κ ν) {k k' : κ} (h : k' ≠ k) :
    (m.erase k).find k' = m.find k' := by
  rw [find_erase, if_neg h]

/-- Assigning a value to a key replaces its entry and leaves all others alone. -/
theorem find_assign (m : UnorderedMap κ ν) (k k' : κ) (v : ν) :
    (m.assign k v).find k' = if k' = k then some v else m.find k' := by
  simp [assign, Function.update_apply]

@[simp]
theorem find_assign_self (m : UnorderedMap κ ν) (k : κ) (v : ν) :
    (m.assign k v).find k = some v := by
  rw [find_assign, if_pos rfl]

/-- The entries of other keys are what they were before the assignment. -/
theorem find_assign_of_ne (m : UnorderedMap κ ν) {k k' : κ} (v : ν) (h : k' ≠ k) :
    (m.assign k v).find k' = m.find k' := by
  rw [find_assign, if_neg h]

/-- `emplace` inserts where there is no entry for the key. -/
theorem emplace_of_find_eq_none {m : UnorderedMap κ ν} {k : κ} (h : m.find k = none) (v : ν) :
    m.emplace k v = m.assign k v := by
  rw [emplace, if_pos h]

/-- `emplace` does not replace an entry that is there: this is where `requests` may keep the client of an older
request. -/
theorem emplace_of_find_eq_some {m : UnorderedMap κ ν} {k : κ} {w : ν} (h : m.find k = some w)
    (v : ν) : m.emplace k v = m := by
  rw [emplace, if_neg (by simp [h])]

end UnorderedMap

/-- An `std::unordered_set`. -/
abbrev UnorderedSet (κ : Type) := UnorderedMap κ Unit

namespace UnorderedSet

variable {κ : Type} [DecidableEq κ]

/-- The key is found. -/
def Contains (s : UnorderedSet κ) (k : κ) : Prop := s.find k ≠ none

instance (s : UnorderedSet κ) (k : κ) : Decidable (s.Contains k) :=
  inferInstanceAs (Decidable (s.find k ≠ none))

/-- `insert`. -/
def insert (s : UnorderedSet κ) (k : κ) : UnorderedSet κ := s.emplace k ()

/-- A set that a key was put into has this key and those that it had before. -/
@[simp]
theorem contains_insert (s : UnorderedSet κ) (k k' : κ) :
    (s.insert k).Contains k' ↔ k' = k ∨ s.Contains k' := by
  unfold Contains insert
  cases hk : s.find k with
  | none =>
    rw [UnorderedMap.emplace_of_find_eq_none hk, UnorderedMap.find_assign]
    split_ifs with h <;> simp [h]
  | some u =>
    rw [UnorderedMap.emplace_of_find_eq_some hk]
    refine ⟨Or.inr, ?_⟩
    rintro (rfl | h)
    · simp [hk]
    · exact h

end UnorderedSet

end PrimeServer
