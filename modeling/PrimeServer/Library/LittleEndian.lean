import Mathlib.Data.Nat.Digits.Defs
import Mathlib.Tactic.Common

/-!
# Numbers in memory

The bytes of an unsigned number, the lowest first, and the number that bytes stand for.
-/

namespace LittleEndian

/-- The lowest bytes of a number. -/
def bytes : ℕ → ℕ → List UInt8
  | 0, _ => []
  | width + 1, n => .ofNat n :: bytes width (n / 256)

/-- The number that bytes stand for. -/
def value (s : List UInt8) : ℕ := Nat.ofDigits 256 (s.map UInt8.toNat)

/-- There are as many bytes as are asked for, whatever the number is. -/
@[simp]
theorem length_bytes (width n : ℕ) : (bytes width n).length = width := by
  induction width generalizing n with
  | zero => rfl
  | succ width ih => simp [bytes, ih]

@[simp]
theorem value_nil : value [] = 0 := rfl

/-- The first byte counts least. -/
@[simp]
theorem value_cons (b : UInt8) (s : List UInt8) : value (b :: s) = b.toNat + 256 * value s := by
  simp [value, Nat.ofDigits_cons]

/-- The value of two texts, one behind the other. -/
theorem value_append (s t : List UInt8) : value (s ++ t) = value s + 256 ^ s.length * value t := by
  simp [value, Nat.ofDigits_append]

/-- Reading as many bytes as were written gives what fits into them. -/
theorem value_bytes (width n : ℕ) : value (bytes width n) = n % 256 ^ width := by
  induction width generalizing n with
  | zero => simp [bytes, Nat.mod_one]
  | succ width ih =>
    rw [bytes, value_cons, ih, UInt8.toNat_ofNat', pow_succ' 256 width, Nat.mod_mul]

/-- A number that fits into its bytes is read back from them. -/
theorem value_bytes_of_lt {width n : ℕ} (h : n < 256 ^ width) : value (bytes width n) = n := by
  rw [value_bytes, Nat.mod_eq_of_lt h]

end LittleEndian
