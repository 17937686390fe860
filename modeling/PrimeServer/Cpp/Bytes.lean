import Mathlib.Algebra.Group.Nat.Defs
import Mathlib.Data.Int.Notation
import Mathlib.Data.List.Basic
import Mathlib.Data.List.TakeWhile
import Mathlib.Tactic.Common

/-!
# Byte strings

`std::string` and message frames as lists of bytes, with the parts of the C library that the
protocol code uses on them.
-/

namespace PrimeServer

/-- The contents of a `std::string` or of a message frame. -/
abbrev Bytes := List UInt8

instance : LawfulBEq Bytes := inferInstance

/-- The byte of a character of the source's string literals. -/
def byte (c : Char) : UInt8 := UInt8.ofNat c.toNat

/-- A string literal of the source. -/
def ascii (s : String) : Bytes := s.toList.map byte

/-- The line end of HTTP. -/
def crlf : Bytes := ascii "\r\n"

/-- `std::numeric_limits<size_t>::max()`. -/
def sizeMax : ℕ := 2 ^ 64 - 1

/-- `isspace` in the C locale. -/
def isspace (b : UInt8) : Bool :=
  b = byte ' ' || (9 ≤ b && b ≤ 13)

/-- `isdigit`. -/
def isdigit (b : UInt8) : Bool := byte '0' ≤ b && b ≤ byte '9'

/-- `tolower` in the C locale. -/
def tolower (b : UInt8) : UInt8 :=
  if byte 'A' ≤ b && b ≤ byte 'Z' then b + 32 else b

/-- What is left of a byte string that is read back through a `char*`: it ends at the first NUL. -/
def cString (s : Bytes) : Bytes := s.takeWhile (· ≠ 0)

/-- `static_cast<int>` of a `size_t`. -/
def toInt (n : ℕ) : ℤ := Int.bmod n (2 ^ 32)

/-- `std::string::find` of one character: what stands before and after its first occurrence. -/
def splitAt (c : UInt8) : Bytes → Option (Bytes × Bytes)
  | [] => none
  | b :: bs =>
    if b = c then some ([], bs) else (splitAt c bs).map fun (before, after) => (b :: before, after)

/-- `std::string::find` of a non-empty text: what stands before and after its first occurrence. -/
def splitAtSeparator (sep : Bytes) : Bytes → Option (Bytes × Bytes)
  | [] => none
  | b :: bs =>
    if sep.isPrefixOf (b :: bs) then some ([], (b :: bs).drop sep.length)
    else (splitAtSeparator sep bs).map fun (before, after) => (b :: before, after)

/-- Quantifiers over the bytes of a text are decided byte by byte. -/
instance (priority := high) {P : UInt8 → Prop} [DecidablePred P] (s : Bytes) :
    Decidable (∀ b ∈ s, P b) :=
  List.decidableBAll P s

/-- There are 256 bytes, so a decidable property of all of them can be evaluated. -/
theorem forall_byte {P : UInt8 → Prop} (h : ∀ n < 256, P (UInt8.ofNat n)) (b : UInt8) : P b := by
  have hb := h b.toNat b.toNat_lt
  rwa [UInt8.ofNat_toNat] at hb

/-- Without a NUL the whole text is the C string. -/
theorem cString_eq_self {s : Bytes} (h : 0 ∉ s) : cString s = s := by
  unfold cString
  rw [List.takeWhile_eq_self_iff]
  intro b hb
  have hne : b ≠ 0 := fun h0 => h (h0 ▸ hb)
  simpa using hne

/-- A C string ends before the first NUL. -/
theorem zero_not_mem_cString (s : Bytes) : 0 ∉ cString s := by
  intro h
  simpa using List.mem_takeWhile_imp h

/-- A length below `2^31` keeps its value when it is passed as an `int`. -/
theorem toInt_of_lt {n : ℕ} (h : n < 2 ^ 31) : toInt n = n := by
  unfold toInt
  rw [Int.bmod_eq_of_le] <;> omega

/-- There is no line end in the text. -/
def OneLine (text : Bytes) : Prop := byte '\r' ∉ text ∧ byte '\n' ∉ text

instance (text : Bytes) : Decidable (OneLine text) :=
  inferInstanceAs (Decidable (byte '\r' ∉ text ∧ byte '\n' ∉ text))

/-- A text is on one line if it has neither a carriage return nor a line feed in it. -/
theorem oneLine_iff {s : Bytes} : OneLine s ↔ ∀ b ∈ s, b ∉ crlf := by
  have hmem : ∀ b, b ∈ crlf ↔ b = byte '\r' ∨ b = byte '\n' := fun b => by simp [crlf, ascii]
  simp only [OneLine, hmem, not_or]
  constructor
  · rintro ⟨hr, hn⟩ b hb
    exact ⟨fun h => hr (h ▸ hb), fun h => hn (h ▸ hb)⟩
  · intro h
    exact ⟨fun hr => (h _ hr).1 rfl, fun hn => (h _ hn).2 rfl⟩

/-- Two texts on one line, one after the other, are on one line. -/
theorem OneLine.append {s t : Bytes} (hs : OneLine s) (ht : OneLine t) : OneLine (s ++ t) := by
  rw [oneLine_iff] at hs ht ⊢
  exact List.forall_mem_append.mpr ⟨hs, ht⟩

/-- The search fails exactly if the character is not there. -/
theorem splitAt_eq_none {c : UInt8} {s : Bytes} : splitAt c s = none ↔ c ∉ s := by
  induction s with
  | nil => simp [splitAt]
  | cons b bs ih =>
    by_cases hb : b = c
    · simp [splitAt, hb]
    · simp [splitAt, hb, ih, Ne.symm hb]

/-- The text is split at the first of the characters: there is none in what comes before. -/
theorem splitAt_append {c : UInt8} {before : Bytes} (h : c ∉ before) (after : Bytes) :
    splitAt c (before ++ c :: after) = some (before, after) := by
  induction before with
  | nil => simp [splitAt]
  | cons b bs ih =>
    have hb : b ≠ c := fun heq => h (heq ▸ List.mem_cons_self)
    simp [splitAt, hb, ih fun hc => h (List.mem_cons_of_mem _ hc)]

/-- What stands before the first occurrence of a character is determined by the text. -/
theorem before_unique {c : UInt8} {before before' after after' : Bytes} (h : c ∉ before)
    (h' : c ∉ before') (heq : before ++ c :: after = before' ++ c :: after') : before = before' := by
  have hsplit := splitAt_append h after
  rw [heq, splitAt_append h' after'] at hsplit
  exact (Prod.mk.inj (Option.some.inj hsplit)).1.symm

/-- What was split can be put together again, and the first part has no separator in it. -/
theorem eq_of_splitAt {c : UInt8} {s before after : Bytes} (h : splitAt c s = some (before, after)) :
    s = before ++ c :: after ∧ c ∉ before := by
  induction s generalizing before with
  | nil => simp [splitAt] at h
  | cons b bs ih =>
    by_cases hb : b = c
    · obtain ⟨rfl, rfl⟩ : [] = before ∧ bs = after := by simpa [splitAt, hb] using h
      simp [hb]
    · obtain ⟨before', hrest, rfl⟩ : ∃ x, splitAt c bs = some (x, after) ∧ b :: x = before := by
        simpa [splitAt, hb] using h
      obtain ⟨rfl, hc⟩ := ih hrest
      simp [hc, Ne.symm hb]

end PrimeServer
