import PrimeServer.Cpp.Bytes

/-!
# Numbers in text

`std::stoul` on a platform with a 64-bit `unsigned long`, and `std::to_string`.

`stoul` skips white space, takes an optional sign and, in base 16, an optional `0x`, reads as many
digits as there are and ignores the rest. It throws if there is no digit or if the number does not
fit. A minus sign is accepted: the number is negated modulo 2^64.

## Main results

* `stoul_decimal`: `stoul` reads back what `to_string` wrote;
* `stoul_of_spells`: it reads a number in hexadecimal digits, whatever comes after a semicolon;
* `stoul_ten_iff`: it reads a text of decimal digits as the number that they spell.
-/

namespace PrimeServer

/-- The exceptions of `std::stoul`. -/
inductive StoulError where
  | invalidArgument
  | outOfRange
  deriving DecidableEq

/-- The value of a byte as a digit of the base. -/
def digitValue (base : ℕ) (b : UInt8) : Option ℕ :=
  let value :=
    if byte '0' ≤ b && b ≤ byte '9' then some (b.toNat - 48)
    else if byte 'a' ≤ b && b ≤ byte 'z' then some (b.toNat - 87)
    else if byte 'A' ≤ b && b ≤ byte 'Z' then some (b.toNat - 55)
    else none
  value.filter (· < base)

/-- The digits a text starts with. -/
def leadingDigits (base : ℕ) : Bytes → List ℕ
  | [] => []
  | b :: bs =>
    match digitValue base b with
    | some d => d :: leadingDigits base bs
    | none => []

/-- A leading sign: whether it is a minus, and what follows. -/
def takeSign : Bytes → Bool × Bytes
  | [] => (false, [])
  | b :: bs => if b = byte '-' then (true, bs) else if b = byte '+' then (false, bs) else (false, b :: bs)

/-- A leading `0x`, which counts only if a digit follows. -/
def dropHexPrefix : Bytes → Bytes
  | b :: x :: d :: bs =>
    if b = byte '0' ∧ (x = byte 'x' ∨ x = byte 'X') ∧ (digitValue 16 d).isSome then d :: bs
    else b :: x :: d :: bs
  | s => s

/-- The number that digits stand for. -/
def ofDigits (base : ℕ) (digits : List ℕ) : ℕ :=
  digits.foldl (fun value d => base * value + d) 0

/-- The unsigned long made of a sign and digits. -/
def toUnsigned (base : ℕ) (negative : Bool) (digits : List ℕ) : Except StoulError ℕ :=
  if digits = [] then .error .invalidArgument
  else if 2 ^ 64 ≤ ofDigits base digits then .error .outOfRange
  else .ok (if negative then (2 ^ 64 - ofDigits base digits) % 2 ^ 64 else ofDigits base digits)

/-- `std::stoul`. -/
def stoul (base : ℕ) (s : Bytes) : Except StoulError ℕ :=
  let (negative, s) := takeSign (s.dropWhile isspace)
  toUnsigned base negative (leadingDigits base (if base = 16 then dropHexPrefix s else s))

/-- `std::to_string` of a `size_t`. -/
def decimal (n : ℕ) : Bytes := (Nat.toDigits 10 n).map byte

/-- Whatever `stoul` returns is an unsigned 64-bit number. -/
theorem stoul_lt {base n : ℕ} {s : Bytes} (h : stoul base s = .ok n) : n < 2 ^ 64 := by
  simp only [stoul, toUnsigned] at h
  generalize leadingDigits base _ = digits at h
  split_ifs at h with hnil hlarge hnegative
  · injection h with h
    omega
  · injection h with h
    omega

/-- The byte of a decimal digit has the value of the digit, and lies between `0` and `9`. -/
private theorem byte_digit {c : Char} (hc : c.isDigit) :
    digitValue 10 (byte c) = some (c.toNat - 48) ∧ 48 ≤ byte c ∧ byte c ≤ 57 := by
  have hrange : 48 ≤ c.toNat ∧ c.toNat ≤ 57 := by
    simpa [Char.isDigit, UInt32.le_iff_toNat_le] using hc
  have hbyte : (byte c).toNat = c.toNat := by
    simp only [byte, UInt8.toNat_ofNat']
    omega
  have hlo : (48 : UInt8) ≤ byte c := UInt8.le_iff_toNat_le.mpr (by simpa [hbyte] using hrange.1)
  have hhi : byte c ≤ 57 := UInt8.le_iff_toNat_le.mpr (by simpa [hbyte] using hrange.2)
  refine ⟨?_, hlo, hhi⟩
  have h0 : byte '0' = 48 := rfl
  have h9 : byte '9' = 57 := rfl
  simp only [digitValue, h0, h9, hlo, hhi, decide_true, Bool.and_self, if_true, hbyte]
  have hlt : c.toNat - 48 < 10 := by omega
  simp [Option.filter, hlt]

/-- The bytes of a decimal number are digits. -/
theorem mem_decimal {n : ℕ} {b : UInt8} (h : b ∈ decimal n) : 48 ≤ b ∧ b ≤ 57 := by
  obtain ⟨c, hc, rfl⟩ := List.mem_map.mp h
  exact (byte_digit (Nat.isDigit_of_mem_toDigits (by decide) (by decide) hc)).2

/-- Every character of a number that is written out is a digit, so that parsers which look for digits go on. -/
theorem isdigit_of_mem_decimal {n : ℕ} {c : UInt8} (h : c ∈ decimal n) : isdigit c := by
  have hc := mem_decimal h
  have hzero : byte '0' = 48 := by decide
  have hnine : byte '9' = 57 := by decide
  simp [isdigit, hzero, hnine, hc]

/-- Even zero is written with a digit, so that no length is ever written as an empty text. -/
theorem decimal_ne_nil (n : ℕ) : decimal n ≠ [] := by
  simp [decimal]

/-- A number of 64 bits has no more than twenty digits. -/
theorem length_decimal_le {n : ℕ} (h : n < 2 ^ 64) : (decimal n).length ≤ 20 := by
  rw [decimal, List.length_map]
  exact (Nat.length_toDigits_le_iff (by decide) (by decide)).mpr (h.trans (by decide))

/-- The digits of a text end where something else begins. -/
theorem leadingDigits_append {base : ℕ} {s rest : Bytes} {digits : List ℕ}
    (hs : s.map (digitValue base) = digits.map some) (hrest : leadingDigits base rest = []) :
    leadingDigits base (s ++ rest) = digits := by
  induction s generalizing digits with
  | nil =>
    obtain rfl : digits = [] := List.map_eq_nil_iff.mp hs.symm
    exact hrest
  | cons b s ih =>
    cases digits with
    | nil => simp at hs
    | cons d digits =>
      obtain ⟨hb, hs⟩ : digitValue base b = some d ∧ s.map (digitValue base) = digits.map some := by
        simpa using hs
      rw [List.cons_append, leadingDigits, hb]
      simp only
      rw [ih hs]

/-- A text of decimal digits is read to its end. -/
private theorem leadingDigits_map {cs : List Char} (hcs : ∀ c ∈ cs, c.isDigit) :
    leadingDigits 10 (cs.map byte) = cs.map fun c => c.toNat - 48 := by
  have hdigits : (cs.map byte).map (digitValue 10) = (cs.map fun c => c.toNat - 48).map some := by
    rw [List.map_map, List.map_map]
    exact List.map_congr_left fun c hc => (byte_digit (hcs c hc)).1
  have hnil : leadingDigits 10 [] = [] := rfl
  simpa using leadingDigits_append hdigits hnil

/-- All characters of a number that is written out are read as digits. -/
private theorem leadingDigits_decimal (n : ℕ) :
    leadingDigits 10 (decimal n) = (Nat.toDigits 10 n).map fun c => c.toNat - 48 :=
  leadingDigits_map fun _ hc => Nat.isDigit_of_mem_toDigits (by decide) (by decide) hc

/-- The value that `strtoul` adds up from the digits is the one that `Nat.ofDigitChars` adds up. -/
private theorem ofDigits_map (cs : List Char) :
    ofDigits 10 (cs.map fun c => c.toNat - 48) = Nat.ofDigitChars 10 cs 0 := by
  rw [ofDigits, List.foldl_map, Nat.ofDigitChars_eq_foldl]
  rfl

set_option maxRecDepth 4000 in
/-- A digit is neither a space nor a sign, so that `strtoul` skips nothing in front of it. -/
private theorem plain_of_digit : ∀ b : UInt8, 48 ≤ b ∧ b ≤ 57 →
    isspace b = false ∧ b ≠ byte '-' ∧ b ≠ byte '+' :=
  forall_byte (by decide)

/-- `stoul` reads back what `to_string` wrote. -/
theorem stoul_decimal {n : ℕ} (h : n < 2 ^ 64) : stoul 10 (decimal n) = .ok n := by
  obtain ⟨b, bs, hcons⟩ := List.exists_cons_of_ne_nil (decimal_ne_nil n)
  have hb : 48 ≤ b ∧ b ≤ 57 := mem_decimal (hcons ▸ List.mem_cons_self)
  have hplain := plain_of_digit b hb
  have hstart : takeSign ((decimal n).dropWhile isspace) = (false, decimal n) := by
    rw [hcons]
    simp [hplain.1, takeSign, hplain.2]
  have hvalue : ofDigits 10 (leadingDigits 10 (decimal n)) = n := by
    rw [leadingDigits_decimal, ofDigits_map, Nat.ofDigitChars_ten_toDigits]
  have hne : leadingDigits 10 (decimal n) ≠ [] := by
    simp [leadingDigits_decimal]
  have hfits : ¬ 2 ^ 64 ≤ n := Nat.not_le.mpr h
  simp only [stoul, hstart]
  change toUnsigned 10 false (leadingDigits 10 (decimal n)) = .ok n
  rw [toUnsigned, if_neg hne, hvalue, if_neg hfits]
  rfl

/-! ### Hexadecimal numbers -/

/-- The text is the number in digits of the base. -/
def Spells (base : ℕ) (s : Bytes) (n : ℕ) : Prop :=
  s ≠ [] ∧ ∃ digits, s.map (digitValue base) = digits.map some ∧ ofDigits base digits = n

/-- A text whose second character is no `x` has no prefix. -/
theorem dropHexPrefix_eq_self {s : Bytes} (h : ∀ x ∈ s[1]?, x ≠ byte 'x' ∧ x ≠ byte 'X') :
    dropHexPrefix s = s := by
  match s with
  | [] | [_] | [_, _] => rfl
  | b :: x :: d :: s =>
    have hx := h x rfl
    simp [dropHexPrefix, hx]

set_option maxRecDepth 4000 in
/-- The same for hexadecimal digits, which are not the `x` of a prefix `0x` either. -/
private theorem plain_of_hexDigit : ∀ b : UInt8, (digitValue 16 b).isSome →
    isspace b = false ∧ b ≠ byte '-' ∧ b ≠ byte '+' ∧ b ≠ byte 'x' ∧ b ≠ byte 'X' :=
  forall_byte (by decide)

/-- There are only digits in a number. -/
theorem isSome_of_spells {base n : ℕ} {s : Bytes} (h : Spells base s n) :
    ∀ b ∈ s, (digitValue base b).isSome := by
  obtain ⟨-, digits, hdigits, -⟩ := h
  intro b hb
  have hmem : digitValue base b ∈ digits.map some := hdigits ▸ List.mem_map_of_mem hb
  obtain ⟨d, -, hd⟩ := List.mem_map.mp hmem
  rw [← hd]
  rfl

/-- `stoul` reads a number in hexadecimal digits and ignores what comes after a semicolon. -/
theorem stoul_of_spells {s rest : Bytes} {n : ℕ} (h : Spells 16 s n) (hn : n < 2 ^ 64)
    (hrest : ∀ b ∈ rest.head?, b = byte ';') : stoul 16 (s ++ rest) = .ok n := by
  obtain ⟨hne, digits, hdigits, rfl⟩ := h
  have hplain := fun b hb => plain_of_hexDigit b (isSome_of_spells ⟨hne, digits, hdigits, rfl⟩ b hb)
  obtain ⟨b, t, rfl⟩ := List.exists_cons_of_ne_nil hne
  obtain ⟨⟨hspace, hminus, hplus, -⟩, ht⟩ := List.forall_mem_cons.mp hplain
  -- no space, sign or prefix stands in front of the digits
  have hstart : takeSign (((b :: t) ++ rest).dropWhile isspace) = (false, (b :: t) ++ rest) := by
    simp [hspace, takeSign, hminus, hplus]
  have hunprefixed : dropHexPrefix ((b :: t) ++ rest) = (b :: t) ++ rest := by
    refine dropHexPrefix_eq_self fun x hx => ?_
    cases t with
    | nil =>
      obtain rfl := hrest x (by rwa [List.head?_eq_getElem?])
      decide
    | cons c t =>
      obtain rfl : c = x := by simpa using hx
      exact (ht c List.mem_cons_self).2.2.2
  -- a semicolon is no digit
  have hend : leadingDigits 16 rest = [] := by
    cases rest with
    | nil => rfl
    | cons c rest =>
      obtain rfl := hrest c rfl
      rfl
  have hnonempty : digits ≠ [] := by
    rintro rfl
    simp at hdigits
  simp only [stoul, hstart, if_true]
  rw [hunprefixed, leadingDigits_append hdigits hend, toUnsigned, if_neg hnonempty,
    if_neg (Nat.not_le.mpr hn)]
  rfl

/-! ### Decimal numbers -/

set_option maxRecDepth 4000 in
/-- `isdigit` and `strtoul` agree on what a decimal digit is. -/
theorem isSome_digitValue_ten : ∀ b : UInt8, (digitValue 10 b).isSome = isdigit b :=
  forall_byte (by decide)

/-- A text of digits has a digit for each of its bytes. -/
theorem map_digitValue_ten {s : Bytes} (hs : ∀ b ∈ s, isdigit b) :
    s.map (digitValue 10) = (leadingDigits 10 s).map some := by
  induction s with
  | nil => rfl
  | cons b s ih =>
    obtain ⟨hb, hrest⟩ := List.forall_mem_cons.mp hs
    rw [← isSome_digitValue_ten] at hb
    obtain ⟨d, hd⟩ := Option.isSome_iff_exists.mp hb
    simp only [List.map_cons, leadingDigits, hd, ih hrest]

/-- A number is spelled in decimal digits. -/
theorem isdigit_of_spells {n : ℕ} {s : Bytes} (h : Spells 10 s n) : ∀ b ∈ s, isdigit b := by
  intro b hb
  rw [← isSome_digitValue_ten]
  exact isSome_of_spells h b hb

/-- A text of digits spells one number. -/
theorem spells_ten_iff {s : Bytes} (hs : ∀ b ∈ s, isdigit b) {n : ℕ} :
    Spells 10 s n ↔ s ≠ [] ∧ ofDigits 10 (leadingDigits 10 s) = n := by
  have hmap := map_digitValue_ten hs
  constructor
  · rintro ⟨hne, digits, hdigits, hvalue⟩
    obtain rfl : leadingDigits 10 s = digits :=
      List.map_injective_iff.mpr (fun _ _ => Option.some.inj) (hmap.symm.trans hdigits)
    exact ⟨hne, hvalue⟩
  · rintro ⟨hne, hvalue⟩
    exact ⟨hne, leadingDigits 10 s, hmap, hvalue⟩

/-- `stoul` reads a text of digits as the number that it spells, if that is small enough. -/
theorem stoul_ten_iff {s : Bytes} (hs : ∀ b ∈ s, isdigit b) {n : ℕ} :
    stoul 10 s = .ok n ↔ Spells 10 s n ∧ n < 2 ^ 64 := by
  rw [spells_ten_iff hs]
  cases s with
  | nil => simp [stoul, takeSign, leadingDigits, toUnsigned]
  | cons b s =>
    have hb : isdigit b := hs b List.mem_cons_self
    have hrange : 48 ≤ b ∧ b ≤ 57 := by
      simpa [isdigit, show byte '0' = 48 from rfl, show byte '9' = 57 from rfl] using hb
    -- neither white space nor a sign stands in front of the digits
    have hplain := plain_of_digit b hrange
    have hstart : takeSign ((b :: s).dropWhile isspace) = (false, b :: s) := by
      simp [hplain.1, takeSign, hplain.2]
    have hne : leadingDigits 10 (b :: s) ≠ [] := by
      intro hnil
      have hmap := map_digitValue_ten hs
      simp [hnil] at hmap
    have hread : stoul 10 (b :: s) = toUnsigned 10 false (leadingDigits 10 (b :: s)) := by
      simp only [stoul, hstart]
      rfl
    rw [hread, toUnsigned, if_neg hne]
    by_cases hlarge : 2 ^ 64 ≤ ofDigits 10 (leadingDigits 10 (b :: s))
    · -- `stoul` throws `out_of_range`
      rw [if_pos hlarge]
      refine iff_of_false nofun ?_
      rintro ⟨⟨-, rfl⟩, hn⟩
      omega
    · rw [if_neg hlarge]
      simp only [Bool.false_eq_true, if_false, Except.ok.injEq, ne_eq, reduceCtorEq, not_false_eq_true,
        true_and]
      constructor
      · rintro rfl
        exact ⟨rfl, by omega⟩
      · exact And.left

end PrimeServer
