import PrimeServer.Http.Request

/-!
# Percent-encoding

A percent-decoder, and the pair of functions `Curl.percent` that does what the documentation of
libcurl promises.
-/

namespace PrimeServer

/-- The value of a hexadecimal digit. -/
def hexValue (b : UInt8) : Option UInt8 :=
  if byte '0' ≤ b ∧ b ≤ byte '9' then some (b - byte '0')
  else if byte 'A' ≤ b ∧ b ≤ byte 'F' then some (b - byte 'A' + 10)
  else if byte 'a' ≤ b ∧ b ≤ byte 'f' then some (b - byte 'a' + 10)
  else none

/-- Undo a percent-encoding. What is no escape sequence stands for itself. -/
def percentDecode : Bytes → Bytes
  | [] => []
  | [b] => [b]
  | [b, c] => [b, c]
  | b :: c :: d :: rest =>
    match if b = byte '%' then hexValue c else none, hexValue d with
    | some high, some low => (16 * high + low) :: percentDecode rest
    | _, _ => b :: percentDecode (c :: d :: rest)

set_option maxRecDepth 4000 in
/-- The two digits of an escaped byte stand for the byte. -/
private theorem hexValue_hexDigit :
    ∀ b : UInt8, hexValue (hexDigit (b / 16)) = some (b / 16) ∧
      hexValue (hexDigit (b % 16)) = some (b % 16) ∧ 16 * (b / 16) + b % 16 = b :=
  forall_byte (by decide)

/-- The sign that begins an escape sequence is never written for itself. -/
private theorem ne_percent_of_isUnreserved {b : UInt8} (h : isUnreserved b) : b ≠ byte '%' := by
  rintro rfl
  exact absurd h (by decide)

/-- A byte that does not start an escape sequence stands for itself. -/
theorem percentDecode_cons {b : UInt8} (h : b ≠ byte '%') (rest : Bytes) :
    percentDecode (b :: rest) = b :: percentDecode rest := by
  match rest with
  | [] | [_] | _ :: _ :: _ => simp [percentDecode, h]

/-- An escaped byte is decoded as itself, whatever comes behind it. -/
theorem percentDecode_percentEncodeByte (b : UInt8) (rest : Bytes) :
    percentDecode (percentEncodeByte b ++ rest) = b :: percentDecode rest := by
  unfold percentEncodeByte
  split_ifs with h
  · exact percentDecode_cons (ne_percent_of_isUnreserved h) rest
  · obtain ⟨hhigh, hlow, hsum⟩ := hexValue_hexDigit b
    simp only [List.cons_append, List.nil_append, percentDecode, if_true, hhigh, hlow, hsum]

/-- Decoding undoes encoding. -/
theorem percentDecode_percentEncode (s : Bytes) : percentDecode (percentEncode s) = s := by
  induction s with
  | nil => rfl
  | cons b s ih =>
    change percentDecode (percentEncodeByte b ++ percentEncode s) = b :: s
    rw [percentDecode_percentEncodeByte, ih]

/-- Percent-encoding as a `Curl`. -/
def Curl.percent : Curl where
  escape s _ := some (percentEncode s)
  unescape s _ := some (percentDecode s)

/-- `percent` is a libcurl as it is documented, so that what is assumed of libcurl can be true. -/
theorem Curl.percent_documented : Curl.percent.Documented where
  escape _ _ _ := rfl
  unescape s _ _ := congrArg some (percentDecode_percentEncode s)

end PrimeServer
