import PrimeServer.Cpp.Stoul
import PrimeServer.Library.Automaton

/-!
# Netstrings

`netstring_entity_t`: the text of a netstring and the streaming parser. The parser has two variables
only. While `body_length` is zero, `body` holds the digits of a length, else it holds data.

## Main results

* `NetstringEntity.realizes`: a call of `from_stream` does what `byteStep` does on its bytes one after
  another.
-/

namespace PrimeServer

open Chunking

/-- `netstring_entity_t`. -/
structure NetstringEntity where
  /-- The bytes that were read since the last message. -/
  body : Bytes
  /-- The length of the body, once it was read. -/
  bodyLength : ℕ
  deriving DecidableEq

namespace NetstringEntity

/-- `netstring_entity_t()`. -/
def fresh : NetstringEntity where
  body := []
  bodyLength := 0

/-- `netstring_entity_t::to_string`. -/
def toString (body : Bytes) : Bytes := decimal body.length ++ ascii ":" ++ body ++ ascii ","

/-- `netstring_entity_t::request_exception_t`. -/
structure RequestException where
  /-- The text of the response that the client is sent. -/
  response : Bytes
  deriving DecidableEq

/-- The constructor of `request_exception_t`. -/
def RequestException.ofResponse (response : String) : RequestException where
  response := toString (ascii response)

/-- `BAD_LENGTH`. -/
def badLength : RequestException := .ofResponse "BAD_REQUEST: Non-numeric length"

/-- `TOO_LONG`. -/
def tooLong : RequestException := .ofResponse "BAD_REQUEST: Request exceeded maximum length"

/-- `BAD_BODY_SEPARATOR`. -/
def badBodySeparator : RequestException :=
  .ofResponse "BAD_REQUEST: Missing ':' between length and body"

/-- `BAD_MESSAGE_SEPARATOR`. -/
def badMessageSeparator : RequestException := .ofResponse "BAD_REQUEST: Missing ',' after body"

/-- `netstring_entity_t::flush_stream`. -/
def flushStream (p : NetstringEntity) : NetstringEntity := { p with body := [], bodyLength := 0 }

/-- `body_length - body.size()`, as `size_t`. -/
def remaining (p : NetstringEntity) : ℕ := (p.bodyLength + (2 ^ 64 - p.body.length % 2 ^ 64)) % 2 ^ 64

/-- One turn of the loop in `from_stream`. -/
inductive Turn where
  /-- The loop is left. -/
  | stop (result : Reading NetstringEntity NetstringEntity RequestException)
  /-- The loop goes on with the bytes from `start` on, of which `i` have been looked at. -/
  | again (request : Option NetstringEntity) (p : NetstringEntity) (start : Bytes) (i : ℕ)
  deriving DecidableEq

/-- A turn of the loop in `from_stream` at a byte `c` when a length is looked for. -/
def lengthTurn (maxSize : ℕ) (p : NetstringEntity) (start : Bytes) (i : ℕ) (c : UInt8) : Turn :=
  if isdigit c then
    -- next char
    .again none p start (i + 1)
  -- found the end of the length
  else if c = byte ':' then
    let p := { p with body := p.body ++ start.take i }
    match stoul 10 p.body with
    | .error _ => .stop (.threw badLength p)
    | .ok bodyLength =>
      let p := { p with bodyLength }
      if bodyLength > maxSize then .stop (.threw tooLong p)
      -- reset for body
      else .again none { p with body := [] } (start.drop (i + 1)) 0
  -- this isnt what we expect
  else if i > 0 then .stop (.threw badBodySeparator p)
  else .stop (.threw badLength p)

/-- A turn of the loop in `from_stream` when a body is looked for. -/
def bodyTurn (p : NetstringEntity) (start : Bytes) : Turn :=
  match start[p.remaining]? with
  | some c =>
    if c = byte ',' then
      -- make a new one
      .again (some { body := p.body ++ start.take p.remaining, bodyLength := 0 }) p.flushStream
        (start.drop (p.remaining + 1)) 0
    -- this isnt what we expect
    else .stop (.threw badMessageSeparator p)
  -- the body didnt fit in what we had, so we are done for now and need more data
  | none => .stop (.returned [] { p with body := p.body ++ start })

/-- One turn of the loop in `from_stream`, or what follows the loop. -/
def turn (maxSize : ℕ) (p : NetstringEntity) (start : Bytes) (i : ℕ) : Turn :=
  match start[i]? with
  | some c => if p.bodyLength = 0 then lengthTurn maxSize p start i c else bodyTurn p start
  -- whatever is left we want to keep, it could be nothing
  | none => .stop (.returned [] { p with body := p.body ++ start })

/-- The loop of `from_stream`, for at most `fuel` turns. -/
def loop (maxSize : ℕ) :
    ℕ → NetstringEntity → Bytes → ℕ → Reading NetstringEntity NetstringEntity RequestException
  | 0, _, _, _ => .diverged
  | fuel + 1, p, start, i =>
    match turn maxSize p start i with
    | .stop result => result
    | .again request p start i => (loop maxSize fuel p start i).prepend request.toList

/-- `netstring_entity_t::from_stream`. Every turn but the last looks at one more byte at least. -/
def fromStream (maxSize : ℕ) (p : NetstringEntity) (start : Bytes) :
    Reading NetstringEntity NetstringEntity RequestException :=
  loop maxSize (start.length + 1) p start 0

/-- What `netstring_entity_t::from_string` throws. -/
inductive Error where
  | request (e : RequestException)
  /-- `std::runtime_error`. -/
  | runtimeError (what : String)
  deriving DecidableEq

/-- `netstring_entity_t::from_string`. The outer `none` stands for a loop that does not end. -/
def fromString (start : Bytes) : Option (Except Error NetstringEntity) :=
  match fromStream sizeMax fresh start with
  | .returned [] _ => some (.error (.runtimeError "Incomplete netstring request"))
  | .returned (request :: _) _ => some (.ok request)
  | .threw e _ => some (.error (.request e))
  | .diverged => none

example : fromStream sizeMax fresh (ascii "5:hello,3:a,b,1") =
    .returned [⟨ascii "hello", 0⟩, ⟨ascii "a,b", 0⟩] ⟨ascii "1", 0⟩ := by decide

/-! ### Byte by byte -/

/-- What one byte does to the parser. -/
def byteStep (maxSize : ℕ) (p : NetstringEntity) (c : UInt8) :
    Option (NetstringEntity × Option NetstringEntity) :=
  if p.bodyLength = 0 then
    if isdigit c then some ({ p with body := p.body ++ [c] }, none)
    else if c = byte ':' then
      match stoul 10 p.body with
      | .error _ => none
      | .ok bodyLength => if bodyLength > maxSize then none else some ({ body := [], bodyLength }, none)
    else none
  else if p.body.length < p.bodyLength then some ({ p with body := p.body ++ [c] }, none)
  else if c = byte ',' then some (fresh, some { body := p.body, bodyLength := 0 })
  else none

/-- The body does not get longer than it was announced. -/
def Fits (p : NetstringEntity) : Prop :=
  p.bodyLength < 2 ^ 64 ∧ (p.bodyLength ≠ 0 → p.body.length ≤ p.bodyLength)

/-- An empty entity has nothing in it that could be too long. -/
theorem fits_fresh : fresh.Fits := by
  simp [Fits, fresh]

variable {maxSize : ℕ} {p q : NetstringEntity}

/-- An entity stays in order with each byte. -/
theorem Fits.byteStep (hp : p.Fits) {c : UInt8} {request : Option NetstringEntity}
    (h : byteStep maxSize p c = some (q, request)) : q.Fits := by
  unfold NetstringEntity.byteStep at h
  split_ifs at h with hlength hdigit hcolon hroom hcomma
  · obtain ⟨rfl, -⟩ : { p with body := p.body ++ [c] } = q ∧ none = request := by simpa using h
    exact ⟨hp.1, fun hne => absurd hlength hne⟩
  · cases hn : stoul 10 p.body with
    | error e => simp [hn] at h
    | ok n =>
      simp only [hn, Option.ite_none_left_eq_some, Option.some.injEq, Prod.mk.injEq] at h
      obtain ⟨-, rfl, -⟩ := h
      exact ⟨stoul_lt hn, fun _ => Nat.zero_le _⟩
  · obtain ⟨rfl, -⟩ : { p with body := p.body ++ [c] } = q ∧ none = request := by simpa using h
    refine ⟨hp.1, fun _ => ?_⟩
    rw [List.length_append]
    exact hroom
  · obtain ⟨rfl, -⟩ : fresh = q ∧ _ = request := by simpa using h
    exact fits_fresh

/-- The subtraction does not wrap. -/
theorem Fits.remaining_eq (hp : p.Fits) (hlength : p.bodyLength ≠ 0) :
    p.remaining = p.bodyLength - p.body.length := by
  have hlt := hp.1
  have hle := hp.2 hlength
  unfold remaining
  omega

/-- What is sent back when a byte is refused, if it does not begin a message. -/
def refusal (p : NetstringEntity) (c : UInt8) : RequestException :=
  if p.bodyLength = 0 then
    if c = byte ':' then
      match stoul 10 p.body with
      | .error _ => badLength
      | .ok _ => tooLong
    else if p.body ≠ [] then badBodySeparator
    else badLength
  else badMessageSeparator

/-- A message begins with a byte that can neither go on with a length nor end it, and the digits of the
length came with the messages before. -/
def Severed (p : NetstringEntity) (start : Bytes) : Prop :=
  p.bodyLength = 0 ∧ p.body ≠ [] ∧ ∃ c ∈ start.head?, ¬isdigit c ∧ c ≠ byte ':'

instance (p : NetstringEntity) (start : Bytes) : Decidable (p.Severed start) :=
  inferInstanceAs (Decidable (_ ∧ _ ∧ ∃ c ∈ start.head?, _))

open Automaton

variable (maxSize)

/-- Digits are gathered. -/
theorem run_byteStep_digits (hlength : p.bodyLength = 0) {digits : Bytes}
    (hdigits : ∀ c ∈ digits, isdigit c) :
    run (NetstringEntity.byteStep maxSize) p digits = some ({ p with body := p.body ++ digits }, []) := by
  induction digits generalizing p with
  | nil => simp
  | cons c digits ih =>
    obtain ⟨hc, hrest⟩ := List.forall_mem_cons.mp hdigits
    have hstep : NetstringEntity.byteStep maxSize p c =
        some ({ p with body := p.body ++ [c] }, none) := by
      rw [NetstringEntity.byteStep, if_pos hlength, if_pos hc]
    rw [run_cons_of_step hstep, ih (p := { p with body := p.body ++ [c] }) hlength hrest]
    simp

/-- Data is gathered as long as it fits. -/
theorem run_byteStep_data (hlength : p.bodyLength ≠ 0) {data : Bytes}
    (hdata : p.body.length + data.length ≤ p.bodyLength) :
    run (NetstringEntity.byteStep maxSize) p data = some ({ p with body := p.body ++ data }, []) := by
  induction data generalizing p with
  | nil => simp
  | cons c data ih =>
    rw [List.length_cons] at hdata
    have hstep : NetstringEntity.byteStep maxSize p c =
        some ({ p with body := p.body ++ [c] }, none) := by
      rw [NetstringEntity.byteStep, if_neg hlength, if_pos (by omega)]
    have hrest : (p.body ++ [c]).length + data.length ≤ p.bodyLength := by
      simp only [List.length_append, List.length_singleton]
      omega
    rw [run_cons_of_step hstep, ih (p := { p with body := p.body ++ [c] }) hlength hrest]
    simp

/-- The parser when the digits that were looked at are taken. -/
def taken (p : NetstringEntity) (start : Bytes) (i : ℕ) : NetstringEntity :=
  { p with body := p.body ++ start.take i }

/-- What is left to do at the top of the loop: the digits that were looked at are as good as taken. -/
def ahead (maxSize : ℕ) (p : NetstringEntity) (start : Bytes) (i : ℕ) :
    Option (NetstringEntity × List NetstringEntity) :=
  run (NetstringEntity.byteStep maxSize) { p with body := p.body ++ start.take i } (start.drop i)

/-- Only the digits of a length have been looked at. -/
def Looked (p : NetstringEntity) (start : Bytes) (i : ℕ) : Prop :=
  i = 0 ∨ p.bodyLength = 0 ∧ ∀ c ∈ start.take i, isdigit c

/-- What a turn does, in terms of the bytes it takes. -/
inductive Turns (maxSize : ℕ) (p : NetstringEntity) (start : Bytes) (i : ℕ) : Turn → Prop
  /-- The message ends inside a netstring. -/
  | kept {q : NetstringEntity}
      (hrun : run (NetstringEntity.byteStep maxSize) (p.taken start i) (start.drop i) = some (q, [])) :
      Turns maxSize p start i (.stop (.returned [] q))
  /-- The length is read, or the body is, and the loop goes on after it. -/
  | took {request : Option NetstringEntity} {q : NetstringEntity} {start' xs : Bytes} {i' : ℕ}
      (hfits : q.Fits) (hlooked : q.Looked start' i') (hless : start'.length - i' < start.length - i)
      (hunsevered : ¬(i = 0 ∧ p.Severed start) ∧ ¬(i' = 0 ∧ q.Severed start'))
      (hsplit : start.drop i = xs ++ start'.drop i')
      (hrun : run (NetstringEntity.byteStep maxSize) (p.taken start i) xs =
        some (q.taken start' i', request.toList)) :
      Turns maxSize p start i (.again request q start' i')
  /-- A byte does not belong here, and the call throws. -/
  | refused {q t : NetstringEntity} {c : UInt8} {xs rest : Bytes} (hsplit : start.drop i = xs ++ c :: rest)
      (hrun : run (NetstringEntity.byteStep maxSize) (p.taken start i) xs = some (t, []))
      (hrefused : NetstringEntity.byteStep maxSize t c = none) :
      Turns maxSize p start i
        (.stop (.threw (if i = 0 ∧ p.Severed start then badLength else refusal t c) q))

/-- A turn does its part of what is to be done, and leaves fewer bytes. -/
def Turn.Meets (maxSize left : ℕ) (task : Option (NetstringEntity × List NetstringEntity)) :
    Turn → Prop
  | .stop result => Matches result task
  | .again request q start i =>
    q.Fits ∧ q.Looked start i ∧ start.length - i < left ∧
      task = (ahead maxSize q start i).map fun (t, ms) => (t, request.toList ++ ms)

section Turn

variable {start : Bytes} {i : ℕ} {c : UInt8}

/-- What is left of a message from a byte on begins with this byte. -/
theorem drop_of_getElem? (hc : start[i]? = some c) : start.drop i = c :: start.drop (i + 1) := by
  obtain ⟨hlt, hget⟩ := List.getElem?_eq_some_iff.mp hc
  rw [List.drop_eq_getElem_cons hlt, hget]

/-- At a digit, a length that was begun before goes on. -/
theorem not_severed_of_isdigit (hc : start[i]? = some c) (hdigit : isdigit c) :
    ¬(i = 0 ∧ p.Severed start) := by
  rintro ⟨rfl, -, -, d, hd, hnot, -⟩
  rw [List.head?_eq_getElem?, hc] at hd
  obtain rfl : c = d := by simpa using hd
  exact hnot hdigit

/-- A colon ends a length that was begun before. -/
theorem not_severed_of_colon (hc : start[i]? = some (byte ':')) : ¬(i = 0 ∧ p.Severed start) := by
  rintro ⟨rfl, -, -, d, hd, -, hnot⟩
  rw [List.head?_eq_getElem?, hc] at hd
  obtain rfl : byte ':' = d := by simpa using hd
  exact hnot rfl

/-- Without a body no length was begun. -/
theorem not_severed_of_body_eq_nil (hbody : p.body = []) : ¬(i = 0 ∧ p.Severed start) :=
  fun h => h.2.2.1 hbody

/-- The byte at hand is refused. -/
theorem refused_head (q : NetstringEntity) {rest : Bytes} (hsplit : start.drop i = c :: rest)
    (hrefused : NetstringEntity.byteStep maxSize (p.taken start i) c = none) :
    Turns maxSize p start i
      (.stop (.threw (if i = 0 ∧ p.Severed start then badLength else refusal (p.taken start i) c) q)) :=
  .refused (show start.drop i = [] ++ c :: rest from hsplit) rfl hrefused

/-- A digit of a length is looked at, and not taken yet. -/
theorem lengthTurn_turns_of_isdigit (hp : p.Fits) (hlength : p.bodyLength = 0)
    (hlooked : p.Looked start i) (hc : start[i]? = some c) (hdigit : isdigit c) :
    Turns maxSize p start i (lengthTurn maxSize p start i c) := by
  obtain ⟨hlt, -⟩ := List.getElem?_eq_some_iff.mp hc
  have htake : start.take (i + 1) = start.take i ++ [c] := by
    rw [List.take_add_one, hc, Option.toList_some]
  have hlength' : (p.taken start i).bodyLength = 0 := hlength
  have hstep : NetstringEntity.byteStep maxSize (p.taken start i) c =
      some (p.taken start (i + 1), none) := by
    rw [NetstringEntity.byteStep, if_pos hlength', if_pos hdigit]
    simp only [taken, htake, List.append_assoc]
  -- all that was looked at so far are digits
  have hlooked' : p.Looked start (i + 1) := by
    refine Or.inr ⟨hlength, ?_⟩
    rw [htake]
    intro d hd
    rcases List.mem_append.mp hd with hd | hd
    · rcases hlooked with rfl | hdigits
      · simp at hd
      · exact hdigits.2 d hd
    · rwa [List.mem_singleton.mp hd]
  rw [lengthTurn, if_pos hdigit]
  refine .took hp hlooked' (by omega) ⟨not_severed_of_isdigit hc hdigit, by simp⟩
    (show start.drop i = [c] ++ start.drop (i + 1) from drop_of_getElem? hc) ?_
  rw [run_cons_of_step hstep]
  rfl

/-- The length ends. -/
theorem lengthTurn_turns_of_colon (hlength : p.bodyLength = 0) (hc : start[i]? = some c)
    (hdigit : ¬isdigit c) (hcolon : c = byte ':') :
    Turns maxSize p start i (lengthTurn maxSize p start i c) := by
  obtain ⟨hlt, -⟩ := List.getElem?_eq_some_iff.mp hc
  have hsplit := drop_of_getElem? hc
  have hlength' : (p.taken start i).bodyLength = 0 := hlength
  have hbyte : NetstringEntity.byteStep maxSize (p.taken start i) c =
      match stoul 10 (p.body ++ start.take i) with
      | .error _ => none
      | .ok n => if n > maxSize then none else some ({ body := [], bodyLength := n }, none) := by
    rw [NetstringEntity.byteStep, if_pos hlength', if_neg hdigit, if_pos hcolon]
    rfl
  -- the early check does not look at a message with a colon in it
  have hunsevered : ¬(i = 0 ∧ p.Severed start) := not_severed_of_colon (hcolon ▸ hc)
  have hrefusal : refusal (p.taken start i) c =
      match stoul 10 (p.body ++ start.take i) with
      | .error _ => badLength
      | .ok _ => tooLong := by
    rw [refusal, if_pos hlength', if_pos hcolon]
    rfl
  rw [lengthTurn, if_neg hdigit, if_pos hcolon]
  cases hn : stoul 10 (p.body ++ start.take i) with
  | error e =>
    simp only [hn] at hbyte hrefusal ⊢
    -- the digits are no number
    have hturns := refused_head maxSize { p with body := p.body ++ start.take i } hsplit hbyte
    rwa [if_neg hunsevered, hrefusal] at hturns
  | ok n =>
    simp only [hn] at hbyte hrefusal ⊢
    split_ifs at hbyte ⊢ with hlarge
    · -- the length is over the limit
      have hturns := refused_head maxSize { body := p.body ++ start.take i, bodyLength := n } hsplit hbyte
      rwa [if_neg hunsevered, hrefusal] at hturns
    · refine .took ⟨stoul_lt hn, fun _ => Nat.zero_le _⟩ (Or.inl rfl) ?_
        ⟨hunsevered, not_severed_of_body_eq_nil rfl⟩
        (show start.drop i = [c] ++ start.drop (i + 1) from hsplit) ?_
      · rw [List.length_drop]
        omega
      · rw [run_cons_of_step hbyte]
        rfl

/-- The byte is none that can stand in a length. -/
theorem lengthTurn_turns_of_refused (hlength : p.bodyLength = 0) (hc : start[i]? = some c)
    (hdigit : ¬isdigit c) (hcolon : c ≠ byte ':') :
    Turns maxSize p start i (lengthTurn maxSize p start i c) := by
  obtain ⟨hlt, -⟩ := List.getElem?_eq_some_iff.mp hc
  have hlength' : (p.taken start i).bodyLength = 0 := hlength
  have hrefused : NetstringEntity.byteStep maxSize (p.taken start i) c = none := by
    rw [NetstringEntity.byteStep, if_pos hlength', if_neg hdigit, if_neg hcolon]
  have hturns := refused_head maxSize p (drop_of_getElem? hc) hrefused
  have hrefusal : refusal (p.taken start i) c =
      if p.body ++ start.take i ≠ [] then badBodySeparator else badLength := by
    simp only [refusal, taken, hlength, if_true, if_neg hcolon]
  rw [hrefusal] at hturns
  rw [lengthTurn, if_neg hdigit, if_neg hcolon]
  by_cases hpos : i > 0
  · have hne : p.body ++ start.take i ≠ [] := by
      have htake : start.take i ≠ [] := List.ne_nil_of_length_pos (by rw [List.length_take]; omega)
      simp [htake]
    rw [if_neg fun h => absurd h.1 (by omega), if_pos hne] at hturns
    rwa [if_pos hpos]
  · -- at the beginning of a message the digits that came before it are forgotten
    obtain rfl : i = 0 := by omega
    rw [if_neg hpos]
    by_cases hbody : p.body = []
    · have hnil : ¬p.body ++ start.take 0 ≠ [] := by simp [hbody]
      rwa [if_neg (not_severed_of_body_eq_nil hbody), if_neg hnil] at hturns
    · have hsevered : p.Severed start := by
        refine ⟨hlength, hbody, c, ?_, hdigit, hcolon⟩
        rw [List.head?_eq_getElem?, hc]
        rfl
      rwa [if_pos ⟨rfl, hsevered⟩] at hturns

/-- Where the length is read, a turn of the loop does what its digits and colon say. -/
theorem lengthTurn_turns (hp : p.Fits) (hlength : p.bodyLength = 0) (hlooked : p.Looked start i)
    (hc : start[i]? = some c) : Turns maxSize p start i (lengthTurn maxSize p start i c) := by
  by_cases hdigit : isdigit c
  · exact lengthTurn_turns_of_isdigit maxSize hp hlength hlooked hc hdigit
  · by_cases hcolon : c = byte ':'
    · exact lengthTurn_turns_of_colon maxSize hlength hc hdigit hcolon
    · exact lengthTurn_turns_of_refused maxSize hlength hc hdigit hcolon

/-- Where the body is read, a turn of the loop takes it as far as it has come. -/
theorem bodyTurn_turns (hp : p.Fits) (hlength : p.bodyLength ≠ 0) :
    Turns maxSize p start 0 (bodyTurn p start) := by
  have hremaining := hp.remaining_eq hlength
  have hle := hp.2 hlength
  have htaken : p.taken start 0 = p := by simp [taken]
  have hunsevered : ¬(0 = 0 ∧ p.Severed start) := fun h => hlength h.2.1
  rw [bodyTurn]
  cases hc : start[p.remaining]? with
  | none =>
    -- the bytes that are there are data
    have hdata := List.getElem?_eq_none_iff.mp hc
    refine .kept ?_
    rw [htaken]
    exact run_byteStep_data maxSize hlength (by rw [List.drop_zero]; omega)
  | some c =>
    obtain ⟨hlt, hget⟩ := List.getElem?_eq_some_iff.mp hc
    -- the rest of the body, the byte after it, and what comes later
    have hsplit : start.drop 0 = start.take p.remaining ++ c :: start.drop (p.remaining + 1) := by
      rw [← hget, ← List.drop_eq_getElem_cons hlt, List.take_append_drop, List.drop_zero]
    have htake : (start.take p.remaining).length = p.remaining := List.length_take_of_le hlt.le
    have hdata : run (NetstringEntity.byteStep maxSize) (p.taken start 0) (start.take p.remaining) =
        some ({ p with body := p.body ++ start.take p.remaining }, []) := by
      rw [htaken]
      exact run_byteStep_data maxSize hlength (by omega)
    -- the body is full, so that the next byte has to be the comma
    have hfull : ¬(p.body ++ start.take p.remaining).length < p.bodyLength := by
      rw [List.length_append]
      omega
    by_cases hcomma : c = byte ','
    · have hstep : NetstringEntity.byteStep maxSize
          { p with body := p.body ++ start.take p.remaining } c =
            some (fresh, some { body := p.body ++ start.take p.remaining, bodyLength := 0 }) := by
        rw [NetstringEntity.byteStep, if_neg hlength, if_neg hfull, if_pos hcomma]
      simp only [if_pos hcomma]
      have hsplit' : start.drop 0 =
          (start.take p.remaining ++ [c]) ++ (start.drop (p.remaining + 1)).drop 0 := by
        simpa using hsplit
      refine .took fits_fresh (Or.inl rfl) ?_ ⟨hunsevered, not_severed_of_body_eq_nil rfl⟩ hsplit' ?_
      · rw [List.length_drop]
        omega
      · rw [run_append_of_run hdata, run_cons_of_step hstep]
        rfl
    · have hrefused : NetstringEntity.byteStep maxSize
          { p with body := p.body ++ start.take p.remaining } c = none := by
        rw [NetstringEntity.byteStep, if_neg hlength, if_neg hfull, if_neg hcomma]
      have hturns := Turns.refused (q := p) hsplit hdata hrefused
      have hrefusal : refusal { p with body := p.body ++ start.take p.remaining } c =
          badMessageSeparator := if_neg hlength
      rw [if_neg hunsevered, hrefusal] at hturns
      simpa only [if_neg hcomma] using hturns

/-- Each turn of the loop is one of those that `Turns` lists. -/
theorem turn_turns (hp : p.Fits) (hlooked : p.Looked start i) :
    Turns maxSize p start i (turn maxSize p start i) := by
  unfold turn
  cases hc : start[i]? with
  | none =>
    -- all bytes have been looked at, and are kept for the next call
    have hle : start.length ≤ i := List.getElem?_eq_none_iff.mp hc
    refine .kept ?_
    rw [List.drop_eq_nil_of_le hle, taken, List.take_of_length_le hle]
    rfl
  | some c =>
    by_cases hlength : p.bodyLength = 0
    · simp only [if_pos hlength]
      exact lengthTurn_turns maxSize hp hlength hlooked hc
    · simp only [if_neg hlength]
      -- nothing has been looked at in advance, since only digits are
      obtain rfl : i = 0 := hlooked.resolve_right fun h => hlength h.1
      exact bodyTurn_turns maxSize hp hlength

/-- What a turn of the loop does is what the automaton does with the bytes that the turn reads. -/
theorem turn_meets (hp : p.Fits) (hlooked : p.Looked start i) :
    (turn maxSize p start i).Meets maxSize (start.length - i) (ahead maxSize p start i) := by
  have hahead : ahead maxSize p start i =
      run (NetstringEntity.byteStep maxSize) (p.taken start i) (start.drop i) := rfl
  have hturns := turn_turns maxSize hp hlooked
  rw [hahead]
  generalize turn maxSize p start i = t at hturns
  cases hturns with
  | kept hrun =>
    rw [hrun]
    rfl
  | took hfits hlooked hless _ hsplit hrun =>
    refine ⟨hfits, hlooked, hless, ?_⟩
    rw [hsplit, run_append_of_run hrun]
    rfl
  | refused hsplit hrun hrefused =>
    rw [hsplit, run_append_of_run hrun, run_cons_of_refused hrefused]
    exact ⟨_, _, rfl⟩

end Turn

/-- The loop does what is left to do. -/
theorem matches_loop {fuel : ℕ} (hp : p.Fits) {start : Bytes} {i : ℕ} (hlooked : p.Looked start i)
    (hfuel : start.length - i < fuel) :
    Matches (loop maxSize fuel p start i) (ahead maxSize p start i) := by
  induction fuel generalizing p start i with
  | zero => omega
  | succ fuel ih =>
    have hmeets := turn_meets maxSize hp hlooked
    rw [loop]
    cases hturn : turn maxSize p start i with
    | stop result =>
      rw [hturn] at hmeets
      exact hmeets
    | again request q start' i' =>
      rw [hturn] at hmeets
      obtain ⟨hq, hlooked', hless, htask⟩ := hmeets
      rw [htask]
      exact (ih hq hlooked' (by omega)).prepend _

/-- A call of `from_stream` takes its bytes one after another. -/
theorem realizes (maxSize : ℕ) : Realizes (fromStream maxSize) (NetstringEntity.byteStep maxSize) Fits where
  inv_step hp h := hp.byteStep h
  reads {p} start hp := by
    have hloop : Matches (fromStream maxSize p start) (ahead maxSize p start 0) :=
      matches_loop maxSize hp (Or.inl rfl) (Nat.lt_succ_self _)
    simpa [ahead] using hloop

end NetstringEntity

end PrimeServer
