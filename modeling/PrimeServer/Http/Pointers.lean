import PrimeServer.Http.Tokens

/-!
# Pointers

`consume_until` and the loop of `from_stream` with their two pointers, as the source has them: `cursor` and
`end` are positions in the message of the call, and whatever the source does with them and with unsigned
sizes is checked. `Fault` lists what could go wrong.

## Main results

* `HttpEntity.consumeUntilAt_eq`: `consume_until` does not go wrong, and does what it does on the bytes
  between its pointers;
* `Grammar.turnAt_eq`: nor does a turn of the loop.
-/

namespace PrimeServer

open Delimiter

/-- What the source does not check: each would be undefined behaviour, or a size that wraps around. -/
inductive Fault where
  /-- `end - current` behind `end`. -/
  | pastEnd
  /-- `*current` where the message has no byte. -/
  | wildRead
  /-- `*(delimiter + partial_length)` behind the NUL of the delimiter. -/
  | pastDelimiter
  /-- `partial_buffer.size() - (partial_length - length)` below zero. -/
  | underflow
  deriving DecidableEq

/-- The message of a call, and `cursor` and `end` as positions in it. -/
structure Pointers where
  /-- The bytes of the message. -/
  message : Bytes
  /-- Where `cursor` points to. -/
  cursor : ℕ
  /-- Where `end` points to. -/
  stop : ℕ
  deriving DecidableEq

namespace Pointers

/-- `cursor = start; end = start + length;` -/
def ofMessage (message : Bytes) : Pointers where
  message
  cursor := 0
  stop := message.length

/-- The bytes from one position up to another. -/
def slice (ptr : Pointers) (first last : ℕ) : Bytes := (ptr.message.drop first).take (last - first)

/-- The bytes between the pointers. -/
def remaining (ptr : Pointers) : Bytes := ptr.message.drop ptr.cursor

/-- `cursor` is not behind `end`, and `end` is the end of the message. -/
structure Valid (ptr : Pointers) : Prop where
  /-- `cursor` is in the message or one past it. -/
  cursor_le : ptr.cursor ≤ ptr.stop
  /-- `end` is one past the message. -/
  stop_eq : ptr.stop = ptr.message.length

/-- At the beginning of a call the cursor is in front of the message. -/
theorem valid_ofMessage (message : Bytes) : (ofMessage message).Valid := ⟨Nat.zero_le _, rfl⟩

@[simp]
theorem remaining_ofMessage (message : Bytes) : (ofMessage message).remaining = message := rfl

/-- The cursor and the bytes that remain make up the message. -/
theorem Valid.length_remaining {ptr : Pointers} (h : ptr.Valid) :
    ptr.cursor + ptr.remaining.length = ptr.stop := by
  rw [remaining, List.length_drop, ← h.stop_eq]
  exact Nat.add_sub_cancel' h.cursor_le

/-- The pointers when `rest` is left of the bytes between them. -/
def leaving (ptr : Pointers) (rest : Bytes) : Pointers := { ptr with cursor := ptr.stop - rest.length }

/-- Where less remains, the cursor has moved on, and still is inside the message. -/
theorem Valid.leaving {ptr : Pointers} (h : ptr.Valid) (rest : Bytes) : (ptr.leaving rest).Valid :=
  ⟨Nat.sub_le _ _, h.stop_eq⟩

/-- What was read is between the two positions of `cursor`. -/
theorem Valid.cursor_leaving {ptr : Pointers} (h : ptr.Valid) {read rest : Bytes}
    (hsplit : read ++ rest = ptr.remaining) :
    (ptr.leaving rest).cursor = ptr.cursor + read.length := by
  have hlength := h.length_remaining
  rw [← hsplit, List.length_append] at hlength
  change ptr.stop - rest.length = _
  omega

/-- What remains behind the cursor is what was left over. -/
theorem Valid.remaining_leaving {ptr : Pointers} (h : ptr.Valid) {read rest : Bytes}
    (hsplit : read ++ rest = ptr.remaining) : (ptr.leaving rest).remaining = rest := by
  have hdrop : (ptr.leaving rest).remaining = ptr.remaining.drop read.length := by
    rw [remaining, remaining, h.cursor_leaving hsplit, List.drop_drop]
    rfl
  rw [hdrop, ← hsplit]
  exact List.drop_left

end Pointers

/-- The bytes from `cursor` on that were read. -/
theorem Pointers.slice_eq_take {ptr : Pointers} {read rest : Bytes} (hsplit : read ++ rest = ptr.remaining)
    {n : ℕ} (hn : n ≤ read.length) : ptr.slice ptr.cursor (ptr.cursor + n) = read.take n := by
  rw [slice, Nat.add_sub_cancel_left]
  change ptr.remaining.take n = _
  rw [← hsplit, List.take_append_of_le_length hn]

namespace HttpEntity

/-- The first part of `consume_until`: where `current` is when enough bytes are consumed, and what is left of
`body_length`. -/
def skipAt (bodyLength : ℕ) (ptr : Pointers) : Except Fault (ℕ × ℕ) :=
  if bodyLength ≠ 0 then
    if ptr.stop < ptr.cursor then .error .pastEnd
    -- we have enough
    else if ptr.stop - ptr.cursor > bodyLength then .ok (ptr.cursor + bodyLength, 0)
    -- we dont
    else .ok (ptr.stop, bodyLength - (ptr.stop - ptr.cursor))
  else .ok (ptr.cursor, 0)

/-- The `while` loop of `consume_until`, with the memory from `current` on: whether the NUL of the delimiter was
reached, `partial_length` and `current`. -/
def seek (delimiter : Bytes) (stop : ℕ) (memory : Bytes) (partialLength current : ℕ) :
    Except Fault (Bool × ℕ × ℕ) :=
  match (delimiter ++ [0])[partialLength]? with
  | none => .error .pastDelimiter
  | some c =>
    if c = 0 ∨ current = stop then .ok (c = 0, partialLength, current)
    else
      match memory with
      | [] => .error .wildRead
      | b :: memory =>
        seek delimiter stop memory (if c ≠ b then 0 else partialLength + 1) (current + 1)

/-- `consume_until` with its pointers. -/
def consumeUntilAt (e : HttpEntity) (ptr : Pointers) : Except Fault (Bool × HttpEntity × Pointers) := do
  -- go until we consumed enough bytes
  let (current, bodyLength) ← skipAt e.bodyLength ptr
  -- go until delimiter
  let (found, partialLength, current) ←
    seek e.delimiter ptr.stop (ptr.message.drop current) e.partialLength current
  let length := current - ptr.cursor
  -- we found the delimiter
  if found ∧ bodyLength = 0 then
    let partialBuffer ←
      if length < partialLength then
        if e.partialBuffer.length < partialLength - length then .error .underflow
        else .ok (e.partialBuffer.take (e.partialBuffer.length - (partialLength - length)))
      else .ok (e.partialBuffer ++ ptr.slice ptr.cursor (current - partialLength))
    .ok (true,
      { e with
        partialBuffer
        partialLength := 0
        bodyLength
        consumed := (e.consumed + length) % 2 ^ 64 },
      { ptr with cursor := current })
  -- we ran out
  else
    .ok (false,
      { e with
        partialBuffer := e.partialBuffer ++ ptr.slice ptr.cursor current
        partialLength
        bodyLength },
      ptr)

/-- What `consume_until` relies on from call to call: no delimiter and none of it seen, or less than all of
it seen, and that much at the end of the buffer. -/
def Resumes (e : HttpEntity) : Prop :=
  e.delimiter = [] ∧ e.partialLength = 0 ∨
    e.partialLength < e.delimiter.length ∧ e.delimiter.take e.partialLength <:+ e.partialBuffer

instance (e : HttpEntity) : Decidable e.Resumes := by
  unfold Resumes
  infer_instance

/-- A search that can be resumed has matched no more than there is, neither of the delimiter nor of what was kept. -/
theorem Resumes.progress_le {e : HttpEntity} (h : e.Resumes) :
    e.partialLength ≤ e.delimiter.length ∧ e.partialLength ≤ e.partialBuffer.length := by
  rcases h with ⟨hd, hk⟩ | ⟨hlt, hsuffix⟩
  · simp [hk]
  · have hle := hsuffix.length_le
    rw [List.length_take_of_le (Nat.le_of_lt hlt)] at hle
    exact ⟨Nat.le_of_lt hlt, hle⟩

/-- Where nothing of the delimiter has been seen, nothing is asked of the buffer. -/
theorem resumes_of_progress {e : HttpEntity} (h : e.partialLength = 0) : e.Resumes := by
  by_cases hd : e.delimiter = []
  · exact Or.inl ⟨hd, h⟩
  · refine Or.inr ⟨h ▸ List.length_pos_iff.mpr hd, ?_⟩
    rw [h, List.take_zero]
    exact List.nil_suffix

/-- Skipping on pointers does not fault, and does what it does on the bytes. -/
theorem skipAt_eq {ptr : Pointers} (hptr : ptr.Valid) (bodyLength : ℕ) :
    skipAt bodyLength ptr =
      .ok (ptr.cursor + (skip bodyLength ptr.remaining).1, (skip bodyLength ptr.remaining).2) := by
  have hlength := hptr.length_remaining
  have hle : ¬ptr.stop < ptr.cursor := Nat.not_lt.mpr hptr.cursor_le
  have hsub : ptr.stop - ptr.cursor = ptr.remaining.length := by omega
  unfold skipAt skip
  rw [if_neg hle, hsub]
  split_ifs
  · rfl
  · rw [← hlength]
  · rfl

/-- The loop of `consume_until` is the search for the delimiter. -/
theorem seek_eq {delimiter : Bytes} (hnul : 0 ∉ delimiter) {stop partialLength current : ℕ} {memory : Bytes}
    (hprogress : partialLength ≤ delimiter.length) (hstop : current + memory.length = stop) :
    seek delimiter stop memory partialLength current =
      .ok (decide (delimiter.length ≤ (scan delimiter partialLength memory).progress),
        (scan delimiter partialLength memory).progress,
        current + (scan delimiter partialLength memory).read.length) := by
  induction memory generalizing partialLength current with
  | nil =>
    -- `current` is at `end`
    have hend : current = stop := hstop
    rw [scan_nil]
    rcases Nat.lt_or_ge partialLength delimiter.length with hlt | hge
    · rw [seek, List.getElem?_append_left hlt, List.getElem?_eq_getElem hlt]
      have hc : delimiter[partialLength] ≠ 0 := fun h => hnul (h ▸ List.getElem_mem hlt)
      simp only [hend, hc, or_true, if_true, decide_false, List.length_nil, Nat.add_zero]
      rw [decide_eq_false (Nat.not_le.mpr hlt)]
    · obtain rfl : partialLength = delimiter.length := Nat.le_antisymm hprogress hge
      rw [seek, List.getElem?_concat_length]
      simp
  | cons b memory ih =>
    rcases Nat.lt_or_ge partialLength delimiter.length with hlt | hge
    · have hc : delimiter[partialLength] ≠ 0 := fun h => hnul (h ▸ List.getElem_mem hlt)
      have hbefore : current ≠ stop := by
        rw [List.length_cons] at hstop
        omega
      have hadvance : (if delimiter[partialLength] ≠ b then 0 else partialLength + 1) =
          advance delimiter partialLength b := by
        simp [advance, hlt]
      rw [seek, List.getElem?_append_left hlt, List.getElem?_eq_getElem hlt]
      simp only [hc, hbefore, or_self, if_false, hadvance]
      rw [ih (advance_le hlt b) (by rw [List.length_cons] at hstop; omega), scan_cons hlt]
      simp [Nat.add_assoc, Nat.add_comm 1]
    · -- the NUL of the delimiter is reached
      obtain rfl : partialLength = delimiter.length := Nat.le_antisymm hprogress hge
      rw [seek, List.getElem?_concat_length, scan_of_length_le (Nat.le_refl _)]
      simp

/-- `consume_until` with its pointers does not go wrong, and it does what it does on the bytes between them.
Where the bytes ran out, `cursor` stays where it is. -/
theorem consumeUntilAt_eq {e : HttpEntity} {ptr : Pointers} (hnul : 0 ∉ e.delimiter) (he : e.Resumes)
    (hptr : ptr.Valid) :
    e.consumeUntilAt ptr =
      match e.consumeUntil ptr.remaining with
      | (true, t, rest) => .ok (true, t, ptr.leaving rest)
      | (false, t, _) => .ok (false, t, ptr) := by
  obtain ⟨hdelimiter, hbuffer⟩ := he.progress_le
  have hlength := hptr.length_remaining
  rw [consumeUntilAt, skipAt_eq hptr, consumeUntil]
  have hskip : (skip e.bodyLength ptr.remaining).1 ≤ ptr.remaining.length := by
    rw [skip_eq]
    exact Nat.min_le_right _ _
  generalize skip e.bodyLength ptr.remaining = skipping at hskip
  obtain ⟨skipped, bodyLength⟩ := skipping
  -- the search looks at the memory from `current` on
  have hmemory : ptr.message.drop (ptr.cursor + skipped) = ptr.remaining.drop skipped := by
    rw [Pointers.remaining, List.drop_drop]
  have hstop : ptr.cursor + skipped + (ptr.remaining.drop skipped).length = ptr.stop := by
    rw [List.length_drop]
    omega
  simp only [bind, Except.bind, hmemory, seek_eq hnul hdelimiter hstop]
  have hprogress := progress_scan_le_add e.delimiter e.partialLength (ptr.remaining.drop skipped)
  have hsearch := scan_read_append_rest e.delimiter e.partialLength (ptr.remaining.drop skipped)
  generalize scan e.delimiter e.partialLength (ptr.remaining.drop skipped) = search at hprogress hsearch
  -- what was skipped and what was searched is what was read
  have hsplit : ptr.remaining.take skipped ++ search.read ++ search.rest = ptr.remaining := by
    rw [List.append_assoc, hsearch, List.take_append_drop]
  have hread : skipped + search.read.length = (ptr.remaining.take skipped ++ search.read).length := by
    rw [List.length_append, List.length_take_of_le hskip]
  rw [Nat.add_assoc, hread, Nat.add_sub_cancel_left]
  generalize ptr.remaining.take skipped ++ search.read = read at hsplit hread
  have hcursor := hptr.cursor_leaving hsplit
  by_cases hfound : e.delimiter.length ≤ search.progress ∧ bodyLength = 0
  · have hfound' : decide (e.delimiter.length ≤ search.progress) = true ∧ bodyLength = 0 := by
      simpa using hfound
    rw [if_pos hfound', if_pos hfound]
    by_cases hshort : read.length < search.progress
    · -- the delimiter began in the buffer
      have hfits : ¬e.partialBuffer.length < search.progress - read.length := by omega
      rw [if_pos hshort, if_neg hfits, if_pos hshort, ← hcursor]
      rfl
    · have hcut : ptr.cursor + read.length - search.progress = ptr.cursor + (read.length - search.progress) := by
        omega
      rw [if_neg hshort, if_neg hshort, hcut, Pointers.slice_eq_take hsplit (Nat.sub_le _ _), ← hcursor]
      rfl
  · have hfound' : ¬(decide (e.delimiter.length ≤ search.progress) = true ∧ bodyLength = 0) := by
      simpa using hfound
    rw [if_neg hfound', if_neg hfound, Pointers.slice_eq_take hsplit (Nat.le_refl _), List.take_length]

-- half a line end that is not in the buffer cannot be cut off it
example : consumeUntilAt { HttpEntity.make [] .empty [] with delimiter := crlf, partialLength := 1 }
    (.ofMessage (ascii "\n")) = .error .underflow := by
  decide

end HttpEntity

section Loop

variable {φ μ ε : Type}

/-- `consume_until` on the entity of a parser, with its pointers. -/
def Parser.consumeUntilAt (p : Parser φ) (ptr : Pointers) : Except Fault (Bool × Parser φ × Pointers) := do
  let (found, e, ptr) ← p.toHttpEntity.consumeUntilAt ptr
  .ok (found, { p with toHttpEntity := e }, ptr)

/-- `consume_until` on pointers does not fault, and does what it does on the bytes. -/
theorem Parser.consumeUntilAt_eq {p : Parser φ} {ptr : Pointers} (hnul : 0 ∉ p.delimiter)
    (hp : p.Resumes) (hptr : ptr.Valid) :
    p.consumeUntilAt ptr =
      match p.consumeUntil ptr.remaining with
      | (true, q, rest) => .ok (true, q, ptr.leaving rest)
      | (false, q, _) => .ok (false, q, ptr) := by
  rw [consumeUntilAt, HttpEntity.consumeUntilAt_eq hnul hp hptr, consumeUntil]
  rcases p.toHttpEntity.consumeUntil ptr.remaining with ⟨found, t, rest⟩
  cases found <;> rfl

/-- One turn of the loop, with its pointers. -/
inductive TurnAt (φ μ ε : Type) where
  | returned (p : Parser φ)
  | threw (error : ε) (p : Parser φ)
  /-- The loop goes on. -/
  | again (emitted : Option μ) (p : Parser φ) (ptr : Pointers)

/-- The turn on the bytes between the pointers. -/
def TurnAt.toTurn : TurnAt φ μ ε → Turn φ μ ε
  | returned p => .stop (.returned [] p)
  | threw e p => .stop (.threw e p)
  | again emitted p ptr => .again emitted p ptr.remaining

namespace Grammar

variable {g : Grammar φ μ ε}

/-- One turn of the loop in `from_stream`, with its pointers. -/
def turnAt (g : Grammar φ μ ε) (p : Parser φ) (ptr : Pointers) : Except Fault (TurnAt φ μ ε) := do
  match g.oversized p with
  | some e => .ok (.threw e p)
  | none =>
    match ← p.consumeUntilAt ptr with
    | (false, p, _) =>
      match g.ranOut p with
      | some e => .ok (.threw e p)
      | none => .ok (.returned p)
    | (true, p, ptr) =>
      match g.token p with
      | .threw e p => .ok (.threw e p)
      | .next emitted p => .ok (.again emitted p.clearBuffer ptr)

/-- A turn does not go wrong, does what it does on the bytes between its pointers, and leaves the pointers
in order. -/
theorem turnAt_eq {p : Parser φ} {ptr : Pointers} (hnul : 0 ∉ p.delimiter) (hp : p.Resumes)
    (hptr : ptr.Valid) :
    ∃ t, g.turnAt p ptr = .ok t ∧ t.toTurn = g.turn p ptr.remaining ∧
      ∀ emitted q ptr', t = .again emitted q ptr' → ptr'.Valid := by
  cases ho : g.oversized p with
  | some e =>
    refine ⟨.threw e p, ?_, ?_, fun _ _ _ h => by cases h⟩
    · simp only [turnAt, ho]
    · rw [turn_of_oversized ho]
      rfl
  | none =>
    by_cases hc : p.Complete ptr.remaining
    · -- `cursor` moves to what the token leaves
      have hrest := hptr.remaining_leaving (skipScan_read_append_rest p.delimiter p.bodyLength p.partialLength _)
      rw [turn_of_complete ho hc]
      simp only [turnAt, ho, Parser.consumeUntilAt_eq hnul hp hptr, Parser.consumeUntil_of_complete hc, bind,
        Except.bind]
      cases g.token (p.completed ptr.remaining) with
      | threw e q => exact ⟨_, rfl, rfl, fun _ _ _ h => by cases h⟩
      | next emitted q =>
        refine ⟨_, rfl, ?_, ?_⟩
        · simp only [TurnAt.toTurn]
          rw [Parser.search, hrest]
        · rintro _ _ _ ⟨⟩
          exact hptr.leaving _
    · -- the loop is left, and `cursor` with it
      rw [turn_of_not_complete ho hc]
      simp only [turnAt, ho, Parser.consumeUntilAt_eq hnul hp hptr, Parser.consumeUntil_of_not_complete hc,
        bind, Except.bind]
      cases g.ranOut (p.suspended ptr.remaining) with
      | some e => exact ⟨_, rfl, rfl, fun _ _ _ h => by cases h⟩
      | none => exact ⟨_, rfl, rfl, fun _ _ _ h => by cases h⟩

end Grammar

end Loop

end PrimeServer
