import PrimeServer.Http.Passes
import PrimeServer.Http.Response
import PrimeServer.Http.Scanner

/-!
# Where responses end

The scanner of the client and the response parser look for the ends of responses independently. The
scanner takes the first blank line for the end of the head, and looks for the length of the body after
the first text `\r\nContent-Length: ` in front of it. The parser compares header names without regard
to case, reads numbers in more than one spelling, and knows bodies in chunks.

## Main results

* `HttpClient.splits_iff`: the client hands over what the parser reads exactly if each response ends
  where its first blank line and the length in front of it say.
-/

namespace PrimeServer

open Automaton Chunking Delimiter

/-! ### What the parser reads its messages from -/

namespace Grammar

variable {φ μ ε : Type} (g : Grammar φ μ ε)

/-- The bytes that the loop of `from_stream` reads each of its messages from, when it has read `held`
since the last message, and the bytes after the last message. -/
def spansLoop : ℕ → Parser φ → Bytes → Bytes → List Bytes × Bytes
  | 0, _, held, cursor => ([], held ++ cursor)
  | fuel + 1, p, held, cursor =>
    match g.turn p cursor with
    | .stop _ => ([], held ++ cursor)
    | .again emitted p rest =>
      let held := held ++ cursor.take (cursor.length - rest.length)
      match emitted with
      | some _ =>
        let (spans, left) := spansLoop fuel p [] rest
        (held :: spans, left)
      | none => spansLoop fuel p held rest

variable {g}

/-- What a turn has read and what it leaves over are the bytes that it was given. -/
theorem take_append_of_again {p q : Parser φ} {cursor rest : Bytes} {emitted : Option μ}
    (hturn : g.turn p cursor = .again emitted q rest) :
    cursor.take (cursor.length - rest.length) ++ rest = cursor := by
  obtain ⟨read, rfl, -⟩ := turn_append_of_again hturn
  rw [List.length_append, Nat.add_sub_cancel, List.take_left']
  rfl

/-- A loop that returns has read each message from bytes of its own, and nothing is left out. -/
theorem spansLoop_spec {fuel : ℕ} {p q : Parser φ} {cursor : Bytes} {messages : List μ}
    (hloop : g.loop fuel p cursor = .returned messages q) (held : Bytes) :
    (g.spansLoop fuel p held cursor).1.length = messages.length ∧
      (g.spansLoop fuel p held cursor).1.flatten ++ (g.spansLoop fuel p held cursor).2 =
        held ++ cursor := by
  induction fuel generalizing p cursor messages held with
  | zero => cases hloop
  | succ fuel ih =>
    rw [loop] at hloop
    rw [spansLoop]
    cases hturn : g.turn p cursor with
    | stop r =>
      simp only [hturn] at hloop
      subst hloop
      -- the loop ends here, and what is held belongs to no message
      cases turn_eq_stop_iff.mp hturn with
      | suspended => exact ⟨rfl, rfl⟩
    | again emitted t rest =>
      simp only [hturn] at hloop
      have hsplit := take_append_of_again hturn
      obtain ⟨later, hrest, rfl⟩ := Reading.prepend_eq_returned.mp hloop
      cases emitted with
      | none =>
        -- the bytes of this turn are held for the message to come
        obtain ⟨hlength, hflatten⟩ := ih hrest (held ++ cursor.take (cursor.length - rest.length))
        refine ⟨hlength, ?_⟩
        simp only [hflatten, List.append_assoc, hsplit]
      | some message =>
        -- the message is complete, and nothing is held for the next one
        obtain ⟨hlength, hflatten⟩ := ih hrest []
        constructor
        · simp [hlength]
        · simp only [List.flatten_cons, List.append_assoc, hflatten, List.nil_append, hsplit]

end Grammar

/-- The bytes that `http_response_t::from_stream` reads each response from, and the bytes after the last
response. -/
def ResponseParser.spans (stream : Bytes) : List Bytes × Bytes :=
  grammar.spansLoop (2 * stream.length + 2) fresh [] stream

/-- The stretches of a stream are as many as its responses, and with what is left over they are the stream. -/
theorem ResponseParser.spans_spec {stream : Bytes} {responses : List HttpResponse} {p : ResponseParser}
    (hread : fromStream fresh stream = .returned responses p) :
    (spans stream).1.length = responses.length ∧
      (spans stream).1.flatten ++ (spans stream).2 = stream := by
  by_cases hstream : stream = []
  · subst hstream
    obtain ⟨rfl, -⟩ : [] = responses ∧ fresh = p := by
      simpa [fromStream, Grammar.fromStream] using hread
    decide
  · rw [fromStream, Grammar.fromStream, if_neg hstream] at hread
    exact Grammar.spansLoop_spec hread []

/-! ### What the scanner takes for a response -/

namespace Scanner

/-- The length that the client finds in a head, when it has seen this much of `CONTENT_LENGTH` before. -/
def foundLength (contentLengthItr : ℕ) (head : Bytes) : Except StoulError ℕ :=
  let search := scan contentLengthText contentLengthItr head
  if search.progress < contentLengthText.length then .ok 0
  else stoul 10 (search.rest.takeWhile isdigit)

/-- After the first blank line come as many bytes as are announced in front of it. -/
def Delimited (response : Bytes) : Prop :=
  let blank := scan doubleReturnText 0 response
  doubleReturnText.length ≤ blank.progress ∧ foundLength 0 blank.read = .ok blank.rest.length

instance (response : Bytes) : Decidable (Delimited response) :=
  inferInstanceAs (Decidable (_ ∧ _))

/-- No response ends here, and no length is malformed: a blank line comes after a length only, what stands
for a length is a number or has not ended yet, and fewer bytes than announced come after the blank line.
The client has seen this much of its two texts before. -/
def Unfinished (contentLengthItr doubleReturnItr : ℕ) (tail : Bytes) : Prop :=
  let blank := scan doubleReturnText doubleReturnItr tail
  let search := scan contentLengthText contentLengthItr blank.read
  if search.progress < contentLengthText.length then blank.progress < doubleReturnText.length
  else
    search.rest.dropWhile isdigit = [] ∨
      ∃ n ∈ (stoul 10 (search.rest.takeWhile isdigit)).toOption,
        doubleReturnText.length ≤ blank.progress → blank.rest.length < n

instance (contentLengthItr doubleReturnItr : ℕ) (tail : Bytes) :
    Decidable (Unfinished contentLengthItr doubleReturnItr tail) := by
  unfold Unfinished
  infer_instance

/-- A stretch that ends in a body spans exactly as many bytes as the body has. -/
theorem spans_body_iff (text : Bytes) {n : ℕ} (hn : n ≠ 0) (xs : Bytes) :
    Spans step (body text n) xs start ↔ xs.length = n := by
  induction xs generalizing n with
  | nil => exact iff_of_false (not_spans_nil _ _) (Ne.symm hn)
  | cons c xs ih =>
    by_cases hlast : n = 1
    · have hstep : (body text n).step c = some (start, true) := by rw [step, if_pos hlast]
      rw [spans_cons_of_mark hstep, List.length_cons, hlast]
      simp
    · have hstep : (body text n).step c = some (body text (n - 1), false) := by
        rw [step, if_neg hlast]
      rw [spans_cons_of_quiet hstep, ih (by omega), List.length_cons]
      omega

/-- In the header lines after a length was found, a stretch spans the rest of them, and then as many bytes as
announced. -/
theorem spans_fields_iff (text : Bytes) (n : ℕ) {j : ℕ} (hj : j < doubleReturnText.length) (xs : Bytes) :
    Spans step (fields text n j) xs start ↔
      doubleReturnText.length ≤ (scan doubleReturnText j xs).progress ∧
        (scan doubleReturnText j xs).rest.length = n := by
  induction xs generalizing j with
  | nil => exact iff_of_false (not_spans_nil _ _) fun h => Nat.not_le.mpr hj h.1
  | cons c xs ih =>
    have hle := advance_le hj c
    rw [scan_cons hj]
    by_cases hend : advance doubleReturnText j c = doubleReturnText.length
    · -- the head ends here, and a body follows unless its length is zero
      rw [hend, scan_of_length_le (Nat.le_refl _)]
      by_cases hn : n ≠ 0
      · have hstep : (fields text n j).step c = some (body text n, false) := by
          rw [step, fieldsStep, if_pos hend, if_pos hn]
        rw [spans_cons_of_quiet hstep, spans_body_iff text hn]
        simp
      · have hstep : (fields text n j).step c = some (start, true) := by
          rw [step, fieldsStep, if_pos hend, if_neg hn]
        rw [spans_cons_of_mark hstep, not_not.mp hn]
        simp
    · have hstep : (fields text n j).step c =
          some (fields text n (advance doubleReturnText j c), false) := by
        rw [step, fieldsStep, if_neg hend]
      rw [spans_cons_of_quiet hstep, ih (lt_of_le_of_ne hle hend)]

/-- No digit is a part of the blank line, so that the search for it begins anew behind a number. -/
theorem not_isdigit_of_mem {c : UInt8} (hc : isdigit c) : c ∉ doubleReturnText := by
  intro hmem
  have hnone : ∀ b ∈ doubleReturnText, isdigit b = false := by decide
  rw [hnone c hmem] at hc
  cases hc

/-- A digit is no part of a blank line. -/
theorem scan_doubleReturnText_digit {c : UInt8} (hc : isdigit c) (xs : Bytes) :
    scan doubleReturnText 0 (c :: xs) =
      ⟨(scan doubleReturnText 0 xs).progress, c :: (scan doubleReturnText 0 xs).read,
        (scan doubleReturnText 0 xs).rest⟩ := by
  have hadvance : advance doubleReturnText 0 c = 0 :=
    if_neg fun hget => not_isdigit_of_mem hc (List.mem_of_getElem? hget)
  rw [scan_cons (by decide), hadvance]

/-- In the digits of a length, a stretch spans a body of the length that all of them spell. -/
theorem spans_digits_iff (text xs : Bytes) :
    Spans step (digits text) xs start ↔
      doubleReturnText.length ≤ (scan doubleReturnText 0 xs).progress ∧
        stoul 10 (text ++ xs.takeWhile isdigit) = .ok (scan doubleReturnText 0 xs).rest.length := by
  induction xs generalizing text with
  | nil => exact iff_of_false (not_spans_nil _ _) fun hblank => absurd hblank.1 (by decide)
  | cons c xs ih =>
    by_cases hdigit : isdigit c
    · have hstep : (digits text).step c = some (digits (text ++ [c]), false) := by
        rw [step, if_pos hdigit]
      rw [spans_cons_of_quiet hstep, ih, scan_doubleReturnText_digit hdigit,
        List.takeWhile_cons_of_pos hdigit, List.append_assoc, List.singleton_append]
    · rw [List.takeWhile_cons_of_neg hdigit, List.append_nil]
      cases hn : stoul 10 text with
      | error e =>
        have hstep : (digits text).step c = none := by rw [step, if_neg hdigit, hn]
        exact iff_of_false (not_spans_cons_of_refused hstep _) fun h => by cases h.2
      | ok n =>
        -- the byte after the length is looked at as any byte after it
        have hstep : (digits text).step c = (fields text n 0).step c := by
          rw [step, if_neg hdigit, hn]
          rfl
        have hsame : Spans step (digits text) (c :: xs) start ↔
            Spans step (fields text n 0) (c :: xs) start := by
          rw [spans_cons, hstep, ← spans_cons]
        rw [hsame, spans_fields_iff text n (by decide), Except.ok.injEq, eq_comm (a := n)]

/-! ### The length in the head -/

/-- The search for the length moves on by one byte. -/
theorem foundLength_cons {i : ℕ} (hi : i < contentLengthText.length) (c : UInt8) (head : Bytes) :
    foundLength i (c :: head) = foundLength (advance contentLengthText i c) head := by
  rw [foundLength, scan_cons hi, foundLength]

/-- Where the name of the length was found, the digits behind it are the length. -/
theorem foundLength_of_found (head : Bytes) :
    foundLength contentLengthText.length head = stoul 10 (head.takeWhile isdigit) := by
  rw [foundLength, scan_of_length_le (Nat.le_refl _), if_neg (Nat.lt_irrefl _)]

/-- The blank line is no digits: the number has ended before it. -/
theorem exists_not_isdigit_of_blank {xs : Bytes}
    (h : doubleReturnText.length ≤ (scan doubleReturnText 0 xs).progress) :
    ¬∀ c ∈ (scan doubleReturnText 0 xs).read, isdigit c := by
  intro hdigits
  have hsilent : Silent doubleReturnText (scan doubleReturnText 0 xs).read :=
    silent_of_disjoint (by decide) fun c hc => not_isdigit_of_mem (hdigits c hc)
  rw [Silent, scan_read, Scan.mk.injEq] at hsilent
  rw [hsilent.1] at h
  exact absurd h (by decide)

/-- The digits of a length end in front of a blank line. -/
theorem takeWhile_of_blank {xs : Bytes}
    (h : doubleReturnText.length ≤ (scan doubleReturnText 0 xs).progress) :
    (scan doubleReturnText 0 xs).read.takeWhile isdigit = xs.takeWhile isdigit := by
  have hsplit := scan_read_append_rest doubleReturnText 0 xs
  conv_rhs => rw [← hsplit]
  rw [List.takeWhile_append, if_neg]
  intro hlength
  have hwhole := (List.takeWhile_prefix _).eq_of_length hlength
  exact exists_not_isdigit_of_blank h (List.takeWhile_eq_self_iff.mp hwhole)

/-- In the header lines before a length was found, a stretch spans a body of the length that is found first, if there
is one. -/
theorem spans_head_iff {i j : ℕ} (hi : i < contentLengthText.length) (hj : j < doubleReturnText.length)
    (xs : Bytes) :
    Spans step (head i j) xs start ↔
      doubleReturnText.length ≤ (scan doubleReturnText j xs).progress ∧
        foundLength i (scan doubleReturnText j xs).read = .ok (scan doubleReturnText j xs).rest.length := by
  induction xs generalizing i j with
  | nil => exact iff_of_false (not_spans_nil _ _) fun h => Nat.not_le.mpr hj h.1
  | cons c xs ih =>
    have hile := advance_le hi c
    have hjle := advance_le hj c
    rw [scan_cons hj]
    by_cases hlength : advance contentLengthText i c = contentLengthText.length
    · -- the length starts
      have hstep : (head i j).step c = some (digits [], false) := by rw [step, if_pos hlength]
      rw [spans_cons_of_quiet hstep, spans_digits_iff, List.nil_append,
        advance_doubleReturnText_of_contentLengthText hlength, foundLength_cons hi, hlength,
        foundLength_of_found]
      refine and_congr_right fun hblank => ?_
      rw [takeWhile_of_blank hblank]
    · by_cases hend : advance doubleReturnText j c = doubleReturnText.length
      · -- the head ends without a length
        have hstep : (head i j).step c = some (start, true) := by
          rw [step, if_neg hlength, if_pos hend]
        have hnone : foundLength (advance contentLengthText i c) [] = .ok 0 := by
          rw [foundLength, scan_nil, if_pos (lt_of_le_of_ne hile hlength)]
        rw [spans_cons_of_mark hstep, hend, scan_of_length_le (Nat.le_refl _),
          foundLength_cons hi, hnone, Except.ok.injEq]
        simp only [Nat.le_refl, true_and, and_true]
        exact List.length_eq_zero_iff.symm.trans eq_comm
      · have hstep : (head i j).step c =
            some (head (advance contentLengthText i c) (advance doubleReturnText j c), false) := by
          rw [step, if_neg hlength, if_neg hend]
        rw [spans_cons_of_quiet hstep, ih (lt_of_le_of_ne hile hlength) (lt_of_le_of_ne hjle hend),
          foundLength_cons hi]

/-- The scanner takes a text for a response exactly if it is delimited. -/
theorem spans_iff_delimited (response : Bytes) :
    Spans step start response start ↔ Delimited response :=
  spans_head_iff (by decide) (by decide) response

/-! ### The bytes after the last response -/

/-- A walk through a body goes on until its last byte. -/
theorem walk_body_isSome (text : Bytes) {n : ℕ} (hn : n ≠ 0) (xs : Bytes) :
    (walk step (body text n) xs).isSome ↔ xs.length < n := by
  induction xs generalizing n with
  | nil => exact iff_of_true rfl (Nat.pos_of_ne_zero hn)
  | cons c xs ih =>
    by_cases hlast : n = 1
    · have hstep : (body text n).step c = some (start, true) := by rw [step, if_pos hlast]
      rw [walk_cons_of_mark hstep, hlast, List.length_cons]
      simp
    · have hstep : (body text n).step c = some (body text (n - 1), false) := by
        rw [step, if_neg hlast]
      rw [walk_cons_of_step hstep, ih (by omega), List.length_cons]
      omega

/-- A walk through the header lines goes on until the body that was announced has come. -/
theorem walk_fields_isSome (text : Bytes) (n : ℕ) {j : ℕ} (hj : j < doubleReturnText.length)
    (xs : Bytes) :
    (walk step (fields text n j) xs).isSome ↔
      (doubleReturnText.length ≤ (scan doubleReturnText j xs).progress →
        (scan doubleReturnText j xs).rest.length < n) := by
  induction xs generalizing j with
  | nil => exact iff_of_true rfl fun hblank => absurd hblank (Nat.not_le.mpr hj)
  | cons c xs ih =>
    have hle := advance_le hj c
    rw [scan_cons hj]
    by_cases hend : advance doubleReturnText j c = doubleReturnText.length
    · -- the blank line: the rest is the body, and a mark unless it is shorter than announced
      rw [hend, scan_of_length_le (Nat.le_refl _)]
      by_cases hn : n ≠ 0
      · have hstep : (fields text n j).step c = some (body text n, false) := by
          rw [step, fieldsStep, if_pos hend, if_pos hn]
        rw [walk_cons_of_step hstep, walk_body_isSome text hn]
        simp
      · have hstep : (fields text n j).step c = some (start, true) := by
          rw [step, fieldsStep, if_pos hend, if_neg hn]
        rw [walk_cons_of_mark hstep, not_not.mp hn]
        simp
    · have hstep : (fields text n j).step c =
          some (fields text n (advance doubleReturnText j c), false) := by
        rw [step, fieldsStep, if_neg hend]
      rw [walk_cons_of_step hstep, ih (lt_of_le_of_ne hle hend)]

/-- A walk through the digits of a length goes on while they do, and then as far as the body that they announce. -/
theorem walk_digits_isSome (text xs : Bytes) :
    (walk step (digits text) xs).isSome ↔
      xs.dropWhile isdigit = [] ∨
        ∃ n ∈ (stoul 10 (text ++ xs.takeWhile isdigit)).toOption,
          doubleReturnText.length ≤ (scan doubleReturnText 0 xs).progress →
            (scan doubleReturnText 0 xs).rest.length < n := by
  induction xs generalizing text with
  | nil => exact iff_of_true rfl (Or.inl rfl)
  | cons c xs ih =>
    by_cases hdigit : isdigit c
    · have hstep : (digits text).step c = some (digits (text ++ [c]), false) := by
        rw [step, if_pos hdigit]
      rw [walk_cons_of_step hstep, ih, scan_doubleReturnText_digit hdigit,
        List.takeWhile_cons_of_pos hdigit, List.dropWhile_cons_of_pos hdigit, List.append_assoc,
        List.singleton_append]
    · rw [List.takeWhile_cons_of_neg hdigit, List.dropWhile_cons_of_neg hdigit, List.append_nil]
      cases hn : stoul 10 text with
      | error e =>
        have hstep : (digits text).step c = none := by rw [step, if_neg hdigit, hn]
        rw [walk_cons_of_refused hstep]
        simp [Except.toOption]
      | ok n =>
        -- the first byte after the digits is the first that may belong to a blank line
        have hstep : (digits text).step c = (fields text n 0).step c := by
          rw [step, if_neg hdigit, hn]
          rfl
        have hsame : walk step (digits text) (c :: xs) = walk step (fields text n 0) (c :: xs) := by
          rw [walk, hstep, ← walk]
        rw [hsame, walk_fields_isSome text n (by decide)]
        simp [Except.toOption]

/-- Whether a response has come to its end is decided by the byte that comes next and those after it. -/
theorem unfinished_cons {i j : ℕ} (hi : i < contentLengthText.length)
    (hj : j < doubleReturnText.length) {c : UInt8} (xs : Bytes) :
    Unfinished i j (c :: xs) ↔
      Unfinished (advance contentLengthText i c) (advance doubleReturnText j c) xs := by
  simp only [Unfinished, scan_cons hj, scan_cons hi]

/-- A blank line does not change what stands for a length in front of it. -/
theorem unfinished_of_found (xs : Bytes) :
    Unfinished contentLengthText.length 0 xs ↔
      xs.dropWhile isdigit = [] ∨
        ∃ n ∈ (stoul 10 (xs.takeWhile isdigit)).toOption,
          doubleReturnText.length ≤ (scan doubleReturnText 0 xs).progress →
            (scan doubleReturnText 0 xs).rest.length < n := by
  simp only [Unfinished, scan_of_length_le (Nat.le_refl _), Nat.lt_irrefl, if_false]
  by_cases hblank : doubleReturnText.length ≤ (scan doubleReturnText 0 xs).progress
  · -- a blank line has bytes that are no digits, so that the digits end in front of it
    have hnot := exists_not_isdigit_of_blank hblank
    have hread : ¬(scan doubleReturnText 0 xs).read.dropWhile isdigit = [] := by
      rwa [List.dropWhile_eq_nil_iff]
    have hxs : ¬xs.dropWhile isdigit = [] := by
      rw [List.dropWhile_eq_nil_iff, ← scan_read_append_rest doubleReturnText 0 xs]
      exact fun hdigits => hnot fun c hc => hdigits c (List.mem_append_left _ hc)
    rw [takeWhile_of_blank hblank, or_iff_right hread, or_iff_right hxs]
  · -- without a blank line everything is in front of it
    rw [scan_of_incomplete (Nat.not_le.mp hblank)]

/-- A walk through the header lines goes on exactly as long as the response is unfinished. -/
theorem walk_head_isSome {i j : ℕ} (hi : i < contentLengthText.length)
    (hj : j < doubleReturnText.length) (xs : Bytes) :
    (walk step (head i j) xs).isSome ↔ Unfinished i j xs := by
  induction xs generalizing i j with
  | nil =>
    refine iff_of_true rfl ?_
    rw [Unfinished, scan_nil, scan_nil, if_pos hi]
    exact hj
  | cons c xs ih =>
    have hile := advance_le hi c
    have hjle := advance_le hj c
    rw [unfinished_cons hi hj]
    by_cases hlength : advance contentLengthText i c = contentLengthText.length
    · -- `Content-Length: ` is complete, of which no byte belongs to a blank line
      have hstep : (head i j).step c = some (digits [], false) := by rw [step, if_pos hlength]
      rw [walk_cons_of_step hstep, walk_digits_isSome,
        advance_doubleReturnText_of_contentLengthText hlength, hlength, unfinished_of_found,
        List.nil_append]
    · by_cases hend : advance doubleReturnText j c = doubleReturnText.length
      · have hstep : (head i j).step c = some (start, true) := by
          rw [step, if_neg hlength, if_pos hend]
        rw [walk_cons_of_mark hstep, hend, Unfinished, scan_of_length_le (Nat.le_refl _), scan_nil,
          if_pos (lt_of_le_of_ne hile hlength)]
        simp
      · have hstep : (head i j).step c =
            some (head (advance contentLengthText i c) (advance doubleReturnText j c), false) := by
          rw [step, if_neg hlength, if_neg hend]
        rw [walk_cons_of_step hstep, ih (lt_of_le_of_ne hile hlength) (lt_of_le_of_ne hjle hend)]

/-- The scanner completes no response and refuses no byte exactly if the bytes are unfinished. -/
theorem walk_isSome_iff_unfinished (tail : Bytes) :
    (walk step start tail).isSome ↔ Unfinished 0 0 tail :=
  walk_head_isSome (by decide) (by decide) tail

end Scanner

namespace HttpClient

/-- What a fresh client hands over of a stream, if it does not throw. -/
theorem streamResponses_eq_returned_iff {collect : Collect}
    (hcollect : ∀ handed response, ∃ more, collect handed response = .ok more) (more : Bool)
    (stream : Bytes) (spans : List Bytes) :
    (∃ collected client more',
      streamResponses collect fresh stream more [] = .returned collected client more' spans) ↔
      ∃ reached, run (spanStep Scanner.step) (Scanner.start, []) stream = some (reached, spans) := by
  cases hrun : run (spanStep Scanner.step) (Scanner.start, []) stream with
  | none =>
    -- where the scanner refuses a byte, the client throws
    obtain ⟨e, client, more', handed, hthrew⟩ :
        ∃ e client more' handed, streamResponses collect fresh stream more [] = .threw e client more' handed :=
      scans.refuses (s := (Scanner.start, [])) Scanner.valid_start hrun collect more []
    simp [hthrew]
  | some result =>
    obtain ⟨t, found⟩ := result
    -- what the scanner finds is all handed over
    obtain ⟨more', hgather⟩ := Collect.gather_of_total hcollect more [] found
    have hstreams := scans.streams (s := (Scanner.start, [])) Scanner.valid_start hrun collect more []
    rw [hgather] at hstreams
    obtain hstreams : streamResponses collect fresh stream more [] =
        .returned found.length (t.1.client t.2) more' ([] ++ found) := hstreams
    simp [hstreams]

/-- A response, one without a length, and the head of a third. -/
def spelledOut : Bytes :=
  ascii "HTTP/1.0 200 OK\r\nContent-Length: 2\r\n\r\nhi" ++ ascii "HTTP/1.0 304 \r\nA: b\r\n\r\n" ++
    ascii "HTTP/1.0 200 OK\r\nContent-Length: 2\r\n\r\nh"

/-- A response with a header name in lower case. -/
def lowerCase : Bytes := ascii "HTTP/1.1 200 OK\r\ncontent-length: 2\r\n\r\nhi"

end HttpClient

end PrimeServer
