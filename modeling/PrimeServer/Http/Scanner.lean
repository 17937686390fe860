import PrimeServer.Http.Client
import PrimeServer.Library.Delimiter
import PrimeServer.Library.Spans

/-!
# The scanner of the HTTP client

The flags, numbers and iterators of `http_client_t` stand for one of four stages. What a byte does to
the stage, and whether a response ends with it, is `Scanner.step`.

## Main results

* `HttpClient.scans`: `stream_responses` hands over the spans that end where `Scanner.step` says so.
-/

namespace PrimeServer

open Automaton Delimiter

/-- How far the scanner is with a response. -/
inductive Scanner where
  /-- It looks for the content length and the double return, of which it has seen this much. -/
  | head (contentLengthItr doubleReturnItr : ℕ)
  /-- It is in the content length, of which it has these digits. -/
  | digits (contentLength : Bytes)
  /-- It looks for the double return. It has read a length from these digits. -/
  | fields (contentLength : Bytes) (length doubleReturnItr : ℕ)
  /-- It is in the body, of which this much is to come. -/
  | body (contentLength : Bytes) (length : ℕ)
  deriving DecidableEq

namespace Scanner

/-- Before a response. -/
def start : Scanner := .head 0 0

/-- What a byte does after the length was read, and whether it ends the response. -/
def fieldsStep (contentLength : Bytes) (length doubleReturnItr : ℕ) (c : UInt8) : Scanner × Bool :=
  if advance doubleReturnText doubleReturnItr c = doubleReturnText.length then
    if length ≠ 0 then (.body contentLength length, false) else (start, true)
  else (.fields contentLength length (advance doubleReturnText doubleReturnItr c), false)

/-- What a byte does, and whether it ends the response. -/
def step : Scanner → UInt8 → Option (Scanner × Bool)
  | head contentLengthItr doubleReturnItr, c =>
    some
      (if advance contentLengthText contentLengthItr c = contentLengthText.length then
        (.digits [], false)
      else if advance doubleReturnText doubleReturnItr c = doubleReturnText.length then (start, true)
      else
        (.head (advance contentLengthText contentLengthItr c)
          (advance doubleReturnText doubleReturnItr c), false))
  | digits contentLength, c =>
    if isdigit c then some (.digits (contentLength ++ [c]), false)
    else
      match stoul 10 contentLength with
      | .error _ => none
      | .ok length => some (fieldsStep contentLength length 0 c)
  | fields contentLength length doubleReturnItr, c =>
    some (fieldsStep contentLength length doubleReturnItr c)
  | body contentLength length, _ =>
    some (if length = 1 then (start, true) else (.body contentLength (length - 1), false))

/-- The iterators are inside of their texts, and a body has bytes left. -/
def Valid : Scanner → Prop
  | head contentLengthItr doubleReturnItr =>
    contentLengthItr < contentLengthText.length ∧ doubleReturnItr < doubleReturnText.length
  | digits _ => True
  | fields _ length doubleReturnItr => length < 2 ^ 64 ∧ doubleReturnItr < doubleReturnText.length
  | body _ length => length ≠ 0 ∧ length < 2 ^ 64

/-- At the start nothing is matched. -/
theorem valid_start : start.Valid := by
  constructor <;> decide

/-- In the header lines behind a length, the scanner stays in order. -/
theorem fieldsStep_valid (contentLength : Bytes) {length doubleReturnItr : ℕ}
    (hlength : length < 2 ^ 64) (hitr : doubleReturnItr < doubleReturnText.length) (c : UInt8) :
    (fieldsStep contentLength length doubleReturnItr c).1.Valid := by
  have hle := advance_le hitr c
  unfold fieldsStep
  split_ifs with hend hne
  · exact ⟨hne, hlength⟩
  · exact valid_start
  · exact ⟨hlength, lt_of_le_of_ne hle hend⟩

/-- The scanner stays in order with each byte. -/
theorem Valid.step {stage t : Scanner} (h : stage.Valid) {c : UInt8} {done : Bool}
    (hstep : stage.step c = some (t, done)) : t.Valid := by
  cases stage with
  | head i j =>
    have hi := advance_le h.1 c
    have hj := advance_le h.2 c
    simp only [Scanner.step, Option.some.injEq] at hstep
    split_ifs at hstep with hlength hend
    · -- the whole text of `Content-Length` was found, or the double return, or neither
      obtain ⟨rfl, -⟩ := Prod.mk.inj hstep
      trivial
    · obtain ⟨rfl, -⟩ := Prod.mk.inj hstep
      exact valid_start
    · obtain ⟨rfl, -⟩ := Prod.mk.inj hstep
      exact ⟨lt_of_le_of_ne hi hlength, lt_of_le_of_ne hj hend⟩
  | digits text =>
    simp only [Scanner.step] at hstep
    split_ifs at hstep
    · obtain ⟨rfl, -⟩ := Prod.mk.inj (Option.some.inj hstep)
      trivial
    · cases hn : stoul 10 text with
      | error e => simp [hn] at hstep
      | ok length =>
        -- the byte after the digits is one of the header fields
        simp only [hn, Option.some.injEq] at hstep
        have hvalid := fieldsStep_valid text (stoul_lt hn)
          (show 0 < doubleReturnText.length by decide) c
        rwa [hstep] at hvalid
  | fields text length itr =>
    have hvalid := fieldsStep_valid text h.1 h.2 c
    simp only [Scanner.step, Option.some.injEq] at hstep
    rwa [hstep] at hvalid
  | body text length =>
    simp only [Scanner.step, Option.some.injEq] at hstep
    split_ifs at hstep with hlast
    · obtain ⟨rfl, -⟩ := Prod.mk.inj hstep
      exact valid_start
    · obtain ⟨rfl, -⟩ := Prod.mk.inj hstep
      have hlt := h.2
      have hne := h.1
      exact ⟨by omega, by omega⟩

/-- With the last byte of a response the scanner is back at its start. -/
theorem eq_start_of_step {stage t : Scanner} {c : UInt8} (hstep : stage.step c = some (t, true)) :
    t = start := by
  -- the two stages that look for the double return end alike
  have hfields : ∀ {text length itr}, fieldsStep text length itr c = (t, true) → t = start := by
    intro text length itr heq
    unfold fieldsStep at heq
    split_ifs at heq
    · cases heq
    · exact (Prod.mk.inj heq).1.symm
    · cases heq
  cases stage with
  | head i j =>
    simp only [step, Option.some.injEq] at hstep
    split_ifs at hstep
    · cases hstep
    · exact (Prod.mk.inj hstep).1.symm
    · cases hstep
  | digits text =>
    simp only [step] at hstep
    split_ifs at hstep
    · simp at hstep
    · cases hn : stoul 10 text with
      | error e => simp [hn] at hstep
      | ok length =>
        simp only [hn, Option.some.injEq] at hstep
        exact hfields hstep
  | fields text length itr => exact hfields (Option.some.inj hstep)
  | body text length =>
    simp only [step, Option.some.injEq] at hstep
    split_ifs at hstep
    · exact (Prod.mk.inj hstep).1.symm
    · cases hstep

/-- The client at a stage, with the bytes of the response that earlier calls looked at. -/
def client (buffer : Bytes) : Scanner → HttpClient
  | head contentLengthItr doubleReturnItr =>
    { parseHeaders := true
      parseLength := false
      parseBody := false
      contentLength := []
      length := 0
      doubleReturnItr
      contentLengthItr
      buffer }
  | digits contentLength =>
    { parseHeaders := false
      parseLength := true
      parseBody := false
      contentLength
      length := 0
      doubleReturnItr := 0
      contentLengthItr := contentLengthText.length
      buffer }
  | fields contentLength length doubleReturnItr =>
    { parseHeaders := false
      parseLength := false
      parseBody := false
      contentLength
      length
      doubleReturnItr
      contentLengthItr := contentLengthText.length
      buffer }
  | body contentLength length =>
    { parseHeaders := false
      parseLength := false
      parseBody := true
      contentLength
      length
      doubleReturnItr := doubleReturnText.length
      contentLengthItr := contentLengthText.length
      buffer }

/-- What a turn of the loop in `stream_responses` does at a stage. -/
inductive Turns (buffer : Bytes) (stage : Scanner) (c : UInt8) : HttpClient.Look → Prop
  /-- The turn ends early, and no response is done. -/
  | skipped {t : Scanner} (h : stage.step c = some (t, false)) :
    Turns buffer stage c (.skipped (t.client buffer) false)
  /-- The turn goes to its end, and no response is done. -/
  | seen {t : Scanner} (h : stage.step c = some (t, false)) :
    Turns buffer stage c (.seen (t.client buffer) false)
  /-- The byte is the last one of a response. -/
  | ready {client : HttpClient} (h : stage.step c = some (start, true))
    (hbuffer : client.buffer = buffer) : Turns buffer stage c (.seen client true)
  /-- The content length is no number. -/
  | threw {e : StoulError} {client : HttpClient} (h : stage.step c = none) :
    Turns buffer stage c (.threw e client)

/-- The search for the length goes on by one byte, and ends when its name is there. -/
theorem findContentLength_eq {client : HttpClient} (hparse : client.parseHeaders = true) (c : UInt8) :
    client.findContentLength c =
      if advance contentLengthText client.contentLengthItr c = contentLengthText.length then
        { client with
          contentLengthItr := contentLengthText.length
          parseHeaders := false
          parseLength := true }
      else
        { client with
          contentLengthItr := advance contentLengthText client.contentLengthItr c } := by
  -- after a byte that does not match, the iterator is at the start and not at the end
  have hlength : ¬0 = contentLengthText.length := by decide
  unfold HttpClient.findContentLength advance
  rw [if_pos hparse]
  by_cases hc : contentLengthText[client.contentLengthItr]? = some c
  · simp only [if_pos hc]
    split_ifs with hend
    · rw [hend]
    · rfl
  · simp only [if_neg hc, if_neg hlength]

/-- The search for the blank line goes on by one byte. When the line is there, the response has ended or its body
begins. -/
theorem findDoubleReturn_eq {client : HttpClient}
    (hitr : client.doubleReturnItr < doubleReturnText.length) (c : UInt8) (done : Bool) :
    client.findDoubleReturn c done =
      if advance doubleReturnText client.doubleReturnItr c = doubleReturnText.length then
        if client.length ≠ 0 then
          ({ client with doubleReturnItr := doubleReturnText.length, parseBody := true }, done)
        else ({ client with doubleReturnItr := doubleReturnText.length }, true)
      else
        ({ client with doubleReturnItr := advance doubleReturnText client.doubleReturnItr c }, done) := by
  have hlength : ¬0 = doubleReturnText.length := by decide
  have hget : doubleReturnText[client.doubleReturnItr]? =
      some (doubleReturnText.getD client.doubleReturnItr 0) := by
    rw [List.getD_eq_getElem?_getD, List.getElem?_eq_getElem hitr, Option.getD_some]
  unfold HttpClient.findDoubleReturn advance
  rw [hget]
  by_cases hc : c = doubleReturnText.getD client.doubleReturnItr 0
  · rw [if_pos hc, if_pos (congrArg some hc.symm)]
    dsimp only
    split_ifs with hend hbody
    · rw [hend]
    · rw [hend]
    · rfl
  · have hc' : ¬some (doubleReturnText.getD client.doubleReturnItr 0) = some c := fun heq =>
      hc (Option.some.inj heq).symm
    rw [if_neg hc, if_neg hc', if_neg hlength]

/-- A response that has ended has ended, whatever is searched for in its last byte. -/
theorem findDoubleReturn_done (client : HttpClient) (c : UInt8) :
    (client.findDoubleReturn c true).2 = true ∧
      (client.findDoubleReturn c true).1.buffer = client.buffer := by
  unfold HttpClient.findDoubleReturn
  dsimp only
  split_ifs <;> exact ⟨rfl, rfl⟩

/-- Where the length was found, or will not come any more, it is not searched for. -/
theorem findContentLength_of_not {client : HttpClient} (hparse : client.parseHeaders = false)
    (c : UInt8) : client.findContentLength c = client := by
  rw [HttpClient.findContentLength, hparse, if_neg Bool.false_ne_true]

/-- After the length was read, only the double return is looked for. -/
theorem findEnd_fields (buffer text : Bytes) {length itr : ℕ} (hitr : itr < doubleReturnText.length)
    {c : UInt8} {stage : Scanner} (hstep : stage.step c = some (fieldsStep text length itr c)) :
    Turns buffer stage c (((fields text length itr).client buffer).findEnd false c) := by
  have hfind : ((fields text length itr).client buffer).findDoubleReturn c false =
      if advance doubleReturnText itr c = doubleReturnText.length then
        if length ≠ 0 then ((body text length).client buffer, false)
        else ((fields text length doubleReturnText.length).client buffer, true)
      else ((fields text length (advance doubleReturnText itr c)).client buffer, false) :=
    findDoubleReturn_eq hitr c false
  rw [HttpClient.findEnd, findContentLength_of_not rfl, hfind]
  unfold fieldsStep at hstep
  by_cases hend : advance doubleReturnText itr c = doubleReturnText.length
  · by_cases hlength : length ≠ 0
    · simp only [if_pos hend, if_pos hlength] at hstep ⊢
      exact .seen hstep
    · simp only [if_pos hend, if_neg hlength] at hstep ⊢
      exact .ready hstep rfl
  · simp only [if_neg hend] at hstep ⊢
    exact .seen hstep

/-- Both texts end with different bytes. -/
theorem advance_doubleReturnText_of_contentLengthText {i j : ℕ} {c : UInt8}
    (h : advance contentLengthText i c = contentLengthText.length) :
    advance doubleReturnText j c = 0 := by
  -- the length header ends with a space, and no space is in the double return
  have hspace : c = byte ' ' := by
    unfold advance at h
    split_ifs at h with hget
    · obtain rfl : i = 17 := by simpa [contentLengthText, ascii] using h
      simpa [contentLengthText, ascii] using hget.symm
    · cases h
  subst hspace
  have hnot : byte ' ' ∉ doubleReturnText := by decide
  exact if_neg fun hget => hnot (List.mem_of_getElem? hget)

/-- The client does with a byte of the header lines what the scanner does. -/
theorem findEnd_head (buffer : Bytes) {i j : ℕ} (hj : j < doubleReturnText.length) (c : UInt8) :
    Turns buffer (head i j) c (((head i j).client buffer).findEnd false c) := by
  have hfind : ((head i j).client buffer).findContentLength c =
      if advance contentLengthText i c = contentLengthText.length then
        { (digits []).client buffer with doubleReturnItr := j }
      else (head (advance contentLengthText i c) j).client buffer :=
    findContentLength_eq rfl c
  rw [HttpClient.findEnd, hfind]
  by_cases hlength : advance contentLengthText i c = contentLengthText.length
  · -- the length starts, and the double return does not go on
    have hzero := advance_doubleReturnText_of_contentLengthText (j := j) hlength
    have hne : ¬0 = doubleReturnText.length := by decide
    have hfind' : ({ (digits []).client buffer with doubleReturnItr := j } :
        HttpClient).findDoubleReturn c false =
        if advance doubleReturnText j c = doubleReturnText.length then
          ({ (digits []).client buffer with doubleReturnItr := doubleReturnText.length }, true)
        else
          ({ (digits []).client buffer with
            doubleReturnItr := advance doubleReturnText j c }, false) :=
      findDoubleReturn_eq hj c false
    rw [if_pos hlength, hfind', hzero, if_neg hne]
    exact .seen (t := digits []) (by rw [step, if_pos hlength])
  · have hfind' : ((head (advance contentLengthText i c) j).client buffer).findDoubleReturn c false =
        if advance doubleReturnText j c = doubleReturnText.length then
          ((head (advance contentLengthText i c) doubleReturnText.length).client buffer, true)
        else
          ((head (advance contentLengthText i c) (advance doubleReturnText j c)).client buffer,
            false) :=
      findDoubleReturn_eq hj c false
    rw [if_neg hlength, hfind']
    by_cases hend : advance doubleReturnText j c = doubleReturnText.length
    · rw [if_pos hend]
      exact .ready (by rw [step, if_neg hlength, if_pos hend]) rfl
    · rw [if_neg hend]
      exact .seen (by rw [step, if_neg hlength, if_neg hend])

/-- A turn of the loop in `stream_responses` does what a step of the stage does. -/
theorem look_turns {stage : Scanner} (h : stage.Valid) (buffer : Bytes) (c : UInt8) :
    Turns buffer stage c ((stage.client buffer).look false c) := by
  cases stage with
  | head i j => exact findEnd_head buffer h.2 c
  | digits text =>
    show Turns buffer (digits text) c (((digits text).client buffer).lookAhead false c)
    unfold HttpClient.lookAhead
    simp only [client, if_true]
    by_cases hdigit : isdigit c
    · rw [if_pos hdigit]
      exact .skipped (t := digits (text ++ [c])) (by rw [step, if_pos hdigit])
    · rw [if_neg hdigit]
      cases hn : stoul 10 text with
      | error e => exact .threw (by rw [step, if_neg hdigit, hn])
      | ok length =>
        have hstep : (digits text).step c = some (fieldsStep text length 0 c) := by
          rw [step, if_neg hdigit, hn]
        exact findEnd_fields buffer text (by decide) hstep
  | fields text length itr => exact findEnd_fields buffer text h.2 rfl
  | body text length =>
    have hne := h.1
    have hlt := h.2
    -- the length is at least one, so that counting down does not wrap
    have heat : (((body text length).client buffer).eat).length = length - 1 := by
      simp only [HttpClient.eat, client]
      omega
    have hbody : ((body text length).client buffer).parseBody = true := rfl
    rw [HttpClient.look, if_pos hbody, heat]
    by_cases hlast : length = 1
    · -- whatever the end of the turn does is undone when the response is handed over
      have hparse : ¬((body text length).client buffer).eat.parseLength = true := Bool.false_ne_true
      have hend := findDoubleReturn_done ((body text length).client buffer).eat c
      rw [if_pos (by omega), HttpClient.lookAhead, if_neg hparse, HttpClient.findEnd,
        findContentLength_of_not rfl]
      generalize ((body text length).client buffer).eat.findDoubleReturn c true = last at hend
      obtain ⟨last, done⟩ := last
      obtain ⟨rfl, hbuffer⟩ : done = true ∧ last.buffer = buffer := hend
      exact .ready (by rw [step, if_pos hlast]) hbuffer
    · have hleft : ((body text length).client buffer).eat = (body text (length - 1)).client buffer := by
        have hlength : (length + (2 ^ 64 - 1)) % 2 ^ 64 = length - 1 := by omega
        simp only [HttpClient.eat, client, hlength]
      rw [if_neg (by omega), hleft]
      exact .skipped (by rw [step, if_neg hlast])

/-! ### The loop -/

/-- The bytes that the client keeps are no matter of the scanner. -/
@[simp]
theorem client_buffer (stage : Scanner) (buffer : Bytes) : (stage.client buffer).buffer = buffer := by
  cases stage <;> rfl

/-- The bytes that the client keeps can be exchanged. -/
theorem client_with_buffer (stage : Scanner) (buffer buffer' : Bytes) :
    { stage.client buffer with buffer := buffer' } = stage.client buffer' := by
  cases stage <;> rfl

/-- A client with an empty buffer is reset to the start of the scanner. -/
theorem reset_eq {client : HttpClient} (h : client.buffer = []) : client.reset = start.client [] := by
  obtain ⟨parseHeaders, parseLength, parseBody, contentLength, length, i, j, buffer⟩ := client
  obtain rfl : buffer = [] := h
  rfl

section Turn

variable (collect : Collect) {stage : Scanner} (hstage : stage.Valid) (buffer begin : Bytes) {c : UInt8}
  (current : Bytes) (more : Bool) (collected : ℕ) (handed : List Bytes)

include hstage

/-- A turn that ends no response. -/
theorem loop_of_quiet {u : Scanner} (hstep : stage.step c = some (u, false)) :
    HttpClient.loop collect (stage.client buffer) false begin (c :: current) more collected handed =
      HttpClient.loop collect (u.client buffer) false (begin ++ [c]) current more collected handed := by
  have hturns := look_turns hstage buffer c
  rw [HttpClient.loop]
  generalize (stage.client buffer).look false c = look at hturns
  cases hturns with
  | skipped h | seen h =>
    obtain rfl : _ = u := by simpa using h.symm.trans hstep
    rfl
  | ready h => simp [hstep] at h
  | threw h => simp [hstep] at h

/-- A turn that ends a response hands it over. -/
theorem loop_of_ready (hstep : stage.step c = some (start, true)) :
    match collect handed (buffer ++ begin ++ [c]) with
    | .ok more' =>
      HttpClient.loop collect (stage.client buffer) false begin (c :: current) more collected handed =
        HttpClient.loop collect (start.client []) false [] current more' (collected + 1)
          (handed ++ [buffer ++ begin ++ [c]])
    | .error e =>
      ∃ t', HttpClient.loop collect (stage.client buffer) false begin (c :: current) more collected
        handed = .threw e t' more (handed ++ [buffer ++ begin ++ [c]]) := by
  have hturns := look_turns hstage buffer c
  rw [HttpClient.loop]
  generalize (stage.client buffer).look false c = look at hturns
  cases hturns with
  | skipped h | seen h => simp [hstep] at h
  | threw h => simp [hstep] at h
  | @ready last _ hbuffer =>
    subst hbuffer
    -- what earlier calls looked at comes first, if there is anything
    by_cases hempty : last.buffer = []
    · simp only [hempty, ne_eq, not_true_eq_false, if_false, List.nil_append]
      cases collect handed (begin ++ [c]) with
      | ok more' => rw [reset_eq hempty]
      | error e => exact ⟨_, rfl⟩
    · simp only [ne_eq, hempty, not_false_eq_true, if_true, ← List.append_assoc]
      cases collect handed (last.buffer ++ begin ++ [c]) with
      | ok more' => rw [reset_eq rfl]
      | error e => exact ⟨_, rfl⟩

end Turn

/-- What the loop of `stream_responses` hands over are the spans that end in the bytes that are left,
and what it leaves in the buffer is the start of another. -/
theorem loop_gather (collect : Collect) {stage t : Scanner} (hstage : stage.Valid)
    (buffer begin : Bytes) {current held : Bytes} {responses : List Bytes}
    (hrun : run (spanStep step) (stage, buffer ++ begin) current = some ((t, held), responses))
    (more : Bool) (collected : ℕ) (handed : List Bytes) :
    match collect.gather more handed responses with
    | (none, more', handed') =>
      HttpClient.loop collect (stage.client buffer) false begin current more collected handed =
        .returned (collected + responses.length) (t.client held) more' handed'
    | (some e, more', handed') =>
      ∃ t', HttpClient.loop collect (stage.client buffer) false begin current more collected handed =
        .threw e t' more' handed' := by
  induction current generalizing stage buffer begin more collected handed responses with
  | nil =>
    obtain ⟨⟨rfl, rfl⟩, rfl⟩ : (stage = t ∧ buffer ++ begin = held) ∧ [] = responses := by
      simpa using hrun
    show HttpClient.loop collect (stage.client buffer) false begin [] more collected handed = _
    rw [HttpClient.loop, client_buffer, client_with_buffer]
    rfl
  | cons c current ih =>
    obtain ⟨u, mark, hstep, hrest⟩ := of_run_spanStep_cons hrun
    have hu := hstage.step hstep
    cases mark with
    | false =>
      obtain hrest : run (spanStep step) (u, buffer ++ begin ++ [c]) current = _ := hrest
      rw [List.append_assoc] at hrest
      rw [loop_of_quiet collect hstage buffer begin current more collected handed hstep]
      exact ih hu _ _ hrest more collected handed
    | true =>
      obtain ⟨later, rfl, hlater⟩ := hrest
      obtain rfl : u = start := eq_start_of_step hstep
      -- a response ends, and `collect` says whether the loop goes on
      have hready := loop_of_ready collect hstage buffer begin current more collected handed hstep
      rw [Collect.gather]
      cases hcollect : collect handed (buffer ++ begin ++ [c]) with
      | error e =>
        rw [hcollect] at hready
        exact hready
      | ok more' =>
        rw [hcollect] at hready
        obtain hready : _ = _ := hready
        -- the next response starts with nothing in the buffer
        have hlater' := ih hu [] [] hlater more' (collected + 1)
          (handed ++ [buffer ++ begin ++ [c]])
        rw [hready, List.length_cons, ← Nat.add_assoc, Nat.add_right_comm]
        exact hlater'

/-- Where the scanner refuses a byte, the loop throws, at that byte or before. -/
theorem loop_refused (collect : Collect) {stage : Scanner} (hstage : stage.Valid)
    (buffer begin : Bytes) {current : Bytes}
    (hrun : run (spanStep step) (stage, buffer ++ begin) current = none)
    (more : Bool) (collected : ℕ) (handed : List Bytes) :
    ∃ e t' more' handed',
      HttpClient.loop collect (stage.client buffer) false begin current more collected handed =
        .threw e t' more' handed' := by
  induction current generalizing stage buffer begin more collected handed with
  | nil => simp at hrun
  | cons c current ih =>
    cases hstep : stage.step c with
    | none =>
      -- this is the byte
      have hturns := look_turns hstage buffer c
      rw [HttpClient.loop]
      generalize (stage.client buffer).look false c = look at hturns
      cases hturns with
      | skipped h | seen h | ready h => simp [hstep] at h
      | threw => exact ⟨_, _, _, _, rfl⟩
    | some next =>
      obtain ⟨u, mark⟩ := next
      have hu := hstage.step hstep
      cases mark with
      | false =>
        have hspan : spanStep step (stage, buffer ++ begin) c =
            some ((u, buffer ++ begin ++ [c]), none) := by
          simp [spanStep, hstep]
        rw [run_cons_of_step hspan, Option.map_eq_none_iff, List.append_assoc] at hrun
        rw [loop_of_quiet collect hstage buffer begin current more collected handed hstep]
        exact ih hu _ _ hrun more collected handed
      | true =>
        obtain rfl : u = start := eq_start_of_step hstep
        have hspan : spanStep step (stage, buffer ++ begin) c =
            some ((start, []), some (buffer ++ begin ++ [c])) := by
          simp [spanStep, hstep]
        rw [run_cons_of_step hspan, Option.map_eq_none_iff] at hrun
        have hready := loop_of_ready collect hstage buffer begin current more collected handed hstep
        cases hcollect : collect handed (buffer ++ begin ++ [c]) with
        | error e =>
          rw [hcollect] at hready
          obtain ⟨t', ht'⟩ := hready
          exact ⟨_, _, _, _, ht'⟩
        | ok more' =>
          rw [hcollect] at hready
          obtain hready : _ = _ := hready
          rw [hready]
          exact ih hu [] [] hrun more' (collected + 1) _

end Scanner

/-- What was handed over stays in front of what is handed over later. -/
theorem HttpClient.prefix_loop (collect : Collect) (client : HttpClient) (done : Bool)
    (begin current : Bytes) (more : Bool) (collected : ℕ) (handed : List Bytes) :
    handed <+: (loop collect client done begin current more collected handed).handed := by
  induction current generalizing client done begin more collected handed with
  | nil => exact List.prefix_rfl
  | cons c current ih =>
    rw [loop]
    split
    · exact List.prefix_rfl
    · apply ih
    · apply ih
    · dsimp only
      split_ifs
      · split
        · exact List.prefix_append _ _
        · exact (List.prefix_append _ _).trans (ih ..)
      · split
        · exact List.prefix_append _ _
        · exact (List.prefix_append _ _).trans (ih ..)

/-- `stream_responses` hands over the spans of the response stream. -/
theorem HttpClient.scans :
    httpClient.Scans (fun s : Scanner × Bytes => s.1.client s.2) (spanStep Scanner.step)
      (fun s => s.1.Valid) where
  fresh := ⟨(Scanner.start, []), Scanner.valid_start, rfl⟩
  inv_step := by
    rintro ⟨stage, held⟩ c t response hs hstep
    obtain ⟨⟨u, mark⟩, hu, heq⟩ := Option.map_eq_some_iff.mp hstep
    have hvalid := hs.step hu
    cases mark with
    | false =>
      obtain ⟨rfl, -⟩ : (u, held ++ [c]) = t ∧ none = response := by simpa using heq
      exact hvalid
    | true =>
      obtain ⟨rfl, -⟩ : (u, []) = t ∧ some (held ++ [c]) = response := by simpa using heq
      exact hvalid
  streams := by
    rintro ⟨stage, held⟩ ⟨t, held'⟩ message responses hs hrun collect more handed
    show match collect.gather more handed responses with
      | (none, more', handed') =>
        HttpClient.streamResponses collect (stage.client held) message more handed = _
      | (some e, more', handed') =>
        ∃ t', HttpClient.streamResponses collect (stage.client held) message more handed = _
    unfold HttpClient.streamResponses
    by_cases hmessage : message = []
    · subst hmessage
      obtain ⟨⟨rfl, rfl⟩, rfl⟩ : (stage = t ∧ held = held') ∧ [] = responses := by simpa using hrun
      rfl
    · -- what is held from earlier messages comes in front of the first span
      simp only [if_neg hmessage]
      have hloop := Scanner.loop_gather collect hs held [] (by simpa using hrun) more 0 handed
      simpa only [Nat.zero_add] using hloop
  refuses := by
    rintro ⟨stage, held⟩ message hs hrun collect more handed
    have hmessage : message ≠ [] := by
      -- without a message nothing is refused
      rintro rfl
      cases hrun
    show ∃ e t' more' handed',
      HttpClient.streamResponses collect (stage.client held) message more handed = _
    unfold HttpClient.streamResponses
    simp only [if_neg hmessage]
    exact Scanner.loop_refused collect hs held [] (by simpa using hrun) more 0 handed
  appends := by
    intro collect client message more handed
    show handed <+: (HttpClient.streamResponses collect client message more handed).handed
    unfold HttpClient.streamResponses
    split_ifs
    · exact List.prefix_rfl
    · apply HttpClient.prefix_loop

end PrimeServer
