import PrimeServer.Http.Response
import PrimeServer.Http.Scanner

/-!
# The client splits what the server renders

The texts that `http_response_t::generic` makes have one `Content-Length` header, which is the last, is
spelled as the client expects it, and holds the size of the body. So the scanner of the client finds the
end of each of them, if nothing in the head looks like the end of a line.

## Main results

* `HttpClient.splits_rendered`: the client hands over the rendered responses, however the stream is cut.
-/

namespace PrimeServer

open Automaton Delimiter

namespace Scanner

/-! ### The parts of a response -/

/-- Only a carriage return begins the name of the length. -/
theorem advance_contentLengthText_zero {c : UInt8} (hc : c ≠ byte '\r') :
    advance contentLengthText 0 c = 0 :=
  if_neg fun hget => hc (Option.some.inj hget).symm

/-- Only a carriage return begins the blank line where no half of it is there. -/
theorem advance_doubleReturnText {j : ℕ} (hj : j = 0 ∨ j = 2) {c : UInt8} (hc : c ≠ byte '\r') :
    advance doubleReturnText j c = 0 := by
  rcases hj with rfl | rfl
  · exact if_neg fun hget => hc (Option.some.inj hget).symm
  · exact if_neg fun hget => hc (Option.some.inj hget).symm

/-- A byte of the header lines that is no carriage return takes both searches on. -/
theorem step_head_of_ne {k j : ℕ} (hj : j = 0 ∨ j = 2) {c : UInt8} (hc : c ≠ byte '\r')
    (hlength : advance contentLengthText k c ≠ contentLengthText.length) :
    (head k j).step c = some (head (advance contentLengthText k c) 0, false) := by
  have hend : ¬0 = doubleReturnText.length := by decide
  rw [step, if_neg hlength, advance_doubleReturnText hj hc, if_neg hend]

/-- Text without a line end leaves nothing behind. -/
theorem walk_head_plain {text : Bytes} (htext : byte '\r' ∉ text) :
    walk step (head 0 0) text = some (head 0 0) := by
  induction text with
  | nil => rfl
  | cons c text ih =>
    rw [List.mem_cons, not_or] at htext
    have hc := Ne.symm htext.1
    have hzero := advance_contentLengthText_zero hc
    have hstep := step_head_of_ne (j := 0) (Or.inl rfl) hc (by rw [hzero]; decide)
    rw [hzero] at hstep
    rw [walk_cons_of_step hstep, ih htext.2]

/-- A line that is not the start of a content length header leaves nothing behind, either. -/
theorem walk_head_line {k j : ℕ} (hk : k < contentLengthText.length) (hj : j = 0 ∨ j = 2)
    {line : Bytes} (hline : byte '\r' ∉ line) (hlonger : ¬contentLengthText.drop k <+: line)
    (hshorter : ¬line <+: contentLengthText.drop k) :
    walk step (head k j) line = some (head 0 0) := by
  induction line generalizing k j with
  | nil => exact absurd List.nil_prefix hshorter
  | cons c line ih =>
    rw [List.mem_cons, not_or] at hline
    have hc := Ne.symm hline.1
    by_cases hget : contentLengthText[k]? = some c
    · -- the line still looks like the header
      obtain ⟨_, hget'⟩ := List.getElem?_eq_some_iff.mp hget
      have hdrop : contentLengthText.drop k = c :: contentLengthText.drop (k + 1) := by
        rw [List.drop_eq_getElem_cons hk, hget']
      rw [hdrop, List.cons_prefix_cons, not_and] at hlonger hshorter
      have hmore : k + 1 < contentLengthText.length := by
        by_contra hend
        rw [List.drop_of_length_le (Nat.not_lt.mp hend)] at hlonger
        exact hlonger rfl List.nil_prefix
      have hadvance : advance contentLengthText k c = k + 1 := if_pos hget
      have hstep := step_head_of_ne (k := k) hj hc (by omega)
      rw [hadvance] at hstep
      rw [walk_cons_of_step hstep]
      exact ih hmore (Or.inl rfl) hline.2 (hlonger rfl) (hshorter rfl)
    · -- it does not any more
      have hadvance : advance contentLengthText k c = 0 := if_neg hget
      have hstep := step_head_of_ne (k := k) hj hc (by rw [hadvance]; decide)
      rw [hadvance] at hstep
      rw [walk_cons_of_step hstep, walk_head_plain hline.2]

/-- A line break is half a blank line, and the beginning of the name of the length. -/
theorem walk_crlf : walk step (head 0 0) crlf = some (head 2 2) := by decide

/-- The name of the length behind a line break is found. -/
theorem walk_contentLength : walk step (head 2 2) (ascii "Content-Length: ") = some (digits []) := by
  decide

/-- The digits of a length are collected. -/
theorem walk_digits (text : Bytes) {number : Bytes} (hnumber : ∀ c ∈ number, isdigit c) :
    walk step (digits text) number = some (digits (text ++ number)) := by
  induction number generalizing text with
  | nil => simp
  | cons c number ih =>
    obtain ⟨hc, hrest⟩ := List.forall_mem_cons.mp hnumber
    have hstep : (digits text).step c = some (digits (text ++ [c]), false) := by
      rw [step, if_pos hc]
    rw [walk_cons_of_step hstep, ih _ hrest, List.append_assoc, List.singleton_append]

/-- The last byte of a body ends the response. -/
theorem spans_body (text : Bytes) {content : Bytes} (hne : content ≠ []) :
    Spans step (body text content.length) content start := by
  induction content with
  | nil => exact absurd rfl hne
  | cons c content ih =>
    by_cases hlast : content = []
    · subst hlast
      exact ⟨[], c, _, rfl, rfl, rfl⟩
    · have hlength := List.length_pos_iff.mpr hlast
      have hstep : (body text (c :: content).length).step c =
          some (body text content.length, false) := by
        rw [step, List.length_cons, if_neg (by omega), Nat.add_sub_cancel]
      have hwalk : walk step (body text (c :: content).length) [c] =
          some (body text content.length) := by
        rw [walk_cons_of_step hstep, walk_nil]
      exact (ih hlast).of_walk hwalk

/-- The digits of a length end at the line break. -/
theorem not_isdigit_crlf : isdigit (byte '\r') = false ∧ isdigit (byte '\n') = false := by decide

/-- A length, a blank line, and a body of that length end the response. -/
theorem spans_digits {text content : Bytes} (htext : stoul 10 text = .ok content.length) :
    Spans step (digits text) (crlf ++ crlf ++ content) start := by
  -- the byte that ends the digits is the first of the blank line
  have hreturn : (digits text).step (byte '\r') = some (fields text content.length 1, false) := by
    rw [step, not_isdigit_crlf.1, if_neg Bool.false_ne_true, htext]
    rfl
  have hwalk : walk step (digits text) (crlf ++ [byte '\r']) =
      some (fields text content.length 3) := by
    show walk step (digits text) (byte '\r' :: [byte '\n', byte '\r']) = _
    rw [walk_cons_of_step hreturn]
    rfl
  -- without a body the blank line ends the response, otherwise the body does
  by_cases hcontent : content = []
  · subst hcontent
    exact ⟨crlf ++ [byte '\r'], byte '\n', _, rfl, hwalk, rfl⟩
  · have hlength : content.length ≠ 0 := by simpa using hcontent
    have hend : (fields text content.length 3).step (byte '\n') =
        some (body text content.length, false) := by
      show some (fieldsStep text content.length 3 (byte '\n')) = _
      rw [fieldsStep, if_pos (by decide), if_pos hlength]
    have hblank : walk step (digits text) (crlf ++ crlf) = some (body text content.length) := by
      show walk step (digits text) ((crlf ++ [byte '\r']) ++ [byte '\n']) = _
      rw [walk_append_of_walk hwalk, walk_cons_of_step hend, walk_nil]
    exact (spans_body text hcontent).of_walk hblank

/-- A header line that is no content length header. -/
theorem walk_headerLine {name value : Bytes} (hname : byte '\r' ∉ name) (hcolon : byte ':' ∉ name)
    (hvalue : byte '\r' ∉ value) (hne : name ≠ ascii "Content-Length") :
    walk step (head 2 2) (headerLine name value) = some (head 2 2) := by
  have hdrop : contentLengthText.drop 2 = ascii "Content-Length" ++ byte ':' :: [byte ' '] := by decide
  have hline : name ++ ascii ": " ++ value = name ++ byte ':' :: (byte ' ' :: value) := by
    rw [List.append_assoc]
    rfl
  have hplain : byte ':' ∉ ascii "Content-Length" := by decide
  have hwalk : walk step (head 2 2) (name ++ ascii ": " ++ value) = some (head 0 0) := by
    apply walk_head_line (by decide) (Or.inr rfl)
    · have hmiddle : byte '\r' ∉ ascii ": " := by decide
      simp only [List.mem_append, not_or]
      exact ⟨⟨hname, hmiddle⟩, hvalue⟩
    · -- the name ends at the first colon
      rintro ⟨rest, hrest⟩
      rw [hdrop, hline, List.append_assoc, List.cons_append] at hrest
      exact hne (before_unique hplain hcolon hrest).symm
    · rintro ⟨rest, hrest⟩
      rw [hdrop, hline, List.append_assoc, List.cons_append] at hrest
      exact hne (before_unique hcolon hplain hrest)
  rw [headerLine, walk_append_of_walk hwalk, walk_crlf]

end Scanner

namespace HttpResponse

/-- Nothing in the head of the response looks like the end of a line or of a header name. Its body has a
size. -/
structure Plain (r : HttpResponse) : Prop where
  /-- The version does not end the start line. -/
  version : OneLine r.version
  /-- The reason phrase does not end the start line. -/
  message : OneLine r.message
  /-- A name ends at the first colon of its line, and neither part ends the line. -/
  headers : ∀ header ∈ r.headers.entries,
    OneLine header.1 ∧ byte ':' ∉ header.1 ∧ OneLine header.2
  /-- The length of the body fits a `size_t`. -/
  body : r.body.length < 2 ^ 64

variable {r : HttpResponse}

/-- A number that is written out has no carriage return in it. -/
theorem return_not_mem_decimal (n : ℕ) : byte '\r' ∉ decimal n := fun hmem =>
  absurd (isdigit_of_mem_decimal hmem) (by decide)

/-- The start line and the header lines but the last are walked over. -/
theorem Plain.walk_head (h : r.Plain) :
    walk Scanner.step Scanner.start
      (r.version ++ ascii " " ++ decimal r.code ++ ascii " " ++ r.message ++ crlf ++
        r.headers.entries.flatMap fun (name, value) =>
          if name = ascii "Content-Length" then [] else headerLine name value) =
      some (.head 2 2) := by
  have hspace : byte '\r' ∉ ascii " " := by decide
  have hstart : byte '\r' ∉ r.version ++ ascii " " ++ decimal r.code ++ ascii " " ++ r.message := by
    simp only [List.mem_append, not_or]
    exact ⟨⟨⟨⟨h.version.1, hspace⟩, return_not_mem_decimal _⟩, hspace⟩, h.message.1⟩
  have hline : walk Scanner.step Scanner.start
      (r.version ++ ascii " " ++ decimal r.code ++ ascii " " ++ r.message ++ crlf) =
        some (.head 2 2) := by
    show walk Scanner.step (.head 0 0) _ = _
    rw [walk_append_of_walk (Scanner.walk_head_plain hstart), Scanner.walk_crlf]
  rw [walk_append_of_walk hline]
  have hheaders := h.headers
  -- each header line leads from the end of a line to the end of a line
  generalize r.headers.entries = entries at hheaders
  induction entries with
  | nil => rfl
  | cons header entries ih =>
    obtain ⟨hfirst, hrest⟩ := List.forall_mem_cons.mp hheaders
    rw [List.flatMap_cons]
    by_cases hname : header.1 = ascii "Content-Length"
    · simp only [if_pos hname, List.nil_append]
      exact ih hrest
    · simp only [if_neg hname]
      rw [walk_append_of_walk (Scanner.walk_headerLine hfirst.1.1 hfirst.2.1 hfirst.2.2.1 hname)]
      exact ih hrest

/-- The scanner finds the end of the response, and no end before. -/
theorem Plain.spans (h : r.Plain) : Spans Scanner.step Scanner.start r.toString Scanner.start := by
  have hlength : walk Scanner.step (.head 2 2) (ascii "Content-Length: " ++ decimal r.body.length) =
      some (.digits (decimal r.body.length)) := by
    rw [walk_append_of_walk Scanner.walk_contentLength,
      Scanner.walk_digits [] fun c hc => isdigit_of_mem_decimal hc, List.nil_append]
  have hend : Spans Scanner.step (.digits (decimal r.body.length)) (crlf ++ crlf ++ r.body) Scanner.start :=
    Scanner.spans_digits (stoul_decimal h.body)
  have hall := (hend.of_walk hlength).of_walk h.walk_head
  simpa only [toString, generic, List.append_assoc] using hall

end HttpResponse

namespace HttpClient

/-- The client hands over the responses that `generic` rendered, one call for each, however the stream is
cut into messages, and is then as good as new. -/
theorem splits_rendered {responses : List HttpResponse} (hplain : ∀ r ∈ responses, r.Plain)
    {messages : List Bytes}
    (hstream : messages.flatten = (responses.map HttpResponse.toString).flatten) {collect : Collect}
    (hcollect : ∀ handed response, ∃ more, collect handed response = .ok more) (more : Bool) :
    ∃ more', httpClient.streamAll collect fresh messages more [] =
      .returned responses.length fresh more' (responses.map HttpResponse.toString) := by
  have hspans : ∀ text ∈ responses.map HttpResponse.toString,
      Spans Scanner.step Scanner.start text Scanner.start := by
    intro text htext
    obtain ⟨r, hr, rfl⟩ := List.mem_map.mp htext
    exact (hplain r hr).spans
  have hrun := run_spanStep_flatten hspans
  rw [← hstream] at hrun
  have hall := HttpClient.scans.streamAll hcollect Scanner.valid_start hrun more []
  rw [List.length_map, List.nil_append] at hall
  exact hall

/-- A response whose body looks like a head. -/
def lookAlike : HttpResponse where
  code := 200
  message := ascii "OK"
  body := ascii "\r\nContent-Length: 7\r\n\r\n"
  headers := AssocMap.empty.insert (ascii "content-type") (ascii "text/plain")
  version := ascii "HTTP/1.1"

/-- `splits_rendered` for responses whose body looks like a header, cut anywhere. -/
theorem splits_rendered_lookAlike :
    ∃ more', httpClient.streamAll (fun _ _ => .ok true) fresh
        [lookAlike.toString.take 40, lookAlike.toString.drop 40, lookAlike.toString] true [] =
      .returned 2 fresh more' [lookAlike.toString, lookAlike.toString] := by
  have hplain : ∀ r ∈ [lookAlike, lookAlike], r.Plain := by
    intro r hr
    obtain rfl : r = lookAlike := by simpa using hr
    exact ⟨by decide, by decide, by decide, by decide⟩
  refine splits_rendered hplain ?_ (fun _ _ => ⟨true, rfl⟩) true
  simp only [List.flatten_cons, List.flatten_nil, List.append_nil, List.map_cons, List.map_nil]
  rw [← List.append_assoc, List.take_append_drop]

/-- A version may be any text, and one with a blank line ends the response. -/
theorem splits_version :
    ¬∀ (responses : List HttpResponse) (messages : List Bytes) (collect : Collect),
      (∀ r ∈ responses, OneLine r.message ∧ (∀ header ∈ r.headers.entries,
        OneLine header.1 ∧ byte ':' ∉ header.1 ∧ OneLine header.2) ∧ r.body.length < 2 ^ 64) →
      messages.flatten = (responses.map HttpResponse.toString).flatten →
      (∀ handed response, ∃ more, collect handed response = .ok more) →
      ∃ more', httpClient.streamAll collect fresh messages true [] =
        .returned responses.length fresh more' (responses.map HttpResponse.toString) := by
  intro hsplits
  let r : HttpResponse := ⟨200, ascii "OK", [], .empty, ascii "\r\n\r\n"⟩
  obtain ⟨more', hmore⟩ := hsplits [r] [r.toString] (fun _ _ => .ok true) (by decide) (by decide)
    fun _ _ => ⟨true, rfl⟩
  have htwo : (httpClient.streamAll (fun _ _ => .ok true) fresh [r.toString] true []) =
      .returned 2 fresh true [ascii "\r\n\r\n", ascii " 200 OK\r\nContent-Length: 0\r\n\r\n"] := by
    decide
  rw [htwo] at hmore
  cases hmore

end HttpClient

end PrimeServer
