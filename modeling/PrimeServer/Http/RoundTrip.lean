import PrimeServer.Http.Endings
import PrimeServer.Http.Forwarding
import PrimeServer.Http.Passes

/-!
# Round trips

What `generic` and `to_string` write, `from_string` reads. The headers of a response are compared without
regard to case when they are read, and with regard to case when they are written.

## Main results

* `HttpResponse.roundTrips_iff`: a response comes back as it was exactly if each header that is a
  `Content-Length` in some spelling is spelled so or has the right value;
* `HttpRequest.fromString_toString`: a request with a query comes back as it was.
-/

namespace PrimeServer

open Chunking Delimiter

/-! ### Responses -/

/-- `http_response_t::from_string`. The outer `none` stands for a loop that does not end. -/
def HttpResponse.fromString (start : Bytes) : Option (Except StdException HttpResponse) :=
  match ResponseParser.fromStream .fresh start with
  | .returned [] _ => some (.error (.runtimeError "Incomplete http request"))
  | .returned (response :: _) _ => some (.ok response)
  | .threw e _ => some (.error e)
  | .diverged => none

/-- A text on one line has no line break in it. -/
theorem OneLine.silent {s : Bytes} (h : OneLine s) : Silent crlf s :=
  silent_of_disjoint crlf_ne_nil (oneLine_iff.mp h)

/-- A header that a response parser reads back from its line. -/
structure IsResponseHeader (e : Bytes × Bytes) : Prop where
  /-- The name does not end the line. -/
  name : OneLine e.1
  /-- The name ends at the first colon with a space. -/
  separator : ¬ ascii ": " <:+: e.1
  /-- The value goes up to the line end. -/
  value : OneLine e.2

/-- The separator of a header has a blank in it, so that it is in no name without blanks. -/
theorem not_infix_of_blankless {name : Bytes} (h : byte ' ' ∉ name) : ¬ ascii ": " <:+: name :=
  fun hinside => h (hinside.subset (by decide))

/-- A header line has its line break only at its end. -/
theorem IsResponseHeader.silent {e : Bytes × Bytes} (h : IsResponseHeader e) :
    Silent crlf (e.1 ++ ascii ": " ++ e.2) := by
  have hseparator : OneLine (ascii ": ") := by decide
  exact ((h.name.append hseparator).append h.value).silent

/-- The separator is found at the end of the name. -/
theorem splitAtSeparator_append {name : Bytes} (h : ¬ ascii ": " <:+: name) (value : Bytes) :
    splitAtSeparator (ascii ": ") (name ++ ascii ": " ++ value) = some (name, value) := by
  induction name with
  | nil => rfl
  | cons b name ih =>
    have hrest : ¬ ascii ": " <:+: name := fun hinside => h (hinside.trans (List.suffix_cons b name).isInfix)
    have hnot : (ascii ": ").isPrefixOf (b :: (name ++ ascii ": " ++ value)) = false := by
      rw [Bool.eq_false_iff, ne_eq, List.isPrefixOf_iff_prefix]
      rintro ⟨after, hafter⟩
      -- the separator would begin with the last character of the name, or lie in it
      cases name with
      | nil => exact absurd (by simpa [ascii] using hafter) (show ¬ (byte ':' = b ∧ byte ' ' = byte ':' ∧
          after = byte ' ' :: value) from fun h => absurd h.2.1 (by decide))
      | cons c name =>
        obtain ⟨rfl, rfl, -⟩ : byte ':' = b ∧ byte ' ' = c ∧ after = name ++ ascii ": " ++ value := by
          simpa [ascii] using hafter
        exact h ⟨[], name, rfl⟩
    simp only [List.cons_append] at ih ⊢
    rw [splitAtSeparator, hnot, ih hrest]
    rfl

namespace ResponseParser

variable {code : ℕ} {message version body : Bytes} {fields : ResponseFields} {headers : Headers}

/-- A turn of the loop on a token whose bytes are there. -/
theorem passes_of_token (state : EntityState) (fields : ResponseFields) (version : Bytes)
    (headers : Headers) (body : Bytes) (consumed : ℕ) (data : Bytes) {w : Bytes}
    (hw : Silent (delimiterOf state) w) (hd : delimiterOf state ≠ [] ∨ w = [])
    {emitted : Option HttpResponse} {next : ℕ → ResponseParser}
    (h : ∀ n, Advances
      { Parser.starting delimiterOf state fields version headers body 0 n with
        partialBuffer := data ++ w } emitted (next n)) (rest : Bytes) :
    ∃ n, grammar.Passes (.starting delimiterOf state fields version headers body data.length consumed)
      (data ++ (w ++ (delimiterOf state ++ rest))) emitted.toList (next n).clearBuffer rest :=
  Grammar.passes_starting delimiterOf state fields version headers body consumed data hw hd
    (fun _ => rfl) (fun n => token_eq_next_iff.mpr (h n)) rest

/-- The first line of a response. -/
theorem passes_statusLine (hversion : version ∈ supportedVersions) (hcode : code < 2 ^ 16)
    (hmessage : OneLine message) (rest : Bytes) :
    ∃ n, grammar.Passes fresh
      (version ++ ascii " " ++ decimal code ++ ascii " " ++ message ++ crlf ++ rest) []
      (.starting delimiterOf .headers ⟨code, message⟩ version .empty [] 0 n) rest := by
  have hblank : ascii " " ≠ [] := by decide
  have hsilentVersion : Silent (ascii " ") version := by
    refine silent_of_disjoint hblank ?_
    revert version
    decide
  -- a number in decimal has no blank
  have hsilentCode : Silent (ascii " ") (decimal code) := by
    refine silent_of_disjoint hblank fun b hb hmem => ?_
    obtain rfl : b = byte ' ' := by simpa [ascii] using hmem
    exact absurd (mem_decimal hb) (by decide)
  have hread : stoul 10 (decimal code) = .ok code := stoul_decimal (Nat.lt_trans hcode (by decide))
  obtain ⟨n₁, h₁⟩ := passes_of_token .version ⟨0, []⟩ [] .empty [] 0 [] hsilentVersion (Or.inl hblank)
    (fun n => Advances.version rfl hversion) (decimal code ++ (ascii " " ++ (message ++ (crlf ++ rest))))
  obtain ⟨n₂, h₂⟩ := passes_of_token .code ⟨0, []⟩ version .empty [] n₁ [] hsilentCode (Or.inl hblank)
    (fun n => Advances.code rfl hread) (message ++ (crlf ++ rest))
  obtain ⟨n₃, h₃⟩ := passes_of_token .message ⟨code % 2 ^ 16, []⟩ version .empty [] n₂ [] hmessage.silent
    (Or.inl crlf_ne_nil) (fun n => Advances.message rfl) rest
  have hpasses := (h₁.trans h₂).trans h₃
  rw [Nat.mod_eq_of_lt hcode] at hpasses
  refine ⟨n₃, ?_⟩
  simp only [List.append_assoc]
  exact hpasses

/-- The header lines of a response. -/
theorem passes_headerLines (fields : ResponseFields) (version : Bytes) {l : List (Bytes × Bytes)}
    (hl : ∀ e ∈ l, IsResponseHeader e) (headers : Headers) (consumed : ℕ) (rest : Bytes) :
    ∃ n, grammar.Passes (.starting delimiterOf .headers fields version headers [] 0 consumed)
      ((l.flatMap fun (name, value) => headerLine name value) ++ rest) []
      (.starting delimiterOf .headers fields version (headers.insertAll l) [] 0 n) rest := by
  induction l generalizing headers consumed with
  | nil => exact ⟨consumed, .refl _ _⟩
  | cons e l ih =>
    obtain ⟨name, value⟩ := e
    obtain ⟨hheader, hrest⟩ := List.forall_mem_cons.mp hl
    have hsplit := splitAtSeparator_append hheader.separator value
    have hne : name ++ ascii ": " ++ value ≠ [] := by simp [ascii]
    obtain ⟨n₁, h₁⟩ := passes_of_token .headers fields version headers [] consumed [] hheader.silent
      (Or.inl crlf_ne_nil) (fun n => Advances.header (.inl rfl) hne hsplit)
      ((l.flatMap fun (name, value) => headerLine name value) ++ rest)
    obtain ⟨n₂, h₂⟩ := ih hrest (headers.insert name value) n₁
    refine ⟨n₂, ?_⟩
    have hcursor : ((name, value) :: l).flatMap (fun (name, value) => headerLine name value) ++ rest =
        [] ++ ((name ++ ascii ": " ++ value) ++
          (crlf ++ ((l.flatMap fun (name, value) => headerLine name value) ++ rest))) := by
      simp [headerLine]
    rw [hcursor]
    exact h₁.trans h₂

/-- Nothing is left after a response. -/
theorem reads_emitted (p : ResponseParser) :
    grammar.Reads (flushStream p).clearBuffer [] (.returned [] (flushStream p)) := by
  have hsuspended : (flushStream p).clearBuffer.suspended [] = flushStream p := rfl
  have hc : ¬ (flushStream p).clearBuffer.Complete [] := by
    rintro ⟨-, hprogress⟩
    exact absurd (show (ascii " ").length ≤ 0 from hprogress) (by decide)
  rw [← hsuspended]
  exact .of_stops (.suspended rfl hc rfl)

/-- The announced length is that of the body. -/
theorem reads_sized (fields : ResponseFields) (version : Bytes) (consumed : ℕ) {value : Bytes}
    (hfind : headers.find (ascii "Content-Length") = some value) (hn : stoul 10 value = .ok body.length) :
    ∃ q, grammar.Reads (.starting delimiterOf .headers fields version headers [] 0 consumed)
      (crlf ++ body)
      (.returned [⟨fields.code, fields.message, body, headers, version⟩] (flushStream q)) := by
  -- the blank line, and then as many bytes as it announces, in front of an empty delimiter
  obtain ⟨n₁, h₁⟩ := passes_of_token .headers fields version headers [] consumed [] (silent_nil crlf)
    (Or.inl crlf_ne_nil) (fun _ => Advances.sized rfl rfl hfind hn) (body ++ ([] ++ ([] ++ [])))
  have hbody : ∀ n, ∃ q, Advances
      { Parser.starting delimiterOf .body fields version headers [] 0 n with partialBuffer := body ++ [] }
      (some ⟨fields.code, fields.message, body, headers, version⟩) (flushStream q) := by
    intro n
    rw [List.append_nil]
    exact ⟨_, Advances.body rfl⟩
  choose next hnext using hbody
  obtain ⟨n₂, h₂⟩ := passes_of_token .body fields version headers [] n₁ body (silent_nil [])
    (Or.inr rfl) hnext []
  refine ⟨next n₂, ?_⟩
  have hreads := h₁.trans h₂ _ (reads_emitted (next n₂))
  have hcursor : crlf ++ body = [] ++ ([] ++ (crlf ++ (body ++ ([] ++ ([] ++ []))))) := by simp
  rw [hcursor]
  exact hreads

/-- A loop that hands out a response starts with a complete token. -/
theorem exists_advances_of_reads {p q : ResponseParser} {cursor : Bytes} {response : HttpResponse}
    {later : List HttpResponse} (h : grammar.Reads p cursor (.returned (response :: later) q)) :
    ∃ emitted s r, Advances (p.completed cursor) emitted s ∧
      grammar.Reads s.clearBuffer (p.search cursor).rest r ∧
        r.prepend emitted.toList = .returned (response :: later) q := by
  obtain ⟨-, emitted, s, r, htoken, hrest⟩ := Grammar.exists_token_of_reads h
  exact ⟨emitted, s, r, token_eq_next_iff.mp htoken, hrest⟩

/-- Where a length is announced, what is read after the blank line has the headers in front of it. -/
theorem headers_of_reads {consumed : ℕ} {value : Bytes} {response : HttpResponse} {q : ResponseParser}
    (hfind : headers.find (ascii "Content-Length") = some value)
    (h : grammar.Reads (.starting delimiterOf .headers fields version headers [] 0 consumed)
      (crlf ++ body) (.returned [response] q)) : response.headers = headers := by
  obtain ⟨emitted, s, r, hadvances, hreads, hr⟩ := exists_advances_of_reads h
  obtain ⟨n, hcompleted⟩ := Parser.completed_token (Parser.atToken_starting delimiterOf .headers fields
    version headers [] 0 consumed) (show ([] : Bytes).length = 0 from rfl) (silent_nil crlf)
    (Or.inl crlf_ne_nil) body
  simp only [List.nil_append] at hcompleted
  replace hcompleted : (Parser.starting delimiterOf .headers fields version headers [] 0 consumed).completed
    (crlf ++ body) = _ := hcompleted
  rw [hcompleted] at hadvances
  cases hadvances with
  | version hs | code hs | message hs | trailed hs | body hs | chunkLength hs | chunk hs => cases hs
  | header _ hne => exact absurd rfl hne
  | plain _ _ hnone | chunked _ _ hnone =>
    -- a length is announced
    have hnone : headers.find (ascii "Content-Length") = none := hnone
    rw [hfind] at hnone
    cases hnone
  | sized =>
    -- the body comes next, whatever its length
    rw [Option.toList_none, Reading.prepend_nil] at hr
    subst hr
    obtain ⟨emitted, s, r, hadvances, -, hr⟩ := exists_advances_of_reads hreads
    cases hadvances with
    | version hs | code hs | message hs | sized hs | chunked hs | plain hs | trailed hs | chunkLength hs
      | chunk hs => cases hs
    | header hs => rcases hs with hs | hs <;> cases hs
    | body =>
      obtain ⟨later, -, hresponses⟩ := Reading.prepend_eq_returned.mp hr
      obtain ⟨rfl, -⟩ := List.cons.inj hresponses
      rfl

end ResponseParser

namespace HttpResponse

/-- The header is the length of the body, in some spelling. -/
def IsLength (e : Bytes × Bytes) : Prop := caseless e.1 = caseless (ascii "Content-Length")

instance : DecidablePred IsLength := fun _ => inferInstanceAs (Decidable (_ = _))

/-- The response came back with the length of its body in the headers. -/
structure Returned (r r' : HttpResponse) : Prop where
  code : r'.code = r.code
  message : r'.message = r.message
  version : r'.version = r.version
  body : r'.body = r.body
  /-- The length is announced as it is. -/
  length : r'.headers.find (ascii "Content-Length") = some (decimal r.body.length)
  /-- The other headers come back as they were, in some order. -/
  others : (r'.headers.entries.filter (¬ IsLength ·)).Perm (r.headers.entries.filter (¬ IsLength ·))

/-- The text of a response is read as one response, which is the same, and nothing of it is left. -/
def RoundTrips (r : HttpResponse) : Prop :=
  ∃ r' p, fromString (generic r.code r.message r.headers r.body r.version) = some (.ok r') ∧
    ResponseParser.fromStream .fresh (generic r.code r.message r.headers r.body r.version) =
      .returned [r'] p ∧
    p.partialBuffer = [] ∧ p.state = .version ∧ r.Returned r'

variable {r : HttpResponse}

/-- The headers that are written as they are. -/
def kept (r : HttpResponse) : List (Bytes × Bytes) :=
  r.headers.entries.filter (·.1 ≠ ascii "Content-Length")

/-- The headers that are read: of two spellings of the length the first one counts. -/
def readHeaders (r : HttpResponse) : Headers :=
  AssocMap.empty.insertAll (r.kept ++ [(ascii "Content-Length", decimal r.body.length)])

/-- The text of a response, line by line. -/
theorem generic_eq (r : HttpResponse) :
    generic r.code r.message r.headers r.body r.version =
      r.version ++ ascii " " ++ decimal r.code ++ ascii " " ++ r.message ++ crlf ++
        ((r.kept ++ [(ascii "Content-Length", decimal r.body.length)]).flatMap
          (fun (name, value) => headerLine name value) ++ (crlf ++ r.body)) := by
  -- leaving a line out while writing is leaving its header out before
  have hkept : (r.headers.entries.flatMap fun (name, value) =>
      if name = ascii "Content-Length" then [] else headerLine name value) =
        r.kept.flatMap fun (name, value) => headerLine name value := by
    unfold kept
    induction r.headers.entries with
    | nil => rfl
    | cons e l ih =>
      by_cases he : e.1 = ascii "Content-Length" <;> simp [he, ih]
  have hlength : ascii "Content-Length: " = ascii "Content-Length" ++ ascii ": " := by decide
  rw [generic, hkept, hlength]
  simp [headerLine]

/-- The length that `to_string` writes is a header that can be read back. -/
theorem isResponseHeader_contentLength (n : ℕ) :
    IsResponseHeader (ascii "Content-Length", decimal n) where
  name := show OneLine (ascii "Content-Length") by decide
  separator := not_infix_of_blankless (show byte ' ' ∉ ascii "Content-Length" by decide)
  value := by
    have hbytes : ∀ b ∈ crlf, ¬ (48 ≤ b ∧ b ≤ 57) := by decide
    exact oneLine_iff.mpr fun b hb hmem => hbytes b hmem (mem_decimal hb)

/-- The headers that are kept are the entries of the map that the parser builds of them. -/
theorem entries_kept (r : HttpResponse) :
    ((AssocMap.empty : Headers).insertAll r.kept).entries = r.kept := by
  have hnodup : (AssocMap.keys caseless ((AssocMap.empty : Headers).entries ++ r.kept)).Nodup :=
    r.headers.nodup.sublist (List.filter_sublist.map _)
  rw [AssocMap.entries_insertAll hnodup]
  rfl

/-- The parser reads the headers that were kept, and the length, which comes last. -/
theorem readHeaders_eq (r : HttpResponse) :
    r.readHeaders =
      (AssocMap.empty.insertAll r.kept).insert (ascii "Content-Length") (decimal r.body.length) := by
  simp [readHeaders, AssocMap.insertAll]

/-- Another spelling of the length stands in front of the one that is written. -/
theorem find_readHeaders_of_mem {e : Bytes × Bytes} (he : e ∈ r.headers.entries) (hlength : IsLength e)
    (hname : e.1 ≠ ascii "Content-Length") :
    r.readHeaders.find (ascii "Content-Length") = some e.2 := by
  have hmem : (e.1, e.2) ∈ ((AssocMap.empty : Headers).insertAll r.kept).entries := by
    rw [entries_kept]
    exact List.mem_filter.mpr ⟨he, by simpa using hname⟩
  have hfind := AssocMap.find_of_mem hmem hlength
  rw [readHeaders_eq, AssocMap.find_insert, if_pos rfl, hfind, Option.getD_some]

/-- The length that is written is read if each other spelling of it is right. -/
theorem find_readHeaders (h : ∀ e ∈ r.headers.entries, IsLength e →
      e.1 = ascii "Content-Length" ∨ e.2 = decimal r.body.length) :
    r.readHeaders.find (ascii "Content-Length") = some (decimal r.body.length) := by
  rw [readHeaders_eq, AssocMap.find_insert, if_pos rfl]
  cases hfind : ((AssocMap.empty : Headers).insertAll r.kept).find (ascii "Content-Length") with
  | none => rfl
  | some value =>
    obtain ⟨name, hname, hmem⟩ := AssocMap.mem_entries_of_find hfind
    rw [entries_kept] at hmem
    obtain ⟨hmem, hother⟩ := List.mem_filter.mp hmem
    obtain hsame | hvalue := h _ hmem hname
    · exact absurd hsame (by simpa using hother)
    · exact congrArg some hvalue

/-- The other headers are read as they are. -/
theorem others_readHeaders (r : HttpResponse) :
    r.readHeaders.entries.filter (¬ IsLength ·) = r.headers.entries.filter (¬ IsLength ·) := by
  have hkept : r.kept.filter (¬ IsLength ·) = r.headers.entries.filter (¬ IsLength ·) := by
    rw [kept, List.filter_filter]
    refine List.filter_congr fun e _ => ?_
    by_cases hname : e.1 = ascii "Content-Length"
    · simp [IsLength, hname]
    · simp [hname]
  rw [readHeaders_eq]
  by_cases hmem : caseless (ascii "Content-Length") ∈
      AssocMap.keys caseless ((AssocMap.empty : Headers).insertAll r.kept).entries
  · rw [AssocMap.insert_of_mem hmem, entries_kept, hkept]
  · rw [AssocMap.entries_insert_of_not_mem hmem, entries_kept, List.filter_append, hkept]
    simp [IsLength]

/-- A response comes back as it was, with the length of its body in the headers, exactly if each header
that is a length is spelled `Content-Length` or has the right value. -/
theorem roundTrips_iff (hversion : r.version ∈ supportedVersions) (hcode : r.code < 2 ^ 16)
    (hmessage : OneLine r.message) (hheaders : ∀ e ∈ r.headers.entries, IsResponseHeader e)
    (hbody : r.body.length < 2 ^ 64) :
    RoundTrips r ↔ ∀ e ∈ r.headers.entries, caseless e.1 = caseless (ascii "Content-Length") →
      e.1 = ascii "Content-Length" ∨ e.2 = decimal r.body.length := by
  have hlines : ∀ e ∈ r.kept ++ [(ascii "Content-Length", decimal r.body.length)],
      IsResponseHeader e := by
    intro e he
    rcases List.mem_append.mp he with he | he
    · exact hheaders e (List.mem_of_mem_filter he)
    · rw [List.mem_singleton.mp he]
      exact isResponseHeader_contentLength _
  obtain ⟨n₁, h₁⟩ := ResponseParser.passes_statusLine hversion hcode hmessage
    ((r.kept ++ [(ascii "Content-Length", decimal r.body.length)]).flatMap
      (fun (name, value) => headerLine name value) ++ (crlf ++ r.body))
  obtain ⟨n₂, h₂⟩ := ResponseParser.passes_headerLines ⟨r.code, r.message⟩ r.version hlines .empty n₁
    (crlf ++ r.body)
  have hpasses := h₁.trans h₂
  rw [← generic_eq] at hpasses
  have hne : generic r.code r.message r.headers r.body r.version ≠ [] := by simp [generic, ascii]
  have hreads := fun result => ResponseParser.grammar_lawful.fromStream_eq_iff_reads
    ResponseParser.wellFormed_fresh hne (r := result)
  constructor
  · rintro ⟨r', p, -, hstream, -, -, hreturned⟩ e he hlength
    by_contra hwrong
    obtain ⟨hname, hvalue⟩ := not_or.mp hwrong
    -- the headers that came back are those in front of the blank line
    have hfind := find_readHeaders_of_mem he hlength hname
    obtain ⟨result, hrest, hresult⟩ := hpasses.reads_rest ResponseParser.grammar_lawful
      (Parser.wellFormed_starting _ _ _ _ _ _ _ _) (by simp [crlf_ne_nil]) ((hreads _).mp hstream)
    rw [List.append_nil, Reading.prepend_nil] at hresult
    subst hresult
    have hheaders' : r'.headers = r.readHeaders := ResponseParser.headers_of_reads hfind hrest
    have hlength' := hreturned.length
    rw [hheaders', hfind] at hlength'
    exact hvalue (Option.some.inj hlength')
  · intro hspelled
    have hfind := find_readHeaders hspelled
    obtain ⟨q, hrest⟩ := ResponseParser.reads_sized ⟨r.code, r.message⟩ r.version n₂ hfind
      (stoul_decimal hbody)
    have hstream := (hreads _).mpr (hpasses _ hrest)
    simp only [List.append_nil, Reading.prepend_nil] at hstream
    change ResponseParser.fromStream .fresh _ = _ at hstream
    refine ⟨_, _, ?_, hstream, rfl, rfl, rfl, rfl, rfl, rfl, hfind, ?_⟩
    · rw [fromString, hstream]
    · exact .of_eq (others_readHeaders r)

/-- A response with one header. -/
def oneHeader (name value body : String) : HttpResponse where
  code := 200
  message := ascii "OK"
  body := ascii body
  headers := AssocMap.empty.insert (ascii name) (ascii value)
  version := ascii "HTTP/1.1"

/-- A response with one header whose name has no blanks can be read back. -/
theorem isResponseHeader_oneHeader {name value : String} (body : String) (hname : OneLine (ascii name))
    (hblank : byte ' ' ∉ ascii name) (hvalue : OneLine (ascii value)) :
    ∀ e ∈ (oneHeader name value body).headers.entries, IsResponseHeader e := by
  intro e he
  obtain rfl : e = (ascii name, ascii value) := List.mem_singleton.mp he
  exact ⟨hname, not_infix_of_blankless hblank, hvalue⟩

/-- A length in lower case that is right. -/
theorem roundTrips_lowerCase : RoundTrips (oneHeader "content-length" "5" "hello") :=
  (roundTrips_iff (by decide) (by decide) (by decide)
    (isResponseHeader_oneHeader _ (by decide) (by decide) (by decide)) (by decide)).mpr (by decide)

/-- A length in lower case that is too small: the client reads a part of the body, and takes the rest for
the beginning of another response. -/
theorem not_roundTrips :
    ¬ ∀ r : HttpResponse, r.version ∈ supportedVersions → r.code < 2 ^ 16 → OneLine r.message →
      (∀ e ∈ r.headers.entries, IsResponseHeader e) → r.body.length < 2 ^ 64 → RoundTrips r := by
  intro h
  obtain ⟨r', p, hread, -, -, -, hreturned⟩ := h (oneHeader "content-length" "3" "hello") (by decide)
    (by decide) (by decide) (isResponseHeader_oneHeader _ (by decide) (by decide) (by decide)) (by decide)
  have hpart : fromString (generic 200 (ascii "OK") (oneHeader "content-length" "3" "hello").headers
      (ascii "hello") (ascii "HTTP/1.1")) = some (.ok (oneHeader "content-length" "3" "hel")) := by decide
  obtain rfl : oneHeader "content-length" "3" "hel" = r' := by simpa using hpart.symm.trans hread
  exact absurd hreturned.body (by decide)

end HttpResponse

/-! ### Requests -/

/-- A header of which a request parser reads the value that was written. -/
theorem isHeader_of_oneLine {name value : Bytes} (hcolon : byte ':' ∉ name) (hname : OneLine name)
    (hblank : value.head? ≠ some (byte ' ')) (hvalue : OneLine value) : IsHeader (name, value) where
  name := hcolon
  value := by
    cases value with
    | nil => rfl
    | cons b value =>
      have hb : b ≠ byte ' ' := by simpa using hblank
      exact List.dropWhile_cons_of_neg (by simpa using hb)
  silent := by
    have hseparator : OneLine (ascii ": ") := by decide
    exact ((hname.append hseparator).append hvalue).silent

namespace HttpRequest

/-- `from_string` hands out the first request that the parser finds. -/
theorem fromString_of_returned {curl : Curl} {start : Bytes} {r : HttpRequest} {later : List HttpRequest}
    {q : RequestParser} (h : RequestParser.fromStream curl .fresh sizeMax start = .returned (r :: later) q) :
    fromString curl start = some (.ok r) := by
  rw [fromString, h]

/-- A request with a query comes back as it was, with the length of its body in the headers where it has
one. -/
theorem fromString_toString {curl : Curl} {r : HttpRequest} (hcurl : curl.Undoes r.pathQuery)
    (hversion : r.version ∈ supportedVersions) (htarget : IsTarget r.path r.query)
    (hquery : r.query.entries ≠ []) (hheaders : ∀ e ∈ r.headers.entries, IsHeader e)
    (hchunked : r.headers.find (ascii "Transfer-Encoding") ≠ some (ascii "chunked"))
    (hlength : ∀ value, r.headers.find (ascii "Content-Length") = some value →
      stoul 10 value = .ok r.body.length)
    (hbody : r.body.length < 2 ^ 64) :
    ∃ text r', r.toString curl = .ok text ∧ fromString curl text = some (.ok r') ∧
      r'.method = r.method ∧ r'.path = r.path ∧ r'.query.Same r.query ∧ r'.body = r.body ∧
        r'.version = r.version ∧ r'.headers.Same r.sentHeaders := by
  have hframed : Framed r.headers r.body := by
    unfold Framed
    cases hfind : r.headers.find (ascii "Content-Length") with
    | some value => exact hlength value hfind
    | none => exact fun _ => hchunked
  obtain ⟨text, logLine, q, htext, hstream⟩ := fromStream_toString hcurl hversion htarget hheaders
    ((framed_sentHeaders_iff hbody).mpr hframed)
  refine ⟨text, _, htext, fromString_of_returned hstream, rfl, rfl, ?_, rfl, rfl, .refl _⟩
  simp only [if_pos hquery]
  exact .refl _

/-- Separators in the path, in the values and in the body. -/
def separators : HttpRequest where
  method := .post
  path := ascii "/a&b=c"
  query := AssocMap.empty.insertAll [(ascii "k", [ascii "v=?w", []]), ([], [[]])]
  body := ascii "1\r\n\r\n"
  headers := AssocMap.empty.insert (ascii "Host") (ascii "a:1 ")
  version := ascii "HTTP/1.0"
  logLine := []

/-- `fromString_toString` for a request with separators in its path, its parameters and its header. -/
theorem fromString_toString_separators :
    ∃ text r', separators.toString .percent = .ok text ∧ fromString .percent text = some (.ok r') ∧
      r'.method = separators.method ∧ r'.path = separators.path ∧
        r'.query.Same separators.query ∧ r'.body = separators.body ∧
        r'.version = separators.version ∧ r'.headers.Same separators.sentHeaders := by
  have hreadable : separators.query.IsReadable := by
    unfold Query.IsReadable IsParameter
    decide
  have hheaders : ∀ e ∈ separators.headers.entries, IsHeader e := by
    intro e he
    obtain rfl : e = (ascii "Host", ascii "a:1 ") := List.mem_singleton.mp he
    exact isHeader_of_oneLine (by decide) (by decide) (by decide) (by decide)
  exact fromString_toString (Curl.percent_documented.undoes (by decide) (by decide)) (by decide)
    ⟨by decide, by decide, hreadable⟩ (by decide) hheaders (by decide) (by decide) (by decide)

/-- A request that is read as it was written. -/
structure Readable (r : HttpRequest) : Prop where
  /-- Its lines can be read back. -/
  isRequest : IsRequest r
  /-- There is a query: without one `split_path_query` would make one of the path. -/
  query : r.query.entries ≠ []
  /-- The headers announce the body that it has. -/
  framed : Framed r.sentHeaders r.body
  /-- The escaped path fits the `int` that libcurl takes. -/
  short : (percentEncode r.pathQuery).length < 2 ^ 31

/-- Its text is read as one request, but for the first line that is kept for the log. -/
theorem Readable.exists_oneMessage {curl : Curl} {r : HttpRequest} (h : r.Readable) (hcurl : curl.Documented) :
    ∃ text logLine, r.toString curl = .ok text ∧
      OneMessage .method (RequestParser.fromStream curl .fresh sizeMax text)
        { r with headers := r.sentHeaders, logLine } := by
  have hundoes := hcurl.undoes (zero_not_mem_pathQuery h.isRequest.target) h.short
  obtain ⟨text, logLine, q, htext, hstream⟩ :=
    fromStream_toString hundoes h.isRequest.version h.isRequest.target h.isRequest.headers h.framed
  rw [if_pos h.query] at hstream
  exact ⟨text, logLine, htext, _, hstream, rfl, rfl⟩

/-- A length that was added is not added again. -/
theorem sentHeaders_sentHeaders (r : HttpRequest) (logLine : Bytes) :
    ({ r with headers := r.sentHeaders, logLine } : HttpRequest).sentHeaders = r.sentHeaders := by
  have hdone : ¬(r.body ≠ [] ∧ r.sentHeaders.find (ascii "Content-Length") = none) := by
    rintro ⟨hbody, hnone⟩
    exact hbody (body_eq_nil_of_sentHeaders hnone)
  exact if_neg hdone

/-- What was read is written as what it was read from. -/
theorem toString_sentHeaders (curl : Curl) (r : HttpRequest) (logLine : Bytes) :
    ({ r with headers := r.sentHeaders, logLine } : HttpRequest).toString curl = r.toString curl := by
  have hlines := headerLines_lengthAndBody ({ r with headers := r.sentHeaders, logLine } : HttpRequest)
  rw [sentHeaders_sentHeaders, ← headerLines_lengthAndBody r] at hlines
  have hpathQuery : ({ r with headers := r.sentHeaders, logLine } : HttpRequest).pathQuery = r.pathQuery := rfl
  unfold toString
  rw [hpathQuery]
  simp only [List.append_assoc, hlines]

end HttpRequest

end PrimeServer
