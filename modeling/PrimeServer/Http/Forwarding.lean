import PrimeServer.Http.Cuts
import PrimeServer.Http.Emitted
import PrimeServer.Http.Passes
import PrimeServer.Http.Percent

/-!
# Forwarding

The server writes each request that it parsed with `to_string`, and a worker parses it again with
`from_string`. The maps of a request are written in their iteration order, which may be any order.

## Main results

* `forwarded_iff`: the worker gets what the server had exactly if the path is empty or the query is not,
  and the headers announce the body that is there.
-/

namespace PrimeServer

open Chunking Delimiter

namespace HttpRequest

/-- The same request with its maps in another iteration order. -/
structure SameAs (r r₁ : HttpRequest) : Prop where
  method : r₁.method = r.method
  path : r₁.path = r.path
  /-- The same keys and values, in any order of the keys. -/
  query : r₁.query.Same r.query
  body : r₁.body = r.body
  /-- The same names and values, in any order of the names. -/
  headers : r₁.headers.Same r.headers
  version : r₁.version = r.version

/-- A request is the same as itself in any order of its maps. -/
theorem SameAs.refl (r : HttpRequest) : r.SameAs r where
  method := rfl
  path := rfl
  query := .refl r.query
  body := rfl
  headers := .refl r.headers
  version := rfl

/-- A request with at most one header and at most one parameter name is written in one way only. -/
theorem SameAs.toString_eq {r r₁ : HttpRequest} (h : r.SameAs r₁) (hquery : r.query.entries.length ≤ 1)
    (hheaders : r.headers.entries.length ≤ 1) (curl : Curl) : r₁.toString curl = r.toString curl := by
  obtain ⟨method, path, query, body, headers, version, logLine⟩ := r₁
  obtain ⟨rfl, rfl, hsameQuery, rfl, hsameHeaders, rfl⟩ := h
  obtain rfl := hsameQuery.eq_of_length_le_one hquery
  obtain rfl := hsameHeaders.eq_of_length_le_one hheaders
  rfl

/-- The headers that `to_string` writes. -/
def sentHeaders (r : HttpRequest) : Headers :=
  if r.body ≠ [] ∧ r.headers.find (ascii "Content-Length") = none then
    r.headers.insert (ascii "Content-Length") (decimal r.body.length)
  else r.headers

/-- The headers do not announce anything but the body that is there. A missing length is added where
there is a body. -/
def Framed (headers : Headers) (body : Bytes) : Prop :=
  match headers.find (ascii "Content-Length") with
  | some value => stoul 10 value = .ok body.length
  | none => body = [] → headers.find (ascii "Transfer-Encoding") ≠ some (ascii "chunked")

/-- A worker got the request, with a `Content-Length` header perhaps added. -/
structure Received (r r' : HttpRequest) : Prop where
  method : r'.method = r.method
  path : r'.path = r.path
  /-- The same keys and values, in any order of the keys. -/
  query : r'.query.Same r.query
  body : r'.body = r.body
  version : r'.version = r.version
  /-- The same names and values, in any order of the names, or with the length that `to_string` adds to a body. -/
  headers : r'.headers.Same r.headers ∨
    r.headers.find (ascii "Content-Length") = none ∧
      r'.headers.Same (r.headers.insert (ascii "Content-Length") (decimal r.body.length))

end HttpRequest

open HttpRequest

/-- The text that is written for a request, with its maps in some order, is read by `from_string` as that
request, and nothing of the text is left over. -/
def Forwarded (curl : Curl) (r r₁ : HttpRequest) : Prop :=
  ∃ text r' p, r₁.toString curl = .ok text ∧ fromString curl text = some (.ok r') ∧
    RequestParser.fromStream curl .fresh sizeMax text = .returned [r'] p ∧
      p.partialBuffer = [] ∧ p.state = .method ∧ r.Received r'

/-! ### The text -/

/-- libcurl escapes the text as unreserved characters and escape sequences, and gets it back. -/
def Curl.Undoes (curl : Curl) (s : Bytes) : Prop :=
  ∃ encoded, curl.escape s (toInt s.length) = some encoded ∧
    curl.unescape encoded (toInt encoded.length) = some s ∧
      ∀ b ∈ encoded, isUnreserved b ∨ b = byte '%'

/-- Escaped text is read and written as it is: it has no NUL and no blank in it. -/
theorem Curl.Undoes.exists_encoded {curl : Curl} {s : Bytes} (h : curl.Undoes s) (hzero : 0 ∉ s) :
    ∃ encoded, urlEncode curl s = .ok encoded ∧ urlDecode curl encoded = .ok s ∧
      Silent (ascii " ") encoded := by
  obtain ⟨encoded, hescape, hunescape, hbytes⟩ := h
  have hplain : 0 ∉ encoded := fun hmem => absurd (hbytes 0 hmem) (by decide)
  refine ⟨encoded, ?_, ?_, ?_⟩
  · rw [urlEncode, hescape]
    simp only [cString_eq_self hplain]
  · rw [urlDecode, hunescape]
    simp only [cString_eq_self hzero]
  · refine silent_of_disjoint (by decide) fun b hb hblank => ?_
    obtain rfl : b = byte ' ' := by simpa [ascii] using hblank
    exact absurd (hbytes _ hb) (by decide)

set_option maxRecDepth 4000 in
/-- Escaped text is made of unreserved characters and escape sequences. -/
private theorem unreserved_of_percentEncodeByte :
    ∀ b : UInt8, ∀ c ∈ percentEncodeByte b, isUnreserved c ∨ c = byte '%' :=
  forall_byte (by decide)

/-- Escaping makes no text shorter. -/
theorem length_le_percentEncode (s : Bytes) : s.length ≤ (percentEncode s).length := by
  induction s with
  | nil => simp
  | cons b s ih =>
    have hbyte : 1 ≤ (percentEncodeByte b).length := by
      unfold percentEncodeByte
      split_ifs <;> simp
    change s.length + 1 ≤ (percentEncodeByte b ++ percentEncode s).length
    rw [List.length_append]
    omega

/-- Escaping makes of each byte three at most. -/
theorem length_percentEncode_le (s : Bytes) : (percentEncode s).length ≤ 3 * s.length := by
  induction s with
  | nil => exact Nat.le_refl _
  | cons b s ih =>
    have hbyte : (percentEncodeByte b).length ≤ 3 := by
      unfold percentEncodeByte
      split_ifs <;> simp
    change (percentEncodeByte b ++ percentEncode s).length ≤ 3 * (s.length + 1)
    rw [List.length_append]
    omega

/-- What the documentation of libcurl promises is enough. -/
theorem Curl.Documented.undoes {curl : Curl} (hcurl : curl.Documented) {s : Bytes} (hzero : 0 ∉ s)
    (hlength : (percentEncode s).length < 2 ^ 31) : curl.Undoes s := by
  have hshort : s.length < 2 ^ 31 := Nat.lt_of_le_of_lt (length_le_percentEncode s) hlength
  refine ⟨percentEncode s, ?_, ?_, fun c hc => ?_⟩
  · rw [toInt_of_lt hshort, hcurl.escape s hzero hshort]
  · rw [toInt_of_lt hlength, hcurl.unescape s hzero hlength]
  · obtain ⟨b, -, hmem⟩ := List.mem_flatMap.mp hc
    exact unreserved_of_percentEncodeByte b c hmem

/-- With libcurl as documented, `url_encode` escapes a text without NUL. -/
theorem Curl.Documented.urlEncode {curl : Curl} (hcurl : curl.Documented) {s : Bytes} (hzero : 0 ∉ s)
    (hlength : (percentEncode s).length < 2 ^ 31) : urlEncode curl s = .ok (percentEncode s) := by
  have hshort : s.length < 2 ^ 31 := Nat.lt_of_le_of_lt (length_le_percentEncode s) hlength
  have hplain : 0 ∉ percentEncode s := by
    intro hmem
    obtain ⟨b, -, hb⟩ := List.mem_flatMap.mp hmem
    exact absurd (unreserved_of_percentEncodeByte b 0 hb) (by decide)
  rw [PrimeServer.urlEncode, toInt_of_lt hshort, hcurl.escape s hzero hshort]
  simp only [cString_eq_self hplain]

/-- The name of a method is written and read. -/
theorem exists_methodName (m : Method) : ∃ name, methodToString.lookup m = some name ∧
    stringToMethod.lookup name = some m ∧ Silent (ascii " ") name := by
  cases m <;> exact ⟨_, rfl, by decide, silent_of_disjoint (by decide) (by decide)⟩

/-- The length that `to_string` adds is a header like any other one. -/
theorem isHeader_contentLength (n : ℕ) : IsHeader (ascii "Content-Length", decimal n) where
  name := show byte ':' ∉ ascii "Content-Length" by decide
  value := by
    obtain ⟨b, bs, hcons⟩ := List.exists_cons_of_ne_nil (decimal_ne_nil n)
    have hb : 48 ≤ b ∧ b ≤ 57 := mem_decimal (hcons ▸ List.mem_cons_self)
    have hne : b ≠ byte ' ' := by
      rintro rfl
      exact absurd hb (by decide)
    simp only [hcons]
    rw [List.dropWhile_cons_of_neg (by simpa using hne)]
  silent := by
    have hname : ∀ b ∈ ascii "Content-Length" ++ ascii ": ", b ∉ crlf := by decide
    have hbytes : ∀ b ∈ crlf, ¬ (48 ≤ b ∧ b ≤ 57) := by decide
    refine silent_of_disjoint crlf_ne_nil fun b hb => ?_
    rcases List.mem_append.mp hb with hb | hb
    · exact hname b hb
    · exact fun hc => hbytes b hc (mem_decimal hb)

namespace HttpRequest

variable {r : HttpRequest}

/-- With the length that is added, all headers can be written and read. -/
theorem isHeader_sentHeaders (h : ∀ e ∈ r.headers.entries, IsHeader e) :
    ∀ e ∈ r.sentHeaders.entries, IsHeader e := by
  intro e he
  unfold sentHeaders at he
  split_ifs at he
  · rcases AssocMap.mem_entries_insert he with he | rfl
    · exact h e he
    · exact isHeader_contentLength _
  · exact h e he

/-- What is written after the first line: header lines, a blank line and the body. -/
theorem headerLines_lengthAndBody (r : HttpRequest) :
    headerLines r.headers ++ r.lengthAndBody = headerLines r.sentHeaders ++ (crlf ++ r.body) := by
  unfold lengthAndBody sentHeaders
  by_cases hbody : r.body = []
  · simp [hbody]
  · by_cases hfind : r.headers.find (ascii "Content-Length") = none
    · have hkey := AssocMap.find_eq_none_iff.mp hfind
      simp [hbody, hfind, headerLines, AssocMap.entries_insert_of_not_mem hkey]
    · simp [hbody, hfind]

/-! ### In another order -/

/-- A parameter after the other, each with a `&` behind it. -/
theorem renderParameters_append {l : List (Bytes × Bytes)} (hne : l ≠ []) :
    renderParameters l ++ ascii "&" = l.flatMap fun e => e.1 ++ ascii "=" ++ e.2 ++ ascii "&" := by
  induction l with
  | nil => exact absurd rfl hne
  | cons e l ih =>
    obtain ⟨key, value⟩ := e
    cases l with
    | nil => simp [renderParameters]
    | cons e' l =>
      have hlater := ih (List.cons_ne_nil e' l)
      rw [renderParameters, List.append_assoc, hlater]
      · rfl
      · exact List.cons_ne_nil e' l

/-- The parameters in another order are written with the same bytes. -/
theorem renderParameters_perm {l l' : List (Bytes × Bytes)} (h : l.Perm l') :
    (renderParameters l).Perm (renderParameters l') := by
  by_cases hne : l = []
  · subst hne
    rw [List.nil_perm.mp h]
  · have hne' : l' ≠ [] := fun hnil => hne (List.perm_nil.mp (hnil ▸ h))
    rw [← List.perm_append_right_iff (ascii "&"), renderParameters_append hne, renderParameters_append hne']
    exact h.flatMap_right _

/-- Whether there are any parameters does not depend on their order. -/
theorem SameAs.entries_eq_nil_iff {r₁ : HttpRequest} (h : r.SameAs r₁) :
    r₁.query.entries = [] ↔ r.query.entries = [] := by
  rw [← List.length_eq_zero_iff, ← List.length_eq_zero_iff, h.query.length_eq]

/-- Path and parameters are written with the same bytes in every order. -/
theorem SameAs.pathQuery_perm {r₁ : HttpRequest} (h : r.SameAs r₁) : r₁.pathQuery.Perm r.pathQuery := by
  unfold pathQuery
  rw [h.path]
  by_cases hnil : r.query.entries = []
  · rw [if_neg (not_not.mpr hnil), if_neg (not_not.mpr (h.entries_eq_nil_iff.mpr hnil))]
  · rw [if_pos hnil, if_pos fun hnil₁ => hnil (h.entries_eq_nil_iff.mp hnil₁)]
    exact (renderParameters_perm (h.query.flatMap_right _)).append_left _

/-- What is written for a request with its maps in another order are the same bytes in another order. -/
theorem SameAs.toString_perm {r₁ : HttpRequest} (h : r.SameAs r₁) {curl : Curl} (hcurl : curl.Documented)
    (hzero : 0 ∉ r.pathQuery) (hshort : (percentEncode r.pathQuery).length < 2 ^ 31) {text text₁ : Bytes}
    (htext : r.toString curl = .ok text) (htext₁ : r₁.toString curl = .ok text₁) : text₁.Perm text := by
  have hperm := h.pathQuery_perm
  have hlines : (headerLines r₁.headers ++ r₁.lengthAndBody).Perm (headerLines r.headers ++ r.lengthAndBody) := by
    have hlast : r₁.lengthAndBody = r.lengthAndBody := by
      simp only [lengthAndBody, h.body, h.headers.find_eq]
    rw [hlast]
    exact (h.headers.flatMap_right _).append_right _
  obtain ⟨method, hmethod, -, -⟩ := exists_methodName r.method
  have hzero₁ : 0 ∉ r₁.pathQuery := fun hmem => hzero (hperm.mem_iff.mp hmem)
  have hencoded : (percentEncode r₁.pathQuery).Perm (percentEncode r.pathQuery) := hperm.flatMap_right _
  have hshort₁ : (percentEncode r₁.pathQuery).length < 2 ^ 31 := by rwa [hencoded.length_eq]
  simp only [toString, hmethod, hcurl.urlEncode hzero hshort, Except.ok.injEq, List.append_assoc] at htext
  simp only [toString, h.method, h.version, hmethod, hcurl.urlEncode hzero₁ hshort₁, Except.ok.injEq,
    List.append_assoc] at htext₁
  rw [← htext, ← htext₁]
  exact (hencoded.append (((hlines.append_left _).append_left _).append_left _)).append_left _ |>.append_left _

end HttpRequest

/-! ### Reading the text -/

namespace RequestParser

/-- Between the tokens of a request without a body so far. -/
def expecting (state : EntityState) (fields : RequestFields) (version : Bytes) (headers : Headers)
    (consumed : ℕ) : RequestParser where
  version
  headers
  body := []
  delimiter := delimiterOf state
  partialBuffer := []
  partialLength := 0
  state
  bodyLength := 0
  consumed
  fields

/-- The loop gets from one parser to another one without handing out a request. -/
def Passes (curl : Curl) (p : RequestParser) (cursor : Bytes) (q : RequestParser) (rest : Bytes) :
    Prop :=
  ∀ r, (grammar curl sizeMax).Reads q rest r → (grammar curl sizeMax).Reads p cursor r

variable {curl : Curl} {p q t : RequestParser} {fields : RequestFields} {version : Bytes}

/-- The loop can get over two stretches one after the other. -/
theorem Passes.trans {xs ys zs : Bytes} (h : Passes curl p xs q ys) (h' : Passes curl q ys t zs) :
    Passes curl p xs t zs :=
  fun r hr => h r (h' r hr)

/-- A turn of the loop on a token whose bytes are there. -/
theorem passes_starting (curl : Curl) (state : EntityState) (fields : RequestFields) (version : Bytes)
    (headers : Headers) (body : Bytes) (consumed : ℕ) (data : Bytes) {w : Bytes}
    (hw : Silent (delimiterOf state) w) (hd : delimiterOf state ≠ [] ∨ w = [])
    {emitted : Option HttpRequest} {next : ℕ → RequestParser}
    (h : ∀ n, Advances curl
      { Parser.starting delimiterOf state fields version headers body 0 n with
        partialBuffer := data ++ w } emitted (next n)) (rest : Bytes) :
    ∃ n, (grammar curl sizeMax).Passes
      (.starting delimiterOf state fields version headers body data.length consumed)
      (data ++ (w ++ (delimiterOf state ++ rest))) emitted.toList (next n).clearBuffer rest :=
  Grammar.passes_starting delimiterOf state fields version headers body consumed data hw hd
    oversized_sizeMax (fun n => token_eq_next_iff.mpr (h n)) rest

/-- Getting over a stretch without handing anything out is `Passes` without messages. -/
theorem passes_nil_iff {p q : RequestParser} {cursor rest : Bytes} :
    (grammar curl sizeMax).Passes p cursor [] q rest ↔ Passes curl p cursor q rest := by
  simp only [Grammar.Passes, Passes, Reading.prepend_nil]

/-- Getting over a token: the bytes up to its delimiter are collected, and then the switch of the loop deals with
them. -/
theorem passes_of_token (state : EntityState) (fields : RequestFields) (version : Bytes) (headers : Headers)
    (consumed : ℕ) {w : Bytes} (hd : delimiterOf state ≠ []) (hw : Silent (delimiterOf state) w)
    (rest : Bytes) (curl : Curl) {next : ℕ → RequestParser}
    (h : ∀ n, Advances curl
      { expecting state fields version headers n with partialBuffer := w } none (next n)) :
    ∃ n, Passes curl (expecting state fields version headers consumed)
      (w ++ (delimiterOf state ++ rest)) (next n).clearBuffer rest := by
  obtain ⟨n, hpasses⟩ := passes_starting curl state fields version headers [] consumed [] hw (.inl hd) h rest
  exact ⟨n, passes_nil_iff.mp hpasses⟩

/-- The first line of a request. -/
theorem passes_firstLine {m : Method} {name encoded path : Bytes}
    (hname : stringToMethod.lookup name = some m) (hsilent : Silent (ascii " ") name)
    (hencoded : Silent (ascii " ") encoded) (hpath : urlDecode curl encoded = .ok path)
    (hversion : version ∈ supportedVersions) (rest : Bytes) :
    ∃ n logLine, Passes curl fresh
      (name ++ ascii " " ++ encoded ++ ascii " " ++ version ++ crlf ++ rest)
      (expecting .headers
        { method := m
          path := (splitPathQuery path).1
          query := (splitPathQuery path).2
          logLine } version .empty n) rest := by
  -- no supported version has a line end in it
  have hsilentVersion : Silent crlf version := by
    refine silent_of_disjoint crlf_ne_nil ?_
    revert version
    decide
  have hblank : ascii " " ≠ [] := by decide
  obtain ⟨n₁, h₁⟩ := passes_of_token .method _ _ _ _ hblank hsilent
    (encoded ++ (ascii " " ++ (version ++ (crlf ++ rest)))) curl fun n => Advances.method rfl hname
  obtain ⟨n₂, h₂⟩ := passes_of_token .path _ _ _ _ hblank hencoded
    (version ++ (crlf ++ rest)) curl fun n => Advances.path rfl hpath
  obtain ⟨n₃, h₃⟩ := passes_of_token .version _ _ _ _ crlf_ne_nil hsilentVersion rest
    curl fun n => Advances.version rfl hversion
  simp only [List.append_assoc]
  exact ⟨n₃, _, (h₁.trans h₂).trans h₃⟩

/-- Header lines, in front of the body or after it. -/
theorem passes_lines (curl : Curl) {ι : Type} (text : ι → Bytes) (entry : ι → Bytes × Bytes)
    {state : EntityState} (hs : state = .headers ∨ state = .trailer) (fields : RequestFields)
    (version : Bytes) {l : List ι}
    (hl : ∀ i ∈ l, Silent crlf (text i) ∧ ∃ after,
      splitAt (byte ':') (text i) = some ((entry i).1, after) ∧ after.dropWhile (· = byte ' ') = (entry i).2)
    (headers : Headers) (body : Bytes) (consumed : ℕ) (rest : Bytes) :
    ∃ n, (grammar curl sizeMax).Passes
      (.starting delimiterOf state fields version headers body 0 consumed)
      ((l.flatMap fun i => text i ++ crlf) ++ rest) []
      (.starting delimiterOf state fields version (headers.insertAll (l.map entry)) body 0 n) rest := by
  have hd : delimiterOf state = crlf := by rcases hs with rfl | rfl <;> rfl
  induction l generalizing headers consumed with
  | nil => exact ⟨consumed, .refl _ _⟩
  | cons i l ih =>
    obtain ⟨⟨hsilent, after, hsplit, hvalue⟩, hrest⟩ := List.forall_mem_cons.mp hl
    -- a line with a colon is not blank
    have hne : text i ≠ [] := by
      intro hnil
      rw [hnil] at hsplit
      cases hsplit
    obtain ⟨n₁, h₁⟩ := passes_starting curl state fields version headers body consumed [] (hd ▸ hsilent)
      (.inl (by rw [hd]; exact crlf_ne_nil)) (fun n => Advances.header hs hne hsplit)
      ((l.flatMap fun i => text i ++ crlf) ++ rest)
    simp only [hvalue] at h₁
    obtain ⟨n₂, h₂⟩ := ih hrest (headers.insert (entry i).1 (entry i).2) n₁
    refine ⟨n₂, ?_⟩
    have hcursor : ((i :: l).flatMap fun i => text i ++ crlf) ++ rest =
        [] ++ (text i ++ (delimiterOf state ++ ((l.flatMap fun i => text i ++ crlf) ++ rest))) := by
      simp [hd]
    rw [hcursor]
    exact h₁.trans h₂

/-- The header lines of a request. -/
theorem passes_headerLines (curl : Curl) (fields : RequestFields) (version : Bytes)
    {l : List (Bytes × Bytes)} (hl : ∀ e ∈ l, IsHeader e) (headers : Headers) (consumed : ℕ)
    (rest : Bytes) :
    ∃ n, Passes curl (expecting .headers fields version headers consumed)
      ((l.flatMap fun (name, value) => headerLine name value) ++ rest)
      (expecting .headers fields version (headers.insertAll l) n) rest := by
  obtain ⟨n, hpasses⟩ := passes_lines curl (fun e => e.1 ++ ascii ": " ++ e.2) id (.inl rfl) fields version
    (l := l) (fun e he => by
      have hheader := hl e he
      have hline : e.1 ++ ascii ": " ++ e.2 = e.1 ++ byte ':' :: byte ' ' :: e.2 := by simp [ascii]
      refine ⟨hheader.silent, byte ' ' :: e.2, ?_, ?_⟩
      · rw [hline]
        exact splitAt_append hheader.name _
      · -- the one blank that is written is the one that is skipped
        rw [List.dropWhile_cons_of_pos (by simp)]
        exact hheader.value) headers [] consumed rest
  rw [List.map_id] at hpasses
  exact ⟨n, passes_nil_iff.mp hpasses⟩

/-- The text of a request up to the blank line. -/
theorem passes_written {r : HttpRequest} (hcurl : curl.Undoes r.pathQuery)
    (hversion : r.version ∈ supportedVersions) (htarget : IsTarget r.path r.query)
    (hheaders : ∀ e ∈ r.headers.entries, IsHeader e) :
    ∃ text n logLine, r.toString curl = .ok text ∧ text ≠ [] ∧
      Passes curl fresh text
        (expecting .headers
          { method := r.method
            path := r.path
            query := if r.query.entries ≠ [] then r.query else splitQuery r.path
            logLine } r.version r.sentHeaders n) (crlf ++ r.body) := by
  obtain ⟨name, hwritten, hname, hsilent⟩ := exists_methodName r.method
  obtain ⟨encoded, hencode, hdecode, hencoded⟩ := hcurl.exists_encoded (zero_not_mem_pathQuery htarget)
  refine ⟨name ++ ascii " " ++ encoded ++ ascii " " ++ r.version ++ crlf ++
    headerLines r.headers ++ r.lengthAndBody, ?_⟩
  -- the first line, and then the header lines, the announced length among them
  obtain ⟨n₁, logLine, h₁⟩ := passes_firstLine hname hsilent hencoded hdecode hversion
    (headerLines r.sentHeaders ++ (crlf ++ r.body))
  obtain ⟨n₂, h₂⟩ := passes_headerLines curl _ _ (isHeader_sentHeaders hheaders) .empty n₁
    (crlf ++ r.body)
  rw [AssocMap.insertAll_entries] at h₂
  rw [splitPathQuery_pathQuery htarget] at h₁
  refine ⟨n₂, logLine, ?_, ?_, ?_⟩
  · rw [HttpRequest.toString, hwritten, hencode]
  · simp [ascii]
  · rw [List.append_assoc _ (headerLines r.headers), headerLines_lengthAndBody]
    exact h₁.trans h₂

/-! ### After the blank line -/

/-- The loop stops when the bytes run out inside a token. -/
theorem reads_of_not_complete (curl : Curl) {cursor : Bytes} (hc : ¬ p.Complete cursor)
    (hran : ranOut (p.suspended cursor) = none) :
    (grammar curl sizeMax).Reads p cursor (.returned [] (p.suspended cursor)) :=
  .of_stops (.suspended (oversized_sizeMax p) hc hran)

/-- Nothing is left after a request. -/
theorem reads_emitted (curl : Curl) (p : RequestParser) :
    (grammar curl sizeMax).Reads (flushStream p).clearBuffer [] (.returned [] (flushStream p)) := by
  have hsuspended : (flushStream p).clearBuffer.suspended [] = flushStream p := rfl
  have hc : ¬ (flushStream p).clearBuffer.Complete [] := by
    rintro ⟨-, hprogress⟩
    exact absurd (show (ascii " ").length ≤ 0 from hprogress) (by decide)
  have hran : ranOut (flushStream p) = none := rfl
  simpa [hsuspended] using reads_of_not_complete curl hc (hsuspended ▸ hran)

/-- A parser that waits for a body. -/
def awaitingBody (fields : RequestFields) (version : Bytes) (headers : Headers) (consumed k : ℕ) :
    RequestParser :=
  { expecting .body fields version headers consumed with bodyLength := k }

/-- The request that is handed out with a body. -/
def withBody (fields : RequestFields) (version : Bytes) (headers : Headers) (body : Bytes) :
    HttpRequest where
  method := fields.method
  path := fields.path
  query := fields.query
  body
  headers
  version
  logLine := fields.logLine

section Blank

variable (curl) (fields) (version) (headers : Headers) (consumed k : ℕ) (body : Bytes)

/-- A body is not searched for a delimiter: it ends after as many bytes as were announced. -/
theorem search_awaitingBody :
    (awaitingBody fields version headers consumed k).search body = ⟨0, body.take k, body.drop k⟩ := by
  simp [Parser.search, awaitingBody, expecting, delimiterOf, skipScan, scan_of_length_le]

/-- A body is complete when all announced bytes have come. -/
theorem complete_awaitingBody_iff :
    (awaitingBody fields version headers consumed k).Complete body ↔ k ≤ body.length := by
  simp [Parser.Complete, SkipComplete, awaitingBody, expecting, delimiterOf]

/-- The bytes that were announced become the body. -/
theorem completed_awaitingBody :
    ∃ n, (awaitingBody fields version headers consumed k).completed body =
      { expecting .body fields version headers n with partialBuffer := body.take k } := by
  refine ⟨(consumed + (body.take k).length) % 2 ^ 64, ?_⟩
  simp only [Parser.completed, search_awaitingBody]
  simp [awaitingBody, expecting, List.take_take]

/-- The announced length is that of the body. -/
theorem reads_sized {value : Bytes} (hfind : headers.find (ascii "Content-Length") = some value)
    (hk : stoul 10 value = .ok body.length) :
    ∃ q, (grammar curl sizeMax).Reads (expecting .headers fields version headers consumed)
      (crlf ++ body) (.returned [withBody fields version headers body] (flushStream q)) := by
  obtain ⟨n₁, h₁⟩ := passes_starting curl .headers fields version headers [] consumed [] (silent_nil crlf)
    (.inl crlf_ne_nil) (fun _ => Advances.sized rfl rfl hfind hk) (body ++ ([] ++ ([] ++ [])))
  have hbody : ∀ n, ∃ q, Advances curl
      { Parser.starting delimiterOf .body fields version headers [] 0 n with partialBuffer := body ++ [] }
      (some (withBody fields version headers body)) (flushStream q) := by
    intro n
    rw [List.append_nil]
    exact ⟨_, Advances.body rfl⟩
  choose next hnext using hbody
  -- all of the body is there, and no delimiter comes after it
  obtain ⟨n₂, h₂⟩ := passes_starting curl .body fields version headers [] n₁ body (silent_nil [])
    (.inr rfl) hnext []
  have hcursor : crlf ++ body = [] ++ ([] ++ (crlf ++ (body ++ ([] ++ ([] ++ []))))) := by simp
  rw [hcursor]
  exact ⟨next n₂, h₁.trans h₂ _ (reads_emitted curl (next n₂))⟩

/-- Nothing is announced, and nothing is there. -/
theorem reads_plain (hfind : headers.find (ascii "Content-Length") = none)
    (hte : headers.find (ascii "Transfer-Encoding") ≠ some (ascii "chunked")) :
    ∃ q, (grammar curl sizeMax).Reads (expecting .headers fields version headers consumed)
      (crlf ++ []) (.returned [withBody fields version headers []] (flushStream q)) := by
  have hadvances : ∀ n, Advances curl (expecting .headers fields version headers n)
      (some (withBody fields version headers [])) _ := fun n => Advances.plain rfl rfl hfind hte
  obtain ⟨n, hpasses⟩ := passes_starting curl .headers fields version headers [] consumed [] (silent_nil crlf)
    (.inl crlf_ne_nil) hadvances []
  exact ⟨_, hpasses _ (reads_emitted curl _)⟩

end Blank

/-- A worker hands out a request whose headers announce what is there. -/
theorem reads_of_framed (curl : Curl) (fields : RequestFields) (version : Bytes) (consumed : ℕ)
    {headers : Headers} {body : Bytes}
    (hbody : headers.find (ascii "Content-Length") = none → body = []) (hframed : Framed headers body) :
    ∃ q, (grammar curl sizeMax).Reads (expecting .headers fields version headers consumed)
      (crlf ++ body) (.returned [withBody fields version headers body] (flushStream q)) := by
  unfold Framed at hframed
  cases hfind : headers.find (ascii "Content-Length") with
  | some value =>
    rw [hfind] at hframed
    exact reads_sized curl fields version headers consumed body hfind hframed
  | none =>
    rw [hfind] at hframed
    obtain rfl := hbody hfind
    exact reads_plain curl fields version headers consumed hfind (hframed rfl)

/-- A loop that hands out a request starts with a complete token. -/
theorem exists_advances_of_reads {cursor : Bytes} {request : HttpRequest} {later : List HttpRequest}
    (h : (grammar curl sizeMax).Reads p cursor (.returned (request :: later) q)) :
    p.Complete cursor ∧ ∃ emitted s r, Advances curl (p.completed cursor) emitted s ∧
      (grammar curl sizeMax).Reads s.clearBuffer (p.search cursor).rest r ∧
        r.prepend emitted.toList = .returned (request :: later) q := by
  obtain ⟨hc, emitted, s, r, htoken, hrest⟩ := Grammar.exists_token_of_reads h
  exact ⟨hc, emitted, s, r, token_eq_next_iff.mp htoken, hrest⟩

/-- What a worker hands out after the blank line, it was told by the headers. -/
theorem framed_of_reads {fields : RequestFields} {version : Bytes} {headers : Headers} {consumed : ℕ}
    {body : Bytes} (hbody : headers.find (ascii "Content-Length") = none → body = [])
    {request : HttpRequest}
    (h : (grammar curl sizeMax).Reads (expecting .headers fields version headers consumed)
      (crlf ++ body) (.returned [request] q)) :
    request.query = fields.query ∧ (request.body = body → Framed headers body) := by
  obtain ⟨-, emitted, s, r, hadvances, hreads, hr⟩ := exists_advances_of_reads h
  have hat : (expecting .headers fields version headers consumed).AtToken := ⟨rfl, rfl⟩
  have hlength : ([] : Bytes).length = (expecting .headers fields version headers consumed).bodyLength := rfl
  have hsearch := Parser.search_token hat hlength (silent_nil crlf) (.inl crlf_ne_nil) body
  obtain ⟨n, hcompleted⟩ := Parser.completed_token hat hlength (silent_nil crlf) (.inl crlf_ne_nil) body
  change (expecting .headers fields version headers consumed).search (crlf ++ body) = _ at hsearch
  change (expecting .headers fields version headers consumed).completed (crlf ++ body) = _ at hcompleted
  rw [hsearch] at hreads
  rw [hcompleted] at hadvances
  cases hadvances with
  | method hs | path hs | version hs | trailed hs | body hs | chunkLength hs | chunk hs => cases hs
  | header _ hne => exact absurd rfl hne
  | plain _ _ hfind hte =>
    obtain ⟨later, -, hrequests⟩ := Reading.prepend_eq_returned.mp hr
    obtain ⟨rfl, -⟩ := List.cons.inj hrequests
    have hnone : headers.find (ascii "Content-Length") = none := hfind
    refine ⟨rfl, fun _ => ?_⟩
    rw [Framed, hnone]
    exact fun _ => hte
  | chunked _ _ hfind hte =>
    -- the worker waits for a chunk, but no byte is left
    obtain rfl := hbody hfind
    rw [Option.toList_none, Reading.prepend_nil] at hr
    subst hr
    obtain ⟨⟨-, hprogress⟩, -⟩ := exists_advances_of_reads hreads
    exact absurd (show crlf.length ≤ 0 from hprogress) (by decide)
  | @sized value k _ _ hfind hk =>
    have hsome : headers.find (ascii "Content-Length") = some value := hfind
    rw [Option.toList_none, Reading.prepend_nil] at hr
    subst hr
    change (grammar curl sizeMax).Reads (awaitingBody fields version headers n k) body _ at hreads
    obtain ⟨hc, emitted, s, r, hadvances, -, hr⟩ := exists_advances_of_reads hreads
    rw [complete_awaitingBody_iff] at hc
    obtain ⟨n', hcompleted⟩ := completed_awaitingBody fields version headers n k body
    rw [hcompleted] at hadvances
    cases hadvances with
    | method hs | path hs | version hs | sized hs | chunked hs | plain hs | trailed hs | chunkLength hs
      | chunk hs => cases hs
    | header hs => rcases hs with hs | hs <;> cases hs
    | body =>
      obtain ⟨later, -, hrequests⟩ := Reading.prepend_eq_returned.mp hr
      obtain ⟨rfl, -⟩ := List.cons.inj hrequests
      refine ⟨rfl, fun htake => ?_⟩
      have hlength := congrArg List.length (show body.take k = body from htake)
      rw [List.length_take, Nat.min_eq_left hc] at hlength
      rw [Framed, hsome]
      exact hlength ▸ hk

end RequestParser

namespace HttpRequest

variable {r r₁ : HttpRequest}

/-- Adding the length of the body does not change what is announced. -/
theorem framed_sentHeaders_iff (hbody : r.body.length < 2 ^ 64) :
    Framed r.sentHeaders r.body ↔ Framed r.headers r.body := by
  unfold sentHeaders
  split_ifs with h
  · have hkey := AssocMap.find_eq_none_iff.mp h.2
    have hmem : (ascii "Content-Length", decimal r.body.length) ∈
        (r.headers.insert (ascii "Content-Length") (decimal r.body.length)).entries := by
      simp [AssocMap.entries_insert_of_not_mem hkey]
    rw [Framed, AssocMap.find_of_mem hmem rfl, Framed, h.2]
    exact iff_of_true (stoul_decimal hbody) fun hnil => absurd hnil h.1
  · rfl

/-- Whether the headers announce the body that is there does not depend on the order of the maps. -/
theorem SameAs.framed_iff (h : r.SameAs r₁) : Framed r₁.headers r₁.body ↔ Framed r.headers r.body := by
  simp only [Framed, h.headers.find_eq, h.body]

/-- A body without announced length is empty. -/
theorem body_eq_nil_of_sentHeaders (h : r.sentHeaders.find (ascii "Content-Length") = none) :
    r.body = [] := by
  by_contra hbody
  unfold sentHeaders at h
  split_ifs at h with hadd
  · have hkey := AssocMap.find_eq_none_iff.mp hadd.2
    have hmem : (ascii "Content-Length", decimal r.body.length) ∈
        (r.headers.insert (ascii "Content-Length") (decimal r.body.length)).entries := by
      simp [AssocMap.entries_insert_of_not_mem hkey]
    simp [AssocMap.find_of_mem hmem rfl] at h
  · exact hadd ⟨hbody, h⟩

/-- The text of a request whose headers announce its body is read as one request, and nothing is left. -/
theorem fromStream_toString {curl : Curl} (hcurl : curl.Undoes r.pathQuery)
    (hversion : r.version ∈ supportedVersions) (htarget : IsTarget r.path r.query)
    (hheaders : ∀ e ∈ r.headers.entries, IsHeader e) (hframed : Framed r.sentHeaders r.body) :
    ∃ text logLine q, r.toString curl = .ok text ∧
      RequestParser.fromStream curl .fresh sizeMax text =
        .returned
          [{ method := r.method
             path := r.path
             query := if r.query.entries ≠ [] then r.query else splitQuery r.path
             body := r.body
             headers := r.sentHeaders
             version := r.version
             logLine }] (RequestParser.flushStream q) := by
  obtain ⟨text, n, logLine, htext, hne, hpasses⟩ :=
    RequestParser.passes_written hcurl hversion htarget hheaders
  obtain ⟨q, hrest⟩ := RequestParser.reads_of_framed curl
    ⟨r.method, r.path, if r.query.entries ≠ [] then r.query else splitQuery r.path, logLine⟩ r.version n
    body_eq_nil_of_sentHeaders hframed
  exact ⟨text, logLine, q, htext, ((RequestParser.grammar_lawful curl sizeMax).fromStream_eq_iff_reads
    RequestParser.wellFormed_fresh hne).mpr (hpasses _ hrest)⟩

/-- The headers that are written are those of the request, or there is one more. -/
theorem SameAs.sentHeaders (h : r.SameAs r₁) :
    r₁.sentHeaders.Same r.headers ∨ r.headers.find (ascii "Content-Length") = none ∧
      r₁.sentHeaders.Same (r.headers.insert (ascii "Content-Length") (decimal r.body.length)) := by
  unfold HttpRequest.sentHeaders
  split_ifs with hadd
  · refine Or.inr ⟨by rw [← h.headers.find_eq, hadd.2], ?_⟩
    rw [h.body]
    exact h.headers.insert _ _
  · exact Or.inl h.headers

end HttpRequest

/-- A request that the server hands on reaches the worker as it was exactly if its path is empty or its
query is not, and its headers announce no other body than there is. -/
theorem forwarded_iff {curl : Curl} (hcurl : curl.Documented) {r r₁ : HttpRequest}
    (hr : Emitted curl r) (hsame : r.SameAs r₁) (hbody : r.body.length < 2 ^ 64)
    (hlength : (percentEncode r₁.pathQuery).length < 2 ^ 31) :
    Forwarded curl r r₁ ↔ (r.query.entries ≠ [] ∨ r.path = []) ∧ Framed r.headers r.body := by
  have hrequest := hr.isRequest
  have htarget : IsTarget r₁.path r₁.query := by
    rw [hsame.path]
    exact ⟨hrequest.target.question, hrequest.target.zero,
      hrequest.target.readable.of_same hsame.query.symm⟩
  have hheaders : ∀ e ∈ r₁.headers.entries, IsHeader e := fun e he =>
    hrequest.headers e (hsame.headers.mem_iff.mp he)
  have hframed : Framed r₁.sentHeaders r₁.body ↔ Framed r.headers r.body := by
    rw [framed_sentHeaders_iff (by rwa [hsame.body]), hsame.framed_iff]
  have hundoes := hcurl.undoes (zero_not_mem_pathQuery htarget) hlength
  have hversion : r₁.version ∈ supportedVersions := hsame.version ▸ hrequest.version
  constructor
  · rintro ⟨text', r', q, htext', -, hstream, -, -, hreceived⟩
    obtain ⟨text, n, logLine, htext, hne, hpasses⟩ :=
      RequestParser.passes_written hundoes hversion htarget hheaders
    obtain rfl := Except.ok.inj (htext.symm.trans htext')
    -- the worker reads the rest as it reads the whole
    obtain ⟨result, hrest⟩ : ∃ result, (RequestParser.grammar curl sizeMax).Reads
        (RequestParser.expecting .headers
          { method := r₁.method
            path := r₁.path
            query := if r₁.query.entries ≠ [] then r₁.query else splitQuery r₁.path
            logLine } r₁.version r₁.sentHeaders n) (crlf ++ r₁.body) result :=
      ⟨_, ((RequestParser.grammar_lawful curl sizeMax).fromStream_eq_iff_reads
        ⟨rfl, Nat.zero_le _⟩ (by simp [crlf_ne_nil])).mp rfl⟩
    have hreads := ((RequestParser.grammar_lawful curl sizeMax).fromStream_eq_iff_reads
      RequestParser.wellFormed_fresh hne).mp hstream
    have hwhole := hreads.unique (hpasses _ hrest)
    rw [← hwhole] at hrest
    obtain ⟨hquery, hannounced⟩ := RequestParser.framed_of_reads body_eq_nil_of_sentHeaders hrest
    refine ⟨?_, hframed.mp (hannounced (hreceived.body.trans hsame.body.symm))⟩
    by_contra hpath
    obtain ⟨hempty, hpath⟩ : r.query.entries = [] ∧ r.path ≠ [] := by simpa using hpath
    have hperm := hreceived.query
    rw [hquery] at hperm
    simp only [hsame.entries_eq_nil_iff.mpr hempty, ne_eq, not_true_eq_false, if_false] at hperm
    rw [AssocMap.Same, hempty, List.perm_nil, entries_splitQuery_eq_nil_iff, hsame.path] at hperm
    exact hpath hperm
  · rintro ⟨hquery, hannounced⟩
    obtain ⟨text, logLine, q, htext, hstream⟩ :=
      fromStream_toString hundoes hversion htarget hheaders (hframed.mpr hannounced)
    refine ⟨text, _, _, htext, ?_, hstream, rfl, rfl, ?_⟩
    · rw [fromString, hstream]
    · refine ⟨hsame.method, hsame.path, ?_, hsame.body, hsame.version, hsame.sentHeaders⟩
      simp only
      split_ifs with hempty
      · exact hsame.query
      · have hnone : r₁.query.entries = [] := not_not.mp hempty
        have hnil : r.query.entries = [] := hsame.entries_eq_nil_iff.mp hnone
        have hpath : r₁.path = [] := hsame.path.trans (hquery.resolve_left (not_not.mpr hnil))
        rw [AssocMap.Same, hnil, List.perm_nil]
        exact entries_splitQuery_eq_nil_iff.mpr hpath

/-- The text that is forwarded is the one that `to_string` writes. -/
theorem Forwarded.received {curl : Curl} {r r₁ : HttpRequest} {text : Bytes}
    (h : Forwarded curl r r₁) (htext : r₁.toString curl = .ok text) :
    ∃ r', fromString curl text = some (.ok r') ∧ r.Received r' := by
  obtain ⟨text', r', -, htext', hread, -, -, -, hreceived⟩ := h
  obtain rfl := Except.ok.inj (htext.symm.trans htext')
  exact ⟨r', hread, hreceived⟩

/-- A request without a body. -/
def bodiless (method : Method) (path : String) (query : List (String × List String))
    (headers : List (String × String)) (logLine : String) : HttpRequest where
  method
  path := ascii path
  query := AssocMap.empty.insertAll (query.map fun (key, values) => (ascii key, values.map ascii))
  body := []
  headers := AssocMap.empty.insertAll (headers.map fun (name, value) => (ascii name, ascii value))
  version := ascii "HTTP/1.1"
  logLine := ascii logLine

/-- `GET /a?b=c` -/
def oneParameter : HttpRequest := bodiless .get "/a" [("b", ["c"])] [] "GET /a?b=c HTTP/1.1"

/-- `GET /blah?` -/
def emptyQuery : HttpRequest := bodiless .get "/blah" [] [] "GET /blah? HTTP/1.1"

/-- A chunked request whose only chunk is the last one. -/
def emptyChunks : HttpRequest :=
  bodiless .post "/a" [("b", ["c"])] [("Transfer-Encoding", "chunked")] "POST /a?b=c HTTP/1.1"

/-- A request with one parameter reaches the worker. -/
theorem forwarded_iff_oneParameter : Forwarded .percent oneParameter oneParameter := by
  have hemitted : Emitted .percent oneParameter :=
    emitted_of_fromString (ascii "GET /a?b=c HTTP/1.1\r\n\r\n") (by decide)
  have hsame : oneParameter.SameAs oneParameter := ⟨rfl, rfl, .refl _, rfl, .refl _, rfl⟩
  have hframed : Framed oneParameter.headers oneParameter.body := fun _ => by decide
  exact (forwarded_iff Curl.percent_documented hemitted hsame (by decide) (by decide)).mpr
    ⟨.inl (by decide), hframed⟩

/-- A worker takes the path for a query where there was an empty query, and does not get to the end of
a chunked request without chunks. -/
theorem not_forwarded :
    (Emitted .percent emptyQuery ∧ ¬Forwarded .percent emptyQuery emptyQuery) ∧
      Emitted .percent emptyChunks ∧ ¬Forwarded .percent emptyChunks emptyChunks := by
  refine ⟨⟨?_, fun h => ?_⟩, ?_, fun h => ?_⟩
  · exact emitted_of_fromString (ascii "GET /blah? HTTP/1.1\r\n\r\n") (by decide)
  · have htext : emptyQuery.toString .percent = .ok (ascii "GET %2Fblah HTTP/1.1\r\n\r\n") := by decide
    obtain ⟨r', hread, hreceived⟩ := h.received htext
    have hworker : fromString .percent (ascii "GET %2Fblah HTTP/1.1\r\n\r\n") =
        some (.ok (bodiless .get "/blah" [("/blah", [""])] [] "GET %2Fblah HTTP/1.1")) := by decide
    obtain rfl : bodiless .get "/blah" [("/blah", [""])] [] "GET %2Fblah HTTP/1.1" = r' := by
      simpa using hworker.symm.trans hread
    exact absurd hreceived.query.length_eq (by decide)
  · exact emitted_of_fromString
      (ascii "POST /a?b=c HTTP/1.1\r\nTransfer-Encoding: chunked\r\n\r\n0\r\n\r\n") (by decide)
  · have htext : emptyChunks.toString .percent =
        .ok (ascii "POST %2Fa%3Fb%3Dc HTTP/1.1\r\nTransfer-Encoding: chunked\r\n\r\n") := by decide
    obtain ⟨r', hread, -⟩ := h.received htext
    have hworker : fromString .percent
        (ascii "POST %2Fa%3Fb%3Dc HTTP/1.1\r\nTransfer-Encoding: chunked\r\n\r\n") =
          some (.error (.std (.runtimeError "Incomplete http request"))) := by decide
    simp [hworker] at hread

end PrimeServer
