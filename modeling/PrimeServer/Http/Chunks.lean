import PrimeServer.Http.RoundTrip

/-!
# Bodies in chunks

A request may come with its body in chunks: in front of each chunk is a line with its length, a chunk of no
bytes comes last, and more header lines may come after it.

## Main results

* `ChunkedRequest.feed_text`: such a request is handed out when its last blank line is complete, with all of
  its chunks and of its header lines.
-/

namespace PrimeServer

open Chunking Delimiter

/-! ### What is sent -/

/-- A header line as it is sent: a name, a colon, and more text. -/
structure FieldLine where
  /-- The text in front of the colon. -/
  name : Bytes
  /-- The text behind the colon, with its spaces. -/
  rest : Bytes
  /-- The first colon of the line is the one behind the name. -/
  colon : byte ':' ∉ name
  /-- The line goes up to its line end. -/
  oneLine : OneLine name ∧ OneLine rest

namespace FieldLine

variable (l : FieldLine)

/-- The line without its end. -/
def text : Bytes := l.name ++ byte ':' :: l.rest

/-- The name and the value. No spaces in front of the value belong to it. -/
def entry : Bytes × Bytes := (l.name, l.rest.dropWhile (· = byte ' '))

/-- The text of a line has no line break in it. -/
theorem silent_text : Silent crlf l.text := by
  have hcolon : OneLine [byte ':'] := by decide
  exact (l.oneLine.1.append (hcolon.append l.oneLine.2)).silent

end FieldLine

/-- Header lines, each with its end. -/
def fieldLines (l : List FieldLine) : Bytes := l.flatMap fun line => line.text ++ crlf

/-- A chunk: its data, and its length in hexadecimal, after which there may be more text. -/
structure Chunk where
  /-- The bytes that are to be added to the body. -/
  data : Bytes
  /-- The length as it is written. -/
  spelling : Bytes
  /-- What follows the length on its line, if anything does. -/
  extension : Option Bytes
  /-- The length is that of the data, in hexadecimal digits of either case, with or without leading zeros. -/
  spells : Spells 16 spelling data.length
  /-- The length fits a `size_t`. -/
  fits : data.length < 2 ^ 64
  /-- The extension does not end the line. -/
  oneLine : ∀ text ∈ extension, OneLine text

namespace Chunk

variable (c : Chunk)

/-- What comes after the length on its line. -/
def remark : Bytes :=
  match c.extension with
  | some text => byte ';' :: text
  | none => []

/-- The line in front of the data, without its end. -/
def line : Bytes := c.spelling ++ c.remark

/-- The chunk as it is sent. -/
def text : Bytes := c.line ++ crlf ++ c.data ++ crlf

/-- The hexadecimal number in front of a chunk is the length of its data, whatever comes behind it. -/
theorem stoul_line : stoul 16 c.line = .ok c.data.length := by
  refine stoul_of_spells c.spells c.fits fun b hb => ?_
  unfold remark at hb
  cases h : c.extension with
  | none => simp [h] at hb
  | some text => simpa [h, eq_comm] using hb

/-- What comes behind the number stays on its line. -/
theorem oneLine_remark : OneLine c.remark := by
  unfold remark
  cases h : c.extension with
  | none => exact oneLine_iff.mpr (List.forall_mem_nil _)
  | some text =>
    have hsemicolon : OneLine [byte ';'] := by decide
    exact hsemicolon.append (c.oneLine text h)

/-- A chunk-length line has no line break in it. -/
theorem silent_line : Silent crlf c.line := by
  have hnone : ∀ b ∈ crlf, ¬ (digitValue 16 b).isSome := by decide
  have hspelling : OneLine c.spelling :=
    oneLine_iff.mpr fun b hb hmem => hnone b hmem (isSome_of_spells c.spells b hb)
  exact (hspelling.append c.oneLine_remark).silent

end Chunk

/-- A request whose body is sent in chunks. -/
structure ChunkedRequest where
  method : Method
  /-- The method as it is written. -/
  methodName : Bytes
  /-- The path and the query as they are written. -/
  target : Bytes
  version : Bytes
  /-- The header lines. -/
  fields : List FieldLine
  /-- The chunks in front of the last one. -/
  chunks : List Chunk
  /-- The chunk without data that ends the body. -/
  last : Chunk
  /-- The lines after the last chunk. -/
  trailers : List FieldLine
  /-- The method is one of those that the parser knows. -/
  named : stringToMethod.lookup methodName = some method
  /-- The target goes up to the space behind it. -/
  blankless : byte ' ' ∉ target
  /-- The version is one of those that the parser takes. -/
  supported : version ∈ supportedVersions
  /-- The headers announce a chunked body. -/
  chunked : (AssocMap.empty.insertAll (fields.map FieldLine.entry) : Headers).find
    (ascii "Transfer-Encoding") = some (ascii "chunked")
  /-- No header announces a length, which would be looked at first. -/
  unsized : (AssocMap.empty.insertAll (fields.map FieldLine.entry) : Headers).find
    (ascii "Content-Length") = none
  /-- A chunk without data would be the last one. -/
  filled : ∀ c ∈ chunks, c.data ≠ []
  /-- The last chunk has no data. -/
  ended : last.data = []

namespace ChunkedRequest

variable (m : ChunkedRequest)

/-- The headers in front of the body. -/
def headers : Headers := AssocMap.empty.insertAll (m.fields.map FieldLine.entry)

/-- All but the last line end of the request. -/
def unended : Bytes :=
  m.methodName ++ ascii " " ++ m.target ++ ascii " " ++ m.version ++ crlf ++
    (fieldLines m.fields ++ (crlf ++ (m.chunks.flatMap Chunk.text ++
      (m.last.line ++ (crlf ++ fieldLines m.trailers)))))

/-- The request as it is sent. -/
def text : Bytes := m.unended ++ crlf

/-- The name of the method has no blank in it. -/
theorem silent_methodName : Silent (ascii " ") m.methodName := by
  have hnames : ∀ entry ∈ stringToMethod, ∀ b ∈ entry.1, b ∉ ascii " " := by decide
  obtain ⟨before, after, hentries, -⟩ := List.lookup_eq_some_iff.mp m.named
  exact silent_of_disjoint (by decide) (hnames (m.methodName, m.method) (by simp [hentries]))

/-- The target has no blank in it. -/
theorem silent_target : Silent (ascii " ") m.target := by
  refine silent_of_disjoint (by decide) fun b hb hmem => ?_
  obtain rfl : b = byte ' ' := by simpa [ascii] using hmem
  exact m.blankless hb

end ChunkedRequest

/-! ### What is read -/

namespace RequestParser

variable {curl : Curl} {fields : RequestFields} {version body : Bytes} {headers : Headers}

/-- Header lines in front of the body or after it. -/
theorem passes_fieldLines (curl : Curl) {state : EntityState} (hs : state = .headers ∨ state = .trailer)
    (fields : RequestFields) (version : Bytes) (l : List FieldLine) (headers : Headers) (body : Bytes)
    (consumed : ℕ) (rest : Bytes) :
    ∃ n, (grammar curl sizeMax).Passes
      (.starting delimiterOf state fields version headers body 0 consumed) (fieldLines l ++ rest) []
      (.starting delimiterOf state fields version (headers.insertAll (l.map FieldLine.entry)) body 0 n)
      rest := by
  exact passes_lines curl FieldLine.text FieldLine.entry hs fields version
    (fun line _ => ⟨line.silent_text, line.rest, splitAt_append line.colon line.rest, rfl⟩) headers body
    consumed rest

/-- A chunk with data. -/
theorem passes_chunk (curl : Curl) (fields : RequestFields) (version : Bytes) (headers : Headers)
    (body : Bytes) {c : Chunk} (hc : c.data ≠ []) (consumed : ℕ) (rest : Bytes) :
    ∃ n, (grammar curl sizeMax).Passes
      (.starting delimiterOf .chunkLength fields version headers body 0 consumed) (c.text ++ rest) []
      (.starting delimiterOf .chunkLength fields version headers (body ++ c.data) 0 n) rest := by
  -- the line with the length, and then so many bytes, which may have line ends inside
  obtain ⟨n₁, h₁⟩ := passes_starting curl .chunkLength fields version headers body consumed [] c.silent_line
    (.inl crlf_ne_nil) (fun n => Advances.chunkLength rfl c.stoul_line) (c.data ++ ([] ++ (crlf ++ rest)))
  obtain ⟨n₂, h₂⟩ := passes_starting curl .chunk fields version headers body n₁ c.data (silent_nil crlf)
    (.inl crlf_ne_nil) (fun n => Advances.chunk rfl) rest
  have hpos : c.data.length ≠ 0 := fun hzero => hc (List.length_eq_zero_iff.mp hzero)
  simp only [if_pos hpos] at h₁
  refine ⟨n₂, ?_⟩
  have hpasses := h₁.trans h₂
  have hcursor : c.text ++ rest = [] ++ (c.line ++ (crlf ++ (c.data ++ ([] ++ (crlf ++ rest))))) := by
    simp [Chunk.text]
  have hbody : body ++ c.data = body ++ (c.data ++ []) := by rw [List.append_nil]
  rw [hcursor, hbody]
  exact hpasses

/-- Chunks with data, one after another. -/
theorem passes_chunks (curl : Curl) (fields : RequestFields) (version : Bytes) (headers : Headers)
    {l : List Chunk} (hl : ∀ c ∈ l, c.data ≠ []) (body : Bytes) (consumed : ℕ) (rest : Bytes) :
    ∃ n, (grammar curl sizeMax).Passes
      (.starting delimiterOf .chunkLength fields version headers body 0 consumed)
      (l.flatMap Chunk.text ++ rest) []
      (.starting delimiterOf .chunkLength fields version headers (body ++ l.flatMap Chunk.data) 0 n)
      rest := by
  induction l generalizing body consumed with
  | nil => exact ⟨consumed, by simpa using .refl _ rest⟩
  | cons c l ih =>
    obtain ⟨hc, hl⟩ := List.forall_mem_cons.mp hl
    obtain ⟨n₁, h₁⟩ := passes_chunk curl fields version headers body hc consumed
      (l.flatMap Chunk.text ++ rest)
    obtain ⟨n₂, h₂⟩ := ih hl (body ++ c.data) n₁
    refine ⟨n₂, ?_⟩
    rw [List.flatMap_cons, List.flatMap_cons, List.append_assoc, ← List.append_assoc body]
    exact h₁.trans h₂

/-- The chunk without data. -/
theorem passes_last (curl : Curl) (fields : RequestFields) (version : Bytes) (headers : Headers)
    (body : Bytes) {c : Chunk} (hc : c.data = []) (consumed : ℕ) (rest : Bytes) :
    ∃ n, (grammar curl sizeMax).Passes
      (.starting delimiterOf .chunkLength fields version headers body 0 consumed)
      (c.line ++ (crlf ++ rest)) []
      (.starting delimiterOf .trailer fields version headers body 0 n) rest := by
  have hzero : stoul 16 c.line = .ok 0 := by rw [c.stoul_line, hc, List.length_nil]
  exact passes_starting curl .chunkLength fields version headers body consumed [] c.silent_line
    (.inl crlf_ne_nil) (fun n => Advances.chunkLength rfl hzero) rest

end RequestParser

namespace ChunkedRequest

variable {curl : Curl} (m : ChunkedRequest) {path : Bytes}

/-- The lines in front of the body. -/
theorem passes_head (hpath : urlDecode curl m.target = .ok path) (rest : Bytes) :
    ∃ fields n, (RequestParser.grammar curl sizeMax).Passes RequestParser.fresh
      (m.methodName ++ ascii " " ++ m.target ++ ascii " " ++ m.version ++ crlf ++
        (fieldLines m.fields ++ (crlf ++ rest))) []
      (.starting RequestParser.delimiterOf .chunkLength fields m.version m.headers [] 0 n) rest := by
  obtain ⟨n₁, logLine, h₁⟩ := RequestParser.passes_firstLine m.named m.silent_methodName m.silent_target
    hpath m.supported (fieldLines m.fields ++ (crlf ++ rest))
  -- the path and the query do not matter here
  generalize ({ method := _, path := _, query := _, logLine } : RequestFields) = fields at h₁
  obtain ⟨n₂, h₂⟩ := RequestParser.passes_fieldLines curl (.inl rfl) fields m.version m.fields .empty []
    n₁ (crlf ++ rest)
  obtain ⟨n₃, h₃⟩ := RequestParser.passes_starting curl .headers fields m.version m.headers [] n₂ []
    (silent_nil crlf) (.inl crlf_ne_nil) (fun n => .chunked rfl rfl m.unsized m.chunked) rest
  exact ⟨fields, n₃, (RequestParser.passes_nil_iff.mpr h₁).trans (h₂.trans h₃)⟩

/-- All but the last line end of the request leads to that line end. -/
theorem passes_unended (hpath : urlDecode curl m.target = .ok path) (rest : Bytes) :
    ∃ fields n, (RequestParser.grammar curl sizeMax).Passes RequestParser.fresh (m.unended ++ rest) []
      (.starting RequestParser.delimiterOf .trailer fields m.version
        (m.headers.insertAll (m.trailers.map FieldLine.entry)) (m.chunks.flatMap Chunk.data) 0 n) rest := by
  obtain ⟨fields, n₁, h₁⟩ := m.passes_head hpath
    (m.chunks.flatMap Chunk.text ++ (m.last.line ++ (crlf ++ (fieldLines m.trailers ++ rest))))
  obtain ⟨n₂, h₂⟩ := RequestParser.passes_chunks curl fields m.version m.headers m.filled [] n₁
    (m.last.line ++ (crlf ++ (fieldLines m.trailers ++ rest)))
  obtain ⟨n₃, h₃⟩ := RequestParser.passes_last curl fields m.version m.headers
    ([] ++ m.chunks.flatMap Chunk.data) m.ended n₂ (fieldLines m.trailers ++ rest)
  obtain ⟨n₄, h₄⟩ := RequestParser.passes_fieldLines curl (.inr rfl) fields m.version m.trailers m.headers
    ([] ++ m.chunks.flatMap Chunk.data) n₃ rest
  refine ⟨fields, n₄, ?_⟩
  have hpasses := h₁.trans (h₂.trans (h₃.trans h₄))
  simpa only [unended, List.append_assoc, List.nil_append] using hpasses

/-- A call on the whole request hands it out. -/
theorem fromStream_text (hpath : urlDecode curl m.target = .ok path) :
    ∃ request q, RequestParser.fromStream curl .fresh sizeMax m.text = .returned [request] q ∧
      request.body = m.chunks.flatMap Chunk.data ∧
        request.headers = m.headers.insertAll (m.trailers.map FieldLine.entry) := by
  obtain ⟨fields, n₁, h₁⟩ := m.passes_unended hpath crlf
  -- the last line end is a blank line after the trailers
  have hadvances : ∀ n, RequestParser.Advances curl
      { Parser.starting RequestParser.delimiterOf .trailer fields m.version
          (m.headers.insertAll (m.trailers.map FieldLine.entry)) (m.chunks.flatMap Chunk.data) 0 n with
        partialBuffer := [] ++ [] }
      (some (RequestParser.withBody fields m.version
        (m.headers.insertAll (m.trailers.map FieldLine.entry)) (m.chunks.flatMap Chunk.data))) _ :=
    fun n => .trailed rfl rfl
  obtain ⟨n₂, h₂⟩ := RequestParser.passes_starting curl .trailer fields m.version
    (m.headers.insertAll (m.trailers.map FieldLine.entry)) (m.chunks.flatMap Chunk.data) n₁ []
    (silent_nil crlf) (.inl crlf_ne_nil) hadvances []
  have hreads := h₁.trans h₂ _ (RequestParser.reads_emitted curl _)
  have hne : m.text ≠ [] := by simp [text, crlf_ne_nil]
  exact ⟨_, _, ((RequestParser.grammar_lawful curl sizeMax).fromStream_eq_iff_reads
    RequestParser.wellFormed_fresh hne).mpr hreads, rfl, rfl⟩

/-- A call on all but the last byte hands out nothing. -/
theorem fromStream_unended (hpath : urlDecode curl m.target = .ok path) :
    ∃ q, RequestParser.fromStream curl .fresh sizeMax (m.unended ++ [byte '\r']) = .returned [] q := by
  obtain ⟨fields, n, h⟩ := m.passes_unended hpath [byte '\r']
  -- half of the line end completes nothing
  have hc : ¬ (Parser.starting RequestParser.delimiterOf .trailer fields m.version
      (m.headers.insertAll (m.trailers.map FieldLine.entry)) (m.chunks.flatMap Chunk.data) 0 n).Complete
        [byte '\r'] := by
    rintro ⟨-, hprogress⟩
    exact absurd (show crlf.length ≤ 1 from hprogress) (by decide)
  have hreads := h _ (RequestParser.reads_of_not_complete curl hc rfl)
  exact ⟨_, ((RequestParser.grammar_lawful curl sizeMax).fromStream_eq_iff_reads
    RequestParser.wellFormed_fresh (by simp)).mpr hreads⟩

/-- A call on any other beginning of the request hands out nothing either. -/
theorem fromStream_beginning (hpath : urlDecode curl m.target = .ok path) {xs ys : Bytes}
    (htext : m.text = xs ++ ys) (hys : ys ≠ []) :
    ∃ q, RequestParser.fromStream curl .fresh sizeMax xs = .returned [] q := by
  obtain ⟨q, hunended⟩ := m.fromStream_unended hpath
  -- all beginnings are beginnings of the longest one
  obtain ⟨zs, b, rfl⟩ := (List.eq_nil_or_concat' ys).resolve_left hys
  have hsplit : (m.unended ++ [byte '\r']) ++ [byte '\n'] = (xs ++ zs) ++ [b] := by
    rw [List.append_assoc, List.append_assoc]
    exact htext
  obtain ⟨hbeginning, -⟩ := List.append_inj' hsplit rfl
  rw [hbeginning] at hunended
  obtain ⟨messages, t, hread, hbegins⟩ :=
    ((RequestParser.grammar_ignoresCuts curl).cutStable
      (RequestParser.grammar_lawful curl sizeMax)).exists_returned_of_append (fun _ => rfl)
      RequestParser.wellFormed_fresh hunended
  obtain rfl := List.prefix_nil.mp hbegins
  exact ⟨t, hread⟩

/-- A request with its body in chunks is handed out when its last blank line is complete, and not before:
its body is all the data, and its headers are those in front of the body, with the later ones that are not
among them. -/
theorem feed_text (hpath : urlDecode curl m.target = .ok path) {pieces : List Bytes}
    (hpieces : pieces.flatten = m.text) :
    (∃ request q, feed (fun p piece => RequestParser.fromStream curl p sizeMax piece) .fresh pieces =
        .returned [request] q ∧ request.body = m.chunks.flatMap Chunk.data ∧
          request.headers = m.headers.insertAll (m.trailers.map FieldLine.entry)) ∧
      ∀ done later, pieces = done ++ later → later.flatten ≠ [] →
        ∃ q, feed (fun p piece => RequestParser.fromStream curl p sizeMax piece) .fresh done =
          .returned [] q := by
  have hcuts := RequestParser.grammar_ignoresCuts curl
  have hlawful := RequestParser.grammar_lawful curl sizeMax
  constructor
  · obtain ⟨request, q, hread, hrequest⟩ := m.fromStream_text hpath
    rw [← hpieces] at hread
    obtain ⟨q', hfeed, -⟩ := hcuts.feed_of_returned hlawful RequestParser.wellFormed_fresh hread
    exact ⟨request, q', hfeed, hrequest⟩
  · rintro done later rfl hlater
    rw [List.flatten_append] at hpieces
    obtain ⟨q, hread⟩ := m.fromStream_beginning hpath hpieces.symm hlater
    obtain ⟨q', hfeed, -⟩ := hcuts.feed_of_returned hlawful RequestParser.wellFormed_fresh hread
    exact ⟨q', hfeed⟩

/-- A chunk with a line end in it, one with more text after its length, and a trailer that is not new. -/
def trailed : ChunkedRequest where
  method := .post
  methodName := ascii "POST"
  target := ascii "/is_prime"
  version := ascii "HTTP/1.1"
  fields := [⟨ascii "Transfer-Encoding", ascii " chunked", by decide, by decide⟩]
  chunks :=
    [{ data := ascii "a chunk with \r\n in it"
       spelling := ascii "15"
       extension := none
       spells := ⟨by decide, [1, 5], by decide, by decide⟩
       fits := by decide
       oneLine := nofun },
     { data := ascii "0a"
       spelling := ascii "002"
       extension := some (ascii "someextension")
       spells := ⟨by decide, [0, 0, 2], by decide, by decide⟩
       fits := by decide
       oneLine := by decide }]
  last :=
    { data := []
      spelling := ascii "0"
      extension := none
      spells := ⟨by decide, [0], by decide, by decide⟩
      fits := by decide
      oneLine := nofun }
  trailers :=
    [⟨ascii "trailerA", ascii " A", by decide, by decide⟩,
      ⟨ascii "transfer-encoding", ascii "B", by decide, by decide⟩]
  named := by decide
  blankless := by decide
  supported := by decide
  chunked := by decide
  unsized := by decide
  filled := by decide
  ended := rfl

/-- Cuts in the data, between the data and its line end, in that line end, and in the last one. -/
theorem feed_text_trailed :
    (∃ request q, feed (fun p piece => RequestParser.fromStream .percent p sizeMax piece) .fresh
        [ascii "POST /is_prime HTTP/1.1\r\nTransfer-Encoding: chunked\r\n\r\n15\r\na chunk with \r",
          ascii "\n in it", ascii "\r", ascii "\n002;someextension\r\n0a\r\n0\r\ntrailerA: A\r\n",
          ascii "transfer-encoding:B\r\n\r", ascii "\n"] = .returned [request] q ∧
        request.body = trailed.chunks.flatMap Chunk.data ∧
          request.headers = trailed.headers.insertAll (trailed.trailers.map FieldLine.entry)) ∧
      ∀ done later,
        [ascii "POST /is_prime HTTP/1.1\r\nTransfer-Encoding: chunked\r\n\r\n15\r\na chunk with \r",
          ascii "\n in it", ascii "\r", ascii "\n002;someextension\r\n0a\r\n0\r\ntrailerA: A\r\n",
          ascii "transfer-encoding:B\r\n\r", ascii "\n"] = done ++ later → later.flatten ≠ [] →
          ∃ q, feed (fun p piece => RequestParser.fromStream .percent p sizeMax piece) .fresh done =
            .returned [] q := by
  have hpath : urlDecode .percent trailed.target = .ok (ascii "/is_prime") := by decide
  exact trailed.feed_text hpath (by decide)

end ChunkedRequest

end PrimeServer
