import PrimeServer.Http.Percent
import PrimeServer.Http.Tokens

/-!
# Parsing does not depend on how the stream is cut

Both `from_stream` functions read the same messages from a stream, and end in the same state,
however the stream is cut into pieces.

## Main results

* `RequestParser.grammar_ignoresCuts`, `ResponseParser.grammar_ignoresCuts`: what `from_stream` does
  with a token does not depend on the calls that the token was spread over;
* `fromStream_cutting`: no cutting of the input changes what is read.
-/

namespace PrimeServer

open Chunking Delimiter

/-- Feeding the pieces to `read` one after another gives what one call on all of them gives: the same
messages and the same state up to the byte count where it returns, an exception where it throws. -/
def ReadsInPieces {φ μ ε : Type} (read : Parser φ → Bytes → Reading (Parser φ) μ ε) (p : Parser φ)
    (pieces : List Bytes) : Prop :=
  match read p pieces.flatten with
  | .returned messages t =>
    ∃ t', feed read p pieces = .returned messages t' ∧ t'.uncounted = t.uncounted
  | .threw _ _ => ∃ e t', feed read p pieces = .threw e t'
  | .diverged => False

/-- A grammar that does not mind cuts reads in pieces. -/
theorem Grammar.IgnoresCuts.readsInPieces {φ μ ε : Type} {g : Grammar φ μ ε}
    {table : EntityState → Bytes} (hg : g.IgnoresCuts table) (hl : g.Lawful table) {p : Parser φ}
    (hp : p.WellFormed table) {pieces : List Bytes} (hpieces : ∀ piece ∈ pieces, piece ≠ []) :
    ReadsInPieces g.fromStream p pieces := by
  unfold ReadsInPieces
  cases hread : g.fromStream p pieces.flatten with
  | returned ms t =>
    by_cases hne : pieces = []
    · subst hne
      simp only [List.flatten_nil, fromStream, if_true, Reading.returned.injEq] at hread
      obtain ⟨rfl, rfl⟩ := hread
      exact ⟨p, rfl, rfl⟩
    · obtain ⟨t', hfeed, hsim⟩ := (hg.cutStable hl).feed_of_returned (fun _ => rfl)
        (fun _ _ _ => Eq.trans) hne hpieces hp hread
      exact ⟨t', hfeed, hsim.symm⟩
  | threw e t =>
    have hne : pieces ≠ [] := by
      rintro rfl
      simp [fromStream] at hread
    exact (hg.cutStable hl).feed_of_threw hne hpieces hp hread
  | diverged => exact hl.fromStream_ne_diverged hp _ hread

/-- What a call returns, the pieces return, empty ones among them. -/
theorem Grammar.IgnoresCuts.feed_of_returned {φ μ ε : Type} {g : Grammar φ μ ε}
    {table : EntityState → Bytes} (hg : g.IgnoresCuts table) (hl : g.Lawful table) {p t : Parser φ}
    (hp : p.WellFormed table) {pieces : List Bytes} {messages : List μ}
    (h : g.fromStream p pieces.flatten = .returned messages t) :
    ∃ t', feed g.fromStream p pieces = .returned messages t' ∧ t'.uncounted = t.uncounted := by
  have hfilter : ∀ piece ∈ pieces.filter (!·.isEmpty), piece ≠ [] := fun piece hpiece => by
    simpa using (List.mem_filter.mp hpiece).2
  have hreads := hg.readsInPieces hl hp hfilter
  unfold ReadsInPieces at hreads
  rwa [List.flatten_filter_not_isEmpty, h, feed_filter fun _ => rfl] at hreads

/-- What the pieces return, a call on all of them returns. -/
theorem Grammar.IgnoresCuts.returned_of_feed {φ μ ε : Type} {g : Grammar φ μ ε}
    {table : EntityState → Bytes} (hg : g.IgnoresCuts table) (hl : g.Lawful table) {p t : Parser φ}
    (hp : p.WellFormed table) {pieces : List Bytes} (hne : pieces ≠ [])
    (hpieces : ∀ piece ∈ pieces, piece ≠ []) {messages : List μ}
    (h : feed g.fromStream p pieces = .returned messages t) :
    ∃ u, g.fromStream p pieces.flatten = .returned messages u ∧ u.uncounted = t.uncounted :=
  (hg.cutStable hl).returned_of_feed (fun _ => rfl) (fun _ _ _ => Eq.trans) hne hpieces hp
    (hl.fromStream_ne_diverged hp _) h

/-- A stream that is rejected in some pieces is rejected in others. -/
theorem Grammar.IgnoresCuts.exists_threw_of_flatten_eq {φ μ ε : Type} {g : Grammar φ μ ε}
    {table : EntityState → Bytes} (hg : g.IgnoresCuts table) (hl : g.Lawful table) {p t : Parser φ}
    (hp : p.WellFormed table) {pieces pieces' : List Bytes} (hpieces : ∀ piece ∈ pieces, piece ≠ [])
    (hpieces' : ∀ piece ∈ pieces', piece ≠ []) (hstream : pieces.flatten = pieces'.flatten) {e : ε}
    (h : feed g.fromStream p pieces = .threw e t) :
    ∃ e' t', feed g.fromStream p pieces' = .threw e' t' := by
  have hne : pieces ≠ [] := by
    rintro rfl
    cases h
  obtain ⟨e', u, hread⟩ := (hg.cutStable hl).threw_of_feed (fun _ => rfl) (fun _ _ _ => Eq.trans) hne
    hpieces hp (hl.fromStream_ne_diverged hp _) h
  have hreads := hg.readsInPieces hl hp hpieces'
  rw [ReadsInPieces, ← hstream, hread] at hreads
  exact hreads

/-- A complete token has at least the bytes it had before the call, less those of its delimiter. -/
theorem Parser.length_completed {φ : Type} {table : EntityState → Bytes} {p : Parser φ}
    {cursor : Bytes} (hp : p.WellFormed table) (hd : p.delimiter ≠ []) (hc : p.Complete cursor) :
    p.partialBuffer.length + 1 ≤ (p.completed cursor).partialBuffer.length + p.delimiter.length := by
  have hpos := List.length_pos_iff.mpr (hp.read_ne_nil hd hc)
  have hlen := List.length_pos_iff.mpr hd
  have hk := hp.progress_le
  have hprogress : (p.search cursor).progress ≤ p.delimiter.length :=
    progress_scan_le (by omega) _
  simp only [completed, List.length_take, List.length_append]
  omega

/-! ### Requests -/

namespace RequestParser

open HttpRequest

/-- The bytes seen so far never exceed the largest `size_t`. -/
theorem oversized_sizeMax (p : RequestParser) : oversized sizeMax p = none := by
  have hlt : p.occupied < 2 ^ 64 := Nat.mod_lt _ (by decide)
  rw [oversized, if_neg]
  simp only [sizeMax]
  omega

/-- A header line does not look at the byte count. -/
private theorem line_recount (p : RequestParser) (n : ℕ) :
    (line (p.recount n)).uncounted = (line p).uncounted := by
  have hbuffer : (p.recount n).partialBuffer = p.partialBuffer := rfl
  unfold line
  rw [hbuffer]
  split <;> rfl

/-- A blank line does not look at the byte count. -/
private theorem blankLine_recount (p : RequestParser) (n : ℕ) :
    (blankLine (p.recount n)).uncounted = (blankLine p).uncounted := by
  have hstate : (p.recount n).state = p.state := rfl
  have hheaders : (p.recount n).headers = p.headers := rfl
  unfold blankLine
  rw [hstate, hheaders]
  split
  · split <;> rfl
  · by_cases hte : p.state ≠ .trailer ∧
      p.headers.find (ascii "Transfer-Encoding") = some (ascii "chunked")
    · rw [if_pos hte, if_pos hte]
      rfl
    · rw [if_neg hte, if_neg hte]
      rfl

/-- The `switch` does not look at the byte count. -/
theorem token_recount (curl : Curl) (p : RequestParser) (n : ℕ) :
    (token curl (p.recount n)).uncounted = (token curl p).uncounted := by
  by_cases hline : p.state = .headers ∨ p.state = .trailer
  · rw [token_of_line hline, token_of_line (p := p.recount n) hline]
    -- a blank line or a header line, and neither looks at the count
    by_cases hnil : p.partialBuffer = []
    · have hnil' : (p.recount n).partialBuffer = [] := hnil
      rw [if_neg (not_not.mpr hnil), if_neg (not_not.mpr hnil')]
      exact blankLine_recount p n
    · have hnil' : (p.recount n).partialBuffer ≠ [] := hnil
      rw [if_pos hnil, if_pos hnil']
      exact line_recount p n
  · obtain ⟨⟨version, headers, body, delimiter, buffer, progress, state, bodyLength, consumed⟩,
      fields⟩ := p
    cases state with
    | message | code | body | chunk => rfl
    | method | path | chunkLength =>
      simp only [token, Parser.recount]
      split <;> rfl
    | version =>
      by_cases hv : buffer ∈ supportedVersions <;> simp [token, Parser.recount, hv] <;> rfl
    | headers => exact absurd (.inl rfl) hline
    | trailer => exact absurd (.inr rfl) hline

/-- No method is as long as the early check allows. -/
theorem lookup_method_of_length_le {name : Bytes} (h : methodMaxSize ≤ name.length) :
    stringToMethod.lookup name = none := by
  have hnames : ∀ entry ∈ stringToMethod, entry.1.length < methodMaxSize := by decide
  refine List.lookup_eq_none_iff.mpr fun entry hentry => ?_
  have hne : name ≠ entry.1 := by
    rintro rfl
    exact absurd (hnames entry hentry) (Nat.not_lt.mpr h)
  simpa using hne

/-- No version is as long as the early check allows, less one byte. -/
theorem not_mem_supportedVersions_of_length_le {v : Bytes} (h : versionMaxSize ≤ v.length + 1) :
    v ∉ supportedVersions := by
  have hnames : ∀ name ∈ supportedVersions, name.length + 1 < versionMaxSize := by decide
  exact fun hv => absurd (hnames v hv) (Nat.not_lt.mpr h)

/-- Running out of bytes only matters in the first line of a request: a method or a version that is already too long
is rejected at once. -/
theorem ranOut_eq_some_iff {p : RequestParser} {e : RequestError} :
    p.ranOut = some e ↔ e = .request response400 ∧
      (p.state = .method ∧ methodMaxSize ≤ p.partialBuffer.length ∨
        p.state = .version ∧ versionMaxSize ≤ p.partialBuffer.length) := by
  unfold ranOut
  split_ifs with hm hv
  · simp [hm.1, hm.2, eq_comm]
  · simp [hv.1, hv.2, eq_comm]
  · simp only [false_iff, not_and]
    rintro - (h | h)
    · exact hm h
    · exact hv h

/-- The early checks fail on tokens that will not do when they are complete, but not for that reason. -/
theorem token_of_ranOut (curl : Curl) {p : RequestParser} {cursor : Bytes} {e : RequestError}
    (hp : p.WellFormed delimiterOf) (hran : p.ranOut = some e) (hc : p.Complete cursor) :
    ∃ e' q, token curl (p.completed cursor) = .threw e' q ∧ e' ≠ .request response400 := by
  obtain ⟨-, ⟨hs, hlong⟩ | ⟨hs, hlong⟩⟩ := ranOut_eq_some_iff.mp hran
  -- the complete token is at least as long as the part of it that was too long
  all_goals
    have hdelimiter := hp.delimiter_eq
    rw [hs] at hdelimiter
    have hlen := Parser.length_completed hp (by rw [hdelimiter]; decide) hc
    rw [hdelimiter] at hlen
    replace hs : (p.completed cursor).state = _ := hs
  · change _ ≤ _ + 1 at hlen
    have hlookup : stringToMethod.lookup (p.completed cursor).partialBuffer = none :=
      lookup_method_of_length_le (by omega)
    exact ⟨_, _, by simp only [token, hs, hlookup]; rfl, by decide⟩
  · change _ ≤ _ + 2 at hlen
    have hversion : (p.completed cursor).partialBuffer ∉ supportedVersions :=
      not_mem_supportedVersions_of_length_le (by omega)
    exact ⟨_, _, by simp only [token, hs, if_pos hversion]; rfl, by decide⟩

/-- With no limit on the size, a request is read in the same way however it is cut, but for the rejection of a first
line that is too long. -/
theorem grammar_ignoresCuts (curl : Curl) : (grammar curl sizeMax).IgnoresCuts delimiterOf where
  unlimited := oversized_sizeMax
  token_recount := token_recount curl
  ranOut_recount _ _ := rfl
  anticipates_token hp hran hc :=
    let ⟨e', q, htoken, _⟩ := token_of_ranOut curl hp hran hc
    ⟨e', q, htoken⟩
  anticipates_ranOut {p cursor e} _ hran _ := by
    obtain ⟨-, hlong⟩ := ranOut_eq_some_iff.mp hran
    have hle : p.partialBuffer.length ≤ (p.suspended cursor).partialBuffer.length := by
      simp [Parser.suspended]
    refine ⟨_, ranOut_eq_some_iff.mpr ⟨rfl, hlong.imp ?_ ?_⟩⟩ <;>
      exact fun h => ⟨h.1, Nat.le_trans h.2 hle⟩

end RequestParser

/-! ### Responses -/

namespace ResponseParser

/-- A header line does not look at the byte count. -/
private theorem line_recount (p : ResponseParser) (n : ℕ) :
    (line (p.recount n)).uncounted = (line p).uncounted := by
  have hbuffer : (p.recount n).partialBuffer = p.partialBuffer := rfl
  unfold line
  rw [hbuffer]
  split <;> rfl

/-- A blank line does not look at the byte count. -/
private theorem blankLine_recount (p : ResponseParser) (n : ℕ) :
    (blankLine (p.recount n)).uncounted = (blankLine p).uncounted := by
  have hstate : (p.recount n).state = p.state := rfl
  have hheaders : (p.recount n).headers = p.headers := rfl
  unfold blankLine
  rw [hstate, hheaders]
  split
  · split <;> rfl
  · by_cases hte : p.state ≠ .trailer ∧
      p.headers.find (ascii "Transfer-Encoding") = some (ascii "chunked")
    · rw [if_pos hte, if_pos hte]
      rfl
    · rw [if_neg hte, if_neg hte]
      rfl

/-- The `switch` does not look at the byte count. -/
theorem token_recount (p : ResponseParser) (n : ℕ) :
    (token (p.recount n)).uncounted = (token p).uncounted := by
  by_cases hline : p.state = .headers ∨ p.state = .trailer
  · rw [token_of_line hline, token_of_line (p := p.recount n) hline]
    by_cases hnil : p.partialBuffer = []
    · have hnil' : (p.recount n).partialBuffer = [] := hnil
      rw [if_neg (not_not.mpr hnil), if_neg (not_not.mpr hnil')]
      exact blankLine_recount p n
    · have hnil' : (p.recount n).partialBuffer ≠ [] := hnil
      rw [if_pos hnil, if_pos hnil']
      exact line_recount p n
  · obtain ⟨⟨version, headers, body, delimiter, buffer, progress, state, bodyLength, consumed⟩,
      fields⟩ := p
    cases state with
    | method | path | message | body | chunk => rfl
    | code | chunkLength =>
      simp only [token, Parser.recount]
      split <;> rfl
    | version =>
      by_cases hv : buffer ∈ supportedVersions <;> simp [token, Parser.recount, hv] <;> rfl
    | headers => exact absurd (.inl rfl) hline
    | trailer => exact absurd (.inr rfl) hline

/-- Responses are read in the same way however they are cut. -/
theorem grammar_ignoresCuts : grammar.IgnoresCuts delimiterOf where
  unlimited _ := rfl
  token_recount := token_recount
  ranOut_recount _ _ := rfl
  anticipates_token _ h := nomatch h
  anticipates_ranOut _ h := nomatch h

end ResponseParser

/-- However a stream is cut into pieces, a fresh request parser without a limit and a fresh response
parser read in pieces what they read at once. -/
theorem fromStream_cutting (curl : Curl) (pieces : List Bytes)
    (hpieces : ∀ piece ∈ pieces, piece ≠ []) :
    ReadsInPieces (fun p piece => RequestParser.fromStream curl p sizeMax piece) RequestParser.fresh
      pieces ∧
      ReadsInPieces ResponseParser.fromStream ResponseParser.fresh pieces := by
  constructor
  · exact (RequestParser.grammar_ignoresCuts curl).readsInPieces
      (RequestParser.grammar_lawful curl sizeMax) RequestParser.wellFormed_fresh hpieces
  · exact ResponseParser.grammar_ignoresCuts.readsInPieces ResponseParser.grammar_lawful
      ResponseParser.wellFormed_fresh hpieces

/-- A cut between the `\r` and the `\n` of a header line, and one inside a chunk. -/
theorem fromStream_cutting_example :
    ReadsInPieces (fun p piece => RequestParser.fromStream .percent p sizeMax piece)
        RequestParser.fresh
        [ascii "POST / HTTP/1.1\r\nTransfer-Encoding: chunked\r", ascii "\n\r\n3\r\na",
          ascii "bc\r\n0\r\n\r\n"] ∧
      ReadsInPieces ResponseParser.fromStream ResponseParser.fresh
        [ascii "POST / HTTP/1.1\r\nTransfer-Encoding: chunked\r", ascii "\n\r\n3\r\na",
          ascii "bc\r\n0\r\n\r\n"] :=
  fromStream_cutting .percent _ (by decide)

end PrimeServer
