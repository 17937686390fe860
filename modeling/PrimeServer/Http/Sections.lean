import PrimeServer.Http.Emitted
import PrimeServer.Http.Endings
import PrimeServer.Http.Forwarding
import PrimeServer.Http.RoundTrip

/-!
# Header sections

What follows a start line is read by the two `from_stream` functions with the same `switch`, except for the
header lines: a request cuts them at the first `:` and drops all spaces after it, a response cuts them at
the first `: `.

## Main results

* `tokens_match`: side by side in a section, the two parsers do the same with a token, if it is no line that
  they read differently;
* `RequestParser.sameVerdict_iff`: they accept and reject the same if they read all lines alike, and a
  request is read as a response with the same headers only then.
-/

namespace PrimeServer

open Chunking Delimiter

/-! ### Lines -/

/-- The two parsers make the same of a line when they have read these headers: it has no `:`, or there is
one space after the first `:`. If there are more, then the name is known already, and the line has no
effect. -/
def ReadAlike (headers : Headers) (line : Bytes) : Prop :=
  ∀ name after, splitAt (byte ':') line = some (name, after) →
    after.head? = some (byte ' ') ∧ (after.tail.head? = some (byte ' ') → headers.find name ≠ none)

instance (headers : Headers) (line : Bytes) : Decidable (ReadAlike headers line) :=
  match h : splitAt (byte ':') line with
  | none => isTrue fun _ _ hsome => by simp [h] at hsome
  | some (name, after) =>
    decidable_of_iff
      (after.head? = some (byte ' ') ∧ (after.tail.head? = some (byte ' ') → headers.find name ≠ none))
      (by simp [ReadAlike, h])

variable {headers : Headers} {line : Bytes}

/-- The text is the name, the separator and the value. -/
theorem eq_of_splitAtSeparator {sep text name value : Bytes}
    (h : splitAtSeparator sep text = some (name, value)) : text = name ++ sep ++ value := by
  induction text generalizing name with
  | nil => cases h
  | cons b text ih =>
    rw [splitAtSeparator] at h
    split_ifs at h with hprefix
    · obtain ⟨rfl, rfl⟩ : [] = name ∧ (b :: text).drop sep.length = value := by simpa using h
      obtain ⟨after, hafter⟩ := List.isPrefixOf_iff_prefix.mp hprefix
      rw [← hafter, List.drop_left, List.nil_append]
    · obtain ⟨name', hrest, rfl⟩ : ∃ x, splitAtSeparator sep text = some (x, value) ∧ b :: x = name := by
        simpa using h
      rw [ih hrest]
      rfl

/-- Without `:`, neither parser finds its separator. -/
theorem splitAtSeparator_eq_none (h : splitAt (byte ':') line = none) :
    splitAtSeparator (ascii ": ") line = none := by
  cases hsplit : splitAtSeparator (ascii ": ") line with
  | none => rfl
  | some parts =>
    have hline := eq_of_splitAtSeparator hsplit
    rw [splitAt_eq_none, hline] at h
    exact absurd (by simp [ascii]) h

/-- Where one space follows the first `:`, both parsers cut off the same name. -/
theorem splitAtSeparator_of_head {name after value : Bytes}
    (h : splitAt (byte ':') line = some (name, after)) (hafter : after = byte ' ' :: value) :
    splitAtSeparator (ascii ": ") line = some (name, value) := by
  obtain ⟨rfl, hname⟩ := eq_of_splitAt h
  have hnot : ¬ ascii ": " <:+: name := fun hinside => hname (hinside.subset (by decide))
  have hparts : name ++ byte ':' :: after = name ++ ascii ": " ++ value := by
    simp [hafter, ascii]
  rw [hparts, splitAtSeparator_append hnot]

/-- Where no space follows the first `:`, a response parser takes more for the name. -/
theorem colon_mem_of_head {name after name' value : Bytes}
    (h : splitAt (byte ':') line = some (name, after)) (hafter : after.head? ≠ some (byte ' '))
    (h' : splitAtSeparator (ascii ": ") line = some (name', value)) : byte ':' ∈ name' := by
  by_contra hname'
  have hline := eq_of_splitAtSeparator h'
  have hparts : name' ++ ascii ": " ++ value = name' ++ byte ':' :: byte ' ' :: value := by
    simp [ascii]
  rw [hline, hparts, splitAt_append hname'] at h
  obtain ⟨-, rfl⟩ : name' = name ∧ byte ' ' :: value = after := by simpa using h
  exact hafter rfl

/-- A value with a space in front loses it in a request only. -/
theorem dropWhile_eq_self_iff {value : Bytes} :
    value.dropWhile (· = byte ' ') = value ↔ value.head? ≠ some (byte ' ') := by
  rw [List.dropWhile_eq_self_iff]
  cases value <;> simp

/-- A line that is read alike adds the same header. -/
theorem ReadAlike.exists_value (h : ReadAlike headers line) {name after : Bytes}
    (hsplit : splitAt (byte ':') line = some (name, after)) :
    ∃ value, splitAtSeparator (ascii ": ") line = some (name, value) ∧
      headers.insert name (after.dropWhile (· = byte ' ')) = headers.insert name value := by
  obtain ⟨hspace, hmore⟩ := h name after hsplit
  obtain ⟨value, hafter⟩ : ∃ value, after = byte ' ' :: value := by
    cases after with
    | nil => cases hspace
    | cons b value => exact ⟨value, by simpa using hspace⟩
  refine ⟨value, splitAtSeparator_of_head hsplit hafter, ?_⟩
  have hdrop : after.dropWhile (· = byte ' ') = value.dropWhile (· = byte ' ') := by
    simp [hafter]
  rw [hdrop]
  by_cases hvalue : value.head? = some (byte ' ')
  · -- the first value of a name stays
    have hknown := hmore (by rw [hafter, List.tail_cons, hvalue])
    rw [ne_eq, AssocMap.find_eq_none_iff, not_not] at hknown
    rw [AssocMap.insert_of_mem hknown, AssocMap.insert_of_mem hknown]
  · rw [dropWhile_eq_self_iff.mpr hvalue]

/-- A line that is not read alike is refused by the response parser, or gives it a name with a `:`, or gives
it another value for a new name. -/
theorem exists_of_not_readAlike (h : ¬ReadAlike headers line) :
    ∃ name after, splitAt (byte ':') line = some (name, after) ∧
      ∀ name' value, splitAtSeparator (ascii ": ") line = some (name', value) →
        byte ':' ∈ name' ∨
          name' = name ∧ headers.find name = none ∧ after.dropWhile (· = byte ' ') ≠ value := by
  unfold ReadAlike at h
  push Not at h
  obtain ⟨name, after, hsplit, hnot⟩ := h
  refine ⟨name, after, hsplit, fun name' value hsplit' => ?_⟩
  by_cases hspace : after.head? = some (byte ' ')
  · -- the names are the same, and a space more is in one of the values
    obtain ⟨hmore, hnew⟩ := hnot hspace
    obtain ⟨value', hafter⟩ : ∃ value', after = byte ' ' :: value' := by
      cases after with
      | nil => cases hspace
      | cons b value' => exact ⟨value', by simpa using hspace⟩
    rw [splitAtSeparator_of_head hsplit hafter] at hsplit'
    obtain ⟨rfl, rfl⟩ : name = name' ∧ value' = value := by simpa using hsplit'
    refine Or.inr ⟨rfl, hnew, fun heq => ?_⟩
    have hdrop : value'.dropWhile (· = byte ' ') = value' := by simpa [hafter] using heq
    rw [hafter, List.tail_cons] at hmore
    exact dropWhile_eq_self_iff.mp hdrop hmore
  · exact Or.inl (colon_mem_of_head hsplit hspace hsplit')

/-! ### Side by side -/

/-- A request parser and a response parser in the same place of the same section. -/
structure Alongside (p : RequestParser) (q : ResponseParser) : Prop where
  headers : p.headers = q.headers
  body : p.body = q.body
  delimiter : p.delimiter = q.delimiter
  partialBuffer : p.partialBuffer = q.partialBuffer
  partialLength : p.partialLength = q.partialLength
  bodyLength : p.bodyLength = q.bodyLength
  state : p.state = q.state
  /-- Both are in the headers or in what follows them. -/
  inSection : RequestParser.Versioned p.state

namespace Alongside

variable {curl : Curl} {p : RequestParser} {q : ResponseParser} {cursor : Bytes}

/-- Both parsers search for the same. -/
theorem search_eq (h : Alongside p q) (cursor : Bytes) : p.search cursor = q.search cursor := by
  simp only [Parser.search, h.delimiter, h.bodyLength, h.partialLength]

/-- Both parsers complete a token with the same bytes. -/
theorem complete_iff (h : Alongside p q) (cursor : Bytes) : p.Complete cursor ↔ q.Complete cursor := by
  simp only [Parser.Complete, h.delimiter, h.bodyLength, h.partialLength]

/-- After the same token both parsers still go side by side. -/
theorem completed (h : Alongside p q) (cursor : Bytes) :
    Alongside (p.completed cursor) (q.completed cursor) where
  headers := h.headers
  body := h.body
  delimiter := h.delimiter
  partialBuffer := by simp only [Parser.completed, h.partialBuffer, h.search_eq]
  partialLength := rfl
  bodyLength := rfl
  state := h.state
  inSection := h.inSection

/-- Both parsers keep the same part of a token. -/
theorem suspended (h : Alongside p q) (cursor : Bytes) :
    Alongside (p.suspended cursor) (q.suspended cursor) where
  headers := h.headers
  body := h.body
  delimiter := h.delimiter
  partialBuffer := by simp only [Parser.suspended, h.partialBuffer]
  partialLength := by simp only [Parser.suspended, h.search_eq]
  bodyLength := by simp only [Parser.suspended, h.bodyLength]
  state := h.state
  inSection := h.inSection

/-- Both parsers begin the next token side by side. -/
theorem clearBuffer (h : Alongside p q) : Alongside p.clearBuffer q.clearBuffer where
  headers := h.headers
  body := h.body
  delimiter := h.delimiter
  partialBuffer := rfl
  partialLength := h.partialLength
  bodyLength := h.bodyLength
  state := h.state
  inSection := h.inSection

end Alongside

/-- The messages have the same headers and the same body. -/
def SameContent (m : HttpRequest) (m' : HttpResponse) : Prop := m.headers = m'.headers ∧ m.body = m'.body

/-- The two parsers do the same with a token. -/
inductive TokensMatch : Token RequestFields HttpRequest RequestError →
    Token ResponseFields HttpResponse StdException → Prop where
  /-- Both throw. -/
  | threw {e : RequestError} {e' : StdException} {p : RequestParser} {q : ResponseParser} :
      TokensMatch (.threw e p) (.threw e' q)
  /-- Both go on to their next token. -/
  | next {p : RequestParser} {q : ResponseParser} (h : Alongside p q) :
      TokensMatch (.next none p) (.next none q)
  /-- Both hand out a message. -/
  | handed {m : HttpRequest} {m' : HttpResponse} {p : RequestParser} {q : ResponseParser}
      (h : SameContent m m') : TokensMatch (.next (some m) p) (.next (some m') q)

section Tokens

variable {p : RequestParser} {q : ResponseParser}

/-- A header line. -/
theorem line_match (h : Alongside p q) (hline : ReadAlike p.headers p.partialBuffer) :
    TokensMatch (RequestParser.line p) (ResponseParser.line q) := by
  unfold RequestParser.line ResponseParser.line
  cases hsplit : splitAt (byte ':') p.partialBuffer with
  | none =>
    -- without a `:` both throw
    have hsplit' := splitAtSeparator_eq_none hsplit
    rw [h.partialBuffer] at hsplit'
    rw [hsplit']
    exact .threw
  | some parts =>
    obtain ⟨name, after⟩ := parts
    obtain ⟨value, hsplit', hinsert⟩ := hline.exists_value hsplit
    rw [h.partialBuffer] at hsplit'
    rw [hsplit']
    refine .next ⟨?_, h.body, h.delimiter, h.partialBuffer, h.partialLength, h.bodyLength, h.state,
      h.inSection⟩
    change p.headers.insert _ _ = q.headers.insert _ _
    rw [hinsert, h.headers]

/-- The messages gathered so far. -/
theorem emit_match (h : Alongside p q) : TokensMatch (RequestParser.emit p) (ResponseParser.emit q) :=
  .handed ⟨h.headers, h.body⟩

/-- The blank line after the header lines or the trailer lines. -/
theorem blankLine_match (h : Alongside p q) (hs : p.state = .headers ∨ p.state = .trailer) :
    TokensMatch (RequestParser.blankLine p) (ResponseParser.blankLine q) := by
  rcases hs with hs | hs
  · -- the headers decide how the body is framed
    have hfind : ∀ name, q.headers.find name = p.headers.find name := fun name => by rw [h.headers]
    rw [RequestParser.blankLine_of_headers hs, ResponseParser.blankLine_of_headers (h.state ▸ hs), hfind,
      hfind]
    cases p.headers.find (ascii "Content-Length") with
    | some value =>
      cases hn : stoul 10 value with
      | error e =>
        simp only [hn]
        exact .threw
      | ok n =>
        simp only [hn]
        exact .next ⟨h.headers, h.body, rfl, h.partialBuffer, h.partialLength, rfl, rfl, trivial⟩
    | none =>
      by_cases hte : p.headers.find (ascii "Transfer-Encoding") = some (ascii "chunked")
      · rw [if_pos hte, if_pos hte]
        exact .next ⟨h.headers, h.body, h.delimiter, h.partialBuffer, h.partialLength, h.bodyLength, rfl,
          trivial⟩
      · rw [if_neg hte, if_neg hte]
        exact emit_match h
  · rw [RequestParser.blankLine_of_trailer hs, ResponseParser.blankLine_of_trailer (h.state ▸ hs)]
    exact emit_match h

/-- Side by side in a section, the two parsers do the same with a token, if it is no line that they read
differently. -/
theorem tokens_match (curl : Curl) (h : Alongside p q)
    (hline : p.state = .headers ∨ p.state = .trailer → ReadAlike p.headers p.partialBuffer) :
    TokensMatch (RequestParser.token curl p) (ResponseParser.token q) := by
  have hstate := h.state
  have hin := h.inSection
  cases hs : p.state with
  | method | message | code | path | version => simp [hs, RequestParser.Versioned] at hin
  | headers | trailer =>
    have hlines : p.state = .headers ∨ p.state = .trailer := by simp [hs]
    rw [RequestParser.token_of_line hlines, ResponseParser.token_of_line (hstate ▸ hlines)]
    by_cases hbuffer : p.partialBuffer = []
    · rw [if_neg (not_not.mpr hbuffer), if_neg (not_not.mpr (h.partialBuffer ▸ hbuffer))]
      exact blankLine_match h hlines
    · rw [if_pos hbuffer, if_pos (h.partialBuffer ▸ hbuffer)]
      exact line_match h (hline hlines)
  | body =>
    rw [hs] at hstate
    simp only [RequestParser.token, ResponseParser.token, hs, ← hstate]
    exact .handed ⟨h.headers, h.partialBuffer⟩
  | chunk =>
    rw [hs] at hstate
    simp only [RequestParser.token, ResponseParser.token, hs, ← hstate]
    refine .next ⟨h.headers, ?_, h.delimiter, h.partialBuffer, h.partialLength, h.bodyLength, rfl, trivial⟩
    simp only [h.body, h.partialBuffer]
  | chunkLength =>
    rw [hs] at hstate
    have hbuffer : stoul 16 q.partialBuffer = stoul 16 p.partialBuffer := by rw [h.partialBuffer]
    simp only [RequestParser.token, ResponseParser.token, hs, ← hstate, hbuffer]
    cases stoul 16 p.partialBuffer with
    | error e => exact .threw
    | ok n =>
      refine .next ⟨h.headers, h.body, h.delimiter, h.partialBuffer, h.partialLength, rfl, rfl, ?_⟩
      by_cases hn : n = 0 <;> simp [hn, RequestParser.Versioned]

end Tokens

/-- The two messages end alike. -/
inductive EndsAlike : Ending RequestFields HttpRequest RequestError →
    Ending ResponseFields HttpResponse StdException → Prop where
  /-- Both throw. -/
  | threw {e : RequestError} {e' : StdException} {p : RequestParser} {q : ResponseParser} :
      EndsAlike (.threw e p) (.threw e' q)
  /-- Both wait for more. -/
  | suspended {p : RequestParser} {q : ResponseParser} : EndsAlike (.suspended p) (.suspended q)
  /-- Both hand out a message, with the same bytes left. -/
  | handed {m : HttpRequest} {m' : HttpResponse} {p : RequestParser} {q : ResponseParser} {rest : Bytes}
      (h : SameContent m m') : EndsAlike (.handed m p rest) (.handed m' q rest)

namespace RequestParser

variable {curl : Curl} {p : RequestParser} {q : ResponseParser} {s : Bytes}

/-- The header lines and trailer lines that the loop reads up to the end of the message, blank ones among
them, each with the headers before it. -/
def lines (curl : Curl) : ℕ → RequestParser → Bytes → List (Headers × Bytes)
  | 0, _, _ => []
  | fuel + 1, p, cursor =>
    (if (p.state = .headers ∨ p.state = .trailer) ∧ p.Complete cursor then
      [(p.headers, (p.completed cursor).partialBuffer)] else []) ++
      match (grammar curl sizeMax).turn p cursor with
      | .again none q rest => lines curl fuel q rest
      | _ => []

/-- Every line of the section is read alike. -/
def LinesAlike (curl : Curl) (p : RequestParser) (s : Bytes) : Prop :=
  ∀ entry ∈ lines curl (2 * s.length + 2) p s, ReadAlike entry.1 entry.2

instance (curl : Curl) (p : RequestParser) (s : Bytes) : Decidable (LinesAlike curl p s) :=
  inferInstanceAs (Decidable (∀ entry ∈ lines curl (2 * s.length + 2) p s, ReadAlike entry.1 entry.2))

/-- Behind the first line, running out of bytes is no reason to reject. -/
theorem ranOut_eq_none_of_versioned (h : Versioned p.state) : p.ranOut = none := by
  unfold ranOut
  split_ifs with hm hv
  · simp [hm.1, Versioned] at h
  · simp [hv.1, Versioned] at h
  · rfl

/-- Side by side, the two loops end the message alike, if they read all of its lines alike. -/
theorem ends_alongside {fuel : ℕ} (hp : p.WellFormed delimiterOf) (hfuel : p.turnsLeft s < fuel)
    (h : Alongside p q) (hlines : ∀ entry ∈ lines curl fuel p s, ReadAlike entry.1 entry.2) :
    ∃ v v', (grammar curl sizeMax).Ends p s v ∧ ResponseParser.grammar.Ends q s v' ∧ EndsAlike v v' := by
  -- by induction on the turns, with a turn of both loops at a time
  induction fuel generalizing p q s with
  | zero => omega
  | succ fuel ih =>
    have hlarge : (grammar curl sizeMax).oversized p = none := oversized_sizeMax p
    have hlarge' : ResponseParser.grammar.oversized q = none := rfl
    by_cases hc : p.Complete s
    · have hc' := (h.complete_iff s).mp hc
      have hturn := Grammar.turn_of_complete hlarge hc
      have hturn' := Grammar.turn_of_complete hlarge' hc'
      have hline : (p.completed s).state = .headers ∨ (p.completed s).state = .trailer →
          ReadAlike (p.completed s).headers (p.completed s).partialBuffer := by
        intro hs
        refine hlines (p.headers, (p.completed s).partialBuffer) ?_
        rw [lines, if_pos ⟨hs, hc⟩]
        exact List.mem_append_left _ (List.mem_singleton_self _)
      have hmatch := tokens_match curl (h.completed s) hline
      change TokensMatch ((grammar curl sizeMax).token _) (ResponseParser.grammar.token _) at hmatch
      generalize htoken : (grammar curl sizeMax).token (p.completed s) = token at hmatch
      generalize htoken' : ResponseParser.grammar.token (q.completed s) = token' at hmatch
      rw [htoken] at hturn
      rw [htoken'] at hturn'
      cases hmatch with
      | threw => exact ⟨_, _, .threw hturn, .threw hturn', .threw⟩
      | handed hsame =>
        rw [← h.search_eq] at hturn'
        exact ⟨_, _, .handed hturn, .handed hturn', .handed hsame⟩
      | @next p₁ q₁ hnext =>
        rw [← h.search_eq] at hturn'
        have hl := grammar_lawful curl sizeMax
        have hless := hl.turnsLeft_again hp hturn
        have hlater : ∀ entry ∈ lines curl fuel p₁.clearBuffer (p.search s).rest,
            ReadAlike entry.1 entry.2 := by
          intro entry hentry
          refine hlines entry ?_
          rw [lines, hturn]
          exact List.mem_append_right _ hentry
        obtain ⟨v, v', hv, hv', halike⟩ :=
          ih (hl.wellFormed_again hp hturn) (by omega) hnext.clearBuffer hlater
        exact ⟨v, v', .again hturn hv, .again hturn' hv', halike⟩
    · -- both wait for the rest of the same token
      have hc' := mt (h.complete_iff s).mpr hc
      have hran : (grammar curl sizeMax).ranOut (p.suspended s) = none :=
        ranOut_eq_none_of_versioned (p := p.suspended s) h.inSection
      have hturn := Grammar.turn_eq_stop_iff.mpr (.suspended hlarge hc hran)
      have hturn' := Grammar.turn_eq_stop_iff.mpr (.suspended hlarge' hc' rfl)
      exact ⟨_, _, .suspended hturn, .suspended hturn', .suspended⟩

end RequestParser

/-! ### Lines that are not read alike -/

/-- The first value of a name stays. -/
theorem find_insert_of_find {headers : Headers} {name value : Bytes} (h : headers.find name = some value)
    (name' value' : Bytes) : (headers.insert name' value').find name = some value := by
  rw [AssocMap.find_insert, h]
  simp

/-- A name that was not there is found with its value after it was inserted. -/
theorem find_insert_self {headers : Headers} {name : Bytes} (h : headers.find name = none)
    (value : Bytes) : (headers.insert name value).find name = some value := by
  rw [AssocMap.find_insert, if_pos rfl, h]
  rfl

/-- A header that a request parser has read is one of its message. -/
theorem RequestParser.find_of_ends {curl : Curl} {p q : RequestParser} {cursor rest name value : Bytes}
    {m : HttpRequest} (h : (grammar curl sizeMax).Ends p cursor (.handed m q rest))
    (hfind : p.headers.find name = some value) : m.headers.find name = some value := by
  refine h.invariant (P := fun p => p.headers.find name = some value)
    (Q := fun m => m.headers.find name = some value) (fun hp htoken => ?_) (fun hp htoken => ?_) id id
    hfind rfl
  · cases token_eq_next_iff.mp htoken with
    | header => exact find_insert_of_find hp _ _
    | _ => exact hp
  · cases token_eq_next_iff.mp htoken <;> exact hp

/-- A header that a response parser has read is one of its message. -/
theorem ResponseParser.find_of_ends {p q : ResponseParser} {cursor rest name value : Bytes}
    {m : HttpResponse} (h : grammar.Ends p cursor (.handed m q rest))
    (hfind : p.headers.find name = some value) : m.headers.find name = some value := by
  refine h.invariant (P := fun p => p.headers.find name = some value)
    (Q := fun m => m.headers.find name = some value) (fun hp htoken => ?_) (fun hp htoken => ?_) id id
    hfind rfl
  · cases token_eq_next_iff.mp htoken with
    | header => exact find_insert_of_find hp _ _
    | _ => exact hp
  · cases token_eq_next_iff.mp htoken <;> exact hp

set_option maxRecDepth 4000 in
/-- Names are compared without case, and this makes no colon of anything else. -/
theorem colon_mem_caseless_iff {name : Bytes} : byte ':' ∈ caseless name ↔ byte ':' ∈ name := by
  have htolower : ∀ b : UInt8, tolower b = byte ':' ↔ b = byte ':' := forall_byte (by decide)
  simp only [caseless, List.mem_map, htolower, exists_eq_right]

/-- No name of a request has a `:`. -/
theorem find_eq_none_of_colon {m : HttpRequest} (hm : IsRequest m) {name : Bytes}
    (hname : byte ':' ∈ name) : m.headers.find name = none := by
  cases hfind : m.headers.find name with
  | none => rfl
  | some value =>
    obtain ⟨name', hsame, hmem⟩ := AssocMap.mem_entries_of_find hfind
    have hcolon := (hm.headers _ hmem).name
    rw [← colon_mem_caseless_iff, hsame, colon_mem_caseless_iff] at hcolon
    exact absurd hname hcolon

namespace RequestParser

variable {curl : Curl} {p p' : RequestParser} {q q' : ResponseParser} {s rest rest' : Bytes}
  {m : HttpRequest} {m' : HttpResponse}

/-- A message with the same headers tells that the line was read alike. -/
theorem readAlike_of_ends (h : Alongside p q) (hs : p.state = .headers ∨ p.state = .trailer)
    (hm : (grammar curl sizeMax).Ends p s (.handed m p' rest))
    (hm' : ResponseParser.grammar.Ends q s (.handed m' q' rest')) (hrequest : IsRequest m)
    (hsame : m.headers = m'.headers) (hc : p.Complete s) :
    ReadAlike p.headers (p.completed s).partialBuffer := by
  by_contra hnot
  obtain ⟨name, after, hsplit, hother⟩ := exists_of_not_readAlike hnot
  have hc' := (h.complete_iff s).mp hc
  have hbuffer := (h.completed s).partialBuffer
  have hne : (p.completed s).partialBuffer ≠ [] := by
    intro hnil
    simp [hnil, splitAt] at hsplit
  -- the request parser reads a header
  have htoken : (grammar curl sizeMax).token (p.completed s) = .next none
      { p.completed s with
        headers := (p.completed s).headers.insert name (after.dropWhile (· = byte ' ')) } :=
    token_eq_next_iff.mpr (.header hs hne hsplit)
  have hrest := hm.of_next (oversized_sizeMax p) hc htoken
  cases hsplit' : splitAtSeparator (ascii ": ") (q.completed s).partialBuffer with
  | none =>
    have htoken' : ResponseParser.grammar.token (q.completed s) =
        .threw (.runtimeError "Expected http header") (q.completed s) := by
      change ResponseParser.token _ = _
      rw [ResponseParser.token_of_line (h.state ▸ hs), if_pos (hbuffer ▸ hne), ResponseParser.line,
        hsplit']
    cases hm'.of_threw rfl hc' htoken'
  | some parts =>
    obtain ⟨name', value⟩ := parts
    have htoken' : ResponseParser.grammar.token (q.completed s) = .next none
        { q.completed s with headers := (q.completed s).headers.insert name' value } :=
      ResponseParser.token_eq_next_iff.mpr (.header (h.state ▸ hs) (hbuffer ▸ hne) hsplit')
    have hrest' := hm'.of_next rfl hc' htoken'
    rcases hother name' value (hbuffer ▸ hsplit') with hcolon | ⟨rfl, hnew, hvalue⟩
    · -- the response has a name that no request has
      have hnone := find_eq_none_of_colon hrequest hcolon
      have hfind : (q.headers.insert name' value).find name' =
          some ((q.headers.find name').getD value) := by
        rw [AssocMap.find_insert, if_pos rfl]
      have hmessage := ResponseParser.find_of_ends hrest' hfind
      rw [← hsame, hnone] at hmessage
      cases hmessage
    · -- a new name has two values
      have hfind := find_of_ends hrest (find_insert_self hnew (after.dropWhile (· = byte ' ')))
      have hnew' : q.headers.find name' = none := h.headers ▸ hnew
      have hfind' := ResponseParser.find_of_ends hrest' (find_insert_self hnew' value)
      rw [hsame, hfind'] at hfind
      exact hvalue (Option.some.inj hfind).symm

/-- A request and a response with the same headers tell that all lines of the section were read alike. -/
theorem linesAlike_of_ends {fuel : ℕ} (h : Alongside p q)
    (hm : (grammar curl sizeMax).Ends p s (.handed m p' rest))
    (hm' : ResponseParser.grammar.Ends q s (.handed m' q' rest')) (hrequest : IsRequest m)
    (hsame : m.headers = m'.headers) :
    ∀ entry ∈ lines curl fuel p s, ReadAlike entry.1 entry.2 := by
  induction fuel generalizing p q s with
  | zero => exact List.forall_mem_nil _
  | succ fuel ih =>
    have hc := hm.complete rfl
    have hc' := (h.complete_iff s).mp hc
    -- this line is read alike, so that the parsers are still side by side after it
    have hline : p.state = .headers ∨ p.state = .trailer →
        ReadAlike p.headers (p.completed s).partialBuffer :=
      fun hs => readAlike_of_ends h hs hm hm' hrequest hsame hc
    have hmatch := tokens_match curl (h.completed s) hline
    change TokensMatch ((grammar curl sizeMax).token _) (ResponseParser.grammar.token _) at hmatch
    have hturn := Grammar.turn_of_complete (g := grammar curl sizeMax) (oversized_sizeMax p) hc
    generalize htoken : (grammar curl sizeMax).token (p.completed s) = token at hmatch hturn
    generalize htoken' : ResponseParser.grammar.token (q.completed s) = token' at hmatch
    rw [lines, List.forall_mem_append, hturn]
    constructor
    · split_ifs with hs
      · exact List.forall_mem_singleton.mpr (hline hs.1)
      · exact List.forall_mem_nil _
    · cases hmatch with
      | threw | handed => exact List.forall_mem_nil _
      | next hnext =>
        have hrest := hm.of_next (oversized_sizeMax p) hc htoken
        have hrest' := hm'.of_next rfl hc' htoken'
        rw [← h.search_eq] at hrest'
        exact ih hnext.clearBuffer hrest hrest'

end RequestParser

/-! ### The same verdict -/

/-- A call threw. -/
def Rejected {φ μ ε : Type} (r : Reading (Parser φ) μ ε) : Prop := ∃ e t, r = .threw e t

/-- What was read is one request with these headers and this body, and nothing more. -/
def RequestParser.Accepted (r : Reading RequestParser HttpRequest RequestError) (headers : Headers)
    (body : Bytes) : Prop :=
  ∃ m, OneMessage .method r m ∧ m.headers = headers ∧ m.body = body

/-- What was read is one response with these headers and this body, and nothing more. -/
def ResponseParser.Accepted (r : Reading ResponseParser HttpResponse StdException) (headers : Headers)
    (body : Bytes) : Prop :=
  ∃ m, OneMessage .version r m ∧ m.headers = headers ∧ m.body = body

/-- Both parsers reject what they read, or neither does, and what one accepts the other accepts with the same
headers and the same body. -/
structure SameVerdict (r : Reading RequestParser HttpRequest RequestError)
    (r' : Reading ResponseParser HttpResponse StdException) : Prop where
  /-- One throws exactly when the other does. -/
  rejected : Rejected r ↔ Rejected r'
  /-- They read the same headers and the same body. -/
  accepted : ∀ headers body, RequestParser.Accepted r headers body ↔ ResponseParser.Accepted r' headers body

/-- No request ends before the end of the section. -/
def Single (curl : Curl) (p : RequestParser) (s : Bytes) : Prop :=
  ∀ n < s.length, ∀ headers body,
    ¬RequestParser.Accepted (p.fromStream curl sizeMax (s.take n)) headers body

/-- What a response parser reads of the section tells how its response ends. -/
theorem ResponseParser.accepted_iff_ends {q : ResponseParser} {s : Bytes} (hq : q.WellFormed delimiterOf)
    (hs : s ≠ []) {headers : Headers} {body : Bytes} :
    Accepted (fromStream q s) headers body ↔
      ∃ m t, grammar.Ends q s (.handed m t []) ∧ m.headers = headers ∧ m.body = body :=
  grammar_restarts.exists_oneMessage_iff ((grammar_lawful.fromStream_eq_iff_reads hq hs).mp rfl)

/-- A status line leaves a parser of responses that can go on. -/
theorem ResponseParser.wellFormed_of_startLine {start : Bytes} {q : ResponseParser}
    (hq : StartLine grammar fresh start q) : q.WellFormed delimiterOf :=
  hq.wellFormed grammar_ignoresCuts grammar_lawful wellFormed_fresh

namespace RequestParser

variable {curl : Curl} {start start' s : Bytes} {p : RequestParser} {q : ResponseParser}

/-- After a first line and a status line, both parsers are at the same place of a header section. -/
theorem alongside_of_startLine (hp : StartLine (grammar curl sizeMax) fresh start p)
    (hq : StartLine ResponseParser.grammar ResponseParser.fresh start' q) : Alongside p q where
  headers := hp.headers.trans hq.headers.symm
  body := hp.body.trans hq.body.symm
  delimiter := hp.delimiter.trans hq.delimiter.symm
  partialBuffer := hp.atToken.buffer.trans hq.atToken.buffer.symm
  partialLength := hp.atToken.progress.trans hq.atToken.progress.symm
  bodyLength := hp.bodyLength.trans hq.bodyLength.symm
  state := hp.state.trans hq.state.symm
  inSection := by simp [hp.state, Versioned]

/-- A first line leaves a parser of requests that can go on. -/
theorem wellFormed_of_startLine (hp : StartLine (grammar curl sizeMax) fresh start p) :
    p.WellFormed delimiterOf :=
  hp.wellFormed (grammar_ignoresCuts curl) (grammar_lawful curl sizeMax) wellFormed_fresh

/-- In a single section, the request ends with the last byte. -/
theorem rest_eq_nil (hp : StartLine (grammar curl sizeMax) fresh start p) (hsingle : Single curl p s)
    {m : HttpRequest} {t : RequestParser} {rest : Bytes}
    (hm : (grammar curl sizeMax).Ends p s (.handed m t rest)) : rest = [] := by
  by_contra hne
  -- the request would have been accepted without the rest
  obtain ⟨read, rfl, hread⟩ := hm.exists_read rfl
  have hends := hread []
  rw [List.append_nil] at hends
  have hnonempty : read ≠ [] := by
    rintro rfl
    exact hp.not_complete (hends.complete rfl)
  have hreads := ((grammar_lawful curl sizeMax).fromStream_eq_iff_reads (wellFormed_of_startLine hp)
    hnonempty).mp rfl
  have hlength : read.length < (read ++ rest).length := by
    have hpos := List.length_pos_iff.mpr hne
    rw [List.length_append]
    omega
  refine hsingle read.length hlength m.headers m.body ⟨m, ?_, rfl, rfl⟩
  rw [List.take_left']
  · exact ((grammar_restarts curl).oneMessage_iff hreads).mpr ⟨t, hends⟩
  · rfl

/-- What a request parser reads of the section tells how its request ends. -/
theorem accepted_iff_ends (hp : p.WellFormed delimiterOf) (hs : s ≠ []) {headers : Headers} {body : Bytes} :
    Accepted (fromStream curl p sizeMax s) headers body ↔
      ∃ m t, (grammar curl sizeMax).Ends p s (.handed m t []) ∧ m.headers = headers ∧ m.body = body :=
  (grammar_restarts curl).exists_oneMessage_iff
    (((grammar_lawful curl sizeMax).fromStream_eq_iff_reads hp hs).mp rfl)

/-- In whole calls, the lines that are read alike bring the same verdict. -/
theorem sameVerdict_of_linesAlike (hp : StartLine (grammar curl sizeMax) fresh start p)
    (hq : StartLine ResponseParser.grammar ResponseParser.fresh start' q) (hsingle : Single curl p s)
    (hs : s ≠ []) (hlines : LinesAlike curl p s) :
    SameVerdict (p.fromStream curl sizeMax s) (q.fromStream s) := by
  have hwellFormed := wellFormed_of_startLine hp
  have hwellFormed' := ResponseParser.wellFormed_of_startLine hq
  have hreads := ((grammar_lawful curl sizeMax).fromStream_eq_iff_reads hwellFormed hs).mp rfl
  have hreads' := (ResponseParser.grammar_lawful.fromStream_eq_iff_reads hwellFormed' hs).mp rfl
  have hfuel : p.turnsLeft s < 2 * s.length + 2 := by
    unfold Parser.turnsLeft
    split_ifs <;> omega
  obtain ⟨v, v', hv, hv', halike⟩ :=
    ends_alongside hwellFormed hfuel (alongside_of_startLine hp hq) hlines
  -- what is read is one message at most, so that nothing is left behind its end
  have hlast : ∀ m t rest, (grammar curl sizeMax).Ends p s (.handed m t rest) → rest = [] :=
    fun m t rest => rest_eq_nil hp hsingle
  have hlast' : ∀ m t rest, ResponseParser.grammar.Ends q s (.handed m t rest) → rest = [] := by
    intro m t rest hends
    obtain rfl := hv'.unique hends
    cases halike with
    | handed => exact hlast _ _ _ hv
  constructor
  · -- what was read threw exactly if the message did, and the two messages end alike
    refine ((grammar_restarts curl).threw_iff hreads hlast).trans
      (Iff.trans ?_ (ResponseParser.grammar_restarts.threw_iff hreads' hlast').symm)
    constructor
    · rintro ⟨e, t, hthrew⟩
      obtain rfl := hv.unique hthrew
      cases halike with
      | threw => exact ⟨_, _, hv'⟩
    · rintro ⟨e, t, hthrew⟩
      obtain rfl := hv'.unique hthrew
      cases halike with
      | threw => exact ⟨_, _, hv⟩
  · intro headers body
    rw [accepted_iff_ends hwellFormed hs, ResponseParser.accepted_iff_ends hwellFormed' hs]
    constructor
    · rintro ⟨m, t, hm, rfl, rfl⟩
      obtain rfl := hv.unique hm
      cases halike with
      | handed hsame => exact ⟨_, _, hv', hsame.1.symm, hsame.2.symm⟩
    · rintro ⟨m, t, hm, rfl, rfl⟩
      obtain rfl := hv'.unique hm
      cases halike with
      | handed hsame => exact ⟨_, _, hv, hsame.1, hsame.2⟩

/-- In whole calls, a request and a response with the same headers have the same lines. -/
theorem linesAlike_of_accepted (hp : StartLine (grammar curl sizeMax) fresh start p)
    (hq : StartLine ResponseParser.grammar ResponseParser.fresh start' q) (hs : s ≠ []) {headers : Headers}
    {body : Bytes} (hrequest : Accepted (p.fromStream curl sizeMax s) headers body)
    (hresponse : ResponseParser.Accepted (q.fromStream s) headers body) : LinesAlike curl p s := by
  have hwellFormed := wellFormed_of_startLine hp
  have hwellFormed' := ResponseParser.wellFormed_of_startLine hq
  have hemitted : ∀ m, OneMessage .method (p.fromStream curl sizeMax s) m → IsRequest m := by
    rintro m ⟨t, ht, -, -⟩
    exact Emitted.isRequest ⟨p, sizeMax, s, [m], t, .returned .fresh hp.read, ht, List.mem_singleton_self m⟩
  obtain ⟨m, hm, rfl, rfl⟩ := hrequest
  have hreads := ((grammar_lawful curl sizeMax).fromStream_eq_iff_reads hwellFormed hs).mp rfl
  obtain ⟨t, hends⟩ := ((grammar_restarts curl).oneMessage_iff hreads).mp hm
  obtain ⟨m', t', hends', hheaders, -⟩ := (ResponseParser.accepted_iff_ends hwellFormed' hs).mp hresponse
  exact linesAlike_of_ends (alongside_of_startLine hp hq) hends hends' (hemitted m hm) hheaders.symm

/-- The first line of a request is a start line. -/
theorem startLine_of_firstLine {m : Method} {name encoded path version : Bytes}
    (hname : stringToMethod.lookup name = some m) (hsilent : Silent (ascii " ") name)
    (hencoded : Silent (ascii " ") encoded) (hpath : urlDecode curl encoded = .ok path)
    (hversion : version ∈ supportedVersions) :
    ∃ p, StartLine (grammar curl sizeMax) fresh
      (name ++ ascii " " ++ encoded ++ ascii " " ++ version ++ crlf) p := by
  obtain ⟨n, logLine, hpasses⟩ := passes_firstLine hname hsilent hencoded hpath hversion []
  rw [List.append_nil] at hpasses
  -- after the line there is nothing to read, and the headers have not begun
  have hc : ¬(expecting .headers
      { method := m, path := (splitPathQuery path).1, query := (splitPathQuery path).2, logLine } version
      .empty n).Complete [] := by
    change ¬SkipComplete crlf 0 0 []
    decide
  have hreads := hpasses _ (.of_stops (.suspended (oversized_sizeMax _) hc rfl))
  refine ⟨_, ((grammar_lawful curl sizeMax).fromStream_eq_iff_reads wellFormed_fresh ?_).mpr hreads,
    rfl, rfl, rfl, rfl, rfl, rfl, rfl⟩
  simp [crlf_ne_nil]

/-- Of what follows their start lines in any pieces, a request parser and a response parser make the same,
if the lines are read alike. A section that is a request for the one is a response with the same headers
and the same body for the other only then. -/
theorem sameVerdict_iff (hp : StartLine (grammar curl sizeMax) fresh start p)
    (hq : StartLine ResponseParser.grammar ResponseParser.fresh start' q) (hsingle : Single curl p s)
    {pieces pieces' : List Bytes} (hpieces : pieces.flatten = start ++ s)
    (hpieces' : pieces'.flatten = start' ++ s) :
    (LinesAlike curl p s →
      SameVerdict (feed (fun p piece => fromStream curl p sizeMax piece) fresh pieces)
        (feed ResponseParser.fromStream ResponseParser.fresh pieces')) ∧
    ((∃ headers body, Accepted (feed (fun p piece => fromStream curl p sizeMax piece) fresh pieces)
        headers body) →
      SameVerdict (feed (fun p piece => fromStream curl p sizeMax piece) fresh pieces)
        (feed ResponseParser.fromStream ResponseParser.fresh pieces') →
      LinesAlike curl p s) := by
  -- the start lines have been read, and a cutting of the rest makes no difference
  have hrejected : Rejected (feed (fun p piece => fromStream curl p sizeMax piece) fresh pieces) ↔
      Rejected (p.fromStream curl sizeMax s) :=
    hp.threw_feed_iff (grammar_ignoresCuts curl) (grammar_lawful curl sizeMax) wellFormed_fresh hpieces
  have hrejected' : Rejected (feed ResponseParser.fromStream ResponseParser.fresh pieces') ↔
      Rejected (q.fromStream s) :=
    hq.threw_feed_iff ResponseParser.grammar_ignoresCuts ResponseParser.grammar_lawful
      ResponseParser.wellFormed_fresh hpieces'
  have haccepted : ∀ headers body,
      Accepted (feed (fun p piece => fromStream curl p sizeMax piece) fresh pieces) headers body ↔
        Accepted (p.fromStream curl sizeMax s) headers body := fun headers body =>
    exists_congr fun m => and_congr_left' (hp.oneMessage_feed_iff (grammar_ignoresCuts curl)
      (grammar_lawful curl sizeMax) wellFormed_fresh hpieces)
  have haccepted' : ∀ headers body,
      ResponseParser.Accepted (feed ResponseParser.fromStream ResponseParser.fresh pieces') headers body ↔
        ResponseParser.Accepted (q.fromStream s) headers body := fun headers body =>
    exists_congr fun m => and_congr_left' (hq.oneMessage_feed_iff ResponseParser.grammar_ignoresCuts
      ResponseParser.grammar_lawful ResponseParser.wellFormed_fresh hpieces')
  by_cases hs : s = []
  · -- without bytes, nothing is wrong, and nothing is a message
    subst hs
    have hnothing : ∀ headers body, ¬Accepted (p.fromStream curl sizeMax []) headers body := by
      rintro headers body ⟨m, ⟨t, ht, -⟩, -⟩
      cases ht
    have hnothing' : ∀ headers body, ¬ResponseParser.Accepted (q.fromStream []) headers body := by
      rintro headers body ⟨m, ⟨t, ht, -⟩, -⟩
      cases ht
    constructor
    · intro _
      refine ⟨hrejected.trans (Iff.trans (iff_of_false ?_ ?_) hrejected'.symm), fun headers body => ?_⟩
      · rintro ⟨e, t, ht⟩
        cases ht
      · rintro ⟨e, t, ht⟩
        cases ht
      · rw [haccepted, haccepted']
        exact iff_of_false (hnothing headers body) (hnothing' headers body)
    · rintro ⟨headers, body, hrequest⟩
      exact absurd ((haccepted headers body).mp hrequest) (hnothing headers body)
  · constructor
    · intro hlines
      obtain ⟨hreject, haccept⟩ := sameVerdict_of_linesAlike hp hq hsingle hs hlines
      refine ⟨hrejected.trans (hreject.trans hrejected'.symm), fun headers body => ?_⟩
      rw [haccepted, haccepted', haccept]
    · rintro ⟨headers, body, hrequest⟩ ⟨-, hsame⟩
      have hresponse := (hsame headers body).mp hrequest
      rw [haccepted] at hrequest
      rw [haccepted'] at hresponse
      exact linesAlike_of_accepted hp hq hs hrequest hresponse

/-- The parser after the first line of a request. -/
def afterFirstLine : RequestParser :=
  match fromStream .percent fresh sizeMax (ascii "GET / HTTP/1.1\r\n") with
  | .returned _ p => p
  | _ => fresh

/-- The parser after the first line of a response. -/
def afterStatusLine : ResponseParser :=
  match ResponseParser.fromStream ResponseParser.fresh (ascii "HTTP/1.1 200 OK\r\n") with
  | .returned _ q => q
  | _ => ResponseParser.fresh

/-- A first line that requests may begin with. -/
theorem startLine_afterFirstLine :
    StartLine (grammar .percent sizeMax) fresh (ascii "GET / HTTP/1.1\r\n") afterFirstLine where
  read := by decide
  state := by decide
  headers := by decide
  body := by decide
  delimiter := by decide
  bodyLength := by decide
  atToken := ⟨by decide, by decide⟩

/-- A status line that responses may begin with. -/
theorem startLine_afterStatusLine :
    StartLine ResponseParser.grammar ResponseParser.fresh (ascii "HTTP/1.1 200 OK\r\n") afterStatusLine where
  read := by decide
  state := by decide
  headers := by decide
  body := by decide
  delimiter := by decide
  bodyLength := by decide
  atToken := ⟨by decide, by decide⟩

/-- A section in front of whose end nothing is handed out. -/
theorem single_of_messages_eq_nil {curl : Curl} {p : RequestParser} {s : Bytes}
    (h : ∀ n < s.length, (p.fromStream curl sizeMax (s.take n)).messages = []) : Single curl p s := by
  rintro n hn headers body ⟨m, ⟨t, ht, -⟩, -⟩
  have hnone := h n hn
  rw [ht] at hnone
  cases hnone

/-- `sameVerdict_iff` for a header line, cut in it and in front of it. -/
theorem sameVerdict_iff_oneLine :
    (LinesAlike .percent afterFirstLine (ascii "a: b\r\n\r\n") →
      SameVerdict
        (feed (fun p piece => fromStream .percent p sizeMax piece) fresh
          [ascii "GET / HTTP/1.1\r\na", ascii ": b\r\n\r\n"])
        (feed ResponseParser.fromStream ResponseParser.fresh
          [ascii "HTTP/1.1 200 OK\r", ascii "\na: b\r\n\r\n"])) ∧
    ((∃ headers body, Accepted (feed (fun p piece => fromStream .percent p sizeMax piece) fresh
          [ascii "GET / HTTP/1.1\r\na", ascii ": b\r\n\r\n"]) headers body) →
      SameVerdict
        (feed (fun p piece => fromStream .percent p sizeMax piece) fresh
          [ascii "GET / HTTP/1.1\r\na", ascii ": b\r\n\r\n"])
        (feed ResponseParser.fromStream ResponseParser.fresh
          [ascii "HTTP/1.1 200 OK\r", ascii "\na: b\r\n\r\n"]) →
      LinesAlike .percent afterFirstLine (ascii "a: b\r\n\r\n")) :=
  sameVerdict_iff startLine_afterFirstLine startLine_afterStatusLine
    (single_of_messages_eq_nil (by decide)) (by decide) (by decide)

/-- A header without a space after its `:` is accepted in a request and rejected in a response. -/
theorem not_sameVerdict :
    ¬∀ (curl : Curl) (start start' s : Bytes) (p : RequestParser) (q : ResponseParser)
      (pieces pieces' : List Bytes), StartLine (grammar curl sizeMax) fresh start p →
      StartLine ResponseParser.grammar ResponseParser.fresh start' q → Single curl p s →
      pieces.flatten = start ++ s → pieces'.flatten = start' ++ s →
      SameVerdict (feed (fun p piece => fromStream curl p sizeMax piece) fresh pieces)
        (feed ResponseParser.fromStream ResponseParser.fresh pieces') := by
  intro h
  have hverdict := h .percent _ _ (ascii "a:b\r\n\r\n") _ _ [ascii "GET / HTTP/1.1\r\na:b\r\n\r\n"]
    [ascii "HTTP/1.1 200 OK\r\na:b\r\n\r\n"] startLine_afterFirstLine startLine_afterStatusLine
    (single_of_messages_eq_nil (by decide)) (by decide) (by decide)
  have hthrown : (feed ResponseParser.fromStream ResponseParser.fresh
      [ascii "HTTP/1.1 200 OK\r\na:b\r\n\r\n"]).thrown = some (.runtimeError "Expected http header") := by
    decide
  have hnothing : (feed (fun p piece => fromStream .percent p sizeMax piece) fresh
      [ascii "GET / HTTP/1.1\r\na:b\r\n\r\n"]).thrown = none := by
    decide
  obtain ⟨t, ht⟩ := Reading.thrown_eq_some_iff.mp hthrown
  obtain ⟨e, t', ht'⟩ := hverdict.rejected.mpr ⟨_, t, ht⟩
  rw [ht'] at hnothing
  cases hnothing

end RequestParser

/-- The first line of a response is a start line. -/
theorem ResponseParser.startLine_of_statusLine {code : ℕ} {message version : Bytes}
    (hversion : version ∈ supportedVersions) (hcode : code < 2 ^ 16) (hmessage : OneLine message) :
    ∃ q, StartLine grammar fresh
      (version ++ ascii " " ++ decimal code ++ ascii " " ++ message ++ crlf) q := by
  obtain ⟨n, hpasses⟩ := passes_statusLine hversion hcode hmessage []
  rw [List.append_nil] at hpasses
  have hc : ¬(Parser.starting delimiterOf .headers (⟨code, message⟩ : ResponseFields) version .empty [] 0
      n).Complete [] := by
    change ¬SkipComplete crlf 0 0 []
    decide
  have hreads := hpasses _ (.of_stops (.suspended rfl hc rfl))
  refine ⟨_, (grammar_lawful.fromStream_eq_iff_reads wellFormed_fresh ?_).mpr hreads, rfl, rfl, rfl, rfl,
    rfl, rfl, rfl⟩
  simp [crlf_ne_nil]

end PrimeServer
