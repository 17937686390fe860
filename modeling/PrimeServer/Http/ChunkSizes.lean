import Mathlib.Algebra.GroupWithZero.Nat
import PrimeServer.Http.Cuts
import PrimeServer.Http.Emitted

/-!
# The sizes of chunks

A parser skips as many bytes as the line in front of a chunk says, and then looks for a line end. It does
not ask for the line end to come right there.

To speak of the sizes of the chunks of a message, the parser is run with notes beside it. They hold the text
of each chunk-length line and the bytes of each chunk. The parser does not look at them, and they do not look
at the size that the parser has read: what a line declares is the hexadecimal number in its text.

## Main results

* `Grammar.fromStream_annotated`: with notes beside it a parser reads what it reads without;
* `Grammar.ReadsChunks.accounts`: what the notes say about the body of a message;
* `chunkSizes_bounded`: a chunk is at least as long as its line says, and a body is as long as all lines
  say exactly if each chunk has its line end right after so many bytes.
-/

namespace PrimeServer

open Chunking Delimiter

variable {φ μ ε ν : Type}

/-! ### A parser with notes beside it -/

namespace Parser

/-- The parser without the notes. -/
def plain (p : Parser (φ × ν)) : Parser φ := ⟨p.toHttpEntity, p.fields.1⟩

/-- The notes beside the parser. -/
def notes (p : Parser (φ × ν)) : ν := p.fields.2

/-- A parser with notes beside it. -/
def annotate (p : Parser φ) (notes : ν) : Parser (φ × ν) := ⟨p.toHttpEntity, (p.fields, notes)⟩

end Parser

namespace Grammar

variable (g : Grammar φ μ ε) (blank : ν) (note : Parser φ → ν → ν)

/-- The grammar that keeps notes: `note` makes the next ones from the parser in front of a token. A message is
handed out with its notes, and the next one begins with `blank` ones. -/
def annotated : Grammar (φ × ν) (μ × ν) ε where
  oversized p := g.oversized p.plain
  ranOut p := g.ranOut p.plain
  token p :=
    match g.token p.plain with
    | .threw e q => .threw e (q.annotate p.notes)
    | .next none q => .next none (q.annotate (note p.plain p.notes))
    | .next (some m) q => .next (some (m, p.notes)) (q.annotate blank)

variable {g blank note} {p q : Parser (φ × ν)}

/-- A token that completes nothing is noted. -/
theorem token_annotated_of_none {q : Parser φ} (h : g.token p.plain = .next none q) :
    (g.annotated blank note).token p = .next none (q.annotate (note p.plain p.notes)) := by
  simp only [annotated, h]

/-- A token that completes a message hands the notes out with it, and the next message gets a blank page. -/
theorem token_annotated_of_some {m : μ} {q : Parser φ} (h : g.token p.plain = .next (some m) q) :
    (g.annotated blank note).token p = .next (some (m, p.notes)) (q.annotate blank) := by
  simp only [annotated, h]

/-- A token that throws leaves the notes as they are. -/
theorem token_annotated_of_threw {e : ε} {q : Parser φ} (h : g.token p.plain = .threw e q) :
    (g.annotated blank note).token p = .threw e (q.annotate p.notes) := by
  simp only [annotated, h]

/-- All that a token can do beside the notes. -/
theorem token_annotated_eq_next_iff {emitted : Option (μ × ν)} :
    (g.annotated blank note).token p = .next emitted q ↔
      (∃ r, g.token p.plain = .next none r ∧ emitted = none ∧ q = r.annotate (note p.plain p.notes)) ∨
        ∃ m r, g.token p.plain = .next (some m) r ∧ emitted = some (m, p.notes) ∧ q = r.annotate blank := by
  cases htoken : g.token p.plain with
  | threw e r => simp [token_annotated_of_threw htoken]
  | next m r =>
    cases m with
    | none => simp [token_annotated_of_none htoken, eq_comm]
    | some m => simp [token_annotated_of_some htoken, eq_comm]

/-- The loop with notes beside it reads what it reads without them. -/
theorem loop_annotated (fuel : ℕ) (p : Parser (φ × ν)) (cursor : Bytes) :
    g.loop fuel p.plain cursor =
      (((g.annotated blank note).loop fuel p cursor).map Parser.plain).mapMessages Prod.fst := by
  induction fuel generalizing p cursor with
  | zero => rfl
  | succ fuel ih =>
    rw [loop, loop]
    cases ho : g.oversized p.plain with
    | some e =>
      rw [turn_of_oversized ho, turn_of_oversized (g := g.annotated blank note) ho]
      rfl
    | none =>
      by_cases hc : p.Complete cursor
      · have hplain : p.plain.completed cursor = (p.completed cursor).plain := rfl
        have hc' : p.plain.Complete cursor := hc
        rw [turn_of_complete ho hc', turn_of_complete (g := g.annotated blank note) ho hc, hplain]
        cases htoken : g.token (p.completed cursor).plain with
        | threw e q =>
          rw [token_annotated_of_threw htoken]
          rfl
        | next m q =>
          -- the notes that are carried on depend on whether a message is complete
          cases m with
          | none =>
            rw [token_annotated_of_none htoken]
            simp only [Reading.map_prepend, Reading.mapMessages_prepend, ← ih]
            rfl
          | some m =>
            rw [token_annotated_of_some htoken]
            simp only [Reading.map_prepend, Reading.mapMessages_prepend, ← ih]
            rfl
      · have hc' : ¬ p.plain.Complete cursor := hc
        rw [turn_of_not_complete ho hc', turn_of_not_complete (g := g.annotated blank note) ho hc]
        have hran : (g.annotated blank note).ranOut (p.suspended cursor) =
            g.ranOut (p.plain.suspended cursor) := rfl
        rw [hran]
        cases g.ranOut (p.plain.suspended cursor) <;> rfl

/-- With notes beside it a parser reads what it reads without. -/
theorem fromStream_annotated (p : Parser (φ × ν)) (start : Bytes) :
    g.fromStream p.plain start =
      (((g.annotated blank note).fromStream p start).map Parser.plain).mapMessages Prod.fst := by
  by_cases hne : start = []
  · rw [fromStream, fromStream, if_pos hne, if_pos hne]
    rfl
  · rw [fromStream, fromStream, if_neg hne, if_neg hne, loop_annotated]

variable (g blank note) in
/-- So it does in pieces. -/
theorem feed_annotated (p : Parser φ) (notes : ν) (pieces : List Bytes) :
    feed g.fromStream p pieces =
      ((feed (g.annotated blank note).fromStream (p.annotate notes) pieces).map Parser.plain).mapMessages
        Prod.fst :=
  feed_map fromStream_annotated (p.annotate notes) pieces

/-- What is handed out of pieces is handed out with its notes as well. -/
theorem exists_feed_annotated {p q : Parser φ} {pieces : List Bytes} {messages : List μ}
    (h : feed g.fromStream p pieces = .returned messages q) (notes : ν) :
    ∃ noted q', feed (g.annotated blank note).fromStream (p.annotate notes) pieces = .returned noted q' ∧
      noted.map Prod.fst = messages := by
  rw [feed_annotated g blank note p notes] at h
  obtain ⟨noted, hmap, hmessages⟩ := Reading.mapMessages_eq_returned.mp h
  obtain ⟨q', hnoted, -⟩ := Reading.map_eq_returned.mp hmap
  exact ⟨noted, q', hnoted, hmessages⟩

/-- What each token promises of its message holds of all messages that are read in pieces. -/
theorem forall_of_feed {P : Parser φ → Prop} {Q : μ → Prop}
    (hsuspended : ∀ {p cursor}, P p → ¬p.Complete cursor → P (p.suspended cursor))
    (hagain : ∀ {p cursor emitted q}, P p → p.Complete cursor →
      g.token (p.completed cursor) = .next emitted q → P q.clearBuffer ∧ ∀ m ∈ emitted, Q m)
    {p q : Parser φ} {pieces : List Bytes} {messages : List μ} (hp : P p)
    (h : feed g.fromStream p pieces = .returned messages q) : ∀ m ∈ messages, Q m := by
  induction pieces generalizing p messages with
  | nil =>
    obtain ⟨rfl, -⟩ : [] = messages ∧ p = q := by simpa [feed] using h
    exact List.forall_mem_nil _
  | cons piece pieces ih =>
    obtain ⟨first, t, later, hread, hrest, rfl⟩ := feed_cons_eq_returned.mp h
    obtain ⟨ht, hfirst⟩ : P t ∧ ∀ m ∈ first, Q m := by
      by_cases hne : piece = []
      · -- a call without bytes reads nothing
        obtain ⟨rfl, rfl⟩ : [] = first ∧ p = t := by simpa [fromStream, hne] using hread
        exact ⟨hp, List.forall_mem_nil _⟩
      · rw [fromStream, if_neg hne] at hread
        have hreads := reads_of_loop hread (by simp)
        exact hreads.invariant hsuspended hagain hp rfl
    exact List.forall_mem_append.mpr ⟨hfirst, ih ht hrest⟩

end Grammar

/-! ### Notes of chunks -/

/-- The size that a chunk-length line declares: the hexadecimal number at its beginning. A line without one
declares nothing. -/
def declaredSize (line : Bytes) : ℕ :=
  match stoul 16 line with
  | .ok n => n
  | .error _ => 0

/-- The declared size of a line that `stoul` reads is what it reads. -/
theorem declaredSize_of_stoul {line : Bytes} {n : ℕ} (h : stoul 16 line = .ok n) : declaredSize line = n := by
  rw [declaredSize, h]

/-- A line of hexadecimal digits declares the number that they spell, whatever extension comes after them. -/
theorem declaredSize_of_spells {digits rest : Bytes} {n : ℕ} (h : Spells 16 digits n) (hn : n < 2 ^ 64)
    (hrest : ∀ b ∈ rest.head?, b = byte ';') : declaredSize (digits ++ rest) = n :=
  declaredSize_of_stoul (stoul_of_spells h hn hrest)

/-- A finished chunk: the text of the line in front of it, and what was read after that line. -/
structure NotedChunk where
  /-- The text of the chunk-length line, without the line end. -/
  line : Bytes
  /-- All that was read after that line, with the line end behind the data. -/
  text : Bytes
  deriving DecidableEq

namespace NotedChunk

/-- The size that is declared for the chunk. -/
def size (c : NotedChunk) : ℕ := declaredSize c.line

/-- What comes to the body. -/
def data (c : NotedChunk) : Bytes := c.text.take (c.text.length - crlf.length)

/-- The chunk has its line end right after as many bytes as its line says. -/
def Exact (c : NotedChunk) : Prop := crlf <+: c.text.drop c.size

/-- The line in front of the chunk has a hexadecimal number, and after so many bytes the chunk goes on to the
next line end. -/
def Extended (c : NotedChunk) : Prop :=
  ∃ announced extra, c.text = announced ++ extra ++ crlf ∧ stoul 16 c.line = .ok announced.length ∧
    Silent crlf extra

variable {c : NotedChunk}

/-- The data of a chunk is what comes before the line break at its end. -/
theorem data_of_text {w : Bytes} (h : c.text = w ++ crlf) : c.data = w := by
  rw [data, h, List.length_append, Nat.add_sub_cancel]
  exact List.take_left

/-- A chunk has at least as many bytes as its line declares. -/
theorem Extended.size_le (h : c.Extended) : c.size ≤ c.data.length := by
  obtain ⟨announced, extra, htext, hline, -⟩ := h
  have hlength : announced.length = c.size := (declaredSize_of_stoul hline).symm
  rw [data_of_text htext, List.length_append, hlength]
  exact Nat.le_add_right _ _

/-- A chunk has exactly as many bytes as declared if its line break comes right behind them. -/
theorem Extended.length_eq_iff (h : c.Extended) : c.data.length = c.size ↔ c.Exact := by
  obtain ⟨announced, extra, htext, hline, hsilent⟩ := h
  have hlength : announced.length = c.size := (declaredSize_of_stoul hline).symm
  have hdrop : c.text.drop c.size = extra ++ crlf := by
    rw [htext, ← hlength, List.append_assoc, List.drop_left]
  have hdata : c.data.length = c.size + extra.length := by
    rw [data_of_text htext, List.length_append, hlength]
  rw [hdata, Exact, hdrop]
  constructor
  · intro hzero
    obtain rfl : extra = [] := List.length_eq_zero_iff.mp (by omega)
    exact List.prefix_rfl
  · intro hbegins
    rw [hsilent.eq_nil_of_prefix crlf_ne_nil hbegins]
    rfl

end NotedChunk

/-- What is noted of the chunks of a message: the finished ones, and the text of the last chunk-length line if
no chunk has come for it. -/
structure Notes where
  /-- The finished chunks in their order. -/
  chunks : List NotedChunk
  /-- A chunk-length line whose chunk is still to come. -/
  line : Option Bytes
  deriving DecidableEq

namespace Notes

/-- Nothing is noted. -/
def blank : Notes := ⟨[], none⟩

/-- All sizes that chunk-length lines declare. -/
def sizes (notes : Notes) : List ℕ :=
  notes.chunks.map NotedChunk.size ++ (notes.line.map declaredSize).toList

/-- What the chunks come to. -/
def body (notes : Notes) : Bytes := notes.chunks.flatMap NotedChunk.data

/-- The notes after a token of the parser: the text of a chunk-length line is noted, and a chunk with its line.
What the parser makes of them is not. -/
def note (p : Parser φ) (notes : Notes) : Notes :=
  match p.state with
  | .chunkLength => { notes with line := some p.partialBuffer }
  | .chunk =>
    { chunks := notes.chunks ++ [⟨notes.line.getD [], p.partialBuffer ++ p.delimiter⟩]
      line := none }
  | .method | .message | .code | .path | .version | .headers | .body | .trailer => notes

/-- What is known of a body when all of its chunks have come: the last line declares no bytes. -/
structure Accounts (notes : Notes) (body : Bytes) : Prop where
  /-- The body is the chunks one after another. -/
  body_eq : body = notes.body
  /-- The last chunk-length line was a zero in hexadecimal. -/
  ended : notes.line.map (stoul 16) = some (.ok 0)
  /-- Each chunk is read to the first line end after as many bytes as its line says. -/
  extended : ∀ c ∈ notes.chunks, c.Extended

variable {l : List NotedChunk}

/-- The chunks together have at least as many bytes as all their lines declare. -/
theorem sum_size_le (h : ∀ c ∈ l, c.Extended) :
    (l.map NotedChunk.size).sum ≤ (l.flatMap NotedChunk.data).length := by
  induction l with
  | nil => exact Nat.le_refl _
  | cons c l ih =>
    obtain ⟨hc, hl⟩ := List.forall_mem_cons.mp h
    rw [List.map_cons, List.sum_cons, List.flatMap_cons, List.length_append]
    exact Nat.add_le_add hc.size_le (ih hl)

/-- Chunks that are together as long as their lines say are so one by one. -/
theorem length_eq_sum_size_iff (h : ∀ c ∈ l, c.Extended) :
    (l.flatMap NotedChunk.data).length = (l.map NotedChunk.size).sum ↔ ∀ c ∈ l, c.Exact := by
  induction l with
  | nil => simp
  | cons c l ih =>
    obtain ⟨hc, hl⟩ := List.forall_mem_cons.mp h
    have hfirst := hc.size_le
    have hrest := sum_size_le hl
    rw [List.map_cons, List.sum_cons, List.flatMap_cons, List.length_append, List.forall_mem_cons,
      ← hc.length_eq_iff, ← ih hl]
    omega

variable {notes : Notes} {body : Bytes}

/-- The size of zero that ends the chunks adds nothing. -/
theorem Accounts.sum_sizes (h : notes.Accounts body) :
    notes.sizes.sum = (notes.chunks.map NotedChunk.size).sum := by
  obtain ⟨line, hline, hzero⟩ := Option.map_eq_some_iff.mp h.ended
  simp [sizes, hline, declaredSize_of_stoul hzero]

/-- The body has at least as many bytes as the lines declare. -/
theorem Accounts.sum_sizes_le (h : notes.Accounts body) : notes.sizes.sum ≤ body.length := by
  rw [h.sum_sizes, h.body_eq]
  exact sum_size_le h.extended

/-- The body has exactly as many bytes as declared if this holds of each of its chunks. -/
theorem Accounts.length_eq_iff (h : notes.Accounts body) :
    body.length = notes.sizes.sum ↔ ∀ c ∈ notes.chunks, c.Exact := by
  rw [h.sum_sizes, h.body_eq]
  exact length_eq_sum_size_iff h.extended

end Notes

/-! ### What the notes are worth -/

/-- The states of a parser that reads a body in chunks. -/
def EntityState.InChunks : EntityState → Prop
  | .chunkLength | .chunk | .trailer => True
  | .method | .message | .code | .path | .version | .headers | .body => False

/-- What a grammar does with a body in chunks. -/
structure Grammar.ReadsChunks (g : Grammar φ μ ε) (bodyOf : μ → Bytes) : Prop where
  /-- The hexadecimal size on the line is read, and a chunk of so many bytes comes next, or the end. -/
  chunkLength : ∀ {p q emitted}, p.state = .chunkLength → g.token p = .next emitted q →
    emitted = none ∧ stoul 16 p.partialBuffer = .ok q.bodyLength ∧ q.body = p.body ∧
      q.state = if q.bodyLength ≠ 0 then .chunk else .trailer
  /-- A chunk comes to the body. -/
  chunk : ∀ {p q emitted}, p.state = .chunk → g.token p = .next emitted q →
    emitted = none ∧ q.body = p.body ++ p.partialBuffer ∧ q.state = .chunkLength
  /-- The lines after the last chunk leave the body alone. -/
  trailer : ∀ {p q}, p.state = .trailer → g.token p = .next none q →
    q.body = p.body ∧ q.state = .trailer
  /-- The body is handed out. -/
  trailed : ∀ {p q m}, p.state = .trailer → g.token p = .next (some m) q → bodyOf m = p.body
  /-- Before a body in chunks nothing comes to the body. -/
  outside : ∀ {p q}, ¬p.state.InChunks → g.token p = .next none q →
    q.body = p.body ∧ (q.state.InChunks → q.state = .chunkLength)
  /-- After a message the parser starts over. -/
  emitted : ∀ {p q m}, g.token p = .next (some m) q → q.body = [] ∧ ¬q.state.InChunks

namespace Notes

/-- The notes are right about what has come to the body, and the chunk that is being read has been searched
for a line end after as many bytes as its line says. -/
def Tracks (p : Parser (φ × Notes)) : Prop :=
  match p.state with
  | .chunkLength => p.body = p.notes.body ∧ p.notes.line = none
  | .chunk =>
    p.body = p.notes.body ∧ ∃ line n, p.notes.line = some line ∧ stoul 16 line = .ok n ∧
      p.bodyLength = n - p.partialBuffer.length ∧
        scan crlf 0 (p.partialBuffer.drop n) = ⟨p.partialLength, p.partialBuffer.drop n, []⟩
  | .trailer => p.body = p.notes.body ∧ p.notes.line.map (stoul 16) = some (.ok 0)
  | .method | .message | .code | .path | .version | .headers | .body => p.body = [] ∧ p.notes = blank

/-- In front of a chunk-length line, the body is what the noted chunks make of it, and no line is waiting. -/
theorem tracks_of_chunkLength {p : Parser (φ × Notes)} (hs : p.state = .chunkLength) :
    Tracks p ↔ p.body = p.notes.body ∧ p.notes.line = none := by
  rw [Tracks, hs]

/-- Inside a chunk, its line waits to be noted with it, and the parser still has to read what the line declares. -/
theorem tracks_of_chunk {p : Parser (φ × Notes)} (hs : p.state = .chunk) :
    Tracks p ↔ p.body = p.notes.body ∧ ∃ line n, p.notes.line = some line ∧ stoul 16 line = .ok n ∧
      p.bodyLength = n - p.partialBuffer.length ∧
        scan crlf 0 (p.partialBuffer.drop n) = ⟨p.partialLength, p.partialBuffer.drop n, []⟩ := by
  rw [Tracks, hs]

/-- Behind the last chunk, the line that waits is the one that declares no bytes. -/
theorem tracks_of_trailer {p : Parser (φ × Notes)} (hs : p.state = .trailer) :
    Tracks p ↔ p.body = p.notes.body ∧ p.notes.line.map (stoul 16) = some (.ok 0) := by
  rw [Tracks, hs]

/-- Outside of chunks nothing is noted. -/
theorem tracks_of_outside {p : Parser (φ × Notes)} (hs : ¬p.state.InChunks) :
    Tracks p ↔ p.body = [] ∧ p.notes = blank := by
  unfold Tracks
  cases h : p.state with
  | chunkLength | chunk | trailer => exact absurd (by rw [h]; trivial) hs
  | method | message | code | path | version | headers | body => rfl

/-- What holds of a parser with notes beside it between turns of the loop. -/
structure Kept (table : EntityState → Bytes) (p : Parser (φ × Notes)) : Prop where
  /-- The parser has the delimiter of its state. -/
  wellFormed : p.WellFormed table
  /-- The notes agree with the fields of the parser. -/
  tracks : Tracks p
  /-- Each finished chunk is read to the first line end after as many bytes as its line says. -/
  extended : ∀ c ∈ p.notes.chunks, c.Extended

/-- A parser that starts with blank notes. -/
theorem kept_annotate {table : EntityState → Bytes} {p : Parser φ} (hp : p.WellFormed table)
    (hs : ¬p.state.InChunks) (hbody : p.body = []) : Kept table (p.annotate blank) :=
  ⟨⟨hp.delimiter_eq, hp.progress_le⟩, (tracks_of_outside hs).mpr ⟨hbody, rfl⟩, List.forall_mem_nil _⟩

section Kept

variable {table : EntityState → Bytes} (htable : table .chunk = crlf) {p : Parser (φ × Notes)}
  {cursor : Bytes} (hp : Kept table p)

include htable hp

/-- A chunk ends with a line break. -/
theorem Kept.delimiter_eq (hs : p.state = .chunk) : p.delimiter = crlf := by
  rw [hp.wellFormed.delimiter_eq, hs, htable]

/-- Inside a chunk, its line break has not come yet. -/
theorem Kept.partialLength_lt (hs : p.state = .chunk) : p.partialLength < crlf.length := by
  have hle := hp.wellFormed.progress_le
  rw [hp.delimiter_eq htable hs] at hle
  exact Nat.lt_of_le_of_lt hle (by decide)

/-- The notes stand when the bytes run out inside a token. -/
theorem Kept.suspended (hc : ¬p.Complete cursor) : Kept table (p.suspended cursor) := by
  refine ⟨hp.wellFormed.suspended hc, ?_, hp.extended⟩
  by_cases hs : p.state = .chunk
  · obtain ⟨hbody, line, n, hline, hn, hlength, hscan⟩ := (tracks_of_chunk hs).mp hp.tracks
    have hlt := hp.partialLength_lt htable hs
    rw [Parser.Complete, hp.delimiter_eq htable hs, hlength] at hc
    -- the search went on where it had stopped
    refine (tracks_of_chunk (p := p.suspended cursor) hs).mpr ⟨hbody, line, n, hline, hn, ?_, ?_⟩
    · simp only [Parser.suspended, hlength, List.length_append]
      omega
    · have hsearch := scan_drop_of_incomplete hscan hlt hc
      simpa only [Parser.suspended, Parser.search, hp.delimiter_eq htable hs, hlength] using hsearch
  · -- nothing that the notes are about has changed
    have htracks := hp.tracks
    have hstate : (p.suspended cursor).state = p.state := rfl
    rw [Tracks, hstate]
    rw [Tracks] at htracks
    cases h : p.state with
    | chunk => exact absurd h hs
    | chunkLength | trailer | method | message | code | path | version | headers | body =>
      rw [h] at htracks
      exact htracks

/-- A complete chunk. -/
theorem Kept.exists_extended (hs : p.state = .chunk) (hc : p.Complete cursor) :
    ∃ line, p.notes.line = some line ∧
      NotedChunk.Extended ⟨line, (p.completed cursor).partialBuffer ++ crlf⟩ := by
  obtain ⟨-, line, n, hline, hn, hlength, hscan⟩ := (tracks_of_chunk hs).mp hp.tracks
  have hd := hp.delimiter_eq htable hs
  have hlt := hp.partialLength_lt htable hs
  have hprogress : (p.search cursor).progress = crlf.length := by
    refine Nat.le_antisymm ?_ (hd ▸ hc.2)
    rw [Parser.search, hd]
    exact progress_scan_le (Nat.le_of_lt hlt) _
  rw [Parser.Complete, hd, hlength] at hc
  obtain ⟨announced, extra, hread, hannounced, hsilent⟩ := exists_silent_of_skipScan hscan hlt hc
  have hread' : p.partialBuffer ++ (p.search cursor).read = announced ++ extra ++ crlf := by
    rw [Parser.search, hd, hlength, hread]
  -- the delimiter does not come to the buffer
  have hbuffer : (p.completed cursor).partialBuffer = announced ++ extra := by
    simp only [Parser.completed]
    rw [hprogress, hread', List.length_append, Nat.add_sub_cancel]
    exact List.take_left
  exact ⟨line, hline, announced, extra, by rw [hbuffer], by rw [hannounced, hn], hsilent⟩

end Kept

section Next

variable {g : Grammar φ μ ε} {table : EntityState → Bytes} {bodyOf : μ → Bytes} (hl : g.Lawful table)
  (hg : g.ReadsChunks bodyOf) {p : Parser (φ × Notes)} {cursor : Bytes} {r : Parser φ}
  (hp : Kept table p)

include hl hp

/-- A token leaves a parser that is well-formed, whatever is noted. -/
theorem Kept.wellFormed_next {emitted : Option μ}
    (h : g.token (p.completed cursor).plain = .next emitted r) (notes : Notes) :
    (r.annotate notes).clearBuffer.WellFormed table := by
  obtain ⟨hd, hk⟩ := hl.token_next (p := (p.completed cursor).plain) hp.wellFormed.delimiter_eq rfl h
  exact ⟨hd, by simp [Parser.clearBuffer, Parser.annotate, hk]⟩

include hg

/-- A chunk-length line: the parser skips as many bytes as the hexadecimal number on it. -/
theorem Kept.next_chunkLength (hs : p.state = .chunkLength)
    (h : g.token (p.completed cursor).plain = .next none r) :
    Kept table
      (r.annotate { p.notes with line := some (p.completed cursor).partialBuffer }).clearBuffer := by
  have hstate : (p.completed cursor).plain.state = .chunkLength := hs
  obtain ⟨hbody, -⟩ := (tracks_of_chunkLength hs).mp hp.tracks
  obtain ⟨-, hline, hrest, hnext⟩ := hg.chunkLength hstate h
  refine ⟨hp.wellFormed_next hl h _, ?_, hp.extended⟩
  by_cases hzero : r.bodyLength = 0
  · -- the last chunk
    rw [if_neg (not_not.mpr hzero)] at hnext
    exact (tracks_of_trailer hnext).mpr ⟨hrest.trans hbody, congrArg some (hzero ▸ hline)⟩
  · -- nothing of the chunk is there yet, so nothing has been searched
    obtain ⟨-, hk⟩ := hl.token_next (p := (p.completed cursor).plain) hp.wellFormed.delimiter_eq rfl h
    rw [if_pos hzero] at hnext
    refine (tracks_of_chunk hnext).mpr ⟨hrest.trans hbody, _, r.bodyLength, rfl, hline, rfl, ?_⟩
    simp [Parser.clearBuffer, Parser.annotate, hk]

/-- A chunk. -/
theorem Kept.next_chunk (htable : table .chunk = crlf) (hc : p.Complete cursor) (hs : p.state = .chunk)
    (h : g.token (p.completed cursor).plain = .next none r) :
    ∃ line, p.notes.line = some line ∧
      Kept table (r.annotate
        ⟨p.notes.chunks ++ [⟨line, (p.completed cursor).partialBuffer ++ crlf⟩], none⟩).clearBuffer := by
  have hstate : (p.completed cursor).plain.state = .chunk := hs
  obtain ⟨line, hline, hextended⟩ := hp.exists_extended htable hs hc
  obtain ⟨hbody, -⟩ := (tracks_of_chunk hs).mp hp.tracks
  obtain ⟨-, hrest, hnext⟩ := hg.chunk hstate h
  refine ⟨line, hline, hp.wellFormed_next hl h _, (tracks_of_chunkLength hnext).mpr ⟨?_, rfl⟩, fun c hmem => ?_⟩
  · -- the body goes on with what is noted of the chunk, without its line end
    have hdata : NotedChunk.data ⟨line, (p.completed cursor).partialBuffer ++ crlf⟩ =
        (p.completed cursor).partialBuffer := NotedChunk.data_of_text rfl
    change r.body = _
    rw [hrest, Parser.clearBuffer]
    simp only [Parser.notes, Parser.annotate, body, List.flatMap_append, List.flatMap_cons, List.flatMap_nil,
      List.append_nil, hdata]
    exact congrArg (· ++ _) hbody
  · rcases List.mem_append.mp hmem with hmem | hmem
    · exact hp.extended c hmem
    · rw [List.mem_singleton.mp hmem]
      exact hextended

/-- A line after the last chunk. -/
theorem Kept.next_trailer (hs : p.state = .trailer)
    (h : g.token (p.completed cursor).plain = .next none r) :
    Kept table (r.annotate p.notes).clearBuffer := by
  have hstate : (p.completed cursor).plain.state = .trailer := hs
  obtain ⟨hbody, hdeclared⟩ := (tracks_of_trailer hs).mp hp.tracks
  obtain ⟨hrest, hnext⟩ := hg.trailer hstate h
  exact ⟨hp.wellFormed_next hl h _, (tracks_of_trailer hnext).mpr ⟨hrest.trans hbody, hdeclared⟩,
    hp.extended⟩

/-- A token in front of the chunks. -/
theorem Kept.next_outside (hs : ¬p.state.InChunks)
    (h : g.token (p.completed cursor).plain = .next none r) :
    Kept table (r.annotate blank).clearBuffer := by
  have hstate : ¬(p.completed cursor).plain.state.InChunks := hs
  obtain ⟨hbody, -⟩ := (tracks_of_outside hs).mp hp.tracks
  obtain ⟨hrest, hnext⟩ := hg.outside hstate h
  refine ⟨hp.wellFormed_next hl h _, ?_, List.forall_mem_nil _⟩
  by_cases hin : r.state.InChunks
  · exact (tracks_of_chunkLength (hnext hin)).mpr ⟨hrest.trans hbody, rfl⟩
  · exact (tracks_of_outside hin).mpr ⟨hrest.trans hbody, rfl⟩

/-- A token that completes no message. -/
theorem Kept.next (htable : table .chunk = crlf) (hc : p.Complete cursor)
    (h : g.token (p.completed cursor).plain = .next none r) :
    Kept table (r.annotate (note (p.completed cursor).plain p.notes)).clearBuffer := by
  have hstate : (p.completed cursor).plain.state = p.state := rfl
  -- what is noted, and how the body grows, depends on the state the token was read in
  cases hs : p.state with
  | chunkLength =>
    have hnote : note (p.completed cursor).plain p.notes =
        { p.notes with line := some (p.completed cursor).partialBuffer } := by
      simp only [note, hstate, hs]
      rfl
    rw [hnote]
    exact hp.next_chunkLength hl hg hs h
  | chunk =>
    obtain ⟨line, hline, hkept⟩ := hp.next_chunk hl hg htable hc hs h
    have hnote : note (p.completed cursor).plain p.notes =
        ⟨p.notes.chunks ++ [⟨line, (p.completed cursor).partialBuffer ++ crlf⟩], none⟩ := by
      have hcrlf : (p.completed cursor).delimiter = crlf := hp.delimiter_eq htable hs
      simp only [note, hstate, hs, hline, Option.getD_some, ← hcrlf]
      rfl
    rw [hnote]
    exact hkept
  | trailer =>
    have hnote : note (p.completed cursor).plain p.notes = p.notes := by simp only [note, hstate, hs]
    rw [hnote]
    exact hp.next_trailer hl hg hs h
  | method | message | code | path | version | headers | body =>
    have houtside : ¬p.state.InChunks := by simp [hs, EntityState.InChunks]
    have hnote : note (p.completed cursor).plain p.notes = blank := by
      simp only [note, hstate, hs, ((tracks_of_outside houtside).mp hp.tracks).2]
    rw [hnote]
    exact hp.next_outside hl hg houtside h

/-- A token that completes a message. -/
theorem Kept.emitted {m : μ} (h : g.token (p.completed cursor).plain = .next (some m) r) :
    Kept table (r.annotate Notes.blank).clearBuffer ∧ (p.notes.sizes ≠ [] → p.notes.Accounts (bodyOf m)) := by
  obtain ⟨hbody, hout⟩ := hg.emitted h
  refine ⟨⟨hp.wellFormed_next hl h _, (tracks_of_outside hout).mpr ⟨hbody, rfl⟩, List.forall_mem_nil _⟩,
    fun hsizes => ?_⟩
  have hstate : (p.completed cursor).plain.state = p.state := rfl
  cases hs : p.state with
  -- a message in chunks is complete only after its trailer lines
  | chunkLength => exact absurd (hg.chunkLength (hstate.trans hs) h).1 (by simp)
  | chunk => exact absurd (hg.chunk (hstate.trans hs) h).1 (by simp)
  | trailer =>
    obtain ⟨hbody, hdeclared⟩ := (tracks_of_trailer hs).mp hp.tracks
    exact ⟨(hg.trailed (hstate.trans hs) h).trans hbody, hdeclared, hp.extended⟩
  | method | message | code | path | version | headers | body =>
    -- nothing was noted
    have houtside : ¬p.state.InChunks := by simp [hs, EntityState.InChunks]
    obtain ⟨-, hblank⟩ := (tracks_of_outside houtside).mp hp.tracks
    rw [hblank] at hsizes
    exact absurd rfl hsizes

end Next

end Notes

/-- The grammar that takes notes of chunks. -/
def Grammar.noting (g : Grammar φ μ ε) : Grammar (φ × Notes) (μ × Notes) ε :=
  g.annotated Notes.blank Notes.note

/-- What the notes say about the bodies of all messages that are read in pieces. -/
theorem Grammar.ReadsChunks.accounts {g : Grammar φ μ ε} {table : EntityState → Bytes}
    {bodyOf : μ → Bytes} (hg : g.ReadsChunks bodyOf) (hl : g.Lawful table) (htable : table .chunk = crlf)
    {p : Parser φ} {pieces : List Bytes} (hp : Notes.Kept table (p.annotate Notes.blank))
    {noted : List (μ × Notes)} {q : Parser (φ × Notes)}
    (h : feed g.noting.fromStream (p.annotate Notes.blank) pieces = .returned noted q) :
    ∀ e ∈ noted, e.2.sizes ≠ [] → e.2.Accounts (bodyOf e.1) := by
  refine forall_of_feed (P := Notes.Kept table) (fun hp hc => hp.suspended htable hc) ?_ hp h
  intro p cursor emitted q hp hc htoken
  rcases token_annotated_eq_next_iff.mp htoken with ⟨r, hr, rfl, rfl⟩ | ⟨m, r, hr, rfl, rfl⟩
  · exact ⟨hp.next hl hg htable hc hr, nofun⟩
  · obtain ⟨hkept, haccounts⟩ := hp.emitted hl hg hr
    refine ⟨hkept, ?_⟩
    rintro e ⟨⟩
    exact haccounts

/-! ### Requests and responses -/

/-- The parser of requests takes a chunk-length line for the number that `stoul` reads from it, and puts the chunks
into the body. -/
theorem RequestParser.readsChunks (curl : Curl) (maxSize : ℕ) :
    (grammar curl maxSize).ReadsChunks HttpRequest.body where
  chunkLength {p q emitted} hs h := by
    cases token_eq_next_iff.mp h with
    | chunkLength _ hn => exact ⟨rfl, hn, rfl, rfl⟩
    | method hs' | path hs' | version hs' | sized hs' | chunked hs' | plain hs' | trailed hs' | body hs'
      | chunk hs' => simp [hs] at hs'
    | header hs' => simp [hs] at hs'
  chunk {p q emitted} hs h := by
    cases token_eq_next_iff.mp h with
    | chunk => exact ⟨rfl, rfl, rfl⟩
    | method hs' | path hs' | version hs' | sized hs' | chunked hs' | plain hs' | trailed hs' | body hs'
      | chunkLength hs' => simp [hs] at hs'
    | header hs' => simp [hs] at hs'
  trailer {p q} hs h := by
    cases token_eq_next_iff.mp h with
    | header => exact ⟨rfl, hs⟩
    | method hs' | path hs' | version hs' | sized hs' | chunked hs' | chunkLength hs' | chunk hs' =>
      simp [hs] at hs'
  trailed {p q m} hs h := by
    cases token_eq_next_iff.mp h with
    | trailed => rfl
    | plain hs' | body hs' => simp [hs] at hs'
  outside {p q} hs h := by
    cases token_eq_next_iff.mp h with
    | chunked => exact ⟨rfl, fun _ => rfl⟩
    | method | path | version | sized => exact ⟨rfl, False.elim⟩
    | header => exact ⟨rfl, fun hin => absurd hin hs⟩
    | chunkLength hs' | chunk hs' => exact absurd (by simp [hs', EntityState.InChunks]) hs
  emitted {p q m} h := by
    cases token_eq_next_iff.mp h with
    | plain | trailed | body => exact ⟨rfl, id⟩

/-- The parser of responses does the same. -/
theorem ResponseParser.readsChunks : grammar.ReadsChunks HttpResponse.body where
  chunkLength {p q emitted} hs h := by
    cases token_eq_next_iff.mp h with
    | chunkLength _ hn => exact ⟨rfl, hn, rfl, rfl⟩
    | version hs' | code hs' | message hs' | sized hs' | chunked hs' | plain hs' | trailed hs' | body hs'
      | chunk hs' => simp [hs] at hs'
    | header hs' => simp [hs] at hs'
  chunk {p q emitted} hs h := by
    cases token_eq_next_iff.mp h with
    | chunk => exact ⟨rfl, rfl, rfl⟩
    | version hs' | code hs' | message hs' | sized hs' | chunked hs' | plain hs' | trailed hs' | body hs'
      | chunkLength hs' => simp [hs] at hs'
    | header hs' => simp [hs] at hs'
  trailer {p q} hs h := by
    cases token_eq_next_iff.mp h with
    | header => exact ⟨rfl, hs⟩
    | version hs' | code hs' | message hs' | sized hs' | chunked hs' | chunkLength hs' | chunk hs' =>
      simp [hs] at hs'
  trailed {p q m} hs h := by
    cases token_eq_next_iff.mp h with
    | trailed => rfl
    | plain hs' | body hs' => simp [hs] at hs'
  outside {p q} hs h := by
    cases token_eq_next_iff.mp h with
    | chunked => exact ⟨rfl, fun _ => rfl⟩
    | version | code | message | sized => exact ⟨rfl, False.elim⟩
    | header => exact ⟨rfl, fun hin => absurd hin hs⟩
    | chunkLength hs' | chunk hs' => exact absurd (by simp [hs', EntityState.InChunks]) hs
  emitted {p q m} h := by
    cases token_eq_next_iff.mp h with
    | plain | trailed | body => exact ⟨rfl, id⟩

/-- The pieces are read with notes beside the parser as without, and where a message came in chunks, `P`
holds of its notes and its body. -/
def Grammar.NotesHold (g : Grammar φ μ ε) (bodyOf : μ → Bytes) (p : Parser φ) (P : Notes → Bytes → Prop)
    (pieces : List Bytes) : Prop :=
  ∀ messages q, feed g.fromStream p pieces = .returned messages q →
    ∃ noted q', feed g.noting.fromStream (p.annotate Notes.blank) pieces = .returned noted q' ∧
      noted.map Prod.fst = messages ∧ ∀ e ∈ noted, e.2.sizes ≠ [] → P e.2 (bodyOf e.1)

namespace Notes

/-- The body is as long as the lines in front of its chunks say, and each chunk ends there. -/
def Binding (notes : Notes) (body : Bytes) : Prop :=
  body.length = notes.sizes.sum ∧ ∀ c ∈ notes.chunks, c.Exact

/-- The body is made of the chunks, each of them goes on to a line end after as many bytes as its line says,
and it is as long as the lines say only where no chunk goes on. -/
structure Bounded (notes : Notes) (body : Bytes) : Prop where
  /-- The body is the chunks one after another. -/
  body_eq : body = notes.body
  /-- Each chunk is read to the first line end after as many bytes as its line says. -/
  extended : ∀ c ∈ notes.chunks, c.Extended
  /-- The body has at least as many bytes as the lines declare together. -/
  sum_le : notes.sizes.sum ≤ body.length
  /-- It has no more only if every chunk ends where its line says. -/
  length_eq_iff : body.length = notes.sizes.sum ↔ ∀ c ∈ notes.chunks, c.Exact

end Notes

/-- A parser that reads chunks keeps to the bounds on every stream, however it is cut. -/
theorem Grammar.ReadsChunks.notesHold {g : Grammar φ μ ε} {table : EntityState → Bytes}
    {bodyOf : μ → Bytes} (hg : g.ReadsChunks bodyOf) (hl : g.Lawful table) (htable : table .chunk = crlf)
    {p : Parser φ} (hp : Notes.Kept table (p.annotate Notes.blank)) (pieces : List Bytes) :
    g.NotesHold bodyOf p Notes.Bounded pieces := by
  intro messages q h
  obtain ⟨noted, q', hnoted, hmessages⟩ := exists_feed_annotated h Notes.blank
  refine ⟨noted, q', hnoted, hmessages, fun e he hsizes => ?_⟩
  have haccounts := hg.accounts hl htable hp hnoted e he hsizes
  exact ⟨haccounts.body_eq, haccounts.extended, haccounts.sum_sizes_le, haccounts.length_eq_iff⟩

/-- However a stream is cut, the body of each request and of each response that came in chunks is made of its
chunks, which may go on after as many bytes as the hexadecimal numbers on their lines say. The size that a line
declares is the number that its hexadecimal digits spell, whatever extension comes after them. -/
theorem chunkSizes_bounded (curl : Curl) (maxSize : ℕ) (pieces : List Bytes) :
    (RequestParser.grammar curl maxSize).NotesHold HttpRequest.body RequestParser.fresh Notes.Bounded
        pieces ∧
      ResponseParser.grammar.NotesHold HttpResponse.body ResponseParser.fresh Notes.Bounded pieces ∧
      ∀ digits rest n, Spells 16 digits n → n < 2 ^ 64 → (∀ b ∈ rest.head?, b = byte ';') →
        declaredSize (digits ++ rest) = n := by
  refine ⟨?_, ?_, fun digits rest n => declaredSize_of_spells⟩
  · exact (RequestParser.readsChunks curl maxSize).notesHold (RequestParser.grammar_lawful curl maxSize) rfl
      (Notes.kept_annotate RequestParser.wellFormed_fresh id rfl) pieces
  · exact ResponseParser.readsChunks.notesHold ResponseParser.grammar_lawful rfl
      (Notes.kept_annotate ResponseParser.wellFormed_fresh id rfl) pieces

/-- What holds of all notes holds of those of one message. -/
theorem Grammar.NotesHold.of_mem {g : Grammar φ μ ε} {bodyOf : μ → Bytes} {p : Parser φ}
    {P : Notes → Bytes → Prop} {pieces : List Bytes} (h : g.NotesHold bodyOf p P pieces) {e : μ × Notes}
    (he : e ∈ (feed g.noting.fromStream (p.annotate Notes.blank) pieces).messages)
    (hsizes : e.2.sizes ≠ []) : P e.2 (bodyOf e.1) := by
  have hplain := feed_annotated g Notes.blank Notes.note p Notes.blank pieces
  cases hfeed : feed g.noting.fromStream (p.annotate Notes.blank) pieces with
  | threw | diverged => simp [hfeed, Reading.messages] at he
  | returned ns t =>
    change feed (g.annotated _ _).fromStream _ _ = _ at hfeed
    rw [hfeed] at hplain
    obtain ⟨noted, q', hnoted, -, hall⟩ := h _ _ hplain
    obtain ⟨rfl, -⟩ : ns = noted ∧ t = q' := by simpa using hfeed.symm.trans hnoted
    change e ∈ (feed g.noting.fromStream (p.annotate Notes.blank) pieces).messages at he
    rw [hnoted] at he
    exact hall e he hsizes

/-- A request of the tests in which a chunk of sixteen bytes has twenty-two, and such a response. -/
theorem not_binding :
    (¬ (RequestParser.grammar .percent sizeMax).NotesHold HttpRequest.body RequestParser.fresh Notes.Binding
      [ascii "POST /is_prime HTTP/1.1\r\nTransfer-Encoding: chunked\r\n\r\n",
        ascii "10:someextension\r\nachunkwithanexstension\r\n", ascii "4\r\ndone\r\n0\r\n\r\n"]) ∧
      ¬ ResponseParser.grammar.NotesHold HttpResponse.body ResponseParser.fresh Notes.Binding
        [ascii "HTTP/1.1 200 OK\r\nTransfer-Encoding: chunked\r\n\r\n1\r\nabc\r\n0\r\n\r\n"] := by
  constructor
  · intro h
    obtain ⟨e, he, hsizes, hlength⟩ : ∃ e ∈ (feed (RequestParser.grammar .percent sizeMax).noting.fromStream
        (RequestParser.fresh.annotate Notes.blank)
        [ascii "POST /is_prime HTTP/1.1\r\nTransfer-Encoding: chunked\r\n\r\n",
          ascii "10:someextension\r\nachunkwithanexstension\r\n",
          ascii "4\r\ndone\r\n0\r\n\r\n"]).messages,
        e.2.sizes ≠ [] ∧ e.1.body.length ≠ e.2.sizes.sum := by decide
    exact hlength (h.of_mem he hsizes).1
  · intro h
    obtain ⟨e, he, hsizes, hlength⟩ : ∃ e ∈ (feed ResponseParser.grammar.noting.fromStream
        (ResponseParser.fresh.annotate Notes.blank)
        [ascii "HTTP/1.1 200 OK\r\nTransfer-Encoding: chunked\r\n\r\n1\r\nabc\r\n0\r\n\r\n"]).messages,
        e.2.sizes ≠ [] ∧ e.1.body.length ≠ e.2.sizes.sum := by decide
    exact hlength (h.of_mem he hsizes).1

end PrimeServer
