import PrimeServer.Http.Loop

/-!
# Reading token by token

Where a stream is known, the loop of `from_stream` can be followed from token to token: each token whose
bytes are there takes the parser to the start of the next one.

## Main results

* `Grammar.passes_token`: a token of announced bytes, of bytes in which the delimiter does not occur, and of
  the delimiter takes one turn of the loop;
* `Grammar.Passes.trans`: what is read token by token is read.
-/

namespace PrimeServer

open Chunking Delimiter

variable {φ μ ε : Type}

namespace Parser

variable {p : Parser φ}

/-- Nothing of the current token has been read. -/
structure AtToken (p : Parser φ) : Prop where
  /-- No byte of the token is in the buffer. -/
  buffer : p.partialBuffer = []
  /-- No byte of the delimiter was seen. -/
  progress : p.partialLength = 0

/-- The parser with a complete token in its buffer, when `n` bytes are counted. -/
def holding (p : Parser φ) (w : Bytes) (n : ℕ) : Parser φ :=
  { p with partialBuffer := w, partialLength := 0, bodyLength := 0, consumed := n }

/-- A parser at the start of a token. -/
def starting (table : EntityState → Bytes) (state : EntityState) (fields : φ) (version : Bytes)
    (headers : Headers) (body : Bytes) (bodyLength consumed : ℕ) : Parser φ where
  version
  headers
  body
  delimiter := table state
  partialBuffer := []
  partialLength := 0
  state
  bodyLength
  consumed
  fields

/-- A parser that starts to read a token is at the beginning of it. -/
theorem atToken_starting (table : EntityState → Bytes) (state : EntityState) (fields : φ)
    (version : Bytes) (headers : Headers) (body : Bytes) (bodyLength consumed : ℕ) :
    (starting table state fields version headers body bodyLength consumed).AtToken :=
  ⟨rfl, rfl⟩

/-- A parser that starts to read a token can go on. -/
theorem wellFormed_starting (table : EntityState → Bytes) (state : EntityState) (fields : φ)
    (version : Bytes) (headers : Headers) (body : Bytes) (bodyLength consumed : ℕ) :
    (starting table state fields version headers body bodyLength consumed).WellFormed table :=
  ⟨rfl, Nat.zero_le _⟩

section Token

variable (hp : p.AtToken) {data w : Bytes} (hdata : data.length = p.bodyLength)
  (hw : Silent p.delimiter w) (hd : p.delimiter ≠ [] ∨ w = []) (rest : Bytes)

include hp hdata hw hd

/-- The announced bytes are skipped, and the delimiter is found where it stands after them. -/
theorem search_token :
    p.search (data ++ (w ++ (p.delimiter ++ rest))) =
      ⟨p.delimiter.length, data ++ (w ++ p.delimiter), rest⟩ := by
  have hscan : scan p.delimiter 0 (w ++ (p.delimiter ++ rest)) =
      ⟨p.delimiter.length, w ++ p.delimiter, rest⟩ := by
    rcases hd with hd | rfl
    · exact scan_silent_append_delimiter hd hw rest
    · simpa using scan_drop_self p.delimiter 0 (Nat.zero_le _) rest
  simp [search, skipScan, hp.progress, ← hdata, hscan]

/-- The token is complete once its delimiter has come, however much of the text was there before. -/
theorem complete_token : p.Complete (data ++ (w ++ (p.delimiter ++ rest))) := by
  have hsearch := search_token hp hdata hw hd rest
  refine ⟨by simp [hdata], ?_⟩
  simp only [search] at hsearch
  rw [hsearch]

/-- The completed token holds its text without the delimiter. -/
theorem completed_token :
    ∃ n, p.completed (data ++ (w ++ (p.delimiter ++ rest))) = p.holding (data ++ w) n := by
  have hsearch := search_token hp hdata hw hd rest
  refine ⟨(p.consumed + (data ++ (w ++ p.delimiter)).length) % 2 ^ 64, ?_⟩
  have htake : (data ++ (w ++ p.delimiter)).take
      ((data ++ (w ++ p.delimiter)).length - p.delimiter.length) = data ++ w := by
    rw [← List.append_assoc, List.length_append, Nat.add_sub_cancel]
    exact List.take_left
  simp only [completed, hsearch, hp.buffer, List.nil_append, htake, holding]

end Token

end Parser

namespace Grammar

variable {g : Grammar φ μ ε} {p q t : Parser φ} {xs ys zs : Bytes} {messages later : List μ}

/-- The loop gets from one parser to another one and hands out messages on its way. -/
def Passes (g : Grammar φ μ ε) (p : Parser φ) (cursor : Bytes) (messages : List μ) (q : Parser φ)
    (rest : Bytes) : Prop :=
  ∀ r, g.Reads q rest r → g.Reads p cursor (r.prepend messages)

/-- The loop has nothing to do to stay where it is. -/
theorem Passes.refl (p : Parser φ) (cursor : Bytes) : g.Passes p cursor [] p cursor := fun r hr => by
  rwa [Reading.prepend_nil]

/-- The loop gets over two stretches one after the other, and hands out the messages of both. -/
theorem Passes.trans (h : g.Passes p xs messages q ys) (h' : g.Passes q ys later t zs) :
    g.Passes p xs (messages ++ later) t zs := fun r hr => by
  rw [← Reading.prepend_prepend]
  exact h _ (h' r hr)

/-- A token whose bytes are there takes one turn of the loop. -/
theorem passes_token (hp : p.AtToken) {data w : Bytes} (hdata : data.length = p.bodyLength)
    (hw : Silent p.delimiter w) (hd : p.delimiter ≠ [] ∨ w = []) (hoversized : g.oversized p = none)
    {emitted : Option μ} {next : ℕ → Parser φ}
    (htoken : ∀ n, g.token (p.holding (data ++ w) n) = .next emitted (next n)) (rest : Bytes) :
    ∃ n, g.Passes p (data ++ (w ++ (p.delimiter ++ rest))) emitted.toList (next n).clearBuffer
      rest := by
  obtain ⟨n, hn⟩ := Parser.completed_token hp hdata hw hd rest
  have hturn : g.turn p (data ++ (w ++ (p.delimiter ++ rest))) =
      .again emitted (next n).clearBuffer rest := by
    refine turn_eq_again_iff.mpr ⟨hoversized, Parser.complete_token hp hdata hw hd rest, ?_, next n, ?_, rfl⟩
    · rw [Parser.search_token hp hdata hw hd rest]
    · rw [hn, htoken]
  exact ⟨n, fun r hr => Reads.again hturn hr⟩

/-- The same for a parser whose parts are known. -/
theorem passes_starting (table : EntityState → Bytes) (state : EntityState) (fields : φ)
    (version : Bytes) (headers : Headers) (body : Bytes) (consumed : ℕ) (data : Bytes) {w : Bytes}
    (hw : Silent (table state) w) (hd : table state ≠ [] ∨ w = [])
    (hunlimited : ∀ p, g.oversized p = none) {emitted : Option μ} {next : ℕ → Parser φ}
    (htoken : ∀ n, g.token
      { Parser.starting table state fields version headers body 0 n with partialBuffer := data ++ w } =
        .next emitted (next n)) (rest : Bytes) :
    ∃ n, g.Passes (.starting table state fields version headers body data.length consumed)
      (data ++ (w ++ (table state ++ rest))) emitted.toList (next n).clearBuffer rest :=
  passes_token (p := .starting table state fields version headers body data.length consumed)
    (Parser.atToken_starting _ _ _ _ _ _ _ _) rfl hw hd (hunlimited _) htoken rest

/-- What is read of the whole is read of the rest. -/
theorem Passes.reads_rest {table : EntityState → Bytes} (h : g.Passes p xs messages q ys)
    (hl : g.Lawful table) (hq : q.WellFormed table) (hys : ys ≠ []) {r : Reading (Parser φ) μ ε}
    (hr : g.Reads p xs r) : ∃ r', g.Reads q ys r' ∧ r = r'.prepend messages := by
  have hrest : g.Reads q ys (g.fromStream q ys) := (hl.fromStream_eq_iff_reads hq hys).mp rfl
  exact ⟨_, hrest, hr.unique (h _ hrest)⟩

/-- A turn after which the loop goes on does not look at the bytes that it leaves. -/
theorem turn_append_of_again {cursor rest : Bytes} {emitted : Option μ}
    (h : g.turn p cursor = .again emitted q rest) :
    ∃ xs, cursor = xs ++ rest ∧ ∀ rest', g.turn p (xs ++ rest') = .again emitted q rest' := by
  obtain ⟨ho, hc, rfl, s, htoken, rfl⟩ := turn_eq_again_iff.mp h
  have hsplit : (p.search cursor).read ++ (p.search cursor).rest = cursor :=
    skipScan_read_append_rest _ _ _ _
  -- the token is complete with the bytes that the turn takes
  have hread : p.Complete (p.search cursor).read := skipComplete_read hc
  have hnothing : (p.search (p.search cursor).read).rest = [] := by
    simp only [Parser.search, skipScan_read hc.1]
  refine ⟨(p.search cursor).read, hsplit.symm, fun rest' => turn_eq_again_iff.mpr
    ⟨ho, skipComplete_append_of_complete hread rest', ?_, s, ?_, rfl⟩⟩
  · rw [Parser.rest_append_of_complete hread, hnothing, List.nil_append]
  · have hwhole := Parser.completed_append_of_complete hread (p.search cursor).rest
    rw [hsplit] at hwhole
    rw [Parser.completed_append_of_complete hread, ← hwhole, htoken]

/-- A loop that returns has read some tokens, and stopped inside another one. What holds of the parser
between tokens still held when that one began. -/
theorem Reads.exists_tail {P : Parser φ → Prop}
    (hagain : ∀ {p cursor emitted q}, P p → p.Complete cursor →
      g.token (p.completed cursor) = .next emitted q → P q.clearBuffer)
    {r : Reading (Parser φ) μ ε} (h : g.Reads p xs r) (hp : P p) (hr : r = .returned messages q) :
    ∃ t ys w, xs = ys ++ w ∧ P t ∧ (∀ w', g.Passes p (ys ++ w') messages t w') ∧
      g.oversized t = none ∧ ¬ t.Complete w ∧ q = t.suspended w := by
  induction h generalizing messages with
  | @stop p cursor r hturn =>
    subst hr
    cases turn_eq_stop_iff.mp hturn with
    | suspended ho hc hran => exact ⟨p, [], cursor, rfl, hp, fun w' => .refl p w', ho, hc, rfl⟩
  | @again p u cursor rest emitted r hturn _ ih =>
    obtain ⟨head, rfl, hhead⟩ := turn_append_of_again hturn
    obtain ⟨-, hc, -, s, htoken, rfl⟩ := turn_eq_again_iff.mp hturn
    obtain ⟨later, hreturned, rfl⟩ := Reading.prepend_eq_returned.mp hr
    -- the bytes of this turn come in front of those of the later ones
    obtain ⟨t, ys, w, rfl, ht, hpasses, hstop⟩ := ih (hagain hp hc htoken) hreturned
    refine ⟨t, head ++ ys, w, by rw [List.append_assoc], ht, fun w' => ?_, hstop⟩
    rw [List.append_assoc]
    exact Passes.trans (fun r hr => Reads.again (hhead _) hr) (hpasses w')

/-- A loop that hands out a message starts with a complete token. -/
theorem exists_token_of_reads {cursor : Bytes} {m : μ}
    (h : g.Reads p cursor (.returned (m :: later) q)) :
    p.Complete cursor ∧ ∃ emitted s r, g.token (p.completed cursor) = .next emitted s ∧
      g.Reads s.clearBuffer (p.search cursor).rest r ∧
        r.prepend emitted.toList = .returned (m :: later) q := by
  generalize hr : Reading.returned (m :: later) q = result at h
  cases h with
  | stop hturn =>
    subst hr
    cases turn_eq_stop_iff.mp hturn
  | @again _ _ _ rest emitted r hturn hrest =>
    obtain ⟨-, hc, rfl, s, htoken, rfl⟩ := turn_eq_again_iff.mp hturn
    exact ⟨hc, emitted, s, r, htoken, hrest, rfl⟩

end Grammar

end PrimeServer
