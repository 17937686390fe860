import PrimeServer.Http.Entity

/-!
# The loop of `from_stream`

General facts about the tokenizer and the loop that requests and responses share.

* `consumeUntil_of_complete` and `consumeUntil_of_not_complete` say all that `consume_until` does.
* `Grammar.Reads` is the loop without a bound on its turns. `Grammar.Lawful` lists what a grammar has
  to promise; for such a grammar the bound in `fromStream` is never met (`fromStream_eq_iff_reads`).
* `Grammar.cutStable`: if nothing is ever too large and an early check only anticipates a later error,
  then what `from_stream` returns does not depend on a cut of its input.
-/

namespace PrimeServer

open Chunking Delimiter

variable {φ μ ε : Type}

namespace Parser

/-- How the search for the end of the current token goes on at `cursor`. -/
def search (p : Parser φ) (cursor : Bytes) : Scan UInt8 :=
  skipScan p.delimiter p.bodyLength p.partialLength cursor

/-- The current token ends within the bytes at `cursor`. -/
def Complete (p : Parser φ) (cursor : Bytes) : Prop :=
  SkipComplete p.delimiter p.bodyLength p.partialLength cursor

instance (p : Parser φ) (cursor : Bytes) : Decidable (p.Complete cursor) := by
  unfold Complete
  infer_instance

/-- The parser with the complete token in its buffer. -/
def completed (p : Parser φ) (cursor : Bytes) : Parser φ :=
  { p with
    partialBuffer :=
      (p.partialBuffer ++ (p.search cursor).read).take
        ((p.partialBuffer ++ (p.search cursor).read).length - (p.search cursor).progress)
    partialLength := 0
    bodyLength := 0
    consumed := (p.consumed + (p.search cursor).read.length) % 2 ^ 64 }

/-- The parser when the bytes at `cursor` ran out inside the token. -/
def suspended (p : Parser φ) (cursor : Bytes) : Parser φ :=
  { p with
    partialBuffer := p.partialBuffer ++ cursor
    partialLength := (p.search cursor).progress
    bodyLength := p.bodyLength - cursor.length }

/-- A search takes bytes and leaves the others. -/
theorem length_search (p : Parser φ) (cursor : Bytes) :
    (p.search cursor).read.length + (p.search cursor).rest.length = cursor.length := by
  rw [← List.length_append]
  exact congrArg List.length (skipScan_read_append_rest _ _ _ _)

/-- Cutting the delimiter off the end, whether or not some of it came with an earlier call. -/
private theorem cut_buffer (buffer read : Bytes) (k : ℕ) :
    (if read.length < k then buffer.take (buffer.length - (k - read.length))
      else buffer ++ read.take (read.length - k)) =
      (buffer ++ read).take ((buffer ++ read).length - k) := by
  rw [List.take_append, List.length_append]
  split_ifs with hlt
  · -- the delimiter started in the buffer, and a part of the buffer goes
    have hnone : buffer.length + read.length - k - buffer.length = 0 := by omega
    rw [hnone, List.take_zero, List.append_nil]
    congr 1
    omega
  · have hle : buffer.length ≤ buffer.length + read.length - k := by omega
    have hrest : buffer.length + read.length - k - buffer.length = read.length - k := by omega
    rw [List.take_of_length_le hle, hrest]

/-- `consume_until` in one line: it completes the token if the search comes to its end, and else keeps what it has
read. -/
private theorem consumeUntil_eq (p : Parser φ) (cursor : Bytes) :
    p.consumeUntil cursor =
      if p.Complete cursor then (true, p.completed cursor, (p.search cursor).rest)
      else
        (false,
          { p with
            partialBuffer := p.partialBuffer ++ (p.search cursor).read
            partialLength := (p.search cursor).progress
            bodyLength := p.bodyLength - cursor.length },
          (p.search cursor).rest) := by
  -- skipping past the end is skipping to the end
  have hdrop : cursor.drop (min p.bodyLength cursor.length) = cursor.drop p.bodyLength := by
    rcases Nat.le_total p.bodyLength cursor.length with h | h
    · rw [Nat.min_eq_left h]
    · rw [Nat.min_eq_right h, List.drop_length, List.drop_of_length_le h]
  have htake : cursor.take (min p.bodyLength cursor.length) = cursor.take p.bodyLength := by
    rcases Nat.le_total p.bodyLength cursor.length with h | h
    · rw [Nat.min_eq_left h]
    · rw [Nat.min_eq_right h, List.take_length, List.take_of_length_le h]
  have hsub : p.bodyLength - cursor.length = 0 ↔ p.bodyLength ≤ cursor.length :=
    Nat.sub_eq_zero_iff_le
  simp only [consumeUntil, HttpEntity.consumeUntil, HttpEntity.skip_eq, hdrop, htake]
  by_cases hc : p.Complete cursor
  · have hc' := hc
    obtain ⟨hn, hd⟩ := hc'
    simp only [skipScan] at hd
    rw [if_pos ⟨hd, hsub.mpr hn⟩, if_pos hc]
    simp only [cut_buffer, completed, search, skipScan, hsub.mpr hn]
  · have hcond : ¬(p.delimiter.length ≤ (scan p.delimiter p.partialLength
        (cursor.drop p.bodyLength)).progress ∧ p.bodyLength - cursor.length = 0) :=
      fun h => hc ⟨hsub.mp h.2, h.1⟩
    rw [if_neg hcond, if_neg hc]
    rfl

/-- `consume_until` on a token that ends within the given bytes. -/
theorem consumeUntil_of_complete {p : Parser φ} {cursor : Bytes} (h : p.Complete cursor) :
    p.consumeUntil cursor = (true, p.completed cursor, (p.search cursor).rest) := by
  rw [consumeUntil_eq, if_pos h]

/-- `consume_until` on a token that does not. -/
theorem consumeUntil_of_not_complete {p : Parser φ} {cursor : Bytes} (h : ¬p.Complete cursor) :
    p.consumeUntil cursor = (false, p.suspended cursor, []) := by
  have hsearch : p.search cursor = ⟨(p.search cursor).progress, cursor, []⟩ :=
    skipScan_of_incomplete h
  rw [consumeUntil_eq, if_neg h, suspended, hsearch]

/-! ### Tokens and cuts -/

/-- A token that is complete does not care about the bytes behind it. -/
theorem completed_append_of_complete {p : Parser φ} {xs : Bytes} (h : p.Complete xs) (ys : Bytes) :
    p.completed (xs ++ ys) = p.completed xs := by
  simp only [completed, search, skipScan_append_of_complete h]

/-- The bytes behind a complete token are left over. -/
theorem rest_append_of_complete {p : Parser φ} {xs : Bytes} (h : p.Complete xs) (ys : Bytes) :
    (p.search (xs ++ ys)).rest = (p.search xs).rest ++ ys := by
  simp only [search, skipScan_append_of_complete h]

/-- A search that was suspended goes on where it was, and has read all in between. -/
theorem search_append_of_not_complete {p : Parser φ} {xs : Bytes} (h : ¬p.Complete xs)
    (ys : Bytes) :
    p.search (xs ++ ys) =
      ⟨((p.suspended xs).search ys).progress, xs ++ ((p.suspended xs).search ys).read,
        ((p.suspended xs).search ys).rest⟩ :=
  skipScan_append_of_incomplete h ys

/-- A token that is not complete in the first bytes is completed by the later ones, or not, by the suspended parser.
-/
theorem complete_append_of_not_complete {p : Parser φ} {xs : Bytes} (h : ¬p.Complete xs)
    (ys : Bytes) : p.Complete (xs ++ ys) ↔ (p.suspended xs).Complete ys :=
  skipComplete_append_of_incomplete h ys

/-- Suspending twice is suspending once with all bytes. -/
theorem suspended_append_of_not_complete {p : Parser φ} {xs : Bytes} (h : ¬p.Complete xs)
    (ys : Bytes) : p.suspended (xs ++ ys) = (p.suspended xs).suspended ys := by
  have hsub : p.bodyLength - (xs ++ ys).length = p.bodyLength - xs.length - ys.length := by
    rw [List.length_append]
    omega
  simp only [suspended, hsub, List.append_assoc, search_append_of_not_complete h]

/-- Completing a token in two goes makes the same parser as in one, but for the count of what was consumed, which
loses a part of what was read before: the bytes of a token are only counted when it is completed. -/
theorem completed_append_of_not_complete {p : Parser φ} {xs : Bytes} (h : ¬p.Complete xs)
    (ys : Bytes) :
    (p.completed (xs ++ ys)).uncounted = ((p.suspended xs).completed ys).uncounted := by
  simp only [completed, uncounted, search_append_of_not_complete h, ← List.append_assoc]
  rfl

/-- The parser with another byte count. -/
def recount (p : Parser φ) (n : ℕ) : Parser φ := { p with consumed := n }

/-- Two parsers that differ at most in what they count are the same when one counts like the other. -/
theorem eq_recount_of_uncounted {p q : Parser φ} (h : p.uncounted = q.uncounted) :
    p = q.recount p.consumed := by
  have hp : p = p.uncounted.recount p.consumed := rfl
  rw [hp, h]
  rfl

@[simp]
theorem uncounted_recount (p : Parser φ) (n : ℕ) : (p.recount n).uncounted = p.uncounted := rfl

end Parser

/-- What a token does, up to the byte count. -/
def Token.uncounted : Token φ μ ε → Token φ μ ε
  | .next emitted p => .next emitted p.uncounted
  | .threw e p => .threw e p.uncounted

namespace Grammar

variable {g : Grammar φ μ ε}

/-! ### One turn -/

/-- A parser that has taken too much throws at the top of its next turn. -/
theorem turn_of_oversized {p : Parser φ} {e : ε} (h : g.oversized p = some e) (cursor : Bytes) :
    g.turn p cursor = .stop (.threw e p) := by
  rw [turn, h]

/-- Where no delimiter comes, the turn ends the call, and may reject what it has kept so far. -/
theorem turn_of_not_complete {p : Parser φ} {cursor : Bytes} (h : g.oversized p = none)
    (hc : ¬p.Complete cursor) :
    g.turn p cursor =
      match g.ranOut (p.suspended cursor) with
      | some e => .stop (.threw e (p.suspended cursor))
      | none => .stop (.returned [] (p.suspended cursor)) := by
  cases hran : g.ranOut (p.suspended cursor) <;>
    simp only [turn, h, Parser.consumeUntil_of_not_complete hc, hran]

/-- Where the token is complete, the switch of the loop deals with it. -/
theorem turn_of_complete {p : Parser φ} {cursor : Bytes} (h : g.oversized p = none)
    (hc : p.Complete cursor) :
    g.turn p cursor =
      match g.token (p.completed cursor) with
      | .threw e q => .stop (.threw e q)
      | .next emitted q => .again emitted q.clearBuffer (p.search cursor).rest := by
  cases htoken : g.token (p.completed cursor) <;>
    simp only [turn, h, Parser.consumeUntil_of_complete hc, htoken]

/-- All that a turn after which the loop goes on can do. -/
theorem turn_eq_again_iff {p q : Parser φ} {cursor rest : Bytes} {emitted : Option μ} :
    g.turn p cursor = .again emitted q rest ↔
      g.oversized p = none ∧ p.Complete cursor ∧ rest = (p.search cursor).rest ∧
        ∃ r, g.token (p.completed cursor) = .next emitted r ∧ q = r.clearBuffer := by
  cases ho : g.oversized p with
  | some e => simp [turn_of_oversized ho]
  | none =>
    by_cases hc : p.Complete cursor
    · rw [turn_of_complete ho hc]
      cases ht : g.token (p.completed cursor) with
      | threw e r => simp
      | next m r =>
        simp only [Turn.again.injEq, hc, true_and, Token.next.injEq]
        constructor
        · rintro ⟨rfl, rfl, rfl⟩
          exact ⟨rfl, r, ⟨rfl, rfl⟩, rfl⟩
        · rintro ⟨rfl, _, ⟨rfl, rfl⟩, rfl⟩
          exact ⟨rfl, rfl, rfl⟩
    · rw [turn_of_not_complete ho hc]
      cases g.ranOut (p.suspended cursor) <;> simp [hc]

/-- The ways in which the loop is left. -/
inductive Stops (g : Grammar φ μ ε) (p : Parser φ) (cursor : Bytes) : Reading (Parser φ) μ ε → Prop where
  /-- Too much was seen. -/
  | oversized {e : ε} (ho : g.oversized p = some e) : Stops g p cursor (.threw e p)
  /-- The token is complete, and it will not do. -/
  | threw {e : ε} {q : Parser φ} (ho : g.oversized p = none) (hc : p.Complete cursor)
      (htoken : g.token (p.completed cursor) = .threw e q) : Stops g p cursor (.threw e q)
  /-- The bytes ran out, and an early check fails. -/
  | ranOut {e : ε} (ho : g.oversized p = none) (hc : ¬p.Complete cursor)
      (hran : g.ranOut (p.suspended cursor) = some e) : Stops g p cursor (.threw e (p.suspended cursor))
  /-- The bytes ran out. -/
  | suspended (ho : g.oversized p = none) (hc : ¬p.Complete cursor)
      (hran : g.ranOut (p.suspended cursor) = none) : Stops g p cursor (.returned [] (p.suspended cursor))

/-- All that a turn with which the loop ends can do. -/
theorem turn_eq_stop_iff {p : Parser φ} {cursor : Bytes} {r : Reading (Parser φ) μ ε} :
    g.turn p cursor = .stop r ↔ g.Stops p cursor r := by
  constructor
  · intro h
    cases ho : g.oversized p with
    | some e =>
      rw [turn_of_oversized ho] at h
      obtain rfl := Turn.stop.inj h
      exact .oversized ho
    | none =>
      by_cases hc : p.Complete cursor
      · rw [turn_of_complete ho hc] at h
        cases htoken : g.token (p.completed cursor) with
        | next emitted q => simp [htoken] at h
        | threw e q =>
          obtain rfl : .threw e q = r := by simpa [htoken] using h
          exact .threw ho hc htoken
      · rw [turn_of_not_complete ho hc] at h
        cases hran : g.ranOut (p.suspended cursor) with
        | some e =>
          obtain rfl : .threw e (p.suspended cursor) = r := by simpa [hran] using h
          exact .ranOut ho hc hran
        | none =>
          obtain rfl : .returned [] (p.suspended cursor) = r := by simpa [hran] using h
          exact .suspended ho hc hran
  · intro h
    cases h with
    | oversized ho => exact turn_of_oversized ho cursor
    | threw ho hc htoken => rw [turn_of_complete ho hc, htoken]
    | ranOut ho hc hran | suspended ho hc hran => rw [turn_of_not_complete ho hc, hran]

/-! ### All turns -/

/-- The loop, as many turns as it takes. -/
inductive Reads (g : Grammar φ μ ε) : Parser φ → Bytes → Reading (Parser φ) μ ε → Prop where
  | stop {p : Parser φ} {cursor : Bytes} {r : Reading (Parser φ) μ ε} :
      g.turn p cursor = .stop r → Reads g p cursor r
  | again {p q : Parser φ} {cursor rest : Bytes} {emitted : Option μ}
      {r : Reading (Parser φ) μ ε} :
      g.turn p cursor = .again emitted q rest → Reads g q rest r →
        Reads g p cursor (r.prepend emitted.toList)

/-- A call that stops in its first turn has read what it has. -/
theorem Reads.of_stops {p : Parser φ} {cursor : Bytes} {r : Reading (Parser φ) μ ε}
    (h : g.Stops p cursor r) : g.Reads p cursor r :=
  .stop (turn_eq_stop_iff.mpr h)

/-- A turn always ends. -/
theorem turn_ne_stop_diverged (p : Parser φ) (cursor : Bytes) :
    g.turn p cursor ≠ .stop .diverged := by
  intro hturn
  cases turn_eq_stop_iff.mp hturn

/-- What a call reads is a result or an exception. -/
theorem Reads.ne_diverged {p : Parser φ} {cursor : Bytes} {r : Reading (Parser φ) μ ε}
    (h : g.Reads p cursor r) : r ≠ .diverged := by
  induction h with
  | stop hturn => exact fun hr => turn_ne_stop_diverged _ _ (hr ▸ hturn)
  | again _ _ ih => exact fun hr => ih (Reading.prepend_eq_diverged.mp hr)

/-- A loop that came to an end within its bound has read what the unbounded loop reads. -/
theorem reads_of_loop {fuel : ℕ} {p : Parser φ} {cursor : Bytes} {r : Reading (Parser φ) μ ε}
    (h : g.loop fuel p cursor = r) (hr : r ≠ .diverged) : g.Reads p cursor r := by
  induction fuel generalizing p cursor r with
  | zero => exact absurd h.symm hr
  | succ fuel ih =>
    rw [loop] at h
    cases hturn : g.turn p cursor with
    | stop r' =>
      rw [hturn] at h
      exact h ▸ Reads.stop hturn
    | again emitted q rest =>
      rw [hturn] at h
      subst h
      exact Reads.again hturn (ih rfl fun hd => hr (Reading.prepend_eq_diverged.mpr hd))

/-- Enough turns read what the unbounded loop reads. -/
theorem Reads.exists_loop {p : Parser φ} {cursor : Bytes} {r : Reading (Parser φ) μ ε}
    (h : g.Reads p cursor r) : ∃ n, ∀ fuel, n ≤ fuel → g.loop fuel p cursor = r := by
  induction h with
  | stop hturn =>
    refine ⟨1, fun fuel hfuel => ?_⟩
    obtain ⟨fuel, rfl⟩ := Nat.exists_eq_add_of_le' hfuel
    rw [loop, hturn]
  | again hturn _ ih =>
    obtain ⟨n, hn⟩ := ih
    refine ⟨n + 1, fun fuel hfuel => ?_⟩
    obtain ⟨k, rfl⟩ := Nat.exists_eq_add_of_le' hfuel
    rw [← Nat.add_assoc, loop, hturn]
    simp only
    rw [hn (k + n) (Nat.le_add_left _ _)]

/-- The loop is deterministic. -/
theorem Reads.unique {p : Parser φ} {cursor : Bytes} {r r' : Reading (Parser φ) μ ε}
    (h : g.Reads p cursor r) (h' : g.Reads p cursor r') : r = r' := by
  obtain ⟨n, hn⟩ := h.exists_loop
  obtain ⟨n', hn'⟩ := h'.exists_loop
  exact (hn (n + n') (Nat.le_add_right _ _)).symm.trans (hn' (n + n') (Nat.le_add_left _ _))

/-- What holds of a parser where a loop begins and is kept by suspending a token and by completing it holds
where the loop returns, and what the tokens promise of their messages holds of all that are returned. -/
theorem Reads.invariant {P : Parser φ → Prop} {Q : μ → Prop}
    (hsuspended : ∀ {p cursor}, P p → ¬p.Complete cursor → P (p.suspended cursor))
    (hagain : ∀ {p cursor emitted q}, P p → p.Complete cursor →
      g.token (p.completed cursor) = .next emitted q → P q.clearBuffer ∧ ∀ m ∈ emitted, Q m)
    {p q : Parser φ} {cursor : Bytes} {r : Reading (Parser φ) μ ε} {messages : List μ}
    (h : g.Reads p cursor r) (hp : P p) (hr : r = .returned messages q) : P q ∧ ∀ m ∈ messages, Q m := by
  induction h generalizing messages with
  | stop hturn =>
    subst hr
    cases turn_eq_stop_iff.mp hturn with
    | suspended ho hc hran => exact ⟨hsuspended hp hc, List.forall_mem_nil _⟩
  | @again p t cursor rest emitted r hturn _ ih =>
    obtain ⟨-, hc, -, s, htoken, rfl⟩ := turn_eq_again_iff.mp hturn
    -- what this turn hands out comes in front of what the others return
    obtain ⟨hnext, hemitted⟩ := hagain hp hc htoken
    obtain ⟨later, hreturned, rfl⟩ := Reading.prepend_eq_returned.mp hr
    obtain ⟨hq, hlater⟩ := ih hnext hreturned
    refine ⟨hq, fun m hm => ?_⟩
    rcases List.mem_append.mp hm with hm | hm
    · exact hemitted m (by simpa using hm)
    · exact hlater m hm

end Grammar

/-! ### The loop ends -/

/-- Between turns the delimiter is the one that `table` has for the state, and not all of it has been
seen. -/
structure Parser.WellFormed (table : EntityState → Bytes) (p : Parser φ) : Prop where
  /-- The delimiter belongs to the state. -/
  delimiter_eq : p.delimiter = table p.state
  /-- If all of the delimiter had been seen the token would have ended. -/
  progress_le : p.partialLength ≤ p.delimiter.length - 1

/-- What a grammar promises about delimiters: only a body has none, a token sets the delimiter of the
state it goes to, and after a body comes something else. -/
structure Grammar.Lawful (g : Grammar φ μ ε) (table : EntityState → Bytes) : Prop where
  /-- A token that ends at its length alone is a body. -/
  table_nil : ∀ s, table s = [] → s = .body
  /-- A token that does not throw leaves the parser at the start of the next one. -/
  token_next : ∀ {p q emitted}, p.delimiter = table p.state → p.partialLength = 0 →
    g.token p = .next emitted q → q.delimiter = table q.state ∧ q.partialLength = 0
  /-- Two bodies do not follow each other, so that the loop comes to an end. -/
  token_body : ∀ {p q emitted}, p.state = .body → g.token p = .next emitted q → q.state ≠ .body

namespace Parser

variable {table : EntityState → Bytes} {p : Parser φ} {cursor : Bytes}

/-- A parser that was suspended can go on. -/
theorem WellFormed.suspended (hp : p.WellFormed table) (hc : ¬p.Complete cursor) :
    (p.suspended cursor).WellFormed table := by
  refine ⟨hp.delimiter_eq, ?_⟩
  change (p.search cursor).progress ≤ p.delimiter.length - 1
  rcases Nat.lt_or_ge cursor.length p.bodyLength with hlt | hge
  · rw [search, skipScan_of_length_lt hlt]
    exact hp.progress_le
  · have hprogress : (p.search cursor).progress < p.delimiter.length := by
      by_contra hd
      exact hc ⟨hge, Nat.not_lt.mp hd⟩
    omega

/-- A token with a delimiter takes at least one byte. -/
theorem WellFormed.read_ne_nil (hp : p.WellFormed table) (hd : p.delimiter ≠ [])
    (hc : p.Complete cursor) : (p.search cursor).read ≠ [] := by
  have hpos : 0 < p.delimiter.length := List.length_pos_iff.mpr hd
  exact skipScan_read_ne_nil (by have := hp.progress_le; omega) hc

/-- Twice the bytes left, and one more where a token may take none. -/
def turnsLeft (p : Parser φ) (cursor : Bytes) : ℕ :=
  2 * cursor.length + if p.delimiter = [] then 1 else 0

end Parser

namespace Grammar

variable {g : Grammar φ μ ε} {table : EntityState → Bytes} {p q : Parser φ}
  {cursor rest : Bytes} {emitted : Option μ}

/-- A parser can go on after each token. -/
theorem Lawful.wellFormed_next (hl : g.Lawful table) (hp : p.WellFormed table)
    (h : g.token (p.completed cursor) = .next emitted q) : q.clearBuffer.WellFormed table := by
  obtain ⟨hd, hk⟩ := hl.token_next (p := p.completed cursor) hp.delimiter_eq rfl h
  exact ⟨hd, by rw [Parser.clearBuffer, hk]; exact Nat.zero_le _⟩

/-- A parser can go on after each turn. -/
theorem Lawful.wellFormed_again (hl : g.Lawful table) (hp : p.WellFormed table)
    (h : g.turn p cursor = .again emitted q rest) : q.WellFormed table := by
  obtain ⟨-, -, -, r, htoken, rfl⟩ := turn_eq_again_iff.mp h
  exact hl.wellFormed_next hp htoken

/-- With each turn there is less to do, so that the loop ends. -/
theorem Lawful.turnsLeft_again (hl : g.Lawful table) (hp : p.WellFormed table)
    (h : g.turn p cursor = .again emitted q rest) :
    q.turnsLeft rest < p.turnsLeft cursor := by
  have hq := hl.wellFormed_again hp h
  obtain ⟨-, hc, rfl, r, htoken, rfl⟩ := turn_eq_again_iff.mp h
  have hsplit := p.length_search cursor
  unfold Parser.turnsLeft
  by_cases hd : p.delimiter = []
  · -- only a body has no delimiter, and after it comes something that has one
    have hbody : p.state = .body := hl.table_nil _ (hp.delimiter_eq ▸ hd)
    have hq' : r.clearBuffer.delimiter ≠ [] := fun hnil =>
      hl.token_body (p := p.completed cursor) hbody htoken
        (hl.table_nil _ (hq.delimiter_eq ▸ hnil))
    rw [if_neg hq', if_pos hd]
    omega
  · have hpos := List.length_pos_iff.mpr (hp.read_ne_nil hd hc)
    rw [if_neg hd]
    split_ifs <;> omega

/-- A loop with enough fuel comes to an end. -/
theorem Lawful.loop_ne_diverged (hl : g.Lawful table) {fuel : ℕ} (hp : p.WellFormed table)
    (hfuel : p.turnsLeft cursor < fuel) : g.loop fuel p cursor ≠ .diverged := by
  induction fuel generalizing p cursor with
  | zero => omega
  | succ fuel ih =>
    rw [loop]
    cases hturn : g.turn p cursor with
    | stop r =>
      rintro rfl
      exact turn_ne_stop_diverged p cursor hturn
    | again emitted q rest =>
      have hless := hl.turnsLeft_again hp hturn
      exact fun hr => ih (hl.wellFormed_again hp hturn) (by omega)
        (Reading.prepend_eq_diverged.mp hr)

/-- `from_stream` reads all that the unbounded loop reads. -/
theorem Lawful.fromStream_eq_iff_reads (hl : g.Lawful table) (hp : p.WellFormed table)
    (hne : cursor ≠ []) {r : Reading (Parser φ) μ ε} :
    g.fromStream p cursor = r ↔ g.Reads p cursor r := by
  have hends : g.loop (2 * cursor.length + 2) p cursor ≠ .diverged := by
    apply hl.loop_ne_diverged hp
    unfold Parser.turnsLeft
    split_ifs <;> omega
  rw [fromStream, if_neg hne]
  exact ⟨fun h => reads_of_loop h (h ▸ hends), fun h => (reads_of_loop rfl hends).unique h⟩

/-- `from_stream` ends. -/
theorem Lawful.fromStream_ne_diverged (hl : g.Lawful table) (hp : p.WellFormed table)
    (cursor : Bytes) : g.fromStream p cursor ≠ .diverged := by
  by_cases hne : cursor = []
  · simp [fromStream, hne]
  · exact (((hl.fromStream_eq_iff_reads hp hne).mp rfl).ne_diverged)

/-- The state that a returning loop leaves is well formed again. -/
theorem Lawful.wellFormed_of_reads (hl : g.Lawful table) {r : Reading (Parser φ) μ ε}
    (h : g.Reads p cursor r) (hp : p.WellFormed table) {ms : List μ} {t : Parser φ}
    (hr : r = .returned ms t) : t.WellFormed table := by
  exact (h.invariant (Q := fun _ => True) (fun hp hc => hp.suspended hc)
    (fun hp _ htoken => ⟨hl.wellFormed_next hp htoken, fun _ _ => trivial⟩) hp hr).1

end Grammar

/-! ### Cuts -/

/-- What a grammar promises so that cuts of its input do not matter: nothing is ever too large, the
byte count is not looked at, and an early check only anticipates a later error. -/
structure Grammar.IgnoresCuts (g : Grammar φ μ ε) (table : EntityState → Bytes) : Prop where
  /-- Nothing is ever too large. -/
  unlimited : ∀ p, g.oversized p = none
  /-- A token does not depend on the count of the bytes. -/
  token_recount : ∀ p n, (g.token (p.recount n)).uncounted = (g.token p).uncounted
  /-- The check at the end of a message does not depend on it either. -/
  ranOut_recount : ∀ p n, g.ranOut (p.recount n) = g.ranOut p
  /-- Where the early check throws, the token would have thrown when it was complete. -/
  anticipates_token : ∀ {p cursor e}, p.WellFormed table → g.ranOut p = some e →
    p.Complete cursor → ∃ e' q, g.token (p.completed cursor) = .threw e' q
  /-- Where the early check throws, it throws also with more of the token. -/
  anticipates_ranOut : ∀ {p cursor e}, p.WellFormed table → g.ranOut p = some e →
    ¬p.Complete cursor → ∃ e', g.ranOut (p.suspended cursor) = some e'

namespace Grammar

variable {g : Grammar φ μ ε} {table : EntityState → Bytes}

/-- The byte count does not influence what is read. -/
theorem IgnoresCuts.reads_congr (hg : g.IgnoresCuts table) {p p' : Parser φ} {cursor : Bytes}
    {r : Reading (Parser φ) μ ε} (h : g.Reads p cursor r) (hp : p'.uncounted = p.uncounted) :
    ∃ r', g.Reads p' cursor r' ∧ r'.map Parser.uncounted = r.map Parser.uncounted := by
  induction h generalizing p' with
  | @stop p cursor r hturn =>
    rw [Parser.eq_recount_of_uncounted hp]
    generalize p'.consumed = n
    have hran : g.ranOut ((p.recount n).suspended cursor) = g.ranOut (p.suspended cursor) :=
      hg.ranOut_recount (p.suspended cursor) n
    cases turn_eq_stop_iff.mp hturn with
    | oversized ho => simp [hg.unlimited p] at ho
    | @threw e q _ hc ht =>
      -- only the count of the bytes differs, and the token does not look at it
      have htoken := hg.token_recount (p.completed cursor)
        ((n + (p.search cursor).read.length) % 2 ^ 64)
      change (g.token ((p.recount n).completed cursor)).uncounted = _ at htoken
      cases ht' : g.token ((p.recount n).completed cursor) with
      | next m q' => simp [ht, ht', Token.uncounted] at htoken
      | threw e' q' =>
        simp only [ht, ht', Token.uncounted, Token.threw.injEq] at htoken
        exact ⟨_, Reads.of_stops (.threw (hg.unlimited _) hc ht'), by simp [htoken]⟩
    | ranOut _ hc hr =>
      exact ⟨_, Reads.of_stops (.ranOut (hg.unlimited _) hc (hran.trans hr)), rfl⟩
    | suspended _ hc hr =>
      exact ⟨_, Reads.of_stops (.suspended (hg.unlimited _) hc (hran.trans hr)), rfl⟩
  | @again p q cursor rest emitted r hturn _ ih =>
    rw [Parser.eq_recount_of_uncounted hp]
    generalize p'.consumed = n
    obtain ⟨-, hc, rfl, s, hs, rfl⟩ := turn_eq_again_iff.mp hturn
    have htoken := hg.token_recount (p.completed cursor)
      ((n + (p.search cursor).read.length) % 2 ^ 64)
    change (g.token ((p.recount n).completed cursor)).uncounted = _ at htoken
    cases ht' : g.token ((p.recount n).completed cursor) with
    | threw e q' => simp [hs, ht', Token.uncounted] at htoken
    | next m s' =>
      simp only [hs, ht', Token.uncounted, Token.next.injEq] at htoken
      obtain ⟨rfl, hs'⟩ := htoken
      have hclear : s'.clearBuffer.uncounted = s.clearBuffer.uncounted :=
        congrArg Parser.clearBuffer hs'
      obtain ⟨r', hr', hmap⟩ := ih hclear
      refine ⟨_, Reads.again (turn_eq_again_iff.mpr
        ⟨hg.unlimited _, hc, rfl, s', ht', rfl⟩) hr', ?_⟩
      rw [Reading.map_prepend, Reading.map_prepend, hmap]

/-- One cut: what is read of the whole is read of the two parts, or the whole and the first part make
the loop throw, and throw the same unless an early check fails. -/
theorem IgnoresCuts.reads_cut (hg : g.IgnoresCuts table) (hl : g.Lawful table) {p : Parser φ}
    {cursor : Bytes} {r : Reading (Parser φ) μ ε} (h : g.Reads p cursor r)
    (hp : p.WellFormed table) {xs ys : Bytes} (hcut : cursor = xs ++ ys) :
    (∃ ms p₁ r₂, g.Reads p xs (.returned ms p₁) ∧ g.Reads p₁ ys r₂ ∧
      (r₂.prepend ms).map Parser.uncounted = r.map Parser.uncounted) ∨
    ∃ e q e' q', g.Reads p xs (.threw e q) ∧ r = .threw e' q' ∧ (e = e' ∨ ∃ s, g.ranOut s = some e) := by
  induction h generalizing xs with
  | @stop p cursor r hturn =>
    subst hcut
    by_cases hx : p.Complete xs
    · -- the token ends in the first part, and it makes the loop throw
      right
      have hc : p.Complete (xs ++ ys) := skipComplete_append_of_complete hx ys
      cases turn_eq_stop_iff.mp hturn with
      | oversized ho => simp [hg.unlimited p] at ho
      | ranOut _ hnot | suspended _ hnot => exact absurd hc hnot
      | @threw e q _ _ ht =>
        rw [Parser.completed_append_of_complete hx] at ht
        exact ⟨e, q, e, q, Reads.of_stops (.threw (hg.unlimited p) hx ht), rfl,
          Or.inl rfl⟩
    · have hpart : p.Complete (xs ++ ys) ↔ (p.suspended xs).Complete ys :=
        Parser.complete_append_of_not_complete hx ys
      cases hran : g.ranOut (p.suspended xs) with
      | none =>
        -- the loop goes on in the second part where it stopped in the first
        left
        suffices hsecond : ∃ r', g.Reads (p.suspended xs) ys r' ∧
            r'.map Parser.uncounted = r.map Parser.uncounted by
          obtain ⟨r', hr', hmap⟩ := hsecond
          exact ⟨[], _, r', Reads.of_stops (.suspended (hg.unlimited p) hx hran), hr',
            by rw [Reading.prepend_nil, hmap]⟩
        cases turn_eq_stop_iff.mp hturn with
        | oversized ho => simp [hg.unlimited p] at ho
        | @threw e q _ hc ht =>
          have htoken := hg.token_recount ((p.suspended xs).completed ys)
            (p.completed (xs ++ ys)).consumed
          rw [← Parser.eq_recount_of_uncounted
            (Parser.completed_append_of_not_complete hx ys)] at htoken
          cases ht' : g.token ((p.suspended xs).completed ys) with
          | next m q' => simp [ht, ht', Token.uncounted] at htoken
          | threw e' q' =>
            simp only [ht, ht', Token.uncounted, Token.threw.injEq] at htoken
            exact ⟨_, Reads.of_stops (.threw (hg.unlimited _) (hpart.mp hc) ht'),
              by simp [htoken]⟩
        | ranOut _ hc hr =>
          rw [Parser.suspended_append_of_not_complete hx] at hr ⊢
          exact ⟨_, Reads.of_stops (.ranOut (hg.unlimited _) (mt hpart.mpr hc) hr), rfl⟩
        | suspended _ hc hr =>
          rw [Parser.suspended_append_of_not_complete hx] at hr ⊢
          exact ⟨_, Reads.of_stops (.suspended (hg.unlimited _) (mt hpart.mpr hc) hr), rfl⟩
      | some e =>
        -- the early check fails after the first part, and the whole cannot be read either
        right
        suffices hthrew : ∃ e' q', r = .threw e' q' by
          obtain ⟨e', q', hr⟩ := hthrew
          exact ⟨e, _, e', q', Reads.of_stops (.ranOut (hg.unlimited p) hx hran), hr,
            Or.inr ⟨_, hran⟩⟩
        cases turn_eq_stop_iff.mp hturn with
        | oversized | threw | ranOut => exact ⟨_, _, rfl⟩
        | suspended _ hc hr =>
          obtain ⟨e', hran'⟩ := hg.anticipates_ranOut (hp.suspended hx) hran (mt hpart.mpr hc)
          rw [Parser.suspended_append_of_not_complete hx, hran'] at hr
          cases hr
  | @again p q cursor rest emitted r hturn hrest ih =>
    subst hcut
    have hq := hl.wellFormed_again hp hturn
    obtain ⟨-, hc, rfl, s, hs, rfl⟩ := turn_eq_again_iff.mp hturn
    by_cases hx : p.Complete xs
    · rw [Parser.completed_append_of_complete hx] at hs
      have hturn' := turn_eq_again_iff.mpr ⟨hg.unlimited p, hx, rfl, s, hs, rfl⟩
      rcases ih hq (Parser.rest_append_of_complete hx ys) with
        ⟨ms, p₁, r₂, h₁, h₂, hmap⟩ | ⟨e, t, e', t', h₁, rfl, hsame⟩
      · refine Or.inl ⟨emitted.toList ++ ms, p₁, r₂, Reads.again hturn' h₁, h₂, ?_⟩
        rw [← Reading.prepend_prepend, Reading.map_prepend, hmap, Reading.map_prepend]
      · exact Or.inr ⟨e, t, e', t', Reads.again hturn' h₁, rfl, hsame⟩
    · have hy := (Parser.complete_append_of_not_complete hx ys).mp hc
      have htoken := hg.token_recount ((p.suspended xs).completed ys)
        (p.completed (xs ++ ys)).consumed
      rw [← Parser.eq_recount_of_uncounted
        (Parser.completed_append_of_not_complete hx ys), hs] at htoken
      cases hran : g.ranOut (p.suspended xs) with
      | some e =>
        -- an early check that fails announces a token that throws, but this one did not
        obtain ⟨e', q', ht'⟩ := hg.anticipates_token (hp.suspended hx) hran hy
        simp [ht', Token.uncounted] at htoken
      | none =>
        have hturn' := turn_eq_stop_iff.mpr (.suspended (hg.unlimited p) hx hran)
        cases ht' : g.token ((p.suspended xs).completed ys) with
        | threw e q' => simp [ht', Token.uncounted] at htoken
        | next m s' =>
          simp only [ht', Token.uncounted, Token.next.injEq] at htoken
          obtain ⟨rfl, hs'⟩ := htoken
          have hclear : s'.clearBuffer.uncounted = s.clearBuffer.uncounted :=
            congrArg Parser.clearBuffer hs'.symm
          obtain ⟨r', hr', hmap⟩ := hg.reads_congr hrest hclear
          have hsearch := Parser.search_append_of_not_complete hx ys
          have hrest₂ : (p.search (xs ++ ys)).rest = ((p.suspended xs).search ys).rest := by
            rw [hsearch]
          refine Or.inl ⟨[], _, _, Reads.stop hturn', Reads.again (turn_eq_again_iff.mpr
            ⟨hg.unlimited _, hy, hrest₂, s', ht', rfl⟩) hr', ?_⟩
          rw [Reading.prepend_nil, Reading.map_prepend, Reading.map_prepend, hmap]

/-- A grammar that promises this much can be fed its input in any pieces. -/
theorem IgnoresCuts.cutStable (hg : g.IgnoresCuts table) (hl : g.Lawful table) :
    CutStable g.fromStream (Parser.WellFormed table)
      (fun p q => p.uncounted = q.uncounted) where
  inv_of_returned {p xs ms t} hp h := by
    by_cases hne : xs = []
    · simp only [fromStream, if_pos hne, Reading.returned.injEq] at h
      exact h.2 ▸ hp
    · exact hl.wellFormed_of_reads ((hl.fromStream_eq_iff_reads hp hne).mp h) hp rfl
  returned {p xs ys ms t} hp hx hy h := by
    have hxy : xs ++ ys ≠ [] := by simp [hx]
    rcases hg.reads_cut hl ((hl.fromStream_eq_iff_reads hp hxy).mp h) hp rfl with
      ⟨ms₁, p₁, r₂, h₁, h₂, hmap⟩ | ⟨_, _, e, q, -, habsurd, -⟩
    · have hp₁ := hl.wellFormed_of_reads h₁ hp rfl
      cases r₂ with
      | returned ms₂ t' =>
        -- the whole was read, so that both parts were
        simp only [Reading.prepend_returned, Reading.map_returned, Reading.returned.injEq] at hmap
        exact ⟨ms₁, p₁, ms₂, t', (hl.fromStream_eq_iff_reads hp hx).mpr h₁,
          (hl.fromStream_eq_iff_reads hp₁ hy).mpr h₂, hmap.1.symm, hmap.2.symm⟩
      | threw e q => simp at hmap
      | diverged => exact absurd rfl h₂.ne_diverged
    · -- the whole was not rejected
      exact absurd habsurd (by simp)
  threw {p xs ys e t} hp hx hy h := by
    have hxy : xs ++ ys ≠ [] := by simp [hx]
    rcases hg.reads_cut hl ((hl.fromStream_eq_iff_reads hp hxy).mp h) hp rfl with
      ⟨ms₁, p₁, r₂, h₁, h₂, hmap⟩ | ⟨e', q, _, _, h₁, -, -⟩
    · have hp₁ := hl.wellFormed_of_reads h₁ hp rfl
      cases r₂ with
      | returned ms₂ t' => simp at hmap
      | threw e' q =>
        exact Or.inr ⟨ms₁, p₁, e', q, (hl.fromStream_eq_iff_reads hp hx).mpr h₁,
          (hl.fromStream_eq_iff_reads hp₁ hy).mpr h₂⟩
      | diverged => exact absurd rfl h₂.ne_diverged
    · exact Or.inl ⟨e', q, (hl.fromStream_eq_iff_reads hp hx).mpr h₁⟩

end Grammar

end PrimeServer
