import PrimeServer.Http.Cuts
import PrimeServer.Http.Passes

/-!
# How a message ends

The loop of `from_stream` up to the end of the message it is in, and what a stream looks like that is one
message and no more.

## Main results

* `Grammar.Restarts.oneMessage_iff`: what was read is one message exactly if the message ends with the bytes;
* `StartLine.oneMessage_feed_iff`, `StartLine.threw_feed_iff`: the start line may be read before, and in any
  pieces.
-/

namespace PrimeServer

open Chunking Delimiter

/-! ### The end of a message -/

/-- How the loop of `from_stream` comes to the end of the message it is in, or to the end of its bytes. -/
inductive Ending (φ μ ε : Type) where
  /-- The message is handed out. -/
  | handed (m : μ) (p : Parser φ) (rest : Bytes)
  /-- The loop ends with an exception. -/
  | threw (e : ε) (p : Parser φ)
  /-- The loop ends with the message. -/
  | suspended (p : Parser φ)

namespace Grammar

variable {φ μ ε : Type}

/-- The loop up to the end of the message. -/
inductive Ends (g : Grammar φ μ ε) : Parser φ → Bytes → Ending φ μ ε → Prop where
  /-- The next turn throws. -/
  | threw {p q : Parser φ} {cursor : Bytes} {e : ε} (hturn : g.turn p cursor = .stop (.threw e q)) :
      Ends g p cursor (.threw e q)
  /-- The next turn finds no end of the token. -/
  | suspended {p q : Parser φ} {cursor : Bytes} (hturn : g.turn p cursor = .stop (.returned [] q)) :
      Ends g p cursor (.suspended q)
  /-- The next turn hands out a message. -/
  | handed {p q : Parser φ} {cursor rest : Bytes} {m : μ}
      (hturn : g.turn p cursor = .again (some m) q rest) : Ends g p cursor (.handed m q rest)
  /-- The next turn ends a token that hands out nothing, and the loop goes on. -/
  | again {p q : Parser φ} {cursor rest : Bytes} {v : Ending φ μ ε}
      (hturn : g.turn p cursor = .again none q rest) (hrest : Ends g q rest v) : Ends g p cursor v

variable {g : Grammar φ μ ε} {p : Parser φ} {cursor : Bytes}

/-- What is read of the bytes, when the loop comes to this end of its first message. -/
def Continues (g : Grammar φ μ ε) (r : Reading (Parser φ) μ ε) : Ending φ μ ε → Prop
  | .handed m q rest => ∃ r', g.Reads q rest r' ∧ r = r'.prepend [m]
  | .threw e q => r = .threw e q
  | .suspended q => r = .returned [] q

/-- A reading begins with the end of a message. -/
theorem Reads.exists_ends {r : Reading (Parser φ) μ ε} (h : g.Reads p cursor r) :
    ∃ v, g.Ends p cursor v ∧ g.Continues r v := by
  induction h with
  | @stop p cursor r hturn =>
    cases turn_eq_stop_iff.mp hturn with
    | oversized | threw | ranOut => exact ⟨_, .threw hturn, rfl⟩
    | suspended => exact ⟨_, .suspended hturn, rfl⟩
  | @again p q cursor rest emitted r hturn hrest ih =>
    cases emitted with
    | none =>
      obtain ⟨v, hv, hcontinues⟩ := ih
      exact ⟨v, .again hturn hv, by simpa using hcontinues⟩
    | some m => exact ⟨_, .handed hturn, r, hrest, rfl⟩

/-- There is only one way in which the first message in some bytes can end. -/
theorem Ends.unique {v w : Ending φ μ ε} (hv : g.Ends p cursor v) (hw : g.Ends p cursor w) :
    v = w := by
  induction hv with
  | threw hturn => cases hw <;> simp_all
  | suspended hturn => cases hw <;> simp_all
  | handed hturn => cases hw <;> simp_all
  | again hturn _ ih =>
    cases hw with
    | threw hturn' | suspended hturn' | handed hturn' => simp [hturn] at hturn'
    | again hturn' hrest =>
      obtain ⟨-, rfl, rfl⟩ := Turn.again.inj (hturn.symm.trans hturn')
      exact ih hrest

/-- The end of a message does not depend on what comes after it. -/
theorem Ends.exists_read {v : Ending φ μ ε} (h : g.Ends p cursor v) {m : μ} {q : Parser φ}
    {rest : Bytes} (hv : v = .handed m q rest) :
    ∃ read, cursor = read ++ rest ∧ ∀ later, g.Ends p (read ++ later) (.handed m q later) := by
  induction h with
  | threw | suspended => cases hv
  | handed hturn =>
    cases hv
    obtain ⟨read, hread, hlater⟩ := turn_append_of_again hturn
    exact ⟨read, hread, fun later => .handed (hlater later)⟩
  | again hturn _ ih =>
    -- what the turn read comes in front of what the rest of the message read
    obtain ⟨first, rfl, hfirst⟩ := turn_append_of_again hturn
    obtain ⟨read, rfl, hread⟩ := ih hv
    refine ⟨first ++ read, (List.append_assoc _ _ _).symm, fun later => ?_⟩
    rw [List.append_assoc]
    exact .again (hfirst _) (hread later)

variable {v : Ending φ μ ε}

/-- A token with which the message goes on. -/
theorem Ends.of_next (h : g.Ends p cursor v) (ho : g.oversized p = none) (hc : p.Complete cursor)
    {r : Parser φ} (htoken : g.token (p.completed cursor) = .next none r) :
    g.Ends r.clearBuffer (p.search cursor).rest v := by
  have hturn := turn_of_complete ho hc
  rw [htoken] at hturn
  cases h with
  | threw hturn' | suspended hturn' | handed hturn' => simp [hturn] at hturn'
  | again hturn' hrest =>
    obtain ⟨-, rfl, rfl⟩ := Turn.again.inj (hturn.symm.trans hturn')
    exact hrest

/-- A token that makes the loop throw. -/
theorem Ends.of_threw (h : g.Ends p cursor v) (ho : g.oversized p = none) (hc : p.Complete cursor)
    {e : ε} {r : Parser φ} (htoken : g.token (p.completed cursor) = .threw e r) : v = .threw e r := by
  have hturn := turn_of_complete ho hc
  rw [htoken] at hturn
  exact h.unique (.threw hturn)

/-- A message is handed out with a complete token. -/
theorem Ends.complete (h : g.Ends p cursor v) {m : μ} {q : Parser φ} {rest : Bytes}
    (hv : v = .handed m q rest) : p.Complete cursor := by
  cases h with
  | threw | suspended => cases hv
  | handed hturn | again hturn => exact (turn_eq_again_iff.mp hturn).2.1

/-- What holds inside a message and is kept by its tokens, and what the last token makes of it. -/
theorem Ends.invariant {P : Parser φ → Prop} {Q : μ → Prop}
    (hnext : ∀ {p q}, P p → g.token p = .next none q → P q)
    (hhanded : ∀ {p q m}, P p → g.token p = .next (some m) q → Q m)
    (hcompleted : ∀ {p cursor}, P p → P (p.completed cursor)) (hclear : ∀ {p}, P p → P p.clearBuffer)
    (h : g.Ends p cursor v) (hp : P p) {m : μ} {q : Parser φ} {rest : Bytes} (hv : v = .handed m q rest) :
    Q m := by
  induction h with
  | threw | suspended => cases hv
  | handed hturn =>
    cases hv
    obtain ⟨-, -, -, s, htoken, -⟩ := turn_eq_again_iff.mp hturn
    exact hhanded (hcompleted hp) htoken
  | again hturn _ ih =>
    obtain ⟨-, -, -, s, htoken, rfl⟩ := turn_eq_again_iff.mp hturn
    exact ih (hclear (hnext (hcompleted hp) htoken)) hv

end Grammar

/-! ### Whole messages -/

/-- What was read is one message, and nothing more. -/
def OneMessage {φ μ ε : Type} (initial : EntityState) (r : Reading (Parser φ) μ ε) (m : μ) : Prop :=
  ∃ t, r = .returned [m] t ∧ t.state = initial ∧ t.partialBuffer = []

namespace Grammar

variable {φ μ ε : Type} {g : Grammar φ μ ε} {initial : EntityState} {p t : Parser φ} {cursor : Bytes}
  {r : Reading (Parser φ) μ ε}

/-- What a grammar promises about the ends of messages: a parser is in its initial state where a message
ends, with nothing to do, and not inside a message. -/
structure Restarts (g : Grammar φ μ ε) (initial : EntityState) : Prop where
  /-- Nothing is ever too large. -/
  unlimited : ∀ p, g.oversized p = none
  /-- A token that hands out no message leads to another state than the initial one. -/
  leaves : ∀ {p q}, g.token p = .next none q → q.state ≠ initial
  /-- A token that hands out a message leads to the initial state, in which no input is missing. -/
  restarts : ∀ {p q m}, g.token p = .next (some m) q → q.clearBuffer.state = initial ∧
    ¬q.clearBuffer.Complete [] ∧ g.ranOut (q.clearBuffer.suspended []) = none

/-- A parser that is inside a message stays inside it until the message is handed out. -/
theorem Restarts.state_ne (hg : g.Restarts initial) (h : g.Reads p cursor r) (hr : r = .returned [] t)
    (hp : p.state ≠ initial) : t.state ≠ initial := by
  induction h with
  | stop hturn =>
    subst hr
    cases turn_eq_stop_iff.mp hturn with
    | suspended => exact hp
  | @again p q cursor rest emitted r hturn _ ih =>
    obtain ⟨later, hreturned, hnone⟩ := Reading.prepend_eq_returned.mp hr
    obtain ⟨hemitted, rfl⟩ := List.append_eq_nil_iff.mp hnone
    obtain rfl := Option.toList_eq_nil_iff.mp hemitted
    obtain ⟨-, -, -, s, htoken, rfl⟩ := turn_eq_again_iff.mp hturn
    have hleaves : s.state ≠ initial := hg.leaves htoken
    exact ih hreturned hleaves

/-- Where nothing of a message is left, nothing was read. -/
theorem Restarts.eq_nil (hg : g.Restarts initial) (h : g.Reads p cursor (.returned [] t))
    (ht : t.state = initial) (hbuffer : t.partialBuffer = []) : cursor = [] := by
  -- a turn more would have left the initial state, which only a message restores
  generalize hr : Reading.returned [] t = r at h
  cases h with
  | stop hturn =>
    subst hr
    cases turn_eq_stop_iff.mp hturn with
    | suspended => exact (List.append_eq_nil_iff.mp hbuffer).2
  | @again _ q _ rest emitted r hturn hrest =>
    obtain ⟨later, hreturned, hnone⟩ := Reading.prepend_eq_returned.mp hr.symm
    obtain ⟨hemitted, rfl⟩ := List.append_eq_nil_iff.mp hnone
    obtain rfl := Option.toList_eq_nil_iff.mp hemitted
    obtain ⟨-, -, -, s, htoken, rfl⟩ := turn_eq_again_iff.mp hturn
    have hleaves : s.state ≠ initial := hg.leaves htoken
    exact absurd ht (hg.state_ne hrest hreturned hleaves)

/-- Where a message ends with the bytes, nothing more is read. -/
theorem Restarts.reads_nil (hg : g.Restarts initial) {p q : Parser φ} {m : μ}
    (htoken : g.token p = .next (some m) q) :
    ∃ t, g.Reads q.clearBuffer [] (.returned [] t) ∧ t.state = initial ∧ t.partialBuffer = [] := by
  obtain ⟨hstate, hc, hran⟩ := hg.restarts htoken
  exact ⟨_, .of_stops (.suspended (hg.unlimited _) hc hran), hstate, rfl⟩

/-- The last token of a message. -/
theorem Ends.exists_token {v : Ending φ μ ε} (h : g.Ends p cursor v) {m : μ} {q : Parser φ} {rest : Bytes}
    (hv : v = .handed m q rest) : ∃ s u, g.token s = .next (some m) u ∧ q = u.clearBuffer := by
  induction h with
  | threw | suspended => cases hv
  | handed hturn =>
    cases hv
    obtain ⟨-, -, -, u, htoken, rfl⟩ := turn_eq_again_iff.mp hturn
    exact ⟨_, u, htoken, rfl⟩
  | again _ _ ih => exact ih hv

/-- What was read is one message exactly if the message ends with the bytes. -/
theorem Restarts.oneMessage_iff (hg : g.Restarts initial) (h : g.Reads p cursor r) {m : μ} :
    OneMessage initial r m ↔ ∃ q, g.Ends p cursor (.handed m q []) := by
  obtain ⟨v, hv, hcontinues⟩ := h.exists_ends
  constructor
  · rintro ⟨t, rfl, ht, hbuffer⟩
    cases v with
    | threw | suspended => cases hcontinues
    | handed m' q rest =>
      -- what follows the message is no message, and nothing of it is kept
      obtain ⟨r', hr', hreturned⟩ := hcontinues
      obtain ⟨later, rfl, hmessages⟩ := Reading.prepend_eq_returned.mp hreturned.symm
      obtain ⟨rfl, rfl⟩ : m' = m ∧ later = [] := by simpa using hmessages
      obtain rfl := hg.eq_nil hr' ht hbuffer
      exact ⟨q, hv⟩
  · rintro ⟨q, hq⟩
    obtain rfl := hv.unique hq
    obtain ⟨r', hr', rfl⟩ := hcontinues
    obtain ⟨s, u, htoken, rfl⟩ := hq.exists_token rfl
    obtain ⟨t, ht, hstate, hbuffer⟩ := hg.reads_nil htoken
    obtain rfl := hr'.unique ht
    exact ⟨t, rfl, hstate, hbuffer⟩

/-- Exactly one message is read if it ends with the last of the bytes. -/
theorem Restarts.exists_oneMessage_iff (hg : g.Restarts initial) (h : g.Reads p cursor r)
    {P : μ → Prop} :
    (∃ m, OneMessage initial r m ∧ P m) ↔ ∃ m q, g.Ends p cursor (.handed m q []) ∧ P m := by
  simp only [hg.oneMessage_iff h, exists_and_right]

/-- If no message ends before the last of the bytes, then what was read threw exactly if the message did. -/
theorem Restarts.threw_iff (hg : g.Restarts initial) (h : g.Reads p cursor r)
    (hlast : ∀ m q rest, g.Ends p cursor (.handed m q rest) → rest = []) :
    (∃ e t, r = .threw e t) ↔ ∃ e t, g.Ends p cursor (.threw e t) := by
  obtain ⟨v, hv, hcontinues⟩ := h.exists_ends
  constructor
  · rintro ⟨e, t, rfl⟩
    cases v with
    | suspended => cases hcontinues
    | threw e' t' => exact ⟨e', t', hv⟩
    | handed m q rest =>
      -- nothing follows the message that could make the loop throw
      obtain ⟨r', hr', hthrew⟩ := hcontinues
      obtain rfl := hlast m q rest hv
      obtain ⟨s, u, htoken, rfl⟩ := hv.exists_token rfl
      obtain ⟨t', ht', -, -⟩ := hg.reads_nil htoken
      obtain rfl := hr'.unique ht'
      cases hthrew
  · rintro ⟨e, t, hthrew⟩
    obtain rfl := hv.unique hthrew
    exact ⟨e, t, hcontinues⟩

end Grammar

/-- After a message the parser of requests waits for bytes: none do not complete anything. -/
theorem RequestParser.not_complete_flushStream (p : RequestParser) :
    ¬(flushStream p).clearBuffer.Complete [] := by
  change ¬SkipComplete (ascii " ") 0 0 []
  decide

/-- After a message the parser of responses waits for bytes as well. -/
theorem ResponseParser.not_complete_flushStream (p : ResponseParser) :
    ¬(flushStream p).clearBuffer.Complete [] := by
  change ¬SkipComplete (ascii " ") 0 0 []
  decide

/-- After a request the parser is back at the method. -/
theorem RequestParser.grammar_restarts (curl : Curl) : (grammar curl sizeMax).Restarts .method where
  unlimited := oversized_sizeMax
  leaves {p q} htoken := by
    cases token_eq_next_iff.mp htoken with
    | header hs => rcases hs with hs | hs <;> simp [hs]
    | @chunkLength n => by_cases hn : n = 0 <;> simp [hn]
    | _ => simp
  restarts {p q m} htoken := by
    cases token_eq_next_iff.mp htoken <;> exact ⟨rfl, not_complete_flushStream _, rfl⟩

/-- After a response the parser is back at the version. -/
theorem ResponseParser.grammar_restarts : grammar.Restarts .version where
  unlimited _ := rfl
  leaves {p q} htoken := by
    cases token_eq_next_iff.mp htoken with
    | header hs => rcases hs with hs | hs <;> simp [hs]
    | @chunkLength n => by_cases hn : n = 0 <;> simp [hn]
    | _ => simp
  restarts {p q m} htoken := by
    cases token_eq_next_iff.mp htoken <;> exact ⟨rfl, not_complete_flushStream _, rfl⟩

/-! ### After the start line -/

/-- The bytes are a start line: a fresh parser is at the beginning of the header lines when it has read them,
and has read nothing of these. -/
structure StartLine {φ μ ε : Type} (g : Grammar φ μ ε) (fresh : Parser φ) (start : Bytes) (p : Parser φ) :
    Prop where
  /-- A fresh parser reads the start line and hands out nothing. -/
  read : g.fromStream fresh start = .returned [] p
  /-- It is then at the header lines. -/
  state : p.state = .headers
  /-- It has no header yet. -/
  headers : p.headers = .empty
  /-- It has no body yet. -/
  body : p.body = []
  /-- The next token goes up to a line end. -/
  delimiter : p.delimiter = crlf
  /-- Nothing of the next token is to be skipped. -/
  bodyLength : p.bodyLength = 0
  /-- Nothing of the next token was read. -/
  atToken : p.AtToken

namespace StartLine

variable {φ μ ε : Type} {g : Grammar φ μ ε} {table : EntityState → Bytes} {fresh p : Parser φ}
  {start s : Bytes} {initial : EntityState}

/-- A start line leaves a parser that waits for what comes next. -/
theorem not_complete (h : StartLine g fresh start p) : ¬p.Complete [] := by
  simp only [Parser.Complete, h.delimiter, h.bodyLength, h.atToken.progress]
  decide

variable (h : StartLine g fresh start p) (hg : g.IgnoresCuts table) (hl : g.Lawful table)
  (hfresh : fresh.WellFormed table)

include h hg hl hfresh

/-- A start line leaves a parser that can go on. -/
theorem wellFormed : p.WellFormed table := (hg.cutStable hl).inv_of_returned hfresh h.read

/-- What a call on the section returns, calls on the start line and the section in pieces return. -/
theorem feed_of_returned {pieces : List Bytes} (hpieces : pieces.flatten = start ++ s) {ms : List μ}
    {t : Parser φ} (hread : g.fromStream p s = .returned ms t) :
    ∃ t', feed g.fromStream fresh pieces = .returned ms t' ∧ t'.uncounted = t.uncounted := by
  suffices hwhole : ∃ u, g.fromStream fresh pieces.flatten = .returned ms u ∧
      u.uncounted = t.uncounted by
    obtain ⟨u, hu, hcount⟩ := hwhole
    obtain ⟨t', hfeed, hcount'⟩ := hg.feed_of_returned hl hfresh hu
    exact ⟨t', hfeed, hcount'.trans hcount⟩
  rw [hpieces]
  by_cases hstart : start = []
  · subst hstart
    obtain ⟨-, rfl⟩ := Reading.returned.inj h.read
    exact ⟨t, hread, rfl⟩
  · by_cases hs : s = []
    · subst hs
      obtain ⟨rfl, rfl⟩ := Reading.returned.inj hread
      exact ⟨p, by rw [List.append_nil, h.read], rfl⟩
    · exact (hg.cutStable hl).append_of_returned hfresh (hl.fromStream_ne_diverged hfresh _) hstart hs
        h.read hread

/-- If a call on the section throws, so does one of the calls on the start line and the section in
pieces. -/
theorem feed_of_threw {pieces : List Bytes} (hpieces : pieces.flatten = start ++ s) {e : ε}
    {t : Parser φ} (hread : g.fromStream p s = .threw e t) :
    ∃ e' t', feed g.fromStream fresh pieces = .threw e' t' := by
  have hfilter : ∀ piece ∈ pieces.filter (!·.isEmpty), piece ≠ [] := fun piece hpiece => by
    simpa using (List.mem_filter.mp hpiece).2
  have hreads := hg.readsInPieces hl hfresh hfilter
  rw [ReadsInPieces, List.flatten_filter_not_isEmpty, hpieces, feed_filter fun _ => rfl] at hreads
  cases hwhole : g.fromStream fresh (start ++ s) with
  | threw e' t' =>
    rw [hwhole] at hreads
    exact hreads
  | diverged => exact absurd hwhole (hl.fromStream_ne_diverged hfresh _)
  | returned ms u =>
    -- the section would not make a call throw
    have hs : s ≠ [] := by
      rintro rfl
      cases hread
    by_cases hstart : start = []
    · subst hstart
      obtain ⟨-, rfl⟩ := Reading.returned.inj h.read
      simp [hread] at hwhole
    · obtain ⟨ms₁, s₁, ms₂, t', hfirst, hsecond, -, -⟩ :=
        (hg.cutStable hl).returned hfresh hstart hs hwhole
      obtain ⟨-, rfl⟩ := Reading.returned.inj (h.read.symm.trans hfirst)
      cases hread.symm.trans hsecond

/-- One message is read of the pieces if the parser that has read the start line reads one of the rest. -/
theorem oneMessage_feed_iff {pieces : List Bytes} (hpieces : pieces.flatten = start ++ s) {m : μ} :
    OneMessage initial (feed g.fromStream fresh pieces) m ↔ OneMessage initial (g.fromStream p s) m := by
  cases hread : g.fromStream p s with
  | returned ms t =>
    obtain ⟨t', hfeed, hcount⟩ := h.feed_of_returned hg hl hfresh hpieces hread
    have hstate : t'.state = t.state := congrArg (fun p => p.state) hcount
    have hbuffer : t'.partialBuffer = t.partialBuffer := congrArg (fun p => p.partialBuffer) hcount
    simp [OneMessage, hfeed, hstate, hbuffer]
  | threw e t =>
    obtain ⟨e', t', hfeed⟩ := h.feed_of_threw hg hl hfresh hpieces hread
    simp [OneMessage, hfeed]
  | diverged => exact absurd hread (hl.fromStream_ne_diverged (h.wellFormed hg hl hfresh) _)

/-- Reading the pieces throws if the parser that has read the start line throws at the rest. -/
theorem threw_feed_iff {pieces : List Bytes} (hpieces : pieces.flatten = start ++ s) :
    (∃ e t, feed g.fromStream fresh pieces = .threw e t) ↔ ∃ e t, g.fromStream p s = .threw e t := by
  cases hread : g.fromStream p s with
  | returned ms t =>
    obtain ⟨t', hfeed, -⟩ := h.feed_of_returned hg hl hfresh hpieces hread
    simp [hfeed]
  | threw e t =>
    obtain ⟨e', t', hfeed⟩ := h.feed_of_threw hg hl hfresh hpieces hread
    simp [hfeed]
  | diverged => exact absurd hread (hl.fromStream_ne_diverged (h.wellFormed hg hl hfresh) _)

end StartLine

end PrimeServer
