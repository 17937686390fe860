import PrimeServer.Http.Passes
import PrimeServer.Http.Sections
import PrimeServer.Library.Occurrence

/-!
# The end of a token

Whether `consume_until` stops at the first delimiter that arrives. It remembers how much of the delimiter
it has seen last, and forgets it at a byte that does not go on with it, without asking whether the delimiter
starts anew at this byte. For a space this makes no difference; a line end is missed where it follows
a carriage return that is taken for its own.

## Main results

* `Parser.stopsAtFirst_iff`: which bytes `consume_until` cuts at their first delimiter, however they arrive.
-/

namespace PrimeServer

open Delimiter

variable {φ : Type}

namespace Parser

/-- The parser after `consume_until` was called on some pieces one after another, if none of them completed
the token. -/
def unfinished (p : Parser φ) : List Bytes → Option (Parser φ)
  | [] => some p
  | piece :: pieces =>
    match p.consumeUntil piece with
    | (false, q, _) => q.unfinished pieces
    | (true, _, _) => none

/-- Of the pieces of a token that arrive one after another, that one completes it with which its delimiter
has arrived. The token is what came before the first delimiter, and the rest of the piece is what came after
it. -/
def StopsAtFirst (p : Parser φ) (pieces : List Bytes) : Prop :=
  ∀ earlier piece later q, pieces = earlier ++ piece :: later → p.unfinished earlier = some q →
    ((q.consumeUntil piece).1 = true ↔ p.delimiter <:+: earlier.flatten ++ piece) ∧
      ∀ t rest, q.consumeUntil piece = (true, t, rest) →
        FirstAfter p.delimiter t.partialBuffer (earlier.flatten ++ piece) ∧
          t.partialBuffer ++ p.delimiter ++ rest = earlier.flatten ++ piece

/-- The first line end of the bytes, if there is one, comes after an even number of carriage returns. -/
def EvenReturns (bytes : Bytes) : Prop :=
  ∀ line, FirstAfter crlf line bytes → (line.rtakeWhile (· = byte '\r')).length % 2 = 0

variable {p q : Parser φ}

/-- While pieces arrive and the token is not complete, they are all in the buffer. -/
theorem unfinished_eq_some_iff (hp : ¬p.Complete []) {pieces : List Bytes} :
    p.unfinished pieces = some q ↔ ¬p.Complete pieces.flatten ∧ q = p.suspended pieces.flatten := by
  induction pieces generalizing p with
  | nil =>
    have hnothing : p.suspended [] = p := by simp [suspended, search, skipScan]
    rw [unfinished, List.flatten_nil, hnothing, Option.some.injEq, eq_comm]
    exact (and_iff_right hp).symm
  | cons piece pieces ih =>
    rw [unfinished, List.flatten_cons]
    by_cases hc : p.Complete piece
    · rw [consumeUntil_of_complete hc]
      have hwhole : p.Complete (piece ++ pieces.flatten) := skipComplete_append_of_complete hc _
      simp [hwhole]
    · -- nothing has changed for the token if no further piece arrives
      have hnext : ¬(p.suspended piece).Complete [] := by
        rw [← complete_append_of_not_complete hc, List.append_nil]
        exact hc
      rw [consumeUntil_of_not_complete hc, complete_append_of_not_complete hc,
        suspended_append_of_not_complete hc]
      exact ih hnext

/-- The piece that completes a token is cut where the whole of the pieces would have been cut. -/
theorem consumeUntil_suspended {xs ys : Bytes} (hx : ¬p.Complete xs) :
    ((p.suspended xs).consumeUntil ys).1 = true ↔ p.Complete (xs ++ ys) := by
  rw [complete_append_of_not_complete hx]
  by_cases hc : (p.suspended xs).Complete ys
  · simp [consumeUntil_of_complete hc, hc]
  · simp [consumeUntil_of_not_complete hc, hc]

/-- A token that was not complete and then is holds what it would hold if all its bytes had come at once. -/
theorem eq_of_consumeUntil_suspended {xs ys rest : Bytes} {t : Parser φ} (hx : ¬p.Complete xs)
    (h : (p.suspended xs).consumeUntil ys = (true, t, rest)) :
    t.partialBuffer = (p.completed (xs ++ ys)).partialBuffer ∧ rest = (p.search (xs ++ ys)).rest := by
  have hc : (p.suspended xs).Complete ys := by
    rw [← complete_append_of_not_complete hx, ← consumeUntil_suspended hx, h]
  rw [consumeUntil_of_complete hc] at h
  obtain ⟨-, rfl, rfl⟩ : True ∧ (p.suspended xs).completed ys = t ∧ _ = rest := by simpa using h
  refine ⟨?_, ?_⟩
  · exact (congrArg (fun r : Parser φ => r.partialBuffer) (completed_append_of_not_complete hx ys)).symm
  · rw [search_append_of_not_complete hx]

section AtToken

variable (hp : p.AtToken) (hbody : p.bodyLength = 0)

include hp hbody

/-- At the beginning of a token the search for its end has matched nothing so far. -/
theorem search_of_atToken (bytes : Bytes) : p.search bytes = scan p.delimiter 0 bytes := by
  rw [search, hp.progress, hbody, skipScan_zero]

/-- At the beginning of a token its end is found exactly if the delimiter is there. -/
theorem complete_iff_of_atToken {bytes : Bytes} :
    p.Complete bytes ↔ p.delimiter.length ≤ (scan p.delimiter 0 bytes).progress := by
  rw [← search_of_atToken hp hbody, Complete, SkipComplete, hbody]
  simp [search, hbody]

/-- A complete token and what follows its delimiter. -/
theorem exists_token_of_complete {bytes : Bytes} (hc : p.Complete bytes) :
    ∃ w, (p.completed bytes).partialBuffer = w ∧
      scan p.delimiter 0 bytes = ⟨p.delimiter.length, w ++ p.delimiter, (p.search bytes).rest⟩ ∧
      w ++ p.delimiter ++ (p.search bytes).rest = bytes ∧ Silent p.delimiter w := by
  obtain ⟨w, rest, hscan, hbytes, hsilent⟩ :=
    exists_of_complete ((complete_iff_of_atToken hp hbody).mp hc)
  have hsearch := search_of_atToken hp hbody bytes
  rw [hscan] at hsearch
  refine ⟨w, ?_, by rw [hsearch, hscan], by rw [hsearch, hbytes], hsilent⟩
  simp only [completed, hsearch, hp.buffer, List.nil_append, List.length_append, Nat.add_sub_cancel]
  exact List.take_left

/-- Without a byte no token is complete. -/
theorem not_complete_nil (hd : p.delimiter ≠ []) : ¬p.Complete [] := by
  rw [complete_iff_of_atToken hp hbody, scan_nil]
  exact Nat.not_le.mpr (List.length_pos_iff.mpr hd)

/-- Where the text in front of the first delimiter is silent, the token is complete with that delimiter. -/
theorem complete_iff_of_silent (hd : p.delimiter ≠ []) {bytes : Bytes}
    (hsilent : ∀ w, FirstAfter p.delimiter w bytes → Silent p.delimiter w) :
    (p.Complete bytes ↔ p.delimiter <:+: bytes) ∧
      (p.Complete bytes → FirstAfter p.delimiter (p.completed bytes).partialBuffer bytes) := by
  have hfound : p.Complete bytes → p.delimiter <:+: bytes := fun hc => by
    obtain ⟨w, -, -, hbytes, -⟩ := exists_token_of_complete hp hbody hc
    exact ⟨w, (p.search bytes).rest, hbytes⟩
  refine ⟨⟨hfound, fun hoccurs => ?_⟩, fun hc => ?_⟩
  · obtain ⟨w, hw⟩ := exists_firstAfter hoccurs
    obtain ⟨rest, hscan⟩ := (hw.scan_iff_silent hd).mpr (hsilent w hw)
    rw [complete_iff_of_atToken hp hbody, hscan]
  · -- the matcher stops once only, and it stops after the first delimiter
    obtain ⟨v, hbuffer, hscan, -, -⟩ := exists_token_of_complete hp hbody hc
    obtain ⟨w, hw⟩ := exists_firstAfter (hfound hc)
    obtain ⟨rest, hfirst⟩ := (hw.scan_iff_silent hd).mpr (hsilent w hw)
    rw [hscan, Scan.mk.injEq] at hfirst
    rw [hbuffer, List.append_cancel_right hfirst.2.1]
    exact hw

/-- The pieces are cut at the first delimiter exactly if the text in front of it is silent. -/
theorem stopsAtFirst_iff_silent (hd : p.delimiter ≠ []) (pieces : List Bytes) :
    p.StopsAtFirst pieces ↔
      ∀ w, FirstAfter p.delimiter w pieces.flatten → Silent p.delimiter w := by
  have hnil := not_complete_nil hp hbody hd
  constructor
  · intro hstops w hw
    -- one of the pieces brings the end of the first delimiter, and those before it complete nothing
    have hpos : 0 < (w ++ p.delimiter).length := by
      rw [List.length_append]
      exact Nat.add_pos_right _ (List.length_pos_iff.mpr hd)
    obtain ⟨earlier, piece, later, rfl, hbefore, hreach⟩ := exists_piece_reaching hpos hw.1.length_le
    have hpart : earlier.flatten ++ piece <+: (earlier ++ piece :: later).flatten :=
      ⟨later.flatten, by simp⟩
    have hearlier : ¬p.Complete earlier.flatten := fun hc => by
      obtain ⟨v, -, -, hbytes, -⟩ := exists_token_of_complete hp hbody hc
      have hv : v ++ p.delimiter <+: earlier.flatten := ⟨_, hbytes⟩
      have hle := hw.2 v (hv.trans ((List.prefix_append _ piece).trans hpart))
      have hlength := hv.length_le
      rw [List.length_append] at hbefore hlength
      omega
    obtain ⟨hiff, hfirst⟩ := hstops earlier piece later _ rfl
      ((unfinished_eq_some_iff hnil).mpr ⟨hearlier, rfl⟩)
    have hw' : FirstAfter p.delimiter w (earlier.flatten ++ piece) := hw.restrict hpart hreach
    -- this piece completes the token, which is the text in front of the delimiter
    have htrue := hiff.mpr hw'.occurs
    obtain ⟨t, rest, ht⟩ : ∃ t rest, (p.suspended earlier.flatten).consumeUntil piece = (true, t, rest) :=
      ⟨_, _, Prod.ext htrue rfl⟩
    obtain ⟨hbuffer, -⟩ := eq_of_consumeUntil_suspended hearlier ht
    obtain ⟨v, hv, -, -, hsilent⟩ :=
      exists_token_of_complete hp hbody ((consumeUntil_suspended hearlier).mp htrue)
    rw [hw'.unique (hfirst t rest ht).1, hbuffer, hv]
    exact hsilent
  · rintro hsilent earlier piece later q rfl hq
    obtain ⟨hearlier, rfl⟩ := (unfinished_eq_some_iff hnil).mp hq
    have hpart : earlier.flatten ++ piece <+: (earlier ++ piece :: later).flatten :=
      ⟨later.flatten, by simp⟩
    obtain ⟨hiff, hfirst⟩ := complete_iff_of_silent hp hbody hd fun w hw =>
      hsilent w (hw.extend hpart)
    refine ⟨(consumeUntil_suspended hearlier).trans hiff, fun t rest ht => ?_⟩
    obtain ⟨hbuffer, rfl⟩ := eq_of_consumeUntil_suspended hearlier ht
    have hc : p.Complete (earlier.flatten ++ piece) := by
      rw [← consumeUntil_suspended hearlier, ht]
    obtain ⟨v, hv, -, hbytes, -⟩ := exists_token_of_complete hp hbody hc
    rw [hbuffer]
    refine ⟨hfirst hc, ?_⟩
    rw [hv, hbytes]

/-- `consume_until` stops at the first delimiter of every token that ends with a space, and of a token that
ends with a line end exactly if that comes after an even number of carriage returns. -/
theorem stopsAtFirst_iff (hd : p.delimiter = ascii " " ∨ p.delimiter = crlf) (pieces : List Bytes) :
    p.StopsAtFirst pieces ↔ (p.delimiter = crlf → EvenReturns pieces.flatten) := by
  have hne : p.delimiter ≠ [] := by
    rcases hd with hd | hd <;> rw [hd] <;> decide
  rw [stopsAtFirst_iff_silent hp hbody hne]
  rcases hd with hd | hd
  · -- a space is found wherever it stands
    rw [hd]
    exact iff_of_true (fun w hw => hw.silent_singleton) fun h => absurd h (by decide)
  · rw [hd]
    have hpair : crlf = [byte '\r', byte '\n'] := rfl
    have hbytes : byte '\r' ≠ byte '\n' := by decide
    constructor
    · exact fun h _ line hline => (FirstAfter.silent_pair_iff hbytes hline).mp (h line hline)
    · exact fun h w hw => (FirstAfter.silent_pair_iff hbytes hw).mpr (h rfl w hw)

end AtToken

/-- `stopsAtFirst_iff` for a header line whose end is cut. -/
theorem stopsAtFirst_iff_cutLineEnd :
    RequestParser.afterFirstLine.StopsAtFirst [ascii "a: b\r", ascii "\nc"] ↔
      (RequestParser.afterFirstLine.delimiter = crlf →
        EvenReturns [ascii "a: b\r", ascii "\nc"].flatten) :=
  stopsAtFirst_iff RequestParser.startLine_afterFirstLine.atToken
    RequestParser.startLine_afterFirstLine.bodyLength
    (Or.inr RequestParser.startLine_afterFirstLine.delimiter) _

/-- The end of a header line is missed after a carriage return. -/
theorem not_stopsAtFirst :
    StartLine (RequestParser.grammar .percent sizeMax) RequestParser.fresh
        (ascii "GET / HTTP/1.1\r\n") RequestParser.afterFirstLine ∧
      ¬RequestParser.afterFirstLine.StopsAtFirst [ascii "a: b\r\r\n"] := by
  refine ⟨RequestParser.startLine_afterFirstLine, fun hstops => ?_⟩
  obtain ⟨hiff, -⟩ := hstops [] (ascii "a: b\r\r\n") [] _ rfl rfl
  have hmissed : (RequestParser.afterFirstLine.consumeUntil (ascii "a: b\r\r\n")).1 = false := by decide
  rw [hmissed] at hiff
  exact Bool.false_ne_true (hiff.mpr ⟨ascii "a: b\r", [], by decide⟩)

-- the two header lines of this request are read as one
example : ((RequestParser.fromStream .percent .fresh sizeMax
    (ascii "GET / HTTP/1.1\r\na: b\r\r\nc: d\r\n\r\n")).messages.map fun r => r.headers.entries) =
      [[(ascii "a", ascii "b\r\r\nc: d")]] := by
  decide

end Parser

end PrimeServer
