import PrimeServer.Netstring.Entity

/-!
# Reasons for the rejection of a netstring

Which answer a rejected stream gets is decided by the byte that is refused, and by what came in front of
it in the same message. The digits of a length that came with an earlier message are not seen.

## Main results

* `NetstringEntity.sameReason_iff`: two ways of cutting a stream lead to the same answer exactly if both
  of them, or none, part the digits of a length from a byte that is out of place.
-/

namespace PrimeServer

namespace NetstringEntity

open Automaton Chunking

variable {maxSize : ℕ} {p q : NetstringEntity} {start : Bytes} {pieces : List Bytes}
  {e : RequestException}

/-- The byte that makes the loop throw, and what it throws. -/
theorem refused_of_loop {fuel i : ℕ} (hp : p.Fits) (hlooked : p.Looked start i)
    (h : loop maxSize fuel p start i = .threw e q) :
    ∃ t c, refused (NetstringEntity.byteStep maxSize) (p.taken start i) (start.drop i) = some (t, c) ∧
      e = if i = 0 ∧ p.Severed start then badLength else refusal t c := by
  induction fuel generalizing p start i with
  | zero => cases h
  | succ fuel ih =>
    have hturns := turn_turns maxSize hp hlooked
    rw [loop] at h
    generalize turn maxSize p start i = t at hturns h
    cases hturns with
    | kept => cases h
    | @took request u start' xs i' hfits hlooked' _ hunsevered hsplit hrun =>
      -- what this turn took is not refused, and the loop goes on behind it
      obtain ⟨t, c, hrefused, he⟩ := ih hfits hlooked' (Reading.prepend_eq_threw.mp h)
      rw [hsplit, refused_append_of_run hrun]
      rw [if_neg hunsevered.2] at he
      exact ⟨t, c, hrefused, by rwa [if_neg hunsevered.1]⟩
    | @refused _ t c xs rest hsplit hrun hrefused =>
      obtain ⟨rfl, -⟩ := Reading.threw.inj h
      rw [hsplit, refused_append_of_run hrun, refused_cons_of_refused hrefused]
      exact ⟨t, c, rfl, rfl⟩

/-- What a call throws is the reason for which the automaton refuses a byte, or the one of a length that was severed.
-/
theorem refused_of_fromStream (hp : p.Fits) (h : fromStream maxSize p start = .threw e q) :
    ∃ t c, refused (NetstringEntity.byteStep maxSize) p start = some (t, c) ∧
      e = if p.Severed start then badLength else refusal t c := by
  have hloop := refused_of_loop hp (Or.inl rfl) h
  simpa [taken] using hloop

/-- Digits that another message brought would have made a difference. -/
theorem refusal_of_severed (h : p.Severed start) {t : NetstringEntity} {c : UInt8}
    (hrefused : refused (NetstringEntity.byteStep maxSize) p start = some (t, c)) :
    refusal t c = badBodySeparator := by
  obtain ⟨hlength, hbody, d, hd, hdigit, hcolon⟩ := h
  obtain ⟨rest, rfl⟩ : ∃ rest, start = d :: rest := ⟨_, List.eq_cons_of_mem_head? hd⟩
  have hstep : NetstringEntity.byteStep maxSize p d = none := by
    rw [NetstringEntity.byteStep, if_pos hlength, if_neg hdigit, if_neg hcolon]
  rw [refused_cons_of_refused hstep] at hrefused
  obtain ⟨rfl, rfl⟩ : p = t ∧ d = c := by simpa using hrefused
  rw [refusal, if_pos hlength, if_neg hcolon, if_pos hbody]

/-- One of the messages begins with a byte that is out of place, and the digits of a length in front of
it came with the messages before. -/
def SomeSevered (maxSize : ℕ) (p : NetstringEntity) (pieces : List Bytes) : Prop :=
  ∃ done piece later requests q, pieces = done ++ piece :: later ∧
    feed (fromStream maxSize) p done = .returned requests q ∧ q.Severed piece

/-- A length that is severed in the first piece is severed somewhere. -/
theorem someSevered_of_severed (h : p.Severed start) (pieces : List Bytes) :
    SomeSevered maxSize p (start :: pieces) :=
  ⟨[], start, pieces, [], p, rfl, rfl, h⟩

/-- A message that the parser rejects is the last one that it gets. -/
theorem someSevered_cons_of_threw (h : fromStream maxSize p start = .threw e q) :
    SomeSevered maxSize p (start :: pieces) ↔ p.Severed start := by
  refine ⟨?_, fun hsevered => someSevered_of_severed hsevered pieces⟩
  rintro ⟨done, piece, later, requests, u, hpieces, hfeed, hsevered⟩
  cases done with
  | nil =>
    obtain ⟨rfl, rfl⟩ := List.cons.inj hpieces
    obtain ⟨-, rfl⟩ := Reading.returned.inj hfeed
    exact hsevered
  | cons first done =>
    obtain ⟨rfl, rfl⟩ := List.cons.inj hpieces
    rw [feed_cons_of_threw h] at hfeed
    cases hfeed

/-- A message that the parser takes does not begin with a byte that is out of place. -/
theorem someSevered_cons_of_returned (hp : p.Fits) {requests : List NetstringEntity}
    (h : fromStream maxSize p start = .returned requests q) :
    SomeSevered maxSize p (start :: pieces) ↔ SomeSevered maxSize q pieces := by
  constructor
  · rintro ⟨done, piece, later, requests', u, hpieces, hfeed, hsevered⟩
    cases done with
    | nil =>
      -- the parser would have refused the first byte of this message
      obtain ⟨rfl, rfl⟩ := List.cons.inj hpieces
      obtain ⟨-, rfl⟩ := Reading.returned.inj hfeed
      obtain ⟨hlength, -, d, hd, hdigit, hcolon⟩ := hsevered
      obtain ⟨rest, rfl⟩ : ∃ rest, start = d :: rest := ⟨_, List.eq_cons_of_mem_head? hd⟩
      have hstep : NetstringEntity.byteStep maxSize p d = none := by
        rw [NetstringEntity.byteStep, if_pos hlength, if_neg hdigit, if_neg hcolon]
      have hrun := ((realizes maxSize).returned_iff hp).mp h
      rw [run_cons_of_refused hstep] at hrun
      cases hrun
    | cons first done =>
      obtain ⟨rfl, rfl⟩ := List.cons.inj hpieces
      obtain ⟨_, _, more, hread, hrest, -⟩ := feed_cons_eq_returned.mp hfeed
      obtain ⟨-, rfl⟩ := Reading.returned.inj (h.symm.trans hread)
      exact ⟨done, piece, later, more, u, rfl, hrest, hsevered⟩
  · rintro ⟨done, piece, later, more, u, rfl, hfeed, hsevered⟩
    refine ⟨start :: done, piece, later, requests ++ more, u, rfl, ?_, hsevered⟩
    rw [feed_cons_of_returned h, hfeed, Reading.prepend_returned]

/-- What a rejected stream is answered: the refused byte decides, unless the digits in front of it were
not seen. -/
theorem refused_of_feed (hp : p.Fits) (h : feed (fromStream maxSize) p pieces = .threw e q) :
    ∃ t c, refused (NetstringEntity.byteStep maxSize) p pieces.flatten = some (t, c) ∧
      (SomeSevered maxSize p pieces ∧ refusal t c = badBodySeparator ∧ e = badLength ∨
        ¬SomeSevered maxSize p pieces ∧ e = refusal t c) := by
  induction pieces generalizing p with
  | nil => cases h
  | cons piece pieces ih =>
    rw [List.flatten_cons]
    rcases feed_cons_eq_threw.mp h with hread | ⟨requests, u, hread, hrest⟩
    · -- this message has the byte
      obtain ⟨t, c, hrefused, he⟩ := refused_of_fromStream hp hread
      refine ⟨t, c, refused_append_of_refused hrefused _, ?_⟩
      rw [someSevered_cons_of_threw hread]
      by_cases hsevered : p.Severed piece
      · rw [if_pos hsevered] at he
        exact Or.inl ⟨hsevered, refusal_of_severed hsevered hrefused, he⟩
      · rw [if_neg hsevered] at he
        exact Or.inr ⟨hsevered, he⟩
    · have hrun := ((realizes maxSize).returned_iff hp).mp hread
      have hu := inv_of_run (realizes maxSize).inv_step hp hrun
      rw [refused_append_of_run hrun, someSevered_cons_of_returned hp hread]
      exact ih hu hrest

/-- What a fresh parser does with the messages of a stream. -/
def receive (maxSize : ℕ) (pieces : List Bytes) :
    Reading NetstringEntity NetstringEntity RequestException :=
  feed (fromStream maxSize) fresh pieces

/-- A stream that is rejected in some pieces is rejected with the same answer in others exactly if both
ways of cutting it, or none, part the digits of a length from a byte that is out of place. -/
theorem sameReason_iff {pieces₁ pieces₂ : List Bytes} (hstream : pieces₁.flatten = pieces₂.flatten)
    (h : (receive maxSize pieces₁).thrown = some e) :
    (receive maxSize pieces₂).thrown = some e ↔
      (SomeSevered maxSize fresh pieces₁ ↔ SomeSevered maxSize fresh pieces₂) := by
  have hdifferent : badLength ≠ badBodySeparator := by decide
  obtain ⟨q, h⟩ := Reading.thrown_eq_some_iff.mp h
  obtain ⟨t, c, hrefused, hreason⟩ := refused_of_feed fits_fresh h
  -- the other pieces are rejected because of the same byte
  obtain ⟨e₂, q₂, h₂⟩ : ∃ e₂ q₂, feed (fromStream maxSize) fresh pieces₂ = .threw e₂ q₂ := by
    have hfeed₁ := (realizes maxSize).feed fits_fresh pieces₁
    have hfeed₂ := (realizes maxSize).feed fits_fresh pieces₂
    rw [← hstream] at hfeed₂
    cases hrun : run (NetstringEntity.byteStep maxSize) fresh pieces₁.flatten with
    | none =>
      rw [hrun] at hfeed₂
      exact hfeed₂
    | some result =>
      rw [hrun] at hfeed₁
      obtain hfeed₁ : feed (fromStream maxSize) fresh pieces₁ = .returned result.2 result.1 := hfeed₁
      rw [receive, hfeed₁] at h
      cases h
  obtain ⟨t₂, c₂, hrefused₂, hreason₂⟩ := refused_of_feed fits_fresh h₂
  rw [← hstream, hrefused] at hrefused₂
  obtain ⟨rfl, rfl⟩ : t = t₂ ∧ c = c₂ := by simpa using hrefused₂
  have hsame : (receive maxSize pieces₂).thrown = some e ↔ e₂ = e := by
    simp [receive, Reading.thrown, h₂]
  rw [hsame]
  obtain ⟨hs, hbody, rfl⟩ | ⟨hs, rfl⟩ := hreason
  · obtain ⟨hs₂, -, rfl⟩ | ⟨hs₂, rfl⟩ := hreason₂
    · simp [hs, hs₂]
    · rw [hbody]
      simp [hs, hs₂, hdifferent.symm]
  · obtain ⟨hs₂, hbody, rfl⟩ | ⟨hs₂, rfl⟩ := hreason₂
    · rw [hbody]
      simp [hs, hs₂, hdifferent]
    · simp [hs, hs₂]

end NetstringEntity

end PrimeServer
