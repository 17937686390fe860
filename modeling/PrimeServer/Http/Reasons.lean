import PrimeServer.Http.Cuts
import PrimeServer.Http.Passes
import PrimeServer.Netstring.Reasons

/-!
# Reasons for the rejection of a request

Without its early checks a request parser rejects a stream with the same answer however the stream is
cut. The early checks look at what there is of a method or a version when a message ends, and know one
answer only.

## Main results

* `Grammar.fromStream_eq_check`: an early check is a check of the state that a call leaves;
* `Grammar.hurries_or_threw_of_feed`: a stream is rejected by an early check, or as it is without them;
* `sameReason_iff`: two ways of cutting a stream lead to the same answer exactly if an early check fails
  for both of them or for none.
-/

namespace PrimeServer

open Chunking Delimiter

/-! ### Early checks -/

namespace Grammar

variable {φ μ ε : Type} {g : Grammar φ μ ε} {table : EntityState → Bytes} {p q : Parser φ}
  {pieces : List Bytes} {e : ε}

/-- The grammar without its early checks. -/
def patient (g : Grammar φ μ ε) : Grammar φ μ ε := { g with ranOut := fun _ => none }

/-- The loop is the patient one with a check behind it: a text that is already too long is noticed when the bytes run
out. -/
theorem loop_eq_check (fuel : ℕ) (p : Parser φ) (cursor : Bytes) :
    g.loop fuel p cursor = (g.patient.loop fuel p cursor).check g.ranOut := by
  induction fuel generalizing p cursor with
  | zero => rfl
  | succ fuel ih =>
    rw [loop, loop]
    cases ho : g.oversized p with
    | some e =>
      rw [turn_of_oversized ho, turn_of_oversized (g := g.patient) ho]
      rfl
    | none =>
      by_cases hc : p.Complete cursor
      · have hsame : g.patient.token (p.completed cursor) = g.token (p.completed cursor) := rfl
        rw [turn_of_complete ho hc, turn_of_complete (g := g.patient) ho hc, hsame]
        cases g.token (p.completed cursor) with
        | threw e q => rfl
        | next emitted q => simp only [ih, Reading.check_prepend]
      · rw [turn_of_not_complete ho hc, turn_of_not_complete (g := g.patient) ho hc]
        cases hran : g.ranOut (p.suspended cursor) with
        | some e => exact (Reading.check_returned_of_some hran []).symm
        | none => exact (Reading.check_returned_of_none hran []).symm

/-- An early check is a check of the state that a call leaves. -/
theorem fromStream_eq_check {start : Bytes} (hne : start ≠ []) (p : Parser φ) :
    g.fromStream p start = (g.patient.fromStream p start).check g.ranOut := by
  rw [fromStream, fromStream, if_neg hne, if_neg hne, loop_eq_check]

/-- A patient parser keeps to the rules of the grammar. -/
theorem Lawful.patient (hl : g.Lawful table) : g.patient.Lawful table where
  table_nil := hl.table_nil
  token_next := hl.token_next
  token_body := hl.token_body

/-- A patient parser ignores cuts if the other one does. -/
theorem IgnoresCuts.patient (hg : g.IgnoresCuts table) : g.patient.IgnoresCuts table where
  unlimited := hg.unlimited
  token_recount := hg.token_recount
  ranOut_recount _ _ := rfl
  anticipates_token _ h := nomatch h
  anticipates_ranOut _ h := nomatch h

/-- Without early checks a call on the whole throws what one of two calls throws. -/
theorem IgnoresCuts.patient_threw (hg : g.IgnoresCuts table) (hl : g.Lawful table)
    (hp : p.WellFormed table) {xs ys : Bytes} (hx : xs ≠ []) (hy : ys ≠ [])
    (h : g.patient.fromStream p (xs ++ ys) = .threw e q) :
    (∃ q', g.patient.fromStream p xs = .threw e q') ∨
      ∃ ms p₁ q', g.patient.fromStream p xs = .returned ms p₁ ∧
        g.patient.fromStream p₁ ys = .threw e q' := by
  have hxy : xs ++ ys ≠ [] := by simp [hx]
  rcases hg.patient.reads_cut hl.patient ((hl.patient.fromStream_eq_iff_reads hp hxy).mp h) hp rfl with
    ⟨ms, p₁, r₂, h₁, h₂, hmap⟩ | ⟨e', q', e'', q'', h₁, hr, hsame⟩
  · have hp₁ := hl.patient.wellFormed_of_reads h₁ hp rfl
    cases r₂ with
    | returned => simp at hmap
    | diverged => exact absurd rfl h₂.ne_diverged
    | threw e' q' =>
      obtain ⟨rfl, -⟩ : e' = e ∧ _ := by simpa using hmap
      exact Or.inr ⟨ms, p₁, q', (hl.patient.fromStream_eq_iff_reads hp hx).mpr h₁,
        (hl.patient.fromStream_eq_iff_reads hp₁ hy).mpr h₂⟩
  · -- without early checks there is no other reason to throw in the first call
    obtain rfl : e' = e'' := hsame.resolve_right fun ⟨_, hran⟩ => nomatch hran
    obtain ⟨rfl, -⟩ := Reading.threw.inj hr
    exact Or.inl ⟨q', (hl.patient.fromStream_eq_iff_reads hp hx).mpr h₁⟩

/-- Without early checks the pieces are rejected as the whole is. -/
theorem IgnoresCuts.patient_feed_threw_iff (hg : g.IgnoresCuts table) (hl : g.Lawful table)
    (hp : p.WellFormed table) (hpieces : ∀ piece ∈ pieces, piece ≠ []) :
    (∃ q, feed g.patient.fromStream p pieces = .threw e q) ↔
      ∃ q, g.patient.fromStream p pieces.flatten = .threw e q := by
  have hcuts := hg.patient.cutStable hl.patient
  by_cases hne : pieces = []
  · subst hne
    simp [feed, fromStream]
  have hforward : ∀ {e' q}, g.patient.fromStream p pieces.flatten = .threw e' q →
      ∃ q', feed g.patient.fromStream p pieces = .threw e' q' := by
    intro e' q hread
    obtain ⟨e'', q', rfl, hfeed⟩ := hcuts.feed_of_threw_of (Q := (· = e'))
      (fun {s xs ys e₁ t} hs hx hy hcall he => by
        rcases hg.patient_threw hl hs hx hy hcall with ⟨q', h₁⟩ | ⟨ms, p₁, q', h₁, h₂⟩
        · exact Or.inl ⟨e₁, q', he, h₁⟩
        · exact Or.inr ⟨ms, p₁, e₁, q', he, h₁, h₂⟩) hne hpieces hp hread rfl
    exact ⟨q', hfeed⟩
  constructor
  · rintro ⟨q, hfeed⟩
    -- the whole throws something, and so the pieces throw the same
    obtain ⟨e', t, hread⟩ := hcuts.threw_of_feed (fun _ => rfl) (fun _ _ _ => Eq.trans) hne hpieces hp
      (hl.patient.fromStream_ne_diverged hp _) hfeed
    obtain ⟨q', hthrew⟩ := hforward hread
    obtain ⟨rfl, -⟩ := Reading.threw.inj (hfeed.symm.trans hthrew)
    exact ⟨t, hread⟩
  · rintro ⟨q, hread⟩
    exact hforward hread

/-- A message ends where an early check fails. -/
def Hurries (g : Grammar φ μ ε) (p : Parser φ) (pieces : List Bytes) (e : ε) : Prop :=
  ∃ done later ms q, pieces = done ++ later ∧ done ≠ [] ∧
    feed g.patient.fromStream p done = .returned ms q ∧ g.ranOut q = some e

/-- If the first piece is read, the parser hurries there or later. -/
theorem hurries_cons_of_returned {piece : Bytes} {ms : List μ}
    (h : g.patient.fromStream p piece = .returned ms q) :
    g.Hurries p (piece :: pieces) e ↔ g.ranOut q = some e ∨ g.Hurries q pieces e := by
  constructor
  · rintro ⟨done, later, requests, u, hpieces, hne, hfeed, hran⟩
    obtain ⟨first, done, rfl⟩ := List.exists_cons_of_ne_nil hne
    obtain ⟨rfl, rfl⟩ := List.cons.inj hpieces
    obtain ⟨_, _, more, hread, hrest, -⟩ := feed_cons_eq_returned.mp hfeed
    obtain ⟨-, rfl⟩ := Reading.returned.inj (h.symm.trans hread)
    by_cases hdone : done = []
    · -- the check fails after this piece
      subst hdone
      obtain ⟨-, rfl⟩ := Reading.returned.inj hrest
      exact Or.inl hran
    · exact Or.inr ⟨done, later, more, u, rfl, hdone, hrest, hran⟩
  · rintro (hran | ⟨done, later, more, u, rfl, hne, hfeed, hran⟩)
    · exact ⟨[piece], pieces, ms, q, rfl, by simp, by rw [feed_singleton, h], hran⟩
    · refine ⟨piece :: done, later, ms ++ more, u, rfl, by simp, ?_, hran⟩
      rw [feed_cons_of_returned h, hfeed, Reading.prepend_returned]

/-- A parser does not hurry where it has stopped for another reason. -/
theorem not_hurries_cons_of_threw {piece : Bytes} {e' : ε}
    (h : g.patient.fromStream p piece = .threw e' q) : ¬ g.Hurries p (piece :: pieces) e := by
  rintro ⟨done, later, requests, u, hpieces, hne, hfeed, -⟩
  obtain ⟨first, done, rfl⟩ := List.exists_cons_of_ne_nil hne
  obtain ⟨rfl, rfl⟩ := List.cons.inj hpieces
  rw [feed_cons_of_threw h] at hfeed
  cases hfeed

/-- A stream is rejected by an early check, or as it is without them. -/
theorem hurries_or_threw_of_feed (hpieces : ∀ piece ∈ pieces, piece ≠ [])
    (h : feed g.fromStream p pieces = .threw e q) :
    g.Hurries p pieces e ∨
      feed g.patient.fromStream p pieces = .threw e q ∧ ∀ e', ¬ g.Hurries p pieces e' := by
  induction pieces generalizing p with
  | nil => cases h
  | cons piece pieces ih =>
    obtain ⟨hne, hrest⟩ := List.forall_mem_cons.mp hpieces
    rcases feed_cons_eq_threw.mp h with hthrew | ⟨ms, u, hreturned, hfeed⟩
    · rw [fromStream_eq_check hne, Reading.check_eq_threw_iff] at hthrew
      rcases hthrew with hread | ⟨ms, hread, hran⟩
      · exact Or.inr ⟨feed_cons_of_threw hread _, fun _ => not_hurries_cons_of_threw hread⟩
      · exact Or.inl ((hurries_cons_of_returned hread).mpr (Or.inl hran))
    · rw [fromStream_eq_check hne, Reading.check_eq_returned_iff] at hreturned
      obtain ⟨hread, hran⟩ := hreturned
      simp only [hurries_cons_of_returned hread]
      rcases ih hrest hfeed with hhurries | ⟨hthrew, hnever⟩
      · exact Or.inl (Or.inr hhurries)
      · refine Or.inr ⟨by rw [feed_cons_of_returned hread, hthrew, Reading.prepend_threw], ?_⟩
        simpa [hran] using hnever

/-! ### Limits -/

section Limits

variable {g' : Grammar φ μ ε} (htoken : g'.token = g.token) (hran : g'.ranOut = g.ranOut)
  (hunlimited : ∀ p, g'.oversized p = none)

include htoken hran hunlimited

/-- Where a loop does not bail out because of the size, it does what it would without a limit. -/
theorem loop_eq_of_within {fuel : ℕ} {cursor : Bytes}
    (h : ∀ e q, g.loop fuel p cursor = .threw e q → ∀ s, g.oversized s ≠ some e) :
    g'.loop fuel p cursor = g.loop fuel p cursor := by
  induction fuel generalizing p cursor with
  | zero => rfl
  | succ fuel ih =>
    cases ho : g.oversized p with
    | some e => exact absurd ho (h e p (by rw [loop, turn_of_oversized ho]) p)
    | none =>
      have hturn : g'.turn p cursor = g.turn p cursor := by
        simp only [turn, ho, hunlimited, htoken, hran]
      rw [loop] at h
      rw [loop, loop, hturn]
      cases hg : g.turn p cursor with
      | stop r => rfl
      | again emitted q rest =>
        simp only [hg] at h ⊢
        rw [ih fun e t hthrew => h e t (by rw [hthrew, Reading.prepend_threw])]

/-- Where no limit on the size is hit, a call reads what it would read without a limit. -/
theorem fromStream_eq_of_within {start : Bytes}
    (h : ∀ e q, g.fromStream p start = .threw e q → ∀ s, g.oversized s ≠ some e) :
    g'.fromStream p start = g.fromStream p start := by
  by_cases hne : start = []
  · rw [fromStream, fromStream, if_pos hne, if_pos hne]
  · rw [fromStream, if_neg hne] at h
    rw [fromStream, fromStream, if_neg hne, if_neg hne, loop_eq_of_within htoken hran hunlimited h]

/-- Where no limit on the size is hit, the pieces are read as they would be without a limit. -/
theorem feed_eq_of_within
    (h : ∀ e q, feed g.fromStream p pieces = .threw e q → ∀ s, g.oversized s ≠ some e) :
    feed g'.fromStream p pieces = feed g.fromStream p pieces := by
  induction pieces generalizing p with
  | nil => rfl
  | cons piece pieces ih =>
    have hfirst : g'.fromStream p piece = g.fromStream p piece :=
      fromStream_eq_of_within htoken hran hunlimited fun e q hthrew =>
        h e q (feed_cons_of_threw hthrew pieces)
    rw [feed, feed, hfirst]
    cases hread : g.fromStream p piece with
    | returned ms q =>
      simp only
      rw [ih fun e t hthrew => h e t ?_]
      rw [feed_cons_of_returned hread, hthrew, Reading.prepend_threw]
    | threw | diverged => rfl

end Limits

end Grammar

namespace RequestParser

open HttpRequest

variable {curl : Curl} {p q : RequestParser} {pieces : List Bytes} {e : RequestError}

/-- After a failed early check the parser that goes on rejects the stream for another reason. -/
theorem ne_response400_of_feed (hp : p.WellFormed delimiterOf) {early : RequestError}
    (hran : p.ranOut = some early)
    (h : feed (grammar curl sizeMax).patient.fromStream p pieces = .threw e q) :
    e ≠ .request response400 := by
  have hl := (grammar_lawful curl sizeMax).patient
  induction pieces generalizing p early with
  | nil => cases h
  | cons piece pieces ih =>
    by_cases hne : piece = []
    · subst hne
      have hread : (grammar curl sizeMax).patient.fromStream p [] = .returned [] p := rfl
      rw [feed_cons_of_returned hread, Reading.prepend_nil] at h
      exact ih hp hran h
    by_cases hc : p.Complete piece
    · -- the token is complete, and it will not do
      obtain ⟨e', t, htoken, he'⟩ := token_of_ranOut curl hp hran hc
      have hread : (grammar curl sizeMax).patient.fromStream p piece = .threw e' t :=
        (hl.fromStream_eq_iff_reads hp hne).mpr (.of_stops (.threw (oversized_sizeMax p) hc htoken))
      obtain ⟨rfl, -⟩ : e' = e ∧ t = q := by simpa [feed_cons_of_threw hread] using h
      exact he'
    · -- the token gets longer
      have hread : (grammar curl sizeMax).patient.fromStream p piece = .returned [] (p.suspended piece) :=
        (hl.fromStream_eq_iff_reads hp hne).mpr (.of_stops (.suspended (oversized_sizeMax p) hc rfl))
      obtain ⟨early', hran'⟩ := (grammar_ignoresCuts curl).anticipates_ranOut hp hran hc
      rw [feed_cons_of_returned hread, Reading.prepend_nil] at h
      exact ih (hp.suspended hc) hran' h

/-! ### Where an early check fails -/

/-- Between two tokens: nothing of the next one is there, and only data has a length. -/
structure Idle (p : RequestParser) : Prop where
  /-- The parser has the delimiter of its state. -/
  wellFormed : p.WellFormed delimiterOf
  /-- Nothing of the next token was read. -/
  atToken : p.AtToken
  /-- Only the two states that read data skip bytes. -/
  unmeasured : p.state ≠ .body → p.state ≠ .chunk → p.bodyLength = 0

/-- The parser that a connection begins with has no rejection waiting. -/
theorem idle_fresh : fresh.Idle :=
  ⟨wellFormed_fresh, ⟨rfl, rfl⟩, fun _ _ => rfl⟩

/-- After each token the parser has no rejection waiting. -/
theorem Idle.again (hp : p.Idle) {cursor : Bytes} {emitted : Option HttpRequest}
    (htoken : token curl (p.completed cursor) = .next emitted q) : Idle q.clearBuffer := by
  obtain ⟨hd, hk⟩ := (grammar_lawful curl sizeMax).token_next (p := p.completed cursor)
    hp.wellFormed.delimiter_eq rfl htoken
  refine ⟨⟨hd, by simp [Parser.clearBuffer, hk]⟩, ⟨rfl, hk⟩, ?_⟩
  cases token_eq_next_iff.mp htoken with
  | method | path | version | header | chunked | plain | trailed | body | chunk => exact fun _ _ => rfl
  | sized => exact fun hbody => absurd rfl hbody
  | @chunkLength n =>
    intro _ hchunk
    by_contra hn
    exact hchunk (if_pos hn)

/-- A parser that is between tokens when a stream ends waits for the bytes of the next one. -/
theorem Idle.not_complete_iff (hp : p.Idle) (hlength : p.bodyLength = 0) (w : Bytes) :
    ¬ p.Complete w ↔
      (scan (delimiterOf p.state) 0 w).progress < (delimiterOf p.state).length := by
  simp [Parser.Complete, SkipComplete, hlength, hp.atToken.progress, hp.wellFormed.delimiter_eq]

/-- The bytes bring a fresh parser to the start of a token in the given state. -/
def Starts (curl : Curl) (state : EntityState) (good : Bytes) : Prop :=
  ∃ requests p, fromStream curl .fresh sizeMax good = .returned requests p ∧ p.state = state ∧ p.AtToken

/-- The delimiter of the state has not been found. -/
def Unended (state : EntityState) (w : Bytes) : Prop :=
  (scan (delimiterOf state) 0 w).progress < (delimiterOf state).length

/-- A message ends inside a method or a version of which there is more than any known one has. -/
def Hurried (curl : Curl) (pieces : List Bytes) : Prop :=
  ∃ done later good w, pieces = done ++ later ∧ done.flatten = good ++ w ∧
    (Starts curl .method good ∧ Unended .method w ∧ methodMaxSize ≤ w.length ∨
      Starts curl .version good ∧ Unended .version w ∧ versionMaxSize ≤ w.length)

/-- Where the stream ends, the last token begins after the bytes of the others. -/
theorem exists_idle {xs : Bytes} {requests : List HttpRequest}
    (h : (grammar curl sizeMax).patient.Reads fresh xs (.returned requests q)) :
    ∃ t ys w, xs = ys ++ w ∧ Idle t ∧
      (∀ w', (grammar curl sizeMax).patient.Passes fresh (ys ++ w') requests t w') ∧
        ¬ t.Complete w ∧ q = t.suspended w := by
  obtain ⟨t, ys, w, hxs, ht, hpasses, -, hc, hq⟩ :=
    h.exists_tail (P := Idle) (fun hp _ htoken => hp.again htoken) idle_fresh rfl
  exact ⟨t, ys, w, hxs, ht, hpasses, hc, hq⟩

/-- Where a stream ends between two tokens of which the second is no data, no length is left. -/
theorem idle_of_returned {good : Bytes} {requests : List HttpRequest}
    (h : (grammar curl sizeMax).patient.fromStream fresh good = .returned requests p)
    (hp : p.AtToken) : p.Idle := by
  have hl := (grammar_lawful curl sizeMax).patient
  by_cases hne : good = []
  · subst hne
    obtain ⟨-, rfl⟩ : [] = requests ∧ fresh = p := by simpa [Grammar.fromStream] using h
    exact idle_fresh
  · have hreads := (hl.fromStream_eq_iff_reads wellFormed_fresh hne).mp h
    obtain ⟨t, ys, w, rfl, ht, -, hc, rfl⟩ := exists_idle hreads
    refine ⟨ht.wellFormed.suspended hc, hp, fun hbody hchunk => ?_⟩
    have hzero := ht.unmeasured hbody hchunk
    simp [Parser.suspended, hzero]

/-- At the beginning of a token nothing can be too long already. -/
theorem ranOut_eq_none_of_atToken (hp : p.AtToken) : p.ranOut = none := by
  cases hran : p.ranOut with
  | none => rfl
  | some e =>
    obtain ⟨-, ⟨-, hlong⟩ | ⟨-, hlong⟩⟩ := ranOut_eq_some_iff.mp hran
    · rw [hp.buffer] at hlong
      exact absurd hlong (by decide)
    · rw [hp.buffer] at hlong
      exact absurd hlong (by decide)

/-- With and without early checks, a stream is read alike up to the start of a token. -/
theorem fromStream_patient_iff {good : Bytes} {requests : List HttpRequest} (hp : p.AtToken) :
    fromStream curl .fresh sizeMax good = .returned requests p ↔
      (grammar curl sizeMax).patient.fromStream fresh good = .returned requests p := by
  by_cases hne : good = []
  · subst hne
    rfl
  · rw [fromStream, Grammar.fromStream_eq_check hne, Reading.check_eq_returned_iff]
    exact and_iff_left (ranOut_eq_none_of_atToken hp)

/-- What the early checks look at. -/
theorem ranOut_congr (h : p.uncounted = q.uncounted) : p.ranOut = q.ranOut := by
  have hp : p = q.recount p.consumed := Parser.eq_recount_of_uncounted h
  rw [hp]
  rfl

/-- A token of which this much is there fails its early check. -/
theorem ranOut_suspended_iff (hp : p.Idle) (w : Bytes) :
    (∃ e, ranOut (p.suspended w) = some e) ∧ ¬ p.Complete w ↔
      p.state = .method ∧ Unended .method w ∧ methodMaxSize ≤ w.length ∨
        p.state = .version ∧ Unended .version w ∧ versionMaxSize ≤ w.length := by
  have hbuffer : (p.suspended w).partialBuffer = w := by simp [Parser.suspended, hp.atToken.buffer]
  have hstate : (p.suspended w).state = p.state := rfl
  have hmethod : p.state = .method → (¬ p.Complete w ↔ Unended .method w) := by
    intro hs
    rw [hp.not_complete_iff (hp.unmeasured (by simp [hs]) (by simp [hs])), hs]
    rfl
  have hversion : p.state = .version → (¬ p.Complete w ↔ Unended .version w) := by
    intro hs
    rw [hp.not_complete_iff (hp.unmeasured (by simp [hs]) (by simp [hs])), hs]
    rfl
  -- what a suspended parser has gathered of the token is all of `w`
  simp only [ranOut_eq_some_iff, hbuffer, hstate]
  constructor
  · rintro ⟨⟨e, -, ⟨hs, hlong⟩ | ⟨hs, hlong⟩⟩, hc⟩
    · exact Or.inl ⟨hs, (hmethod hs).mp hc, hlong⟩
    · exact Or.inr ⟨hs, (hversion hs).mp hc, hlong⟩
  · rintro (⟨hs, hw, hlong⟩ | ⟨hs, hw, hlong⟩)
    · exact ⟨⟨_, rfl, Or.inl ⟨hs, hlong⟩⟩, (hmethod hs).mpr hw⟩
    · exact ⟨⟨_, rfl, Or.inr ⟨hs, hlong⟩⟩, (hversion hs).mpr hw⟩

/-- Without bytes, a patient parser that waits goes on waiting. -/
theorem reads_nil (hc : ¬ p.Complete []) :
    (grammar curl sizeMax).patient.Reads p [] (.returned [] p) := by
  have hnothing : p.suspended [] = p := by simp [Parser.suspended, Parser.search, skipScan]
  have hstops : (grammar curl sizeMax).patient.Stops p [] (.returned [] (p.suspended [])) :=
    .suspended (oversized_sizeMax p) hc rfl
  rw [hnothing] at hstops
  exact .of_stops hstops

/-- The bytes that lead to a token are read up to its start. -/
theorem fromStream_of_passes {good : Bytes} {requests : List HttpRequest} (hp : p.Idle)
    (hs : p.state = .method ∨ p.state = .version)
    (h : (grammar curl sizeMax).patient.Passes fresh good requests p []) :
    fromStream curl fresh sizeMax good = .returned requests p := by
  have hend : ¬ p.Complete [] := by
    have hlength : p.bodyLength = 0 := by
      rcases hs with hs | hs <;> exact hp.unmeasured (by simp [hs]) (by simp [hs])
    rw [hp.not_complete_iff hlength]
    rcases hs with hs | hs <;> rw [hs] <;> decide
  have hreads := h _ (reads_nil hend)
  rw [Reading.prepend_returned, List.append_nil] at hreads
  rw [fromStream_patient_iff hp.atToken]
  by_cases hgood : good = []
  · subst hgood
    have hfresh : ¬ fresh.Complete [] := by
      rw [idle_fresh.not_complete_iff rfl]
      decide
    obtain ⟨rfl, rfl⟩ : requests = [] ∧ p = fresh := by simpa using hreads.unique (reads_nil hfresh)
    rfl
  · exact ((grammar_lawful curl sizeMax).patient.fromStream_eq_iff_reads wellFormed_fresh hgood).mpr hreads

/-- The bytes in front of a token and a part of it are read as one stream. -/
theorem exists_fromStream_append {good w : Bytes} {requests : List HttpRequest}
    (hgood : (grammar curl sizeMax).patient.fromStream fresh good = .returned requests p) (hp : p.Idle)
    (hw : w ≠ []) (hc : ¬ p.Complete w) :
    ∃ t, (grammar curl sizeMax).patient.fromStream fresh (good ++ w) = .returned requests t ∧
      t.uncounted = (p.suspended w).uncounted := by
  have hl := (grammar_lawful curl sizeMax).patient
  have hread : (grammar curl sizeMax).patient.fromStream p w = .returned [] (p.suspended w) :=
    (hl.fromStream_eq_iff_reads hp.wellFormed hw).mpr
      (.of_stops (.suspended (oversized_sizeMax p) hc rfl))
  by_cases hne : good = []
  · subst hne
    obtain ⟨rfl, rfl⟩ := Reading.returned.inj hgood
    exact ⟨_, hread, rfl⟩
  · obtain ⟨t, hwhole, hsame⟩ := ((grammar_ignoresCuts curl).patient.cutStable hl).append_of_returned
      wellFormed_fresh (hl.fromStream_ne_diverged wellFormed_fresh _) hne hw hgood hread
    rw [List.append_nil] at hwhole
    exact ⟨t, hwhole, hsame⟩

/-- What `Hurried` says of the first line is what the loop finds. -/
theorem hurries_of_hurried (hpieces : ∀ piece ∈ pieces, piece ≠ []) (h : Hurried curl pieces) :
    ∃ e, (grammar curl sizeMax).Hurries fresh pieces e := by
  obtain ⟨done, later, good, w, rfl, hdone, hlong⟩ := h
  obtain ⟨requests, p, hgood, hat, hstate⟩ : ∃ requests p,
      fromStream curl fresh sizeMax good = .returned requests p ∧ p.AtToken ∧
        (p.state = .method ∧ Unended .method w ∧ methodMaxSize ≤ w.length ∨
          p.state = .version ∧ Unended .version w ∧ versionMaxSize ≤ w.length) := by
    rcases hlong with ⟨⟨requests, p, hgood, hs, hat⟩, hw⟩ | ⟨⟨requests, p, hgood, hs, hat⟩, hw⟩
    · exact ⟨requests, p, hgood, hat, Or.inl ⟨hs, hw⟩⟩
    · exact ⟨requests, p, hgood, hat, Or.inr ⟨hs, hw⟩⟩
  rw [fromStream_patient_iff hat] at hgood
  have hidle := idle_of_returned hgood hat
  obtain ⟨⟨e, hran⟩, hc⟩ := (ranOut_suspended_iff hidle w).mpr hstate
  have hw : w ≠ [] := by
    rintro rfl
    rcases hstate with ⟨-, -, hlong⟩ | ⟨-, -, hlong⟩ <;> exact absurd hlong (by decide)
  obtain ⟨t, hwhole, hsame⟩ := exists_fromStream_append hgood hidle hw hc
  rw [← hdone] at hwhole
  -- the calls so far leave the parser as one call would, up to its byte count
  obtain ⟨u, hfeed, hsame'⟩ := (grammar_ignoresCuts curl).patient.feed_of_returned
    (grammar_lawful curl sizeMax).patient wellFormed_fresh hwhole
  have hne : done ≠ [] := by
    rintro rfl
    simp [hw] at hdone
  refine ⟨e, done, later, requests, u, rfl, hne, hfeed, ?_⟩
  change ranOut u = some e
  rw [ranOut_congr hsame', ranOut_congr hsame, hran]

/-- What the loop finds in its hurry is in the first line. -/
theorem hurried_of_hurries (hpieces : ∀ piece ∈ pieces, piece ≠ [])
    (h : (grammar curl sizeMax).Hurries fresh pieces e) : Hurried curl pieces := by
  have hl := (grammar_lawful curl sizeMax).patient
  obtain ⟨done, later, requests, q, rfl, hne, hfeed, hran⟩ := h
  have hdone : ∀ piece ∈ done, piece ≠ [] := fun piece hp => hpieces piece (List.mem_append_left _ hp)
  have hflatten : done.flatten ≠ [] := by
    obtain ⟨piece, rest, rfl⟩ := List.exists_cons_of_ne_nil hne
    simp [hdone piece List.mem_cons_self]
  obtain ⟨u, hwhole, hsame⟩ :=
    (grammar_ignoresCuts curl).patient.returned_of_feed hl wellFormed_fresh hne hdone hfeed
  -- the check fails in the token that begins after the bytes of the others
  obtain ⟨t, good, w, hsplit, hidle, hpasses, hc, rfl⟩ :=
    exists_idle ((hl.fromStream_eq_iff_reads wellFormed_fresh hflatten).mp hwhole)
  have hlong := (ranOut_suspended_iff hidle w).mp ⟨⟨e, by rw [ranOut_congr hsame]; exact hran⟩, hc⟩
  have hgood := hpasses []
  rw [List.append_nil] at hgood
  have hstarts : fromStream curl fresh sizeMax good = .returned requests t :=
    fromStream_of_passes hidle (hlong.imp And.left And.left) hgood
  refine ⟨done, later, good, w, rfl, hsplit, ?_⟩
  rcases hlong with ⟨hs, hw⟩ | ⟨hs, hw⟩
  · exact Or.inl ⟨⟨requests, t, hstarts, hs, hidle.atToken⟩, hw⟩
  · exact Or.inr ⟨⟨requests, t, hstarts, hs, hidle.atToken⟩, hw⟩

/-- The messages that end where an early check fails, in terms of their bytes. -/
theorem hurried_iff (hpieces : ∀ piece ∈ pieces, piece ≠ []) :
    Hurried curl pieces ↔ ∃ e, (grammar curl sizeMax).Hurries fresh pieces e :=
  ⟨hurries_of_hurried hpieces, fun ⟨_, h⟩ => hurried_of_hurries hpieces h⟩

/-- An early check has one answer. -/
theorem eq_response400_of_hurries (h : (grammar curl sizeMax).Hurries p pieces e) :
    e = .request response400 := by
  obtain ⟨-, -, -, u, -, -, -, hran⟩ := h
  exact (ranOut_eq_some_iff.mp hran).1

/-- Where an early check fails in some pieces, others are not rejected with its answer for another
reason. -/
theorem ne_response400_of_hurries {pieces' : List Bytes} {e' : RequestError}
    (hpieces : ∀ piece ∈ pieces, piece ≠ []) (hpieces' : ∀ piece ∈ pieces', piece ≠ [])
    (hstream : pieces.flatten = pieces'.flatten) (h : (grammar curl sizeMax).Hurries fresh pieces e)
    (hthrew : feed (grammar curl sizeMax).patient.fromStream fresh pieces' = .threw e' q) :
    e' ≠ .request response400 := by
  have hl := grammar_lawful curl sizeMax
  have hg := grammar_ignoresCuts curl
  obtain ⟨done, later, requests, u, rfl, -, hfeed, hran⟩ := h
  -- without early checks the pieces are rejected with the same answer
  have hwhole := (hg.patient_feed_threw_iff hl wellFormed_fresh hpieces').mp ⟨q, hthrew⟩
  rw [← hstream] at hwhole
  obtain ⟨t, hthrew'⟩ := (hg.patient_feed_threw_iff hl wellFormed_fresh hpieces).mpr hwhole
  rw [feed_append_of_returned hfeed] at hthrew'
  have hu := (hg.patient.cutStable hl.patient).inv_of_feed wellFormed_fresh hfeed
  exact ne_response400_of_feed hu hran (Reading.prepend_eq_threw.mp hthrew')

/-- What a fresh parser does with the messages of a stream. -/
def receive (curl : Curl) (maxSize : ℕ) (pieces : List Bytes) :
    Reading RequestParser HttpRequest RequestError :=
  feed (fun p piece => fromStream curl p maxSize piece) fresh pieces

/-- A request stream that is rejected in some pieces is rejected with the same answer in others exactly if
both ways of cutting it, or none, make an early check fail. -/
theorem sameReason_iff {pieces₁ pieces₂ : List Bytes} (hpieces₁ : ∀ piece ∈ pieces₁, piece ≠ [])
    (hpieces₂ : ∀ piece ∈ pieces₂, piece ≠ []) (hstream : pieces₁.flatten = pieces₂.flatten)
    (h : (receive curl sizeMax pieces₁).thrown = some e) :
    (receive curl sizeMax pieces₂).thrown = some e ↔ (Hurried curl pieces₁ ↔ Hurried curl pieces₂) := by
  obtain ⟨q, h⟩ := Reading.thrown_eq_some_iff.mp h
  change feed (grammar curl sizeMax).fromStream fresh pieces₁ = .threw e q at h
  have hl := grammar_lawful curl sizeMax
  have hg := grammar_ignoresCuts curl
  -- the other pieces are rejected too
  obtain ⟨e₂, q₂, h₂⟩ :=
    hg.exists_threw_of_flatten_eq hl wellFormed_fresh hpieces₁ hpieces₂ hstream h
  have hsame : (receive curl sizeMax pieces₂).thrown = some e ↔ e₂ = e := by
    change (feed (grammar curl sizeMax).fromStream fresh pieces₂).thrown = some e ↔ e₂ = e
    simp [Reading.thrown, h₂]
  rw [hsame, hurried_iff hpieces₁, hurried_iff hpieces₂]
  rcases Grammar.hurries_or_threw_of_feed hpieces₁ h with hhurries | ⟨hthrew, hnever⟩
  · obtain rfl := eq_response400_of_hurries hhurries
    rcases Grammar.hurries_or_threw_of_feed hpieces₂ h₂ with hhurries₂ | ⟨hthrew₂, hnever₂⟩
    · obtain rfl := eq_response400_of_hurries hhurries₂
      exact iff_of_true rfl (iff_of_true ⟨_, hhurries⟩ ⟨_, hhurries₂⟩)
    · have hlate := ne_response400_of_hurries hpieces₁ hpieces₂ hstream hhurries hthrew₂
      refine iff_of_false hlate fun hiff => ?_
      obtain ⟨e', he'⟩ := hiff.mp ⟨_, hhurries⟩
      exact hnever₂ e' he'
  · rcases Grammar.hurries_or_threw_of_feed hpieces₂ h₂ with hhurries₂ | ⟨hthrew₂, hnever₂⟩
    · obtain rfl := eq_response400_of_hurries hhurries₂
      refine iff_of_false (fun heq => ?_) fun hiff => ?_
      · exact ne_response400_of_hurries hpieces₂ hpieces₁ hstream.symm hhurries₂ hthrew heq.symm
      · obtain ⟨e', he'⟩ := hiff.mpr ⟨_, hhurries₂⟩
        exact hnever e' he'
    · -- without early checks both are rejected as the whole is
      obtain ⟨t, hwhole⟩ := (hg.patient_feed_threw_iff hl wellFormed_fresh hpieces₁).mp ⟨_, hthrew⟩
      obtain ⟨t₂, hwhole₂⟩ := (hg.patient_feed_threw_iff hl wellFormed_fresh hpieces₂).mp ⟨_, hthrew₂⟩
      rw [hstream, hwhole₂] at hwhole
      refine iff_of_true (Reading.threw.inj hwhole).1 (iff_of_false ?_ ?_)
      · rintro ⟨e', he'⟩
        exact hnever e' he'
      · rintro ⟨e', he'⟩
        exact hnever₂ e' he'

end RequestParser

/-! ### Both protocols -/

/-- A stream that is rejected for its form in some pieces, and not rejected for its size in others, is
rejected with the same answer in these exactly if both ways of cutting it, or none, make an early check of
a request fail, and part the digits of the length of a netstring from a byte that is out of place. -/
theorem sameRejection_iff (curl : Curl) (maxSize : ℕ) {pieces₁ pieces₂ : List Bytes}
    (hpieces₁ : ∀ piece ∈ pieces₁, piece ≠ []) (hpieces₂ : ∀ piece ∈ pieces₂, piece ≠ [])
    (hstream : pieces₁.flatten = pieces₂.flatten) :
    (∀ e, (RequestParser.receive curl maxSize pieces₁).thrown = some e →
      e ≠ .request HttpRequest.response413 →
      (RequestParser.receive curl maxSize pieces₂).thrown ≠ some (.request HttpRequest.response413) →
      ((RequestParser.receive curl maxSize pieces₂).thrown = some e ↔
        (RequestParser.Hurried curl pieces₁ ↔ RequestParser.Hurried curl pieces₂))) ∧
    ∀ e, (NetstringEntity.receive maxSize pieces₁).thrown = some e →
      ((NetstringEntity.receive maxSize pieces₂).thrown = some e ↔
        (NetstringEntity.SomeSevered maxSize .fresh pieces₁ ↔
          NetstringEntity.SomeSevered maxSize .fresh pieces₂)) := by
  refine ⟨fun e h hform hsize => ?_, fun e h => NetstringEntity.sameReason_iff hstream h⟩
  -- where the limit is not met, it makes no difference
  have hlimit : ∀ s e', (RequestParser.grammar curl maxSize).oversized s = some e' →
      e' = .request HttpRequest.response413 := by
    intro s e' hs
    simp only [RequestParser.grammar, RequestParser.oversized] at hs
    split_ifs at hs
    exact (Option.some.inj hs).symm
  have hwithin : ∀ {pieces}, (RequestParser.receive curl maxSize pieces).thrown ≠
      some (.request HttpRequest.response413) →
      RequestParser.receive curl sizeMax pieces = RequestParser.receive curl maxSize pieces := by
    intro pieces hnot
    refine Grammar.feed_eq_of_within (g := RequestParser.grammar curl maxSize) rfl rfl
      RequestParser.oversized_sizeMax fun e' q' hthrew s hs => ?_
    obtain rfl := hlimit s e' hs
    exact hnot (Reading.thrown_eq_some_iff.mpr ⟨q', hthrew⟩)
  have hsize₁ : (RequestParser.receive curl maxSize pieces₁).thrown ≠
      some (.request HttpRequest.response413) := by
    rw [h]
    simpa using hform
  rw [← hwithin hsize₁] at h
  rw [← hwithin hsize]
  exact RequestParser.sameReason_iff hpieces₁ hpieces₂ hstream h

/-- A method that no server knows, in one message. -/
def longMethod : List Bytes := [ascii "AAAAAAAAA "]

/-- The same stream cut between the method and the blank. -/
def longMethodCut : List Bytes := [ascii "AAAAAAAAA", ascii " "]

/-- `sameRejection_iff` for a method that is too long, in one message and cut behind the last character that is
allowed. -/
theorem sameRejection_iff_longMethod :
    ((RequestParser.receive .percent sizeMax longMethodCut).thrown =
        some (.request HttpRequest.response501) ↔
      (RequestParser.Hurried .percent longMethod ↔ RequestParser.Hurried .percent longMethodCut)) ∧
    ((NetstringEntity.receive sizeMax longMethodCut).thrown = some NetstringEntity.badLength ↔
      (NetstringEntity.SomeSevered sizeMax .fresh longMethod ↔
        NetstringEntity.SomeSevered sizeMax .fresh longMethodCut)) := by
  obtain ⟨hhttp, hnetstring⟩ := sameRejection_iff .percent sizeMax (by decide) (by decide)
    (show longMethod.flatten = longMethodCut.flatten by decide)
  exact ⟨hhttp _ (by decide) (by decide) (by decide), hnetstring _ (by decide)⟩

/-- A cut in front of a byte that is out of place changes the answer: a method that is not known is
malformed when the blank after it comes later, and a length that came earlier is not numeric. -/
theorem not_sameRejection :
    (¬∀ (pieces₁ pieces₂ : List Bytes) (e : RequestError), (∀ piece ∈ pieces₁, piece ≠ []) →
      (∀ piece ∈ pieces₂, piece ≠ []) → pieces₁.flatten = pieces₂.flatten →
      (RequestParser.receive .percent sizeMax pieces₁).thrown = some e →
      (RequestParser.receive .percent sizeMax pieces₂).thrown = some e) ∧
    ¬∀ (pieces₁ pieces₂ : List Bytes) (e : NetstringEntity.RequestException),
      (∀ piece ∈ pieces₁, piece ≠ []) → (∀ piece ∈ pieces₂, piece ≠ []) →
      pieces₁.flatten = pieces₂.flatten → (NetstringEntity.receive sizeMax pieces₁).thrown = some e →
      (NetstringEntity.receive sizeMax pieces₂).thrown = some e := by
  constructor
  · intro h
    exact absurd (h longMethod longMethodCut (.request HttpRequest.response501) (by decide) (by decide)
      (by decide) (by decide)) (by decide)
  · intro h
    exact absurd (h [ascii "12x"] [ascii "12", ascii "x"] NetstringEntity.badBodySeparator (by decide)
      (by decide) (by decide) (by decide)) (by decide)

end PrimeServer
