import Mathlib.Data.List.Basic
import Mathlib.Tactic.Common

/-!
# Streaming readers and the cutting of their input

A streaming reader turns pieces of input into messages and keeps a state between pieces. `feed`
gives a reader a list of pieces one after another. `CutStable` is the law for a single cut;
`CutStable.feed_of_returned` and `CutStable.feed_of_threw` lift it to every way of cutting an input
into pieces.
-/

namespace Chunking

variable {σ α β ε : Type*}

/-- What one call of a streaming reader does. -/
inductive Reading (σ β ε : Type*) where
  /-- The call returned some messages. -/
  | returned (messages : List β) (s : σ)
  /-- The call threw. The messages it had completed are lost, its state is not. -/
  | threw (error : ε) (s : σ)
  /-- The call was cut off before its loop came to an end. -/
  | diverged
  deriving DecidableEq

namespace Reading

/-- Put messages in front of those returned. -/
def prepend (messages : List β) : Reading σ β ε → Reading σ β ε
  | returned later s => returned (messages ++ later) s
  | threw error s => threw error s
  | diverged => diverged

/-- No message in front changes nothing. -/
@[simp]
theorem prepend_nil (r : Reading σ β ε) : r.prepend [] = r := by
  cases r <;> rfl

/-- Messages can be put in front in two goes. -/
@[simp]
theorem prepend_prepend (ms ns : List β) (r : Reading σ β ε) :
    (r.prepend ns).prepend ms = r.prepend (ms ++ ns) := by
  cases r <;> simp [prepend]

@[simp]
theorem prepend_returned (ms ns : List β) (s : σ) :
    (returned ns s : Reading σ β ε).prepend ms = returned (ms ++ ns) s := rfl

@[simp]
theorem prepend_threw (ms : List β) (e : ε) (s : σ) :
    (threw e s : Reading σ β ε).prepend ms = threw e s := rfl

/-- Where a result with messages in front comes from. -/
theorem prepend_eq_returned {ms ns : List β} {r : Reading σ β ε} {s : σ} :
    r.prepend ms = returned ns s ↔ ∃ os, r = returned os s ∧ ms ++ os = ns := by
  cases r with
  | returned os t =>
    simp only [prepend_returned, returned.injEq]
    constructor
    · rintro ⟨rfl, rfl⟩
      exact ⟨os, ⟨rfl, rfl⟩, rfl⟩
    · rintro ⟨_, ⟨rfl, rfl⟩, rfl⟩
      exact ⟨rfl, rfl⟩
  | threw | diverged => simp [prepend]

/-- An exception does not care about messages in front: they are lost with it. -/
theorem prepend_eq_threw {ms : List β} {r : Reading σ β ε} {e : ε} {s : σ} :
    r.prepend ms = threw e s ↔ r = threw e s := by
  cases r <;> simp [prepend]

/-- Neither does a reader that does not end. -/
theorem prepend_eq_diverged {ms : List β} {r : Reading σ β ε} :
    r.prepend ms = diverged ↔ r = diverged := by
  cases r <;> simp [prepend]

/-- Throw where the state that is left does not pass a check. -/
def check (f : σ → Option ε) : Reading σ β ε → Reading σ β ε
  | returned messages s =>
    match f s with
    | some error => threw error s
    | none => returned messages s
  | threw error s => threw error s
  | diverged => diverged

/-- A check that finds nothing leaves the result alone. -/
theorem check_returned_of_none {f : σ → Option ε} {s : σ} (h : f s = none) (ms : List β) :
    (returned ms s : Reading σ β ε).check f = returned ms s := by
  simp only [check, h]

/-- A check that finds something turns a result into an exception, and its messages are lost. -/
theorem check_returned_of_some {f : σ → Option ε} {s : σ} {e : ε} (h : f s = some e) (ms : List β) :
    (returned ms s : Reading σ β ε).check f = threw e s := by
  simp only [check, h]

/-- A check looks at the state only, so that messages may be put in front before or after it. -/
theorem check_prepend (f : σ → Option ε) (ms : List β) (r : Reading σ β ε) :
    (r.prepend ms).check f = (r.check f).prepend ms := by
  cases r with
  | returned ns s => cases h : f s <;> simp [check, h]
  | threw | diverged => rfl

/-- What passes a check has returned, and the check has found nothing. -/
theorem check_eq_returned_iff {f : σ → Option ε} {r : Reading σ β ε} {ms : List β} {s : σ} :
    r.check f = returned ms s ↔ r = returned ms s ∧ f s = none := by
  cases r with
  | returned ns t =>
    cases h : f t with
    | none =>
      rw [check_returned_of_none h]
      constructor
      · intro heq
        obtain ⟨rfl, rfl⟩ : ns = ms ∧ t = s := by simpa using heq
        exact ⟨rfl, h⟩
      · exact And.left
    | some e =>
      rw [check_returned_of_some h]
      simp only [reduceCtorEq, returned.injEq, false_iff, not_and]
      rintro ⟨rfl, rfl⟩ hnone
      rw [h] at hnone
      cases hnone
  | threw e t => simp [check]
  | diverged => simp [check]

/-- What throws behind a check has thrown itself, or the check has found something. -/
theorem check_eq_threw_iff {f : σ → Option ε} {r : Reading σ β ε} {e : ε} {s : σ} :
    r.check f = threw e s ↔ r = threw e s ∨ ∃ ms, r = returned ms s ∧ f s = some e := by
  cases r with
  | returned ms t =>
    cases h : f t with
    | none =>
      rw [check_returned_of_none h]
      simp only [reduceCtorEq, returned.injEq, false_or, false_iff, not_exists, not_and]
      rintro ms ⟨rfl, rfl⟩ hsome
      rw [h] at hsome
      cases hsome
    | some e' =>
      rw [check_returned_of_some h]
      simp only [threw.injEq, reduceCtorEq, returned.injEq, false_or]
      constructor
      · rintro ⟨rfl, rfl⟩
        exact ⟨ms, ⟨rfl, rfl⟩, h⟩
      · rintro ⟨ms, ⟨rfl, rfl⟩, hsome⟩
        exact ⟨Option.some.inj (h.symm.trans hsome), rfl⟩
  | threw | diverged => simp [check]

/-- Forget what was thrown. -/
def forget : Reading σ β ε → Reading σ β Unit
  | returned messages s => returned messages s
  | threw _ s => threw () s
  | diverged => diverged

/-- Forgetting which exception was thrown does not touch results. -/
theorem forget_eq_returned {r : Reading σ β ε} {ms : List β} {s : σ} :
    r.forget = returned ms s ↔ r = returned ms s := by
  cases r <;> simp [forget]

/-- An exception without its name is one with some name. -/
theorem forget_eq_threw {r : Reading σ β ε} {u : Unit} {s : σ} :
    r.forget = threw u s ↔ ∃ e, r = threw e s := by
  cases r <;> simp [forget]

/-- Forgetting which exception was thrown does not touch readers that do not end. -/
theorem forget_eq_diverged {r : Reading σ β ε} : r.forget = diverged ↔ r = diverged := by
  cases r <;> simp [forget]

/-- The messages returned. -/
def messages : Reading σ β ε → List β
  | returned messages _ => messages
  | threw _ _ | diverged => []

@[simp]
theorem messages_returned (ms : List β) (s : σ) :
    (returned ms s : Reading σ β ε).messages = ms := rfl

/-- What was thrown, if anything was. -/
def thrown : Reading σ β ε → Option ε
  | threw error _ => some error
  | returned _ _ | diverged => none

/-- The exception that is thrown is that of the result. -/
theorem thrown_eq_some_iff {r : Reading σ β ε} {e : ε} : r.thrown = some e ↔ ∃ s, r = threw e s := by
  cases r <;> simp [thrown]

/-- Change the state of a reading. -/
def map {τ : Type*} (f : σ → τ) : Reading σ β ε → Reading τ β ε
  | returned messages s => returned messages (f s)
  | threw error s => threw error (f s)
  | diverged => diverged

@[simp]
theorem map_returned {τ : Type*} (f : σ → τ) (ms : List β) (s : σ) :
    (returned ms s : Reading σ β ε).map f = returned ms (f s) := rfl

@[simp]
theorem map_threw {τ : Type*} (f : σ → τ) (e : ε) (s : σ) :
    (threw e s : Reading σ β ε).map f = threw e (f s) := rfl

/-- Where a result with another state comes from. -/
theorem map_eq_returned {τ : Type*} {f : σ → τ} {r : Reading σ β ε} {ms : List β} {t : τ} :
    r.map f = returned ms t ↔ ∃ s, r = returned ms s ∧ f s = t := by
  cases r with
  | returned ns s =>
    simp only [map_returned, returned.injEq]
    constructor
    · rintro ⟨rfl, rfl⟩
      exact ⟨s, ⟨rfl, rfl⟩, rfl⟩
    · rintro ⟨_, ⟨rfl, rfl⟩, rfl⟩
      exact ⟨rfl, rfl⟩
  | threw | diverged => simp [map]

/-- Change the messages of a reading. -/
def mapMessages {γ : Type*} (f : β → γ) : Reading σ β ε → Reading σ γ ε
  | returned messages s => returned (messages.map f) s
  | threw error s => threw error s
  | diverged => diverged

/-- A function on messages can be applied before or after messages are put in front. -/
theorem mapMessages_prepend {γ : Type*} (f : β → γ) (ms : List β) (r : Reading σ β ε) :
    (r.prepend ms).mapMessages f = (r.mapMessages f).prepend (ms.map f) := by
  cases r with
  | returned ns s => simp [mapMessages]
  | threw | diverged => rfl

/-- Where a result with other messages comes from. -/
theorem mapMessages_eq_returned {γ : Type*} {f : β → γ} {r : Reading σ β ε} {ms : List γ} {s : σ} :
    r.mapMessages f = returned ms s ↔ ∃ ns, r = returned ns s ∧ ns.map f = ms := by
  cases r with
  | returned ns t =>
    simp only [mapMessages, returned.injEq]
    constructor
    · rintro ⟨rfl, rfl⟩
      exact ⟨ns, ⟨rfl, rfl⟩, rfl⟩
    · rintro ⟨_, ⟨rfl, rfl⟩, rfl⟩
      exact ⟨rfl, rfl⟩
  | threw | diverged => simp [mapMessages]

/-- A function on states does not see the messages in front. -/
theorem map_prepend {τ : Type*} (f : σ → τ) (ms : List β) (r : Reading σ β ε) :
    (r.prepend ms).map f = (r.map f).prepend ms := by
  cases r <;> rfl

end Reading

/-- Give a reader the pieces in order, up to the first that makes it throw. -/
def feed (read : σ → List α → Reading σ β ε) : σ → List (List α) → Reading σ β ε
  | s, [] => .returned [] s
  | s, piece :: pieces =>
    match read s piece with
    | .returned messages s => (feed read s pieces).prepend messages
    | .threw error s => .threw error s
    | .diverged => .diverged

/-- Feeding a piece that is read, and then the others. -/
theorem feed_cons_of_returned {read : σ → List α → Reading σ β ε} {s t : σ} {piece : List α}
    {ms : List β} (h : read s piece = .returned ms t) (pieces : List (List α)) :
    feed read s (piece :: pieces) = (feed read t pieces).prepend ms := by
  simp only [feed, h]

/-- After a piece at which the reader throws no further one is read. -/
theorem feed_cons_of_threw {read : σ → List α → Reading σ β ε} {s t : σ} {piece : List α}
    {e : ε} (h : read s piece = .threw e t) (pieces : List (List α)) :
    feed read s (piece :: pieces) = .threw e t := by
  simp only [feed, h]

/-- All that can be behind pieces that are read. -/
theorem feed_cons_eq_returned {read : σ → List α → Reading σ β ε} {s t : σ} {piece : List α}
    {pieces : List (List α)} {ms : List β} :
    feed read s (piece :: pieces) = .returned ms t ↔
      ∃ ns u os, read s piece = .returned ns u ∧ feed read u pieces = .returned os t ∧ ns ++ os = ms := by
  cases hread : read s piece with
  | returned ns u => simp [feed_cons_of_returned hread, Reading.prepend_eq_returned]
  | threw e u => simp [feed_cons_of_threw hread]
  | diverged => simp [feed, hread]

/-- All that can be behind pieces one of which is rejected. -/
theorem feed_cons_eq_threw {read : σ → List α → Reading σ β ε} {s t : σ} {piece : List α}
    {pieces : List (List α)} {e : ε} :
    feed read s (piece :: pieces) = .threw e t ↔
      read s piece = .threw e t ∨
        ∃ ns u, read s piece = .returned ns u ∧ feed read u pieces = .threw e t := by
  cases hread : read s piece with
  | returned ns u => simp [feed_cons_of_returned hread, Reading.prepend_eq_threw]
  | threw e' u => simp [feed_cons_of_threw hread]
  | diverged => simp [feed, hread]

/-- Feeding one piece is reading it. -/
theorem feed_singleton (read : σ → List α → Reading σ β ε) (s : σ) (piece : List α) :
    feed read s [piece] = read s piece := by
  cases hread : read s piece <;> simp [feed, hread]

/-- More pieces are read from the state that the first ones leave. -/
theorem feed_append_of_returned {read : σ → List α → Reading σ β ε} {s t : σ}
    {pieces : List (List α)} {ms : List β} (h : feed read s pieces = .returned ms t)
    (more : List (List α)) : feed read s (pieces ++ more) = (feed read t more).prepend ms := by
  induction pieces generalizing s ms with
  | nil =>
    obtain ⟨rfl, rfl⟩ : [] = ms ∧ s = t := by simpa [feed] using h
    rw [List.nil_append, Reading.prepend_nil]
  | cons piece pieces ih =>
    obtain ⟨ns, u, os, hread, hfeed, rfl⟩ := feed_cons_eq_returned.mp h
    rw [List.cons_append, feed_cons_of_returned hread, ih hfeed, Reading.prepend_prepend]

/-- Where a call on nothing does nothing, empty pieces may be left out. -/
theorem feed_filter {read : σ → List α → Reading σ β ε} (hnil : ∀ s, read s [] = .returned [] s) (s : σ)
    (pieces : List (List α)) :
    feed read s (pieces.filter (!·.isEmpty)) = feed read s pieces := by
  induction pieces generalizing s with
  | nil => rfl
  | cons piece pieces ih =>
    cases piece with
    | nil =>
      rw [feed_cons_of_returned (hnil s), Reading.prepend_nil, ← ih s]
      rfl
    | cons a piece =>
      rw [List.filter_cons_of_pos rfl, feed, feed]
      cases read s (a :: piece) with
      | returned ms t => simp only [ih]
      | threw | diverged => rfl

/-- A reader that does what another one does is fed as the other one is. -/
theorem feed_map {τ γ : Type*} {read : σ → List α → Reading σ β ε} {read' : τ → List α → Reading τ γ ε}
    {f : σ → τ} {h : β → γ}
    (hread : ∀ s piece, read' (f s) piece = ((read s piece).map f).mapMessages h) (s : σ)
    (pieces : List (List α)) :
    feed read' (f s) pieces = ((feed read s pieces).map f).mapMessages h := by
  induction pieces generalizing s with
  | nil => rfl
  | cons piece pieces ih =>
    rw [feed, feed, hread]
    cases read s piece with
    | returned ms t =>
      simp only [Reading.map_returned, Reading.mapMessages]
      rw [ih, Reading.map_prepend, ← Reading.mapMessages_prepend]
      rfl
    | threw | diverged => rfl

/-- Cutting the input once, at a place where both parts are non-empty, changes nothing but the
state, and that only within `sim`. The law is asked of the states that satisfy `inv`. -/
structure CutStable (read : σ → List α → Reading σ β ε) (inv : σ → Prop) (sim : σ → σ → Prop) :
    Prop where
  /-- The reader keeps the invariant. -/
  inv_of_returned : ∀ {s xs ms t}, inv s → read s xs = .returned ms t → inv t
  /-- What one call returns, two calls return. -/
  returned : ∀ {s xs ys ms t}, inv s → xs ≠ [] → ys ≠ [] → read s (xs ++ ys) = .returned ms t →
    ∃ ms₁ s₁ ms₂ t', read s xs = .returned ms₁ s₁ ∧ read s₁ ys = .returned ms₂ t' ∧
      ms = ms₁ ++ ms₂ ∧ sim t t'
  /-- If one call throws, one of two calls throws. -/
  threw : ∀ {s xs ys e t}, inv s → xs ≠ [] → ys ≠ [] → read s (xs ++ ys) = .threw e t →
    (∃ e' t', read s xs = .threw e' t') ∨
      ∃ ms₁ s₁ e' t', read s xs = .returned ms₁ s₁ ∧ read s₁ ys = .threw e' t'

namespace CutStable

variable {read : σ → List α → Reading σ β ε} {inv : σ → Prop} {sim : σ → σ → Prop}

/-- The invariant of a reader holds after any pieces that it has taken. -/
theorem inv_of_feed (h : CutStable read inv sim) {pieces : List (List α)} {s t : σ} {ms : List β}
    (hs : inv s) (hfeed : feed read s pieces = .returned ms t) : inv t := by
  induction pieces generalizing s ms with
  | nil =>
    obtain ⟨-, rfl⟩ : [] = ms ∧ s = t := by simpa [feed] using hfeed
    exact hs
  | cons piece pieces ih =>
    obtain ⟨ns, u, os, hread, hrest, -⟩ := feed_cons_eq_returned.mp hfeed
    exact ih (h.inv_of_returned hs hread) hrest

/-- A call on a beginning of the input returns the first messages of a call on all of it. -/
theorem exists_returned_of_append (h : CutStable read inv sim) (hnil : ∀ s, read s [] = .returned [] s)
    {s t : σ} {xs ys : List α} {ms : List β} (hs : inv s) (hread : read s (xs ++ ys) = .returned ms t) :
    ∃ ms₁ u, read s xs = .returned ms₁ u ∧ ms₁ <+: ms := by
  by_cases hx : xs = []
  · subst hx
    exact ⟨[], s, hnil s, List.nil_prefix⟩
  · by_cases hy : ys = []
    · subst hy
      exact ⟨ms, t, by rwa [List.append_nil] at hread, List.prefix_rfl⟩
    · obtain ⟨ms₁, u, ms₂, -, hfirst, -, rfl, -⟩ := h.returned hs hx hy hread
      exact ⟨ms₁, u, hfirst, List.prefix_append ms₁ ms₂⟩

/-- What two calls return, one call returns. -/
theorem append_of_returned (h : CutStable read inv sim) {s t u : σ} {xs ys : List α} {ms ns : List β}
    (hs : inv s) (hends : read s (xs ++ ys) ≠ .diverged) (hx : xs ≠ []) (hy : ys ≠ [])
    (h₁ : read s xs = .returned ms u) (h₂ : read u ys = .returned ns t) :
    ∃ t', read s (xs ++ ys) = .returned (ms ++ ns) t' ∧ sim t' t := by
  cases hread : read s (xs ++ ys) with
  | returned os v =>
    obtain ⟨ms₁, s₁, ms₂, t', hfirst, hsecond, rfl, hsim⟩ := h.returned hs hx hy hread
    obtain ⟨rfl, rfl⟩ : ms = ms₁ ∧ u = s₁ := by simpa [h₁] using hfirst
    obtain ⟨rfl, rfl⟩ : ns = ms₂ ∧ t = t' := by simpa [h₂] using hsecond
    exact ⟨v, rfl, hsim⟩
  | threw e v =>
    rcases h.threw hs hx hy hread with ⟨e', t', hfirst⟩ | ⟨ms₁, s₁, e', t', hfirst, hsecond⟩
    · simp [h₁] at hfirst
    · obtain ⟨rfl, rfl⟩ : ms = ms₁ ∧ u = s₁ := by simpa [h₁] using hfirst
      simp [h₂] at hsecond
  | diverged => exact absurd hread hends

/-- No cutting of the input changes what a call on all of it returns. -/
theorem feed_of_returned (h : CutStable read inv sim) (hrefl : ∀ s, sim s s)
    (htrans : ∀ s t u, sim s t → sim t u → sim s u) {pieces : List (List α)} (hne : pieces ≠ [])
    (hpieces : ∀ piece ∈ pieces, piece ≠ []) {s t : σ} {ms : List β} (hs : inv s)
    (hread : read s pieces.flatten = .returned ms t) :
    ∃ t', feed read s pieces = .returned ms t' ∧ sim t t' := by
  induction pieces generalizing s t ms with
  | nil => exact absurd rfl hne
  | cons piece pieces ih =>
    cases pieces with
    | nil =>
      refine ⟨t, ?_, hrefl t⟩
      simp only [List.flatten_cons, List.flatten_nil, List.append_nil] at hread
      simp [feed, hread, Reading.prepend]
    | cons next pieces =>
      -- cut off the first piece, and go on with the others from where it leads
      have hrest : (next :: pieces).flatten ≠ [] := by simp [hpieces next (by simp)]
      obtain ⟨ms₁, s₁, ms₂, t₁, hfirst, hsecond, rfl, hsim⟩ :=
        h.returned hs (hpieces piece (by simp)) hrest hread
      obtain ⟨t₂, hfeed, hsim'⟩ := ih (by simp)
        (fun p hp => hpieces p (List.mem_cons_of_mem _ hp)) (h.inv_of_returned hs hfirst) hsecond
      exact ⟨t₂, by rw [feed_cons_of_returned hfirst, hfeed, Reading.prepend],
        htrans _ _ _ hsim hsim'⟩

/-- If a call on the whole input throws, every cutting of it makes some call throw. What a single cut
keeps of the error, all of them keep. -/
theorem feed_of_threw_of (h : CutStable read inv sim) {Q : ε → Prop}
    (hthrew : ∀ {s xs ys e t}, inv s → xs ≠ [] → ys ≠ [] → read s (xs ++ ys) = .threw e t → Q e →
      (∃ e' t', Q e' ∧ read s xs = .threw e' t') ∨
        ∃ ms₁ s₁ e' t', Q e' ∧ read s xs = .returned ms₁ s₁ ∧ read s₁ ys = .threw e' t')
    {pieces : List (List α)} (hne : pieces ≠ []) (hpieces : ∀ piece ∈ pieces, piece ≠ []) {s t : σ} {e : ε}
    (hs : inv s) (hread : read s pieces.flatten = .threw e t) (he : Q e) :
    ∃ e' t', Q e' ∧ feed read s pieces = .threw e' t' := by
  induction pieces generalizing s t e with
  | nil => exact absurd rfl hne
  | cons piece pieces ih =>
    cases pieces with
    | nil =>
      simp only [List.flatten_cons, List.flatten_nil, List.append_nil] at hread
      exact ⟨e, t, he, by simp [feed, hread]⟩
    | cons next pieces =>
      have hrest : (next :: pieces).flatten ≠ [] := by simp [hpieces next (by simp)]
      rcases hthrew hs (hpieces piece (by simp)) hrest hread he with
        ⟨e', t', he', hfirst⟩ | ⟨ms₁, s₁, e', t', he', hfirst, hsecond⟩
      · exact ⟨e', t', he', feed_cons_of_threw hfirst _⟩
      · obtain ⟨e'', t'', he'', hfeed⟩ := ih (by simp)
          (fun p hp => hpieces p (List.mem_cons_of_mem _ hp)) (h.inv_of_returned hs hfirst) hsecond he'
        exact ⟨e'', t'', he'', by rw [feed_cons_of_returned hfirst, hfeed, Reading.prepend]⟩

/-- If reading the whole throws, then so does reading it in pieces, if perhaps with another exception. -/
theorem feed_of_threw (h : CutStable read inv sim) {pieces : List (List α)} (hne : pieces ≠ [])
    (hpieces : ∀ piece ∈ pieces, piece ≠ []) {s t : σ} {e : ε} (hs : inv s)
    (hread : read s pieces.flatten = .threw e t) :
    ∃ e' t', feed read s pieces = .threw e' t' := by
  obtain ⟨e', t', -, hfeed⟩ := h.feed_of_threw_of (Q := fun _ => True)
    (fun hs hx hy hread _ => by simpa using h.threw hs hx hy hread) hne hpieces hs hread trivial
  exact ⟨e', t', hfeed⟩

section Ends

variable (h : CutStable read inv sim) (hrefl : ∀ s, sim s s)
  (htrans : ∀ s t u, sim s t → sim t u → sim s u) {pieces : List (List α)} (hne : pieces ≠ [])
  (hpieces : ∀ piece ∈ pieces, piece ≠ []) {s t : σ} (hs : inv s)
  (hends : read s pieces.flatten ≠ .diverged)

include h hrefl htrans hne hpieces hs hends

/-- What the pieces of the input return, a call on all of it returns. -/
theorem returned_of_feed {ms : List β} (hfeed : feed read s pieces = .returned ms t) :
    ∃ u, read s pieces.flatten = .returned ms u ∧ sim u t := by
  cases hread : read s pieces.flatten with
  | returned ns u =>
    obtain ⟨u', hfeed', hsim⟩ := h.feed_of_returned hrefl htrans hne hpieces hs hread
    obtain ⟨rfl, rfl⟩ := Reading.returned.inj (hfeed.symm.trans hfeed')
    exact ⟨u, rfl, hsim⟩
  | threw e u =>
    obtain ⟨e', u', hfeed'⟩ := h.feed_of_threw hne hpieces hs hread
    cases hfeed.symm.trans hfeed'
  | diverged => exact absurd hread hends

/-- If some piece makes a call throw, a call on the whole input throws. -/
theorem threw_of_feed {e : ε} (hfeed : feed read s pieces = .threw e t) :
    ∃ e' u, read s pieces.flatten = .threw e' u := by
  cases hread : read s pieces.flatten with
  | returned ms u =>
    obtain ⟨u', hfeed', -⟩ := h.feed_of_returned hrefl htrans hne hpieces hs hread
    cases hfeed.symm.trans hfeed'
  | threw e' u => exact ⟨e', u, rfl⟩
  | diverged => exact absurd hread hends

end Ends

/-- The law does not ask what a reader throws. -/
theorem of_forget {read' : σ → List α → Reading σ β Unit} (h : CutStable read inv sim)
    (hread : ∀ {s} xs, inv s → read' s xs = (read s xs).forget) : CutStable read' inv sim where
  inv_of_returned {s xs ms t} hs hreturned := by
    rw [hread xs hs, Reading.forget_eq_returned] at hreturned
    exact h.inv_of_returned hs hreturned
  returned {s xs ys ms t} hs hx hy hreturned := by
    rw [hread _ hs, Reading.forget_eq_returned] at hreturned
    obtain ⟨ms₁, u, ms₂, v, hfirst, hsecond, hms, hsim⟩ := h.returned hs hx hy hreturned
    refine ⟨ms₁, u, ms₂, v, ?_, ?_, hms, hsim⟩
    · rw [hread _ hs, hfirst, Reading.forget]
    · rw [hread _ (h.inv_of_returned hs hfirst), hsecond, Reading.forget]
  threw {s xs ys e t} hs hx hy hthrew := by
    rw [hread _ hs, Reading.forget_eq_threw] at hthrew
    obtain ⟨e, hthrew⟩ := hthrew
    rcases h.threw hs hx hy hthrew with ⟨e', t', hfirst⟩ | ⟨ms₁, u, e', t', hfirst, hsecond⟩
    · exact Or.inl ⟨(), t', by rw [hread _ hs, hfirst, Reading.forget]⟩
    · refine Or.inr ⟨ms₁, u, (), t', ?_, ?_⟩
      · rw [hread _ hs, hfirst, Reading.forget]
      · rw [hread _ (h.inv_of_returned hs hfirst), hsecond, Reading.forget]

end CutStable

end Chunking
