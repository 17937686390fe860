import PrimeServer.Library.Chunking

/-!
# Readers that work symbol by symbol

An automaton takes one symbol at a time, may refuse it, and may complete a message with it. A
streaming reader that takes its input in pieces `Realizes` an automaton when each call does what the
automaton does on the symbols of the piece. How the input was cut is then of no importance:
`Realizes.feed_returned_iff` says what a sequence of calls does in terms of the automaton alone.
-/

namespace Automaton

open Chunking

variable {σ α β ε : Type*} {step : σ → α → Option (σ × Option β)}

/-- The automaton on a list of symbols: the state it reaches and the messages it completes, unless it
refuses a symbol. -/
def run (step : σ → α → Option (σ × Option β)) : σ → List α → Option (σ × List β)
  | s, [] => some (s, [])
  | s, x :: xs =>
    (step s x).bind fun (t, m) => (run step t xs).map fun (u, ms) => (u, m.toList ++ ms)

@[simp]
theorem run_nil (s : σ) : run step s [] = some (s, []) := rfl

/-- The first input is read first, and what it completes comes before all that is completed later. -/
theorem run_cons (s : σ) (x : α) (xs : List α) :
    run step s (x :: xs) =
      (step s x).bind fun (t, m) => (run step t xs).map fun (u, ms) => (u, m.toList ++ ms) := rfl

/-- If the first input is taken, the run goes on from there. -/
theorem run_cons_of_step {s t : σ} {x : α} {m : Option β} (h : step s x = some (t, m))
    (xs : List α) :
    run step s (x :: xs) = (run step t xs).map fun (u, ms) => (u, m.toList ++ ms) := by
  rw [run_cons, h, Option.bind_some]

/-- If the first input is refused, so is the run. -/
theorem run_cons_of_refused {s : σ} {x : α} (h : step s x = none) (xs : List α) :
    run step s (x :: xs) = none := by
  rw [run_cons, h, Option.bind_none]

/-- A run on two lists of symbols is a run on the first and one on the second. -/
theorem run_append (s : σ) (xs ys : List α) :
    run step s (xs ++ ys) =
      (run step s xs).bind fun (t, ms) => (run step t ys).map fun (u, ns) => (u, ms ++ ns) := by
  induction xs generalizing s with
  | nil => simp
  | cons x xs ih =>
    rw [List.cons_append, run_cons, run_cons]
    cases step s x with
    | none => rfl
    | some next =>
      obtain ⟨t, m⟩ := next
      simp only [Option.bind_some, ih, Option.map_bind, Option.bind_map]
      congr 1
      funext ⟨u, ms⟩
      simp [Function.comp_def]

/-- A run can be continued after any beginning of its inputs. -/
theorem run_append_of_run {s t : σ} {xs : List α} {ms : List β} (h : run step s xs = some (t, ms))
    (ys : List α) :
    run step s (xs ++ ys) = (run step t ys).map fun (u, ns) => (u, ms ++ ns) := by
  rw [run_append, h, Option.bind_some]

/-- Once an input is refused, nothing that comes after it is read. -/
theorem run_append_of_refused {s : σ} {xs : List α} (h : run step s xs = none) (ys : List α) :
    run step s (xs ++ ys) = none := by
  rw [run_append, h, Option.bind_none]

/-- What the automaton keeps with every symbol, it keeps in a run. -/
theorem inv_of_run {inv : σ → Prop} (hstep : ∀ {s x t m}, inv s → step s x = some (t, m) → inv t)
    {s t : σ} {xs : List α} {ms : List β} (hs : inv s) (h : run step s xs = some (t, ms)) : inv t := by
  induction xs generalizing s ms with
  | nil =>
    obtain ⟨rfl, -⟩ : s = t ∧ [] = ms := by simpa using h
    exact hs
  | cons x xs ih =>
    rw [run_cons, Option.bind_eq_some_iff] at h
    obtain ⟨⟨u, m⟩, hu, hrest⟩ := h
    obtain ⟨⟨v, ns⟩, hv, heq⟩ := Option.map_eq_some_iff.mp hrest
    obtain ⟨rfl, -⟩ : v = t ∧ m.toList ++ ns = ms := by simpa using heq
    exact ih (hstep hs hu) hv

/-- Where a symbol of the list is refused: the state, and the symbol. -/
def refused (step : σ → α → Option (σ × Option β)) : σ → List α → Option (σ × α)
  | _, [] => none
  | s, x :: xs =>
    match step s x with
    | none => some (s, x)
    | some (t, _) => refused step t xs

/-- Where the first input is taken, the refused one is among the later ones. -/
theorem refused_cons_of_step {s t : σ} {x : α} {m : Option β} (h : step s x = some (t, m))
    (xs : List α) : refused step s (x :: xs) = refused step t xs := by
  simp only [refused, h]

/-- Where the first input is refused, it is the one that `refused` finds. -/
theorem refused_cons_of_refused {s : σ} {x : α} (h : step s x = none) (xs : List α) :
    refused step s (x :: xs) = some (s, x) := by
  simp only [refused, h]

/-- What a run has taken was not refused. -/
theorem refused_append_of_run {s t : σ} {xs : List α} {ms : List β} (h : run step s xs = some (t, ms))
    (ys : List α) : refused step s (xs ++ ys) = refused step t ys := by
  induction xs generalizing s ms with
  | nil =>
    obtain ⟨rfl, -⟩ : s = t ∧ [] = ms := by simpa using h
    rfl
  | cons x xs ih =>
    rw [run_cons, Option.bind_eq_some_iff] at h
    obtain ⟨⟨u, m⟩, hu, hrest⟩ := h
    obtain ⟨⟨v, ns⟩, hv, heq⟩ := Option.map_eq_some_iff.mp hrest
    obtain ⟨rfl, -⟩ : v = t ∧ m.toList ++ ns = ms := by simpa using heq
    rw [List.cons_append, refused_cons_of_step hu, ih hv]

/-- The symbols after the refused one are not looked at. -/
theorem refused_append_of_refused {s : σ} {xs : List α} {r : σ × α} (h : refused step s xs = some r)
    (ys : List α) : refused step s (xs ++ ys) = some r := by
  induction xs generalizing s with
  | nil => cases h
  | cons x xs ih =>
    cases hstep : step s x with
    | none =>
      rw [refused_cons_of_refused hstep] at h
      rw [List.cons_append, refused_cons_of_refused hstep, h]
    | some next =>
      obtain ⟨t, m⟩ := next
      rw [refused_cons_of_step hstep] at h
      rw [List.cons_append, refused_cons_of_step hstep, ih h]

/-- The automaton that completes `f m` where `step` completes `m`. -/
def mapStep {γ : Type*} (f : β → γ) (step : σ → α → Option (σ × Option β)) (s : σ) (x : α) :
    Option (σ × Option γ) :=
  (step s x).map fun (t, m) => (t, m.map f)

/-- Putting a function behind the automaton changes its messages and nothing else. -/
theorem run_mapStep {γ : Type*} (f : β → γ) (s : σ) (xs : List α) :
    run (mapStep f step) s xs = (run step s xs).map fun (t, ms) => (t, ms.map f) := by
  induction xs generalizing s with
  | nil => rfl
  | cons x xs ih =>
    rw [run_cons, run_cons, mapStep]
    cases step s x with
    | none => rfl
    | some next =>
      obtain ⟨t, m⟩ := next
      simp only [Option.map_some, Option.bind_some, ih, Option.map_map]
      congr 1
      funext ⟨u, ms⟩
      cases m <;> simp

/-- A call does what a run of the automaton does: it returns where no symbol is refused, and throws
where one is. -/
def Matches (r : Reading σ β ε) : Option (σ × List β) → Prop
  | some (t, ms) => r = .returned ms t
  | none => ∃ e t, r = .threw e t

/-- What matches a run of the automaton has come to an end. -/
theorem Matches.ne_diverged {r : Reading σ β ε} {result : Option (σ × List β)} (h : Matches r result) :
    r ≠ .diverged := by
  cases result with
  | none =>
    obtain ⟨e, t, rfl⟩ := h
    exact nofun
  | some result =>
    obtain rfl : r = .returned result.2 result.1 := h
    exact nofun

/-- Messages that came before can be put in front on both sides. -/
theorem Matches.prepend {r : Reading σ β ε} {result : Option (σ × List β)} (h : Matches r result)
    (ms : List β) : Matches (r.prepend ms) (result.map fun (t, ns) => (t, ms ++ ns)) := by
  cases result with
  | none =>
    obtain ⟨e, t, rfl⟩ := h
    exact ⟨e, t, rfl⟩
  | some result =>
    obtain ⟨t, ns⟩ := result
    obtain rfl : r = .returned ns t := h
    rfl

/-- Each call of the reader does what the automaton does on the symbols of the piece. The law is asked
of the states that satisfy `inv`. -/
structure Realizes (read : σ → List α → Reading σ β ε) (step : σ → α → Option (σ × Option β))
    (inv : σ → Prop) : Prop where
  /-- The automaton keeps the invariant. -/
  inv_step : ∀ {s x t m}, inv s → step s x = some (t, m) → inv t
  /-- A call does what the automaton does. -/
  reads : ∀ {s} xs, inv s → Matches (read s xs) (run step s xs)

namespace Realizes

variable {read : σ → List α → Reading σ β ε} {inv : σ → Prop}

/-- If the automaton takes all inputs, the reader returns its messages and is in its state. -/
theorem returned (h : Realizes read step inv) {s t : σ} {xs : List α} {ms : List β} (hs : inv s)
    (hrun : run step s xs = some (t, ms)) : read s xs = .returned ms t := by
  have hreads := h.reads xs hs
  rwa [hrun] at hreads

/-- If the automaton refuses an input, the reader throws. -/
theorem threw (h : Realizes read step inv) {s : σ} {xs : List α} (hs : inv s)
    (hrun : run step s xs = none) : ∃ e t, read s xs = .threw e t := by
  have hreads := h.reads xs hs
  rwa [hrun] at hreads

/-- The reader returns exactly what the automaton has found, since it cannot both return and throw. -/
theorem returned_iff (h : Realizes read step inv) {s t : σ} {xs : List α} {ms : List β} (hs : inv s) :
    read s xs = .returned ms t ↔ run step s xs = some (t, ms) := by
  refine ⟨fun hread => ?_, h.returned hs⟩
  cases hrun : run step s xs with
  | none =>
    obtain ⟨e, u, hthrew⟩ := h.threw hs hrun
    simp [hthrew] at hread
  | some result =>
    obtain ⟨u, ns⟩ := result
    rw [h.returned hs hrun] at hread
    obtain ⟨rfl, rfl⟩ : ns = ms ∧ u = t := by simpa using hread
    rfl

/-- The reader throws exactly where the automaton refuses. -/
theorem threw_iff (h : Realizes read step inv) {s : σ} {xs : List α} (hs : inv s) :
    (∃ e t, read s xs = .threw e t) ↔ run step s xs = none := by
  refine ⟨fun ⟨e, t, hread⟩ => ?_, h.threw hs⟩
  cases hrun : run step s xs with
  | none => rfl
  | some result =>
    obtain ⟨u, ns⟩ := result
    simp [h.returned hs hrun] at hread

/-- Calls on pieces do what the automaton does on all of their symbols. -/
theorem feed (h : Realizes read step inv) {s : σ} (hs : inv s) (pieces : List (List α)) :
    Matches (Chunking.feed read s pieces) (run step s pieces.flatten) := by
  induction pieces generalizing s with
  | nil => rfl
  | cons piece pieces ih =>
    rw [List.flatten_cons]
    cases hrun : run step s piece with
    | none =>
      obtain ⟨e, t, hread⟩ := h.threw hs hrun
      rw [run_append_of_refused hrun]
      exact ⟨e, t, feed_cons_of_threw hread pieces⟩
    | some result =>
      obtain ⟨t, ms⟩ := result
      rw [run_append_of_run hrun, feed_cons_of_returned (h.returned hs hrun)]
      exact (ih (inv_of_run h.inv_step hs hrun)).prepend ms

/-- A reader that is given a stream in pieces returns what the automaton finds in the stream as a whole. -/
theorem feed_returned_iff (h : Realizes read step inv) {s t : σ} {ms : List β} (hs : inv s)
    (pieces : List (List α)) :
    Chunking.feed read s pieces = .returned ms t ↔ run step s pieces.flatten = some (t, ms) := by
  have hfeed := h.feed hs pieces
  cases hrun : run step s pieces.flatten with
  | none =>
    rw [hrun] at hfeed
    obtain ⟨e, u, hthrew⟩ := hfeed
    simp [hthrew]
  | some result =>
    obtain ⟨u, ns⟩ := result
    obtain hfeed : Chunking.feed read s pieces = .returned ns u := by rwa [hrun] at hfeed
    rw [hfeed, Reading.returned.injEq, Option.some.injEq, Prod.mk.injEq, and_comm]

/-- A reader that works symbol by symbol does not mind a cut. -/
theorem cutStable (h : Realizes read step inv) : CutStable read inv Eq where
  inv_of_returned hs hread := inv_of_run h.inv_step hs ((h.returned_iff hs).mp hread)
  returned {s xs ys ms t} hs _ _ hread := by
    have hrun := (h.returned_iff hs).mp hread
    rw [run_append, Option.bind_eq_some_iff] at hrun
    obtain ⟨⟨u, ms₁⟩, hfirst, hrest⟩ := hrun
    obtain ⟨⟨v, ms₂⟩, hsecond, heq⟩ := Option.map_eq_some_iff.mp hrest
    obtain ⟨rfl, rfl⟩ : v = t ∧ ms₁ ++ ms₂ = ms := by simpa using heq
    -- the run on the whole is a run on the first part and one on the second
    have hu := inv_of_run h.inv_step hs hfirst
    exact ⟨ms₁, u, ms₂, v, h.returned hs hfirst, h.returned hu hsecond, rfl, rfl⟩
  threw {s xs ys e t} hs _ _ hread := by
    have hrun := (h.threw_iff hs).mp ⟨e, t, hread⟩
    cases hfirst : run step s xs with
    | none =>
      obtain ⟨e', t', hthrew⟩ := h.threw hs hfirst
      exact Or.inl ⟨e', t', hthrew⟩
    | some result =>
      obtain ⟨u, ms⟩ := result
      rw [run_append_of_run hfirst, Option.map_eq_none_iff] at hrun
      obtain ⟨e', t', hthrew⟩ := h.threw (inv_of_run h.inv_step hs hfirst) hrun
      exact Or.inr ⟨ms, u, e', t', h.returned hs hfirst, hthrew⟩

end Realizes

end Automaton
