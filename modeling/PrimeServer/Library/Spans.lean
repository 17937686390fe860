import PrimeServer.Library.Automaton

/-!
# Cutting a stream where an automaton marks it

An automaton that marks symbols cuts a stream into spans, each of which ends with a marked symbol.
`spanStep` holds the symbols since the last mark and completes a span at each mark.
-/

namespace Automaton

variable {σ α : Type*} {step : σ → α → Option (σ × Bool)}

/-- The automaton that completes the spans of a marking automaton. -/
def spanStep (step : σ → α → Option (σ × Bool)) :
    σ × List α → α → Option ((σ × List α) × Option (List α))
  | (s, held), x =>
    (step s x).map fun (t, mark) =>
      if mark then ((t, []), some (held ++ [x])) else ((t, held ++ [x]), none)

/-- The state after symbols of which none is refused and none is marked. -/
def walk (step : σ → α → Option (σ × Bool)) : σ → List α → Option σ
  | s, [] => some s
  | s, x :: xs =>
    match step s x with
    | some (t, false) => walk step t xs
    | some (_, true) | none => none

@[simp]
theorem walk_nil (s : σ) : walk step s [] = some s := rfl

/-- An input without a mark is walked over. -/
theorem walk_cons_of_step {s t : σ} {x : α} (h : step s x = some (t, false)) (xs : List α) :
    walk step s (x :: xs) = walk step t xs := by
  rw [walk, h]

/-- Walking over two lists of inputs is walking over the first and then over the second. -/
theorem walk_append (s : σ) (xs ys : List α) :
    walk step s (xs ++ ys) = (walk step s xs).bind fun t => walk step t ys := by
  induction xs generalizing s with
  | nil => rfl
  | cons x xs ih =>
    rw [List.cons_append, walk, walk]
    cases step s x with
    | none => rfl
    | some next =>
      obtain ⟨t, mark⟩ := next
      cases mark with
      | false => exact ih t
      | true => rfl

/-- After the first list, the walk goes on from where it ended. -/
theorem walk_append_of_walk {s t : σ} {xs : List α} (h : walk step s xs = some t) (ys : List α) :
    walk step s (xs ++ ys) = walk step t ys := by
  rw [walk_append, h, Option.bind_some]

/-- Symbols without a mark are held. -/
theorem run_spanStep_of_walk {s t : σ} {xs : List α} (h : walk step s xs = some t) (held : List α) :
    run (spanStep step) (s, held) xs = some ((t, held ++ xs), []) := by
  induction xs generalizing s held with
  | nil =>
    obtain rfl : s = t := by simpa using h
    simp
  | cons x xs ih =>
    rw [walk] at h
    split at h
    case h_1 u hu =>
      have hstep : spanStep step (s, held) x = some ((u, held ++ [x]), none) := by
        simp [spanStep, hu]
      rw [run_cons_of_step hstep, ih h]
      simp
    case h_2 => cases h
    case h_3 => cases h

/-- The symbols are a span: the last of them is the only one that is marked. -/
def Spans (step : σ → α → Option (σ × Bool)) (s : σ) (xs : List α) (t : σ) : Prop :=
  ∃ ys y u, xs = ys ++ [y] ∧ walk step s ys = some u ∧ step u y = some (t, true)

/-- Symbols without a mark may stand in front of a span. -/
theorem Spans.of_walk {s t u : σ} {xs ys : List α} (h : walk step s xs = some t)
    (hspans : Spans step t ys u) : Spans step s (xs ++ ys) u := by
  obtain ⟨zs, z, v, rfl, hwalk, hmark⟩ := hspans
  exact ⟨xs ++ zs, z, v, (List.append_assoc _ _ _).symm, by rw [walk_append_of_walk h, hwalk], hmark⟩

/-- Nothing is spanned without an input, since a span ends with its mark. -/
theorem not_spans_nil (s t : σ) : ¬Spans step s [] t := by
  rintro ⟨ys, y, u, hnil, -⟩
  simp at hnil

/-- What the first symbol of a span does. -/
theorem spans_cons {s t : σ} {x : α} {xs : List α} :
    Spans step s (x :: xs) t ↔
      ∃ u mark, step s x = some (u, mark) ∧ if mark then xs = [] ∧ u = t else Spans step u xs t := by
  constructor
  · rintro ⟨ys, y, u, heq, hwalk, hmark⟩
    -- the first symbol is the last one, too, or it is not marked
    cases ys with
    | nil =>
      obtain ⟨rfl, rfl⟩ : x = y ∧ xs = [] := by simpa using heq
      obtain rfl : s = u := by simpa using hwalk
      exact ⟨t, true, hmark, rfl, rfl⟩
    | cons y' ys =>
      obtain ⟨rfl, rfl⟩ : x = y' ∧ xs = ys ++ [y] := by simpa using heq
      rw [walk] at hwalk
      split at hwalk
      case h_1 v hv => exact ⟨v, false, hv, ys, y, u, rfl, hwalk, hmark⟩
      case h_2 => cases hwalk
      case h_3 => cases hwalk
  · rintro ⟨u, mark, hstep, hrest⟩
    cases mark with
    | true =>
      obtain ⟨rfl, rfl⟩ := hrest
      exact ⟨[], x, s, rfl, rfl, hstep⟩
    | false =>
      have hwalk : walk step s [x] = some u := by rw [walk_cons_of_step hstep, walk_nil]
      exact Spans.of_walk hwalk hrest

/-- An input without a mark belongs to a span exactly if the span goes on behind it. -/
theorem spans_cons_of_quiet {s t u : σ} {x : α} (h : step s x = some (u, false)) (xs : List α) :
    Spans step s (x :: xs) t ↔ Spans step u xs t := by
  rw [spans_cons, h]
  simp

/-- An input with a mark ends its span. -/
theorem spans_cons_of_mark {s t u : σ} {x : α} (h : step s x = some (u, true)) (xs : List α) :
    Spans step s (x :: xs) t ↔ xs = [] ∧ u = t := by
  rw [spans_cons, h]
  simp

/-- Nothing spans a refused input. -/
theorem not_spans_cons_of_refused {s t : σ} {x : α} (h : step s x = none) (xs : List α) :
    ¬Spans step s (x :: xs) t := by
  rw [spans_cons, h]
  simp

/-- A walk does not get past a mark. -/
theorem walk_cons_of_mark {s u : σ} {x : α} (h : step s x = some (u, true)) (xs : List α) :
    walk step s (x :: xs) = none := by
  rw [walk, h]

/-- A walk does not get past a refused input. -/
theorem walk_cons_of_refused {s : σ} {x : α} (h : step s x = none) (xs : List α) :
    walk step s (x :: xs) = none := by
  rw [walk, h]

/-- A span is completed. -/
theorem Spans.run {s t : σ} {xs : List α} (h : Spans step s xs t) (held : List α) :
    run (spanStep step) (s, held) xs = some ((t, []), [held ++ xs]) := by
  obtain ⟨ys, y, u, rfl, hwalk, hmark⟩ := h
  have hstep : spanStep step (u, held ++ ys) y = some ((t, []), some (held ++ ys ++ [y])) := by
    simp [spanStep, hmark]
  rw [run_append_of_run (run_spanStep_of_walk hwalk held), run_cons_of_step hstep]
  simp

/-- A list of spans, each of which leads back to where it started. -/
theorem run_spanStep_flatten {s : σ} {spans : List (List α)}
    (hspans : ∀ span ∈ spans, Spans step s span s) :
    Automaton.run (spanStep step) (s, []) spans.flatten = some ((s, []), spans) := by
  induction spans with
  | nil => rfl
  | cons span spans ih =>
    obtain ⟨hfirst, hrest⟩ := List.forall_mem_cons.mp hspans
    rw [List.flatten_cons, run_append_of_run (hfirst.run []), ih hrest]
    rfl

/-- What the first symbol of a run does: it ends a span, or is held. -/
theorem of_run_spanStep_cons {s : σ} {held xs : List α} {x : α} {spans : List (List α)}
    {reached : σ × List α}
    (h : Automaton.run (spanStep step) (s, held) (x :: xs) = some (reached, spans)) :
    ∃ t mark, step s x = some (t, mark) ∧
      if mark then
        ∃ later, spans = (held ++ [x]) :: later ∧
          Automaton.run (spanStep step) (t, []) xs = some (reached, later)
      else Automaton.run (spanStep step) (t, held ++ [x]) xs = some (reached, spans) := by
  rw [run_cons, Option.bind_eq_some_iff] at h
  obtain ⟨⟨u, m⟩, hspan, hrest⟩ := h
  obtain ⟨⟨v, later⟩, hlater, heq⟩ := Option.map_eq_some_iff.mp hrest
  obtain ⟨rfl, rfl⟩ : v = reached ∧ m.toList ++ later = spans := by simpa using heq
  obtain ⟨⟨t, mark⟩, hstep, heq⟩ := Option.map_eq_some_iff.mp hspan
  refine ⟨t, mark, hstep, ?_⟩
  cases mark with
  | true =>
    obtain ⟨rfl, rfl⟩ : (t, []) = u ∧ some (held ++ [x]) = m := by simpa using heq
    exact ⟨later, rfl, hlater⟩
  | false =>
    obtain ⟨rfl, rfl⟩ : (t, held ++ [x]) = u ∧ none = m := by simpa using heq
    exact hlater

/-- Where spans are completed, the first of them is read first. -/
theorem exists_spans_of_run {s : σ} {held xs span : List α} {spans : List (List α)}
    {reached : σ × List α} (h : Automaton.run (spanStep step) (s, held) xs = some (reached, span :: spans)) :
    ∃ first rest t, xs = first ++ rest ∧ span = held ++ first ∧ Spans step s first t ∧
      Automaton.run (spanStep step) (t, []) rest = some (reached, spans) := by
  induction xs generalizing s held with
  | nil => simp at h
  | cons x xs ih =>
    obtain ⟨t, mark, hstep, hrest⟩ := of_run_spanStep_cons h
    cases mark with
    | true =>
      obtain ⟨later, heq, hlater⟩ := hrest
      obtain ⟨rfl, rfl⟩ := List.cons.inj heq
      exact ⟨[x], xs, t, rfl, rfl, spans_cons.mpr ⟨t, true, hstep, rfl, rfl⟩, hlater⟩
    | false =>
      obtain ⟨first, rest, u, rfl, rfl, hfirst, hrun⟩ := ih hrest
      refine ⟨x :: first, rest, u, rfl, by simp, ?_, hrun⟩
      exact spans_cons.mpr ⟨t, false, hstep, hfirst⟩

/-- Where no span is completed, nothing is marked. -/
theorem exists_walk_of_run {s : σ} {held xs : List α} {reached : σ × List α}
    (h : Automaton.run (spanStep step) (s, held) xs = some (reached, [])) :
    ∃ t, walk step s xs = some t := by
  induction xs generalizing s held with
  | nil => exact ⟨s, rfl⟩
  | cons x xs ih =>
    obtain ⟨t, mark, hstep, hrest⟩ := of_run_spanStep_cons h
    cases mark with
    | true =>
      obtain ⟨later, heq, -⟩ := hrest
      cases heq
    | false =>
      rw [walk_cons_of_step hstep]
      exact ih hrest

/-- If every mark leads back to the start, certain parts of the input are the spans that are completed
exactly if each of them is a span and nothing is marked after them. -/
theorem run_spanStep_eq_some_iff {s : σ} (hback : ∀ t u x, step t x = some (u, true) → u = s)
    (spans : List (List α)) (left : List α) :
    (∃ reached, Automaton.run (spanStep step) (s, []) (spans.flatten ++ left) = some (reached, spans)) ↔
      (∀ span ∈ spans, Spans step s span s) ∧ ∃ t, walk step s left = some t := by
  induction spans with
  | nil =>
    constructor
    · rintro ⟨reached, hrun⟩
      exact ⟨nofun, exists_walk_of_run hrun⟩
    · rintro ⟨-, t, hwalk⟩
      exact ⟨_, run_spanStep_of_walk hwalk []⟩
  | cons span spans ih =>
    rw [List.forall_mem_cons, and_assoc, ← ih, List.flatten_cons, List.append_assoc]
    constructor
    · rintro ⟨reached, hrun⟩
      -- the first span that is completed is the first part, so that it leads back to the start
      obtain ⟨first, rest, t, heq, rfl, hfirst, hrest⟩ := exists_spans_of_run hrun
      obtain rfl := List.append_cancel_left heq
      obtain rfl : t = s := by
        obtain ⟨_, _, _, _, _, hmark⟩ := hfirst
        exact hback _ _ _ hmark
      exact ⟨hfirst, reached, hrest⟩
    · rintro ⟨hspan, reached, hrun⟩
      refine ⟨reached, ?_⟩
      rw [run_append_of_run (hspan.run []), hrun]
      rfl

end Automaton
