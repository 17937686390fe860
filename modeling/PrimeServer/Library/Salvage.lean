import PrimeServer.Library.Chunking

/-!
# What a call that throws has read

A streaming reader that throws loses the messages that it has completed in the same call. `salvage`
finds them again. For a reader that does not mind cuts, the messages returned before the call that
throws and those lost in it are together the same for every cutting of the input.
-/

namespace Chunking

variable {σ α β ε : Type*}

/-- The messages of the longest part of the input, with `done` in front of it, that a call takes without
throwing. -/
def salvage (read : σ → List α → Reading σ β ε) (s : σ) (done : List α) : List α → List β
  | [] => (read s done).messages
  | x :: rest =>
    match read s (done ++ [x]) with
    | .returned _ _ => salvage read s (done ++ [x]) rest
    | .threw _ _ | .diverged => (read s done).messages

variable {read : σ → List α → Reading σ β ε} {inv : σ → Prop} {sim : σ → σ → Prop}

/-- A call returns. -/
def Returns (read : σ → List α → Reading σ β ε) (s : σ) (xs : List α) : Prop :=
  ∃ ms t, read s xs = .returned ms t

instance (s : σ) (xs : List α) : Decidable (Returns read s xs) :=
  match h : read s xs with
  | .returned ms t => isTrue ⟨ms, t, h⟩
  | .threw _ _ => isFalse fun ⟨_, _, hread⟩ => by simp [h] at hread
  | .diverged => isFalse fun ⟨_, _, hread⟩ => by simp [h] at hread

/-- Where the reader does not return any more, what it has handed out until then is all that there is. -/
theorem salvage_of_not_returns {s : σ} {done : List α} {x : α} (h : ¬Returns read s (done ++ [x]))
    (rest : List α) : salvage read s done (x :: rest) = (read s done).messages := by
  rw [salvage]
  cases hread : read s (done ++ [x]) with
  | returned ms t => exact absurd ⟨ms, t, hread⟩ h
  | threw | diverged => rfl

/-- Where a call on all of the input does not return, there is a first symbol that keeps it from
returning. -/
theorem salvage_spec {s : σ} {done : List α} (hdone : Returns read s done) {xs : List α}
    (hxs : ¬Returns read s (done ++ xs)) :
    ∃ ys x zs t, xs = ys ++ x :: zs ∧ read s (done ++ ys) = .returned (salvage read s done xs) t ∧
      ¬Returns read s (done ++ ys ++ [x]) := by
  induction xs generalizing done with
  | nil =>
    rw [List.append_nil] at hxs
    exact absurd hdone hxs
  | cons x xs ih =>
    by_cases hx : Returns read s (done ++ [x])
    · -- this symbol is read, and the one that keeps it from returning comes later
      obtain ⟨ys, y, zs, t, rfl, hread, hy⟩ := ih hx (by rwa [List.append_assoc])
      refine ⟨x :: ys, y, zs, t, rfl, ?_, by simpa using hy⟩
      obtain ⟨ms, u, hms⟩ := hx
      rw [salvage, hms]
      simpa using hread
    · obtain ⟨ms, t, hms⟩ := hdone
      refine ⟨[], x, xs, t, rfl, ?_, by simpa using hx⟩
      rw [salvage_of_not_returns hx, List.append_nil, hms, Reading.messages_returned]

/-- A reader that does not mind cuts, comes to an end, and does nothing with nothing. -/
structure Streaming (read : σ → List α → Reading σ β ε) (inv : σ → Prop) (sim : σ → σ → Prop) :
    Prop extends CutStable read inv sim where
  /-- Each state is like itself. -/
  refl : ∀ s, sim s s
  /-- Being alike is transitive. -/
  trans : ∀ s t u, sim s t → sim t u → sim s u
  /-- Nothing is made of nothing. -/
  nil : ∀ {s}, inv s → read s [] = .returned [] s
  /-- The reader always comes to an end. -/
  ends : ∀ {s} xs, inv s → read s xs ≠ .diverged

namespace Streaming

/-- Streaming does not depend on which exceptions are thrown. -/
theorem of_forget {read' : σ → List α → Reading σ β Unit} (h : Streaming read inv sim)
    (hread : ∀ {s} xs, inv s → read' s xs = (read s xs).forget) : Streaming read' inv sim where
  toCutStable := h.toCutStable.of_forget hread
  refl := h.refl
  trans := h.trans
  nil hs := by rw [hread _ hs, h.nil hs, Reading.forget]
  ends xs hs := by
    rw [hread _ hs, Ne, Reading.forget_eq_diverged]
    exact h.ends xs hs

variable {s : σ}

/-- What pieces return, one call returns. -/
theorem returned_of_feed (h : Streaming read inv sim) (hs : inv s) {pieces : List (List α)}
    (hpieces : ∀ piece ∈ pieces, piece ≠ []) {ms : List β} {t : σ}
    (hfeed : feed read s pieces = .returned ms t) :
    ∃ t', read s pieces.flatten = .returned ms t' := by
  by_cases hne : pieces = []
  · subst hne
    obtain ⟨rfl, rfl⟩ : [] = ms ∧ s = t := by simpa [feed] using hfeed
    exact ⟨s, h.nil hs⟩
  obtain ⟨u, hread, -⟩ :=
    h.toCutStable.returned_of_feed h.refl h.trans hne hpieces hs (h.ends _ hs) hfeed
  exact ⟨u, hread⟩

/-- A part of what a call takes is taken, too. -/
theorem returns_of_append (h : Streaming read inv sim) (hs : inv s) {xs ys : List α}
    (hread : Returns read s (xs ++ ys)) : Returns read s xs := by
  by_cases hx : xs = []
  · exact ⟨[], s, hx ▸ h.nil hs⟩
  by_cases hy : ys = []
  · rwa [hy, List.append_nil] at hread
  obtain ⟨ms, t, hread⟩ := hread
  obtain ⟨ms₁, u, _, _, hfirst, -⟩ := h.returned hs hx hy hread
  exact ⟨ms₁, u, hfirst⟩

/-- The pieces before a call that does not return, and what that call can take, are the longest part of
the input that one call takes. -/
theorem exists_longest (h : Streaming read inv sim) (hs : inv s) {pieces : List (List α)}
    (hpieces : ∀ piece ∈ pieces, piece ≠ []) {ms : List β} {t : σ}
    (hfeed : feed read s pieces = .returned ms t) (ht : inv t) {xs : List α}
    (hxs : ¬Returns read t xs) :
    ∃ ys x zs u, xs = ys ++ x :: zs ∧
      read s (pieces.flatten ++ ys) = .returned (ms ++ salvage read t [] xs) u ∧
      ¬Returns read s (pieces.flatten ++ ys ++ [x]) := by
  have hnil : Returns read t [] := ⟨[], t, h.nil ht⟩
  obtain ⟨ys, x, zs, u, rfl, hread, hx⟩ := salvage_spec hnil hxs
  rw [List.nil_append] at hread hx
  have hcut : ∀ last : List α, feed read s (pieces ++ [last]) = (read t last).prepend ms := by
    intro last
    rw [feed_append_of_returned hfeed, feed_singleton]
  have hmore : ∀ last : List α, last ≠ [] → ∀ piece ∈ pieces ++ [last], piece ≠ [] := by
    intro last hlast piece hpiece
    rcases List.mem_append.mp hpiece with hpiece | hpiece
    · exact hpieces piece hpiece
    · rwa [List.mem_singleton.mp hpiece]
  -- what the call can take, one call on everything takes
  have htaken : ∃ v, read s (pieces.flatten ++ ys) =
      .returned (ms ++ salvage read t [] (ys ++ x :: zs)) v := by
    by_cases hys : ys = []
    · subst hys
      rw [h.nil ht, Reading.returned.injEq] at hread
      obtain ⟨v, hv⟩ := h.returned_of_feed hs hpieces hfeed
      exact ⟨v, by rw [← hread.1, List.append_nil, List.append_nil, hv]⟩
    · have hcut' := hcut ys
      rw [hread, Reading.prepend_returned] at hcut'
      simpa using h.returned_of_feed hs (hmore ys hys) hcut'
  obtain ⟨v, hv⟩ := htaken
  refine ⟨ys, x, zs, v, rfl, hv, ?_⟩
  -- what it cannot take, it cannot take either
  rintro ⟨ns, w, hw⟩
  have hne : ys ++ [x] ≠ [] := by simp
  have hflat : (pieces ++ [ys ++ [x]]).flatten = pieces.flatten ++ ys ++ [x] := by simp
  obtain ⟨w', hfeed', -⟩ :=
    h.feed_of_returned h.refl h.trans (by simp) (hmore _ hne) hs (hflat ▸ hw)
  rw [hcut] at hfeed'
  cases hlast : read t (ys ++ [x]) with
  | returned os v' => exact hx ⟨os, v', hlast⟩
  | threw e v' => simp [hlast] at hfeed'
  | diverged => exact absurd hlast (h.ends _ ht)

/-- The longest part of an input that one call takes is unique. -/
theorem longest_unique (h : Streaming read inv sim) (hs : inv s) {as bs cs ds : List α} {a b : α}
    (heq : as ++ a :: cs = bs ++ b :: ds) (has : Returns read s as)
    (ha : ¬Returns read s (as ++ [a])) (hbs : Returns read s bs)
    (hb : ¬Returns read s (bs ++ [b])) : as = bs := by
  rcases List.append_eq_append_iff.mp heq with ⟨es, rfl, hes⟩ | ⟨es, rfl, hes⟩
  · cases es with
    | nil => exact (List.append_nil as).symm
    | cons e es =>
      obtain ⟨rfl, -⟩ := List.cons.inj hes
      exact absurd (h.returns_of_append hs (by simpa using hbs)) ha
  · cases es with
    | nil => exact List.append_nil bs
    | cons e es =>
      obtain ⟨rfl, -⟩ := List.cons.inj hes
      exact absurd (h.returns_of_append hs (by simpa using has)) hb

/-- The messages returned before a call that does not return, and those lost in it, are the same for
every cutting of the input. -/
theorem append_salvage_eq (h : Streaming read inv sim) (hs : inv s) {ps qs : List (List α)}
    (hps : ∀ piece ∈ ps, piece ≠ []) (hqs : ∀ piece ∈ qs, piece ≠ []) {ms ns : List β} {t u : σ}
    (hp : feed read s ps = .returned ms t) (hq : feed read s qs = .returned ns u) (ht : inv t)
    (hu : inv u) {xs ys xs' ys' : List α} (hx : ¬Returns read t xs) (hy : ¬Returns read u ys)
    (heq : ps.flatten ++ xs ++ xs' = qs.flatten ++ ys ++ ys') :
    ms ++ salvage read t [] xs = ns ++ salvage read u [] ys := by
  obtain ⟨as, a, cs, v, hxs, hread, hthrew⟩ := h.exists_longest hs hps hp ht hx
  obtain ⟨bs, b, ds, w, hys, hread', hthrew'⟩ := h.exists_longest hs hqs hq hu hy
  have hstream : (ps.flatten ++ as) ++ a :: (cs ++ xs') = (qs.flatten ++ bs) ++ b :: (ds ++ ys') := by
    simpa [hxs, hys] using heq
  have hsame : ps.flatten ++ as = qs.flatten ++ bs :=
    h.longest_unique hs hstream ⟨_, _, hread⟩ hthrew ⟨_, _, hread'⟩ hthrew'
  rw [hsame, hread', Reading.returned.injEq] at hread
  exact hread.1.symm

end Streaming

end Chunking
