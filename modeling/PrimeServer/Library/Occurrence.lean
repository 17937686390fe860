import Mathlib.Data.List.DropRight
import Mathlib.Data.List.Infix
import Mathlib.Data.Nat.Find
import PrimeServer.Library.Delimiter

/-!
# The first occurrence of a delimiter

The matcher of `Delimiter.scan` against what it is meant to do: to stop right after the first occurrence of
the delimiter in its input.

## Main results

* `exists_of_complete`: what the matcher finds is an occurrence, with a silent part in front of it;
* `FirstAfter.scan_iff_silent`: it finds the first occurrence exactly if what stands in front of that is
  silent;
* `FirstAfter.silent_singleton`: this is always so for a delimiter of one symbol;
* `FirstAfter.silent_pair_iff`: for a delimiter of two symbols it depends on how often the first of them stands in
  front of the occurrence.
-/

namespace Delimiter

variable {α : Type*}

/-- `d` occurs in `as` for the first time right after `w`. -/
def FirstAfter (d w as : List α) : Prop :=
  w ++ d <+: as ∧ ∀ v, v ++ d <+: as → w.length ≤ v.length

namespace FirstAfter

variable {d v w as bs : List α}

/-- What ends with the first occurrence has an occurrence. -/
theorem occurs (h : FirstAfter d w as) : d <:+: as :=
  (List.suffix_append w d).isInfix.trans h.1.isInfix

/-- There is only one first occurrence. -/
theorem unique (hv : FirstAfter d v as) (hw : FirstAfter d w as) : v = w := by
  have hlength : v.length = w.length := Nat.le_antisymm (hv.2 w hw.1) (hw.2 v hv.1)
  have hstart : v <+: w := List.prefix_of_prefix_length_le
    ((List.prefix_append v d).trans hv.1) ((List.prefix_append w d).trans hw.1) (Nat.le_of_eq hlength)
  exact hstart.eq_of_length hlength

/-- More input behind the occurrence does not matter. -/
theorem extend (h : FirstAfter d w as) (hab : as <+: bs) : FirstAfter d w bs := by
  refine ⟨h.1.trans hab, fun v hv => ?_⟩
  by_contra hlt
  -- an earlier occurrence would lie within `as`
  have hlength := h.1.length_le
  rw [List.length_append] at hlength
  refine hlt (h.2 v (List.prefix_of_prefix_length_le hv hab ?_))
  rw [List.length_append]
  omega

/-- Nothing but input up to the occurrence matters. -/
theorem restrict (h : FirstAfter d w bs) (hab : as <+: bs) (hlength : (w ++ d).length ≤ as.length) :
    FirstAfter d w as :=
  ⟨List.prefix_of_prefix_length_le h.1 hab hlength, fun v hv => h.2 v (hv.trans hab)⟩

/-- What stands in front of the first occurrence does not contain another one. -/
theorem not_occurs (h : FirstAfter d w as) (hd : d ≠ []) : ¬d <:+: w := by
  rintro ⟨u, t, rfl⟩
  have hstart : u ++ d <+: as :=
    (List.prefix_append (u ++ d) t).trans ((List.prefix_append (u ++ d ++ t) d).trans h.1)
  have hle := h.2 u hstart
  have hpos := List.length_pos_iff.mpr hd
  simp only [List.length_append] at hle
  omega

end FirstAfter

/-- What occurs has a first occurrence. -/
theorem exists_firstAfter {d as : List α} (h : d <:+: as) : ∃ w, FirstAfter d w as := by
  classical
  obtain ⟨u, t, rfl⟩ := h
  have hsome : ∃ n, ∃ w : List α, w.length = n ∧ w ++ d <+: u ++ d ++ t :=
    ⟨u.length, u, rfl, List.prefix_append _ _⟩
  obtain ⟨w, hlength, hstart⟩ := Nat.find_spec hsome
  exact ⟨w, hstart, fun v hv => hlength ▸ Nat.find_min' hsome ⟨v, rfl, hv⟩⟩

/-- Of pieces in a row, one reaches the `n`-th symbol. -/
theorem exists_piece_reaching {pieces : List (List α)} {n : ℕ} (hpos : 0 < n)
    (hn : n ≤ pieces.flatten.length) :
    ∃ earlier piece later, pieces = earlier ++ piece :: later ∧ earlier.flatten.length < n ∧
      n ≤ (earlier.flatten ++ piece).length := by
  induction pieces generalizing n with
  | nil => exact absurd (hpos.trans_le hn) (by simp)
  | cons first pieces ih =>
    by_cases hfirst : n ≤ first.length
    · exact ⟨[], first, pieces, rfl, hpos, hfirst⟩
    · -- it lies in the other pieces, nearer to their start by the length of the first one
      rw [List.flatten_cons, List.length_append] at hn
      obtain ⟨earlier, piece, later, rfl, hbefore, hreach⟩ :=
        ih (n := n - first.length) (by omega) (by omega)
      refine ⟨first :: earlier, piece, later, rfl, ?_, ?_⟩
      · rw [List.flatten_cons, List.length_append]
        omega
      · rw [List.flatten_cons, List.append_assoc, List.length_append]
        omega

variable [DecidableEq α]

/-- What the matcher finds is an occurrence, with a silent part in front of it. -/
theorem exists_of_complete {d as : List α} (h : d.length ≤ (scan d 0 as).progress) :
    ∃ w rest, scan d 0 as = ⟨d.length, w ++ d, rest⟩ ∧ w ++ d ++ rest = as ∧ Silent d w := by
  have hprogress : (scan d 0 as).progress = d.length :=
    Nat.le_antisymm (progress_scan_le (Nat.zero_le _) as) h
  have hread := scan_read d 0 as
  rw [hprogress] at hread
  obtain ⟨w, hw, hsilent⟩ := exists_silent_of_scan hread
  rw [List.take_length] at hw
  refine ⟨w, (scan d 0 as).rest, ?_, ?_, hsilent⟩
  · rw [← hw, ← hprogress]
  · rw [← hw]
    exact scan_read_append_rest d 0 as

namespace FirstAfter

variable {d w as : List α}

/-- The matcher finds the first occurrence exactly if what stands in front of it is silent. -/
theorem scan_iff_silent (h : FirstAfter d w as) (hd : d ≠ []) :
    (∃ rest, scan d 0 as = ⟨d.length, w ++ d, rest⟩) ↔ Silent d w := by
  constructor
  · rintro ⟨rest, hscan⟩
    have hcomplete : d.length ≤ (scan d 0 as).progress := by rw [hscan]
    obtain ⟨v, rest', hscan', -, hsilent⟩ := exists_of_complete hcomplete
    rw [hscan, Scan.mk.injEq] at hscan'
    rwa [List.append_cancel_right hscan'.2.1]
  · intro hsilent
    obtain ⟨rest, rfl⟩ := h.1
    refine ⟨rest, ?_⟩
    rw [List.append_assoc]
    exact scan_silent_append_delimiter hd hsilent rest

/-- A delimiter of one symbol is always found. -/
theorem silent_singleton {c : α} (h : FirstAfter [c] w as) : Silent [c] w := by
  refine silent_of_disjoint (List.cons_ne_nil c []) fun a ha hac => ?_
  obtain rfl := List.mem_singleton.mp hac
  exact h.not_occurs (List.cons_ne_nil a []) ((List.singleton_infix_iff a w).mpr ha)

end FirstAfter

/-- What has a last run of `a` ends with `a`. -/
theorem exists_concat_of_rtakeWhile {a : α} {w : List α}
    (h : w.rtakeWhile (· = a) ≠ []) : ∃ v, w = v ++ [a] := by
  rcases List.eq_nil_or_concat' w with rfl | ⟨v, x, rfl⟩
  · exact absurd (List.rtakeWhile_nil _) h
  · by_cases hx : x = a
    · exact ⟨v, by rw [hx]⟩
    · exact absurd (List.rtakeWhile_concat_neg (· = a) v x (by simpa using hx)) h

/-- The matcher for two symbols takes every other one of the first symbols that stand together. -/
theorem scan_pair {a b : α} (hab : a ≠ b) {w : List α} (hw : ¬[a, b] <:+: w) :
    scan [a, b] 0 w = ⟨(w.rtakeWhile (· = a)).length % 2, w, []⟩ := by
  induction w using List.reverseRecOn with
  | nil => rfl
  | append_singleton w x ih =>
    have hscan := ih fun h => hw (h.trans (List.prefix_append w [x]).isInfix)
    have hprogress : (scan [a, b] 0 w).progress < [a, b].length := by
      rw [hscan]
      exact Nat.mod_lt _ Nat.two_pos
    rw [scan_append_of_incomplete hprogress, hscan]
    simp only
    rcases Nat.mod_two_eq_zero_or_one (w.rtakeWhile (· = a)).length with heven | hodd
    · -- the next symbol of the delimiter is the first one
      rw [heven, scan_cons Nat.two_pos]
      by_cases hx : x = a
      · rw [List.rtakeWhile_concat_pos _ _ _ (by simpa using hx), List.length_append, Nat.add_mod, heven]
        simp [advance, hx]
      · rw [List.rtakeWhile_concat_neg _ _ _ (by simpa using hx)]
        simp [advance, Ne.symm hx]
    · -- it is the second one, which does not come here
      have hxb : x ≠ b := by
        rintro rfl
        have hne : w.rtakeWhile (· = a) ≠ [] := fun hnil => by
          rw [hnil, List.length_nil] at hodd
          exact absurd hodd (by decide)
        obtain ⟨v, rfl⟩ := exists_concat_of_rtakeWhile hne
        exact hw ⟨v, [], by simp⟩
      rw [hodd, scan_cons Nat.one_lt_two]
      by_cases hx : x = a
      · rw [List.rtakeWhile_concat_pos _ _ _ (by simpa using hx), List.length_append, Nat.add_mod, hodd]
        simp [advance, Ne.symm hxb]
      · rw [List.rtakeWhile_concat_neg _ _ _ (by simpa using hx)]
        simp [advance, Ne.symm hxb]

/-- A delimiter of two symbols is found if the first of them stands an even number of times in front of it. -/
theorem FirstAfter.silent_pair_iff {a b : α} (hab : a ≠ b) {w as : List α} (h : FirstAfter [a, b] w as) :
    Silent [a, b] w ↔ (w.rtakeWhile (· = a)).length % 2 = 0 := by
  rw [Silent, scan_pair hab (h.not_occurs (List.cons_ne_nil a [b])), Scan.mk.injEq]
  simp

end Delimiter
