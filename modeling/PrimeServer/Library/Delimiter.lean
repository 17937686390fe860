import Mathlib.Data.List.Induction
import Mathlib.Tactic.Common

/-!
# Incremental delimiter search

A matcher that looks for a delimiter `d` in a stream of symbols and remembers only how many symbols
of `d` it has just seen. On a mismatch it forgets its progress and goes on after the mismatching
symbol, without looking at that symbol again.

`scan d k as` runs the matcher over `as` from progress `k`. It stops right after the symbol that
completes `d`, or at the end of `as`.

## Main results

* `scan_append_of_complete`, `scan_append_of_incomplete`: a search may be interrupted anywhere and
  resumed from its progress;
* `exists_silent_of_scan`: what was read splits into a part that left no progress and the piece of
  the delimiter seen last;
* `scan_silent_append_delimiter`: a delimiter after such a part is found where it stands.
-/

namespace Delimiter

variable {α : Type*} [DecidableEq α]

/-- Where a search stopped: the progress it had, the symbols it read and those it did not. -/
structure Scan (α : Type*) where
  /-- How many symbols of the delimiter were seen last. -/
  progress : ℕ
  /-- The symbols read. -/
  read : List α
  /-- The symbols left. -/
  rest : List α

/-- Search for `d` from progress `k`. The search is over once all of `d` has been seen. -/
def scan (d : List α) : ℕ → List α → Scan α
  | k, [] => ⟨k, [], []⟩
  | k, a :: as =>
    match d[k]? with
    | none => ⟨k, [], a :: as⟩
    | some c =>
      let next := scan d (if c = a then k + 1 else 0) as
      ⟨next.progress, a :: next.read, next.rest⟩

/-- The progress after one more symbol. -/
def advance (d : List α) (k : ℕ) (a : α) : ℕ :=
  if d[k]? = some a then k + 1 else 0

/-- The matcher reads all of `w` from the start and is back where it began. -/
def Silent (d w : List α) : Prop :=
  scan d 0 w = ⟨0, w, []⟩

@[simp]
theorem scan_nil (d : List α) (k : ℕ) : scan d k [] = ⟨k, [], []⟩ := rfl

/-- A finished search reads nothing more. -/
theorem scan_of_length_le {d : List α} {k : ℕ} (hk : d.length ≤ k) (as : List α) :
    scan d k as = ⟨k, [], as⟩ := by
  cases as with
  | nil => rfl
  | cons a as => simp [scan, hk]

/-- An unfinished search reads the next symbol. -/
theorem scan_cons {d : List α} {k : ℕ} (hk : k < d.length) (a : α) (as : List α) :
    scan d k (a :: as) =
      ⟨(scan d (advance d k a) as).progress, a :: (scan d (advance d k a) as).read,
        (scan d (advance d k a) as).rest⟩ := by
  simp [scan, advance, hk]

/-- Nothing is lost: what was read and what is left make up the input. -/
theorem scan_read_append_rest (d : List α) (k : ℕ) (as : List α) :
    (scan d k as).read ++ (scan d k as).rest = as := by
  induction as generalizing k with
  | nil => rfl
  | cons a as ih =>
    rcases Nat.lt_or_ge k d.length with hk | hk
    · rw [scan_cons hk]
      simpa using ih (advance d k a)
    · rw [scan_of_length_le hk]
      rfl

/-- The number of characters of the delimiter that are matched never exceeds its length. -/
theorem advance_le {d : List α} {k : ℕ} (hk : k < d.length) (a : α) :
    advance d k a ≤ d.length := by
  unfold advance
  split <;> omega

/-- The progress never exceeds the length of the delimiter. -/
theorem progress_scan_le {d : List α} {k : ℕ} (hk : k ≤ d.length) (as : List α) :
    (scan d k as).progress ≤ d.length := by
  induction as generalizing k with
  | nil => exact hk
  | cons a as ih =>
    rcases Nat.lt_or_ge k d.length with hlt | hge
    · rw [scan_cons hlt]
      exact ih (advance_le hlt a)
    · rw [scan_of_length_le hge]
      exact hk

/-- A search that has not found the delimiter has read everything. -/
theorem scan_of_incomplete {d : List α} {k : ℕ} {as : List α}
    (h : (scan d k as).progress < d.length) : scan d k as = ⟨(scan d k as).progress, as, []⟩ := by
  induction as generalizing k with
  | nil => rfl
  | cons a as ih =>
    rcases Nat.lt_or_ge k d.length with hlt | hge
    · rw [scan_cons hlt] at h ⊢
      rw [ih h]
    · rw [scan_of_length_le hge] at h
      exact absurd h (Nat.not_lt.mpr hge)

/-- Input after the delimiter does not change where the search stops. -/
theorem scan_append_of_complete {d : List α} {k : ℕ} {as : List α}
    (h : d.length ≤ (scan d k as).progress) (bs : List α) :
    scan d k (as ++ bs) =
      ⟨(scan d k as).progress, (scan d k as).read, (scan d k as).rest ++ bs⟩ := by
  induction as generalizing k with
  | nil =>
    simp only [scan_nil] at h
    simp [scan_of_length_le h]
  | cons a as ih =>
    rcases Nat.lt_or_ge k d.length with hlt | hge
    · rw [scan_cons hlt] at h
      rw [List.cons_append, scan_cons hlt, ih h, scan_cons hlt]
    · simp [scan_of_length_le hge]

/-- A search that has not found the delimiter goes on from its progress. -/
theorem scan_append_of_incomplete {d : List α} {k : ℕ} {as : List α}
    (h : (scan d k as).progress < d.length) (bs : List α) :
    scan d k (as ++ bs) =
      ⟨(scan d (scan d k as).progress bs).progress,
        as ++ (scan d (scan d k as).progress bs).read,
        (scan d (scan d k as).progress bs).rest⟩ := by
  induction as generalizing k with
  | nil => rfl
  | cons a as ih =>
    rcases Nat.lt_or_ge k d.length with hlt | hge
    · rw [scan_cons hlt] at h
      rw [List.cons_append, scan_cons hlt, ih h, scan_cons hlt]
      rfl
    · rw [scan_of_length_le hge] at h
      exact absurd h (Nat.not_lt.mpr hge)

/-- Reading the delimiter itself completes the search. -/
theorem scan_drop_self (d : List α) (k : ℕ) (hk : k ≤ d.length) (bs : List α) :
    scan d k (d.drop k ++ bs) = ⟨d.length, d.drop k, bs⟩ := by
  induction hn : d.length - k generalizing k with
  | zero =>
    obtain rfl : k = d.length := by omega
    simp [scan_of_length_le]
  | succ n ih =>
    have hlt : k < d.length := by omega
    have hadvance : advance d k d[k] = k + 1 := by simp [advance, hlt]
    rw [List.drop_eq_getElem_cons hlt, List.cons_append, scan_cons hlt, hadvance,
      ih (k + 1) (by omega) (by omega)]

@[simp]
theorem silent_nil (d : List α) : Silent d [] := rfl

/-- The delimiter is found where it stands, after anything that leaves no progress. -/
theorem scan_silent_append_delimiter {d w : List α} (hd : d ≠ []) (hw : Silent d w)
    (bs : List α) : scan d 0 (w ++ (d ++ bs)) = ⟨d.length, w ++ d, bs⟩ := by
  have hpos : 0 < d.length := List.length_pos_iff.mpr hd
  have hself : scan d 0 (d ++ bs) = ⟨d.length, d, bs⟩ := by
    simpa using scan_drop_self d 0 (Nat.zero_le _) bs
  rw [Silent] at hw
  rw [scan_append_of_incomplete (by simpa [hw] using hpos), hw, hself]

/-- Where the delimiter stands right at the start, nothing silent comes before it. -/
theorem Silent.eq_nil_of_prefix {d w : List α} (hd : d ≠ []) (hw : Silent d w) (h : d <+: w ++ d) :
    w = [] := by
  obtain ⟨zs, hzs⟩ := h
  have hfirst : scan d 0 (d ++ zs) = ⟨d.length, d, zs⟩ := by
    simpa using scan_drop_self d 0 (Nat.zero_le _) zs
  have hfound := scan_silent_append_delimiter hd hw []
  rw [List.append_nil, ← hzs, hfirst, Scan.mk.injEq] at hfound
  obtain rfl : zs = [] := by simpa using hfound.2.2
  simpa using congrArg List.length hzs.symm

/-- Reading on after a silent part starts afresh. -/
theorem scan_silent_append {d w : List α} (hd : d ≠ []) (hw : Silent d w) (bs : List α) :
    scan d 0 (w ++ bs) =
      ⟨(scan d 0 bs).progress, w ++ (scan d 0 bs).read, (scan d 0 bs).rest⟩ := by
  have hpos : 0 < d.length := List.length_pos_iff.mpr hd
  rw [Silent] at hw
  rw [scan_append_of_incomplete (by simpa [hw] using hpos), hw]

/-- Silent parts can be joined. -/
theorem Silent.append {d v w : List α} (hd : d ≠ []) (hv : Silent d v) (hw : Silent d w) :
    Silent d (v ++ w) := by
  unfold Silent at *
  rw [scan_silent_append hd hv, hw]

/-- What follows a silent part is silent if the whole is. -/
theorem Silent.of_append {d v w : List α} (hd : d ≠ []) (hv : Silent d v) (h : Silent d (v ++ w)) :
    Silent d w := by
  rw [Silent, scan_silent_append hd hv, Scan.mk.injEq] at h
  obtain ⟨hprogress, hread, hrest⟩ := h
  have hparts : scan d 0 w = ⟨(scan d 0 w).progress, (scan d 0 w).read, (scan d 0 w).rest⟩ := rfl
  rw [Silent, hparts, hprogress, List.append_cancel_left hread, hrest]

/-- A symbol that the delimiter does not contain makes the matcher start afresh. -/
theorem Silent.split {d v w : List α} {a : α} (hd : d ≠ []) (ha : a ∉ d)
    (h : Silent d (v ++ a :: w)) : Silent d (v ++ [a]) ∧ Silent d w := by
  have hpos : 0 < d.length := List.length_pos_iff.mpr hd
  have hlt : (scan d 0 v).progress < d.length := by
    by_contra hge
    rw [Silent, scan_append_of_complete (Nat.not_lt.mp hge), Scan.mk.injEq] at h
    omega
  have hadvance : advance d (scan d 0 v).progress a = 0 := by
    rw [advance, if_neg]
    exact fun hget => ha (List.mem_of_getElem? hget)
  have hfirst : Silent d (v ++ [a]) := by
    rw [Silent, scan_append_of_incomplete hlt, scan_cons hlt, hadvance]
    rfl
  refine ⟨hfirst, hfirst.of_append hd ?_⟩
  rwa [List.append_assoc, List.singleton_append]

/-- A text without any character of the delimiter is silent: wherever it is read, nothing of the delimiter is matched
at its end. -/
theorem silent_of_disjoint {d w : List α} (hd : d ≠ []) (h : ∀ a ∈ w, a ∉ d) : Silent d w := by
  have hpos : 0 < d.length := List.length_pos_iff.mpr hd
  induction w with
  | nil => rfl
  | cons a w ih =>
    obtain ⟨ha, hw⟩ := List.forall_mem_cons.mp h
    have hsingle : Silent d [a] := by
      rw [Silent, scan_cons hpos, advance, if_neg fun hget => ha (List.mem_of_getElem? hget)]
      rfl
    exact hsingle.append hd (ih hw)

/-- Searching what a search has read ends in the same place. -/
theorem scan_read (d : List α) (k : ℕ) (as : List α) :
    scan d k (scan d k as).read = ⟨(scan d k as).progress, (scan d k as).read, []⟩ := by
  induction as generalizing k with
  | nil => rfl
  | cons a as ih =>
    rcases Nat.lt_or_ge k d.length with hlt | hge
    · simp only [scan_cons hlt, ih]
    · simp [scan_of_length_le hge]

/-- When everything was read, what was read ends with the seen piece of the delimiter, and the part
before that piece left no progress. -/
theorem exists_silent_of_scan {d : List α} {k : ℕ} {as : List α}
    (h : scan d 0 as = ⟨k, as, []⟩) : ∃ w, as = w ++ d.take k ∧ Silent d w := by
  induction as using List.reverseRecOn generalizing k with
  | nil =>
    obtain rfl : k = 0 := by simpa [eq_comm] using congrArg Scan.progress h
    exact ⟨[], by simp⟩
  | append_singleton as a ih =>
    -- the search was still going on when the last symbol was read
    have hlt : (scan d 0 as).progress < d.length := by
      by_contra hge
      have hread := congrArg Scan.read h
      rw [scan_append_of_complete (Nat.not_lt.mp hge)] at hread
      have hlen := congrArg List.length (scan_read_append_rest d 0 as)
      simp only at hread
      rw [List.length_append, hread] at hlen
      simp at hlen
      omega
    have hlast := scan_append_of_incomplete hlt [a]
    rw [h, scan_cons hlt] at hlast
    obtain rfl : k = advance d (scan d 0 as).progress a := congrArg Scan.progress hlast
    by_cases hmatch : d[(scan d 0 as).progress]? = some a
    · obtain ⟨w, hw, hsilent⟩ := ih (scan_of_incomplete hlt)
      refine ⟨w, ?_, hsilent⟩
      obtain ⟨hk, hget⟩ := List.getElem?_eq_some_iff.mp hmatch
      rw [advance, if_pos hmatch, List.take_add_one, List.getElem?_eq_getElem hk, hget,
        Option.toList_some, ← List.append_assoc, ← hw]
    · refine ⟨as ++ [a], by simp [advance, hmatch], ?_⟩
      rw [Silent, h, advance, if_neg hmatch]

/-- The token before a delimiter that was found in pieces is silent. -/
theorem silent_take_of_scan {d buffer as : List α} {k : ℕ} (hbuffer : scan d 0 buffer = ⟨k, buffer, []⟩)
    (hk : k < d.length) (hcomplete : d.length ≤ (scan d k as).progress) :
    Silent d ((buffer ++ (scan d k as).read).take
      ((buffer ++ (scan d k as).read).length - (scan d k as).progress)) := by
  have hprogress : (scan d k as).progress = d.length :=
    Nat.le_antisymm (progress_scan_le (Nat.le_of_lt hk) as) hcomplete
  have hwhole : scan d 0 (buffer ++ (scan d k as).read) =
      ⟨d.length, buffer ++ (scan d k as).read, []⟩ := by
    rw [scan_append_of_incomplete (by simpa [hbuffer] using hk), hbuffer]
    simp only [scan_read, hprogress]
  obtain ⟨w, hw, hsilent⟩ := exists_silent_of_scan hwhole
  rw [List.take_length] at hw
  rw [hprogress, hw, List.length_append, Nat.add_sub_cancel, List.take_left']
  · exact hsilent
  · rfl

/-- While the delimiter is not found, the piece of it that was seen last is what was read last. -/
theorem take_progress_suffix {d buffer as : List α} {k : ℕ} (hbuffer : d.take k <:+ buffer)
    (h : (scan d k as).progress < d.length) : d.take (scan d k as).progress <:+ buffer ++ as := by
  induction as generalizing k buffer with
  | nil => simpa using hbuffer
  | cons a as ih =>
    rcases Nat.lt_or_ge k d.length with hlt | hge
    · have hread : d.take (advance d k a) <:+ buffer ++ [a] := by
        unfold advance
        split_ifs with hmatch
        · -- the symbol goes on with the delimiter
          rw [List.take_add_one, hmatch, Option.toList_some]
          exact (List.suffix_append_inj_of_length_eq rfl).mpr ⟨hbuffer, rfl⟩
        · rw [List.take_zero]
          exact List.nil_suffix
      rw [scan_cons hlt] at h ⊢
      simpa using ih hread h
    · rw [scan_of_length_le hge] at h
      exact absurd h (Nat.not_lt.mpr hge)

/-! ### Skipping before the search -/

/-- Skip `n` symbols and search from there. What was read includes what was skipped. -/
def skipScan (d : List α) (n k : ℕ) (as : List α) : Scan α :=
  let search := scan d k (as.drop n)
  ⟨search.progress, as.take n ++ search.read, search.rest⟩

/-- All symbols to skip were there, and the delimiter was found after them. -/
def SkipComplete (d : List α) (n k : ℕ) (as : List α) : Prop :=
  n ≤ as.length ∧ d.length ≤ (skipScan d n k as).progress

instance (d : List α) (n k : ℕ) (as : List α) : Decidable (SkipComplete d n k as) := by
  unfold SkipComplete
  infer_instance

/-- With nothing to skip, the search begins at once. -/
@[simp]
theorem skipScan_zero (d : List α) (k : ℕ) (as : List α) : skipScan d 0 k as = scan d k as := rfl

/-- What is read and what is left over are the text. -/
theorem skipScan_read_append_rest (d : List α) (n k : ℕ) (as : List α) :
    (skipScan d n k as).read ++ (skipScan d n k as).rest = as := by
  rw [skipScan, List.append_assoc, scan_read_append_rest, List.take_append_drop]

/-- Searching what a search has read ends in the same place. -/
theorem skipScan_read {n : ℕ} {as : List α} (h : n ≤ as.length) (d : List α) (k : ℕ) :
    skipScan d n k (skipScan d n k as).read =
      ⟨(skipScan d n k as).progress, (skipScan d n k as).read, []⟩ := by
  have hlength : (as.take n).length = n := List.length_take_of_le h
  have hdrop : (as.take n ++ (scan d k (as.drop n)).read).drop n = (scan d k (as.drop n)).read :=
    List.drop_left' hlength
  have htake : (as.take n ++ (scan d k (as.drop n)).read).take n = as.take n :=
    List.take_left' hlength
  simp only [skipScan, hdrop, htake, scan_read]

/-- While symbols are still to be skipped nothing is searched. -/
theorem skipScan_of_length_lt {n : ℕ} {as : List α} (h : as.length < n) (d : List α) (k : ℕ) :
    skipScan d n k as = ⟨k, as, []⟩ := by
  simp [skipScan, List.drop_of_length_le (Nat.le_of_lt h), List.take_of_length_le (Nat.le_of_lt h)]

/-- An unfinished search has read everything. -/
theorem skipScan_of_incomplete {d : List α} {n k : ℕ} {as : List α}
    (h : ¬SkipComplete d n k as) :
    skipScan d n k as = ⟨(skipScan d n k as).progress, as, []⟩ := by
  rcases Nat.lt_or_ge as.length n with hlt | hge
  · rw [skipScan_of_length_lt hlt]
  · have hprogress : (scan d k (as.drop n)).progress < d.length := by
      by_contra hge'
      exact h ⟨hge, Nat.not_lt.mp hge'⟩
    rw [skipScan, scan_of_incomplete hprogress]
    simp

/-- Input after the delimiter does not change where the search stops. -/
theorem skipScan_append_of_complete {d : List α} {n k : ℕ} {as : List α}
    (h : SkipComplete d n k as) (bs : List α) :
    skipScan d n k (as ++ bs) =
      ⟨(skipScan d n k as).progress, (skipScan d n k as).read, (skipScan d n k as).rest ++ bs⟩ := by
  obtain ⟨hn, hd⟩ := h
  rw [skipScan, List.drop_append_of_le_length hn, List.take_append_of_le_length hn,
    scan_append_of_complete hd, skipScan]

/-- An unfinished search goes on from its progress, after the symbols still to be skipped. -/
theorem skipScan_append_of_incomplete {d : List α} {n k : ℕ} {as : List α}
    (h : ¬SkipComplete d n k as) (bs : List α) :
    skipScan d n k (as ++ bs) =
      ⟨(skipScan d (n - as.length) (skipScan d n k as).progress bs).progress,
        as ++ (skipScan d (n - as.length) (skipScan d n k as).progress bs).read,
        (skipScan d (n - as.length) (skipScan d n k as).progress bs).rest⟩ := by
  rcases Nat.lt_or_ge as.length n with hlt | hge
  · rw [skipScan_of_length_lt hlt]
    simp [skipScan, List.drop_append, List.take_append,
      List.drop_of_length_le (Nat.le_of_lt hlt), List.take_of_length_le (Nat.le_of_lt hlt)]
  · have hprogress : (scan d k (as.drop n)).progress < d.length := by
      by_contra hge'
      exact h ⟨hge, Nat.not_lt.mp hge'⟩
    rw [skipScan, List.drop_append_of_le_length hge, List.take_append_of_le_length hge,
      scan_append_of_incomplete hprogress, Nat.sub_eq_zero_of_le hge]
    simp [skipScan, ← List.append_assoc]

/-- Progress is made by reading symbols only. -/
theorem progress_scan_le_add (d : List α) (k : ℕ) (as : List α) :
    (scan d k as).progress ≤ k + (scan d k as).read.length := by
  induction as generalizing k with
  | nil => simp
  | cons a as ih =>
    rcases Nat.lt_or_ge k d.length with hlt | hge
    · have hstep : advance d k a ≤ k + 1 := by
        unfold advance
        split <;> omega
      have hrest := ih (advance d k a)
      simp only [scan_cons hlt, List.length_cons]
      omega
    · rw [scan_of_length_le hge]
      exact Nat.le_add_right _ _

/-- The delimiter is complete with the last symbol that was read. -/
theorem skipComplete_read {d : List α} {n k : ℕ} {as : List α} (h : SkipComplete d n k as) :
    SkipComplete d n k (skipScan d n k as).read := by
  refine ⟨?_, ?_⟩
  · rw [skipScan, List.length_append, List.length_take_of_le h.1]
    exact Nat.le_add_right _ _
  · rw [skipScan_read h.1]
    exact h.2

/-- Completing a search that was not complete takes at least one symbol. -/
theorem skipScan_read_ne_nil {d : List α} {n k : ℕ} {as : List α} (hk : k < d.length)
    (h : SkipComplete d n k as) : (skipScan d n k as).read ≠ [] := by
  intro hnil
  have hprogress := progress_scan_le_add d k (as.drop n)
  have hread : (scan d k (as.drop n)).read = [] := (List.append_eq_nil_iff.mp hnil).2
  have hcomplete : d.length ≤ (scan d k (as.drop n)).progress := h.2
  rw [hread, List.length_nil] at hprogress
  omega

/-- Once the delimiter is found, it does not matter what comes behind it. -/
theorem skipComplete_append_of_complete {d : List α} {n k : ℕ} {as : List α}
    (h : SkipComplete d n k as) (bs : List α) : SkipComplete d n k (as ++ bs) := by
  refine ⟨Nat.le_trans h.1 (by simp), ?_⟩
  rw [skipScan_append_of_complete h]
  exact h.2

/-- Whether the delimiter is found does not depend on where the search was interrupted. -/
theorem skipComplete_append_of_incomplete {d : List α} {n k : ℕ} {as : List α}
    (h : ¬SkipComplete d n k as) (bs : List α) :
    SkipComplete d n k (as ++ bs) ↔
      SkipComplete d (n - as.length) (skipScan d n k as).progress bs := by
  rw [SkipComplete, SkipComplete, skipScan_append_of_incomplete h, List.length_append]
  constructor <;> rintro ⟨hn, hd⟩ <;> exact ⟨by omega, hd⟩

/-! ### A token in pieces -/

section Announced

variable {d buffer as : List α} {n k : ℕ} (hbuffer : scan d 0 (buffer.drop n) = ⟨k, buffer.drop n, []⟩)
  (hk : k < d.length)

include hbuffer hk

/-- While the delimiter is not found after the announced symbols, all symbols after them are searched. -/
theorem scan_drop_of_incomplete (hc : ¬SkipComplete d (n - buffer.length) k as) :
    scan d 0 ((buffer ++ as).drop n) =
      ⟨(skipScan d (n - buffer.length) k as).progress, (buffer ++ as).drop n, []⟩ := by
  have hprogress : (scan d k (as.drop (n - buffer.length))).progress < d.length := by
    rcases Nat.lt_or_ge as.length (n - buffer.length) with hlt | hge
    · rw [List.drop_of_length_le (Nat.le_of_lt hlt), scan_nil]
      exact hk
    · by_contra hd
      exact hc ⟨hge, Nat.not_lt.mp hd⟩
  have hlt : (scan d 0 (buffer.drop n)).progress < d.length := by rw [hbuffer]; exact hk
  rw [List.drop_append, scan_append_of_incomplete hlt, hbuffer]
  simp only
  rw [scan_of_incomplete hprogress]
  rfl

/-- A token with announced symbols at its start that is found in pieces: after those symbols there is no
other delimiter than the one at its end. -/
theorem exists_silent_of_skipScan (hc : SkipComplete d (n - buffer.length) k as) :
    ∃ data extra, buffer ++ (skipScan d (n - buffer.length) k as).read = data ++ extra ++ d ∧
      data.length = n ∧ Silent d extra := by
  obtain ⟨hn, hd⟩ := hc
  have hdrop : (buffer ++ as.take (n - buffer.length)).drop n = buffer.drop n := by
    rw [List.drop_append, List.drop_take, Nat.sub_self, List.take_zero, List.append_nil]
  have hlength : ((buffer ++ as.take (n - buffer.length)).take n).length = n := by
    rw [List.length_take_of_le]
    rw [List.length_append, List.length_take_of_le hn]
    omega
  have hprogress : (scan d k (as.drop (n - buffer.length))).progress = d.length :=
    Nat.le_antisymm (progress_scan_le (Nat.le_of_lt hk) _) hd
  have hlt : (scan d 0 (buffer.drop n)).progress < d.length := by rw [hbuffer]; exact hk
  -- from the announced symbols on, the pieces were searched as if they had come at once
  have hwhole : scan d 0 (buffer.drop n ++ (scan d k (as.drop (n - buffer.length))).read) =
      ⟨d.length, buffer.drop n ++ (scan d k (as.drop (n - buffer.length))).read, []⟩ := by
    rw [scan_append_of_incomplete hlt, hbuffer]
    simp only [scan_read, hprogress]
  obtain ⟨extra, hextra, hsilent⟩ := exists_silent_of_scan hwhole
  rw [List.take_length] at hextra
  refine ⟨(buffer ++ as.take (n - buffer.length)).take n, extra, ?_, hlength, hsilent⟩
  calc
    buffer ++ (skipScan d (n - buffer.length) k as).read =
        (buffer ++ as.take (n - buffer.length)) ++ (scan d k (as.drop (n - buffer.length))).read := by
      rw [skipScan, List.append_assoc]
    _ = (buffer ++ as.take (n - buffer.length)).take n ++
          (buffer.drop n ++ (scan d k (as.drop (n - buffer.length))).read) := by
      rw [← hdrop, ← List.append_assoc, List.take_append_drop]
    _ = (buffer ++ as.take (n - buffer.length)).take n ++ extra ++ d := by
      rw [hextra, List.append_assoc]

end Announced

end Delimiter
