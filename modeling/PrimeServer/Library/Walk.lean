import Mathlib.Data.List.Basic
import Mathlib.Data.List.Infix
import Mathlib.Tactic.Common

/-!
# Walking in a tree of directories

A directory is the list of names that lead to it from the root of the tree. The parts of a path are
moves: stay, go up, go down. At the root of the tree going up stays there.

## Main results

* `Walk.walk_of_up_notMem`: a walk that never goes up ends below where it began;
* `Walk.prefix_dropLast_append_iff`: after a step up, the way down that leads back.
-/

namespace Walk

variable {ν : Type*}

/-- One part of a path. -/
inductive Move (ν : Type*) where
  /-- A dot, or nothing between two slashes. -/
  | stay
  /-- Two dots. -/
  | up
  /-- The name of an entry. -/
  | down (name : ν)
  deriving DecidableEq

/-- Where moves lead from a directory. -/
def walk : List ν → List (Move ν) → List ν
  | dir, [] => dir
  | dir, .stay :: moves => walk dir moves
  | dir, .up :: moves => walk dir.dropLast moves
  | dir, .down name :: moves => walk (dir ++ [name]) moves

/-- The names on the way down. -/
def names : List (Move ν) → List ν
  | [] => []
  | .down name :: moves => name :: names moves
  | .stay :: moves | .up :: moves => names moves

/-- A walk can be taken in two parts. -/
theorem walk_append (dir : List ν) (moves moves' : List (Move ν)) :
    walk dir (moves ++ moves') = walk (walk dir moves) moves' := by
  induction moves generalizing dir with
  | nil => rfl
  | cons move moves ih => cases move <;> exact ih _

/-- A walk that does not go up only goes down. -/
theorem walk_of_up_notMem {moves : List (Move ν)} (h : .up ∉ moves) (dir : List ν) :
    walk dir moves = dir ++ names moves := by
  induction moves generalizing dir with
  | nil => simp [walk, names]
  | cons move moves ih =>
    rw [List.mem_cons, not_or] at h
    cases move with
    | stay => exact ih h.2 dir
    | up => exact absurd rfl h.1
    | down name => rw [walk, ih h.2, names, List.append_assoc, List.singleton_append]

/-- Without a step up, a walk stays below the place where it begins. -/
theorem prefix_walk_of_up_notMem {moves : List (Move ν)} (h : .up ∉ moves) (dir : List ν) :
    dir <+: walk dir moves := by
  rw [walk_of_up_notMem h]
  exact List.prefix_append dir _

/-- Below a directory there are only its own entries. -/
theorem prefix_append_cons_iff {dir rest : List ν} {a b : ν} :
    dir ++ [a] <+: dir ++ b :: rest ↔ a = b := by
  rw [List.prefix_append_right_inj, List.cons_prefix_cons]
  exact and_iff_left List.nil_prefix

/-- After a step up, one comes back by the name of the directory. -/
theorem prefix_dropLast_append_iff {dir rest : List ν} :
    dir <+: dir.dropLast ++ rest ↔ dir.getLast?.toList <+: rest := by
  rcases List.eq_nil_or_concat dir with rfl | ⟨parent, name, rfl⟩
  · simp
  · rw [List.concat_eq_append, List.dropLast_concat, List.getLast?_concat, Option.toList_some,
      List.prefix_append_right_inj]

/-! ### Parts of a path -/

variable [BEq ν] {sep : ν}

/-- The parts of two texts that are put together: the last part of the first goes on with the first part
of the second. -/
theorem splitOn_append {xs ys last first : List ν} {init rest : List (List ν)}
    (hxs : xs.splitOn sep = init ++ [last]) (hys : ys.splitOn sep = first :: rest) :
    (xs ++ ys).splitOn sep = init ++ (last ++ first) :: rest := by
  induction xs generalizing init last with
  | nil =>
    rw [List.splitOn_nil] at hxs
    obtain ⟨rfl, rfl⟩ : init = [] ∧ last = [] := by
      cases init with
      | nil => simpa using hxs
      | cons => simp at hxs
    exact hys
  | cons x xs ih =>
    rw [List.splitOn_cons_eq_if_modifyHead] at hxs
    rw [List.cons_append, List.splitOn_cons_eq_if_modifyHead]
    by_cases hx : x == sep
    · rw [if_pos hx] at hxs ⊢
      cases init with
      | nil =>
        -- a separator stands in front of the last part
        have hne := List.splitOn_ne_nil sep xs
        simp_all
      | cons part init =>
        obtain ⟨rfl, hrest⟩ := List.cons.inj hxs
        rw [ih hrest]
        rfl
    · rw [if_neg hx] at hxs ⊢
      cases init with
      | nil =>
        -- the first text is a single part: `x` goes in front of it
        obtain ⟨last', hsplit, rfl⟩ : ∃ last', xs.splitOn sep = [last'] ∧ x :: last' = last := by
          cases hsplit : xs.splitOn sep with
          | nil => exact absurd hsplit (List.splitOn_ne_nil sep xs)
          | cons last' parts => simp_all
        rw [ih (show xs.splitOn sep = [] ++ [last'] from hsplit)]
        rfl
      | cons part init =>
        obtain ⟨part', hsplit, rfl⟩ :
            ∃ part', xs.splitOn sep = part' :: (init ++ [last]) ∧ x :: part' = part := by
          cases hsplit : xs.splitOn sep with
          | nil => exact absurd hsplit (List.splitOn_ne_nil sep xs)
          | cons part' parts => simp_all
        rw [ih (show xs.splitOn sep = (part' :: init) ++ [last] from hsplit)]
        rfl

/-- The first part of a text is a beginning of it, and the others are inside it. -/
theorem prefix_and_infix_of_splitOn {xs first : List ν} {rest : List (List ν)}
    (h : xs.splitOn sep = first :: rest) : first <+: xs ∧ ∀ part ∈ rest, part <:+: xs := by
  induction xs generalizing first rest with
  | nil =>
    rw [List.splitOn_nil] at h
    obtain ⟨rfl, rfl⟩ := List.cons.inj h
    simp
  | cons x xs ih =>
    obtain ⟨first', rest', hsplit⟩ := List.exists_cons_of_ne_nil (List.splitOn_ne_nil sep xs)
    obtain ⟨hfirst, hrest⟩ := ih hsplit
    rw [List.splitOn_cons_eq_if_modifyHead, hsplit] at h
    by_cases hx : x == sep
    · rw [if_pos hx] at h
      obtain ⟨rfl, rfl⟩ := List.cons.inj h
      refine ⟨List.nil_prefix, List.forall_mem_cons.mpr ⟨?_, fun part hpart => ?_⟩⟩
      · exact List.infix_cons hfirst.isInfix
      · exact List.infix_cons (hrest part hpart)
    · rw [if_neg hx, List.modifyHead_cons] at h
      obtain ⟨rfl, rfl⟩ := List.cons.inj h
      exact ⟨List.cons_prefix_cons.mpr ⟨rfl, hfirst⟩,
        fun part hpart => List.infix_cons (hrest part hpart)⟩

end Walk
