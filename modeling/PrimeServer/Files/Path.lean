import PrimeServer.Http.Percent
import PrimeServer.Library.Walk

/-!
# Paths of files

`disk_result` makes runs of dots in the path of a request slashes, and puts the path behind its root.

## Main results

* `Disk.sanitised_eq`: the loop over the dots ends, and turns into a slash each dot that is next to another;
* `Disk.staysInside_iff`: where the path that is handed to the file system leads below the root.
-/

namespace PrimeServer

/-- `std::string::find` of one character from a position on: where it stands. -/
def findFrom (c : UInt8) (s : Bytes) (pos : ℕ) : Option ℕ :=
  (splitAt c (s.drop pos)).map fun (before, _) => pos + before.length

namespace Disk

/-- The loop of `disk_result` over the dots of a path, for at most `fuel` turns: the dot before is at `p`,
this one is at `i`. -/
def dotLoop : ℕ → Bytes → ℕ → Option ℕ → Option Bytes
  | _, path, _, none => some path
  | 0, _, _, some _ => none
  | fuel + 1, path, p, some i =>
    let path := if p + 1 = i then (path.set i (byte '/')).set p (byte '/') else path
    dotLoop fuel path i (findFrom (byte '.') path (i + 1))

/-- The path after the loop, which looks at one dot more in each turn. -/
def sanitised (path : Bytes) : Option Bytes :=
  dotLoop (path.length + 1) path path.length (findFrom (byte '.') path 0)

/-- The path that `disk_result` hands to the file system. -/
def canonical (root path : Bytes) : Option Bytes := (sanitised path).map (root ++ ·)

/-! ### Dots -/

/-- Whether a character is a dot, or `b` where there is none. -/
def isDot (b : Bool) : Option UInt8 → Bool
  | none => b
  | some c => c = byte '.'

/-- The text with a slash for each dot that is next to another. The flags say whether a dot stands before
the text, and behind it. -/
def collapse (before after : Bool) : Bytes → Bytes
  | [] => []
  | c :: s =>
    (if c = byte '.' ∧ (before ∨ isDot after s.head?) then byte '/' else c) ::
      collapse (c = byte '.') after s

/-- Collapsing dots replaces bytes one by one, and neither adds nor drops any. -/
@[simp]
theorem length_collapse (before after : Bool) (s : Bytes) :
    (collapse before after s).length = s.length := by
  induction s generalizing before with
  | nil => rfl
  | cons c s ih => simp [collapse, ih]

/-- A path that is not empty has a last byte. -/
theorem exists_getLast?_eq_some {s : Bytes} (h : s ≠ []) : ∃ c, s.getLast? = some c :=
  Option.ne_none_iff_exists'.mp (List.getLast?_eq_none_iff.not.mpr h)

/-- A text without dots does not begin with one. -/
theorem isDot_head?_of_notMem {s : Bytes} (h : byte '.' ∉ s) : isDot false s.head? = false := by
  cases s with
  | nil => rfl
  | cons c s =>
    have hc : c ≠ byte '.' := fun hc => h (hc ▸ List.mem_cons_self)
    simp [isDot, hc]

/-- Dots are collapsed in two parts of a path separately, if each part knows whether it meets a dot of the other. -/
theorem collapse_append (before after : Bool) (s t : Bytes) :
    collapse before after (s ++ t) =
      collapse before (isDot after t.head?) s ++ collapse (isDot before s.getLast?) after t := by
  induction s generalizing before with
  | nil => rfl
  | cons c s ih =>
    rw [List.cons_append, collapse, ih, collapse, List.cons_append]
    cases s with
    | nil => rfl
    | cons d s =>
      obtain ⟨e, he⟩ := exists_getLast?_eq_some (List.cons_ne_nil d s)
      rw [List.getLast?_cons_cons, he]
      rfl

/-- A text without dots stays as it is. -/
theorem collapse_of_notMem {s : Bytes} (h : byte '.' ∉ s) (before after : Bool) :
    collapse before after s = s := by
  induction s generalizing before with
  | nil => rfl
  | cons c s ih =>
    rw [List.mem_cons, not_or] at h
    rw [collapse, if_neg fun hc => h.1 hc.1.symm, ih h.2]

/-- Before a dot, a text that ends in a dot ends in a slash. -/
theorem collapse_concat_dot (after : Bool) (s : Bytes) :
    ∃ c, collapse false after (s ++ [byte '.']) = collapse false true s ++ [c] ∧
      (after → c = byte '/') := by
  refine ⟨_, collapse_append false after s [byte '.'], fun hafter => ?_⟩
  simp [isDot, hafter]

/-- The next dot is right behind the last one: both are slashes. -/
theorem collapse_dot_dot (s : Bytes) :
    ∃ u c, collapse false false (s ++ [byte '.']) = u ++ [c] ∧
      collapse false false (s ++ [byte '.'] ++ [byte '.']) = u ++ [byte '/'] ++ [byte '/'] ∧
        u.length = s.length := by
  obtain ⟨c, hc, -⟩ := collapse_concat_dot false s
  obtain ⟨d, hd, hslash⟩ := collapse_concat_dot true s
  refine ⟨collapse false true s, c, hc, ?_, length_collapse _ _ s⟩
  rw [collapse_append, List.getLast?_concat]
  have hhead : isDot false [byte '.'].head? = true := rfl
  rw [hhead, hd, hslash rfl]
  rfl

/-- The next dot is further on: it stays for the time being. -/
theorem collapse_gap {s between : Bytes} (hbetween : byte '.' ∉ between) (h : s = [] ∨ between ≠ []) :
    collapse false false (s ++ (between ++ [byte '.'])) =
      collapse false false s ++ (between ++ [byte '.']) := by
  cases between with
  | nil =>
    obtain rfl : s = [] := h.resolve_right (· rfl)
    rfl
  | cons c between =>
    -- what is before the dot is no dot, and neither is what follows `s`
    have hlast : isDot (isDot false s.getLast?) (c :: between).getLast? = false := by
      obtain ⟨d, hd⟩ := exists_getLast?_eq_some (List.cons_ne_nil c between)
      have hne : d ≠ byte '.' := fun h => hbetween (h ▸ List.mem_of_getLast? hd)
      simp [hd, isDot, hne]
    rw [collapse_append]
    have hfirst : isDot false (c :: between).head? = false := isDot_head?_of_notMem hbetween
    have hhead : isDot false (c :: between ++ [byte '.']).head? = false := hfirst
    rw [hhead, collapse_append, collapse_of_notMem hbetween, hlast]
    rfl

/-- A turn of the loop: the text up to the next dot is done. -/
theorem rewritten_eq {done between later : Bytes} {p : ℕ} (hbetween : byte '.' ∉ between)
    (hdone : done = [] ∧ (between ++ byte '.' :: later).length ≤ p ∨
      ∃ s, done = s ++ [byte '.'] ∧ p = s.length) :
    let path := collapse false false done ++ (between ++ byte '.' :: later)
    let i := done.length + between.length
    (if p + 1 = i then (path.set i (byte '/')).set p (byte '/') else path) =
      collapse false false (done ++ (between ++ [byte '.'])) ++ later := by
  intro path i
  by_cases hgap : done = [] ∨ between ≠ []
  · -- the last dot, if there was one, is not the byte in front of this one
    have hi : p + 1 ≠ i := by
      rcases hdone with ⟨rfl, hp⟩ | ⟨s, rfl, rfl⟩
      · simp only [List.length_append, List.length_cons] at hp
        simp only [i, List.length_nil]
        omega
      · have hpos := List.length_pos_iff.mpr (hgap.resolve_left (by simp))
        simp only [i, List.length_append, List.length_singleton]
        omega
    rw [if_neg hi, collapse_gap hbetween hgap]
    simp [path]
  · -- the last dot stands right in front of this one, and both are overwritten
    obtain ⟨hne, rfl⟩ : done ≠ [] ∧ between = [] := by simpa using hgap
    obtain ⟨s, rfl, rfl⟩ := hdone.resolve_left fun h => hne h.1
    obtain ⟨u, c, hc, hslashes, hlength⟩ := collapse_dot_dot s
    have hpath : path = u ++ c :: byte '.' :: later := by simp [path, hc]
    have hi : i = u.length + 1 := by simp [i, hlength]
    rw [if_pos (by simp [i]), hpath, hi, ← hlength, List.nil_append, hslashes]
    simp

/-- The loop with the text up to a dot behind it. -/
theorem dotLoop_eq {fuel p : ℕ} {done todo : Bytes} (hfuel : todo.length < fuel)
    (hdone : done = [] ∧ todo.length ≤ p ∨ ∃ s, done = s ++ [byte '.'] ∧ p = s.length) :
    dotLoop fuel (collapse false false done ++ todo) p
        (findFrom (byte '.') (collapse false false done ++ todo) done.length) =
      some (collapse false false (done ++ todo)) := by
  induction fuel generalizing p done todo with
  | zero => omega
  | succ fuel ih =>
    have hdrop : (collapse false false done ++ todo).drop done.length = todo :=
      List.drop_left' (length_collapse _ _ done)
    rw [findFrom, hdrop]
    cases hsplit : splitAt (byte '.') todo with
    | none =>
      -- no dot is left: the loop ends, and nothing more changes
      have hnone := splitAt_eq_none.mp hsplit
      rw [Option.map_none, dotLoop, collapse_append, isDot_head?_of_notMem hnone,
        collapse_of_notMem hnone]
    | some parts =>
      obtain ⟨between, later⟩ := parts
      obtain ⟨rfl, hbetween⟩ := eq_of_splitAt hsplit
      rw [List.length_append, List.length_cons] at hfuel
      have hlength : (done ++ (between ++ [byte '.'])).length = done.length + between.length + 1 := by
        simp [Nat.add_assoc]
      have hdot : ∃ s, done ++ (between ++ [byte '.']) = s ++ [byte '.'] ∧
          done.length + between.length = s.length := ⟨done ++ between, by simp, by simp⟩
      have hrest := ih (show later.length < fuel by omega) (Or.inr hdot)
      simp only [Option.map_some, dotLoop]
      rw [rewritten_eq hbetween hdone, ← hlength, hrest]
      simp

/-- The loop ends. Each dot that is next to another has become a slash. -/
theorem sanitised_eq (path : Bytes) : sanitised path = some (collapse false false path) :=
  dotLoop_eq (Nat.lt_succ_self _) (Or.inl ⟨rfl, le_rfl⟩)

/-! ### Where a path leads -/

open Walk

/-- A part of a path as a move. -/
def move (part : Bytes) : Move Bytes :=
  if part = [] ∨ part = ascii "." then .stay
  else if part = ascii ".." then .up
  else .down part

/-- The parts of a path as moves. -/
def moves (path : Bytes) : List (Move Bytes) := (path.splitOn (byte '/')).map move

/-- Where a path leads from a working directory, symbolic links left aside. -/
def resolve (cwd : List Bytes) (path : Bytes) : List Bytes :=
  walk (if path.head? = some (byte '/') then [] else cwd) (moves path)

/-- What follows the last slash of a path. -/
def lastPart (path : Bytes) : Bytes :=
  (path.splitOn (byte '/')).getLast (List.splitOn_ne_nil (byte '/') path)

/-- The path that is handed to the file system leads to the root, or to something below it. -/
def StaysInside (cwd : List Bytes) (root path : Bytes) : Prop :=
  ∃ p, canonical root path = some p ∧ resolve cwd root <+: resolve cwd p

/-- The path of a request does not run into the last name of the root: one of them brings a slash, or the
two together make a name below the root, or the way out of it leads back. For the last of these, the names in
the path are those that stand between slashes when each dot next to another counts as a slash. -/
def Separated (cwd : List Bytes) (root path : Bytes) : Prop :=
  path = [] ∨ ascii "/" <+: path ∨ ascii ".." <+: path ∨ lastPart root = [] ∨ lastPart root = ascii ".." ∨
    lastPart root = ascii "." ∧
      (path ≠ ascii "." ∧ ¬ascii "./" <+: path ∨
        (resolve cwd root).getLast?.toList <+: resolve [] (collapse false false path))

/-- The first character of a text is a slash and ends an empty part, or it begins the first part. -/
theorem firstPart_cons {c : UInt8} {s first : Bytes} {rest : List Bytes}
    (h : (c :: s).splitOn (byte '/') = first :: rest) :
    c = byte '/' ∧ first = [] ∨
      c ≠ byte '/' ∧ ∃ first', s.splitOn (byte '/') = first' :: rest ∧ first = c :: first' := by
  obtain ⟨first', rest', hsplit⟩ := List.exists_cons_of_ne_nil (List.splitOn_ne_nil (byte '/') s)
  rw [List.splitOn_cons_eq_if_modifyHead, hsplit, List.modifyHead_cons] at h
  by_cases hc : c = byte '/'
  · rw [if_pos (beq_iff_eq.mpr hc)] at h
    obtain ⟨rfl, -⟩ := List.cons.inj h
    exact Or.inl ⟨hc, rfl⟩
  · rw [if_neg (mt beq_iff_eq.mp hc)] at h
    obtain ⟨rfl, rfl⟩ := List.cons.inj h
    exact Or.inr ⟨hc, first', hsplit, rfl⟩

/-- The first part of a text is empty where it begins with a slash. -/
theorem firstPart_eq_nil_iff {s first : Bytes} {rest : List Bytes}
    (h : s.splitOn (byte '/') = first :: rest) : first = [] ↔ s = [] ∨ s.head? = some (byte '/') := by
  cases s with
  | nil =>
    obtain ⟨rfl, -⟩ := List.cons.inj h
    simp
  | cons c s =>
    rcases firstPart_cons h with ⟨rfl, rfl⟩ | ⟨hc, first', -, rfl⟩
    · simp
    · simp [hc]

/-- The first part of a text is a dot where a slash follows it. -/
theorem firstPart_eq_dot_iff {s first : Bytes} {rest : List Bytes}
    (h : s.splitOn (byte '/') = first :: rest) :
    first = ascii "." ↔ ∃ t, s = byte '.' :: t ∧ (t = [] ∨ t.head? = some (byte '/')) := by
  have hdot : ascii "." = [byte '.'] := rfl
  rw [hdot]
  cases s with
  | nil =>
    obtain ⟨rfl, -⟩ := List.cons.inj h
    simp
  | cons c s =>
    rcases firstPart_cons h with ⟨rfl, rfl⟩ | ⟨hc, first', hsplit, rfl⟩
    · have hslash : byte '/' ≠ byte '.' := by decide
      simp [hslash]
    · -- the rest of the text has an empty first part
      simp only [List.cons.injEq, firstPart_eq_nil_iff hsplit]
      constructor
      · rintro ⟨rfl, hs⟩
        exact ⟨s, ⟨rfl, rfl⟩, hs⟩
      · rintro ⟨t, ⟨rfl, rfl⟩, ht⟩
        exact ⟨rfl, ht⟩

/-- No two dots are left next to each other. -/
theorem not_infix_collapse (before after : Bool) (s : Bytes) :
    ¬ascii ".." <:+: collapse before after s := by
  have hdots : ascii ".." = [byte '.', byte '.'] := rfl
  have hslash : byte '/' ≠ byte '.' := by decide
  induction s generalizing before with
  | nil => simp [collapse, hdots]
  | cons c s ih =>
    rw [collapse, List.infix_cons_iff, not_or]
    refine ⟨fun hprefix => ?_, ih _⟩
    rw [hdots, List.cons_prefix_cons] at hprefix
    obtain ⟨hfirst, hsecond⟩ := hprefix
    cases s with
    | nil => simp [collapse] at hsecond
    | cons d s =>
      rw [collapse, List.cons_prefix_cons] at hsecond
      by_cases hd : d = byte '.'
      · -- a dot that another follows is a slash
        by_cases hc : c = byte '.'
        · rw [if_pos ⟨hc, Or.inr (by simp [isDot, hd])⟩] at hfirst
          exact hslash hfirst.symm
        · rw [if_neg fun h => hc h.1] at hfirst
          exact hc hfirst.symm
      · rw [if_neg fun h => hd h.1] at hsecond
        exact hd hsecond.1.symm

/-- No part of the path goes up. -/
theorem up_notMem_moves (before after : Bool) (s : Bytes) : .up ∉ moves (collapse before after s) := by
  rw [moves, List.mem_map]
  rintro ⟨part, hpart, hup⟩
  obtain ⟨first, rest, hsplit⟩ := List.exists_cons_of_ne_nil
    (List.splitOn_ne_nil (byte '/') (collapse before after s))
  obtain ⟨hfirst, hrest⟩ := prefix_and_infix_of_splitOn hsplit
  have hinfix : part <:+: collapse before after s := by
    rw [hsplit] at hpart
    rcases List.mem_cons.mp hpart with rfl | hpart
    · exact hfirst.isInfix
    · exact hrest part hpart
  -- only two dots go up, and they would be found in the path
  have hdots : part = ascii ".." := by
    by_contra hne
    rw [move, if_neg hne] at hup
    split_ifs at hup
  exact not_infix_collapse before after s (hdots ▸ hinfix)

/-- The path begins with a slash once its dots are gone. -/
theorem collapse_head_slash_iff (path : Bytes) :
    collapse false false path = [] ∨ (collapse false false path).head? = some (byte '/') ↔
      path = [] ∨ ascii "/" <+: path ∨ ascii ".." <+: path := by
  have hslash : ascii "/" = [byte '/'] := rfl
  have hdots : ascii ".." = [byte '.', byte '.'] := rfl
  rw [hslash, hdots]
  cases path with
  | nil => simp [collapse]
  | cons c s =>
    have hhead : isDot false s.head? = true ↔ [byte '.'] <+: s := by
      cases s <;> simp [isDot, eq_comm]
    by_cases hc : c = byte '.'
    · subst hc
      by_cases hnext : [byte '.'] <+: s
      · -- the first of two dots becomes a slash
        simp [collapse, hhead, hnext]
      · have hne : byte '.' ≠ byte '/' := by decide
        simp [collapse, hhead, hnext, hne, hne.symm]
    · simp [collapse, hc, eq_comm (a := byte '/'), Ne.symm hc]

/-- The path begins with a single dot as its first part. -/
theorem collapse_dot_iff (path : Bytes) :
    (∃ t, collapse false false path = byte '.' :: t ∧ (t = [] ∨ t.head? = some (byte '/'))) ↔
      path = ascii "." ∨ ascii "./" <+: path := by
  have hdot : ascii "." = [byte '.'] := rfl
  have hdotSlash : ascii "./" = [byte '.', byte '/'] := rfl
  have hne : byte '/' ≠ byte '.' := by decide
  rw [hdot, hdotSlash]
  cases path with
  | nil => simp [collapse]
  | cons c s =>
    by_cases hc : c = byte '.'
    · subst hc
      cases s with
      | nil => simp [collapse, isDot]
      | cons d s =>
        by_cases hd : d = byte '.'
        · simp [collapse, isDot, hd, hne]
        · simp [collapse, isDot, hd, eq_comm (a := byte '/')]
    · simp [collapse, hc, Ne.symm hc]

/-- The parts of the path and of the root, and the moves that they make. -/
theorem resolve_append (cwd : List Bytes) {root path last first : Bytes} {init rest : List Bytes}
    (hroot : root ≠ []) (hlast : root.splitOn (byte '/') = init ++ [last])
    (hfirst : path.splitOn (byte '/') = first :: rest) :
    ∃ dir, resolve cwd root = walk dir [move last] ∧
      resolve cwd (root ++ path) = walk (walk dir [move (last ++ first)]) (rest.map move) := by
  have hsplit := splitOn_append hlast hfirst
  have hhead : (root ++ path).head? = root.head? := List.head?_append_of_ne_nil root hroot
  refine ⟨walk (if root.head? = some (byte '/') then [] else cwd) (init.map move), ?_, ?_⟩
  · rw [resolve, moves, hlast, List.map_append, walk_append]
    rfl
  · rw [resolve, moves, hsplit, hhead, List.map_append, List.map_cons, walk_append, ← walk_append _ [_]]
    rfl

/-- A part that is a dot stays in its directory. -/
theorem move_dot : move (ascii ".") = .stay := rfl

/-- A part of two dots goes up. -/
theorem move_dots : move (ascii "..") = .up := rfl

/-- An empty part, between two slashes, stays in its directory. -/
theorem move_nil : move [] = .stay := rfl

/-- Every other part goes down to what has its name. -/
theorem move_down {part : Bytes} (hnil : part ≠ []) (hdot : part ≠ ascii ".") (hdots : part ≠ ascii "..") :
    move part = .down part := by
  rw [move, if_neg (not_or.mpr ⟨hnil, hdot⟩), if_neg hdots]

/-- What goes on from a name is a name. -/
theorem move_append {last first : Bytes} (hfirst : first ≠ []) (hlast : last ≠ [])
    (hdot : last = ascii "." → first ≠ ascii ".") : move (last ++ first) = .down (last ++ first) := by
  have hsingle : ascii "." = [byte '.'] := rfl
  have hdouble : ascii ".." = [byte '.', byte '.'] := rfl
  obtain ⟨a, s, rfl⟩ := List.exists_cons_of_ne_nil hlast
  obtain ⟨b, t, rfl⟩ := List.exists_cons_of_ne_nil hfirst
  refine move_down (by simp) (fun h => ?_) (fun h => ?_)
  · have hlength := congrArg List.length h
    simp [hsingle] at hlength
  · have hlength := congrArg List.length h
    obtain ⟨rfl, rfl⟩ : s = [] ∧ t = [] := by
      simp only [hdouble, List.length_append, List.length_cons, List.length_nil] at hlength
      exact ⟨List.length_eq_zero_iff.mp (by omega), List.length_eq_zero_iff.mp (by omega)⟩
    -- two names of one dot each
    obtain ⟨rfl, rfl⟩ : a = byte '.' ∧ b = byte '.' := by simpa [hdouble] using h
    exact hdot rfl rfl

/-- Where the last part of the root and the first part of the path are put together. -/
theorem prefix_walk_iff {dir : List Bytes} {last first : Bytes} {later : List (Move Bytes)}
    (hfirst : move first ≠ .up) (hlater : .up ∉ later) :
    walk dir [move last] <+: walk (walk dir [move (last ++ first)]) later ↔
      first = [] ∨ last = [] ∨ last = ascii ".." ∨
        last = ascii "." ∧ (first ≠ ascii "." ∨ dir.getLast?.toList <+: names later) := by
  rw [walk_of_up_notMem hlater]
  by_cases hnil : first = []
  · simp [hnil]
  by_cases hlast : last = []
  · -- the root ends with a slash
    have hbelow : dir <+: walk dir [move first] := prefix_walk_of_up_notMem (by simpa using hfirst.symm) dir
    simp only [hlast, List.nil_append, move_nil, walk, true_or, or_true, iff_true]
    exact hbelow.trans (List.prefix_append _ _)
  by_cases hdots : last = ascii ".."
  · -- the root is the directory above, and the path leads to something beside it
    subst hdots
    rw [move_append hnil hlast fun h => absurd h (by decide), move_dots]
    simp only [walk, true_or, or_true, iff_true]
    rw [List.append_assoc]
    exact (List.dropLast_prefix dir).trans (List.prefix_append _ _)
  by_cases hdot : last = ascii "."
  · subst hdot
    by_cases hup : first = ascii "."
    · -- the two dots go up
      subst hup
      have hmove : move (ascii "." ++ ascii ".") = .up := rfl
      rw [hmove, move_dot]
      simp only [walk, prefix_dropLast_append_iff]
      simp [hnil, hdots]
    · have hbelow : walk dir [.stay] <+: walk dir [.down (ascii "." ++ first)] ++ names later := by
        simp [walk]
      rw [move_append hnil hlast fun _ => hup, move_dot]
      exact iff_of_true hbelow (Or.inr (Or.inr (Or.inr ⟨rfl, Or.inl hup⟩)))
  · -- the root is one name, and the path leads to another
    rw [move_append hnil hlast fun h => absurd h hdot, move_down hlast hdot hdots]
    simp only [walk, List.append_assoc, List.singleton_append, prefix_append_cons_iff]
    simp [hnil, hlast, hdots, hdot]

/-- The path that `disk_result` hands to the file system leads to the root, or below it, exactly if the
path of the request and the last name of the root are separated. -/
theorem staysInside_iff (cwd : List Bytes) {root : Bytes} (path : Bytes) (hroot : root ≠ []) :
    StaysInside cwd root path ↔ Separated cwd root path := by
  obtain ⟨first, rest, hfirst⟩ := List.exists_cons_of_ne_nil
    (List.splitOn_ne_nil (byte '/') (collapse false false path))
  have hne := List.splitOn_ne_nil (byte '/') root
  have hlast : root.splitOn (byte '/') = (root.splitOn (byte '/')).dropLast ++ [lastPart root] :=
    (List.dropLast_append_getLast hne).symm
  obtain ⟨dir, hdir, hresolve⟩ := resolve_append cwd hroot hlast hfirst
  have hup := up_notMem_moves false false path
  rw [moves, hfirst, List.map_cons, List.mem_cons, not_or] at hup
  have hinside : StaysInside cwd root path ↔
      walk dir [move (lastPart root)] <+:
        walk (walk dir [move (lastPart root ++ first)]) (rest.map move) := by
    simp [StaysInside, canonical, sanitised_eq, ← hdir, ← hresolve]
  have hdot : first = ascii "." ↔ path = ascii "." ∨ ascii "./" <+: path := by
    rw [firstPart_eq_dot_iff hfirst, collapse_dot_iff]
  -- behind the first part of the path there are only names
  have hnames : first = ascii "." →
      resolve [] (collapse false false path) = names (rest.map move) := by
    rintro rfl
    simp only [resolve, ite_self, moves, hfirst, List.map_cons, move_dot, walk]
    rw [walk_of_up_notMem hup.2, List.nil_append]
  have hback : lastPart root = ascii "." → dir = resolve cwd root := by
    intro hroot
    rw [hdir, hroot, move_dot]
    rfl
  rw [hinside, prefix_walk_iff (Ne.symm hup.1) hup.2, firstPart_eq_nil_iff hfirst,
    collapse_head_slash_iff, Separated, or_assoc, or_assoc]
  refine or_congr_right (or_congr_right (or_congr_right (or_congr_right (or_congr_right ?_))))
  refine and_congr_right fun hroot => ?_
  rw [← not_or, ← hdot, hback hroot]
  by_cases hup : first = ascii "."
  · simp [hup, hnames hup]
  · simp [hup]

/-- A path that tries to get out of the root, and does not. -/
theorem staysInside_dots : StaysInside [ascii "home"] (ascii "./") (ascii "../../etc/passwd") :=
  (staysInside_iff [ascii "home"] (ascii "../../etc/passwd") (by decide)).mpr
    (Or.inr (Or.inr (Or.inl (by decide))))

/-- The parser hands out a request with this path. -/
def Delivered (path : Bytes) : Prop :=
  ∃ text requests p, RequestParser.fromStream .percent .fresh sizeMax text = .returned requests p ∧
    ∃ request ∈ requests, request.path = path

/-- A path without a slash in front goes on with the name of the root. -/
theorem not_staysInside :
    ¬∀ (cwd : List Bytes) (root path : Bytes), root ≠ [] → Delivered path → StaysInside cwd root path := by
  intro h
  have hread : (RequestParser.fromStream .percent .fresh sizeMax
      (ascii "GET -private/key HTTP/1.1\r\n\r\n")).messages.map (·.path) = [ascii "-private/key"] := by
    decide
  have hdelivered : Delivered (ascii "-private/key") := by
    cases hcall : RequestParser.fromStream .percent .fresh sizeMax
        (ascii "GET -private/key HTTP/1.1\r\n\r\n") with
    | returned requests p =>
      rw [hcall, Chunking.Reading.messages_returned] at hread
      have hmem : ascii "-private/key" ∈ requests.map (·.path) := by simp [hread]
      exact ⟨_, requests, p, hcall, List.mem_map.mp hmem⟩
    | threw | diverged =>
      rw [hcall] at hread
      cases hread
  obtain ⟨p, hp, hprefix⟩ := h [] (ascii "/srv/www") (ascii "-private/key") (by decide) hdelivered
  have hcanonical : canonical (ascii "/srv/www") (ascii "-private/key") =
      some (ascii "/srv/www-private/key") := by decide
  obtain rfl := Option.some.inj (hcanonical.symm.trans hp)
  revert hprefix
  decide

end Disk

end PrimeServer
