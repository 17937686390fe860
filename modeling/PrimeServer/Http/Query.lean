import PrimeServer.Http.Request

/-!
# Queries

`split_path_query` reads a query, `to_string` writes one. The reader is compared with `parameters`, which
cuts the text at every `&` and each piece at its first `=`.

## Main results

* `splitQuery_eq_pushAll`: the reader pushes the parameters of the text one after another;
* `splitQuery_renderParameters`: what is written for a query is read back as that query;
* `entries_splitQuery_eq_nil_iff`: only the empty text has no parameters;
* `meetsGrammar_splitPathQuery_iff`: `split_path_query` splits a text as its grammar says if and only if
  the text has a `?` or is empty.
-/

namespace PrimeServer

open HttpRequest

/-- The key and the value in a piece of a query between `&`s. -/
def parameter (piece : Bytes) : Bytes × Bytes :=
  (splitAt (byte '=') piece).getD (piece, [])

/-- What comes behind a separator is shorter than the text, so that splitting ends. -/
theorem length_lt_of_splitAt {c : UInt8} {s before after : Bytes}
    (h : splitAt c s = some (before, after)) : after.length < s.length := by
  rw [(eq_of_splitAt h).1]
  simp
  omega

/-- Induction on a text along its cuts at `c`. -/
@[elab_as_elim]
theorem cut_induction {motive : Bytes → Prop} (c : UInt8) (last : ∀ text, c ∉ text → motive text)
    (cut : ∀ piece rest, c ∉ piece → motive rest → motive (piece ++ c :: rest)) (text : Bytes) :
    motive text := by
  induction hn : text.length using Nat.strong_induction_on generalizing text with
  | _ n ih =>
    subst hn
    cases hsplit : splitAt c text with
    | none => exact last text (splitAt_eq_none.mp hsplit)
    | some parts =>
      obtain ⟨piece, rest⟩ := parts
      have hrest : motive rest := ih _ (length_lt_of_splitAt hsplit) rest rfl
      obtain ⟨rfl, hpiece⟩ := eq_of_splitAt hsplit
      exact cut piece rest hpiece hrest

/-- The keys and values in a query. Nothing after the last `&` is no parameter. -/
def parameters (text : Bytes) : List (Bytes × Bytes) :=
  match h : splitAt (byte '&') text with
  | none => if text = [] then [] else [parameter text]
  | some (piece, rest) =>
    have : rest.length < text.length := length_lt_of_splitAt h
    parameter piece :: parameters rest
termination_by text.length

/-- A text without `&` is one parameter, or none if there is nothing of it. -/
theorem parameters_of_not_mem {text : Bytes} (h : byte '&' ∉ text) :
    parameters text = if text = [] then [] else [parameter text] := by
  rw [parameters]
  split
  case h_1 => rfl
  case h_2 piece rest hsplit => simp [splitAt_eq_none.mpr h] at hsplit

/-- What comes before the first `&` is the first parameter. -/
theorem parameters_append {piece : Bytes} (h : byte '&' ∉ piece) (rest : Bytes) :
    parameters (piece ++ byte '&' :: rest) = parameter piece :: parameters rest := by
  have hsplit := splitAt_append h rest
  rw [parameters]
  split
  case h_1 hnone => simp [hsplit] at hnone
  case h_2 piece' rest' hsome =>
    obtain ⟨rfl, rfl⟩ : piece = piece' ∧ rest = rest' := by simpa [hsplit] using hsome
    rfl

/-! ### Reading -/

namespace SplitState

/-- The reader at the beginning of a piece. -/
def between (query : Query) : SplitState where
  sinceKey := []
  sinceValue := []
  kv := none
  query := query

/-- In a piece, only the first `=` is special. -/
theorem foldl_step_of_not_mem {text : Bytes} (st : SplitState) (hamp : byte '&' ∉ text)
    (hequals : byte '=' ∉ text ∨ st.kv ≠ none) :
    text.foldl step st =
      { st with sinceKey := st.sinceKey ++ text, sinceValue := st.sinceValue ++ text } := by
  induction text generalizing st with
  | nil => simp
  | cons c text ih =>
    obtain ⟨hc, htext⟩ : byte '&' ≠ c ∧ byte '&' ∉ text := by simpa using hamp
    have hplain : step st c =
        { st with sinceKey := st.sinceKey ++ [c], sinceValue := st.sinceValue ++ [c] } := by
      have hspecial : ¬(c = byte '=' ∧ st.kv = none) := by
        rintro ⟨rfl, hkv⟩
        simp [hkv] at hequals
      rw [step, if_neg hc.symm, if_neg hspecial]
    rw [List.foldl_cons, hplain, ih _ htext]
    · simp
    · exact hequals.imp (fun h => by simp_all) id

/-- A piece is stored as its parameter. -/
theorem store_piece {piece : Bytes} (hamp : byte '&' ∉ piece) (query : Query) :
    (piece.foldl step (between query)).store =
        query.push (parameter piece).1 (parameter piece).2 ∧
      (piece.foldl step (between query)).sinceKey = piece := by
  cases hsplit : splitAt (byte '=') piece with
  | none =>
    have hequals := splitAt_eq_none.mp hsplit
    -- without an equals sign all of the piece is the key
    rw [foldl_step_of_not_mem _ hamp (Or.inl hequals)]
    simp [between, store, parameter, hsplit]
  | some parts =>
    obtain ⟨key, value⟩ := parts
    obtain ⟨rfl, hkey⟩ := eq_of_splitAt hsplit
    obtain ⟨hampKey, hampValue⟩ : byte '&' ∉ key ∧ byte '&' ∉ value := by
      simp only [List.mem_append, List.mem_cons, not_or] at hamp
      exact ⟨hamp.1, hamp.2.2⟩
    -- the first equals sign ends the key, and the value starts after it
    have hequals : step { between query with sinceKey := key, sinceValue := key } (byte '=') =
        { sinceKey := key ++ [byte '=']
          sinceValue := []
          kv := some key
          query := query.insert key [] } := rfl
    rw [List.foldl_append, foldl_step_of_not_mem _ hampKey (Or.inl hkey), List.foldl_cons]
    simp only [between, List.nil_append] at hequals ⊢
    rw [hequals, foldl_step_of_not_mem _ hampValue (Or.inr (by simp))]
    simp [store, parameter, hsplit, AssocMap.push]

end SplitState

/-- The loop of `split_path_query` pushes the parameters of the text one after another. -/
theorem finish_foldl_step (text : Bytes) (query : Query) :
    (text.foldl SplitState.step (.between query)).finish = query.pushAll (parameters text) := by
  induction text using cut_induction (byte '&') generalizing query with
  | last text hamp =>
    obtain ⟨hstore, hkey⟩ := SplitState.store_piece hamp query
    rw [SplitState.finish, hkey, parameters_of_not_mem hamp]
    -- an empty piece at the end is not stored
    by_cases hnil : text = []
    · simp [hnil, SplitState.between]
    · simp [hnil, hstore]
  | cut piece rest hamp ih =>
    obtain ⟨hstore, -⟩ := SplitState.store_piece hamp query
    -- the ampersand stores the piece
    have hnext : SplitState.step (piece.foldl SplitState.step (.between query)) (byte '&') =
        .between (piece.foldl SplitState.step (.between query)).store := rfl
    rw [List.foldl_append, List.foldl_cons, hnext, hstore, ih, parameters_append hamp,
      AssocMap.pushAll_cons]

/-- The reader pushes the parameters of the text one after another. -/
theorem splitQuery_eq_pushAll (text : Bytes) :
    splitQuery text = (AssocMap.empty : Query).pushAll (parameters text) :=
  finish_foldl_step text .empty

/-! ### Writing -/

/-- A key and a value that a query can hold. -/
def IsParameter (e : Bytes × Bytes) : Prop :=
  byte '&' ∉ e.1 ∧ byte '=' ∉ e.1 ∧ byte '&' ∉ e.2

/-- A piece between two `&` is a parameter that can be held. -/
theorem isParameter_parameter {piece : Bytes} (h : byte '&' ∉ piece) :
    IsParameter (parameter piece) := by
  cases hsplit : splitAt (byte '=') piece with
  | none => simp [IsParameter, parameter, hsplit, h, splitAt_eq_none.mp hsplit]
  | some parts =>
    obtain ⟨key, value⟩ := parts
    obtain ⟨rfl, hkey⟩ := eq_of_splitAt hsplit
    simp only [List.mem_append, List.mem_cons, not_or] at h
    simp [IsParameter, parameter, hsplit, hkey, h.1, h.2.2]

/-- The parameters of a text consist of bytes of it. -/
theorem mem_of_mem_parameter {piece : Bytes} {b : UInt8}
    (h : b ∈ (parameter piece).1 ∨ b ∈ (parameter piece).2) : b ∈ piece := by
  cases hsplit : splitAt (byte '=') piece with
  | none => simpa [parameter, hsplit] using h
  | some parts =>
    obtain ⟨key, value⟩ := parts
    obtain ⟨rfl, -⟩ := eq_of_splitAt hsplit
    simp only [parameter, hsplit, Option.getD_some] at h
    rcases h with h | h <;> simp [h]

/-- A parameter of a text can be held, and has no bytes that the text has not. -/
theorem of_mem_parameters {text : Bytes} {e : Bytes × Bytes} (h : e ∈ parameters text) :
    IsParameter e ∧ ∀ b, b ∈ e.1 ∨ b ∈ e.2 → b ∈ text := by
  induction text using cut_induction (byte '&') with
  | last text hamp =>
    rw [parameters_of_not_mem hamp] at h
    split_ifs at h
    · simp at h
    · obtain rfl : e = parameter text := by simpa using h
      exact ⟨isParameter_parameter hamp, fun b => mem_of_mem_parameter⟩
  | cut piece rest hamp ih =>
    -- a parameter is that of the first piece, or one of the rest
    rw [parameters_append hamp] at h
    rcases List.mem_cons.mp h with rfl | h
    · exact ⟨isParameter_parameter hamp, fun b hb => List.mem_append_left _ (mem_of_mem_parameter hb)⟩
    · obtain ⟨hform, hbytes⟩ := ih h
      exact ⟨hform, fun b hb => by simp [hbytes b hb]⟩

/-- A parameter is split at its first `=`. -/
theorem parameter_append {key : Bytes} (h : byte '=' ∉ key) (value : Bytes) :
    parameter (key ++ byte '=' :: value) = (key, value) := by
  rw [parameter, splitAt_append h, Option.getD_some]

/-- What `to_string` writes for parameters is read as these parameters. -/
theorem parameters_renderParameters {l : List (Bytes × Bytes)} (h : ∀ e ∈ l, IsParameter e) :
    parameters (renderParameters l) = l := by
  induction l with
  | nil =>
    rw [renderParameters, parameters_of_not_mem (by simp), if_pos rfl]
  | cons e l ih =>
    obtain ⟨key, value⟩ := e
    obtain ⟨⟨hkey, hequals, hvalue⟩, hrest⟩ := List.forall_mem_cons.mp h
    have hpiece : byte '&' ∉ key ++ byte '=' :: value := by
      simp [hkey, hvalue, show byte '&' ≠ byte '=' by decide]
    cases l with
    | nil =>
      -- no ampersand comes after the last parameter
      have hwritten : renderParameters [(key, value)] = key ++ byte '=' :: value := by
        simp [renderParameters, ascii]
      rw [hwritten, parameters_of_not_mem hpiece, if_neg (by simp), parameter_append hequals]
    | cons e' l =>
      have hwritten : renderParameters ((key, value) :: e' :: l) =
          (key ++ byte '=' :: value) ++ byte '&' :: renderParameters (e' :: l) := by
        simp [renderParameters, ascii]
      rw [hwritten, parameters_append hpiece, parameter_append hequals, ih hrest]

/-- A query that a text without NUL can stand for. -/
def Query.IsReadable (q : Query) : Prop :=
  ∀ e ∈ q.entries, e.2 ≠ [] ∧ ∀ v ∈ e.2, IsParameter (e.1, v) ∧ 0 ∉ e.1 ∧ 0 ∉ v

/-- The query of a text without NUL can be written and read back. -/
theorem isReadable_splitQuery {text : Bytes} (h : 0 ∉ text) : (splitQuery text).IsReadable := by
  intro e he
  rw [splitQuery_eq_pushAll] at he
  obtain ⟨hne, hmem⟩ := AssocMap.mem_of_mem_entries_pushAll Function.injective_id he
  refine ⟨hne, fun v hv => ?_⟩
  obtain ⟨hform, hbytes⟩ := of_mem_parameters (hmem v hv)
  exact ⟨hform, fun h0 => h (hbytes 0 (Or.inl h0)), fun h0 => h (hbytes 0 (Or.inr h0))⟩

/-- Whether a query can be read back does not depend on the order of its parameters. -/
theorem Query.IsReadable.of_same {q q' : Query} (h : q.IsReadable) (hsame : q.Same q') :
    q'.IsReadable :=
  fun e he => h e (hsame.mem_iff.mpr he)

/-- Each parameter of a readable query can be written by itself. -/
theorem Query.IsReadable.pairs {q : Query} (h : q.IsReadable) :
    ∀ e ∈ AssocMap.pairs q.entries, IsParameter e ∧ 0 ∉ e.1 ∧ 0 ∉ e.2 := by
  intro e he
  obtain ⟨entry, hentry, he⟩ := List.mem_flatMap.mp he
  obtain ⟨v, hv, rfl⟩ := List.mem_map.mp he
  exact (h entry hentry).2 v hv

/-- What is written for a query is read back as that query. -/
theorem splitQuery_renderParameters {q : Query} (h : q.IsReadable) :
    splitQuery (renderParameters (AssocMap.pairs q.entries)) = q := by
  have hparameters := parameters_renderParameters fun e he => (h.pairs e he).1
  rw [splitQuery_eq_pushAll, hparameters]
  have hnodup : (AssocMap.keys id ((AssocMap.empty : Query).entries ++ q.entries)).Nodup := q.nodup
  apply AssocMap.ext_entries
  rw [AssocMap.entries_pushAll_pairs hnodup fun e he => (h e he).1]
  rfl

/-- Only the empty text has no parameters. -/
theorem entries_splitQuery_eq_nil_iff {text : Bytes} : (splitQuery text).entries = [] ↔ text = [] := by
  rw [splitQuery_eq_pushAll, AssocMap.entries_pushAll_eq_nil_iff]
  cases hsplit : splitAt (byte '&') text with
  | none => simp [parameters_of_not_mem (splitAt_eq_none.mp hsplit)]
  | some parts =>
    obtain ⟨rfl, hamp⟩ := eq_of_splitAt hsplit
    simp [parameters_append hamp]

/-- Where no key and no value has a NUL, none is written. -/
theorem zero_not_mem_renderParameters {l : List (Bytes × Bytes)}
    (h : ∀ e ∈ l, 0 ∉ e.1 ∧ 0 ∉ e.2) : 0 ∉ renderParameters l := by
  have hequals : (0 : UInt8) ∉ ascii "=" := by decide
  have hamp : (0 : UInt8) ∉ ascii "&" := by decide
  induction l with
  | nil => simp [renderParameters]
  | cons e l ih =>
    obtain ⟨⟨hkey, hvalue⟩, hrest⟩ := List.forall_mem_cons.mp h
    cases l with
    | nil => simp [renderParameters, hkey, hvalue, hequals]
    | cons e' l => simp [renderParameters, hkey, hvalue, hequals, hamp, ih hrest]

/-! ### Paths with a query -/

/-- A path and a query that `split_path_query` makes of a text without NUL. -/
structure IsTarget (path : Bytes) (query : Query) : Prop where
  /-- The path ends at the first question mark. -/
  question : byte '?' ∉ path
  /-- The path has no NUL. -/
  zero : 0 ∉ path
  /-- The query is one that can be read back. -/
  readable : query.IsReadable

/-- A text without NUL is split into a path and a query that can be put together again. -/
theorem isTarget_splitPathQuery {text : Bytes} (h : 0 ∉ text) :
    IsTarget (splitPathQuery text).1 (splitPathQuery text).2 := by
  cases hsplit : splitAt (byte '?') text with
  | none =>
    have hquestion := splitAt_eq_none.mp hsplit
    simp only [splitPathQuery, hsplit]
    exact ⟨hquestion, h, isReadable_splitQuery h⟩
  | some parts =>
    obtain ⟨before, after⟩ := parts
    obtain ⟨rfl, hquestion⟩ := eq_of_splitAt hsplit
    simp only [List.mem_append, List.mem_cons, not_or] at h
    simp only [splitPathQuery, hsplit]
    exact ⟨hquestion, h.1, isReadable_splitQuery h.2.2⟩

/-- The pieces of a query between its `&`s, less a last one that is empty. -/
def segments (text : Bytes) : List Bytes :=
  let pieces := text.splitOn (byte '&')
  if pieces.getLast? = some [] then pieces.dropLast else pieces

/-- What comes before the first `&` is the first segment. -/
theorem segments_append {piece : Bytes} (h : byte '&' ∉ piece) (rest : Bytes) :
    segments (piece ++ byte '&' :: rest) = piece :: segments rest := by
  obtain ⟨first, pieces, hrest⟩ := List.exists_cons_of_ne_nil (List.splitOn_ne_nil (byte '&') rest)
  simp only [segments, List.splitOn_append_cons_self_of_not_mem h, hrest]
  simp only [List.getLast?_cons_cons, List.dropLast_cons_cons]
  split_ifs <;> rfl

/-- The reader cuts a query into its segments. -/
theorem parameters_eq_map_segments (text : Bytes) :
    parameters text = (segments text).map parameter := by
  induction text using cut_induction (byte '&') with
  | last text hamp =>
    rw [parameters_of_not_mem hamp, segments, List.splitOn_eq_singleton hamp]
    by_cases hnil : text = [] <;> simp [hnil]
  | cut piece rest hamp ih =>
    rw [parameters_append hamp, segments_append hamp, ih, List.map_cons]

/-- The path and the query that a text stands for: the path goes up to the first `?`, and after it each
segment contributes a value to its key. Without `?` there is no query. -/
def MeetsGrammar (text path : Bytes) (query : Query) : Prop :=
  match splitAt (byte '?') text with
  | none => path = text ∧ query.entries = []
  | some (before, after) =>
    path = before ∧ ∀ key,
      let values := AssocMap.valuesOf id key ((segments after).map parameter)
      query.find key = if values = [] then none else some values

/-- `split_path_query` takes a text without `?` for a query. -/
theorem meetsGrammar_splitPathQuery_iff (text : Bytes) :
    MeetsGrammar text (splitPathQuery text).1 (splitPathQuery text).2 ↔
      byte '?' ∈ text ∨ text = [] := by
  cases hsplit : splitAt (byte '?') text with
  | none =>
    have hquestion := splitAt_eq_none.mp hsplit
    simp only [MeetsGrammar, splitPathQuery, hsplit, true_and, entries_splitQuery_eq_nil_iff]
    rw [or_iff_right hquestion]
  | some parts =>
    obtain ⟨before, after⟩ := parts
    have hquestion : byte '?' ∈ text := by simp [(eq_of_splitAt hsplit).1]
    simp only [MeetsGrammar, splitPathQuery, hsplit, true_and]
    refine iff_of_true (fun key => ?_) (Or.inl hquestion)
    rw [splitQuery_eq_pushAll, parameters_eq_map_segments]
    exact AssocMap.find_pushAll _ key

/-- The path of a request without query is read as a query. -/
theorem not_meetsGrammar_noQuery :
    ¬ ∀ text, MeetsGrammar text (splitPathQuery text).1 (splitPathQuery text).2 := by
  intro hgrammar
  have hempty : (splitPathQuery (ascii "/blah")).2.entries = [] := (hgrammar (ascii "/blah")).2
  exact absurd hempty (by decide)

namespace HttpRequest

variable {r : HttpRequest}

/-- What `to_string` writes for the path and the query, read again. A path without query is read as a
query. -/
theorem splitPathQuery_pathQuery (h : IsTarget r.path r.query) :
    splitPathQuery r.pathQuery =
      (r.path, if r.query.entries ≠ [] then r.query else splitQuery r.path) := by
  unfold pathQuery
  split_ifs with hquery
  · have hwritten : r.path ++ ascii "?" ++ renderParameters (AssocMap.pairs r.query.entries) =
        r.path ++ byte '?' :: renderParameters (AssocMap.pairs r.query.entries) := by
      simp [ascii]
    rw [splitPathQuery, hwritten, splitAt_append h.question]
    simp only [splitQuery_renderParameters h.readable]
  · -- without parameters no question mark is written
    rw [splitPathQuery, splitAt_eq_none.mpr h.question]

/-- No NUL is written for a path and a query, so that libcurl does not stop inside. -/
theorem zero_not_mem_pathQuery (h : IsTarget r.path r.query) : 0 ∉ r.pathQuery := by
  have hquestion : (0 : UInt8) ∉ ascii "?" := by decide
  have hparameters := zero_not_mem_renderParameters fun e he => (h.readable.pairs e he).2
  unfold pathQuery
  split_ifs
  · simp [h.zero, hquestion, hparameters]
  · exact h.zero

end HttpRequest

end PrimeServer
