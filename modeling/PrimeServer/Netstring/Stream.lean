import PrimeServer.Netstring.Entity

/-!
# Streams of netstrings

## Main results

* `NetstringEntity.feed_pieces`: what is read does not depend on how the stream is cut;
* `NetstringEntity.feed_toString_iff`: a parser reads back the netstrings of a list of texts exactly if
  none of the texts is empty.
-/

namespace PrimeServer

namespace NetstringEntity

open Automaton Chunking

/-- Whatever the limit is and however a stream is cut, the calls on the pieces return what one call
returns and leave what it leaves, and if that call throws, then a call on a piece throws. -/
theorem feed_pieces (maxSize : ℕ) (pieces : List Bytes) :
    match fromStream maxSize fresh pieces.flatten with
    | .returned requests p => feed (fromStream maxSize) fresh pieces = .returned requests p
    | .threw _ _ => ∃ e p, feed (fromStream maxSize) fresh pieces = .threw e p
    | .diverged => False := by
  have hrealizes := realizes maxSize
  have hreads := hrealizes.reads pieces.flatten fits_fresh
  have hfeed := hrealizes.feed fits_fresh pieces
  cases hrun : run (byteStep maxSize) fresh pieces.flatten with
  | some result =>
    obtain ⟨p, requests⟩ := result
    rw [hrun] at hreads hfeed
    obtain hreads : fromStream maxSize fresh pieces.flatten = .returned requests p := hreads
    rw [hreads]
    exact hfeed
  | none =>
    rw [hrun] at hreads hfeed
    obtain ⟨e, p, hreads⟩ := hreads
    rw [hreads]
    exact hfeed

/-! ### Decoding what was encoded -/

/-- The length and the colon are read. -/
theorem run_byteStep_length {n : ℕ} (hn : n < 2 ^ 64) (later : Bytes) :
    run (byteStep sizeMax) fresh (decimal n ++ byte ':' :: later) =
      run (byteStep sizeMax) { body := [], bodyLength := n } later := by
  have hdigits : run (byteStep sizeMax) fresh (decimal n) =
      some ({ body := decimal n, bodyLength := 0 }, []) :=
    run_byteStep_digits sizeMax rfl fun c hc => isdigit_of_mem_decimal hc
  have hcolon : byteStep sizeMax { body := decimal n, bodyLength := 0 } (byte ':') =
      some ({ body := [], bodyLength := n }, none) := by
    have hfits : ¬n > sizeMax := by
      simp only [sizeMax]
      omega
    have hdigit : ¬isdigit (byte ':') := by decide
    simp only [byteStep, if_true, hdigit, stoul_decimal hn, if_neg hfits, if_false, Bool.false_eq_true]
  rw [run_append_of_run hdigits, run_cons_of_step hcolon]
  simp

/-- A netstring is read as its body, and then the next one begins. -/
theorem run_byteStep_toString {body : Bytes} (hne : body ≠ []) (hsize : body.length < 2 ^ 64)
    (later : Bytes) :
    run (byteStep sizeMax) fresh (toString body ++ later) =
      (run (byteStep sizeMax) fresh later).map fun (p, requests) => (p, ⟨body, 0⟩ :: requests) := by
  have hlength : body.length ≠ 0 := List.length_eq_zero_iff.not.mpr hne
  have hdata : run (byteStep sizeMax) { body := [], bodyLength := body.length } body =
      some ({ body := [] ++ body, bodyLength := body.length }, []) :=
    run_byteStep_data sizeMax hlength (by simp)
  have hcomma : byteStep sizeMax { body := [] ++ body, bodyLength := body.length } (byte ',') =
      some (fresh, some ⟨body, 0⟩) := by
    simp [byteStep, hlength]
  have htext : toString body ++ later =
      decimal body.length ++ byte ':' :: (body ++ byte ',' :: later) := by
    simp [toString, ascii]
  rw [htext, run_byteStep_length hsize, run_append_of_run hdata, run_cons_of_step hcomma]
  simp [Function.comp_def]

/-- An empty netstring is refused: a parser that expects no bytes looks for a length. -/
theorem run_byteStep_toString_nil (later : Bytes) :
    run (byteStep sizeMax) fresh (toString [] ++ later) = none := by
  have htext : toString [] ++ later = decimal 0 ++ byte ':' :: (byte ',' :: later) := by
    simp [toString, ascii]
  have hcomma : byteStep sizeMax { body := [], bodyLength := 0 } (byte ',') = none := by decide
  rw [htext, run_byteStep_length (by decide), run_cons_of_refused hcomma]

/-- Netstrings that are written one after another are read as their bodies, if none is empty. At an empty one the
entity throws. -/
theorem run_byteStep_toStrings {bodies : List Bytes} (hsize : ∀ body ∈ bodies, body.length < 2 ^ 64) :
    run (byteStep sizeMax) fresh (bodies.flatMap toString) =
      if ∀ body ∈ bodies, body ≠ [] then some (fresh, bodies.map (⟨·, 0⟩)) else none := by
  induction bodies with
  | nil => rfl
  | cons body bodies ih =>
    obtain ⟨hbody, hrest⟩ := List.forall_mem_cons.mp hsize
    rw [List.flatMap_cons]
    by_cases hnil : body = []
    · subst hnil
      rw [run_byteStep_toString_nil]
      simp
    · rw [run_byteStep_toString hnil hbody, ih hrest]
      simp only [List.forall_mem_cons, hnil, ne_eq, not_false_eq_true, true_and]
      split_ifs <;> rfl

/-- However the netstrings of a list of texts are cut, a fresh parser returns these texts and is as it
was before exactly if no text is empty. -/
theorem feed_toString_iff (bodies pieces : List Bytes)
    (hsize : ∀ body ∈ bodies, body.length < 2 ^ 64)
    (hpieces : pieces.flatten = bodies.flatMap toString) :
    feed (fromStream sizeMax) fresh pieces = .returned (bodies.map (⟨·, 0⟩)) fresh ↔
      ∀ body ∈ bodies, body ≠ [] := by
  rw [(realizes sizeMax).feed_returned_iff fits_fresh, hpieces, run_byteStep_toStrings hsize]
  split_ifs with hne
  · exact iff_of_true rfl hne
  · exact iff_of_false (by simp) hne

/-- Texts that look like parts of netstrings. -/
theorem feed_toString_iff_lookAlikes :
    feed (fromStream sizeMax) fresh [ascii "4", ascii ":3:a,,2:", ascii ",5", ascii ","] =
      .returned [⟨ascii "3:a,", 0⟩, ⟨ascii ",5", 0⟩] fresh :=
  (feed_toString_iff [ascii "3:a,", ascii ",5"] _ (by decide) (by decide)).mpr (by decide)

/-- The netstring of the empty text is rejected. -/
theorem not_feed_toString :
    ¬∀ bodies pieces : List Bytes, (∀ body ∈ bodies, body.length < 2 ^ 64) →
      (∀ piece ∈ pieces, piece ≠ []) → pieces.flatten = bodies.flatMap toString →
        feed (fromStream sizeMax) fresh pieces = .returned (bodies.map (⟨·, 0⟩)) fresh := by
  intro h
  have hempty := h [[]] [ascii "0:,"] (by decide) (by decide) (by decide)
  exact absurd hempty (by decide)

end NetstringEntity

end PrimeServer
