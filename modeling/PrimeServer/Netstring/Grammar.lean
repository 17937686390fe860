import PrimeServer.Netstring.Entity
import Mathlib.Data.List.Induction

/-!
# What is taken for netstrings

The parser tells a length from a body by `body_length == 0`. After the length zero it therefore looks
for the next length at once, and neither returns an empty body nor asks for its comma. `Netstring.text`
is a netstring as it should stand in a stream, `Netstring.taken` is what the parser takes in its place.

## Main results

* `NetstringEntity.exists_netstrings_of_run`: all that can be behind bytes that the parser takes;
* `NetstringEntity.netstrings_iff`: what is taken in full is a sequence of netstrings exactly if no
  length zero is announced in it;
* `NetstringEntity.buffered_iff`: what is kept between calls stays within the limit, or within the twenty
  digits of a length, exactly if no call ends in a longer run of digits where a length stands.
-/

namespace PrimeServer

/-- A netstring. The digits of its length may begin with zeros. -/
structure Netstring where
  /-- The length as it is written. -/
  digits : Bytes
  body : Bytes
  /-- The digits are the length of the body. -/
  spells : Spells 10 digits body.length

namespace Netstring

/-- The netstring in a stream. -/
def text (m : Netstring) : Bytes := m.digits ++ byte ':' :: (m.body ++ [byte ','])

/-- What the parser takes for the netstring. -/
def taken (m : Netstring) : Bytes :=
  m.digits ++ byte ':' :: if m.body = [] then [] else m.body ++ [byte ',']

/-- What the parser returns for the netstring. -/
def requests (m : Netstring) : List NetstringEntity := if m.body = [] then [] else [⟨m.body, 0⟩]

/-- A netstring with a body is taken for its text. -/
theorem taken_eq_text {m : Netstring} (h : m.body ≠ []) : m.taken = m.text := by
  rw [taken, if_neg h, text]

/-- A netstring with a body is one request. -/
theorem requests_eq {m : Netstring} (h : m.body ≠ []) : m.requests = [⟨m.body, 0⟩] := if_neg h

/-- A length consists of digits. -/
theorem isdigit_of_mem_digits (m : Netstring) : ∀ c ∈ m.digits, isdigit c :=
  isdigit_of_spells m.spells

/-- A length has no colon in it, so that it ends at the first one. -/
theorem colon_notMem_of_isdigit {digits : Bytes} (h : ∀ c ∈ digits, isdigit c) : byte ':' ∉ digits :=
  fun hc => absurd (h _ hc) (by decide)

/-- The digits in front of the first colon are the same in all readings of a text. -/
theorem digits_eq {m : Netstring} {digits rest rest' : Bytes} (hdigits : ∀ c ∈ digits, isdigit c)
    (h : m.digits ++ byte ':' :: rest = digits ++ byte ':' :: rest') :
    m.digits = digits ∧ rest = rest' := by
  have hsame : m.digits = digits :=
    before_unique (colon_notMem_of_isdigit m.isdigit_of_mem_digits) (colon_notMem_of_isdigit hdigits) h
  rw [hsame] at h
  exact ⟨hsame, (List.cons.inj (List.append_cancel_left h)).2⟩

/-- Digits spell one number. -/
theorem length_body_eq {m : Netstring} {n : ℕ} (h : Spells 10 m.digits n) : m.body.length = n := by
  have hm := (spells_ten_iff m.isdigit_of_mem_digits).mp m.spells
  have hn := (spells_ten_iff m.isdigit_of_mem_digits).mp h
  exact hm.2.symm.trans hn.2

/-- A text begins with one netstring at most. -/
theorem text_append_inj {m m' : Netstring} {rest rest' : Bytes}
    (h : m.text ++ rest = m'.text ++ rest') : m.digits = m'.digits ∧ m.body = m'.body ∧ rest = rest' := by
  simp only [text, List.append_assoc, List.cons_append] at h
  obtain ⟨hdigits, hafter⟩ := digits_eq m'.isdigit_of_mem_digits h
  have hlength : m.body.length = m'.body.length := length_body_eq (hdigits ▸ m'.spells)
  obtain ⟨hbody, hrest⟩ := List.append_inj hafter hlength
  exact ⟨hdigits, hbody, (List.cons.inj hrest).2⟩

end Netstring

namespace NetstringEntity

open Automaton Chunking

variable {maxSize : ℕ} {p q : NetstringEntity} {c : UInt8} {s rest : Bytes}
  {request : Option NetstringEntity} {requests : List NetstringEntity}

/-- What the parser keeps of a message that is not complete. -/
inductive Pending (maxSize : ℕ) : Bytes → NetstringEntity → Prop
  /-- The digits of a length. -/
  | length {digits : Bytes} (hdigits : ∀ c ∈ digits, isdigit c) : Pending maxSize digits ⟨digits, 0⟩
  /-- The body so far. -/
  | data {digits body : Bytes} {n : ℕ} (hspells : Spells 10 digits n) (hn : n ≠ 0) (hsize : n ≤ maxSize)
      (hfits : body.length ≤ n) : Pending maxSize (digits ++ byte ':' :: body) ⟨body, n⟩

/-- A byte goes on with a message or completes one. -/
theorem Pending.byteStep (hp : Pending maxSize rest p)
    (h : NetstringEntity.byteStep maxSize p c = some (q, request)) :
    Pending maxSize (rest ++ [c]) q ∧ request = none ∨
      ∃ m : Netstring, rest ++ [c] = m.taken ∧ q = fresh ∧ request.toList = m.requests := by
  cases hp with
  | length hdigits =>
    rw [NetstringEntity.byteStep, if_pos rfl] at h
    by_cases hdigit : isdigit c
    · rw [if_pos hdigit] at h
      obtain ⟨rfl, rfl⟩ : _ = q ∧ none = request := by simpa using h
      exact Or.inl ⟨.length (List.forall_mem_append.mpr ⟨hdigits, by simpa using hdigit⟩), rfl⟩
    · rw [if_neg hdigit, Option.ite_none_right_eq_some] at h
      obtain ⟨rfl, h⟩ := h
      cases hn : stoul 10 rest with
      | error e => simp [hn] at h
      | ok n =>
        -- the byte is the colon behind the length
        obtain ⟨hspells, -⟩ := (stoul_ten_iff hdigits).mp hn
        simp only [hn, Option.ite_none_left_eq_some, Option.some.injEq, Prod.mk.injEq] at h
        obtain ⟨hsize, rfl, rfl⟩ := h
        by_cases hzero : n = 0
        · -- the parser is back where it was, and looks for a length
          subst hzero
          exact Or.inr ⟨⟨rest, [], hspells⟩, rfl, rfl, rfl⟩
        · exact Or.inl ⟨.data hspells hzero (by omega) (Nat.zero_le _), rfl⟩
  | @data digits body n hspells hn hsize hfits =>
    rw [NetstringEntity.byteStep, if_neg hn] at h
    by_cases hroom : body.length < n
    · rw [if_pos hroom] at h
      obtain ⟨rfl, rfl⟩ : _ = q ∧ none = request := by simpa using h
      have hdata : Pending maxSize (digits ++ byte ':' :: (body ++ [c])) ⟨body ++ [c], n⟩ := by
        refine .data hspells hn hsize ?_
        rw [List.length_append]
        exact hroom
      exact Or.inl ⟨by simpa using hdata, rfl⟩
    · rw [if_neg hroom, Option.ite_none_right_eq_some] at h
      obtain ⟨rfl, h⟩ := h
      obtain ⟨rfl, rfl⟩ : fresh = q ∧ some ⟨body, 0⟩ = request := by simpa using h
      obtain rfl : body.length = n := by omega
      -- the byte is the comma behind the body
      have hbody : body ≠ [] := fun hnil => hn (by rw [hnil, List.length_nil])
      refine Or.inr ⟨⟨digits, body, hspells⟩, ?_, rfl, ?_⟩
      · rw [Netstring.taken_eq_text hbody]
        simp [Netstring.text]
      · rw [Netstring.requests_eq hbody, Option.toList_some]

/-- Bytes that are taken are messages, and a beginning of one. -/
theorem exists_netstrings_of_run (h : run (NetstringEntity.byteStep maxSize) fresh s = some (q, requests)) :
    ∃ (ms : List Netstring) (rest : Bytes), s = ms.flatMap Netstring.taken ++ rest ∧
      requests = ms.flatMap Netstring.requests ∧ Pending maxSize rest q := by
  have hstart : Pending maxSize [] fresh := .length (by simp)
  -- the stream is followed from its beginning, one byte more at a time
  induction s using List.reverseRecOn generalizing q requests with
  | nil =>
    obtain ⟨rfl, rfl⟩ : fresh = q ∧ [] = requests := by simpa using h
    exact ⟨[], [], rfl, rfl, hstart⟩
  | append_singleton s c ih =>
    rw [run_append, Option.bind_eq_some_iff] at h
    obtain ⟨⟨p, done⟩, hrun, h⟩ := h
    obtain ⟨ms, rest, rfl, rfl, hp⟩ := ih hrun
    obtain ⟨⟨u, new⟩, hlast, heq⟩ := Option.map_eq_some_iff.mp h
    obtain ⟨rfl, rfl⟩ : u = q ∧ _ ++ new = requests := by simpa using heq
    obtain ⟨request, hstep, rfl⟩ :
        ∃ request, NetstringEntity.byteStep maxSize p c = some (u, request) ∧ request.toList = new := by
      simpa [run_cons, Option.bind_eq_some_iff] using hlast
    rcases hp.byteStep hstep with ⟨hpending, rfl⟩ | ⟨m, hm, rfl, hrequests⟩
    · exact ⟨ms, rest ++ [c], by simp, by simp, hpending⟩
    · refine ⟨ms ++ [m], [], ?_, ?_, hstart⟩
      · simp [hm]
      · simp [hrequests]

/-- Where the colon after a length is taken, the length is that of the body. -/
theorem byteStep_colon {m : Netstring}
    (h : NetstringEntity.byteStep maxSize ⟨m.digits, 0⟩ (byte ':') ≠ none) :
    NetstringEntity.byteStep maxSize ⟨m.digits, 0⟩ (byte ':') = some (⟨[], m.body.length⟩, none) := by
  have hdigit : ¬isdigit (byte ':') := by decide
  cases hn : stoul 10 m.digits with
  | error e =>
    have hrefused : NetstringEntity.byteStep maxSize ⟨m.digits, 0⟩ (byte ':') = none := by
      simp [NetstringEntity.byteStep, hdigit, hn]
    exact absurd hrefused h
  | ok n =>
    have htaken : NetstringEntity.byteStep maxSize ⟨m.digits, 0⟩ (byte ':') =
        if n > maxSize then none else some (⟨[], n⟩, none) := by
      simp [NetstringEntity.byteStep, hdigit, hn]
    obtain ⟨hspells, -⟩ := (stoul_ten_iff m.isdigit_of_mem_digits).mp hn
    rw [← Netstring.length_body_eq hspells] at htaken
    by_cases hlarge : m.body.length > maxSize
    · rw [if_pos hlarge] at htaken
      exact absurd htaken h
    · rw [htaken, if_neg hlarge]

/-- What is taken for a netstring leads the parser back to the beginning. -/
theorem run_of_taken_append {m : Netstring} {later : Bytes}
    (h : run (NetstringEntity.byteStep maxSize) fresh (m.taken ++ later) = some (q, requests)) :
    ∃ more, run (NetstringEntity.byteStep maxSize) fresh later = some (q, more) ∧
      requests = m.requests ++ more := by
  -- the digits go to the body one by one, then the colon makes a length of them
  have hdigits : run (NetstringEntity.byteStep maxSize) fresh m.digits = some (⟨m.digits, 0⟩, []) :=
    run_byteStep_digits maxSize rfl m.isdigit_of_mem_digits
  rw [Netstring.taken, List.append_assoc, run_append_of_run hdigits, List.cons_append] at h
  have hcolon : NetstringEntity.byteStep maxSize ⟨m.digits, 0⟩ (byte ':') =
      some (⟨[], m.body.length⟩, none) := by
    refine byteStep_colon fun hrefused => ?_
    rw [run_cons_of_refused hrefused] at h
    cases h
  rw [run_cons_of_step hcolon] at h
  by_cases hbody : m.body = []
  · -- after the length zero the parser is where it began
    rw [if_pos hbody, hbody, List.length_nil, List.nil_append] at h
    refine ⟨requests, ?_, ?_⟩
    · simpa [fresh] using h
    · rw [Netstring.requests, if_pos hbody, List.nil_append]
  · have hlength : m.body.length ≠ 0 := List.length_eq_zero_iff.not.mpr hbody
    have hdata : run (NetstringEntity.byteStep maxSize) ⟨[], m.body.length⟩ m.body =
        some (⟨m.body, m.body.length⟩, []) :=
      run_byteStep_data maxSize hlength (by simp)
    have hcomma : NetstringEntity.byteStep maxSize ⟨m.body, m.body.length⟩ (byte ',') =
        some (fresh, some ⟨m.body, 0⟩) := by
      rw [NetstringEntity.byteStep, if_neg hlength, if_neg (lt_irrefl _), if_pos rfl]
    rw [if_neg hbody, List.append_assoc, run_append_of_run hdata, List.cons_append,
      run_cons_of_step hcomma, List.nil_append] at h
    rw [Netstring.requests_eq hbody]
    simp only [Option.map_map, Option.map_eq_some_iff] at h
    obtain ⟨⟨u, more⟩, hlater, heq⟩ := h
    obtain ⟨rfl, rfl⟩ : u = q ∧ ⟨m.body, 0⟩ :: more = requests := by simpa using heq
    exact ⟨more, hlater, rfl⟩

/-! ### Nothing but netstrings -/

/-- After some netstrings the length zero is announced. -/
def AnnouncesZero (s : Bytes) : Prop :=
  ∃ (ms : List Netstring) (digits rest : Bytes),
    s = ms.flatMap Netstring.text ++ (digits ++ byte ':' :: rest) ∧ Spells 10 digits 0

/-- After the length zero a comma is out of place. -/
theorem body_ne_nil_of_run {m : Netstring} {later : Bytes}
    (h : run (NetstringEntity.byteStep maxSize) fresh (m.text ++ later) = some (q, requests)) :
    m.body ≠ [] := by
  intro hbody
  have htext : m.text ++ later = m.taken ++ byte ',' :: later := by
    simp [Netstring.text, Netstring.taken, hbody]
  rw [htext] at h
  obtain ⟨more, hlater, -⟩ := run_of_taken_append h
  have hcomma : NetstringEntity.byteStep maxSize fresh (byte ',') = none := by
    have hdigit : ¬isdigit (byte ',') := by decide
    have hcolon : byte ',' ≠ byte ':' := by decide
    simp [NetstringEntity.byteStep, fresh, hdigit, hcolon]
  rw [run_cons_of_refused hcomma] at hlater
  cases hlater

/-- Where netstrings are taken, no length zero is announced. -/
theorem not_announcesZero_of_run {ms : List Netstring}
    (h : run (NetstringEntity.byteStep maxSize) fresh (ms.flatMap Netstring.text) = some (q, requests)) :
    ¬AnnouncesZero (ms.flatMap Netstring.text) := by
  rintro ⟨ms', digits, rest, hsplit, hzero⟩
  -- the netstrings in front of the length zero are those that were taken, one after another
  induction ms generalizing ms' requests with
  | nil =>
    have hnil := (List.append_eq_nil_iff.mp hsplit.symm).2
    simp at hnil
  | cons m ms ih =>
    rw [List.flatMap_cons] at h hsplit
    have hbody : m.body ≠ [] := body_ne_nil_of_run h
    cases ms' with
    | nil =>
      rw [List.flatMap_nil, List.nil_append, Netstring.text, List.append_assoc, List.cons_append] at hsplit
      obtain ⟨hdigits, -⟩ := Netstring.digits_eq (isdigit_of_spells hzero) hsplit
      have hlength : m.body.length = 0 := Netstring.length_body_eq (hdigits ▸ hzero)
      exact hbody (List.length_eq_zero_iff.mp hlength)
    | cons m' ms' =>
      rw [List.flatMap_cons, List.append_assoc] at hsplit
      obtain ⟨-, -, hrest⟩ := Netstring.text_append_inj hsplit
      rw [← Netstring.taken_eq_text hbody] at h
      obtain ⟨more, hlater, -⟩ := run_of_taken_append h
      exact ih hlater ms' hrest

/-- Without the length zero, what is taken for netstrings are netstrings. -/
theorem text_of_not_announcesZero {ms : List Netstring}
    (h : ¬AnnouncesZero (ms.flatMap Netstring.taken)) :
    ms.flatMap Netstring.taken = ms.flatMap Netstring.text ∧
      ms.flatMap Netstring.requests = ms.map fun m => ⟨m.body, 0⟩ := by
  induction ms with
  | nil => exact ⟨rfl, rfl⟩
  | cons m ms ih =>
    rw [List.flatMap_cons] at h
    have hbody : m.body ≠ [] := by
      intro hbody
      -- the length of an empty body is the length zero
      have hzero : Spells 10 m.digits 0 := by simpa [hbody] using m.spells
      refine h ⟨[], m.digits, ms.flatMap Netstring.taken, ?_, hzero⟩
      simp [Netstring.taken, hbody]
    rw [Netstring.taken_eq_text hbody] at h
    obtain ⟨htaken, hrequests⟩ := ih fun ⟨ms', digits, rest, hsplit, hzero⟩ =>
      h ⟨m :: ms', digits, rest, by simp [hsplit], hzero⟩
    constructor
    · rw [List.flatMap_cons, List.flatMap_cons, htaken, Netstring.taken_eq_text hbody]
    · rw [List.flatMap_cons, hrequests, Netstring.requests_eq hbody]
      rfl

/-- A stream from which a fresh parser returned messages and of which nothing is left was a sequence of
netstrings with the bodies that were returned exactly if it did not announce the length zero. -/
theorem netstrings_iff (h : fromStream maxSize fresh s = .returned requests q) (hbody : q.body = [])
    (hlength : q.bodyLength = 0) :
    (∃ ms : List Netstring, s = ms.flatMap Netstring.text ∧ requests.map (·.body) = ms.map (·.body)) ↔
      ¬AnnouncesZero s := by
  have hrun := ((realizes maxSize).returned_iff fits_fresh).mp h
  constructor
  · rintro ⟨ms, rfl, -⟩
    exact not_announcesZero_of_run hrun
  · intro hzero
    obtain ⟨ms, rest, rfl, rfl, hpending⟩ := exists_netstrings_of_run hrun
    -- nothing of a netstring is left
    obtain rfl : rest = [] := by
      cases hpending with
      | length => exact hbody
      | data _ hn => exact absurd hlength hn
    rw [List.append_nil] at hzero ⊢
    obtain ⟨htaken, hrequests⟩ := text_of_not_announcesZero hzero
    refine ⟨ms, htaken, ?_⟩
    rw [hrequests, List.map_map]
    rfl

/-- `netstrings_iff` for a text with a length that begins with a zero. -/
theorem netstrings_iff_leadingZeros :
    (∃ ms : List Netstring, ascii "05:hello,3:a,b," = ms.flatMap Netstring.text ∧
        [ascii "hello", ascii "a,b"] = ms.map (·.body)) ↔
      ¬AnnouncesZero (ascii "05:hello,3:a,b,") :=
  netstrings_iff (show fromStream sizeMax fresh (ascii "05:hello,3:a,b,") =
    .returned [⟨ascii "hello", 0⟩, ⟨ascii "a,b", 0⟩] fresh by decide) rfl rfl

/-- A length zero is skipped, and what follows it is read as if it had not been there. -/
theorem not_netstrings :
    ¬∀ (maxSize : ℕ) (s : Bytes) (requests : List NetstringEntity) (q : NetstringEntity),
      fromStream maxSize fresh s = .returned requests q → q.body = [] → q.bodyLength = 0 →
        ∃ ms : List Netstring, s = ms.flatMap Netstring.text ∧
          requests.map (·.body) = ms.map (·.body) := by
  intro h
  have hread : fromStream sizeMax fresh (ascii "0:5:hello,") =
      .returned [⟨ascii "hello", 0⟩] fresh := by decide
  obtain ⟨ms, hms, -⟩ := h sizeMax _ _ _ hread rfl rfl
  have hrun := ((realizes sizeMax).returned_iff fits_fresh).mp hread
  rw [hms] at hrun
  refine not_announcesZero_of_run hrun ?_
  rw [← hms]
  exact ⟨[], ascii "0", ascii "5:hello,", rfl, by decide, [0], by decide, rfl⟩

/-! ### What is kept between calls -/

/-- The bytes end where a length stands, with more than `limit` digits of it. -/
def EndsInLength (limit : ℕ) (s : Bytes) : Prop :=
  ∃ (ms : List Netstring) (digits : Bytes), s = ms.flatMap Netstring.taken ++ digits ∧
    (∀ c ∈ digits, isdigit c) ∧ limit < digits.length

/-- Digits where a length stands are kept. -/
theorem body_eq_of_run {ms : List Netstring} {digits : Bytes} (hdigits : ∀ c ∈ digits, isdigit c)
    (h : run (NetstringEntity.byteStep maxSize) fresh (ms.flatMap Netstring.taken ++ digits) =
      some (q, requests)) : q.body = digits := by
  induction ms generalizing requests with
  | nil =>
    have hkept := run_byteStep_digits maxSize (p := fresh) rfl hdigits
    rw [List.flatMap_nil, List.nil_append, hkept] at h
    obtain ⟨rfl, -⟩ : _ = q ∧ [] = requests := by simpa using h
    rfl
  | cons m ms ih =>
    rw [List.flatMap_cons, List.append_assoc] at h
    obtain ⟨more, hlater, -⟩ := run_of_taken_append h
    exact ih hlater

/-- What is kept of some bytes is longer than `limit` exactly if they end in so many digits of a length. -/
theorem body_length_le_iff {limit : ℕ} (hlimit : maxSize ≤ limit)
    (h : run (NetstringEntity.byteStep maxSize) fresh s = some (q, requests)) :
    q.body.length ≤ limit ↔ ¬EndsInLength limit s := by
  constructor
  · rintro hbody ⟨ms, digits, rfl, hdigits, hlong⟩
    rw [body_eq_of_run hdigits h] at hbody
    omega
  · intro hends
    obtain ⟨ms, rest, rfl, -, hpending⟩ := exists_netstrings_of_run h
    cases hpending with
    | length hdigits =>
      by_contra hlong
      exact hends ⟨ms, rest, rfl, hdigits, Nat.lt_of_not_le hlong⟩
    | data _ _ hsize hfits => exact hfits.trans (hsize.trans hlimit)

/-- However a stream that is not rejected is cut, what is kept between calls is at most as long as the
limit, or as the digits of a 64-bit length, exactly if no call ends within a length of more digits. -/
theorem buffered_iff {pieces : List Bytes}
    (h : feed (fromStream maxSize) fresh pieces = .returned requests q) :
    (∀ done, done <+: pieces → ∀ requests q,
        feed (fromStream maxSize) fresh done = .returned requests q →
          q.body.length ≤ max maxSize 20) ↔
      ∀ done, done <+: pieces → ¬EndsInLength (max maxSize 20) done.flatten := by
  have hlimit : maxSize ≤ max maxSize 20 := le_max_left _ _
  have hkept : ∀ done, done <+: pieces → ∃ requests q,
      feed (fromStream maxSize) fresh done = .returned requests q ∧
        (q.body.length ≤ max maxSize 20 ↔ ¬EndsInLength (max maxSize 20) done.flatten) := by
    rintro done ⟨later, rfl⟩
    -- what is not rejected as a whole is not rejected up to here
    rw [(realizes maxSize).feed_returned_iff fits_fresh, List.flatten_append, run_append,
      Option.bind_eq_some_iff] at h
    obtain ⟨⟨u, ms⟩, hdone, -⟩ := h
    exact ⟨ms, u, ((realizes maxSize).feed_returned_iff fits_fresh done).mpr hdone,
      body_length_le_iff hlimit hdone⟩
  constructor
  · intro hbounded done hprefix
    obtain ⟨ms, u, hfeed, hiff⟩ := hkept done hprefix
    exact hiff.mp (hbounded done hprefix ms u hfeed)
  · intro hends done hprefix ms u hfeed
    obtain ⟨ms', u', hfeed', hiff⟩ := hkept done hprefix
    obtain ⟨-, rfl⟩ := Reading.returned.inj (hfeed.symm.trans hfeed')
    exact hiff.mpr (hends done hprefix)

/-- `buffered_iff` for a stream in three pieces. -/
theorem buffered_iff_threePieces :
    (∀ done, done <+: [ascii "00", ascii "3:a", ascii "bc,1"] → ∀ requests q,
        feed (fromStream 5) fresh done = .returned requests q → q.body.length ≤ max 5 20) ↔
      ∀ done, done <+: [ascii "00", ascii "3:a", ascii "bc,1"] → ¬EndsInLength (max 5 20) done.flatten :=
  buffered_iff (show feed (fromStream 5) fresh [ascii "00", ascii "3:a", ascii "bc,1"] =
    .returned [⟨ascii "abc", 0⟩] ⟨ascii "1", 0⟩ by decide)

/-- Nothing limits the digits of a length. -/
theorem not_buffered :
    ¬∀ (maxSize : ℕ) (pieces : List Bytes) (requests : List NetstringEntity) (q : NetstringEntity),
      feed (fromStream maxSize) fresh pieces = .returned requests q →
        q.body.length ≤ max maxSize 20 := by
  intro h
  have hzeros := h 5 [ascii "000000000000000000000"] [] ⟨ascii "000000000000000000000", 0⟩ (by decide)
  exact absurd hzeros (by decide)

end NetstringEntity

end PrimeServer
