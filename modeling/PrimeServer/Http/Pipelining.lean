import PrimeServer.Http.Endings
import PrimeServer.Http.RoundTrip
import PrimeServer.Http.SizeLimit

/-!
# Pipelined requests

A client may send requests one after another, and the stream of them may be cut anywhere. The check at the
top of the loop of `from_stream` adds up bytes that were counted, bytes in the buffer, and bytes that were
announced. All of them are bytes of one request, so that none is rejected unless it is itself too long.

## Main results

* `RequestParser.feed_pipelined`: requests within the limit are all handed out, each as soon as its last byte
  is there.
-/

namespace PrimeServer

open Chunking

/-- A turn with which the message goes on. -/
theorem Grammar.Ends.of_again {φ μ ε : Type} {g : Grammar φ μ ε} {p q : Parser φ} {cursor rest : Bytes}
    {v : Ending φ μ ε} (h : g.Ends p cursor v) (hturn : g.turn p cursor = .again none q rest) :
    g.Ends q rest v := by
  cases h with
  | threw hturn' | suspended hturn' | handed hturn' => simp [hturn] at hturn'
  | again hturn' hrest =>
    obtain ⟨-, rfl, rfl⟩ := Turn.again.inj (hturn.symm.trans hturn')
    exact hrest

namespace RequestParser

variable {curl : Curl} {maxSize : ℕ} {p q t : RequestParser} {request : HttpRequest}

/-! ### The beginning of a request -/

/-- A parser at the beginning of a request, with the method of the one before. -/
def beginning (method : Method) : RequestParser :=
  { fresh with fields := { fresh.fields with method } }

/-- The parser can go on at the beginning of each request. -/
theorem wellFormed_beginning (method : Method) : (beginning method).WellFormed delimiterOf :=
  ⟨rfl, Nat.zero_le _⟩

/-- At the beginning of a request the parser waits for bytes. -/
theorem not_complete_beginning (method : Method) : ¬(beginning method).Complete [] := by
  change ¬Delimiter.SkipComplete (ascii " ") 0 0 []
  decide

/-- After each request the parser is at the beginning of the next one, and only keeps the method of the last one. -/
theorem beginning_of_emitted (h : Advances curl p (some request) q) :
    q.clearBuffer = beginning p.fields.method := by
  cases h <;> rfl

/-- The method of the request before is not looked at. -/
theorem turn_beginning (method : Method) {cursor rest : Bytes} {emitted : Option HttpRequest}
    (hturn : (grammar curl sizeMax).turn fresh cursor = .again emitted q rest) :
    (grammar curl sizeMax).turn (beginning method) cursor = .again emitted q rest := by
  obtain ⟨-, hc, hrest, r, htoken, hq⟩ := Grammar.turn_eq_again_iff.mp hturn
  have hadvances : Advances curl (fresh.completed cursor) emitted r := token_eq_next_iff.mp htoken
  suffices h : Advances curl ((beginning method).completed cursor) emitted r from
    Grammar.turn_eq_again_iff.mpr
      ⟨oversized_sizeMax (beginning method), hc, hrest, r, h.token_eq, hq⟩
  generalize hp : fresh.completed cursor = p at hadvances
  have hs : p.state = .method := by
    rw [← hp]
    rfl
  cases hadvances with
  | method _ hm =>
    subst hp
    exact .method rfl hm
  | path hs' | version hs' | sized hs' | chunked hs' | plain hs' | trailed hs' | body hs' | chunkLength hs'
    | chunk hs' => simp [hs] at hs'
  | header hs' => simp [hs] at hs'

/-- The method that is left over from the last request makes no difference to the next one. -/
theorem ends_beginning (method : Method) {cursor rest : Bytes}
    (h : (grammar curl sizeMax).Ends fresh cursor (.handed request q rest)) :
    (grammar curl sizeMax).Ends (beginning method) cursor (.handed request q rest) := by
  cases h with
  | handed hturn => exact .handed (turn_beginning method hturn)
  | again hturn hrest => exact .again (turn_beginning method hturn) hrest

/-! ### Within the limit -/

/-- So many bytes of a request the parser has at most, counted or in its buffer. -/
def Holds (p : RequestParser) (n : ℕ) : Prop :=
  p.consumed + p.partialBuffer.length ≤ n

/-- What was announced is still to come, so that a request within the limit is not too long. -/
theorem oversized_of_holds {n : ℕ} (hp : p.Holds n) {cursor : Bytes} (hc : p.Complete cursor)
    (hle : n + cursor.length ≤ maxSize) : oversized maxSize p = none := by
  have hlength : p.bodyLength ≤ cursor.length := hc.1
  have hoccupied : p.occupied ≤ p.consumed + p.partialBuffer.length + p.bodyLength := Nat.mod_le _ _
  unfold Holds at hp
  rw [oversized, if_neg (by omega)]

/-- Where the limit is not met, it makes no difference. -/
theorem turn_eq (h : oversized maxSize p = none) (cursor : Bytes) :
    (grammar curl maxSize).turn p cursor = (grammar curl sizeMax).turn p cursor := by
  have hlimited : (grammar curl maxSize).oversized p = none := h
  have hunlimited : (grammar curl sizeMax).oversized p = none := oversized_sizeMax p
  rw [Grammar.turn, Grammar.turn, hlimited, hunlimited]
  rfl

/-- A token that does not end the request takes bytes from the cursor. -/
theorem holds_of_again {n : ℕ} (hp : p.Holds n) {read rest : Bytes}
    (hturn : (grammar curl sizeMax).turn p (read ++ rest) = .again none q rest) :
    q.Holds (n + read.length) := by
  obtain ⟨-, -, hrest, r, htoken, rfl⟩ := Grammar.turn_eq_again_iff.mp hturn
  obtain ⟨hconsumed, -⟩ := (token_eq_next_iff.mp htoken).bodyLength_eq
  have hlength := p.length_search (read ++ rest)
  have hcount : (p.completed (read ++ rest)).consumed ≤
      p.consumed + (p.search (read ++ rest)).read.length := Nat.mod_le _ _
  rw [← hrest, List.length_append] at hlength
  unfold Holds at hp ⊢
  simp only [Parser.clearBuffer, List.length_nil, hconsumed]
  omega

/-- A part of a request is read, and the rest of the request is still to come. -/
theorem reads_inside {n : ℕ} {x y : Bytes} (hp : p.Holds n) (hy : y ≠ [])
    (hle : n + (x ++ y).length ≤ maxSize)
    (hends : (grammar curl sizeMax).Ends p (x ++ y) (.handed request q []))
    {messages : List HttpRequest}
    (h : (grammar curl sizeMax).Reads p x (.returned messages t)) :
    (grammar curl maxSize).Reads p x (.returned messages t) ∧ t.Holds (n + x.length) := by
  generalize hr : Reading.returned messages t = r at h
  induction h generalizing n messages with
  | @stop p cursor r hturn =>
    subst hr
    have hsize := oversized_of_holds hp (hends.complete rfl) hle
    refine ⟨.stop (by rwa [turn_eq hsize]), ?_⟩
    cases Grammar.turn_eq_stop_iff.mp hturn with
    | suspended =>
      unfold Holds at hp ⊢
      simp only [Parser.suspended, List.length_append]
      omega
  | @again p s cursor rest emitted r hturn hrest ih =>
    obtain ⟨read, rfl, hlater⟩ := Grammar.turn_append_of_again hturn
    rw [List.append_assoc] at hends hle
    obtain ⟨later, rfl, hmessages⟩ := Reading.prepend_eq_returned.mp hr.symm
    cases emitted with
    | some m =>
      -- the request would end before its last bytes
      obtain ⟨-, -, hnil⟩ := Ending.handed.inj (hends.unique (.handed (hlater (rest ++ y))))
      exact absurd (List.append_eq_nil_iff.mp hnil.symm).2 hy
    | none =>
      have hs := holds_of_again hp hturn
      have hsize := oversized_of_holds hp (hends.complete rfl) hle
      rw [List.length_append] at hle ⊢
      obtain ⟨hreads, ht⟩ := ih hs (by omega) (hends.of_again (hlater (rest ++ y))) rfl
      refine ⟨.again (by rwa [turn_eq hsize]) hreads, ?_⟩
      rwa [Nat.add_assoc] at ht

/-- A request is read to its end. -/
theorem reads_whole {n : ℕ} {w : Bytes} (hp : p.Holds n) (hle : n + w.length ≤ maxSize)
    (hends : (grammar curl sizeMax).Ends p w (.handed request q [])) (x : Bytes)
    {r : Reading RequestParser HttpRequest RequestError} (hr : (grammar curl maxSize).Reads q x r) :
    (grammar curl maxSize).Reads p (w ++ x) (r.prepend [request]) := by
  generalize hv : Ending.handed request q [] = v at hends
  induction hends generalizing n with
  | threw | suspended => cases hv
  | @handed p s cursor rest m hturn =>
    obtain ⟨rfl, rfl, rfl⟩ := Ending.handed.inj hv
    obtain ⟨read, rfl, hlater⟩ := Grammar.turn_append_of_again hturn
    have hsize := oversized_of_holds hp (Grammar.turn_eq_again_iff.mp hturn).2.1 hle
    have hturn' : (grammar curl maxSize).turn p (read ++ x) = .again (some request) q x := by
      rw [turn_eq hsize]
      exact hlater x
    rw [List.append_nil]
    exact .again hturn' hr
  | @again p s cursor rest v hturn _ ih =>
    obtain ⟨read, rfl, hlater⟩ := Grammar.turn_append_of_again hturn
    have hsize := oversized_of_holds hp (Grammar.turn_eq_again_iff.mp hturn).2.1 hle
    rw [List.length_append] at hle
    have hreads := ih (holds_of_again hp hturn) (by omega) hv
    rw [List.append_assoc, ← Reading.prepend_nil (r.prepend [request])]
    exact .again (by rw [turn_eq hsize]; exact hlater (rest ++ x)) hreads

/-! ### Streams -/

/-- The text of one request, which is not too long. -/
structure Whole (curl : Curl) (maxSize : ℕ) (text : Bytes) (request : HttpRequest) : Prop where
  /-- It does not exceed the limit on its own. -/
  length_le : text.length ≤ maxSize
  /-- A fresh parser hands out the request with the last byte and nothing before. -/
  oneMessage : OneMessage .method (fromStream curl .fresh sizeMax text) request

/-- The text of a readable request is read as one request, with all the headers that were written. -/
theorem exists_whole {r : HttpRequest} (h : r.Readable) (hcurl : curl.Documented) {text : Bytes}
    (htext : r.toString curl = .ok text) (hle : text.length ≤ maxSize) :
    ∃ logLine, Whole curl maxSize text { r with headers := r.sentHeaders, logLine } := by
  obtain ⟨text', logLine, htext', hone⟩ := h.exists_oneMessage hcurl
  obtain rfl : text = text' := Except.ok.inj (htext.symm.trans htext')
  exact ⟨logLine, hle, hone⟩

/-- A parser in a stream of requests: what it has read of the next one, and the texts that are not yet read
to their ends. -/
inductive Awaits (curl : Curl) (maxSize : ℕ) :
    RequestParser → Bytes → List Bytes → List HttpRequest → Prop where
  /-- All requests were handed out. -/
  | done (method : Method) : Awaits curl maxSize (beginning method) [] [] []
  /-- The parser has read a part of the next request, and needs the rest of its text to hand it out. -/
  | next {p q : RequestParser} {read w : Bytes} {request : HttpRequest} {texts : List Bytes}
      {later : List HttpRequest} (hp : p.WellFormed delimiterOf) (hholds : p.Holds read.length)
      (hle : (read ++ w).length ≤ maxSize) (hw : w ≠ [])
      (hends : (grammar curl sizeMax).Ends p w (.handed request q []))
      (hlater : List.Forall₂ (Whole curl maxSize) texts later) :
      Awaits curl maxSize p read ((read ++ w) :: texts) (request :: later)

/-- A call with bytes does what the loop reads. -/
theorem reads_of_wellFormed (curl : Curl) (maxSize : ℕ) (hp : p.WellFormed delimiterOf) {cursor : Bytes}
    (hne : cursor ≠ []) :
    (grammar curl maxSize).Reads p cursor ((grammar curl maxSize).fromStream p cursor) :=
  ((grammar_lawful curl maxSize).fromStream_eq_iff_reads hp hne).mp rfl

/-- A parser at the beginning of a request awaits all texts that are still to come. -/
theorem awaits_beginning (method : Method) {texts : List Bytes} {requests : List HttpRequest}
    (h : List.Forall₂ (Whole curl maxSize) texts requests) :
    Awaits curl maxSize (beginning method) [] texts requests := by
  cases h with
  | nil => exact .done method
  | @cons text request texts later hwhole hlater =>
    obtain ⟨t, ht, hstate, hbuffer⟩ := hwhole.oneMessage
    have hne : text ≠ [] := by
      rintro rfl
      cases ht
    obtain ⟨q, hends⟩ := ((grammar_restarts curl).oneMessage_iff
      (reads_of_wellFormed curl sizeMax wellFormed_fresh hne)).mp ⟨t, ht, hstate, hbuffer⟩
    have hle : ([] ++ text).length ≤ maxSize := hwhole.length_le
    exact .next (wellFormed_beginning method) (Nat.le_refl 0) hle hne (ends_beginning method hends) hlater

/-- Nothing is read of nothing. -/
theorem reads_beginning (curl : Curl) (maxSize : ℕ) (method : Method) :
    (grammar curl maxSize).Reads (beginning method) [] (.returned [] (beginning method)) :=
  .of_stops (.suspended rfl (not_complete_beginning method) rfl)

/-- Where the bytes of a call end inside a request, the rest of it is still to come. -/
theorem exists_ends_of_cut {x y : Bytes} (hp : p.WellFormed delimiterOf) (hx : x ≠ []) (hy : y ≠ [])
    (hends : (grammar curl sizeMax).Ends p (x ++ y) (.handed request q [])) :
    ∃ t q', (grammar curl sizeMax).Reads p x (.returned [] t) ∧ t.WellFormed delimiterOf ∧
      (grammar curl sizeMax).Ends t y (.handed request q' []) := by
  have hl := grammar_lawful curl sizeMax
  have hxy : x ++ y ≠ [] := by simp [hx]
  obtain ⟨u, hu, hstate, hbuffer⟩ := ((grammar_restarts curl).oneMessage_iff
    (reads_of_wellFormed curl sizeMax hp hxy)).mpr ⟨q, hends⟩
  obtain ⟨before, t, after, u', hbefore, hafter, hmessages, hsame⟩ :=
    ((grammar_ignoresCuts curl).cutStable hl).returned hp hx hy hu
  have ht := hl.wellFormed_of_reads ((hl.fromStream_eq_iff_reads hp hx).mp hbefore) hp rfl
  have hrest := (hl.fromStream_eq_iff_reads ht hy).mp hafter
  have hstate' : u'.state = .method := (congrArg (fun p => p.state) hsame).symm.trans hstate
  have hbuffer' : u'.partialBuffer = [] := (congrArg (fun p => p.partialBuffer) hsame).symm.trans hbuffer
  rcases List.append_eq_singleton_iff.mp hmessages.symm with ⟨rfl, rfl⟩ | ⟨rfl, rfl⟩
  · obtain ⟨q', hends'⟩ := ((grammar_restarts curl).oneMessage_iff hrest).mp ⟨u', rfl, hstate', hbuffer'⟩
    exact ⟨t, q', (hl.fromStream_eq_iff_reads hp hx).mp hbefore, ht, hends'⟩
  · -- the request would end before its last bytes
    exact absurd ((grammar_restarts curl).eq_nil hrest hstate' hbuffer') hy

/-- A call of `from_stream` hands out the requests that it reads to their ends. -/
theorem Awaits.fromStream {read piece s : Bytes} {texts : List Bytes} {requests : List HttpRequest}
    (h : Awaits curl maxSize p read texts requests) (hpiece : piece ≠ [])
    (hstream : read ++ piece ++ s = texts.flatten) :
    ∃ k read' t, (grammar curl maxSize).fromStream p piece = .returned (requests.take k) t ∧
      read ++ piece = (texts.take k).flatten ++ read' ∧
      Awaits curl maxSize t read' (texts.drop k) (requests.drop k) := by
  induction texts generalizing p read piece requests with
  | nil => simp [hpiece] at hstream
  | cons text texts ih =>
    cases h with
    | @next _ q _ w request _ later hp hholds hle hw hends hlater =>
      have hl := grammar_lawful curl maxSize
      rw [List.flatten_cons, List.append_assoc, List.append_assoc] at hstream
      -- either the piece is only a part of what the request still lacks, or it has all of that and more
      have hcases : (∃ y, y ≠ [] ∧ w = piece ++ y) ∨ ∃ x, piece = w ++ x ∧ texts.flatten = x ++ s := by
        rcases List.append_eq_append_iff.mp (List.append_cancel_left hstream) with
          ⟨y, rfl, rfl⟩ | ⟨x, rfl, hx⟩
        · by_cases hy : y = []
          · subst hy
            exact Or.inr ⟨[], by simp, by simp⟩
          · exact Or.inl ⟨y, hy, rfl⟩
        · exact Or.inr ⟨x, rfl, hx⟩
      rcases hcases with ⟨y, hy, rfl⟩ | ⟨x, rfl, hx⟩
      · -- the piece ends inside the request
        obtain ⟨t, q', hreads, ht, hends'⟩ := exists_ends_of_cut hp hpiece hy hends
        rw [List.length_append] at hle
        obtain ⟨hlimited, hholds'⟩ := reads_inside hholds hy hle hends hreads
        refine ⟨0, read ++ piece, t, (hl.fromStream_eq_iff_reads hp hpiece).mpr hlimited, rfl, ?_⟩
        rw [List.drop_zero, List.drop_zero, ← List.append_assoc]
        rw [← List.length_append] at hholds' hle
        rw [← List.append_assoc] at hle
        exact .next ht hholds' hle hy hends' hlater
      · -- the request ends, and the parser begins with the next one
        obtain ⟨u, v, htoken, rfl⟩ := hends.exists_token rfl
        have hbegins := beginning_of_emitted (token_eq_next_iff.mp htoken)
        obtain ⟨k, read', t, hreads, hx', ht⟩ : ∃ k read' t,
            (grammar curl maxSize).Reads v.clearBuffer x (.returned (later.take k) t) ∧
              x = (texts.take k).flatten ++ read' ∧
              Awaits curl maxSize t read' (texts.drop k) (later.drop k) := by
          rw [hbegins]
          by_cases hnil : x = []
          · subst hnil
            exact ⟨0, [], _, reads_beginning curl maxSize _, rfl, awaits_beginning _ hlater⟩
          · obtain ⟨k, read', t, hreturned, hx', ht⟩ :=
              ih (awaits_beginning u.fields.method hlater) hnil hx.symm
            exact ⟨k, read', t,
              (hl.fromStream_eq_iff_reads (wellFormed_beginning _) hnil).mp hreturned, hx', ht⟩
        rw [List.length_append] at hle
        have hwhole := reads_whole hholds hle hends x hreads
        refine ⟨k + 1, read', t, (hl.fromStream_eq_iff_reads hp hpiece).mpr hwhole, ?_, ht⟩
        rw [List.take_succ_cons, List.flatten_cons, hx']
        simp only [List.append_assoc]

/-- Calls of `from_stream` do the same with their pieces. -/
theorem Awaits.feed {read : Bytes} {pieces texts : List Bytes} {requests : List HttpRequest}
    (h : Awaits curl maxSize p read texts requests) (hpieces : ∀ piece ∈ pieces, piece ≠ [])
    (hstream : read ++ pieces.flatten <+: texts.flatten) :
    ∃ k read' t, feed (grammar curl maxSize).fromStream p pieces = .returned (requests.take k) t ∧
      read ++ pieces.flatten = (texts.take k).flatten ++ read' ∧
      Awaits curl maxSize t read' (texts.drop k) (requests.drop k) := by
  induction pieces generalizing p read texts requests with
  | nil => exact ⟨0, read, p, rfl, by simp, h⟩
  | cons piece pieces ih =>
    obtain ⟨hpiece, hpieces⟩ := List.forall_mem_cons.mp hpieces
    rw [List.flatten_cons, ← List.append_assoc] at hstream ⊢
    obtain ⟨s, hs⟩ := hstream
    obtain ⟨k, read₁, t, hreturned, hread, ht⟩ := h.fromStream hpiece (by rw [← List.append_assoc, hs])
    -- the other pieces go on after the requests of the first one
    have hrest : read₁ ++ pieces.flatten <+: (texts.drop k).flatten := by
      have hflatten : (texts.take k).flatten ++ (read₁ ++ pieces.flatten ++ s) =
          (texts.take k).flatten ++ (texts.drop k).flatten := by
        rw [← List.flatten_append, List.take_append_drop, ← hs, hread]
        simp only [List.append_assoc]
      exact ⟨s, List.append_cancel_left hflatten⟩
    obtain ⟨k', read₂, u, hfeed, hread', hu⟩ := ih ht hpieces hrest
    refine ⟨k + k', read₂, u, ?_, ?_, ?_⟩
    · rw [feed_cons_of_returned hreturned, hfeed, Reading.prepend_returned, List.take_add]
    · rw [hread, List.append_assoc, hread', List.take_add, List.flatten_append, List.append_assoc]
    · rwa [List.drop_drop, List.drop_drop] at hu

/-- The requests of a stream, none of which is longer than the limit, are handed out in the calls that bring
their last bytes, wherever the stream is cut, and none is rejected. -/
theorem feed_pipelined {pieces texts : List Bytes} {requests : List HttpRequest}
    (htexts : List.Forall₂ (Whole curl maxSize) texts requests) (hpieces : ∀ piece ∈ pieces, piece ≠ [])
    (hstream : pieces.flatten <+: texts.flatten) :
    ∃ k read t, feed (fun p piece => RequestParser.fromStream curl p maxSize piece) fresh pieces =
        .returned (requests.take k) t ∧
      pieces.flatten = (texts.take k).flatten ++ read ∧
      (∀ text ∈ texts[k]?, read <+: text ∧ read ≠ text) ∧ (texts.length ≤ k → read = []) := by
  obtain ⟨k, read, t, hfeed, hread, ht⟩ := (awaits_beginning .get htexts).feed hpieces hstream
  refine ⟨k, read, t, hfeed, hread, ?_, ?_⟩
  · intro text htext
    generalize hdrop : texts.drop k = rest at ht
    generalize requests.drop k = later at ht
    have hhead : rest.head? = some text := by rw [← hdrop, List.head?_drop]; exact htext
    cases ht with
    | done => cases hhead
    | @next _ _ _ w _ _ _ _ _ _ hw =>
      obtain rfl := Option.some.inj hhead
      exact ⟨List.prefix_append _ _, fun h => hw (List.append_right_eq_self.mp h.symm)⟩
  · intro hlength
    rw [List.drop_of_length_le hlength] at ht
    generalize requests.drop k = later at ht
    cases ht
    rfl

/-- A request without a body, and one with two bytes. -/
def twoTexts : List Bytes :=
  [ascii "GET /a?x=1 HTTP/1.1\r\n\r\n", ascii "POST /b?y=2 HTTP/1.1\r\nContent-Length: 2\r\n\r\nhi"]

/-- The two requests, as they are parsed. -/
def twoRequests : List HttpRequest :=
  [{ method := .get
     path := ascii "/a"
     query := AssocMap.empty.insert (ascii "x") [ascii "1"]
     body := []
     headers := .empty
     version := ascii "HTTP/1.1"
     logLine := ascii "GET /a?x=1 HTTP/1.1" },
   { method := .post
     path := ascii "/b"
     query := AssocMap.empty.insert (ascii "y") [ascii "2"]
     body := ascii "hi"
     headers := AssocMap.empty.insert (ascii "Content-Length") (ascii "2")
     version := ascii "HTTP/1.1"
     logLine := ascii "POST /b?y=2 HTTP/1.1" }]

/-- Each of the two texts is one request of at most 45 bytes. -/
theorem whole_twoTexts : List.Forall₂ (Whole .percent 45) twoTexts twoRequests := by
  refine .cons ⟨by decide, _, rfl, ?_, ?_⟩ (.cons ⟨by decide, _, rfl, ?_, ?_⟩ .nil) <;> rfl

/-- No more than 45 bytes are allowed, and the stream is cut after 30 and after 67 of its 68 bytes. -/
theorem feed_pipelined_twoRequests :
    ∃ k read t, feed (fun p piece => RequestParser.fromStream .percent p 45 piece) fresh
        [twoTexts.flatten.take 30, (twoTexts.flatten.drop 30).take 37] = .returned (twoRequests.take k) t ∧
      [twoTexts.flatten.take 30, (twoTexts.flatten.drop 30).take 37].flatten =
        (twoTexts.take k).flatten ++ read ∧
      (∀ text ∈ twoTexts[k]?, read <+: text ∧ read ≠ text) ∧ (twoTexts.length ≤ k → read = []) :=
  feed_pipelined whole_twoTexts (by decide) (by decide)

end RequestParser

end PrimeServer
