import PrimeServer.Http.Percent
import PrimeServer.Http.Pointers
import PrimeServer.Library.Transition

/-!
# A parser over any calls

`Reader` is a parser of requests or of responses with the pointers of the call of `from_stream` that it is
in. Its steps are calls, with any bytes and any limit, and turns of the loop; a call may come after one that
threw.

## Main results

* `Reader.sound_of_run`: the invariant of all its runs;
* `Reader.exists_resting`: every loop ends;
* `Reader.run_fromStream`: a call and the turns of its loop do what `from_stream` does on lists of bytes;
* `parsers_safe`: in no run of the two parsers anything goes wrong with the pointers and sizes of
  `consume_until`.
-/

namespace PrimeServer

open Chunking Delimiter Transition

variable {φ μ ε : Type}

/-- What a parser is doing. -/
inductive Phase where
  /-- It waits for a call of `from_stream`. -/
  | resting
  /-- It is about to take a turn of the loop. -/
  | reading (maxSize : ℕ) (ptr : Pointers)
  /-- It has read or moved a pointer where it must not. -/
  | faulted (fault : Fault)
  deriving DecidableEq

/-- A parser and what it is doing. -/
structure Reader (φ : Type) where
  /-- The parser between two turns. -/
  parser : Parser φ
  /-- Whether it is in a call of `from_stream`, and what of the message is left to it. -/
  phase : Phase
  deriving DecidableEq

/-- What can happen to a parser. -/
inductive Reader.Event where
  /-- `from_stream` is called with a limit and a message. -/
  | call (maxSize : ℕ) (start : Bytes)
  /-- The loop of the call takes its next turn. -/
  | turn
  deriving DecidableEq

namespace Reader

/-- The parser after a turn. -/
def after (s : Reader φ) (maxSize : ℕ) : Except Fault (TurnAt φ μ ε) → Reader φ
  | .error fault => { s with phase := .faulted fault }
  | .ok (.returned p) => { parser := p, phase := .resting }
  | .ok (.threw _ p) => { parser := p, phase := .resting }
  | .ok (.again _ p ptr) => { parser := p, phase := .reading maxSize ptr }

/-- One step. The limit of a call decides which grammar its loop reads by. -/
def step (g : ℕ → Grammar φ μ ε) (s : Reader φ) : Event → Option (Reader φ)
  | .call maxSize start =>
    match s.phase with
    | .resting =>
      some (if start = [] then s else { s with phase := .reading maxSize (.ofMessage start) })
    | .reading .. | .faulted _ => none
  | .turn =>
    match s.phase with
    | .reading maxSize ptr => some (s.after maxSize ((g maxSize).turnAt s.parser ptr))
    | .resting | .faulted _ => none

/-- A call begins when no other one is going on. One without bytes returns at once. -/
theorem step_call_eq_some_iff {g : ℕ → Grammar φ μ ε} {s t : Reader φ} {maxSize : ℕ} {start : Bytes} :
    step g s (.call maxSize start) = some t ↔
      s.phase = .resting ∧
        t = if start = [] then s else { s with phase := .reading maxSize (.ofMessage start) } := by
  cases hphase : s.phase <;> simp [step, hphase, eq_comm]

/-- A turn of the loop is taken in a call, at the place that its pointers have come to. -/
theorem step_turn_eq_some_iff {g : ℕ → Grammar φ μ ε} {s t : Reader φ} :
    step g s .turn = some t ↔
      ∃ maxSize ptr, s.phase = .reading maxSize ptr ∧
        t = s.after maxSize ((g maxSize).turnAt s.parser ptr) := by
  cases hphase : s.phase <;> simp [step, hphase, eq_comm]

/-- A turn of a loop in which nothing goes wrong. -/
theorem step_turn_of_ok {g : ℕ → Grammar φ μ ε} {maxSize : ℕ} {p : Parser φ} {ptr : Pointers}
    {t : TurnAt φ μ ε} (ht : (g maxSize).turnAt p ptr = .ok t) :
    step g { parser := p, phase := .reading maxSize ptr } .turn =
      some (after { parser := p, phase := .reading maxSize ptr } maxSize (.ok t)) :=
  step_turn_eq_some_iff.mpr ⟨maxSize, ptr, rfl, by rw [ht]⟩

end Reader

/-! ### Between turns -/

/-- What holds of a parser between turns, also after an exception. -/
structure Parser.Steady (table : EntityState → Bytes) (p : Parser φ) : Prop
    extends p.WellFormed table where
  /-- What is in its buffer is what the bytes in it make of the delimiter. -/
  resumes : p.Resumes
  /-- While bytes are still to be skipped, nothing of the delimiter has been seen. -/
  skipping : p.bodyLength ≠ 0 → p.partialLength = 0

/-- What a grammar promises besides: a token that makes it throw leaves the entity as it is, and no delimiter
contains a NUL. -/
structure Grammar.Careful (g : Grammar φ μ ε) (table : EntityState → Bytes) : Prop
    extends g.Lawful table where
  /-- A token that throws has changed at most the fields of the subclass. -/
  token_threw : ∀ {p q e}, g.token p = .threw e q → q.toHttpEntity = p.toHttpEntity
  /-- A C string ends at its first NUL, so that a delimiter with one would be cut there. -/
  nul_notMem : ∀ s, 0 ∉ table s

namespace Parser.Steady

variable {table : EntityState → Bytes} {p : Parser φ}

/-- After a token nothing of a delimiter is matched, so that the progress is what it has to be. -/
theorem of_progress (hd : p.delimiter = table p.state) (hk : p.partialLength = 0) : p.Steady table where
  delimiter_eq := hd
  progress_le := hk ▸ Nat.zero_le _
  resumes := HttpEntity.resumes_of_progress hk
  skipping _ := hk

/-- The bytes ran out: what was seen of the delimiter last is at the end of what was read. -/
theorem suspended {cursor : Bytes} (hp : p.Steady table) (hc : ¬p.Complete cursor) :
    (p.suspended cursor).Steady table := by
  have hwell := hp.toWellFormed.suspended hc
  rcases Nat.lt_or_ge cursor.length p.bodyLength with hlt | hge
  · -- all bytes were skipped
    refine .of_progress hwell.delimiter_eq ?_
    change (p.search cursor).progress = 0
    rw [search, skipScan_of_length_lt hlt]
    exact hp.skipping (Nat.ne_zero_of_lt hlt)
  · have hprogress : (scan p.delimiter p.partialLength (cursor.drop p.bodyLength)).progress <
        p.delimiter.length := by
      by_contra hd
      exact hc ⟨hge, Nat.not_lt.mp hd⟩
    refine ⟨hwell, Or.inr ⟨hprogress, ?_⟩, fun hne => absurd (Nat.sub_eq_zero_of_le hge) hne⟩
    change p.delimiter.take (scan p.delimiter p.partialLength (cursor.drop p.bodyLength)).progress <:+
      p.partialBuffer ++ cursor
    by_cases hbody : p.bodyLength = 0
    · rw [hbody, List.drop_zero] at hprogress ⊢
      have hbuffer : p.delimiter.take p.partialLength <:+ p.partialBuffer := by
        rcases hp.resumes with ⟨hd, -⟩ | ⟨-, hsuffix⟩
        · simp [hd]
        · exact hsuffix
      exact take_progress_suffix hbuffer hprogress
    · -- the search began after what was skipped
      rw [hp.skipping hbody] at hprogress ⊢
      have hsearched : p.delimiter.take (scan p.delimiter 0 (cursor.drop p.bodyLength)).progress <:+
          [] ++ cursor.drop p.bodyLength := take_progress_suffix (by simp) hprogress
      exact hsearched.trans ((List.drop_suffix _ cursor).trans (List.suffix_append _ cursor))

end Parser.Steady

/-- The parser after a turn. -/
def TurnAt.parser : TurnAt φ μ ε → Parser φ
  | returned p | threw _ p | again _ p _ => p

/-- Whatever a turn does, the parser is steady after it. -/
theorem Grammar.Careful.steady_of_turn {g : Grammar φ μ ε} {table : EntityState → Bytes}
    (hg : g.Careful table) {p : Parser φ} {cursor : Bytes} (hp : p.Steady table) {t : TurnAt φ μ ε}
    (ht : t.toTurn = g.turn p cursor) : t.parser.Steady table := by
  cases t with
  | returned q =>
    cases turn_eq_stop_iff.mp ht.symm with
    | suspended _ hc => exact hp.suspended hc
  | threw e q =>
    cases turn_eq_stop_iff.mp ht.symm with
    | oversized => exact hp
    | ranOut _ hc => exact hp.suspended hc
    | threw _ _ htoken =>
      -- the buffer keeps the token, and nothing of the next delimiter has been seen
      have hentity := hg.token_threw htoken
      have hdelimiter : q.delimiter = (p.completed cursor).delimiter := congrArg HttpEntity.delimiter hentity
      have hstate : q.state = (p.completed cursor).state := congrArg HttpEntity.state hentity
      refine .of_progress ?_ (congrArg HttpEntity.partialLength hentity)
      change q.delimiter = table q.state
      rw [hdelimiter, hstate]
      exact hp.delimiter_eq
  | again emitted q ptr =>
    obtain ⟨-, -, -, r, htoken, rfl⟩ := turn_eq_again_iff.mp ht.symm
    obtain ⟨hd, hk⟩ := hg.token_next (p := p.completed cursor) hp.delimiter_eq rfl htoken
    exact .of_progress hd hk

/-! ### Runs -/

/-- The pointers of a call are in order, and nothing has gone wrong. -/
def Phase.Sound : Phase → Prop
  | resting => True
  | reading _ ptr => ptr.Valid
  | faulted _ => False

namespace Reader

section Sound

variable {g : ℕ → Grammar φ μ ε} {table : EntityState → Bytes} (hg : ∀ maxSize, (g maxSize).Careful table)

include hg

/-- What a turn does to a steady parser. -/
theorem exists_turnAt {p : Parser φ} (hp : p.Steady table) (maxSize : ℕ) {ptr : Pointers}
    (hptr : ptr.Valid) :
    ∃ t, (g maxSize).turnAt p ptr = .ok t ∧ t.toTurn = (g maxSize).turn p ptr.remaining ∧
      t.parser.Steady table ∧ ∀ emitted q ptr', t = .again emitted q ptr' → ptr'.Valid := by
  have hnul : 0 ∉ p.delimiter := hp.delimiter_eq ▸ (hg maxSize).nul_notMem _
  obtain ⟨t, ht, hturn, hvalid⟩ := Grammar.turnAt_eq (g := g maxSize) hnul hp.resumes hptr
  exact ⟨t, ht, hturn, (hg maxSize).steady_of_turn hp hturn, hvalid⟩

/-- A step keeps the parser steady and its pointers in order. -/
theorem sound_step {s u : Reader φ} {event : Event}
    (hs : s.parser.Steady table ∧ s.phase.Sound) (hstep : step g s event = some u) :
    u.parser.Steady table ∧ u.phase.Sound := by
  cases event with
  | call maxSize start =>
    obtain ⟨-, rfl⟩ := step_call_eq_some_iff.mp hstep
    split_ifs
    · exact hs
    · -- the pointers begin at the two ends of the message
      exact ⟨hs.1, Pointers.valid_ofMessage start⟩
  | turn =>
    obtain ⟨maxSize, ptr, hphase, rfl⟩ := step_turn_eq_some_iff.mp hstep
    obtain ⟨hsteady, hsound⟩ := hs
    rw [hphase] at hsound
    obtain ⟨t, ht, -, hnext, hvalid⟩ := exists_turnAt hg hsteady maxSize hsound
    rw [ht]
    cases t with
    | returned | threw => exact ⟨hnext, trivial⟩
    | again emitted q ptr' => exact ⟨hnext, hvalid emitted q ptr' rfl⟩

/-- After any events the parser can go on, and the pointers of a call that is going on are in order. -/
theorem sound_of_run {p : Parser φ} (hp : p.Steady table) {events : List Event} {s : Reader φ}
    (hrun : run (step g) { parser := p, phase := .resting } events = some s) :
    s.parser.Steady table ∧ s.phase.Sound := by
  have hstart : p.Steady table ∧ Phase.resting.Sound := ⟨hp, trivial⟩
  exact invariant_of_steps (P := fun s : Reader φ => s.parser.Steady table ∧ s.phase.Sound) hstart
    (fun _ _ _ hs hstep => sound_step hg hs hstep) hrun

/-- The turns of a loop that reads `r` end, with the parser that `r` has. -/
theorem run_of_reads {maxSize : ℕ} {p : Parser φ} {cursor : Bytes} {r : Reading (Parser φ) μ ε}
    (h : (g maxSize).Reads p cursor r) (hp : p.Steady table) {ptr : Pointers} (hptr : ptr.Valid)
    (hcursor : ptr.remaining = cursor) :
    ∃ n t, run (step g) { parser := p, phase := .reading maxSize ptr } (List.replicate n .turn) = some t ∧
      t.phase = .resting ∧ ((∃ messages, r = .returned messages t.parser) ∨ ∃ e, r = .threw e t.parser) := by
  induction h generalizing ptr with
  | @stop p cursor r hturn =>
    -- the last turn
    subst hcursor
    obtain ⟨t, ht, hstop, -, -⟩ := exists_turnAt hg hp maxSize hptr
    rw [hturn] at hstop
    refine ⟨1, after _ maxSize (.ok t), by rw [List.replicate_one, run_cons, step_turn_of_ok ht]; rfl, ?_⟩
    cases t with
    | returned q =>
      obtain rfl := Turn.stop.inj hstop
      exact ⟨rfl, .inl ⟨[], rfl⟩⟩
    | threw e q =>
      obtain rfl := Turn.stop.inj hstop
      exact ⟨rfl, .inr ⟨e, rfl⟩⟩
    | again => cases hstop
  | @again p q cursor rest emitted r hturn _ ih =>
    -- one turn, and those for the bytes that it leaves
    subst hcursor
    obtain ⟨t, ht, hgoes, hnext, hvalid⟩ := exists_turnAt hg hp maxSize hptr
    rw [hturn] at hgoes
    cases t with
    | returned | threw => cases hgoes
    | again emitted' q' ptr' =>
      obtain ⟨rfl, rfl, rfl⟩ := Turn.again.inj hgoes
      obtain ⟨n, u, hrun, hresting, hr⟩ := ih hnext (hvalid _ _ ptr' rfl) rfl
      refine ⟨n + 1, u, by rw [List.replicate_succ, run_cons, step_turn_of_ok ht]; exact hrun, hresting, ?_⟩
      rcases hr with ⟨messages, rfl⟩ | ⟨e, rfl⟩
      · exact .inl ⟨_, rfl⟩
      · exact .inr ⟨e, rfl⟩

/-- The loop ends. -/
theorem exists_resting {s : Reader φ} (hs : s.parser.Steady table) {maxSize : ℕ} {ptr : Pointers}
    (hphase : s.phase = .reading maxSize ptr) (hptr : ptr.Valid) :
    ∃ n t, run (step g) s (List.replicate n .turn) = some t ∧ t.phase = .resting := by
  obtain ⟨p, phase⟩ := s
  obtain rfl : phase = .reading maxSize ptr := hphase
  -- each turn after which the loop goes on leaves less for the next ones
  have hends : (g maxSize).loop (p.turnsLeft ptr.remaining + 1) p ptr.remaining ≠ .diverged :=
    (hg maxSize).loop_ne_diverged hs.toWellFormed (Nat.lt_succ_self _)
  obtain ⟨n, t, hrun, hresting, -⟩ := run_of_reads hg (Grammar.reads_of_loop rfl hends) hs hptr rfl
  exact ⟨n, t, hrun, hresting⟩

/-- A call of `from_stream` is a run of steps: a call and the turns of its loop. -/
theorem run_fromStream {p : Parser φ} (hp : p.Steady table) (maxSize : ℕ) (start : Bytes) :
    ∃ n t, run (step g) { parser := p, phase := .resting } (.call maxSize start :: List.replicate n .turn) =
        some t ∧ t.phase = .resting ∧
      ((∃ messages, (g maxSize).fromStream p start = .returned messages t.parser) ∨
        ∃ e, (g maxSize).fromStream p start = .threw e t.parser) := by
  by_cases hne : start = []
  · refine ⟨0, { parser := p, phase := .resting }, ?_, rfl, .inl ⟨[], by rw [Grammar.fromStream, if_pos hne]⟩⟩
    rw [List.replicate_zero, run_cons, step, if_pos hne]
    rfl
  · -- the loop reads the whole message, from a parser that is in order
    have hreads := ((hg maxSize).fromStream_eq_iff_reads hp.toWellFormed hne).mp rfl
    obtain ⟨n, t, hrun, ht⟩ := run_of_reads hg hreads hp (Pointers.valid_ofMessage start)
      (Pointers.remaining_ofMessage start)
    refine ⟨n, t, ?_, ht⟩
    rw [run_cons, step, if_neg hne]
    exact hrun

end Sound

/-- Whatever happens to the parser `p`, nothing goes wrong with the pointers and sizes of `consume_until`.
Whenever the loop is about to take a turn, `consume_until` finds what it relies on, `cursor` is not behind
`end`, and some turns later the loop has ended. -/
def Safe (g : ℕ → Grammar φ μ ε) (p : Parser φ) : Prop :=
  ∀ events s, run (step g) { parser := p, phase := .resting } events = some s →
    (∀ fault, s.phase ≠ .faulted fault) ∧
      ∀ maxSize ptr, s.phase = .reading maxSize ptr →
        s.parser.Resumes ∧ ptr.cursor ≤ ptr.stop ∧
          ∃ n t, run (step g) s (List.replicate n .turn) = some t ∧ t.phase = .resting

/-- A steady parser is safe: no turn of any call faults. -/
theorem safe_of_steady {g : ℕ → Grammar φ μ ε} {table : EntityState → Bytes}
    (hg : ∀ maxSize, (g maxSize).Careful table) {p : Parser φ} (hp : p.Steady table) : Safe g p := by
  intro events s hrun
  obtain ⟨hsteady, hsound⟩ := sound_of_run hg hp hrun
  refine ⟨fun fault hfault => ?_, fun maxSize ptr hphase => ?_⟩
  · rw [hfault] at hsound
    exact hsound
  · rw [hphase] at hsound
    exact ⟨hsteady.resumes, hsound.cursor_le, exists_resting hg hsteady hphase hsound⟩

end Reader

/-! ### Requests and responses -/

namespace RequestParser

/-- `http_request_t(method, path, body, query, headers, version)`. -/
def make (method : Method) (path body : Bytes) (query : Query) (headers : Headers) (version : Bytes) :
    RequestParser where
  toHttpEntity := .make version headers body
  fields := { method, path, query, logLine := [] }

/-- The parser as one of the two constructors of `http_request_t` leaves it. -/
inductive Constructed : RequestParser → Prop where
  | default : Constructed fresh
  | parts (method : Method) (path body : Bytes) (query : Query) (headers : Headers) (version : Bytes) :
      Constructed (make method path body query headers version)

/-- Requests: the delimiters are not empty and have no NUL in them, and each token leaves the parser ready for the
next. -/
theorem grammar_careful (curl : Curl) (maxSize : ℕ) : (grammar curl maxSize).Careful delimiterOf where
  toLawful := grammar_lawful curl maxSize
  token_threw := toHttpEntity_of_token_threw
  nul_notMem s := by cases s <;> decide

/-- A parser that was just constructed can be used. -/
theorem Constructed.steady {p : RequestParser} (h : p.Constructed) : p.Steady delimiterOf := by
  cases h <;> exact .of_progress rfl rfl

end RequestParser

namespace ResponseParser

/-- `http_response_t(code, message, body, headers, version)`. -/
def make (code : ℕ) (message body : Bytes) (headers : Headers) (version : Bytes) : ResponseParser where
  toHttpEntity := .make version headers body
  fields := { code, message }

/-- The parser as one of the two constructors of `http_response_t` leaves it. -/
inductive Constructed : ResponseParser → Prop where
  | default : Constructed fresh
  | parts (code : ℕ) (message body : Bytes) (headers : Headers) (version : Bytes) :
      Constructed (make code message body headers version)

/-- The delimiter of each state of a response. One that is made of its parts starts in the state of a request,
in which it throws, but it has a delimiter there. -/
def delimiterIn (state : EntityState) : Bytes := if state = .method then ascii " " else delimiterOf state

/-- A response is in the state of a request neither before a token that it can go on with nor after it. -/
theorem Advances.state_ne_method {p q : ResponseParser} {emitted : Option HttpResponse}
    (h : Advances p emitted q) : p.state ≠ .method ∧ q.state ≠ .method := by
  cases h with
  | version hs | code hs | message hs | sized hs | chunked hs | plain hs | trailed hs | body hs | chunk hs =>
    rw [hs]
    exact ⟨nofun, nofun⟩
  | header hs => rcases hs with hs | hs <;> simp [hs]
  | chunkLength hs => split_ifs <;> simp [hs]

/-- Responses: the delimiters are not empty and have no NUL in them, and each token leaves the parser ready for the
next. -/
theorem grammar_careful : grammar.Careful delimiterIn where
  table_nil s hnil := by
    unfold delimiterIn at hnil
    split_ifs at hnil
    · exact absurd hnil (by decide)
    · exact grammar_lawful.table_nil s hnil
  token_next {p q emitted} hd hk htoken := by
    obtain ⟨hp, hq⟩ := (token_eq_next_iff.mp htoken).state_ne_method
    rw [delimiterIn, if_neg hp] at hd
    rw [delimiterIn, if_neg hq]
    exact grammar_lawful.token_next hd hk htoken
  token_body := grammar_lawful.token_body
  token_threw htoken := congrArg Parser.toHttpEntity (eq_of_token_threw htoken)
  nul_notMem s := by cases s <;> decide

/-- A parser of responses that was just constructed can be used. -/
theorem Constructed.steady {p : ResponseParser} (h : p.Constructed) : p.Steady delimiterIn := by
  cases h <;> exact .of_progress rfl rfl

end ResponseParser

/-- Nothing goes wrong in the parser of requests, nor in that of responses. -/
theorem parsers_safe (curl : Curl) :
    (∀ p : RequestParser, p.Constructed → Reader.Safe (RequestParser.grammar curl) p) ∧
      ∀ p : ResponseParser, p.Constructed → Reader.Safe (fun _ => ResponseParser.grammar) p :=
  ⟨fun _ hp => Reader.safe_of_steady (RequestParser.grammar_careful curl) hp.steady,
    fun _ hp => Reader.safe_of_steady (fun _ => ResponseParser.grammar_careful) hp.steady⟩

/-- `parsers_safe` for the two parsers of new connections. -/
theorem parsers_safe_fresh :
    Reader.Safe (RequestParser.grammar .percent) RequestParser.fresh ∧
      Reader.Safe (fun _ => ResponseParser.grammar) ResponseParser.fresh :=
  ⟨(parsers_safe .percent).1 _ .default, (parsers_safe .percent).2 _ .default⟩

-- a refused method stays in the buffer, and the next call goes on from there
example : (run (Reader.step (RequestParser.grammar .percent))
    { parser := RequestParser.fresh, phase := .resting }
    [.call 100 (ascii "FOO "), .turn, .call 100 (ascii "BAR "), .turn]).map
      (fun s => (s.phase, s.parser.partialBuffer)) = some (.resting, ascii "FOOBAR") := by
  decide

end PrimeServer
