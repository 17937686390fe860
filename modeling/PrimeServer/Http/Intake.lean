import PrimeServer.Http.Tokens
import PrimeServer.Library.Transition

/-!
# A request parser over many calls

`Intake` is a request parser together with the call of `from_stream` that it is in, and what the
statements about sizes talk about: the bytes received for the request that is still being parsed.
Its steps are a call and a turn of the loop, so that its runs go through every evaluation of the
check at the top of the loop. `Intake.run_fromStream` shows that these are the runs of `from_stream`.

A parser that threw may be called again: when a rejection cannot be sent, `server_t` keeps the
session.
-/

namespace PrimeServer

open Chunking Transition

/-- A request parser between calls of `from_stream`, or in one. -/
structure Intake where
  /-- The parser, kept between the calls. -/
  parser : RequestParser
  /-- The limit and the bytes not read yet of the call that the parser is in. -/
  call : Option (ℕ × Bytes)
  /-- The bytes received since the last request was handed out. -/
  received : ℕ
  /-- A call has thrown. -/
  failed : Bool
  deriving DecidableEq

/-- What can happen to a request parser. -/
inductive Intake.Event where
  /-- `from_stream` is called with a limit and a message. -/
  | call (maxSize : ℕ) (start : Bytes)
  /-- The loop of the call takes its next turn. -/
  | turn

namespace Intake

/-- The parser of a new connection. -/
def fresh : Intake where
  parser := .fresh
  call := none
  received := 0
  failed := false

/-- The parser after a turn of the loop. -/
def after (s : Intake) (maxSize : ℕ) (cursor : Bytes) :
    Turn RequestFields HttpRequest RequestError → Option Intake
  | .stop (.returned _ p) =>
    some { s with parser := p, call := none, received := s.received + cursor.length }
  | .stop (.threw _ p) =>
    some { parser := p, call := none, received := s.received + cursor.length, failed := true }
  | .stop .diverged => none
  | .again none p rest =>
    some
      { s with
        parser := p
        call := some (maxSize, rest)
        received := s.received + (cursor.length - rest.length) }
  | .again (some _) p rest => some { s with parser := p, call := some (maxSize, rest), received := 0 }

/-- One step. -/
def step (curl : Curl) (s : Intake) : Event → Option Intake
  | .call maxSize start =>
    match s.call with
    | none => some (if start = [] then s else { s with call := some (maxSize, start) })
    | some _ => none
  | .turn =>
    match s.call with
    | none => none
    | some (maxSize, cursor) =>
      s.after maxSize cursor ((RequestParser.grammar curl maxSize).turn s.parser cursor)

/-- A call begins when no other one is going on. One without bytes returns at once. -/
theorem step_call_eq_some_iff {curl : Curl} {s t : Intake} {maxSize : ℕ} {start : Bytes} :
    step curl s (.call maxSize start) = some t ↔
      s.call = none ∧ t = if start = [] then s else { s with call := some (maxSize, start) } := by
  cases hcall : s.call <;> simp [step, hcall, eq_comm]

/-- A turn of the loop is taken in a call. -/
theorem step_turn_eq_some_iff {curl : Curl} {s t : Intake} :
    step curl s .turn = some t ↔
      ∃ maxSize cursor, s.call = some (maxSize, cursor) ∧
        s.after maxSize cursor ((RequestParser.grammar curl maxSize).turn s.parser cursor) =
          some t := by
  cases hcall : s.call with
  | none => simp [step, hcall]
  | some call =>
    obtain ⟨maxSize, cursor⟩ := call
    simp only [step, hcall, Option.some.injEq, Prod.mk.injEq]
    constructor
    · exact fun h => ⟨maxSize, cursor, ⟨rfl, rfl⟩, h⟩
    · rintro ⟨_, _, ⟨rfl, rfl⟩, h⟩
      exact h

/-- All that a turn of the loop can do. -/
inductive Turned (curl : Curl) (s : Intake) (maxSize : ℕ) (cursor : Bytes) : Intake → Prop where
  /-- The request is over the limit: `from_stream` throws and the rest of the message is lost. -/
  | oversized (hsize : maxSize < s.parser.occupied) :
      Turned curl s maxSize cursor
        { s with call := none, received := s.received + cursor.length, failed := true }
  /-- The message ends inside a token. -/
  | suspended (hsize : s.parser.occupied ≤ maxSize) (hc : ¬s.parser.Complete cursor)
      (hran : RequestParser.ranOut (s.parser.suspended cursor) = none) :
      Turned curl s maxSize cursor
        { s with
          parser := s.parser.suspended cursor
          call := none
          received := s.received + cursor.length }
  /-- The message ends inside a token, and the check of the method or of the version fails. -/
  | ranOut {e : RequestError} (hsize : s.parser.occupied ≤ maxSize) (hc : ¬s.parser.Complete cursor)
      (hran : RequestParser.ranOut (s.parser.suspended cursor) = some e) :
      Turned curl s maxSize cursor
        { parser := s.parser.suspended cursor
          call := none
          received := s.received + cursor.length
          failed := true }
  /-- A token ends, and is not one that the parser takes. -/
  | threw {e : RequestError} {p : RequestParser} (hsize : s.parser.occupied ≤ maxSize)
      (hc : s.parser.Complete cursor)
      (hp : RequestParser.token curl (s.parser.completed cursor) = .threw e p) :
      Turned curl s maxSize cursor
        { parser := p, call := none, received := s.received + cursor.length, failed := true }
  /-- A token ends and the request goes on. -/
  | advanced {p : RequestParser} (hsize : s.parser.occupied ≤ maxSize) (hc : s.parser.Complete cursor)
      (hp : RequestParser.Advances curl (s.parser.completed cursor) none p) :
      Turned curl s maxSize cursor
        { s with
          parser := p.clearBuffer
          call := some (maxSize, (s.parser.search cursor).rest)
          received := s.received + (s.parser.search cursor).read.length }
  /-- A token ends, and the request with it: the count of its bytes begins anew. -/
  | emitted {p : RequestParser} {request : HttpRequest} (hsize : s.parser.occupied ≤ maxSize)
      (hc : s.parser.Complete cursor)
      (hp : RequestParser.Advances curl (s.parser.completed cursor) (some request) p) :
      Turned curl s maxSize cursor
        { s with
          parser := p.clearBuffer
          call := some (maxSize, (s.parser.search cursor).rest)
          received := 0 }

/-- A turn is one of those that `Turned` lists. -/
theorem turned_of_step {curl : Curl} {s t : Intake} (h : step curl s .turn = some t) :
    ∃ maxSize cursor, s.call = some (maxSize, cursor) ∧ Turned curl s maxSize cursor t := by
  obtain ⟨maxSize, cursor, hcall, hafter⟩ := step_turn_eq_some_iff.mp h
  refine ⟨maxSize, cursor, hcall, ?_⟩
  by_cases hsize : maxSize < s.parser.occupied
  · rw [Grammar.turn_of_oversized (e := .request HttpRequest.response413)
      (by simp [RequestParser.grammar, RequestParser.oversized, hsize])] at hafter
    obtain rfl := Option.some.inj hafter
    exact .oversized hsize
  have hfits : (RequestParser.grammar curl maxSize).oversized s.parser = none := by
    simp [RequestParser.grammar, RequestParser.oversized, hsize]
  replace hsize := Nat.not_lt.mp hsize
  by_cases hc : s.parser.Complete cursor
  · rw [Grammar.turn_of_complete hfits hc] at hafter
    cases htoken : RequestParser.token curl (s.parser.completed cursor) with
    | threw e p =>
      simp only [RequestParser.grammar, htoken] at hafter
      obtain rfl := Option.some.inj hafter
      exact .threw hsize hc htoken
    | next m p =>
      -- what is left tells how much the turn has read
      have hread : cursor.length - (s.parser.search cursor).rest.length =
          (s.parser.search cursor).read.length := by
        have hsplit := s.parser.length_search cursor
        omega
      have hp := RequestParser.token_eq_next_iff.mp htoken
      simp only [RequestParser.grammar, htoken] at hafter
      cases m with
      | none =>
        obtain rfl := Option.some.inj hafter
        rw [hread]
        exact .advanced hsize hc hp
      | some request =>
        obtain rfl := Option.some.inj hafter
        exact .emitted hsize hc hp
  · rw [Grammar.turn_of_not_complete hfits hc] at hafter
    cases hran : RequestParser.ranOut (s.parser.suspended cursor) with
    | none =>
      simp only [RequestParser.grammar, hran] at hafter
      obtain rfl := Option.some.inj hafter
      exact .suspended hsize hc hran
    | some e =>
      simp only [RequestParser.grammar, hran] at hafter
      obtain rfl := Option.some.inj hafter
      exact .ranOut hsize hc hran

/-- Between turns, and also after an exception, the delimiter goes with the state. -/
theorem wellFormed_of_run {curl : Curl} {events : List Event} {s : Intake}
    (hrun : run (step curl) fresh events = some s) :
    s.parser.WellFormed RequestParser.delimiterOf := by
  refine invariant_of_steps (P := fun s => s.parser.WellFormed RequestParser.delimiterOf)
    RequestParser.wellFormed_fresh (fun s event t hs hstep => ?_) hrun
  cases event with
  | call maxSize start =>
    obtain ⟨-, rfl⟩ := step_call_eq_some_iff.mp hstep
    split_ifs <;> exact hs
  | turn =>
    obtain ⟨maxSize, cursor, -, hturned⟩ := turned_of_step hstep
    have hlawful := RequestParser.grammar_lawful curl maxSize
    cases hturned with
    | oversized => exact hs
    | suspended _ hc | ranOut _ hc => exact hs.suspended hc
    | @threw _ p _ hc hp =>
      -- the exception changes nothing that the invariant is about
      replace hp := RequestParser.toHttpEntity_of_token_threw hp
      have hdelimiter : p.delimiter = (s.parser.completed cursor).delimiter :=
        congrArg HttpEntity.delimiter hp
      have hstate : p.state = (s.parser.completed cursor).state := congrArg HttpEntity.state hp
      have hprogress : p.partialLength = 0 := congrArg HttpEntity.partialLength hp
      exact ⟨by rw [hdelimiter, hstate]; exact hs.delimiter_eq, by simp [hprogress]⟩
    | advanced _ hc hp | emitted _ hc hp =>
      obtain ⟨hd, hk⟩ := hlawful.token_next (p := s.parser.completed cursor) hs.delimiter_eq rfl
        (RequestParser.token_eq_next_iff.mpr hp)
      exact ⟨hd, by simp [Parser.clearBuffer, hk]⟩

/-- The turns of a loop that reads `r` end with the parser that `r` has. -/
theorem run_of_reads {curl : Curl} {maxSize : ℕ} {p : RequestParser} {cursor : Bytes}
    {r : Reading RequestParser HttpRequest RequestError}
    (h : (RequestParser.grammar curl maxSize).Reads p cursor r) {s : Intake} (hp : s.parser = p)
    (hcall : s.call = some (maxSize, cursor)) :
    ∃ n t, run (step curl) s (List.replicate n .turn) = some t ∧ t.call = none ∧
      ((∃ ms, r = .returned ms t.parser ∧ t.failed = s.failed) ∨
        ∃ e, r = .threw e t.parser ∧ t.failed = true) := by
  induction h generalizing s with
  | @stop p cursor r hturn =>
    -- the last turn
    subst hp
    have hafter : step curl s .turn = s.after maxSize cursor (.stop r) := by
      simp only [step, hcall, hturn]
    have hrun : ∀ t, s.after maxSize cursor (.stop r) = some t →
        run (step curl) s (List.replicate 1 .turn) = some t := by
      intro t ht
      rw [List.replicate_one, run_cons, hafter, ht]
      rfl
    cases r with
    | returned ms q => exact ⟨1, _, hrun _ rfl, rfl, .inl ⟨ms, rfl, rfl⟩⟩
    | threw e q => exact ⟨1, _, hrun _ rfl, rfl, .inr ⟨e, rfl, rfl⟩⟩
    | diverged => exact absurd hturn (Grammar.turn_ne_stop_diverged _ _)
  | @again p q cursor rest emitted r hturn _ ih =>
    -- one turn, and those for the rest of the bytes
    subst hp
    obtain ⟨u, hu, hparser, hcall', hfailed⟩ : ∃ u, step curl s .turn = some u ∧ u.parser = q ∧
        u.call = some (maxSize, rest) ∧ u.failed = s.failed := by
      cases emitted <;> simp [step, hcall, hturn, after]
    obtain ⟨n, t, hrun, hnone, hr⟩ := ih hparser hcall'
    refine ⟨n + 1, t, by rw [List.replicate_succ, run_cons, hu]; exact hrun, hnone, ?_⟩
    rcases hr with ⟨ms, rfl, hf⟩ | ⟨e, rfl, hf⟩
    · exact .inl ⟨_, rfl, hf.trans hfailed⟩
    · exact .inr ⟨e, rfl, hf⟩

/-- A call of `from_stream` is a run of steps: a call and the turns of its loop. -/
theorem run_fromStream (curl : Curl) {s : Intake} (hs : s.parser.WellFormed RequestParser.delimiterOf)
    (hcall : s.call = none) (maxSize : ℕ) (start : Bytes) :
    ∃ n t, run (step curl) s (.call maxSize start :: List.replicate n .turn) = some t ∧
      t.call = none ∧
      ((∃ ms, RequestParser.fromStream curl s.parser maxSize start = .returned ms t.parser ∧
          t.failed = s.failed) ∨
        ∃ e, RequestParser.fromStream curl s.parser maxSize start = .threw e t.parser ∧
          t.failed = true) := by
  by_cases hne : start = []
  · refine ⟨0, s, ?_, hcall, .inl ⟨[], ?_, rfl⟩⟩
    · rw [List.replicate_zero, run_cons, step, hcall, if_pos hne]
      rfl
    · simp [RequestParser.fromStream, Grammar.fromStream, hne]
  · have hreads := ((RequestParser.grammar_lawful curl maxSize).fromStream_eq_iff_reads hs hne).mp rfl
    obtain ⟨n, t, hrun, hnone, hr⟩ :=
      run_of_reads (s := { s with call := some (maxSize, start) }) hreads rfl rfl
    refine ⟨n, t, ?_, hnone, hr⟩
    rw [run_cons, step, hcall, if_neg hne]
    exact hrun

end Intake

end PrimeServer
