import PrimeServer.Http.Scanner
import PrimeServer.Library.Transition
import PrimeServer.Netstring.Client

/-!
# How long a client goes on

`batch` goes on while the collect function wants more. It learns that from the flag `more`, which is
reset in each round and is written only when a response is complete. So a round whose first message
completes no response ends `batch`.

## Main results

* `Client.keepsUp`: if the first message of each round completes a response, and nothing is thrown, the
  responses that are handed over up to the first answer `false` do not depend on how the stream is cut,
  and `batch` returns only after that answer.
-/

namespace PrimeServer

open Transition

namespace Collect

variable (collect : Collect)

/-- The responses up to and including the first that is answered with `false`, when others were handed
over before. -/
def untilFalse : List Bytes → List Bytes → List Bytes
  | _, [] => []
  | handed, response :: responses =>
    if collect handed response = .ok false then [response]
    else response :: untilFalse (handed ++ [response]) responses

/-- One of the responses is answered with `false`. -/
def Declines : List Bytes → List Bytes → Prop
  | _, [] => False
  | handed, response :: responses =>
    collect handed response = .ok false ∨ Declines (handed ++ [response]) responses

/-- Nothing is thrown before a response is answered with `false`. -/
def Willing : List Bytes → List Bytes → Prop
  | _, [] => True
  | handed, response :: responses =>
    collect handed response = .ok false ∨
      collect handed response = .ok true ∧ Willing (handed ++ [response]) responses

instance decidableDeclines : ∀ handed responses, Decidable (collect.Declines handed responses)
  | _, [] => isFalse id
  | handed, response :: responses =>
    have := decidableDeclines (handed ++ [response]) responses
    inferInstanceAs (Decidable (_ ∨ _))

instance decidableWilling : ∀ handed responses, Decidable (collect.Willing handed responses)
  | _, [] => isTrue trivial
  | handed, response :: responses =>
    have := decidableWilling (handed ++ [response]) responses
    inferInstanceAs (Decidable (_ ∨ _ ∧ _))

variable {collect}

/-- `collect_function` answers `false` within a list of responses exactly if it does so in the first part of it, or in
the second one after the first was handed over. -/
theorem declines_append {handed first later : List Bytes} :
    collect.Declines handed (first ++ later) ↔
      collect.Declines handed first ∨ collect.Declines (handed ++ first) later := by
  induction first generalizing handed with
  | nil => simp [Declines]
  | cons response first ih => simp [Declines, ih, or_assoc]

/-- What comes after the first answer `false` is of no importance. -/
theorem untilFalse_append {handed first : List Bytes} (h : collect.Declines handed first)
    (later : List Bytes) :
    collect.untilFalse handed (first ++ later) = collect.untilFalse handed first := by
  induction first generalizing handed with
  | nil => exact h.elim
  | cons response first ih =>
    rw [List.cons_append, untilFalse, untilFalse]
    by_cases hfalse : collect handed response = .ok false
    · rw [if_pos hfalse, if_pos hfalse]
    · rw [if_neg hfalse, if_neg hfalse, ih (h.resolve_left hfalse)]

/-- What comes after the first `false` does not count, wherever the stream ends. -/
theorem untilFalse_eq_first {first all : List Bytes} (h : collect.Declines [] first)
    (hfirst : first <+: all) : collect.untilFalse [] all = collect.untilFalse [] first := by
  obtain ⟨later, rfl⟩ := hfirst
  exact untilFalse_append h later

/-- An answer `false` stays one when more responses come after it. -/
theorem Declines.of_first {first all : List Bytes} (h : collect.Declines [] first)
    (hfirst : first <+: all) : collect.Declines [] all := by
  obtain ⟨later, rfl⟩ := hfirst
  exact declines_append.mpr (Or.inl h)

/-- Responses that are all wanted are all handed over. -/
theorem gather_of_not_declines {handed responses : List Bytes}
    (hwilling : collect.Willing handed responses) (hwanted : ¬collect.Declines handed responses)
    (more : Bool) :
    collect.gather more handed responses = (none, more || !responses.isEmpty, handed ++ responses) := by
  induction responses generalizing handed more with
  | nil => simp [gather]
  | cons response responses ih =>
    rw [Declines, not_or] at hwanted
    obtain ⟨htrue, hrest⟩ := hwilling.resolve_left hwanted.1
    simp [gather, htrue, ih hrest hwanted.2]

/-- A response that is not wanted is handed over nevertheless. -/
theorem gather_of_declines {handed responses : List Bytes}
    (hwilling : collect.Willing handed responses) (hdeclines : collect.Declines handed responses)
    (more : Bool) :
    ∃ taken later, taken <+: responses ∧ collect.Declines handed taken ∧
      (collect.gather more handed responses).2.2 = handed ++ taken ++ later := by
  induction responses generalizing handed more with
  | nil => exact hdeclines.elim
  | cons response responses ih =>
    -- the answer is given for this response, or for a later one
    rcases hwilling with hfalse | ⟨htrue, hrest⟩
    · obtain ⟨later, hlater⟩ := collect.prefix_gather false (handed ++ [response]) responses
      refine ⟨[response], later, ?_, Or.inl hfalse, ?_⟩
      · exact List.cons_prefix_cons.mpr ⟨rfl, List.nil_prefix⟩
      · simp only [gather, hfalse]
        exact hlater.symm
    · have hmore : collect.Declines (handed ++ [response]) responses :=
        hdeclines.resolve_left (by simp [htrue])
      obtain ⟨taken, later, htaken, hdeclines', hgather⟩ := ih hrest hmore true
      refine ⟨response :: taken, later, ?_, Or.inr hdeclines', ?_⟩
      · exact List.cons_prefix_cons.mpr ⟨rfl, htaken⟩
      · simp only [gather, htrue, hgather]
        simp

end Collect

/-- The responses that a message completes, unless `stream_responses` throws by itself. -/
def ClientProtocol.completes {σ : Type} (π : ClientProtocol σ) (client : σ) (message : Bytes) :
    Option (List Bytes) :=
  match π.streamResponses (fun _ _ => .ok true) client message false [] with
  | .returned _ _ _ handed => some handed
  | .threw _ _ _ _ => none

namespace ClientProtocol.Scans

variable {σ τ : Type} {π : ClientProtocol σ} {client : τ → σ}
  {step : τ → UInt8 → Option (τ × Option Bytes)} {inv : τ → Prop} {s t : τ} {message : Bytes}
  {responses : List Bytes}

/-- The responses that a message completes are those that the automaton of the client finds in it. -/
theorem run_of_completes (h : π.Scans client step inv) (hs : inv s)
    (hcompletes : π.completes (client s) message = some responses) :
    ∃ t, Automaton.run step s message = some (t, responses) := by
  unfold completes at hcompletes
  cases hrun : Automaton.run step s message with
  | none =>
    obtain ⟨e, t', more', handed', hthrew⟩ := h.refuses hs hrun (fun _ _ => .ok true) false []
    simp [hthrew] at hcompletes
  | some result =>
    obtain ⟨t, found⟩ := result
    -- with a collect function that never throws, all that is found is handed over
    have htotal : ∀ handed response, ∃ more, (fun _ _ => .ok true : Collect) handed response = .ok more :=
      fun _ _ => ⟨true, rfl⟩
    have hstreams := h.streams hs hrun (fun _ _ => .ok true) false []
    obtain ⟨more', hgather⟩ := Collect.gather_of_total htotal false [] found
    rw [hgather] at hstreams
    obtain hstreams : π.streamResponses (fun _ _ => .ok true) (client s) message false [] = _ :=
      hstreams
    simp only [hstreams, List.nil_append, Option.some.injEq] at hcompletes
    exact ⟨t, by rw [hcompletes]⟩

/-- What is handed over in a call of `stream_responses`: the responses that the automaton finds, up to the first
`false`. -/
theorem handed_streamResponses (h : π.Scans client step inv) (hs : inv s)
    (hrun : Automaton.run step s message = some (t, responses)) (collect : Collect) (more : Bool)
    (handed : List Bytes) :
    (π.streamResponses collect (client s) message more handed).handed =
      (collect.gather more handed responses).2.2 := by
  have hstreams := h.streams hs hrun collect more handed
  generalize collect.gather more handed responses = gathered at hstreams
  obtain ⟨threw, more', handed'⟩ := gathered
  cases threw with
  | none =>
    obtain hstreams : π.streamResponses collect (client s) message more handed = _ := hstreams
    rw [hstreams, Streamed.handed]
  | some e =>
    obtain ⟨t', hstreams⟩ := hstreams
    rw [hstreams, Streamed.handed]

end ClientProtocol.Scans

namespace Client

section Steps

variable {σ : Type} (π : ClientProtocol σ) (collect : Collect) (batchSize : ℕ)

/-- Until the first answer `false`, the request function throws nothing but exceptions that are caught,
nothing is thrown while responses are received, and the first message of a round completes a response. -/
def Steady (c : Client σ) (input : ClientInput) : Prop :=
  collect.Declines [] c.handed ∨
    match input with
    | .request outcome => outcome ≠ .threw .other
    | .receive message =>
      ∃ responses ∈ π.completes c.protocol message,
        collect.Willing c.handed responses ∧ (c.more = false → responses ≠ [])

instance (c : Client σ) : (input : ClientInput) → Decidable (c.Steady π collect input)
  | .request outcome =>
    inferInstanceAs (Decidable (collect.Declines [] c.handed ∨ outcome ≠ .threw .other))
  | .receive message =>
    inferInstanceAs (Decidable (collect.Declines [] c.handed ∨
      ∃ responses ∈ π.completes c.protocol message,
        collect.Willing c.handed responses ∧ (c.more = false → responses ≠ [])))

/-- A run of `batch` in which the messages are the stream, or the start of it if `batch` has returned. -/
structure Ran (stream : Bytes) (inputs : List ClientInput) (c : Client σ) : Prop where
  /-- The inputs can be taken one after another from the call of `batch` on. -/
  run_eq : run (step π collect batchSize) (start π batchSize) inputs = some c
  /-- What has arrived is the stream, or `batch` has returned before the rest of it came. -/
  ends : ∃ unread, (inputs.filterMap ClientInput.message).flatten ++ unread = stream ∧
    (unread = [] ∨ c.control = .returned)

/-- However the stream is cut, the same responses are handed over up to the first answer `false`, and
`batch` returns only after that answer. This is said of runs whose steps are all steady. -/
def KeepsUp : Prop :=
  ∀ {stream : Bytes} {inputs inputs' : List ClientInput} {c c' : Client σ},
    Ran π collect batchSize stream inputs c → Ran π collect batchSize stream inputs' c' →
    StepsMeet (step π collect batchSize) (start π batchSize) inputs (Steady π collect) →
    StepsMeet (step π collect batchSize) (start π batchSize) inputs' (Steady π collect) →
      collect.untilFalse [] c.handed = collect.untilFalse [] c'.handed ∧
        (c.control = .returned → collect.Declines [] c.handed)

variable {π collect batchSize} {c d : Client σ}

/-- `batch` is in one of its loops. -/
def Going (c : Client σ) : Prop := c.control ≠ .returned ∧ c.control ≠ .escaped

/-- A batch of at least one request has something to do at its start. -/
theorem going_start (hsize : 0 < batchSize) : (start π batchSize).Going := by
  simp [Going, start, hsize]

/-- A round of requests leaves the loop where it can go on. -/
theorem going_requested (c : Client σ) (currentBatch : ℕ) : (c.requested batchSize currentBatch).Going := by
  unfold requested Going
  split_ifs <;> simp

/-- A round of receiving that expects more leaves the loop where it can go on. -/
theorem going_received (hmore : c.more = true) (currentBatch : ℕ) :
    (c.received batchSize currentBatch).Going := by
  unfold received Going
  rw [if_pos hmore]
  split_ifs <;> simp

/-- A request that is counted in changes no response. -/
@[simp]
theorem handed_requested (c : Client σ) (currentBatch : ℕ) :
    (c.requested batchSize currentBatch).handed = c.handed := by
  unfold requested
  split_ifs <;> rfl

/-- A request that is counted in does not reach the parser of responses. -/
@[simp]
theorem protocol_requested (c : Client σ) (currentBatch : ℕ) :
    (c.requested batchSize currentBatch).protocol = c.protocol := by
  unfold requested
  split_ifs <;> rfl

/-- The end of a round changes no response. -/
@[simp]
theorem handed_received (c : Client σ) (currentBatch : ℕ) :
    (c.received batchSize currentBatch).handed = c.handed := by
  unfold received
  split_ifs <;> rfl

/-- The end of a round does not reach the parser of responses: it keeps the part of a response that it has. -/
@[simp]
theorem protocol_received (c : Client σ) (currentBatch : ℕ) :
    (c.received batchSize currentBatch).protocol = c.protocol := by
  unfold received
  split_ifs <;> rfl

/-- A call of the request function receives nothing. -/
theorem of_step_request {outcome : Requested}
    (hstep : c.step π collect batchSize (.request outcome) = some d) :
    d.handed = c.handed ∧ d.protocol = c.protocol ∧ (outcome ≠ .threw .other → d.Going) := by
  cases hcontrol : c.control with
  | requesting currentBatch =>
    simp only [step, hcontrol, Option.some.injEq] at hstep
    subst hstep
    cases outcome with
    | nothing => exact ⟨rfl, rfl, fun _ => by simp [Going]⟩
    | request text => exact ⟨handed_requested _ _, protocol_requested _ _, fun _ => going_requested _ _⟩
    | threw e =>
      cases e with
      | std => exact ⟨handed_requested _ _, protocol_requested _ _, fun _ => going_requested _ _⟩
      | other => exact ⟨rfl, rfl, fun h => absurd rfl h⟩
  | receiving | returned | escaped => simp [step, hcontrol] at hstep

/-- A message is given to `stream_responses`. -/
theorem of_step_receive {message : Bytes}
    (hstep : c.step π collect batchSize (.receive message) = some d) :
    d.handed = (π.streamResponses collect c.protocol message c.more c.handed).handed ∧
      ∀ collected protocol handed,
        π.streamResponses collect c.protocol message c.more c.handed =
          .returned collected protocol true handed → d.protocol = protocol ∧ d.Going := by
  cases hcontrol : c.control with
  | receiving currentBatch =>
    simp only [step, hcontrol, Option.some.injEq] at hstep
    subst hstep
    cases π.streamResponses collect c.protocol message c.more c.handed with
    | returned collected protocol more handed =>
      refine ⟨handed_received _ _, ?_⟩
      intro collected' protocol' handed' hreturned
      obtain ⟨rfl, rfl, rfl, rfl⟩ : collected = collected' ∧ protocol = protocol' ∧ more = true ∧
          handed = handed' := by simpa using hreturned
      exact ⟨protocol_received _ _, going_received rfl _⟩
    | threw e protocol more handed =>
      refine ⟨?_, nofun⟩
      cases e with
      | std => exact handed_received _ _
      | other => rfl
  | requesting | returned | escaped => simp [step, hcontrol] at hstep

end Steps

section Follows

variable {σ τ : Type} {π : ClientProtocol σ} {client : τ → σ}
  {scan : τ → UInt8 → Option (τ × Option Bytes)} {inv : τ → Prop} {collect : Collect} {batchSize : ℕ}
  {s : τ} {messages : List Bytes} {c d : Client σ}

/-- What a client has handed over is what the automaton finds in the messages that it received, up to
the first answer `false`, and before that answer it is in one of its loops. -/
inductive Follows (client : τ → σ) (scan : τ → UInt8 → Option (τ × Option Bytes)) (inv : τ → Prop)
    (collect : Collect) (s : τ) (messages : List Bytes) (c : Client σ) : Prop
  | declined {x y : Bytes} {t : τ} {responses taken : List Bytes} (hmessages : messages.flatten = x ++ y)
    (hrun : Automaton.run scan s x = some (t, responses)) (hdeclines : collect.Declines [] taken)
    (hresponses : taken <+: responses) (hhanded : taken <+: c.handed)
  | waiting {t : τ} (hinv : inv t)
    (hrun : Automaton.run scan s messages.flatten = some (t, c.handed))
    (hwanted : ¬collect.Declines [] c.handed) (hprotocol : client t = c.protocol) (hgoing : c.Going)

/-- A step of `batch` goes on with the stream. -/
theorem Follows.step (h : π.Scans client scan inv) (hc : Follows client scan inv collect s messages c)
    {input : ClientInput} (hsteady : c.Steady π collect input)
    (hstep : c.step π collect batchSize input = some d) :
    Follows client scan inv collect s (messages ++ input.message.toList) d := by
  cases hc with
  | @declined x y t responses taken hmessages hrun hdeclines hresponses hhanded =>
    -- later responses change nothing up to the answer
    have hlonger : c.handed <+: d.handed := by
      cases input with
      | request outcome =>
        obtain ⟨hsame, -⟩ := of_step_request hstep
        exact hsame ▸ List.prefix_rfl
      | receive message =>
        obtain ⟨hreceived, -⟩ := of_step_receive hstep
        rw [hreceived]
        apply h.appends
    refine .declined (y := y ++ input.message.toList.flatten) ?_ hrun hdeclines hresponses
      (hhanded.trans hlonger)
    rw [List.flatten_append, hmessages, List.append_assoc]
  | @waiting t hinv hrun hwanted hprotocol hgoing =>
    have hcondition := hsteady.resolve_left hwanted
    cases input with
    | request outcome =>
      obtain ⟨hsame, hprotocol', hgoing'⟩ := of_step_request hstep
      refine .waiting hinv ?_ (hsame ▸ hwanted) (hprotocol.trans hprotocol'.symm) (hgoing' hcondition)
      simp only [ClientInput.message, Option.toList_none, List.append_nil, hsame, hrun]
    | receive message =>
      obtain ⟨responses, hcompletes, hwilling, hfirst⟩ := hcondition
      obtain ⟨hreceived, hreturned⟩ := of_step_receive hstep
      rw [← hprotocol] at hcompletes hreceived hreturned
      obtain ⟨u, hscan⟩ := h.run_of_completes hinv hcompletes
      have hall : Automaton.run scan s (messages ++ [message]).flatten =
          some (u, c.handed ++ responses) := by
        rw [List.flatten_append, List.flatten_singleton, Automaton.run_append_of_run hrun, hscan]
        rfl
      rw [h.handed_streamResponses hinv hscan] at hreceived
      by_cases hdeclines : collect.Declines c.handed responses
      · -- the answer comes with this message
        obtain ⟨taken, later, htaken, hdeclines', hgather⟩ :=
          Collect.gather_of_declines hwilling hdeclines c.more
        have hfound : c.handed ++ taken <+: c.handed ++ responses :=
          (List.prefix_append_right_inj _).mpr htaken
        refine .declined (List.append_nil _).symm hall ?_ hfound ?_
        · exact Collect.declines_append.mpr (Or.inr hdeclines')
        · rw [hreceived, hgather]
          exact List.prefix_append _ _
      · -- all responses are wanted, and one of them has set the flag, in this call or before
        have hgather := Collect.gather_of_not_declines hwilling hdeclines c.more
        -- the flag decides whether the round goes on
        have hmore : (c.more || !responses.isEmpty) = true := by
          cases hc : c.more with
          | true => rfl
          | false => simpa using hfirst hc
        rw [hmore] at hgather
        have hstreams := h.streams hinv hscan collect c.more c.handed
        rw [hgather] at hstreams hreceived
        obtain ⟨hprotocol', hgoing'⟩ := hreturned _ _ _ hstreams
        refine .waiting (Automaton.inv_of_run h.inv_step hinv hscan) ?_ ?_ hprotocol'.symm hgoing'
        · rw [hreceived]
          exact hall
        · rw [hreceived, Collect.declines_append, not_or]
          exact ⟨hwanted, hdeclines⟩

/-- A steady run of `batch` follows the stream. -/
theorem follows_of_run (h : π.Scans client scan inv) (hsize : 0 < batchSize) (hs : inv s)
    (hfresh : client s = π.fresh) {inputs : List ClientInput}
    (hrun : run (step π collect batchSize) (start π batchSize) inputs = some c)
    (hsteady : StepsMeet (step π collect batchSize) (start π batchSize) inputs (Steady π collect)) :
    Follows client scan inv collect s (inputs.filterMap ClientInput.message) c := by
  refine run_induction
    (P := fun is c => StepsMeet (step π collect batchSize) (start π batchSize) is (Steady π collect) →
      Follows client scan inv collect s (is.filterMap ClientInput.message) c)
    ?_ ?_ hrun hsteady
  · intro _
    exact .waiting hs rfl id hfresh (going_start hsize)
  · intro is t input u ht ih hu hmeet
    -- a request adds no message to the stream, a receipt adds its own
    have hnext := (ih hmeet.init).step h (hmeet.last ht) hu
    rw [List.filterMap_append]
    cases input with
    | request outcome => exact hnext
    | receive message => exact hnext

/-- What a steady run hands over of a stream, and what the automaton has found there. -/
theorem Ran.exists_run (h : π.Scans client scan inv) (hsize : 0 < batchSize) (hs : inv s)
    (hfresh : client s = π.fresh) {stream : Bytes} {inputs : List ClientInput}
    (hran : Ran π collect batchSize stream inputs c)
    (hsteady : StepsMeet (Client.step π collect batchSize) (start π batchSize) inputs (Steady π collect)) :
    ∃ x y t responses, stream = x ++ y ∧ Automaton.run scan s x = some (t, responses) ∧
      collect.untilFalse [] c.handed = collect.untilFalse [] responses ∧
      (collect.Declines [] responses ∧ collect.Declines [] c.handed ∨
        y = [] ∧ c.control ≠ .returned) := by
  obtain ⟨unread, hunread, hends⟩ := hran.ends
  cases follows_of_run h hsize hs hfresh hran.run_eq hsteady with
  | @declined x y t responses taken hmessages hrun hdeclines hresponses hhanded =>
    refine ⟨x, y ++ unread, t, responses, ?_, hrun, ?_, Or.inl ⟨?_, ?_⟩⟩
    · rw [← hunread, hmessages, List.append_assoc]
    · rw [Collect.untilFalse_eq_first hdeclines hhanded,
        Collect.untilFalse_eq_first hdeclines hresponses]
    · exact hdeclines.of_first hresponses
    · exact hdeclines.of_first hhanded
  | @waiting t hinv hrun hwanted hprotocol hgoing =>
    -- the client waits, so that all of the stream has been received
    obtain rfl := hends.resolve_right hgoing.1
    exact ⟨_, [], t, c.handed, hunread.symm, hrun, rfl, Or.inr ⟨rfl, hgoing.1⟩⟩

/-- Of two parts of a stream, the longer one adds nothing that is handed over before the first answer
`false`, if the shorter one has that answer or is the whole stream. -/
theorem untilFalse_eq_of_cut {x x' : Bytes} {t t' : τ} {responses responses' : List Bytes}
    (hcut : x <+: x') (hrun : Automaton.run scan s x = some (t, responses))
    (hrun' : Automaton.run scan s x' = some (t', responses'))
    (hend : collect.Declines [] responses ∨ x' <+: x) :
    collect.untilFalse [] responses = collect.untilFalse [] responses' := by
  -- either the answer comes in the shorter part, or both parts are the whole stream
  rcases hend with hdeclines | hwhole
  · obtain ⟨z, rfl⟩ := hcut
    rw [Automaton.run_append_of_run hrun] at hrun'
    obtain ⟨⟨u, later⟩, -, heq⟩ := Option.map_eq_some_iff.mp hrun'
    obtain rfl : responses ++ later = responses' := (Prod.mk.inj heq).2
    exact (Collect.untilFalse_append hdeclines later).symm
  · obtain rfl : x = x' := hcut.eq_of_length (Nat.le_antisymm hcut.length_le hwhole.length_le)
    obtain ⟨-, rfl⟩ := Prod.mk.inj (Option.some.inj (hrun.symm.trans hrun'))
    rfl

/-- Steady runs on one stream hand over the same responses. -/
theorem keepsUp_of_scans (h : π.Scans client scan inv) (hsize : 0 < batchSize) :
    KeepsUp π collect batchSize := by
  intro stream inputs inputs' c c' hran hran' hsteady hsteady'
  obtain ⟨s, hs, hfresh⟩ := h.fresh
  obtain ⟨x, y, t, responses, hstream, hrun, hsame, hend⟩ :=
    hran.exists_run h hsize hs hfresh hsteady
  obtain ⟨x', y', t', responses', hstream', hrun', hsame', hend'⟩ :=
    hran'.exists_run h hsize hs hfresh hsteady'
  have hpart : x <+: stream := ⟨y, hstream.symm⟩
  have hpart' : x' <+: stream := ⟨y', hstream'.symm⟩
  have hwhole : y = [] → x' <+: x := by
    rintro rfl
    rwa [hstream, List.append_nil] at hpart'
  have hwhole' : y' = [] → x <+: x' := by
    rintro rfl
    rwa [hstream', List.append_nil] at hpart
  constructor
  · rw [hsame, hsame']
    -- one of the runs has seen a part of what the other has seen
    rcases List.prefix_or_prefix_of_prefix hpart hpart' with hcut | hcut
    · exact untilFalse_eq_of_cut hcut hrun hrun' (hend.imp And.left fun h => hwhole h.1)
    · exact (untilFalse_eq_of_cut hcut hrun' hrun (hend'.imp And.left fun h => hwhole' h.1)).symm
  · intro hreturned
    rcases hend with ⟨-, hdeclines⟩ | ⟨-, hnot⟩
    · exact hdeclines
    · exact absurd hreturned hnot

end Follows

/-- The clients of both protocols keep up with the stream, with every collect function. -/
theorem keepsUp (collect : Collect) {batchSize : ℕ} (hsize : 0 < batchSize) :
    KeepsUp httpClient collect batchSize ∧ KeepsUp netstringClient collect batchSize :=
  ⟨keepsUp_of_scans HttpClient.scans hsize, keepsUp_of_scans NetstringClient.scans hsize⟩

/-- A response. -/
def reply : Bytes := ascii "HTTP/1.1 200 OK\r\nContent-Length: 2\r\n\r\nhi"

/-- A collect function that wants this many responses. -/
def wants (count : ℕ) : Collect := fun handed _ => .ok (handed.length + 1 < count)

/-- A batch of requests is sent, and the responses come in these messages. -/
def exchange (batchSize : ℕ) (messages : List Bytes) : List ClientInput :=
  List.replicate batchSize (.request (.request (ascii "GET / HTTP/1.1\r\n\r\n"))) ++ messages.map .receive

/-- A run that can be evaluated, as a run on a stream of which a part may not have come yet. -/
theorem exists_ran {collect : Collect} {batchSize : ℕ} {stream : Bytes} (inputs : List ClientInput)
    (unread : Bytes) {control : ClientControl} {handed : List Bytes}
    (hrun : (run (step httpClient collect batchSize) (start httpClient batchSize) inputs).map
      (fun c => (c.control, c.handed)) = some (control, handed))
    (hstream : (inputs.filterMap ClientInput.message).flatten ++ unread = stream)
    (hends : unread = [] ∨ control = .returned) :
    ∃ c, Ran httpClient collect batchSize stream inputs c ∧ c.control = control ∧ c.handed = handed := by
  obtain ⟨c, hc, heq⟩ := Option.map_eq_some_iff.mp hrun
  obtain ⟨rfl, rfl⟩ := Prod.mk.inj heq
  exact ⟨c, ⟨hc, unread, hstream, hends⟩, rfl, rfl⟩

/-- Two responses in one message, and cut inside the second. -/
theorem keepsUp_cutInside :
    ∃ c c', Ran httpClient (wants 2) 2 (reply ++ reply) (exchange 2 [reply ++ reply]) c ∧
      Ran httpClient (wants 2) 2 (reply ++ reply) (exchange 2 [reply ++ reply.take 20, reply.drop 20]) c' ∧
      (wants 2).untilFalse [] c.handed = (wants 2).untilFalse [] c'.handed ∧
      (c.control = .returned → (wants 2).Declines [] c.handed) := by
  obtain ⟨c, hran, -, -⟩ : ∃ c, Ran httpClient (wants 2) 2 (reply ++ reply)
      (exchange 2 [reply ++ reply]) c ∧ c.control = .returned ∧ c.handed = [reply, reply] :=
    exists_ran _ [] (by decide) (by decide) (by decide)
  obtain ⟨c', hran', -, -⟩ : ∃ c, Ran httpClient (wants 2) 2 (reply ++ reply)
      (exchange 2 [reply ++ reply.take 20, reply.drop 20]) c ∧
        c.control = .returned ∧ c.handed = [reply, reply] :=
    exists_ran _ [] (by decide) (by decide) (by decide)
  exact ⟨c, c', hran, hran', (keepsUp (wants 2) (by decide)).1 hran hran' (by decide) (by decide)⟩

/-- A response that comes in two messages is not waited for. -/
theorem gives_up :
    ¬∀ (collect : Collect) (batchSize : ℕ), 0 < batchSize →
      (∀ handed response, ∃ more, collect handed response = .ok more) →
      ∀ (stream : Bytes) (inputs inputs' : List ClientInput) (c c' : Client HttpClient),
        Ran httpClient collect batchSize stream inputs c →
        Ran httpClient collect batchSize stream inputs' c' →
          collect.untilFalse [] c.handed = collect.untilFalse [] c'.handed ∧
            (c'.control = .returned → collect.Declines [] c'.handed) := by
  intro h
  obtain ⟨c, hran, -, -⟩ : ∃ c, Ran httpClient (wants 1) 1 reply (exchange 1 [reply]) c ∧
      c.control = .returned ∧ c.handed = [reply] :=
    exists_ran _ [] (by decide) (by decide) (by decide)
  obtain ⟨c', hran', hreturned, hhanded⟩ : ∃ c, Ran httpClient (wants 1) 1 reply
      (exchange 1 [reply.take 20]) c ∧ c.control = .returned ∧ c.handed = [] :=
    exists_ran _ (reply.drop 20) (by decide) (by decide) (by decide)
  obtain ⟨-, hdeclines⟩ :=
    h (wants 1) 1 (by decide) (fun _ _ => ⟨_, rfl⟩) reply _ _ c c' hran hran'
  have hnothing := hdeclines hreturned
  rw [hhanded] at hnothing
  exact hnothing

end Client

end PrimeServer
