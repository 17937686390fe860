import PrimeServer.Client.Rounds

/-!
# Clients that count

The collect function of a client may do no more than count: it throws nothing and wants a number of responses
that is fixed in advance. Then `batch` hands over whatever the stream holds, and the question is when it
returns.

## Main results

* `Client.counted_of_run`: if the first message of each round completes a response, `batch` hands over the
  responses in the stream, and has returned if and only if it was given the number that it wants;
* `Client.sent_of_run`: it has sent what the request function gave it.
-/

namespace PrimeServer

open Transition

/-- What the request function does when it is called. -/
def ClientInput.outcome : ClientInput → Option Requested
  | .request outcome => some outcome
  | .receive _ => none

/-- The text that is to be sent. -/
def Requested.text : Requested → Option Bytes
  | .request text => some text
  | .nothing | .threw _ => none

namespace Collect

/-- The collect function wants this many responses. -/
def Counts (collect : Collect) (requests : ℕ) : Prop :=
  ∀ handed response, collect handed response = .ok (decide (handed.length + 1 < requests))

variable {collect : Collect} {requests : ℕ}

/-- The last response sets the flag. -/
theorem Counts.gather (h : collect.Counts requests) (more : Bool) (handed responses : List Bytes) :
    collect.gather more handed responses =
      (none, if responses = [] then more else decide (handed.length + responses.length < requests),
        handed ++ responses) := by
  induction responses generalizing more handed with
  | nil => simp [Collect.gather]
  | cons response responses ih =>
    simp only [Collect.gather, h handed response, ih, List.append_assoc, List.singleton_append,
      List.length_append, List.length_cons, List.cons_ne_nil, if_false]
    cases responses with
    | nil => rfl
    | cons response' responses => simp [Nat.add_comm, Nat.add_left_comm]

end Collect

namespace Client

variable {σ τ : Type} {π : ClientProtocol σ} {client : τ → σ}
  {scan : τ → UInt8 → Option (τ × Option Bytes)} {inv : τ → Prop} {collect : Collect}
  {requests batchSize : ℕ} {s : τ} {messages : List Bytes} {c d : Client σ} {inputs : List ClientInput}

/-- The request function throws nothing that is not caught, and the first message of a round completes a
response. -/
def Prompt (π : ClientProtocol σ) (c : Client σ) : ClientInput → Prop
  | .request outcome => outcome ≠ .threw .other
  | .receive message => c.more = false → ∃ responses ∈ π.completes c.protocol message, responses ≠ []

instance (c : Client σ) : (input : ClientInput) → Decidable (c.Prompt π input)
  | .request outcome => inferInstanceAs (Decidable (outcome ≠ .threw .other))
  | .receive message =>
    inferInstanceAs (Decidable (c.more = false →
      ∃ responses ∈ π.completes c.protocol message, responses ≠ []))

/-- What a client has handed over is what the automaton finds in the messages that it received, and it has
returned if and only if it was given as many responses as it wants. -/
inductive Counted (client : τ → σ) (scan : τ → UInt8 → Option (τ × Option Bytes)) (inv : τ → Prop)
    (requests : ℕ) (s : τ) (messages : List Bytes) (c : Client σ) : Prop
  | intro {t : τ} (hinv : inv t) (hrun : Automaton.run scan s messages.flatten = some (t, c.handed))
    (hprotocol : client t = c.protocol) (hescaped : c.control ≠ .escaped)
    (hreturned : c.control = .returned ↔ requests ≤ c.handed.length)

/-- A call of `request_function` does not touch the responses that were counted, if `batch` survives what it throws.
-/
theorem Counted.request {outcome : Requested} (hc : Counted client scan inv requests s messages c)
    (hcaught : outcome ≠ .threw .other)
    (hstep : c.step π collect batchSize (.request outcome) = some d) :
    Counted client scan inv requests s messages d := by
  obtain ⟨hinv, hrun, hprotocol, -, hreturned⟩ := hc
  obtain ⟨hhanded, hsame, hgoing⟩ := of_step_request hstep
  obtain ⟨hback, hescaped⟩ := hgoing hcaught
  have hbefore : c.control ≠ .returned := by
    intro hcontrol
    simp [step, hcontrol] at hstep
  refine .intro hinv (by rw [hhanded, hrun]) (by rw [hsame, hprotocol]) hescaped ?_
  rw [hhanded, ← hreturned]
  exact iff_of_false hback hbefore

/-- A message that does its part of the round brings the count forward by the responses that it completes. -/
theorem Counted.receive {message : Bytes} (h : π.Scans client scan inv) (hcollect : collect.Counts requests)
    (hc : Counted client scan inv requests s messages c) (hprompt : c.Prompt π (.receive message))
    (hstream : Automaton.run scan s (messages ++ [message]).flatten ≠ none)
    (hstep : c.step π collect batchSize (.receive message) = some d) :
    Counted client scan inv requests s (messages ++ [message]) d := by
  obtain ⟨hinv, hrun, hprotocol, hescaped, hreturned⟩ := hc
  rename_i t
  cases hcontrol : c.control with
  | requesting | returned | escaped => simp [step, hcontrol] at hstep
  | receiving currentBatch =>
    -- what the automaton finds in the message is handed over
    rw [List.flatten_append, List.flatten_singleton, Automaton.run_append_of_run hrun] at hstream
    obtain ⟨⟨u, found⟩, hfound⟩ : ∃ result, Automaton.run scan t message = some result := by
      rw [← Option.ne_none_iff_exists']
      intro hnone
      simp [hnone] at hstream
    have hstreams := h.streams hinv hfound collect c.more c.handed
    rw [hcollect.gather, hprotocol] at hstreams
    obtain hstreams : π.streamResponses collect c.protocol message c.more c.handed = _ := hstreams
    simp only [step, hcontrol, hstreams, Option.some.injEq] at hstep
    subst hstep
    have hwants : c.handed.length < requests := by
      rw [← not_le, ← hreturned, hcontrol]
      simp
    have hmore : found = [] → c.more = true := by
      rintro rfl
      by_contra hfalse
      obtain ⟨responses, hcompletes, hne⟩ := hprompt (Bool.eq_false_iff.mpr hfalse)
      rw [← hprotocol] at hcompletes
      obtain ⟨t', ht'⟩ := h.run_of_completes hinv hcompletes
      rw [hfound] at ht'
      exact hne (Prod.mk.inj (Option.some.inj ht')).2.symm
    refine .intro (Automaton.inv_of_run h.inv_step hinv hfound) ?_ ?_ ?_ ?_
    · rw [List.flatten_append, List.flatten_singleton, Automaton.run_append_of_run hrun, hfound]
      simp
    · simp
    · unfold received
      split_ifs <;> simp
    · rw [handed_received, List.length_append]
      unfold received
      by_cases hnothing : found = []
      · simp only [hnothing, hmore hnothing, if_true, List.length_nil, Nat.add_zero]
        refine iff_of_false ?_ (not_le.mpr hwants)
        split_ifs <;> simp
      · simp only [if_neg hnothing, decide_eq_true_eq]
        by_cases hgoes : c.handed.length + found.length < requests
        · rw [if_pos hgoes]
          refine iff_of_false ?_ (not_le.mpr hgoes)
          split_ifs <;> simp
        · rw [if_neg hgoes]
          exact iff_of_true rfl (not_lt.mp hgoes)

/-- In a run on a stream that the automaton does not refuse, all that is found in it is handed over, and
`batch` returns with the last response that it wants. -/
theorem counted_of_run (h : π.Scans client scan inv) (hcollect : collect.Counts requests)
    (hrequests : 0 < requests) (hsize : 0 < batchSize) (hs : inv s) (hfresh : client s = π.fresh)
    {rest : Bytes}
    (hrun : run (step π collect batchSize) (start π batchSize) inputs = some c)
    (hprompt : StepsMeet (step π collect batchSize) (start π batchSize) inputs (Prompt π))
    (hstream : Automaton.run scan s ((inputs.filterMap ClientInput.message).flatten ++ rest) ≠ none) :
    Counted client scan inv requests s (inputs.filterMap ClientInput.message) c := by
  -- the automaton refuses no part of the stream
  have hparts : Automaton.run scan s (inputs.filterMap ClientInput.message).flatten ≠ none := by
    intro hnone
    rw [Automaton.run_append, hnone] at hstream
    exact hstream rfl
  refine run_induction
    (P := fun is c => StepsMeet (step π collect batchSize) (start π batchSize) is (Prompt π) →
      Automaton.run scan s (is.filterMap ClientInput.message).flatten ≠ none →
      Counted client scan inv requests s (is.filterMap ClientInput.message) c) ?_ ?_ hrun hprompt hparts
  · intro _ _
    obtain ⟨hreturned, hescaped⟩ := going_start (π := π) hsize
    exact .intro hs rfl hfresh hescaped (iff_of_false hreturned (not_le.mpr hrequests))
  · intro is t input u ht ih hu hmeet hwhole
    have hlast := hmeet.last ht
    rw [List.filterMap_append] at hwhole ⊢
    cases input with
    | request outcome =>
      have hnothing : [ClientInput.request outcome].filterMap ClientInput.message = [] := rfl
      rw [hnothing, List.append_nil] at hwhole ⊢
      exact (ih hmeet.init hwhole).request hlast hu
    | receive message =>
      have hmessage : [ClientInput.receive message].filterMap ClientInput.message = [message] := rfl
      rw [hmessage] at hwhole ⊢
      have hbefore : Automaton.run scan s (is.filterMap ClientInput.message).flatten ≠ none := by
        intro hnone
        rw [List.flatten_append, Automaton.run_append, hnone] at hwhole
        exact hwhole rfl
      exact (ih hmeet.init hbefore).receive h hcollect hlast hwhole hu

/-- Counting a request into a batch does not send anything. -/
@[simp]
theorem sent_requested (c : Client σ) (currentBatch : ℕ) :
    (c.requested batchSize currentBatch).sent = c.sent := by
  unfold requested
  split_ifs <;> rfl

/-- A round of receiving does not send anything either. -/
@[simp]
theorem sent_received (c : Client σ) (currentBatch : ℕ) :
    (c.received batchSize currentBatch).sent = c.sent := by
  unfold received
  split_ifs <;> rfl

/-- What is sent is what the request function gives, call after call. -/
theorem sent_of_run (hrun : run (step π collect batchSize) (start π batchSize) inputs = some c) :
    c.sent = (inputs.filterMap ClientInput.outcome).filterMap Requested.text := by
  refine run_induction (P := fun is c => c.sent = (is.filterMap ClientInput.outcome).filterMap Requested.text)
    rfl ?_ hrun
  -- each call of the request function adds what it has requested, and a message adds nothing
  intro is t input u ht ih hu
  simp only [List.filterMap_append, ← ih]
  cases input with
  | request outcome =>
    cases hcontrol : t.control with
    | receiving | returned | escaped => simp [step, hcontrol] at hu
    | requesting currentBatch =>
      simp only [step, hcontrol, Option.some.injEq] at hu
      subst hu
      cases outcome with
      | nothing | request => simp [ClientInput.outcome, Requested.text]
      | threw e => cases e <;> simp [ClientInput.outcome, Requested.text]
  | receive message =>
    cases hcontrol : t.control with
    | requesting | returned | escaped => simp [step, hcontrol] at hu
    | receiving currentBatch =>
      simp only [step, hcontrol, Option.some.injEq] at hu
      subst hu
      cases π.streamResponses collect t.protocol message t.more t.handed with
      | returned => simp [ClientInput.outcome]
      | threw e => cases e <;> simp [ClientInput.outcome]

end Client

end PrimeServer
