import PrimeServer.Cpp.Bytes

/-!
# Sockets

What the program sees of libzmq: frames, and what a call of `socket_t::send` can do. libzmq is not
part of the repository, so that the results of the calls come from outside.
-/

namespace PrimeServer

/-- The bytes of a `zmq::message_t`. -/
abbrev Frame := Bytes

/-- What a call of `socket_t::send` does. -/
inductive SendResult where
  /-- The frame is on its way: the call returns true. -/
  | accepted
  /-- `EAGAIN`: the call returns false. -/
  | again
  /-- Any other error: the call throws. -/
  | threw
  deriving DecidableEq

/-- The calls of `send` that were made, with their results. -/
abbrev Sends := List (Frame × SendResult)

/-- A call of `send` threw. -/
def Sends.Threw (sends : Sends) : Prop := ∃ call ∈ sends, call.2 = .threw

/-- Whether a send threw is decidable. -/
instance (sends : Sends) : Decidable sends.Threw := by
  unfold Sends.Threw
  infer_instance

/-- `socket_t::send_all`: every frame is tried, whatever `send` returned for the frames before it, until
one throws. Calls for which `results` has no result are accepted. -/
def sendAll : List SendResult → List Frame → Sends
  | _, [] => []
  | [], frame :: frames => (frame, .accepted) :: sendAll [] frames
  | result :: results, frame :: frames =>
    (frame, result) :: if result = .threw then [] else sendAll results frames

/-- Frames are tried in order. -/
theorem isPrefix_sendAll (results : List SendResult) (frames : List Frame) :
    (sendAll results frames).map Prod.fst <+: frames := by
  induction frames generalizing results with
  | nil => simp [sendAll]
  | cons frame frames ih =>
    cases results with
    | nil => simpa [sendAll] using ih []
    | cons result results =>
      by_cases h : result = .threw
      · simp [sendAll, h]
      · simpa [sendAll, h] using ih results

/-- Where all calls are accepted, none throws. -/
theorem not_threw_sendAll_nil (frames : List Frame) : ¬(sendAll [] frames).Threw := by
  induction frames with
  | nil => simp [sendAll, Sends.Threw]
  | cons frame frames ih => simpa [sendAll, Sends.Threw] using ih

/-- Unless a call throws, all frames are tried. -/
theorem map_sendAll {results : List SendResult} {frames : List Frame}
    (h : ¬(sendAll results frames).Threw) : (sendAll results frames).map Prod.fst = frames := by
  induction frames generalizing results with
  | nil => simp [sendAll]
  | cons frame frames ih =>
    cases results with
    | nil =>
      rw [sendAll, List.map_cons, ih fun hrest => h ?_]
      obtain ⟨call, hcall, hthrew⟩ := hrest
      exact ⟨call, List.mem_cons_of_mem _ hcall, hthrew⟩
    | cons result results =>
      have hresult : result ≠ .threw := fun hr => h ⟨_, List.mem_cons_self, hr⟩
      rw [sendAll, if_neg hresult, List.map_cons, ih fun hrest => h ?_]
      obtain ⟨call, hcall, hthrew⟩ := hrest
      rw [sendAll, if_neg hresult]
      exact ⟨call, List.mem_cons_of_mem _ hcall, hthrew⟩

end PrimeServer
