import PrimeServer.Client.Batch
import PrimeServer.Netstring.Entity

/-!
# The netstring client

`netstring_client_t`. It parses the responses, and hands each over as a netstring again.
-/

namespace PrimeServer

open Automaton Chunking

namespace NetstringClient

/-- `netstring_client_t::stream_responses`. The state of the client is its parser. -/
def streamResponses (collect : Collect) (response : NetstringEntity) (message : Bytes) (more : Bool)
    (handed : List Bytes) : Streamed NetstringEntity :=
  match response.fromStream sizeMax message with
  | .returned responses response =>
    match collect.gather more handed (responses.map fun r => NetstringEntity.toString r.body) with
    | (none, more, handed) => .returned responses.length response more handed
    | (some e, more, handed) => .threw e response more handed
  -- a `request_exception_t` is no `std::exception`
  | .threw _ response => .threw .other response more handed
  -- the loop always ends
  | .diverged => .returned 0 response more handed

end NetstringClient

/-- The protocol of `netstring_client_t`. -/
def netstringClient : ClientProtocol NetstringEntity where
  fresh := .fresh
  streamResponses := NetstringClient.streamResponses

/-- `stream_responses` hands over the netstrings that its parser reads. -/
theorem NetstringClient.scans :
    netstringClient.Scans id
      (mapStep (fun r => NetstringEntity.toString r.body) (NetstringEntity.byteStep sizeMax))
      NetstringEntity.Fits where
  fresh := ⟨.fresh, NetstringEntity.fits_fresh, rfl⟩
  inv_step := by
    intro p c q response hp hstep
    obtain ⟨⟨q', request⟩, hbyte, heq⟩ := Option.map_eq_some_iff.mp hstep
    obtain ⟨rfl, -⟩ : q' = q ∧ request.map _ = response := by simpa using heq
    exact hp.byteStep hbyte
  streams := by
    intro p q message texts hp hrun collect more handed
    rw [run_mapStep] at hrun
    obtain ⟨⟨q', requests⟩, hbytes, heq⟩ := Option.map_eq_some_iff.mp hrun
    obtain ⟨rfl, rfl⟩ : q' = q ∧ requests.map (fun r => NetstringEntity.toString r.body) = texts := by
      simpa using heq
    have hread := (NetstringEntity.realizes sizeMax).returned hp hbytes
    show match collect.gather more handed _ with
      | (none, more', handed') => streamResponses collect p message more handed = _
      | (some e, more', handed') => ∃ t', streamResponses collect p message more handed = _
    simp only [streamResponses, hread, List.length_map]
    -- the client gives what it reads to the collect function, one after another
    obtain ⟨threw, more', handed'⟩ := collect.gather more handed _
    cases threw with
    | none => rfl
    | some e => exact ⟨_, rfl⟩
  refuses := by
    intro p message hp hrun collect more handed
    rw [run_mapStep, Option.map_eq_none_iff] at hrun
    obtain ⟨e, q, hread⟩ := (NetstringEntity.realizes sizeMax).threw hp hrun
    show ∃ e t' more' handed', streamResponses collect p message more handed = _
    simp only [streamResponses, hread]
    exact ⟨_, _, _, _, rfl⟩
  appends := by
    intro collect client message more handed
    show handed <+: (streamResponses collect client message more handed).handed
    unfold streamResponses
    split
    case h_1 responses q hread =>
      have happends := collect.prefix_gather more handed
        (responses.map fun r => NetstringEntity.toString r.body)
      generalize collect.gather more handed _ = gathered at happends
      obtain ⟨threw, more', handed'⟩ := gathered
      cases threw with
      | none => exact happends
      | some e => exact happends
    case h_2 => exact List.prefix_rfl
    case h_3 => exact List.prefix_rfl

end PrimeServer
