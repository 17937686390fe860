import PrimeServer.Library.LittleEndian
import PrimeServer.Pipeline.Worker
import PrimeServer.Server.Http
import PrimeServer.Server.Netstring

/-!
# Request infos in memory

A request info goes through the stages as the bytes of a `request_info_t`. The server writes them, the
workers read the key of the request in the first eight and may write the response code, and the server
reads what comes back. The lowest byte of a number comes first, and bit fields fill their word from the
lowest bit on. The bytes at the end that belong to no member are taken to be zero.

## Main results

* `HttpRequestInfo.layout`, `NetstringRequestInfo.layout`: the server reads what it has written, and
  workers and server read the same key;
* `WorkerInfo.toHttpRequestInfo_read_bytes`: the response code changes nothing of what the server reads.
-/

namespace PrimeServer

open LittleEndian

/-- The conversion of a request info to `uint64_t`. -/
def keyOf (id timeStamp : UInt32) : UInt64 := id.toUInt64 ||| (timeStamp.toUInt64 <<< 32)

/-- How the infos of a protocol lie in memory. -/
structure InfoLayout {σ ρ ι : Type} (π : Protocol σ ρ ι) where
  /-- The memory of the info, as it is sent. -/
  bytes : ι → Frame
  /-- The info that is read from memory. -/
  read : Frame → ι
  /-- The server reads what it has written. -/
  read_bytes : ∀ parsed id now, read (bytes (π.toInfo parsed id now)) = π.toInfo parsed id now
  /-- Workers and server read the same key. -/
  key_read : ∀ frame, π.key (read frame) = jobOf frame

/-- The id at the beginning of a request info. -/
def idIn (frame : Frame) : UInt32 := .ofNat (value (frame.take 4))

/-- The time stamp behind the id. -/
def timeStampIn (frame : Frame) : UInt32 := .ofNat (value ((frame.drop 4).take 4))

/-- The bytes of an id and a time stamp. -/
def idBytes (id timeStamp : UInt32) : Frame := bytes 4 id.toNat ++ bytes 4 timeStamp.toNat

section Key

/-- The key is the time over the id. -/
theorem toNat_keyOf (id timeStamp : UInt32) :
    (keyOf id timeStamp).toNat = id.toNat + 2 ^ 32 * timeStamp.toNat := by
  have hid : id.toNat < 2 ^ 32 := id.toNat_lt
  have htimeStamp : timeStamp.toNat < 2 ^ 32 := timeStamp.toNat_lt
  have hfits : timeStamp.toNat * 2 ^ 32 < 2 ^ 64 := by omega
  simp only [keyOf, UInt64.toNat_or, UInt64.toNat_shiftLeft, UInt32.toNat_toUInt64]
  show id.toNat ||| (timeStamp.toNat <<< 32) % 2 ^ 64 = _
  -- the id fills the half of the key that the shift has left empty
  rw [Nat.shiftLeft_eq, Nat.mod_eq_of_lt hfits, Nat.mul_comm, Nat.or_comm,
    ← Nat.two_pow_add_eq_or_of_lt hid, Nat.add_comm]

/-- The job is the number in the first eight bytes. -/
theorem jobOf_eq_ofNat_value (frame : Frame) : jobOf frame = .ofNat (value (frame.take 8)) := by
  have hvalue : ∀ s : List UInt8, s.foldr (fun b n => b.toNat + 256 * n) 0 = value s := by
    intro s
    induction s with
    | nil => rfl
    | cons b s ih => rw [List.foldr_cons, ih, value_cons]
  rw [jobOf, hvalue]

/-- Bytes stand for a number that fits into them. -/
theorem value_lt {width : ℕ} (s : List UInt8) (hs : s.length ≤ width) : value s < 256 ^ width := by
  induction s generalizing width with
  | nil => simp
  | cons b s ih =>
    obtain ⟨width, rfl⟩ : ∃ n, width = n + 1 := ⟨width - 1, by simp at hs; omega⟩
    have hb : b.toNat < 256 := b.toNat_lt
    have hrest : value s < 256 ^ width := ih (by simpa using hs)
    rw [value_cons, pow_succ']
    omega

/-- The first eight bytes of an info are its key, however short the info is. -/
theorem keyOf_idIn (frame : Frame) : keyOf (idIn frame) (timeStampIn frame) = jobOf frame := by
  have hid : value (frame.take 4) < 256 ^ 4 := value_lt _ (by simp)
  have htimeStamp : value ((frame.drop 4).take 4) < 256 ^ 4 := value_lt _ (by simp)
  have hsplit : value (frame.take 8) =
      value (frame.take 4) + 2 ^ 32 * value ((frame.drop 4).take 4) := by
    rw [show frame.take 8 = frame.take 4 ++ (frame.drop 4).take 4 from List.take_add (i := 4) (j := 4),
      value_append]
    by_cases hshort : frame.length ≤ 4
    · -- there is no time stamp
      simp [List.drop_eq_nil_of_le hshort]
    · simp [Nat.min_eq_left (by omega : 4 ≤ frame.length)]
  apply UInt64.toNat_inj.mp
  rw [toNat_keyOf, jobOf_eq_ofNat_value, hsplit, UInt64.toNat_ofNat', idIn, timeStampIn,
    UInt32.toNat_ofNat', UInt32.toNat_ofNat']
  omega

/-- The id is in the first four bytes. -/
theorem idIn_append (id timeStamp : UInt32) (after : Frame) : idIn (idBytes id timeStamp ++ after) = id := by
  have hlt : id.toNat < 256 ^ 4 := id.toNat_lt
  rw [idIn, idBytes, List.append_assoc, List.take_left' (length_bytes 4 _), value_bytes_of_lt hlt,
    UInt32.ofNat_toNat]

/-- The time stamp is in the four bytes after them. -/
theorem timeStampIn_append (id timeStamp : UInt32) (after : Frame) :
    timeStampIn (idBytes id timeStamp ++ after) = timeStamp := by
  have hlt : timeStamp.toNat < 256 ^ 4 := timeStamp.toNat_lt
  rw [timeStampIn, idBytes, List.append_assoc, List.drop_left' (length_bytes 4 _),
    List.take_left' (length_bytes 4 _), value_bytes_of_lt hlt, UInt32.ofNat_toNat]

/-- Both numbers take eight bytes together. -/
@[simp]
theorem length_idBytes (id timeStamp : UInt32) : (idBytes id timeStamp).length = 8 := by
  simp [idBytes]

end Key

namespace WorkerInfo

/-- The word of the bit fields `version`, `connection_keep_alive`, `connection_close`, `response_code` and
`spare`. -/
def word (info : WorkerInfo) : ℕ :=
  info.version % 2 ^ 3 + 2 ^ 3 * info.connectionKeepAlive.toNat + 2 ^ 4 * info.connectionClose.toNat +
    2 ^ 5 * (info.responseCode % 2 ^ 10)

/-- The bytes of an `http_request_info_t`. -/
def bytes (info : WorkerInfo) : Frame :=
  idBytes info.id info.timeStamp ++ (LittleEndian.bytes 2 info.word ++ [0, 0])

/-- Bytes as an `http_request_info_t`. -/
def read (frame : Frame) : WorkerInfo :=
  let word := value ((frame.drop 8).take 2)
  { id := idIn frame
    timeStamp := timeStampIn frame
    version := word % 2 ^ 3
    connectionKeepAlive := word / 2 ^ 3 % 2 = 1
    connectionClose := word / 2 ^ 4 % 2 = 1
    responseCode := word / 2 ^ 5 % 2 ^ 10 }

/-- The bit fields have room for what is read from them. -/
theorem version_read_lt (frame : Frame) : (read frame).version < 2 ^ 3 := Nat.mod_lt _ (by decide)

/-- What is written is read again, as far as the bit fields have room for it. -/
theorem read_bytes (info : WorkerInfo) (hversion : info.version < 2 ^ 3)
    (hresponseCode : info.responseCode < 2 ^ 10) : read info.bytes = info := by
  obtain ⟨⟨id, timeStamp, version, keepAlive, close⟩, responseCode⟩ := info
  replace hversion : version < 2 ^ 3 := hversion
  replace hresponseCode : responseCode < 2 ^ 10 := hresponseCode
  have hkeepAlive := keepAlive.toNat_lt
  have hclose := close.toNat_lt
  have hword : ∀ info : WorkerInfo, (info.bytes.drop 8).take 2 = LittleEndian.bytes 2 info.word := by
    intro info
    rw [bytes, List.drop_left' (length_idBytes _ _), List.take_left' (length_bytes 2 _)]
  have hlt : (⟨⟨id, timeStamp, version, keepAlive, close⟩, responseCode⟩ : WorkerInfo).word < 256 ^ 2 := by
    simp only [word]
    omega
  simp only [read, hword, value_bytes_of_lt hlt]
  rw [bytes, idIn_append, timeStampIn_append]
  simp only [word, WorkerInfo.mk.injEq, HttpRequestInfo.mk.injEq, true_and]
  refine ⟨⟨by omega, ?_, ?_⟩, by omega⟩
  · cases keepAlive <;> simp only [Bool.toNat_true, Bool.toNat_false] <;> simp <;> omega
  · cases close <;> simp only [Bool.toNat_true, Bool.toNat_false] <;> simp <;> omega

/-- The response code changes nothing of what the server reads. -/
theorem toHttpRequestInfo_read_bytes (info : WorkerInfo) (hversion : info.version < 2 ^ 3) :
    (read info.bytes).toHttpRequestInfo = info.toHttpRequestInfo := by
  -- only the part of the response code that fits is written
  let fitting := { info with responseCode := info.responseCode % 2 ^ 10 }
  have hbytes : info.bytes = fitting.bytes := by simp [bytes, word, fitting]
  rw [hbytes, read_bytes fitting hversion (Nat.mod_lt _ (by decide))]

end WorkerInfo

/-- `http_request_info_t` in memory. The server leaves the response code at zero. -/
def HttpRequestInfo.layout (curl : Curl) : InfoLayout (httpProtocol curl) where
  bytes info := WorkerInfo.bytes { toHttpRequestInfo := info, responseCode := 0 }
  read frame := (WorkerInfo.read frame).toHttpRequestInfo
  read_bytes parsed id now := by
    apply WorkerInfo.toHttpRequestInfo_read_bytes
    show (if parsed.version = ascii "HTTP/1.0" then 0 else 1) < 2 ^ 3
    split_ifs <;> decide
  key_read frame := keyOf_idIn frame

/-- `netstring_request_info_t` in memory. -/
def NetstringRequestInfo.layout : InfoLayout netstringProtocol where
  bytes info := idBytes info.id info.timeStamp
  read frame := { id := idIn frame, timeStamp := timeStampIn frame }
  read_bytes parsed id now := by
    show NetstringRequestInfo.mk (idIn (idBytes id _)) (timeStampIn (idBytes id _)) = ⟨id, _⟩
    rw [← List.append_nil (idBytes _ _), idIn_append, timeStampIn_append]
    rfl
  key_read frame := keyOf_idIn frame

end PrimeServer
