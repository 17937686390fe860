import PrimeServer.Files.Path
import PrimeServer.Pipeline.Worker
import PrimeServer.Server.Http

/-!
# Files and directories as responses

`disk_result`: a file, a listing of a directory, or a 404. What the file system answers comes from
outside. Its answers to several questions about one path need not go together. The order in which the headers
of a response are written comes from outside, too: they are in a hash map.

## Main results

* `Disk.diskResult_congr`: the file system is only asked about the canonical path;
* `Disk.answers_iff`: there is a message for the client exactly if no file of a permitted size refuses to
  be opened or fails to be read, and no listing of a directory throws.
-/

namespace PrimeServer

/-- `std::filesystem::file_type`. -/
inductive FileType where
  | none | notFound | regular | directory | symlink | block | character | fifo | socket | unknown
  deriving DecidableEq

/-- What a loop over a `directory_iterator` sees. -/
structure Listing where
  /-- The names, and what `is_directory` says. `none` stands for an exception. -/
  entries : List (Bytes × Option Bool)
  /-- Going on after them throws. -/
  failed : Bool

/-- The loop over the directory contents throws. -/
def Listing.Throws (listing : Listing) : Prop :=
  listing.failed ∨ ∃ entry ∈ listing.entries, entry.2 = none

/-- What comes of opening a file with `std::fstream` and reading all of it through its buffer. -/
inductive Opened where
  /-- The stream is not good. -/
  | refused
  /-- The stream is good, and reading it throws a `std::ios_base::failure`. -/
  | failed
  | contents (buffer : Bytes)
  deriving DecidableEq

/-- What the file system answers. -/
structure FileSystem where
  /-- `fs::status`, which says `none` in the case of an error. -/
  status : Bytes → FileType
  /-- `fs::file_size`, or an error. -/
  fileSize : Bytes → Option ℕ
  /-- What comes of opening the file with this name and reading it. -/
  read : Bytes → Opened
  /-- `fs::directory_iterator`. In the case of an error it has no entries. -/
  listing : Bytes → Listing

namespace Disk

/-- `CORS`. -/
def cors : Bytes × Bytes := (ascii "Access-Control-Allow-Origin", ascii "*")

/-- `DEFAULT_MIME`. -/
def defaultMime : Bytes × Bytes := (ascii "Content-type", ascii "application/octet-stream")

/-- `HTML_MIME`. -/
def htmlMime : Bytes × Bytes := (ascii "Content-type", ascii "text/html")

/-- `JS_MIME`. -/
def jsMime : Bytes × Bytes := (ascii "Content-type", ascii "application/javascript")

/-- `JSON_MIME`. -/
def jsonMime : Bytes × Bytes := (ascii "Content-type", ascii "application/json")

/-- `JPEG_MIME`. -/
def jpegMime : Bytes × Bytes := (ascii "Content-type", ascii "image/jpeg")

/-- `load_mimes`. -/
def mimes : List (Bytes × (Bytes × Bytes)) :=
  [(ascii "htm", htmlMime), (ascii "html", htmlMime), (ascii "js", jsMime), (ascii "json", jsonMime),
    (ascii "jpg", jpegMime), (ascii "jpeg", jpegMime)]

/-- `mime_header`. Without a dot the whole name is the extension. -/
def mimeHeader (fileName : Bytes) : Bytes × Bytes :=
  let extension := (fileName.splitOn (byte '.')).getLast (List.splitOn_ne_nil _ fileName)
  (mimes.lookup (extension.map tolower)).getD defaultMime

/-- `headers_t` of some headers. -/
def headersOf (headers : List (Bytes × Bytes)) : Headers :=
  headers.foldl (fun m (name, value) => m.insert name value) .empty

/-- `std::map::emplace`: the entries are in the order of their names, and the first of a name stays. -/
def emplace (name : Bytes) (isDir : Bool) : List (Bytes × Bool) → List (Bytes × Bool)
  | [] => [(name, isDir)]
  | entry :: entries =>
    if name < entry.1 then (name, isDir) :: entry :: entries
    else if name = entry.1 then entry :: entries
    else entry :: emplace name isDir entries

/-- The loop over the directory contents. -/
def gather (failed : Bool) :
    List (Bytes × Option Bool) → List (Bytes × Bool) → Option (List (Bytes × Bool))
  | [], entries => if failed then none else some entries
  | (name, some isDir) :: later, entries => gather failed later (emplace name isDir entries)
  | (_, none) :: _, _ => none

/-- The html of an entry. -/
def listEntry : Bytes × Bool → Bytes
  | (name, false) => ascii "<a href='" ++ name ++ ascii "'>" ++ name ++ ascii "</a><br/>"
  | (name, true) =>
    if name ≠ ascii "." then ascii "<a href='" ++ name ++ ascii "/'>" ++ name ++ ascii "</a><br/>" else []

/-- What a call of `disk_result` does. -/
inductive Outcome where
  /-- It returns a result, and has left the info as it is. -/
  | returned (result : WorkResult) (info : WorkerInfo)
  /-- A `filesystem_error` or a `std::ios_base::failure` leaves it. -/
  | threw
  /-- The loop over the dots of the path does not end. -/
  | diverged

/-- A response becomes the message of the result, with its headers in some order. -/
def respond (order : AssocMap.Order caseless Bytes) (response : HttpResponse) (info : WorkerInfo) : Outcome :=
  let (response, info) := response.fromInfo info
  .returned { intermediate := false, messages := [response.toStringIn order], heartBeat := [] } info

/-- A response of `disk_result`, whose version is set later. -/
def response (code : ℕ) (message : String) (body : Bytes) (headers : List (Bytes × Bytes)) :
    HttpResponse where
  code
  message := ascii message
  body
  headers := headersOf headers
  version := ascii "HTTP/1.1"

/-- `disk_result`. -/
def diskResult (order : AssocMap.Order caseless Bytes) (fs : FileSystem) (request : HttpRequest) (info : WorkerInfo)
    (root : Bytes) (allowListing : Bool) (sizeLimit : ℕ) : Outcome :=
  -- get the canonical path
  match sanitised request.path with
  | none => .diverged
  | some path =>
    let canonical := root ++ path
    -- check what we have
    let status := fs.status canonical
    -- a regular file
    if status = .regular ∧ (fs.fileSize canonical).getD sizeMax ≤ sizeLimit then
      -- have to be able to open it
      match fs.read canonical with
      | .contents buffer => respond order (response 200 "OK" buffer [cors, mimeHeader path]) info
      | .failed => .threw
      | .refused => .returned { intermediate := false, messages := [], heartBeat := [] } info
    -- a directory
    else if allowListing ∧ status = .directory then
      let listing := fs.listing canonical
      match gather listing.failed listing.entries [] with
      | some entries =>
        respond order (response 200 "OK" (entries.flatMap listEntry) [cors, htmlMime]) info
      | none => .threw
    -- didn't make the cut
    else respond order (response 404 "Not Found" (ascii "Not Found") []) info

/-! ### One message -/

variable {order : AssocMap.Order caseless Bytes} {fs : FileSystem} {request : HttpRequest} {info : WorkerInfo}
  {root : Bytes} {allowListing : Bool} {sizeLimit : ℕ}

/-- The result is one message, which the worker sends to the server. -/
def Answers (outcome : Outcome) : Prop :=
  ∃ result info, outcome = .returned result info ∧ result.messages.length = 1 ∧
    ∀ frame sends, Worker.resultActions result frame sends =
      [.loopback (Proxy.sendJob frame result.messages sends)]

/-- A file whose size is permitted cannot be opened, or fails to be read. -/
def Refuses (fs : FileSystem) (sizeLimit : ℕ) (p : Bytes) : Prop :=
  fs.status p = .regular ∧ (fs.fileSize p).getD sizeMax ≤ sizeLimit ∧
    (fs.read p = .refused ∨ fs.read p = .failed)

/-- The loop over a directory throws exactly if one of its entries or going on after them does. -/
theorem gather_eq_none_iff {failed : Bool} {entries : List (Bytes × Option Bool)}
    {gathered : List (Bytes × Bool)} :
    gather failed entries gathered = none ↔ failed ∨ ∃ entry ∈ entries, entry.2 = none := by
  induction entries generalizing gathered with
  | nil => simp [gather]
  | cons entry entries ih =>
    obtain ⟨name, isDir⟩ := entry
    cases isDir with
    | none => simp [gather]
    | some isDir => simp [gather, ih]

/-- A response becomes one message, which is sent to the server. -/
theorem answers_respond (order : AssocMap.Order caseless Bytes) (response : HttpResponse) (info : WorkerInfo) :
    Answers (respond order response info) :=
  ⟨_, _, rfl, rfl, fun _ _ => rfl⟩

/-- Without a message the worker sends nothing: it only logs that a message is required. -/
theorem not_answers_empty {info : WorkerInfo} : ¬Answers (.returned ⟨false, [], []⟩ info) := by
  rintro ⟨result, info', houtcome, hlength, -⟩
  obtain ⟨rfl, -⟩ := Outcome.returned.inj houtcome
  cases hlength

/-- The file system is only asked about the canonical path. -/
theorem diskResult_congr {fs fs' : FileSystem} {p : Bytes} (hp : canonical root request.path = some p)
    (hstatus : fs.status p = fs'.status p) (hsize : fs.fileSize p = fs'.fileSize p)
    (hread : fs.read p = fs'.read p) (hlisting : fs.listing p = fs'.listing p) :
    diskResult order fs request info root allowListing sizeLimit =
      diskResult order fs' request info root allowListing sizeLimit := by
  obtain ⟨path, hpath, rfl⟩ := Option.map_eq_some_iff.mp hp
  simp only [diskResult, hpath, hstatus, hsize, hread, hlisting]

/-- The answers of the file system about the canonical path decide the branch. -/
theorem answers_diskResult_iff {p : Bytes} (hp : canonical root request.path = some p) :
    Answers (diskResult order fs request info root allowListing sizeLimit) ↔
      ¬Refuses fs sizeLimit p ∧
        ¬(allowListing ∧ fs.status p = .directory ∧ (fs.listing p).Throws) := by
  obtain ⟨path, hpath, rfl⟩ := Option.map_eq_some_iff.mp hp
  simp only [diskResult, hpath]
  split_ifs with hfile hdirectory
  · -- a regular file
    have hnodirectory : fs.status (root ++ path) ≠ .directory := by
      rw [hfile.1]
      decide
    cases hread : fs.read (root ++ path) with
    | contents buffer =>
      refine iff_of_true (answers_respond _ _ _) ⟨fun h => ?_, fun h => hnodirectory h.2.1⟩
      simpa [hread] using h.2.2
    | refused => exact iff_of_false not_answers_empty fun h => h.1 ⟨hfile.1, hfile.2, Or.inl hread⟩
    | failed => exact iff_of_false nofun fun h => h.1 ⟨hfile.1, hfile.2, Or.inr hread⟩
  · -- a directory
    have hnofile : ¬Refuses fs sizeLimit (root ++ path) := fun h => hfile ⟨h.1, h.2.1⟩
    cases hgather : gather (fs.listing (root ++ path)).failed (fs.listing (root ++ path)).entries [] with
    | some entries =>
      refine iff_of_true (answers_respond _ _ _) ⟨hnofile, fun h => ?_⟩
      cases hgather.symm.trans (gather_eq_none_iff.mpr h.2.2)
    | none =>
      have hthrows := gather_eq_none_iff.mp hgather
      exact iff_of_false nofun fun h => h.2 ⟨hdirectory.1, hdirectory.2, hthrows⟩
  · exact iff_of_true (answers_respond _ _ _) ⟨fun h => hfile ⟨h.1, h.2.1⟩,
      fun h => hdirectory ⟨h.1, h.2.1⟩⟩

/-- Whatever the file system answers, `disk_result` returns one message, which the worker sends to the
server, exactly if no file of a permitted size refuses to be opened or fails to be read, and no listing that was
asked for throws. -/
theorem answers_iff (order : AssocMap.Order caseless Bytes) (fs : FileSystem) (request : HttpRequest)
    (info : WorkerInfo) (root : Bytes) (allowListing : Bool) (sizeLimit : ℕ) :
    Answers (diskResult order fs request info root allowListing sizeLimit) ↔
      ∃ p, canonical root request.path = some p ∧ ¬Refuses fs sizeLimit p ∧
        ¬(allowListing ∧ fs.status p = .directory ∧ (fs.listing p).Throws) := by
  obtain ⟨p, hp⟩ : ∃ p, canonical root request.path = some p := by
    simp [canonical, sanitised_eq]
  rw [answers_diskResult_iff hp]
  constructor
  · exact fun h => ⟨p, hp, h⟩
  · rintro ⟨p', hp', h⟩
    obtain rfl := Option.some.inj (hp.symm.trans hp')
    exact h

/-- A file that cannot be opened leaves the client without an answer. -/
theorem not_answers :
    ¬∀ (order : AssocMap.Order caseless Bytes) (fs : FileSystem) (request : HttpRequest) (info : WorkerInfo)
      (root : Bytes) (allowListing : Bool) (sizeLimit : ℕ),
      Answers (diskResult order fs request info root allowListing sizeLimit) := by
  intro h
  let fs : FileSystem :=
    { status := fun _ => .regular
      fileSize := fun _ => some 10
      read := fun _ => .refused
      listing := fun _ => { entries := [], failed := false } }
  let request : HttpRequest :=
    { method := .get
      path := ascii "/private.txt"
      query := .empty
      body := []
      headers := .empty
      version := ascii "HTTP/1.1"
      logLine := [] }
  let info : WorkerInfo := ⟨⟨0, 0, 1, false, false⟩, 0⟩
  have hanswers := h .insertion fs request info (ascii "./") true (1024 * 1024 * 1024)
  have hcanonical : canonical (ascii "./") request.path = some (ascii ".//private.txt") := by decide
  exact ((answers_diskResult_iff hcanonical).mp hanswers).1 ⟨rfl, by decide, Or.inl rfl⟩

end Disk

end PrimeServer
