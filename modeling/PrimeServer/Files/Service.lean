import PrimeServer.Files.Disk
import PrimeServer.Primes.Service

/-!
# `prime_filed`

The service with one stage, whose workers answer with files, listings of directories, or complaints. The
files may change while the service runs: each call of `disk_work` may find another file system.

## Main results

* `Disk.contents_of_run`: if the root ends with a slash, the clients get nothing from the file system but what
  is at paths below it, whatever else happens in the service.
-/

namespace PrimeServer

open Transition Walk

namespace Disk

/-- `disk_work`, when the headers of a response come in this order, the file system answers this, and an exception
of it says that. -/
def diskWork (curl : Curl) (headerOrder : AssocMap.Order caseless Bytes) (root : Bytes) (fs : FileSystem)
    (what : Bytes) (job : List Frame) (info : WorkerInfo) : Primes.Outcome :=
  match job with
  | [] => .undefined
  | text :: _ =>
    match HttpRequest.fromString curl text with
    | none => .diverged
    -- not derived from `std::exception`
    | some (.error (.request e)) => .threw e
    | some (.error (.std e)) => Primes.respond 400 "Bad Request" e.what info
    | some (.ok request) =>
      -- check the disk
      match diskResult headerOrder fs request info root true (1024 * 1024 * 1024) with
      | .returned result info => .returned result info
      | .threw => Primes.respond 400 "Bad Request" what info
      | .diverged => .diverged

/-- The bytes of a response whose headers come in this order. -/
def rendered (headerOrder : AssocMap.Order caseless Bytes) (r : HttpResponse) (info : WorkerInfo) : Bytes :=
  (r.fromInfo info).1.toStringIn headerOrder

/-- The response is what the file system has at a path below the root, or says that there is nothing. -/
inductive Shows (headerOrder : AssocMap.Order caseless Bytes) (fs : FileSystem) (root path : Bytes)
    (info : WorkerInfo) : Bytes → Prop where
  | file {buffer : Bytes} (hkind : fs.status (root ++ path) = .regular)
      (hsize : (fs.fileSize (root ++ path)).getD sizeMax ≤ 1024 * 1024 * 1024)
      (hread : fs.read (root ++ path) = .contents buffer) :
      Shows headerOrder fs root path info
        (rendered headerOrder (response 200 "OK" buffer [cors, mimeHeader path]) info)
  | directory {entries : List (Bytes × Bool)} (hkind : fs.status (root ++ path) = .directory)
      (hentries : gather (fs.listing (root ++ path)).failed (fs.listing (root ++ path)).entries [] = some entries) :
      Shows headerOrder fs root path info
        (rendered headerOrder (response 200 "OK" (entries.flatMap listEntry) [cors, htmlMime]) info)
  | notFound :
      Shows headerOrder fs root path info (rendered headerOrder (response 404 "Not Found" (ascii "Not Found") []) info)

/-- What a client may be told about the text of its request, when `disk` holds of what the file system may
answer. The path leads to the root, or below it. -/
inductive Serves (curl : Curl) (headerOrder : AssocMap.Order caseless Bytes) (root : Bytes) (cwd : List Bytes)
    (disk : FileSystem → Bytes → Prop) (text : Bytes) (info : WorkerInfo) : Bytes → Prop where
  /-- The path of the request lies under the root, and what is there is shown. -/
  | shown {request : HttpRequest} {fs : FileSystem} {what path body : Bytes} (hdisk : disk fs what)
      (hread : HttpRequest.fromString curl text = some (.ok request)) (hpath : sanitised request.path = some path)
      (hinside : resolve cwd root <+: resolve cwd (root ++ path)) (hshows : Shows headerOrder fs root path info body) :
      Serves curl headerOrder root cwd disk text info body
  /-- The request could not be read. -/
  | noRequest {e : StdException} (hread : HttpRequest.fromString curl text = some (.error (.std e))) :
      Serves curl headerOrder root cwd disk text info (Primes.render 400 "Bad Request" e.what info)
  /-- Something was thrown while the file system was read. -/
  | failed {fs : FileSystem} {what : Bytes} (hdisk : disk fs what) :
      Serves curl headerOrder root cwd disk text info (Primes.render 400 "Bad Request" what info)

/-! ### The work function -/

variable {curl : Curl} {headerOrder : AssocMap.Order caseless Bytes} {root text : Bytes} {cwd : List Bytes}
  {disk : FileSystem → Bytes → Prop} {fs : FileSystem} {what : Bytes} {info info' : WorkerInfo}
  {result : WorkResult}

/-- Below a root that ends with a slash, no path leads out of it. -/
theorem prefix_resolve (cwd : List Bytes) (hroot : root ≠ []) (hslash : lastPart root = []) {request path : Bytes}
    (hpath : sanitised request = some path) : resolve cwd root <+: resolve cwd (root ++ path) := by
  obtain rfl : collapse false false request = path := Option.some.inj ((sanitised_eq request).symm.trans hpath)
  obtain ⟨first, rest, hfirst⟩ := List.exists_cons_of_ne_nil
    (List.splitOn_ne_nil (byte '/') (collapse false false request))
  have hlast : root.splitOn (byte '/') = (root.splitOn (byte '/')).dropLast ++ [lastPart root] :=
    (List.dropLast_append_getLast (List.splitOn_ne_nil _ root)).symm
  obtain ⟨dir, hdir, hresolve⟩ := resolve_append cwd hroot hlast hfirst
  have hup := up_notMem_moves false false request
  rw [moves, hfirst, List.map_cons, List.mem_cons, not_or] at hup
  rw [hdir, hresolve, prefix_walk_iff (Ne.symm hup.1) hup.2]
  exact Or.inr (Or.inl hslash)

/-- What `disk_result` hands on is the rendered response, and the info keeps what the server knows. -/
theorem shows_of_respond {r : HttpResponse} {path : Bytes} (h : respond headerOrder r info = .returned result info')
    (hshows : Shows headerOrder fs root path info (rendered headerOrder r info)) :
    result.intermediate = false ∧ info'.toHttpRequestInfo = info.toHttpRequestInfo ∧
      ∀ body later, result.messages = body :: later → Shows headerOrder fs root path info body := by
  obtain ⟨rfl, rfl⟩ := Outcome.returned.inj h
  refine ⟨rfl, rfl, fun body later hmessages => ?_⟩
  obtain ⟨rfl, -⟩ := List.cons.inj hmessages
  exact hshows

/-- What `disk_result` returns: a response, or no message at all. -/
theorem shows_of_diskResult {request : HttpRequest} {path : Bytes} (hpath : sanitised request.path = some path)
    (h : diskResult headerOrder fs request info root true (1024 * 1024 * 1024) = .returned result info') :
    result.intermediate = false ∧ info'.toHttpRequestInfo = info.toHttpRequestInfo ∧
      ∀ body later, result.messages = body :: later → Shows headerOrder fs root path info body := by
  simp only [diskResult, hpath] at h
  split_ifs at h with hfile hdirectory
  · cases hread : fs.read (root ++ path) with
    | contents buffer =>
      rw [hread] at h
      exact shows_of_respond h (.file hfile.1 hfile.2 hread)
    | refused =>
      -- a file that cannot be opened is answered with no message
      rw [hread] at h
      obtain ⟨rfl, rfl⟩ := Outcome.returned.inj h
      refine ⟨rfl, rfl, fun body later hmessages => ?_⟩
      cases hmessages
    | failed =>
      rw [hread] at h
      cases h
  · cases hentries : gather (fs.listing (root ++ path)).failed (fs.listing (root ++ path)).entries [] with
    | some entries =>
      rw [hentries] at h
      exact shows_of_respond h (.directory hdirectory.2 hentries)
    | none =>
      rw [hentries] at h
      cases h
  · exact shows_of_respond h .notFound

/-- What a file worker returns. -/
inductive Works (curl : Curl) (headerOrder : AssocMap.Order caseless Bytes) (root : Bytes) (fs : FileSystem)
    (what text : Bytes) (info : WorkerInfo) : WorkResult → WorkerInfo → Prop where
  | disk {request : HttpRequest} {result : WorkResult} {info' : WorkerInfo}
      (hread : HttpRequest.fromString curl text = some (.ok request))
      (hresult : diskResult headerOrder fs request info root true (1024 * 1024 * 1024) = .returned result info') :
      Works curl headerOrder root fs what text info result info'
  | complaint {body : Bytes} {info' : WorkerInfo} (hkeeps : info'.toHttpRequestInfo = info.toHttpRequestInfo)
      (htold : body = what ∨
        ∃ e : StdException, HttpRequest.fromString curl text = some (.error (.std e)) ∧ body = e.what) :
      Works curl headerOrder root fs what text info
        { intermediate := false
          messages := [Primes.render 400 "Bad Request" body info]
          heartBeat := [] } info'

/-- A file worker that returns has answered from the disk or with a complaint. -/
theorem works_of_returned {job : List Frame}
    (h : diskWork curl headerOrder root fs what (text :: job) info = .returned result info') :
    Works curl headerOrder root fs what text info result info' := by
  simp only [diskWork] at h
  split at h
  case h_1 | h_2 => cases h
  case h_3 e hread =>
    obtain ⟨rfl, hkeeps⟩ := Primes.of_respond h
    exact .complaint hkeeps (Or.inr ⟨e, hread, rfl⟩)
  case h_4 request hread =>
    split at h
    case h_1 result' info'' hresult =>
      obtain ⟨rfl, rfl⟩ := Primes.Outcome.returned.inj h
      exact .disk hread hresult
    case h_2 =>
      obtain ⟨rfl, hkeeps⟩ := Primes.of_respond h
      exact .complaint hkeeps (Or.inl rfl)
    case h_3 => cases h

/-- A file worker answers. -/
theorem Works.final (h : Works curl headerOrder root fs what text info result info') :
    result.intermediate = false ∧ info'.toHttpRequestInfo = info.toHttpRequestInfo := by
  cases h with
  | @disk request _ _ _ hresult =>
    obtain ⟨hfinal, hkeeps, -⟩ := shows_of_diskResult (sanitised_eq request.path) hresult
    exact ⟨hfinal, hkeeps⟩
  | complaint hkeeps => exact ⟨rfl, hkeeps⟩

/-- Whatever a file worker answers is something that its client may be told, if the root ends with a slash. -/
theorem Works.serves (h : Works curl headerOrder root fs what text info result info') (hdisk : disk fs what)
    (hroot : root ≠ []) (hslash : lastPart root = []) (cwd : List Bytes) {body : Bytes} {later : List Bytes}
    (hmessages : result.messages = body :: later) : Serves curl headerOrder root cwd disk text info body := by
  cases h with
  | @disk request _ _ hread hresult =>
    have hpath := sanitised_eq request.path
    obtain ⟨-, -, hshows⟩ := shows_of_diskResult hpath hresult
    exact .shown hdisk hread hpath (prefix_resolve cwd hroot hslash hpath) (hshows body later hmessages)
  | complaint _ htold =>
    obtain ⟨rfl, -⟩ := List.cons.inj hmessages
    rcases htold with rfl | ⟨e, hread, rfl⟩
    · exact .failed hdisk
    · exact .noRequest hread

/-! ### The service -/

/-- Of the request info, a response only shows what the server knows, too. -/
theorem rendered_congr (h : info'.toHttpRequestInfo = info.toHttpRequestInfo) (r : HttpResponse) :
    rendered headerOrder r info' = rendered headerOrder r info := by
  unfold rendered HttpResponse.fromInfo
  rw [h]

/-- A response from the disk does not depend on what the worker wrote into the info. -/
theorem Shows.congr {path body : Bytes} (hshows : Shows headerOrder fs root path info' body)
    (h : info'.toHttpRequestInfo = info.toHttpRequestInfo) : Shows headerOrder fs root path info body := by
  cases hshows with
  | file hkind hsize hread =>
    rw [rendered_congr h]
    exact .file hkind hsize hread
  | directory hkind hentries =>
    rw [rendered_congr h]
    exact .directory hkind hentries
  | notFound =>
    rw [rendered_congr h]
    exact .notFound

/-- What a client may be told does not depend on what the worker wrote into the info. -/
theorem Serves.congr {body : Bytes} (hserves : Serves curl headerOrder root cwd disk text info' body)
    (h : info'.toHttpRequestInfo = info.toHttpRequestInfo) : Serves curl headerOrder root cwd disk text info body := by
  cases hserves with
  | shown hdisk hread hpath hinside hshows => exact .shown hdisk hread hpath hinside (hshows.congr h)
  | noRequest hread =>
    rw [Primes.render_congr h]
    exact .noRequest hread
  | failed hdisk =>
    rw [Primes.render_congr h]
    exact .failed hdisk

/-- The file workers, when `disk` holds of what the file system may answer. They read the info from memory. -/
def fileWork (curl : Curl) (headerOrder : AssocMap.Order caseless Bytes) (root : Bytes)
    (disk : FileSystem → Bytes → Prop) : WorkFunction where
  Returns info frames result left :=
    ∃ fs what, disk fs what ∧ (diskWork curl headerOrder root fs what frames (.read info)).Gives result left
  whole {info frames result left} h hintermediate := by
    obtain ⟨fs, what, -, hgives⟩ := h
    obtain ⟨info', hreturned, -⟩ := Primes.returned_of_gives hgives
    cases frames with
    | nil => cases hreturned
    | cons text job => simp [(works_of_returned hreturned).final.1] at hintermediate

/-- The stage of `prime_filed`. -/
def works (curl : Curl) (order : RequestOrder) (headerOrder : AssocMap.Order caseless Bytes) (root : Bytes)
    (disk : FileSystem → Bytes → Prop) : WorkFunctions (HttpRequestInfo.layoutIn curl order) where
  stage _ := fileWork curl headerOrder root disk
  keeps {i info frames result left} h := by
    obtain ⟨fs, what, -, hgives⟩ := h
    obtain ⟨info', hreturned, rfl⟩ := Primes.returned_of_gives hgives
    cases frames with
    | nil => cases hreturned
    | cons text job =>
      exact Primes.read_bytes_of_kept (works_of_returned hreturned).final.2

variable {order : RequestOrder}

/-- What the stage makes of a text is what its client may be told. -/
theorem serves_of_answers (hroot : root ≠ []) (hslash : lastPart root = []) (cwd : List Bytes)
    {frame last : Frame} {body : Bytes}
    (h : (works curl order headerOrder root disk).Answers 0 frame [text] last body) :
    Serves curl headerOrder root cwd disk text (.read frame) body := by
  cases h with
  | final hreturns hfinal hmessages =>
    obtain ⟨fs, what, hdisk, hgives⟩ := hreturns
    obtain ⟨info', hreturned, -⟩ := Primes.returned_of_gives hgives
    exact (works_of_returned hreturned).serves hdisk hroot hslash cwd hmessages
  | intermediate hreturns hintermediate =>
    obtain ⟨fs, what, -, hgives⟩ := hreturns
    obtain ⟨info', hreturned, -⟩ := Primes.returned_of_gives hgives
    simp [(works_of_returned hreturned).final.1] at hintermediate

variable {config : ServerConfig HttpRequest} {heartBeat : ℕ → Frame → Frame}
  {s : Service (RequestParser × List Bytes) HttpRequest HttpRequestInfo} {events : List (Service.Event HttpRequestInfo)}

/-- In every run, each response that was sent for a request that was sent on is a file or a directory that was
found at a path below the root when the worker looked, or says that nothing was found or that something is
wrong, unless the request was too old when `handle_timeouts` was called. -/
theorem contents_of_run (hroot : root ≠ []) (hslash : lastPart root = []) (cwd : List Bytes)
    (hproper : StepsMeet (Service.step (HttpRequestInfo.layoutIn curl order) config) (.start heartBeat) events
      (Service.Proper (works curl order headerOrder root disk) config))
    (hrun : run (Service.step (HttpRequestInfo.layoutIn curl order) config) (.start heartBeat) events = some s)
    {p : Posted HttpRequest HttpRequestInfo} (hp : p ∈ s.posted) {client : Frame} {body : Bytes}
    (hresponse : .response p.info.key client body .accepted ∈ s.machine.wire) :
    client = p.client ∧
      ((∃ text, p.request.toString curl = .ok text ∧
          Serves curl headerOrder root cwd disk text { toHttpRequestInfo := p.info, responseCode := 0 } body) ∨
        Service.Expired config events p.info body) := by
  obtain ⟨hclient, hanswer⟩ := Service.httpResponse_of_run hproper hrun hp hresponse
  refine ⟨hclient, hanswer.imp_left ?_⟩
  rintro ⟨text, last, htext, hread, hanswers⟩
  exact ⟨text, htext, (serves_of_answers hroot hslash cwd hanswers).congr hread⟩

/-- There is one file. -/
def oneFile : FileSystem where
  status path := if path = ascii ".//index.html" then .regular else .notFound
  fileSize path := if path = ascii ".//index.html" then some 2 else none
  read path := if path = ascii ".//index.html" then .contents (ascii "hi") else .refused
  listing _ := { entries := [], failed := false }

instance (i : ℕ) (info : Frame) (frames : List Frame) (result : WorkResult) (left : Frame) :
    Decidable (((works curl order headerOrder root fun fs what => fs = oneFile ∧ what = []).stage i).Returns info
      frames result left) :=
  decidable_of_iff ((diskWork curl headerOrder root oneFile [] frames (.read info)).Gives result left)
    ⟨fun h => ⟨oneFile, [], ⟨rfl, rfl⟩, h⟩, fun ⟨_, _, ⟨hfs, hwhat⟩, h⟩ => hfs ▸ hwhat ▸ h⟩

/-- The file as a response. -/
def indexResponse : Bytes :=
  rendered .insertion (response 200 "OK" (ascii "hi") [cors, htmlMime]) (Primes.firstInfo 0)

/-- A client asks for the file. -/
def oneDownload : List (Service.Event HttpRequestInfo) :=
  let sends : DequeueSends := ⟨.accepted, .accepted⟩
  let answered : WorkResult := { intermediate := false, messages := [indexResponse], heartBeat := [] }
  [.server (.message [1] [] .accepted),
    .server (.message [1] (ascii "GET /index.html HTTP/1.1\r\n\r\n") .accepted),
    .server (.next 100 .accepted .accepted sends), .server (.next 100 .accepted .accepted sends),
    .work 0 (.advertise [9]), .work 0 (.forward (some ([9], 0)) none), .deliver 0 0 [],
    .work 0 (.forward none (some .null)), .work 0 (.take [9] false),
    .work 0 (.finish [9] answered (Primes.firstInfo 200).bytes), .receive 0 sends]

/-- `contents_of_run` for a client that downloads a file. -/
theorem contents_of_run_oneDownload :
    ∃ s, run (Service.step (HttpRequestInfo.layoutIn .percent .insertion) Primes.defaults) (.start fun _ _ => [])
        oneDownload = some s ∧
      ∃ p ∈ s.posted, ∃ body, .response p.info.key [1] body .accepted ∈ s.machine.wire ∧
        [1] = p.client ∧
          ((∃ text, p.request.toString .percent = .ok text ∧
              Serves .percent .insertion (ascii "./") [ascii "srv"] (fun fs what => fs = oneFile ∧ what = []) text
                { toHttpRequestInfo := p.info, responseCode := 0 } body) ∨
            Service.Expired Primes.defaults oneDownload p.info body) := by
  have hrun : (run (Service.step (HttpRequestInfo.layoutIn .percent .insertion) Primes.defaults) (.start fun _ _ => [])
      oneDownload).map (fun s => s.posted.map fun p =>
        decide (.response p.info.key [1] indexResponse .accepted ∈ s.machine.wire)) = some [true] := by decide
  obtain ⟨s, hs, hposted⟩ := Option.map_eq_some_iff.mp hrun
  obtain ⟨p, hp, hresponse⟩ := List.map_eq_singleton_iff.mp hposted
  have hmem : p ∈ s.posted := by rw [hp]; exact List.mem_singleton_self p
  have hproper : StepsMeet (Service.step (HttpRequestInfo.layoutIn .percent .insertion) Primes.defaults)
      (.start fun _ _ => []) oneDownload
      (Service.Proper (works .percent .insertion .insertion (ascii "./") fun fs what => fs = oneFile ∧ what = [])
        Primes.defaults) := by decide
  exact ⟨s, hs, p, hmem, _, of_decide_eq_true hresponse,
    contents_of_run (by decide) (by decide) [ascii "srv"] hproper hs hmem (of_decide_eq_true hresponse)⟩

end Disk

end PrimeServer
