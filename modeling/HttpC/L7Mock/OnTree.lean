import HttpC.Core.FileSys
import HttpC.L5Concurrency.Answer
import HttpC.L6Harness.Receive
import HttpC.L7Mock.Answer
import HttpC.L7Mock.Request

/-!
# Both servers on one tree of files

The outcomes of `access`, `open` and `fstat` are now what a tree of files and
directories makes them (`oracleOn`, `mockOracleOn`). The C server has opened a
lockfile first: the tree its handler sees is the one with that file in it
(`underLock`). `serverOutcome` and `mockOutcome` are what a request of the
driver, handled alone, is answered and what files it leaves; `server_ends` and
`mock_ends` say that the two programs end so.
-/
namespace HttpC.L7
open HttpC.L1.Util HttpC.L2 HttpC.L3 HttpC.L5 HttpC.L6 HttpC.FileSys

/-! ## What the calls return -/

/-- `errno` of a failed `open`. -/
def errnoOf : Fail → Errno
  | .noEntry => .ENOENT
  | .denied => .EACCES
  | .isDir => .EISDIR
  | .notDir => .other

/-- The same failure in `std.fs`. -/
def zigError : Fail → OpenError
  | .noEntry => .FileNotFound
  | .denied => .AccessDenied
  | .isDir => .IsDir
  | .notDir => .other

def failure {α : Type} : Except Fail α → Option Fail
  | .error e => some e
  | .ok _ => none

/-- How a request's `open` fails. -/
def openFail (σ : Tree) (cwd : List Bytes) (method : Request) (uri : Bytes) : Option Fail :=
  match method with
  | .PUT => failure (σ.openCreate .write cwd uri)
  | _ => failure (σ.openRead cwd uri)

def opensDir (σ : Tree) (cwd : List Bytes) (uri : Bytes) : Bool :=
  match σ.openRead cwd uri with
  | .ok n => n.isDir
  | .error _ => false

/-- `open(path, O_CREAT | O_RDONLY, 0600)`
mirrors src/httpserver.c:112-115 -/
def lockOpen (E : Env) (σ : Tree) (uri : Bytes) : Except Fail (List Bytes) :=
  σ.openCreate .read E.cwd (E.lockOf uri)

/-- The tree once `uri_lock` has run. -/
def underLock (E : Env) (σ : Tree) (uri : Bytes) : Tree :=
  match lockOpen E σ uri with
  | .ok L => σ.touch L
  | .error _ => σ

def oracleOn (E : Env) (σ : Tree) (method : Request) (uri : Bytes) : Oracle where
  uriLock := (failure (lockOpen E σ uri)).isNone
  access := (underLock E σ uri).exists_ E.cwd uri
  openErr := (openFail (underLock E σ uri) E.cwd method uri).map errnoOf
  isDir := opensDir (underLock E σ uri) E.cwd uri

def mockOracleOn (E : Env) (σ : Tree) (method : Request) (uri : Bytes) : MockOracle where
  access := σ.exists_ E.cwd uri
  openErr := (openFail σ E.cwd method uri).map zigError
  isDir := opensDir σ E.cwd uri

section
variable {σ : Tree} {cwd : List Bytes} {uri : Bytes}

theorem openRead_files {n : Node} (h : σ.openRead cwd uri = .ok n) :
    σ.files (Path.resolve cwd uri) = some n.content := by
  unfold Tree.openRead at h
  split at h
  · cases h
  · rename_i p hp
    split at h
    · cases h
    · rename_i m hm
      rw [← Tree.locate_eq hp, Tree.files, hm]
      split at h
      · cases h
      · split at h
        · cases h; rfl
        · cases h

/-- What `access` finds has something to read. -/
theorem exists_files (σ : Tree) (cwd : List Bytes) (uri : Bytes) :
    (σ.exists_ cwd uri && (σ.files (Path.resolve cwd uri)).isSome) = σ.exists_ cwd uri := by
  cases he : σ.exists_ cwd uri with
  | false => rfl
  | true =>
    unfold Tree.exists_ at he
    split at he
    · cases he
    · rename_i p hp
      obtain ⟨n, hn, -⟩ := (Option.any_eq_true _ _).mp he
      rw [← Tree.locate_eq hp, Tree.files, hn]
      rfl

end

/-! ## Answers -/

/-- Status and body of an answer of the C server. -/
def pair (a : Answer) : Nat × Bytes := (responseGetCode a.res, a.body)

theorem statusReason_message (res : Response) : statusReason (responseGetCode res) = responseGetMessage res := by
  cases res <;> rfl

theorem pair_message (res : Response) : pair (.message res) = errorAnswer (responseGetCode res) := by
  rw [errorAnswer, errorBody, statusReason_message]
  rfl

/-- **The servers print alike.** -/
theorem text_wire (a : Answer) : a.text = wire (pair a) := by
  cases a with
  | message res =>
    rw [Answer.text, responseText_head, wire, responseHead, pair]
    simp only [Answer.res, Answer.body, statusReason_message]
    rfl
  | file c => rfl

/-- What `handle_get` answers under its lock. -/
def getOn (σ : Tree) (cwd : List Bytes) (uri : Bytes) : Answer :=
  match σ.openRead cwd uri with
  | .error e => .message (getOpenError (errnoOf e))
  | .ok (.dir ..) => .message .FORBIDDEN
  | .ok (.file c _ _) => .file c

/-- What `handle_put` answers under its lock. -/
def putOn (σ : Tree) (cwd : List Bytes) (uri : Bytes) (f : Option Bytes) (body : Bytes) :
    Response × Option Bytes :=
  match σ.openCreate .write cwd uri with
  | .error e => (putOpenError (errnoOf e), f)
  | .ok _ => (if σ.exists_ cwd uri then .OK else .CREATED, some body)

/-- What the C server answers: a 500 if there is no lock. -/
def serverGet (E : Env) (σ : Tree) (uri : Bytes) : Answer :=
  match lockOpen E σ uri with
  | .error _ => .message .INTERNAL_SERVER_ERROR
  | .ok _ => getOn (underLock E σ uri) E.cwd uri

def serverPut (E : Env) (σ : Tree) (uri body : Bytes) : Response × Option Bytes :=
  let f := (underLock E σ uri).files (E.fileOf uri)
  match lockOpen E σ uri with
  | .error _ => (.INTERNAL_SERVER_ERROR, f)
  | .ok _ => putOn (underLock E σ uri) E.cwd uri f body

def mockGetOn (σ : Tree) (cwd : List Bytes) (uri : Bytes) : Nat × Bytes :=
  match σ.openRead cwd uri with
  | .error e => errorAnswer (getOpenCode (zigError e))
  | .ok (.dir ..) => errorAnswer 403
  | .ok (.file c _ _) => if c.length ≤ 1 <<< 30 then (200, c) else errorAnswer 500

def mockPutOn (σ : Tree) (cwd : List Bytes) (uri : Bytes) (f : Option Bytes) (body : Bytes) :
    Nat × Option Bytes :=
  match σ.openCreate .write cwd uri with
  | .error e => (putOpenCode (zigError e), f)
  | .ok _ => (if σ.exists_ cwd uri then 200 else 201, some body)

section
variable (E : Env) (σ : Tree) (uri : Bytes)

theorem getAnswer_on : getAnswer (oracleOn E σ .GET uri) ((underLock E σ uri).files (E.fileOf uri)) =
    serverGet E σ uri := by
  unfold getAnswer oracleOn serverGet
  cases hl : lockOpen E σ uri with
  | error e => rfl
  | ok L =>
    unfold getOn opensDir openFail
    cases hr : (underLock E σ uri).openRead E.cwd uri with
    | error e => rfl
    | ok n =>
      have hf : (underLock E σ uri).files (E.fileOf uri) = some n.content := openRead_files hr
      rw [hf]
      cases n <;> rfl

theorem putAnswer_on (body : Bytes) :
    putAnswer (oracleOn E σ .PUT uri) ((underLock E σ uri).files (E.fileOf uri)) body =
      serverPut E σ uri body := by
  have hex : ((underLock E σ uri).exists_ E.cwd uri &&
      ((underLock E σ uri).files (E.fileOf uri)).isSome) = (underLock E σ uri).exists_ E.cwd uri :=
    exists_files _ _ _
  unfold putAnswer oracleOn serverPut
  cases hl : lockOpen E σ uri with
  | error e => rfl
  | ok L =>
    unfold putOn openFail
    cases hr : (underLock E σ uri).openCreate .write E.cwd uri with
    | error e => rfl
    | ok p =>
      simp only [failure, Option.map_none, Option.isNone_none, hex]
      rfl

theorem mockGetAnswer_on :
    mockGetAnswer (mockOracleOn E σ .GET uri) (σ.files (E.fileOf uri)) = mockGetOn σ E.cwd uri := by
  unfold mockGetAnswer mockOracleOn mockGetOn opensDir openFail
  cases hr : σ.openRead E.cwd uri with
  | error e => rfl
  | ok n =>
    have hf : σ.files (E.fileOf uri) = some n.content := openRead_files hr
    rw [hf]
    cases n <;> rfl

theorem mockPutAnswer_on (body : Bytes) :
    mockPutAnswer (mockOracleOn E σ .PUT uri) (σ.files (E.fileOf uri)) body =
      mockPutOn σ E.cwd uri (σ.files (E.fileOf uri)) body := by
  have hex : (σ.exists_ E.cwd uri && (σ.files (E.fileOf uri)).isSome) = σ.exists_ E.cwd uri :=
    exists_files _ _ _
  unfold mockPutAnswer mockOracleOn mockPutOn openFail
  cases hr : σ.openCreate .write E.cwd uri with
  | error e => rfl
  | ok p =>
    simp only [failure, Option.map_none, hex]

end

/-! ## A request of the driver -/

/-- How the bytes of a connection and of its file come and go: in any pieces,
none lost. -/
structure Channel where
  arrives : List ReadEv
  sockWrites : List WriteEv
  fileReads : List ReadEv
  fileWrites : List WriteEv
  arrives_cut : Cut arrives
  sock_writes : Writes sockWrites
  file_reads : Cut fileReads
  file_writes : Writes fileWrites

/-- A GET or PUT of an accepted URI as `doCreate` builds it, with no header
line in its body. -/
structure Encoded (opts : Options) (c : Create) (d : DriverConn) : Prop where
  built : doCreate opts c = some d
  host : HostHeader opts.extraHeaders
  method : c.method = ascii "GET" ∨ c.method = ascii "PUT"
  uri : UriOk c.uri
  body : ∀ i ps, ¬ Regex.FitsAt HEADER_FIELD.items (d.body.drop i) ps

def requestOf (method : Bytes) : Request := if method = ascii "PUT" then .PUT else .GET

def onServer (E : Env) (σ : Tree) (c : Create) (d : DriverConn) (k : Channel) : Incoming where
  client := ⟨d.requestLine ++ d.headers ++ d.body, k.arrives⟩
  oracle := oracleOn E σ (requestOf c.method) c.uri
  sockWrites := k.sockWrites
  fileReads := k.fileReads
  fileWrites := k.fileWrites

def onMock (E : Env) (σ : Tree) (c : Create) (d : DriverConn) (k : Channel) : MockIncoming where
  client := ⟨d.requestLine ++ d.headers ++ d.body, k.arrives⟩
  oracle := mockOracleOn E σ (requestOf c.method) c.uri
  sockWrites := k.sockWrites
  fileReads := k.fileReads
  fileWrites := k.fileWrites

/-- Status, body and files of a request to the C server. -/
def serverOutcome (E : Env) (σ : Tree) (method : Request) (uri body : Bytes) : (Nat × Bytes) × Files :=
  let files := (underLock E σ uri).files
  match method with
  | .PUT =>
    let a := serverPut E σ uri body
    (errorAnswer (responseGetCode a.1), Function.update files (E.fileOf uri) a.2)
  | _ => (pair (serverGet E σ uri), files)

/-- The same for the mock. -/
def mockOutcome (E : Env) (σ : Tree) (method : Request) (uri body : Bytes) : (Nat × Bytes) × Files :=
  match method with
  | .PUT =>
    let a := mockPutOn σ E.cwd uri (σ.files (E.fileOf uri)) body
    (errorAnswer a.1, Function.update σ.files (E.fileOf uri) a.2)
  | _ => (mockGetOn σ E.cwd uri, σ.files)

/-- The audit line of a request of the driver. -/
def lineOf (c : Create) (code : Nat) : LogLine := ⟨c.method, c.uri, code, decimalInt c.id.toInt⟩

section
variable {E : Env} {σ : Tree} {opts : Options} {c : Create} {d : DriverConn}

/-- **The C server's end.** -/
theorem server_ends (E : Env) (σ : Tree) (k : Channel) (h : Encoded opts c d) :
    let out := serverOutcome E σ (requestOf c.method) c.uri d.body
    ∃ s, (alone E (onServer E σ c d k) (underLock E σ c.uri).files).Reachable s ∧
      (s.workers 0).pc = .done ∧ s.files = out.2 ∧ (s.workers 0).sock.written = wire out.1 ∧
      s.linesOf 0 = [lineOf c out.1.1] := by
  intro out
  obtain ⟨conn, rest, hp, hreq, huri, hid, -, hrecv⟩ := create_parses h.built h.host h.method h.uri
    k.arrives_cut fun b _ _ hb => noField_of_noFit hb h.body
  have hbody : d.body = c.infile.getD [] := (createBody_spec (doCreate_eq h.built).1).1
  have hline : ∀ res, auditLine conn res = lineOf c (responseGetCode res) := by
    intro res
    rw [auditLine, hreq, huri, hid]
    rfl
  rcases h.method with hm | hm
  · have hr : requestOf c.method = .GET := by rw [hm]; decide
    have hget : conn.request = .GET := by
      cases hc : conn.request <;> rw [hc, hm] at hreq <;> first | rfl | (revert hreq; decide)
    have ho : (onServer E σ c d k).oracle = oracleOn E σ .GET c.uri := by rw [onServer, hr]
    have hend : Ended E (onServer E σ c d k) (underLock E σ c.uri).files conn _ _ _ :=
      get_ended hp hget rfl rfl k.file_reads k.sock_writes
    rw [huri, ho, getAnswer_on, text_wire] at hend
    obtain ⟨s, hs, hd, hf, hw, hl⟩ := hend
    rw [hline] at hl
    have hout : out = (pair (serverGet E σ c.uri), (underLock E σ c.uri).files) := by
      simp only [out, serverOutcome, hr]
    rw [hout]
    exact ⟨s, hs, hd, hf, hw, hl⟩
  · have hr : requestOf c.method = .PUT := by rw [hm]; decide
    have hput : conn.request = .PUT := by
      cases hc : conn.request <;> rw [hc, hm] at hreq <;> first | rfl | (revert hreq; decide)
    have ho : (onServer E σ c d k).oracle = oracleOn E σ .PUT c.uri := by rw [onServer, hr]
    rw [← hbody] at hrecv
    have hend : Ended E (onServer E σ c d k) (underLock E σ c.uri).files conn _ _ _ :=
      put_ended hp hput rfl (hrecv k.fileWrites k.file_writes) k.sock_writes
    rw [huri, ho, putAnswer_on, ← Answer.text, text_wire, pair_message] at hend
    obtain ⟨s, hs, hd, hf, hw, hl⟩ := hend
    rw [hline] at hl
    have hout : out = (errorAnswer (responseGetCode (serverPut E σ c.uri d.body).1),
        Function.update (underLock E σ c.uri).files (E.fileOf c.uri) (serverPut E σ c.uri d.body).2) := by
      simp only [out, serverOutcome, hr]
    rw [hout]
    exact ⟨s, hs, hd, hf, hw, hl⟩

/-- A driver's request has a line that fits. -/
theorem lineOf_fits (h : Encoded opts c d) {code : Nat} (hc : (decimal code).length = 3) :
    (auditText (lineOf c code)).length ≤ LINE_MAX := by
  have h1 : (ascii ",").length = 1 := by decide
  have h2 : (ascii "\n").length = 1 := by decide
  have hm : c.method.length = 3 := by rcases h.method with hm | hm <;> rw [hm] <;> decide
  have hv := (idField_ok c.id).value_le
  have hu := h.uri.le
  simp only [idField, headerField] at hv
  simp only [auditText, lineOf, List.length_append, h1, h2, hc, hm, LINE_MAX]
  omega

/-- **The mock's end.** -/
theorem mock_ends (E : Env) (σ : Tree) (k : Channel) (h : Encoded opts c d) :
    let out := mockOutcome E σ (requestOf c.method) c.uri d.body
    ∃ s, (aloneMock E (onMock E σ c d k) σ.files).Reachable s ∧
      (s.threads 0).pc = .done ∧ s.files = out.2 ∧ (s.threads 0).sock.written = wire out.1 ∧
      s.log = audited (lineOf c out.1.1) := by
  intro out
  obtain ⟨T, rest, hread, hmeth, huri, hid, hlen, hleft, hcut⟩ :=
    readTask_create (s := (onMock E σ c d k).client) h.built h.host h.method h.uri rfl k.arrives_cut
  have hline : ∀ code, T.line code = lineOf c code := by
    intro code
    rw [Task.line, hmeth, huri, hid]
    rfl
  rcases h.method with hm | hm
  · have hr : requestOf c.method = .GET := by rw [hm]; decide
    have hget : branch T.method = .get := by rw [hmeth, hm]; decide
    have ho : (onMock E σ c d k).oracle = mockOracleOn E σ .GET c.uri := by rw [onMock, hr]
    have hend : MockEnded E (onMock E σ c d k) σ.files T σ.files _ :=
      mockGet_ended hread hget k.file_reads k.sock_writes
    rw [huri, ho, mockGetAnswer_on] at hend
    obtain ⟨s, hs, hd, hf, hw, hl⟩ := hend
    rw [hline] at hl
    have hout : out = (mockGetOn σ E.cwd c.uri, σ.files) := by simp only [out, mockOutcome, hr]
    rw [hout]
    exact ⟨s, hs, hd, hf, hw, hl⟩
  · have hr : requestOf c.method = .PUT := by rw [hm]; decide
    have hput : branch T.method = .put := by rw [hmeth, hm]; decide
    have ho : (onMock E σ c d k).oracle = mockOracleOn E σ .PUT c.uri := by rw [onMock, hr]
    have hend : MockEnded E (onMock E σ c d k) σ.files T _ _ :=
      mockPut_ended hread hput hlen hleft hcut k.file_writes k.sock_writes
    rw [huri, ho, mockPutAnswer_on] at hend
    obtain ⟨s, hs, hd, hf, hw, hl⟩ := hend
    rw [hline] at hl
    have hout : out = (errorAnswer (mockPutOn σ E.cwd c.uri (σ.files (E.fileOf c.uri)) d.body).1,
        Function.update σ.files (E.fileOf c.uri)
          (mockPutOn σ E.cwd c.uri (σ.files (E.fileOf c.uri)) d.body).2) := by
      simp only [out, mockOutcome, hr]
    rw [hout]
    exact ⟨s, hs, hd, hf, hw, hl⟩

end

end HttpC.L7
