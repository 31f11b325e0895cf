import HttpC.Core.LTS
import HttpC.L3Handler.Worker
import HttpC.L6Harness.Wire

/-!
# The mock server

`ztest/mock/main.zig`: one thread for each connection, a mutex for each URI
handed out by a table that has a mutex of its own. `Thread` is
`handleConnection` at some place (`Pc`); one step is one call that other
threads can see, or one local stretch (all of `readHeaders`, the parsing).
What the calls return is fixed by the connection's oracle and scripts, as for
the C server. `std.posix` retries interrupted calls, which is `retryRead` and
`writeAll`.

`fault` is not in the source: it records that a call of the thread failed (a
file that is not there is no failure), that a read of the file reported its
end too early, or that the client's body ended before its declared length.

Appending to the log is one step (`log_mutex` is held around it), closing a
file is none.
-/
namespace HttpC.L7
open HttpC.L1.Util HttpC.L2 HttpC.L3 HttpC.L6 HttpC.Text

/-! ## Texts -/

/-- mirrors ztest/mock/main.zig:54-66 -/
def statusReason (code : Nat) : Bytes :=
  match code with
  | 200 => ascii "OK"
  | 201 => ascii "Created"
  | 400 => ascii "Bad Request"
  | 403 => ascii "Forbidden"
  | 404 => ascii "Not Found"
  | 500 => ascii "Internal Server Error"
  | 501 => ascii "Not Implemented"
  | 505 => ascii "Version Not Supported"
  | _ => ascii "Unknown"

/-- mirrors ztest/mock/main.zig:70 -/
def responseHead (code size : Nat) : Bytes :=
  ascii "HTTP/1.1 " ++ decimal code ++ ascii " " ++ statusReason code ++
    ascii "\r\nContent-Length: " ++ decimal size ++ ascii "\r\n\r\n"

/-- A response on the wire. -/
def wire (a : Nat × Bytes) : Bytes := responseHead a.1 a.2.length ++ a.2

/-- mirrors ztest/mock/main.zig:78-80 -/
def errorBody (code : Nat) : Bytes := statusReason code ++ ascii "\n"

/-- mirrors ztest/mock/main.zig:50 -/
def auditText (l : LogLine) : Bytes :=
  l.oper ++ ascii "," ++ l.uri ++ ascii "," ++ decimal l.status ++ ascii "," ++ l.rid ++ ascii "\n"

/-- `bufPrint` into the buffer of `writeAudit` fails beyond this.
mirrors ztest/mock/main.zig:49 -/
def LINE_MAX : Nat := 1024

/-! ## Reading a request -/

/-- `none` is a failed read; the fuel is spent only on rounds that read
something, and is not used up (`readHeadersLoop_fuel`).
mirrors ztest/mock/main.zig:107-112 -/
def readHeadersLoop : Nat → Src UInt8 → Bytes → Option (Bytes × Src UInt8)
  | 0, s, buf => some (buf, s)
  | fuel + 1, s, buf =>
    if (findBodyStart buf).isSome then some (buf, s)
    else
      match retryRead 4096 s.pending s.script with
      | (.fail _, _) => none
      | (.data [], s') => some (buf, s')
      | (.data (b :: bs), s') =>
        if 1 <<< 20 < (buf ++ b :: bs).length then some (buf ++ b :: bs, s')
        else readHeadersLoop fuel s' (buf ++ b :: bs)

/-- mirrors ztest/mock/main.zig:104-114 -/
def readHeaders (s : Src UInt8) : Option (Bytes × Src UInt8) :=
  readHeadersLoop (s.pending.length + 1) s []

/-- Which part of `handleConnection` serves a method.
mirrors ztest/mock/main.zig:130,161,211 -/
inductive Branch where
  | get | put | other
  deriving DecidableEq, Repr

def branch (method : Bytes) : Branch :=
  if method = ascii "GET" then .get
  else if method = ascii "PUT" then .put
  else .other

theorem branch_eq (method : Bytes) :
    (branch method = .get ↔ method = ascii "GET") ∧ (branch method = .put ↔ method = ascii "PUT") := by
  have hne : ascii "GET" ≠ ascii "PUT" := by decide
  unfold branch
  split
  · rename_i h; subst h; simp [hne]
  · split <;> simp_all

/-- What `handleConnection` knows of a request once it has read the header
block. -/
structure Task where
  method : Bytes
  uri : Bytes
  rid : Bytes
  contentLength : Nat
  leftover : Bytes
  deriving DecidableEq, Repr

/-- mirrors ztest/mock/main.zig:122-128,162-165,183 -/
def parseTask (head : Bytes) : Option Task :=
  match findBodyStart head, parseRequestLine head, indexOf CRLF head with
  | some bodyStart, some rl, some lineEnd =>
    let headers := (head.take bodyStart).drop (lineEnd + 2)
    let contentLength := ((findHeader headers (ascii "Content-Length")).bind parseUsize).getD 0
    some {
      method := rl.method
      uri := rl.uri
      rid := (findHeader headers (ascii "Request-Id")).getD (ascii "0")
      contentLength
      leftover := (head.drop bodyStart).take contentLength }
  | _, _, _ => none

/-- mirrors ztest/mock/main.zig:122-128 -/
def readTask (s : Src UInt8) : Option (Task × Src UInt8) :=
  (readHeaders s).bind fun hc => (parseTask hc.1).map fun T => (T, hc.2)

/-! ## Threads -/

/-- The errors of `openFile` and `createFile` the mock tells apart. -/
inductive OpenError where
  | FileNotFound | AccessDenied | IsDir | other
  deriving DecidableEq, Repr

/-- mirrors ztest/mock/main.zig:151-155 -/
def getOpenCode : OpenError → Nat
  | .FileNotFound => 404
  | .AccessDenied | .IsDir => 403
  | .other => 500

/-- mirrors ztest/mock/main.zig:176-179 -/
def putOpenCode : OpenError → Nat
  | .AccessDenied | .IsDir => 403
  | _ => 500

/-- The results of the calls a thread makes once. -/
structure MockOracle where
  access : Bool := true
  openErr : Option OpenError := none
  isDir : Bool := false
  deriving DecidableEq, Repr

/-- A connection as it comes in. -/
structure MockIncoming where
  client : Src UInt8
  oracle : MockOracle := {}
  sockWrites : List WriteEv := []
  fileReads : List ReadEv := []
  fileWrites : List WriteEv := []
  deriving DecidableEq, Repr

inductive Pc where
  | start
  | lockTable | lookup | insert | unlockTable | lockUri
  | getOpen | getStat | getRead (acc : Bytes)
  | putAccess | putCreate (existed : Bool) | putLeft (existed : Bool)
  | putRecv (existed : Bool) (written off : Nat)
  | audit (code : Nat) (body : Bytes) | unlock (code : Nat) (body : Bytes)
  | sendHead (code : Nat) (body : Bytes) | sendBody (body : Bytes) | done
  deriving DecidableEq, Repr

/-- `mutex` is what `lockFor` returned. -/
structure Thread where
  oracle : MockOracle
  client : Src UInt8
  sock : Dst UInt8
  fileReads : List ReadEv
  fileWrites : List WriteEv
  task : Task := ⟨[], [], [], 0, []⟩
  mutex : Option Nat := none
  pc : Pc := .start
  fault : Bool := false
  deriving DecidableEq, Repr

def MockIncoming.start (q : MockIncoming) : Thread where
  oracle := q.oracle
  client := q.client
  sock := ⟨[], q.sockWrites⟩
  fileReads := q.fileReads
  fileWrites := q.fileWrites

/-- `writeAudit(oper, uri, code, rid)` -/
def Task.line (T : Task) (code : Nat) : LogLine := ⟨T.method, T.uri, code, T.rid⟩

/-- `auditAndRespond(.., code, .., errorBody(code))` -/
def auditError (code : Nat) : Pc := .audit code (errorBody code)

/-- `openFile` and what follows it up to the reads.
mirrors ztest/mock/main.zig:135-158 -/
def Thread.getStep (t : Thread) (file : Option Bytes) : Thread :=
  match t.pc with
  | .getOpen =>
    match t.oracle.openErr, file with
    | some e, _ => { t with pc := auditError (getOpenCode e), fault := true }
    | none, none => { t with pc := auditError (getOpenCode .FileNotFound) }
    | none, some _ => { t with pc := .getStat }
  | .getStat =>
    if t.oracle.isDir then { t with pc := auditError 403, fault := true }
    else { t with pc := .getRead [] }
  | .getRead acc =>
    -- `readToEndAlloc(a, 1 << 30)`: any chunks, then the check of the size
    let rest := (file.getD []).drop acc.length
    match retryRead (rest.length + 1) rest t.fileReads with
    | (.fail _, s) => { t with fileReads := s.script, pc := auditError 500, fault := true }
    | (.data [], s) =>
      if acc.length ≤ 1 <<< 30 then
        { t with fileReads := s.script, pc := .audit 200 acc, fault := t.fault || rest != [] }
      else { t with fileReads := s.script, pc := auditError 500, fault := true }
    | (.data (b :: bs), s) => { t with fileReads := s.script, pc := .getRead (acc ++ b :: bs) }
  | _ => t

/-- The body transfer of a PUT; a failed `writeAll` is ignored. The file's own
offset is `off`.
mirrors ztest/mock/main.zig:167-208 -/
def Thread.putStep (t : Thread) (file : Option Bytes) : Thread × Option Bytes :=
  match t.pc with
  | .putAccess =>
    let existed := t.oracle.access && file.isSome
    ({ t with pc := .putCreate existed, fault := t.fault || existed != file.isSome }, file)
  | .putCreate existed =>
    match t.oracle.openErr with
    | some e => ({ t with pc := auditError (putOpenCode e), fault := true }, file)
    | none => ({ t with pc := .putLeft existed }, some [])
  | .putLeft existed =>
    match writeAll ⟨[], t.fileWrites⟩ t.task.leftover with
    | (res, fd) =>
      ({ t with
        fileWrites := fd.script, pc := .putRecv existed t.task.leftover.length fd.written.length,
        fault := t.fault || !(res matches .ok ()) },
       some (writeAt (file.getD []) 0 fd.written))
  | .putRecv existed written off =>
    let answer := auditError (if existed then 200 else 201)
    if written < t.task.contentLength then
      match retryRead (min 8192 (t.task.contentLength - written)) t.client.pending t.client.script with
      | (.fail _, s) => ({ t with client := s, pc := answer, fault := true }, file)
      | (.data [], s) => ({ t with client := s, pc := answer, fault := true }, file)
      | (.data (b :: bs), s) =>
        match writeAll ⟨[], t.fileWrites⟩ (b :: bs) with
        | (res, fd) =>
          ({ t with
            client := s, fileWrites := fd.script,
            pc := .putRecv existed (written + (b :: bs).length) (off + fd.written.length),
            fault := t.fault || !(res matches .ok ()) },
           some (writeAt (file.getD []) off fd.written))
    else ({ t with pc := answer }, file)
  | _ => (t, file)

/-- `sendResponse`, its failures ignored.
mirrors ztest/mock/main.zig:68-74,98 -/
def Thread.sendStep (t : Thread) : Thread :=
  match t.pc with
  | .sendHead code body =>
    match writeAll t.sock (responseHead code body.length) with
    | (.error _, sock) => { t with sock, pc := .done, fault := true }
    | (.ok (), sock) => { t with sock, pc := if 0 < body.length then .sendBody body else .done }
  | .sendBody body =>
    match writeAll t.sock body with
    | (.error _, sock) => { t with sock, pc := .done, fault := true }
    | (.ok (), sock) => { t with sock, pc := .done }
  | _ => t

/-! ## The system -/

/-- `table` is `uri_locks`, its mutexes numbered as they are allocated;
`tableHeld` and `held` say who holds `table_mutex` and each of them. -/
structure Mock (n : Nat) where
  files : Files
  table : Bytes → Option Nat := fun _ => none
  fresh : Nat := 0
  tableHeld : Option (Fin n) := none
  held : Nat → Option (Fin n) := fun _ => none
  log : List (Fin n × LogLine) := []
  threads : Fin n → Thread

namespace Mock
variable {n : Nat}

def set (s : Mock n) (i : Fin n) (t : Thread) : Mock n :=
  { s with threads := Function.update s.threads i t }

section
variable (s : Mock n) (i : Fin n) (t : Thread)

@[simp] theorem set_files : (s.set i t).files = s.files := rfl
@[simp] theorem set_table : (s.set i t).table = s.table := rfl
@[simp] theorem set_fresh : (s.set i t).fresh = s.fresh := rfl
@[simp] theorem set_tableHeld : (s.set i t).tableHeld = s.tableHeld := rfl
@[simp] theorem set_held : (s.set i t).held = s.held := rfl
@[simp] theorem set_log : (s.set i t).log = s.log := rfl
@[simp] theorem set_threads : (s.set i t).threads = Function.update s.threads i t := rfl

end

/-- mirrors ztest/mock/main.zig:116-214 -/
def step (E : Env) (s : Mock n) (i : Fin n) : Option (Mock n) :=
  let t := s.threads i
  let file := E.fileOf t.task.uri
  match t.pc with
  | .start =>
    match readTask t.client with
    | none => some (s.set i { t with pc := .done })
    | some (task, client) =>
      some (s.set i { t with
        task, client,
        pc := if branch task.method = .other then auditError 501 else .lockTable })
  | .lockTable =>
    if s.tableHeld = none then
      some { s.set i { t with pc := .lookup } with tableHeld := some i }
    else none
  | .lookup =>
    match s.table t.task.uri with
    | some m => some (s.set i { t with mutex := some m, pc := .unlockTable })
    | none => some (s.set i { t with pc := .insert })
  | .insert =>
    some { s.set i { t with mutex := some s.fresh, pc := .unlockTable } with
      table := Function.update s.table t.task.uri (some s.fresh), fresh := s.fresh + 1 }
  | .unlockTable => some { s.set i { t with pc := .lockUri } with tableHeld := none }
  | .lockUri =>
    match t.mutex with
    | none => none
    | some m =>
      if s.held m = none then
        some { s.set i { t with pc := if branch t.task.method = .put then .putAccess else .getOpen } with
          held := Function.update s.held m (some i) }
      else none
  | .getOpen | .getStat | .getRead _ => some (s.set i (t.getStep (s.files file)))
  | .putAccess | .putCreate _ | .putLeft _ | .putRecv _ _ _ =>
    some { s.set i (t.putStep (s.files file)).1 with
      files := Function.update s.files file (t.putStep (s.files file)).2 }
  | .audit code body =>
    -- the line is dropped when it does not fit its buffer
    some { s.set i { t with pc := if t.mutex = none then .sendHead code body else .unlock code body } with
      log := if (auditText (t.task.line code)).length ≤ LINE_MAX then
        s.log ++ [(i, t.task.line code)] else s.log }
  | .unlock code body =>
    some { s.set i { t with pc := .sendHead code body } with
      held := match t.mutex with
        | some m => Function.update s.held m none
        | none => s.held }
  | .sendHead _ _ | .sendBody _ => some (s.set i t.sendStep)
  | .done => none

end Mock

def mock {n : Nat} (E : Env) (reqs : Fin n → MockIncoming) (files : Files) : LTS (Mock n) (Fin n) :=
  .ofFn (· = { files, threads := fun i => (reqs i).start }) (Mock.step E)

end HttpC.L7
