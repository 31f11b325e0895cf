import HttpC.Core.Flock
import HttpC.Core.Path
import HttpC.L2Parse.Body
import HttpC.L3Handler.Lock

/-!
# One connection: `handle_connection`, `handle_get`, `handle_put`

src/httpserver.c:224-400 as a step function: one step is one system call that
others can see (or one purely local stretch, such as the whole of
`conn_parse`), so that any number of connections can be interleaved. What the
calls return is fixed by the request's `Oracle` and its read and write
scripts, so a worker is deterministic and quantifying over requests is
quantifying over every outcome of every call.

`Pc` names the place in the source. The exits of the handlers, which repeat
the same respond / audit / close / unlock sequence by hand, are lists of acts
(`Pc.tail`), copied from the source one by one; `trace` records the acts as
they happen.

Files are keyed by their resolved path. A `write()` of the handler lands at
its own file offset (`writeAt`), so two writers of one file would overwrite
each other as the kernel lets them.
-/
namespace HttpC.L3
open HttpC.L1.Util HttpC.L2 HttpC.Flock

/-! ## What a handler talks to -/

/-- The process: working directory, and the identity that names the lock
directory. -/
structure Env where
  cwd : List Bytes
  dev : UInt64
  ino : UInt64

/-- The file a URI names. -/
def Env.fileOf (E : Env) (uri : Bytes) : List Bytes := Path.resolve E.cwd uri

/-- The lockfile of a URI. -/
def Env.lockOf (E : Env) (uri : Bytes) : Bytes := lockPathFor (lockDir E.dev E.ino) uri PATH_SIZE

abbrev Files := List Bytes → Option Bytes

/-- The results of the calls a request makes once: `calloc`, both `regcomp`s,
`uri_lock`, `access`, `open`, `fstat` (with what it reports) and
`ftruncate`. -/
structure Oracle where
  calloc : Bool := true
  regcomp : Regcomp := .ok
  uriLock : Bool := true
  access : Bool := true
  openErr : Option Errno := none
  fstat : Bool := true
  isDir : Bool := false
  size : Option Nat := none
  ftruncate : Bool := true
  deriving DecidableEq, Repr

/-- A connection as it comes in: the client's bytes and how they arrive, and
the outcomes of everything the server will do for it. -/
structure Incoming where
  client : Src UInt8
  oracle : Oracle := {}
  sockWrites : List WriteEv := []
  fileReads : List ReadEv := []
  fileWrites : List WriteEv := []
  deriving DecidableEq, Repr

/-- What an observer of one connection can tell apart. -/
inductive Act where
  | lock | openFd | respond (res : Response) | audit (res : Response) | closeFd | unlock | closeConn
  deriving DecidableEq, Repr

inductive Pc where
  | new | parse
  | lock (op : Mode)
  | getOpen | getStat | getHead (count : Nat) | getSend (count total : Nat)
  | putAccess | putOpen (existed : Bool) | putTrunc (existed : Bool) | putLeft (existed : Bool)
  | putRecv (existed : Bool) (total : Nat)
  | tail (acts : List Act)
  deriving DecidableEq, Repr

def Pc.done : Pc := .tail []

structure Worker where
  oracle : Oracle
  client : Src UInt8
  sock : Dst UInt8
  fileReads : List ReadEv
  fileWrites : List WriteEv
  conn : Conn UInt8 := connNew
  pc : Pc := .new
  held : Option (Bytes × Mode) := none
  trace : List Act := []
  deriving DecidableEq, Repr

def Incoming.start (q : Incoming) : Worker where
  oracle := q.oracle
  client := q.client
  sock := ⟨[], q.sockWrites⟩
  fileReads := q.fileReads
  fileWrites := q.fileWrites

/-- One audit line.
mirrors src/log.c:33 -/
structure LogLine where
  oper : Bytes
  uri : Bytes
  status : Nat
  rid : Bytes
  deriving DecidableEq, Repr

/-- mirrors src/httpserver.c:392-400 -/
def Worker.auditSendResponse (w : Worker) (res : Response) : LogLine :=
  ⟨requestGetStr w.conn.request, w.conn.uri, responseGetCode res, w.conn.requestId⟩

/-- `write()` of `bs` at offset `off` of a file. -/
def writeAt (content : Bytes) (off : Nat) (bs : Bytes) : Bytes :=
  if bs = [] then content
  else (content ++ List.replicate (off - content.length) 0).take off ++ bs ++
    content.drop (off + bs.length)

theorem writeAt_end (content bs : Bytes) : writeAt content content.length bs = content ++ bs := by
  unfold writeAt
  split
  · rename_i h; simp [h]
  · simp

/-! ## The exits -/

/-- Before any lock: src/httpserver.c:254-255,281-284,333-334,348-351, and the
end of `handle_connection`. -/
def exitPlain (res : Response) : Pc := .tail [.respond res, .audit res, .closeConn]

/-- Lock held, no file open: src/httpserver.c:297-300,367-370. -/
def exitLocked (res : Response) : Pc := .tail [.respond res, .audit res, .unlock, .closeConn]

/-- Lock held, file open: src/httpserver.c:306-310,315-319,375-379,386-389. -/
def exitOpen (res : Response) : Pc :=
  .tail [.respond res, .audit res, .closeFd, .unlock, .closeConn]

/-- The end of `handle_get`, the response already sent by `conn_send_file`:
src/httpserver.c:327-329. -/
def exitSent (res : Response) : Pc := .tail [.audit res, .closeFd, .unlock, .closeConn]

/-- mirrors src/httpserver.c:234-266 -/
def dispatch (res : Option Response) (c : Conn UInt8) : Pc :=
  match res with
  | some res =>
    if connIsEmpty c then .tail [.closeConn]
    else if res = .VERSION_NOT_SUPPORTED ∧ c.request = .UNSUPPORTED then exitPlain .NOT_IMPLEMENTED
    else exitPlain res
  | none =>
    match c.request with
    | .GET => .lock .SH
    | .PUT => .lock .EX
    | .UNSUPPORTED => exitPlain .NOT_IMPLEMENTED

/-- mirrors src/httpserver.c:290-296 -/
def getOpenError : Errno → Response
  | .EACCES | .EISDIR => .FORBIDDEN
  | .ENOENT => .NOT_FOUND
  | _ => .INTERNAL_SERVER_ERROR

/-- mirrors src/httpserver.c:362-366 -/
def putOpenError : Errno → Response
  | .EACCES | .EISDIR | .ENOENT => .FORBIDDEN
  | _ => .INTERNAL_SERVER_ERROR

/-- mirrors src/httpserver.c:381-389 -/
def putExit (existed : Bool) (res : Option Response) : Pc :=
  match res with
  | some res => exitOpen res
  | none => exitOpen (if existed then .OK else .CREATED)

/-! ## The step -/

/-- What one step does to the rest of the system. -/
structure Outcome where
  worker : Worker
  files : Files
  line : Option LogLine := none

/-- The acts of an exit. -/
def Worker.act (w : Worker) (files : Files) (a : Act) (as : List Act) : Outcome :=
  let w := { w with trace := w.trace ++ [a], pc := .tail as }
  match a with
  | .respond res => { worker := { w with sock := (connSendResponse w.sock res).2 }, files }
  | .audit res => { worker := w, files, line := some (w.auditSendResponse res) }
  | .unlock => { worker := { w with held := none }, files }
  | _ => { worker := w, files }

/-- `none` while the lock is not free, and after the end. `free` says whether
the worker may take its lock now. -/
def Worker.step (E : Env) (free : Bytes → Mode → Bool) (files : Files) (w : Worker) :
    Option Outcome :=
  let file := E.fileOf w.conn.uri
  match w.pc with
  | .new =>
    -- src/httpserver.c:225-231
    if w.oracle.calloc then some { worker := { w with conn := connNew, pc := .parse }, files }
    else some { worker := { w with pc := .tail [.closeConn] }, files }
  | .parse =>
    -- src/httpserver.c:232
    let (res, c, s') := connParse w.oracle.regcomp w.client
    some { worker := { w with conn := c, client := s', pc := dispatch res c }, files }
  | .lock op =>
    -- src/httpserver.c:111-125,279,346
    if w.oracle.uriLock = false then
      some { worker := { w with pc := exitPlain .INTERNAL_SERVER_ERROR }, files }
    else if free (E.lockOf w.conn.uri) op then
      some { worker := { w with
        held := some (E.lockOf w.conn.uri, op), trace := w.trace ++ [.lock],
        pc := match op with | .SH => .getOpen | .EX => .putAccess }, files }
    else none
  | .getOpen =>
    -- src/httpserver.c:288-301
    match w.oracle.openErr, files file with
    | some e, _ => some { worker := { w with pc := exitLocked (getOpenError e) }, files }
    | none, none => some { worker := { w with pc := exitLocked (getOpenError .ENOENT) }, files }
    | none, some _ =>
      some { worker := { w with trace := w.trace ++ [.openFd], pc := .getStat }, files }
  | .getStat =>
    -- src/httpserver.c:303-320
    if w.oracle.fstat = false then
      some { worker := { w with pc := exitOpen .INTERNAL_SERVER_ERROR }, files }
    else if w.oracle.isDir then some { worker := { w with pc := exitOpen .FORBIDDEN }, files }
    else
      let size := w.oracle.size.getD ((files file).getD []).length
      some { worker := { w with pc := .getHead size }, files }
  | .getHead count =>
    -- src/httpserver.c:325-326, the header of `conn_send_file`
    match writeAll w.sock (fileHeader count) with
    | (.error _, sock) =>
      some { worker := { w with sock, trace := w.trace ++ [.respond .OK], pc := exitSent .OK }, files }
    | (.ok (), sock) =>
      some { worker := { w with
        sock, trace := w.trace ++ [.respond .OK],
        pc := if 0 < count then .getSend count 0 else exitSent .OK }, files }
  | .getSend count total =>
    -- one round of `pass_bytes(fd, connfd, count)`
    match passRound count ⟨((files file).getD []).drop total, w.fileReads⟩ w.sock total with
    | (.stop _, s, sock) =>
      some { worker := { w with sock, fileReads := s.script, pc := exitSent .OK }, files }
    | (.again total', s, sock) =>
      some { worker := { w with sock, fileReads := s.script, pc := .getSend count total' }, files }
  | .putAccess =>
    -- src/httpserver.c:354
    some { worker := { w with pc := .putOpen (w.oracle.access && (files file).isSome) }, files }
  | .putOpen existed =>
    -- src/httpserver.c:360-371
    match w.oracle.openErr with
    | some e => some { worker := { w with pc := exitLocked (putOpenError e) }, files }
    | none =>
      some { worker := { w with trace := w.trace ++ [.openFd], pc := .putTrunc existed },
             files := Function.update files file (some ((files file).getD [])) }
  | .putTrunc existed =>
    -- src/httpserver.c:373-380
    if w.oracle.ftruncate = false then
      some { worker := { w with pc := exitOpen .INTERNAL_SERVER_ERROR }, files }
    else
      some { worker := { w with pc := .putLeft existed },
             files := Function.update files file (some []) }
  | .putLeft existed =>
    -- the leftover of `conn_recv_file`
    match writeAll ⟨[], w.fileWrites⟩ (leftover w.conn) with
    | (.error _, fd) =>
      some { worker := { w with
               fileWrites := fd.script, pc := putExit existed (some .INTERNAL_SERVER_ERROR) },
             files := Function.update files file
               (some (writeAt ((files file).getD []) 0 fd.written)) }
    | (.ok (), fd) =>
      some { worker := { w with
               fileWrites := fd.script,
               pc := if 0 < remaining w.conn then .putRecv existed 0 else putExit existed none },
             files := Function.update files file
               (some (writeAt ((files file).getD []) 0 fd.written)) }
  | .putRecv existed total =>
    -- one round of `pass_bytes(connfd, fd, remaining)`
    let off := (leftover w.conn).length + total
    match passRound (remaining w.conn) w.client ⟨[], w.fileWrites⟩ total with
    | (.stop res, client, fd) =>
      some { worker := { w with
               client, fileWrites := fd.script,
               pc := putExit existed (match res with
                 | .error _ => some .INTERNAL_SERVER_ERROR
                 | .ok _ => none) },
             files := Function.update files file
               (some (writeAt ((files file).getD []) off fd.written)) }
    | (.again total', client, fd) =>
      some { worker := { w with client, fileWrites := fd.script, pc := .putRecv existed total' },
             files := Function.update files file
               (some (writeAt ((files file).getD []) off fd.written)) }
  | .tail [] => none
  | .tail (a :: as) => some (w.act files a as)

end HttpC.L3
