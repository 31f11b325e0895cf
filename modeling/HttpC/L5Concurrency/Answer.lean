import HttpC.L2Parse.Streaming
import HttpC.L5Concurrency.Alone

/-!
# What a request alone is answered

The answer to an accepted request and what it leaves in its file follow from
the outcomes of the calls made once and from what the file held: `getAnswer`
and `putAnswer` are the tables of `handle_get` and `handle_put`.
`get_answered` and `put_answered` run the handlers to their end and find them
there, however the writes to the client go; where they go through, the client
has the whole answer (`get_ended`, `put_ended`).
-/
namespace HttpC.L5
open HttpC.L1.Util HttpC.L2 HttpC.L3 HttpC.Flock

/-- What goes back to the client: a status with its own text, or a file. -/
inductive Answer where
  | message (res : Response)
  | file (content : Bytes)
  deriving DecidableEq, Repr

namespace Answer

def res : Answer → Response
  | message res => res
  | file _ => .OK

def body : Answer → Bytes
  | message res => responseGetMessage res ++ ascii "\n"
  | file c => c

/-- The answer on the wire. -/
def text : Answer → Bytes
  | message res => responseText res
  | file c => fileHeader c.length ++ c

end Answer

/-- mirrors src/httpserver.c:271-330 -/
def getAnswer (o : Oracle) (f : Option Bytes) : Answer :=
  if o.uriLock = false then .message .INTERNAL_SERVER_ERROR
  else
    match o.openErr, f with
    | some e, _ => .message (getOpenError e)
    | none, none => .message (getOpenError .ENOENT)
    | none, some c =>
      if o.fstat = false then .message .INTERNAL_SERVER_ERROR
      else if o.isDir then .message .FORBIDDEN
      else .file c

/-- The answer to a PUT of `body`, and what the file holds then.
mirrors src/httpserver.c:337-390 -/
def putAnswer (o : Oracle) (f : Option Bytes) (body : Bytes) : Response × Option Bytes :=
  if o.uriLock = false then (.INTERNAL_SERVER_ERROR, f)
  else
    match o.openErr with
    | some e => (putOpenError e, f)
    | none =>
      if o.ftruncate = false then (.INTERNAL_SERVER_ERROR, some (f.getD []))
      else (if o.access && f.isSome then .OK else .CREATED, some body)

section
variable {E : Env} {q : Incoming} {files files' : Files} {conn : Conn UInt8} {rest : Src UInt8}

/-- A handler that has come to an exit. -/
theorem exit_alone {w : Worker} {acts : List Act} {ls : List Unit}
    (h : (lone E fun _ _ => true).Run (q.start, files) ls (w, files')) (hpc : w.pc = .tail acts) :
    ∃ s, (alone E q files).Reachable s ∧ (s.workers 0).pc = .done ∧ s.files = files' ∧
      (s.workers 0).sock = sentBy acts w.sock ∧
      s.linesOf 0 = (audits (w.trace ++ acts)).map (auditLine q.parsed) := by
  obtain ⟨w', ms, hr, hdone, htr, hsock⟩ := exit_runs (E := E) (fun _ _ => true) files' acts w hpc
  obtain ⟨s, hs, hf, hw, hl⟩ := alone_of_lone (h.append hr)
  exact ⟨s, hs, by rw [hw]; exact hdone, hf, by rw [hw]; exact hsock, by rw [hl, htr]⟩

/-- A handler on its way: parsed, nothing sent or audited yet. -/
structure Working (q : Incoming) (conn : Conn UInt8) (rest : Src UInt8) (w : Worker) : Prop where
  oracle : w.oracle = q.oracle
  conn : w.conn = conn
  client : w.client = rest
  sock : w.sock = ⟨[], q.sockWrites⟩
  fileReads : w.fileReads = q.fileReads
  fileWrites : w.fileWrites = q.fileWrites
  trace : audits w.trace = []

theorem Working.move {w : Worker} (h : Working q conn rest w) (t : List Act) (pc : Pc)
    (ht : audits t = []) : Working q conn rest { w with trace := t, pc } :=
  ⟨h.oracle, h.conn, h.client, h.sock, h.fileReads, h.fileWrites, ht⟩

/-- The three exits that send their own response. -/
def Responds (pc : Pc) (res : Response) : Prop :=
  pc = exitPlain res ∨ pc = exitLocked res ∨ pc = exitOpen res

/-- What an answer leaves of the socket, however its writes go. -/
def Answer.sent (q : Incoming) : Answer → Dst UInt8
  | .message res => (connSendResponse ⟨[], q.sockWrites⟩ res).2
  | .file c => (connSendFile ⟨c, q.fileReads⟩ ⟨[], q.sockWrites⟩ c.length).2.2

/-- A handler that answers `a`. -/
def Answered (E : Env) (q : Incoming) (files : Files) (conn : Conn UInt8) (files' : Files)
    (a : Answer) : Prop :=
  ∃ s, (alone E q files).Reachable s ∧ (s.workers 0).pc = .done ∧ s.files = files' ∧
    (s.workers 0).sock = a.sent q ∧ s.linesOf 0 = [auditLine conn a.res]

/-- A handler whose answer `res` reaches the client. -/
def Ended (E : Env) (q : Incoming) (files : Files) (conn : Conn UInt8) (files' : Files) (wire : Bytes)
    (res : Response) : Prop :=
  ∃ s, (alone E q files).Reachable s ∧ (s.workers 0).pc = .done ∧ s.files = files' ∧
    (s.workers 0).sock.written = wire ∧ s.linesOf 0 = [auditLine conn res]

theorem Answered.ended {a : Answer} (h : Answered E q files conn files' a)
    (hsent : (a.sent q).written = a.text) : Ended E q files conn files' a.text a.res := by
  obtain ⟨s, hs, hd, hf, hsock, hl⟩ := h
  exact ⟨s, hs, hd, hf, by rw [hsock, hsent], hl⟩

/-- What is left is an exit. -/
theorem responds_answered {w : Worker} {res : Response} {ls : List Unit}
    (h : (lone E fun _ _ => true).Run (q.start, files) ls (w, files'))
    (hpc : Responds w.pc res) (hsock : w.sock = ⟨[], q.sockWrites⟩) (htr : audits w.trace = [])
    (hpd : q.parsed = conn) : Answered E q files conn files' (.message res) := by
  have hacts : ∃ acts, w.pc = .tail acts ∧ responses acts = [res] ∧ audits acts = [res] := by
    rcases hpc with hpc | hpc | hpc <;> exact ⟨_, hpc, rfl, rfl⟩
  obtain ⟨acts, hpc, hresp, haud⟩ := hacts
  obtain ⟨s, hs, hd, hf, hsent, hl⟩ := exit_alone h hpc
  refine ⟨s, hs, hd, hf, ?_, ?_⟩
  · rw [hsent, hsock, sentBy, hresp]
    rfl
  · rw [hl, audits_append, htr, haud, hpd]
    rfl

/-- One step to an exit. -/
theorem Working.answered {w : Worker} {pc : Pc} {res : Response} {files₁ : Files} {ls : List Unit}
    (hfr : Working q conn rest w)
    (h : (lone E fun _ _ => true).Run (q.start, files) ls (w, files₁))
    (hst : (lone E fun _ _ => true).step (w, files₁) () ({ w with pc }, files'))
    (hpc : Responds pc res) (hpd : q.parsed = conn) : Answered E q files conn files' (.message res) :=
  responds_answered (h.append (.single hst)) hpc hfr.sock hfr.trace hpd

/-- The handler at its lock. -/
theorem dispatched_working (hp : connParse q.oracle.regcomp q.client = (none, conn, rest)) :
    q.parsed = conn ∧ Working q conn rest (dispatched q) := by
  have hpd : q.parsed = conn := by rw [Incoming.parsed, hp]
  exact ⟨hpd, rfl, hpd, by simp only [dispatched, hp], rfl, rfl, rfl, rfl⟩

/-- `uri_lock` fails. -/
theorem unlocked_answered {op : Mode} (hp : connParse q.oracle.regcomp q.client = (none, conn, rest))
    (hc : q.oracle.calloc = true) (hpc : (dispatched q).pc = .lock op)
    (ho : q.oracle.uriLock = false) :
    Answered E q files conn files (.message .INTERNAL_SERVER_ERROR) := by
  obtain ⟨hpd, hfr⟩ := dispatched_working hp
  have hstep : (lone E fun _ _ => true).step (dispatched q, files) ()
      ({ dispatched q with pc := exitPlain .INTERNAL_SERVER_ERROR }, files) := by
    simp only [lone, LTS.ofFn, Worker.step, hpc, hfr.oracle, ho, if_true, Option.map_some]
  exact hfr.answered (parse_runs _ files hc) hstep (.inl rfl) hpd

/-- Where a handler goes on with its lock. -/
def entry : Mode → Pc
  | .SH => .getOpen
  | .EX => .putAccess

/-- `uri_lock` succeeds. -/
theorem lock_run (files : Files) {op : Mode} (hp : connParse q.oracle.regcomp q.client = (none, conn, rest))
    (hc : q.oracle.calloc = true) (hpc : (dispatched q).pc = .lock op)
    (ho : ¬ q.oracle.uriLock = false) :
    ∃ w, (lone E fun _ _ => true).Run (q.start, files) [(), (), ()] (w, files) ∧
      Working q conn rest w ∧ w.pc = entry op := by
  obtain ⟨-, hfr⟩ := dispatched_working hp
  have hstep : (lone E fun _ _ => true).step (dispatched q, files) ()
      ({ dispatched q with
        held := some (E.lockOf (dispatched q).conn.uri, op), trace := (dispatched q).trace ++ [.lock],
        pc := entry op }, files) := by
    simp only [lone, LTS.ofFn, Worker.step, hpc, hfr.oracle, if_neg ho, if_true, Option.map_some]
    cases op <;> rfl
  exact ⟨_, (parse_runs _ files hc).append (.single hstep),
    ⟨hfr.oracle, hfr.conn, hfr.client, hfr.sock, hfr.fileReads, hfr.fileWrites, rfl⟩, rfl⟩

/-! ## GET -/

/-- From a descriptor of a file that holds `c`. -/
theorem getStat_answered {w : Worker} {c : Bytes} {ls : List Unit}
    (h : (lone E fun _ _ => true).Run (q.start, files) ls (w, files)) (hfr : Working q conn rest w)
    (hpc : w.pc = .getStat) (hf : files (E.fileOf conn.uri) = some c) (hpd : q.parsed = conn)
    (hfs : ¬ q.oracle.fstat = false) (hd : ¬ q.oracle.isDir = true) (hsize : q.oracle.size = none) :
    Answered E q files conn files (.file c) := by
  have hstat : (lone E fun _ _ => true).step (w, files) () ({ w with pc := .getHead c.length }, files) := by
    simp only [lone, LTS.ofFn, Worker.step, hpc, hfr.oracle, if_neg hfs, if_neg hd, Option.map_some,
      hsize, hfr.conn, hf, Option.getD_none, Option.getD_some]
  obtain ⟨ms, hsend⟩ := send_refines E (fun _ _ => true) { w with pc := .getHead c.length } files
    c.length c rfl (by rw [hfr.conn, hf])
  obtain ⟨s, hs, hdone, hsf, hsent, hl⟩ := exit_alone ((h.append (.single hstat)).append hsend) rfl
  refine ⟨s, hs, hdone, hsf, ?_, ?_⟩
  · rw [hsent]
    simp only [sentBy, responses, List.foldl_nil, hfr.fileReads, hfr.sock]
    rfl
  · rw [hl, hpd, audits_append, audits_append, hfr.trace]
    rfl

/-- **A GET alone**, however its transfers go. -/
theorem get_answered (hp : connParse q.oracle.regcomp q.client = (none, conn, rest))
    (hreq : conn.request = .GET) (hc : q.oracle.calloc = true) (hsize : q.oracle.size = none) :
    Answered E q files conn files (getAnswer q.oracle (files (E.fileOf conn.uri))) := by
  obtain ⟨hpd, -⟩ := dispatched_working hp
  have hpc : (dispatched q).pc = .lock .SH := by
    simp only [dispatched, hpd, hp, dispatch, hreq]
  unfold getAnswer
  split
  · rename_i hu
    exact unlocked_answered hp hc hpc hu
  rename_i hu
  obtain ⟨w, hrun, hfr, hwpc⟩ := lock_run (E := E) files hp hc hpc hu
  change w.pc = .getOpen at hwpc
  split
  · -- `open` fails
    rename_i e hoe
    refine hfr.answered hrun ?_ (.inr (.inl rfl)) hpd
    simp only [lone, LTS.ofFn, Worker.step, hwpc, hfr.oracle, hoe, Option.map_some]
  · rename_i hoe hf
    refine hfr.answered hrun ?_ (.inr (.inl rfl)) hpd
    simp only [lone, LTS.ofFn, Worker.step, hwpc, hfr.oracle, hoe, hfr.conn, hf, Option.map_some]
  · rename_i c hoe hf
    have hopen : (lone E fun _ _ => true).step (w, files) ()
        ({ w with trace := w.trace ++ [.openFd], pc := .getStat }, files) := by
      simp only [lone, LTS.ofFn, Worker.step, hwpc, hfr.oracle, hoe, hfr.conn, hf, Option.map_some]
    have hfr' := hfr.move (w.trace ++ [.openFd]) .getStat (by rw [audits_append, hfr.trace]; rfl)
    have hrun' := hrun.append (.single hopen)
    split
    · rename_i hfs
      refine hfr'.answered hrun' ?_ (.inr (.inr rfl)) hpd
      simp only [lone, LTS.ofFn, Worker.step, hfr.oracle, hfs, if_true, Option.map_some]
    · rename_i hfs
      split
      · rename_i hd
        refine hfr'.answered hrun' ?_ (.inr (.inr rfl)) hpd
        simp only [lone, LTS.ofFn, Worker.step, hfr.oracle, if_neg hfs, if_pos hd, Option.map_some]
      · rename_i hd
        exact getStat_answered hrun' hfr' rfl hf hpd hfs hd hsize

/-- A GET whose transfers go through. -/
theorem get_ended (hp : connParse q.oracle.regcomp q.client = (none, conn, rest))
    (hreq : conn.request = .GET) (hc : q.oracle.calloc = true) (hsize : q.oracle.size = none)
    (hr : Cut q.fileReads) (hw : Writes q.sockWrites) :
    Ended E q files conn files (getAnswer q.oracle (files (E.fileOf conn.uri))).text
      (getAnswer q.oracle (files (E.fileOf conn.uri))).res := by
  apply (get_answered hp hreq hc hsize).ended
  cases getAnswer q.oracle (files (E.fileOf conn.uri)) with
  | message res => exact connSendResponse_whole res hw
  | file c => exact (connSendFile_whole c hr hw).2

/-! ## PUT -/

/-- From a descriptor of the truncated file. -/
theorem putLeft_answered {w : Worker} {ex : Bool} {body : Bytes} {ls : List Unit}
    (h : (lone E fun _ _ => true).Run (q.start, files) ls (w, files')) (hfr : Working q conn rest w)
    (hpc : w.pc = .putLeft ex) (hf : files' (E.fileOf conn.uri) = some []) (hpd : q.parsed = conn)
    (hrecv : (connRecvFile conn rest ⟨[], q.fileWrites⟩).1 = none ∧
      (connRecvFile conn rest ⟨[], q.fileWrites⟩).2.2.written = body) :
    Answered E q files conn (Function.update files' (E.fileOf conn.uri) (some body))
      (.message (if ex then .OK else .CREATED)) := by
  obtain ⟨ms, hrun⟩ := recv_refines E (fun _ _ => true) w files' ex hpc (by rw [hfr.conn, hf])
  simp only [hfr.conn, hfr.client, hfr.fileWrites, hrecv.1, hrecv.2] at hrun
  exact responds_answered (h.append hrun) (.inr (.inr rfl)) hfr.sock hfr.trace hpd

/-- **A PUT alone**, whose transfer delivers `body`. -/
theorem put_answered {body : Bytes} (hp : connParse q.oracle.regcomp q.client = (none, conn, rest))
    (hreq : conn.request = .PUT) (hc : q.oracle.calloc = true)
    (hrecv : (connRecvFile conn rest ⟨[], q.fileWrites⟩).1 = none ∧
      (connRecvFile conn rest ⟨[], q.fileWrites⟩).2.2.written = body) :
    let a := putAnswer q.oracle (files (E.fileOf conn.uri)) body
    Answered E q files conn (Function.update files (E.fileOf conn.uri) a.2) (.message a.1) := by
  intro a
  have ha : a = putAnswer q.oracle (files (E.fileOf conn.uri)) body := rfl
  clear_value a
  obtain ⟨hpd, -⟩ := dispatched_working hp
  have hpc : (dispatched q).pc = .lock .EX := by
    simp only [dispatched, hpd, hp, dispatch, hreq]
  unfold putAnswer at ha
  split at ha
  · rename_i hu
    rw [ha, Function.update_eq_self]
    exact unlocked_answered hp hc hpc hu
  rename_i hu
  obtain ⟨w, hrun, hfr, hwpc⟩ := lock_run (E := E) files hp hc hpc hu
  change w.pc = .putAccess at hwpc
  generalize hex : (q.oracle.access && (files (E.fileOf conn.uri)).isSome) = ex at ha
  have haccess : (lone E fun _ _ => true).step (w, files) () ({ w with pc := .putOpen ex }, files) := by
    simp only [lone, LTS.ofFn, Worker.step, hwpc, hfr.oracle, hfr.conn, hex, Option.map_some]
  have hfr₁ := hfr.move w.trace (.putOpen ex) hfr.trace
  have hrun₁ := hrun.append (.single haccess)
  split at ha
  · rename_i e hoe
    rw [ha, Function.update_eq_self]
    refine hfr₁.answered hrun₁ ?_ (.inr (.inl rfl)) hpd
    simp only [lone, LTS.ofFn, Worker.step, hfr.oracle, hoe, Option.map_some]
  · rename_i hoe
    have hopen : (lone E fun _ _ => true).step ({ w with pc := .putOpen ex }, files) ()
        ({ w with trace := w.trace ++ [.openFd], pc := .putTrunc ex },
          Function.update files (E.fileOf conn.uri) (some ((files (E.fileOf conn.uri)).getD []))) := by
      simp only [lone, LTS.ofFn, Worker.step, hfr.oracle, hoe, hfr.conn, Option.map_some]
    have hfr₂ := hfr.move (w.trace ++ [.openFd]) (.putTrunc ex) (by rw [audits_append, hfr.trace]; rfl)
    have hrun₂ := hrun₁.append (.single hopen)
    split at ha
    · rename_i hft
      rw [ha]
      refine hfr₂.answered hrun₂ ?_ (.inr (.inr rfl)) hpd
      simp only [lone, LTS.ofFn, Worker.step, hfr.oracle, hft, if_true, Option.map_some]
    · rename_i hft
      have htrunc : (lone E fun _ _ => true).step ({ w with
            trace := w.trace ++ [.openFd], pc := .putTrunc ex },
          Function.update files (E.fileOf conn.uri) (some ((files (E.fileOf conn.uri)).getD []))) ()
          ({ w with trace := w.trace ++ [.openFd], pc := .putLeft ex },
            Function.update files (E.fileOf conn.uri) (some [])) := by
        simp only [lone, LTS.ofFn, Worker.step, hfr.oracle, if_neg hft, hfr.conn, Option.map_some,
          Function.update_idem]
      have := putLeft_answered (hrun₂.append (.single htrunc)) (hfr₂.move _ (.putLeft ex) hfr₂.trace) rfl
        (by rw [Function.update_self]) hpd hrecv
      rw [Function.update_idem] at this
      rw [ha]
      exact this

/-- A PUT whose response goes through too. -/
theorem put_ended {body : Bytes} (hp : connParse q.oracle.regcomp q.client = (none, conn, rest))
    (hreq : conn.request = .PUT) (hc : q.oracle.calloc = true)
    (hrecv : (connRecvFile conn rest ⟨[], q.fileWrites⟩).1 = none ∧
      (connRecvFile conn rest ⟨[], q.fileWrites⟩).2.2.written = body)
    (hw : Writes q.sockWrites) :
    let a := putAnswer q.oracle (files (E.fileOf conn.uri)) body
    Ended E q files conn (Function.update files (E.fileOf conn.uri) a.2) (responseText a.1) a.1 :=
  (put_answered hp hreq hc hrecv).ended (connSendResponse_whole _ hw)

end

end HttpC.L5
