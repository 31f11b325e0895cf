import HttpC.Core.FileSpec
import HttpC.L3Handler.Stream
import HttpC.L5Concurrency.Audit

/-!
# The audit log is a linearization

For requests nothing goes wrong with (`Sound`): whatever the interleaving, once
all have finished, running the sequential file server of `Core/FileSpec` along
the audit log gives every request the very bytes it got, and ends with the
files as they are.

The linearization point of a request is its audit line, written while its lock
is held. The state reached by replaying the log so far (`replayed`) agrees with
the files except where a PUT is between opening its file and its audit line;
`At` says what each place knows of the two, for its own file only, and the
lock keeps everybody else away from it.
-/
namespace HttpC.L5
open HttpC.L1.Util HttpC.L2 HttpC.L3 HttpC.Flock HttpC.Spec

variable {n : Nat}

/-! ## Requests nothing goes wrong with -/

/-- The request is a GET or PUT the parser accepts; no call fails but `open` of
a missing file; a PUT's client delivers the whole body, as the parser delimits
it. -/
structure Sound (q : Incoming) (c : Conn UInt8) (rest : Src UInt8) : Prop where
  oracle : q.oracle = {}
  parsed : connParse .ok q.client = (none, c, rest)
  method : c.request = .GET ∨ c.request = .PUT
  arrives : Cut q.client.script
  sock : Writes q.sockWrites
  reads : Cut q.fileReads
  writes : Writes q.fileWrites
  whole : c.request = .PUT → remaining c ≤ rest.pending.length

/-- Such a request is not silent. -/
theorem Sound.not_silent {q : Incoming} {c : Conn UInt8} {rest : Src UInt8} (h : Sound q c rest) :
    ¬ Silent q := by
  intro hh
  rcases hh with hs | hs
  · rw [h.oracle] at hs; cases hs
  · exact accepted_read h.parsed hs

structure Job where
  incoming : Incoming
  conn : Conn UInt8
  rest : Src UInt8
  sound : Sound incoming conn rest

/-- The body a PUT delivers: what `conn_parse` left behind the headers, and the
bytes up to the length it read. -/
def Job.body (J : Job) : Bytes := leftover J.conn ++ J.rest.pending.take (remaining J.conn)

/-- The operation a request stands for. -/
def Job.op (J : Job) (E : Env) : Op (List Bytes) :=
  match J.conn.request with
  | .PUT => .put (E.fileOf J.conn.uri) J.body
  | _ => .get (E.fileOf J.conn.uri)

@[simp] theorem Job.op_file (J : Job) (E : Env) : (J.op E).file = E.fileOf J.conn.uri := by
  unfold Job.op; split <;> rfl

theorem Job.op_get (J : Job) (E : Env) (h : J.conn.request = .GET) :
    J.op E = .get (E.fileOf J.conn.uri) := by
  unfold Job.op; rw [h]

theorem Job.op_put (J : Job) (E : Env) (h : J.conn.request = .PUT) :
    J.op E = .put (E.fileOf J.conn.uri) J.body := by
  unfold Job.op; rw [h]

/-- The status of an answer, and its bytes on the wire. -/
def status : Reply → Response
  | .content _ => .OK
  | .notFound => .NOT_FOUND
  | .ok => .OK
  | .created => .CREATED

def wire : Reply → Bytes
  | .content c => fileHeader c.length ++ c
  | r => responseText (status r)

/-- The audit line of an answer. -/
def Job.line (J : Job) (r : Reply) : LogLine :=
  ⟨requestGetStr J.conn.request, J.conn.uri, responseGetCode (status r), J.conn.requestId⟩

/-! ## What each place knows -/

/-- Everything still goes well. -/
structure Healthy (J : Job) (w : Worker) : Prop where
  oracle : w.oracle = {}
  conn : w.conn = J.conn
  sock : Writes w.sock.script
  reads : Cut w.fileReads
  writes : Writes w.fileWrites
  client : Cut w.client.script

theorem Healthy.uri {J : Job} {w : Worker} (h : Healthy J w) : w.conn.uri = J.conn.uri := by
  rw [h.conn]

/-- Steps that leave the descriptors alone. -/
theorem Healthy.keep {J : Job} {w : Worker} (h : Healthy J w) {held : Option (Bytes × Mode)}
    {trace : List Act} {pc : Pc} : Healthy J { w with held, trace, pc } :=
  ⟨h.oracle, h.conn, h.sock, h.reads, h.writes, h.client⟩

/-- `f` is what the request's file holds, `g` what replaying the log says it
holds. -/
def At (E : Env) (J : Job) (f g : Option Bytes) (w : Worker) : Pc → Prop
  | .new => w = J.incoming.start
  | .parse => w = { J.incoming.start with conn := connNew, pc := .parse }
  | .lock op => Healthy J w ∧ w.sock.written = [] ∧ w.client = J.rest ∧ op = lockMode J.conn.request
  | .getOpen => Healthy J w ∧ w.sock.written = [] ∧ J.conn.request = .GET ∧ f = g
  | .getStat => Healthy J w ∧ w.sock.written = [] ∧ J.conn.request = .GET ∧
      ∃ c, f = some c ∧ g = some c
  | .getHead count => Healthy J w ∧ w.sock.written = [] ∧ J.conn.request = .GET ∧
      ∃ c, f = some c ∧ g = some c ∧ count = c.length
  | .getSend count total => Healthy J w ∧ J.conn.request = .GET ∧
      ∃ c, f = some c ∧ g = some c ∧ count = c.length ∧ total ≤ c.length ∧
        w.sock.written = fileHeader c.length ++ c.take total
  | .putAccess => Healthy J w ∧ w.sock.written = [] ∧ J.conn.request = .PUT ∧
      w.client = J.rest ∧ f = g
  | .putOpen ex => Healthy J w ∧ w.sock.written = [] ∧ J.conn.request = .PUT ∧
      w.client = J.rest ∧ f = g ∧ ex = g.isSome
  | .putTrunc ex => Healthy J w ∧ w.sock.written = [] ∧ J.conn.request = .PUT ∧
      w.client = J.rest ∧ ex = g.isSome
  | .putLeft ex => Healthy J w ∧ w.sock.written = [] ∧ J.conn.request = .PUT ∧
      w.client = J.rest ∧ f = some [] ∧ ex = g.isSome
  | .putRecv ex total => Healthy J w ∧ w.sock.written = [] ∧ J.conn.request = .PUT ∧
      ex = g.isSome ∧ total ≤ remaining J.conn ∧
      w.client.pending = J.rest.pending.drop total ∧
      f = some (leftover J.conn ++ J.rest.pending.take total)
  | .tail acts => Healthy J w ∧
      -- the answer is still to be sent, is still to be audited, or all is done
      ((∃ res, (Pc.tail acts = exitLocked res ∨ Pc.tail acts = exitOpen res) ∧
          res = status ((J.op E).reply g) ∧ wire ((J.op E).reply g) = responseText res ∧
          w.sock.written = [] ∧ f = (J.op E).after g) ∨
        (∃ res, (acts = [.audit res, .unlock, .closeConn] ∨
            acts = [.audit res, .closeFd, .unlock, .closeConn]) ∧
          res = status ((J.op E).reply g) ∧ w.sock.written = wire ((J.op E).reply g) ∧
          f = (J.op E).after g) ∨
        (responses acts = [] ∧ audits acts = []))

/-- Outside the lock a place knows nothing of the file. -/
theorem At.frame {E : Env} {J : Job} {f g f' g' : Option Bytes} {w : Worker} {pc : Pc}
    (h : At E J f g w pc) (hin : pc.inside = false) : At E J f' g' w pc := by
  cases pc with
  | new => exact h
  | parse => exact h
  | lock op => exact h
  | tail acts =>
    obtain ⟨hw, ⟨res, hacts, -⟩ | ⟨res, hacts, -⟩ | hdone⟩ := h
    · rcases hacts with hacts | hacts <;> rw [hacts] at hin
      · rw [(exits_inside res).1.1] at hin; cases hin
      · rw [(exits_inside res).2.1.1] at hin; cases hin
    · rcases hacts with rfl | rfl <;> simp [Pc.inside] at hin
    · exact ⟨hw, .inr (.inr hdone)⟩
  | _ => cases hin

/-! ## One step -/

/-- A PUT between taking its lock and its audit line. -/
def Pc.writing : Pc → Bool
  | .putAccess | .putOpen _ | .putTrunc _ | .putLeft _ | .putRecv _ _ => true
  | .tail acts => decide (.unlock ∈ acts) && !(audits acts).isEmpty
  | _ => false

def Writing (J : Job) (w : Worker) : Prop := J.conn.request = .PUT ∧ Pc.writing w.pc = true

theorem Writing.ne_get {J : Job} {w : Worker} (h : Writing J w) : J.conn.request ≠ .GET := by
  rw [h.1]; decide

/-- Nothing left to answer or to audit. -/
def Closing (w : Worker) : Prop := ∃ acts, w.pc = .tail acts ∧ responses acts = [] ∧ audits acts = []

/-- What a step of a request's worker does, seen from its file. -/
structure Stepped (E : Env) (J : Job) (files : Files) (g : Option Bytes) (w : Worker)
    (o : Outcome) : Prop where
  other : ∀ x, x ≠ E.fileOf J.conn.uri → o.files x = files x
  same : ¬ Writing J w → o.files = files
  quiet : o.line = none → At E J (o.files (E.fileOf J.conn.uri)) g o.worker o.worker.pc ∧
    (Writing J w → Writing J o.worker)
  audited : ∀ l, o.line = some l → l = J.line ((J.op E).reply g) ∧
    o.worker.sock.written = wire ((J.op E).reply g) ∧ w.pc.inside = true ∧ o.files = files ∧
    files (E.fileOf J.conn.uri) = (J.op E).after g ∧ Closing o.worker ∧
    ∀ f g, At E J f g o.worker o.worker.pc

/-- A step that writes no audit line and touches no file. -/
theorem Stepped.silent {E : Env} {J : Job} {files : Files} {g : Option Bytes} {w w' : Worker}
    (h : At E J (files (E.fileOf J.conn.uri)) g w' w'.pc) (hw : Writing J w → Writing J w') :
    Stepped E J files g w { worker := w', files } :=
  ⟨fun _ _ => rfl, fun _ => rfl, fun _ => ⟨h, hw⟩, fun _ hl => by cases hl⟩

/-- A step of a writer that changes its own file. -/
theorem Stepped.write {E : Env} {J : Job} {files : Files} {g : Option Bytes} {w w' : Worker}
    {b : Bytes} (h : At E J (some b) g w' w'.pc) (hw : Writing J w) (hw' : Writing J w') :
    Stepped E J files g w
      { worker := w', files := Function.update files (E.fileOf J.conn.uri) (some b) } :=
  ⟨fun _ hx => Function.update_of_ne hx _ _, fun hn => absurd hw hn,
    fun _ => ⟨by simp only [Function.update_self]; exact h, fun _ => hw'⟩, fun _ hl => by cases hl⟩

section
variable {E : Env} {J : Job} {files : Files} {g : Option Bytes} {w : Worker} {o : Outcome}
  {free : Bytes → Mode → Bool}

theorem lockMode_get {r : Request} (h : r = .GET ∨ r = .PUT) (hm : lockMode r = .SH) : r = .GET := by
  rcases h with rfl | rfl
  · rfl
  · cases hm

theorem lockMode_put {r : Request} (hm : lockMode r = .EX) : r = .PUT := by
  cases r <;> first | rfl | cases hm

/-- `conn_parse` of a sound request. -/
theorem step_parse (hat : At E J (files (E.fileOf J.conn.uri)) g w w.pc) (hpc : w.pc = .parse)
    (ho : w.step E free files = some o) : Stepped E J files g w o := by
  rw [hpc] at hat
  subst hat
  have hp := J.sound.parsed
  have hreg : J.incoming.start.oracle.regcomp = .ok := by
    rw [Incoming.start, J.sound.oracle]
  simp only [Worker.step, hreg] at ho
  rw [show J.incoming.start.client = J.incoming.client from rfl, hp] at ho
  cases ho
  refine .silent ?_ (fun h => by cases h.2)
  have hcut : Cut J.rest.script := by
    obtain ⟨-, buf, r, hr, -⟩ := connParse_none hp
    exact J.sound.arrives.suffix (readUntil_ok hr).2.2
  have hh : Healthy J { J.incoming.start with
      conn := J.conn, client := J.rest, pc := dispatch none J.conn } :=
    ⟨J.sound.oracle, rfl, J.sound.sock, J.sound.reads, J.sound.writes, hcut⟩
  rcases J.sound.method with hm | hm <;> simp only [dispatch, hm] at hh ⊢ <;>
    exact ⟨hh, rfl, rfl, by rw [hm]; rfl⟩

/-- Taking the lock. -/
theorem step_lock {op : Mode} (hat : At E J (files (E.fileOf J.conn.uri)) g w w.pc)
    (hpc : w.pc = .lock op)
    (hfg : free (E.lockOf J.conn.uri) op = true → files (E.fileOf J.conn.uri) = g)
    (ho : w.step E free files = some o) : Stepped E J files g w o := by
  rw [hpc] at hat
  obtain ⟨hh, hsock, hcl, hop⟩ := hat
  have hnw : ¬ Writing J w := by rintro ⟨-, h⟩; rw [hpc] at h; cases h
  have hlock : w.oracle.uriLock = true := by rw [hh.oracle]
  simp only [Worker.step, hpc, hlock, Bool.true_eq_false, if_false, hh.uri] at ho
  split at ho
  · rename_i hf
    cases ho
    refine .silent ?_ (fun h => absurd h hnw)
    cases op with
    | SH => exact ⟨hh.keep, hsock, lockMode_get J.sound.method hop.symm, hfg hf⟩
    | EX => exact ⟨hh.keep, hsock, lockMode_put hop.symm, hcl, hfg hf⟩
  · cases ho

/-! ### GET -/

theorem step_getOpen (hat : At E J (files (E.fileOf J.conn.uri)) g w w.pc) (hpc : w.pc = .getOpen)
    (ho : w.step E free files = some o) : Stepped E J files g w o := by
  rw [hpc] at hat
  obtain ⟨hh, hsock, hget, hfg⟩ := hat
  have hopen : w.oracle.openErr = none := by rw [hh.oracle]
  simp only [Worker.step, hpc, hopen, hh.uri] at ho
  cases hf : files (E.fileOf J.conn.uri) with
  | none =>
    rw [hf] at ho hfg
    cases ho
    refine .silent ⟨hh.keep, .inl ⟨.NOT_FOUND, .inl rfl, ?_⟩⟩ (fun h => absurd hget h.ne_get)
    rw [J.op_get E hget, ← hfg, hf]
    exact ⟨rfl, rfl, hsock, rfl⟩
  | some c =>
    rw [hf] at ho hfg
    cases ho
    exact .silent ⟨hh.keep, hsock, hget, c, hf, hfg.symm⟩ (fun h => absurd hget h.ne_get)

theorem step_getStat (hat : At E J (files (E.fileOf J.conn.uri)) g w w.pc) (hpc : w.pc = .getStat)
    (ho : w.step E free files = some o) : Stepped E J files g w o := by
  rw [hpc] at hat
  obtain ⟨hh, hsock, hget, c, hf, hg⟩ := hat
  have hst : w.oracle.fstat = true ∧ w.oracle.isDir = false ∧ w.oracle.size = none := by
    rw [hh.oracle]; exact ⟨rfl, rfl, rfl⟩
  simp only [Worker.step, hpc, hst.1, hst.2.1, hst.2.2, Bool.true_eq_false, Bool.false_eq_true,
    if_false, hh.uri, hf, Option.getD_some, Option.getD_none] at ho
  cases ho
  exact .silent ⟨hh.keep, hsock, hget, c, hf, hg, rfl⟩ (fun h => absurd hget h.ne_get)

/-- The content is on the wire. -/
theorem sent_at {w' : Worker} {c : Bytes} (hh : Healthy J w') (hget : J.conn.request = .GET)
    {f : Option Bytes} (hf : f = some c) (hg : g = some c)
    (hsock : w'.sock.written = fileHeader c.length ++ c) : At E J f g w' (exitSent .OK) := by
  refine ⟨hh, .inr (.inl ⟨.OK, .inr rfl, ?_⟩)⟩
  rw [J.op_get E hget, hg]
  exact ⟨rfl, hsock, hf⟩

theorem step_getHead {count : Nat} (hat : At E J (files (E.fileOf J.conn.uri)) g w w.pc)
    (hpc : w.pc = .getHead count) (ho : w.step E free files = some o) :
    Stepped E J files g w o := by
  rw [hpc] at hat
  obtain ⟨hh, hsock, hget, c, hf, hg, rfl⟩ := hat
  obtain ⟨d, hd, hd1, hd2⟩ := writeAll_writes (fileHeader c.length) hh.sock
  rw [hsock, List.nil_append] at hd1
  simp only [Worker.step, hpc, hd] at ho
  cases ho
  refine .silent ?_ (fun h => absurd hget h.ne_get)
  simp only
  split
  · exact ⟨⟨hh.oracle, hh.conn, hd2, hh.reads, hh.writes, hh.client⟩, hget, c, hf, hg, rfl,
      Nat.zero_le _, by simpa using hd1⟩
  · rename_i h0
    have hc : c = [] := List.length_eq_zero_iff.mp (by omega)
    refine sent_at ?_ hget hf hg ?_
    · exact ⟨hh.oracle, hh.conn, hd2, hh.reads, hh.writes, hh.client⟩
    · show d.written = _
      rw [hd1, hc, List.append_nil]

theorem step_getSend {count total : Nat} (hat : At E J (files (E.fileOf J.conn.uri)) g w w.pc)
    (hpc : w.pc = .getSend count total) (ho : w.step E free files = some o) :
    Stepped E J files g w o := by
  rw [hpc] at hat
  obtain ⟨hh, hget, c, hf, hg, rfl, hle, hsock⟩ := hat
  obtain ⟨b, q, hP, hres⟩ :=
    passRound_spec c.length ⟨c.drop total, w.fileReads⟩ w.sock total
  simp only [Worker.step, hpc, hh.uri, hf, Option.getD_some] at ho
  cases hr : passRound c.length ⟨c.drop total, w.fileReads⟩ w.sock total with
  | mk r sd =>
    obtain ⟨s', d⟩ := sd
    rw [hr] at hP hres ho
    have hh' : ∀ {t pc}, Healthy J { w with sock := d, fileReads := s'.script, trace := t, pc } :=
      ⟨hh.oracle, hh.conn, hh.sock.suffix hP.dst, hh.reads.suffix hP.src, hh.writes, hh.client⟩
    have hput := hP.put
    have htak := hP.taken
    simp only at hput htak
    cases r with
    | stop res =>
      cases res with
      | error e => exact absurd ⟨hh.reads, hh.sock⟩ hres
      | ok k =>
        obtain ⟨rfl, rfl, rfl, hstop⟩ := hres
        cases ho
        refine .silent (sent_at hh' hget hf hg ?_) (fun h => absurd hget h.ne_get)
        -- a cut ends a round without a byte only behind the whole file
        have hend : c.length ≤ k := by
          rcases hstop hh.reads.no_eof with h | h
          · exact h
          · simp only at h
            rw [h, List.append_nil, List.drop_eq_nil_iff] at htak
            exact htak
        show d.written = _
        rw [hput, hsock, List.take_of_length_le hend, List.append_nil]
    | again t =>
      obtain ⟨rfl, rfl, -⟩ := hres
      cases ho
      have hq := hP.le
      refine .silent ⟨hh', hget, c, hf, hg, rfl, by omega, ?_⟩ (fun h => absurd hget h.ne_get)
      show d.written = _
      rw [hput, hsock, List.take_add, htak, List.take_left, List.append_assoc]

/-! ### PUT -/

theorem step_putAccess (hat : At E J (files (E.fileOf J.conn.uri)) g w w.pc)
    (hpc : w.pc = .putAccess) (ho : w.step E free files = some o) : Stepped E J files g w o := by
  rw [hpc] at hat
  obtain ⟨hh, hsock, hput, hcl, hfg⟩ := hat
  have hacc : w.oracle.access = true := by rw [hh.oracle]
  simp only [Worker.step, hpc, hacc, Bool.true_and, hh.uri] at ho
  cases ho
  exact .silent ⟨hh.keep, hsock, hput, hcl, hfg, by rw [hfg]⟩ (fun _ => ⟨hput, rfl⟩)

theorem step_putOpen {ex : Bool} (hat : At E J (files (E.fileOf J.conn.uri)) g w w.pc)
    (hpc : w.pc = .putOpen ex) (ho : w.step E free files = some o) : Stepped E J files g w o := by
  rw [hpc] at hat
  obtain ⟨hh, hsock, hput, hcl, -, hex⟩ := hat
  have hopen : w.oracle.openErr = none := by rw [hh.oracle]
  simp only [Worker.step, hpc, hopen, hh.uri] at ho
  cases ho
  exact .write ⟨hh.keep, hsock, hput, hcl, hex⟩ ⟨hput, by rw [hpc]; rfl⟩ ⟨hput, rfl⟩

theorem step_putTrunc {ex : Bool} (hat : At E J (files (E.fileOf J.conn.uri)) g w w.pc)
    (hpc : w.pc = .putTrunc ex) (ho : w.step E free files = some o) : Stepped E J files g w o := by
  rw [hpc] at hat
  obtain ⟨hh, hsock, hput, hcl, hex⟩ := hat
  have htr : w.oracle.ftruncate = true := by rw [hh.oracle]
  simp only [Worker.step, hpc, htr, Bool.true_eq_false, if_false, hh.uri] at ho
  cases ho
  exact .write ⟨hh.keep, hsock, hput, hcl, rfl, hex⟩ ⟨hput, by rw [hpc]; rfl⟩ ⟨hput, rfl⟩

/-- The body is in the file. -/
theorem stored_at {w' : Worker} {ex : Bool} {b : Bytes} (hh : Healthy J w')
    (hput : J.conn.request = .PUT) (hex : ex = g.isSome) (hsock : w'.sock.written = [])
    (hb : b = J.body) : At E J (some b) g w' (putExit ex none) := by
  refine ⟨hh, .inl ⟨if ex then .OK else .CREATED, .inr rfl, ?_⟩⟩
  rw [J.op_put E hput, hb, hex]
  cases g <;> exact ⟨rfl, rfl, hsock, rfl⟩

theorem putExit_writing (ex : Bool) : Pc.writing (putExit ex none) = true := by
  simp [putExit, exitOpen, Pc.writing, audits]

theorem step_putLeft {ex : Bool} (hat : At E J (files (E.fileOf J.conn.uri)) g w w.pc)
    (hpc : w.pc = .putLeft ex) (ho : w.step E free files = some o) : Stepped E J files g w o := by
  rw [hpc] at hat
  obtain ⟨hh, hsock, hput, hcl, hf, hex⟩ := hat
  obtain ⟨d, hd, hd1, hd2⟩ := writeAll_writes (d := ⟨[], w.fileWrites⟩) (leftover J.conn) hh.writes
  rw [List.nil_append] at hd1
  have hwr : writeAt [] 0 (leftover J.conn) = leftover J.conn := writeAt_end [] _
  have hw : Writing J w := ⟨hput, by rw [hpc]; rfl⟩
  have hu : w.conn.uri = J.conn.uri := hh.uri
  have hl : leftover w.conn = leftover J.conn := by rw [hh.conn]
  have hr : remaining w.conn = remaining J.conn := by rw [hh.conn]
  simp only [Worker.step, hpc, hl, hr, hd, hu, hf, Option.getD_some, hd1, hwr] at ho
  cases ho
  have hh' : ∀ {pc}, Healthy J { w with fileWrites := d.script, pc } :=
    ⟨hh.oracle, hh.conn, hh.sock, hh.reads, hd2, hh.client⟩
  by_cases h0 : 0 < remaining J.conn
  · simp only [if_pos h0]
    refine .write ⟨hh', hsock, hput, hex, Nat.zero_le _, ?_, by simp⟩ hw ⟨hput, rfl⟩
    rw [hcl, List.drop_zero]
  · simp only [if_neg h0]
    refine .write (stored_at hh' hput hex hsock ?_) hw ⟨hput, putExit_writing ex⟩
    rw [Job.body, show remaining J.conn = 0 by omega]
    simp

theorem step_putRecv {ex : Bool} {total : Nat} (hat : At E J (files (E.fileOf J.conn.uri)) g w w.pc)
    (hpc : w.pc = .putRecv ex total) (ho : w.step E free files = some o) :
    Stepped E J files g w o := by
  rw [hpc] at hat
  obtain ⟨hh, hsock, hput, hex, hle, hcl, hf⟩ := hat
  have hall := J.sound.whole hput
  have hw : Writing J w := ⟨hput, by rw [hpc]; rfl⟩
  have hl : leftover w.conn = leftover J.conn := by rw [hh.conn]
  have hrem : remaining w.conn = remaining J.conn := by rw [hh.conn]
  simp only [Worker.step, hpc, hl, hrem, hh.uri, hf, Option.getD_some] at ho
  cases hr : passRound (remaining J.conn) w.client ⟨[], w.fileWrites⟩ total with
  | mk r sd =>
    obtain ⟨s', d⟩ := sd
    rw [hr] at ho
    have hR := received (Nat.le_trans hle hall) hcl hr
    have hh' : ∀ {pc}, Healthy J { w with client := s', fileWrites := d.script, pc } :=
      ⟨hh.oracle, hh.conn, hh.sock, hh.reads, hh.writes.suffix hR.dst, hh.client.suffix hR.src⟩
    cases r with
    | stop res =>
      cases res with
      | error e => exact absurd ⟨hh.client, hh.writes⟩ (hR.failed e rfl)
      | ok k =>
        obtain ⟨hnew, hstop⟩ := hR.ended k rfl
        cases ho
        rw [hnew]
        refine .write (stored_at hh' hput hex hsock ?_) hw ⟨hput, putExit_writing ex⟩
        -- the client sends the whole body, so the round stops only behind it
        have hend : total = remaining J.conn := by
          rcases hstop hh.client.no_eof with h | h <;> omega
        rw [Job.body, hend]
    | again t =>
      obtain ⟨-, hmax, hnew, hpend⟩ := hR.again t rfl
      cases ho
      rw [hnew]
      exact .write ⟨hh', hsock, hput, hex, hmax, hpend, rfl⟩ hw ⟨hput, rfl⟩

/-! ### The exits -/

theorem connSendResponse_writes {d : Dst UInt8} (res : Response) (h : Writes d.script) :
    (connSendResponse d res).2.written = d.written ++ responseText res ∧
      Writes (connSendResponse d res).2.script := by
  obtain ⟨d', hd, h1, h2⟩ := writeAll_writes (responseText res) h
  unfold connSendResponse
  rw [hd]
  exact ⟨h1, h2⟩

theorem step_tail {acts : List Act} (hat : At E J (files (E.fileOf J.conn.uri)) g w w.pc)
    (hpc : w.pc = .tail acts) (ho : w.step E free files = some o) : Stepped E J files g w o := by
  rw [hpc] at hat
  obtain ⟨hh, ⟨res, hacts, hres, hwire, hsock, hf⟩ | ⟨res, hacts, hres, hsock, hf⟩ | ⟨hr, ha⟩⟩ := hat
  · -- the answer goes out
    have hstep : ∀ acts', acts = .respond res :: .audit res :: acts' → Act.unlock ∈ acts' →
        (acts' = [.unlock, .closeConn] ∨ acts' = [.closeFd, .unlock, .closeConn]) →
        Stepped E J files g w o := by
      intro acts' hx hu hacts'
      subst hx
      simp only [Worker.step, hpc, Option.some.injEq] at ho
      subst ho
      obtain ⟨h1, h2⟩ := connSendResponse_writes res hh.sock
      refine .silent ⟨⟨hh.oracle, hh.conn, h2, hh.reads, hh.writes, hh.client⟩,
        .inr (.inl ⟨res, by simpa using hacts', hres, ?_, hf⟩)⟩ ?_
      · rw [hwire]
        simp only [h1, hsock, List.nil_append]
      · exact fun h => ⟨h.1, by simp [Pc.writing, hu, audits]⟩
    rcases hacts with h | h <;> simp only [exitLocked, exitOpen, Pc.tail.injEq] at h
    · exact hstep _ h (by simp) (.inl rfl)
    · exact hstep _ h (by simp) (.inr rfl)
  · -- the audit line
    have hin : w.pc.inside = true := by
      rw [hpc]; rcases hacts with rfl | rfl <;> simp [Pc.inside]
    have hline : w.auditSendResponse res = J.line ((J.op E).reply g) := by
      simp only [Worker.auditSendResponse, Job.line, hh.conn, hres]
    obtain ⟨acts', rfl, hq⟩ : ∃ acts', acts = .audit res :: acts' ∧
        responses acts' = [] ∧ audits acts' = [] := by
      rcases hacts with rfl | rfl <;> exact ⟨_, rfl, rfl, rfl⟩
    simp only [Worker.step, hpc, Option.some.injEq] at ho
    subst ho
    refine ⟨fun _ _ => rfl, fun _ => rfl, fun h => (by cases h), fun l hl => ?_⟩
    cases hl
    exact ⟨hline, hsock, hin, rfl, hf, ⟨acts', rfl, hq⟩, fun f g => ⟨hh.keep, .inr (.inr hq)⟩⟩
  · -- closing down
    have hnw : ¬ Writing J w := by
      intro hx
      obtain ⟨-, h⟩ := hx
      rw [hpc] at h
      simp [Pc.writing, ha] at h
    cases acts with
    | nil => simp [Worker.step, hpc] at ho
    | cons a as =>
      simp only [Worker.step, hpc, Option.some.injEq] at ho
      subst ho
      cases a
      case respond => simp [responses] at hr
      case audit => simp [audits] at ha
      all_goals
        exact .silent ⟨hh.keep, .inr (.inr ⟨hr, ha⟩)⟩ (fun h => absurd h hnw)

/-- **One step of a request**, from any place. -/
theorem step_at (hat : At E J (files (E.fileOf J.conn.uri)) g w w.pc)
    (hfg : ∀ op, w.pc = .lock op → free (E.lockOf J.conn.uri) op = true →
      files (E.fileOf J.conn.uri) = g)
    (ho : w.step E free files = some o) : Stepped E J files g w o := by
  cases hpc : w.pc with
  | new =>
    rw [hpc] at hat
    subst hat
    have hcal : J.incoming.start.oracle.calloc = true := by rw [Incoming.start, J.sound.oracle]
    simp only [Worker.step, hpc, hcal, if_true] at ho
    cases ho
    exact .silent rfl (fun h => by cases h.2)
  | parse => exact step_parse hat hpc ho
  | lock op => exact step_lock hat hpc (hfg op hpc) ho
  | getOpen => exact step_getOpen hat hpc ho
  | getStat => exact step_getStat hat hpc ho
  | getHead count => exact step_getHead hat hpc ho
  | getSend count total => exact step_getSend hat hpc ho
  | putAccess => exact step_putAccess hat hpc ho
  | putOpen ex => exact step_putOpen hat hpc ho
  | putTrunc ex => exact step_putTrunc hat hpc ho
  | putLeft ex => exact step_putLeft hat hpc ho
  | putRecv ex total => exact step_putRecv hat hpc ho
  | tail acts => exact step_tail hat hpc ho

/-- Closing down says nothing more to anybody. -/
theorem closing_step (h : Closing w) (ho : w.step E free files = some o) :
    o.line = none ∧ o.worker.sock = w.sock ∧ Closing o.worker := by
  obtain ⟨acts, hpc, hr, ha⟩ := h
  cases acts with
  | nil => simp [Worker.step, hpc] at ho
  | cons a as =>
    simp only [Worker.step, hpc, Option.some.injEq] at ho
    subst ho
    cases a
    case respond => simp [responses] at hr
    case audit => simp [audits] at ha
    all_goals exact ⟨rfl, rfl, as, rfl, hr, ha⟩

theorem Writing.inside (h : Writing J w) : w.pc.inside = true := by
  obtain ⟨-, h⟩ := h
  cases hpc : w.pc <;> rw [hpc] at h <;> simp_all [Pc.writing, Pc.inside]

/-- Inside the lock a worker serves its request. -/
theorem At.conn {f g : Option Bytes} (h : At E J f g w w.pc) (hin : w.pc.inside = true) :
    w.conn = J.conn := by
  cases hpc : w.pc with
  | new => rw [hpc] at hin; cases hin
  | parse => rw [hpc] at hin; cases hin
  | lock op => rw [hpc] at hin; cases hin
  | _ => rw [hpc] at h; exact h.1.conn

end

/-! ## The whole system -/

section
variable (E : Env) (jobs : Fin n → Job) (files₀ : Files)

/-- The files as replaying a log leaves them. -/
def replayed (log : List (Fin n × LogLine)) : Files :=
  replay files₀ (log.map fun e => (jobs e.1).op E)

/-- The file of a request. -/
def fileAt (i : Fin n) : List Bytes := E.fileOf (jobs i).conn.uri

/-- The answer to request `i` after the requests in `log`. -/
def replyAfter (log : List (Fin n × LogLine)) (i : Fin n) : Reply :=
  ((jobs i).op E).reply (replayed E jobs files₀ log (fileAt E jobs i))

structure Linear (s : Sys n) : Prop where
  place : ∀ i, At E (jobs i) (s.files (fileAt E jobs i))
    (replayed E jobs files₀ s.log (fileAt E jobs i)) (s.workers i) (s.workers i).pc
  agree : ∀ x, s.files x = replayed E jobs files₀ s.log x ∨
    ∃ i, fileAt E jobs i = x ∧ Writing (jobs i) (s.workers i)
  lines : ∀ pre i l post, s.log = pre ++ (i, l) :: post →
    l = (jobs i).line (replyAfter E jobs files₀ pre i) ∧
    (s.workers i).sock.written = wire (replyAfter E jobs files₀ pre i) ∧ Closing (s.workers i)

/-- Different URIs name different files. -/
def Distinct : Prop :=
  ∀ i j, (jobs i).conn.uri ≠ (jobs j).conn.uri → fileAt E jobs i ≠ fileAt E jobs j

variable {E jobs files₀} {s s' : Sys n}

theorem Linear.init : Linear E jobs files₀ ⟨files₀, [], fun i => (jobs i).incoming.start⟩ where
  place _ := rfl
  agree _ := .inl rfl
  lines pre i l post h := by simp at h

/-- Nobody else is inside on the file a PUT works on. -/
theorem Linear.alone (hE : Distinct E jobs) (h : Linear E jobs files₀ s)
    (hs : (server E (fun i => (jobs i).incoming) files₀).Reachable s) {i j : Fin n}
    (hi : (s.workers i).pc.inside = true) (hput : (jobs i).conn.request = .PUT)
    (hf : fileAt E jobs j = fileAt E jobs i) (hj : (s.workers j).pc.inside = true) : j = i := by
  have hu : (jobs j).conn.uri = (jobs i).conn.uri := by
    by_contra hne
    exact hE j i hne hf
  refine put_alone hs hi ?_ hj ?_
  · rw [(h.place i).conn hi]; exact hput
  · rw [(h.place i).conn hi, (h.place j).conn hj, hu]

/-- A free lock means nobody is writing: the file is what the log says. -/
theorem Linear.unlocked (hE : Distinct E jobs) (h : Linear E jobs files₀ s)
    (hs : (server E (fun i => (jobs i).incoming) files₀).Reachable s) {i : Fin n} {op : Mode}
    (hpc : (s.workers i).pc = .lock op)
    (hfree : s.free i (E.lockOf (jobs i).conn.uri) op = true) :
    s.files (fileAt E jobs i) = replayed E jobs files₀ s.log (fileAt E jobs i) := by
  rcases h.agree (fileAt E jobs i) with ha | ⟨j, hf, hw⟩
  · exact ha
  exfalso
  have hu : (jobs j).conn.uri = (jobs i).conn.uri := by
    by_contra hne
    exact hE j i hne hf
  have hji : j ≠ i := by
    intro hh
    subst hh
    have := hw.2
    rw [hpc] at this
    cases this
  have ht : s.table j = some (E.lockOf (jobs i).conn.uri, .EX) := by
    rw [Sys.table, (server_guarded hs j).held, hw.inside, (h.place j).conn hw.inside, hw.1, hu]
    rfl
  have hfree' := of_decide_eq_true hfree
  cases op with
  | SH => exact hfree' j hji ht
  | EX => exact (hfree' j hji).2 ht

/-- The worker that steps, given that it keeps to its request. -/
theorem Linear.stepped (hE : Distinct E jobs) (h : Linear E jobs files₀ s)
    (hs : (server E (fun i => (jobs i).incoming) files₀).Reachable s) {i : Fin n} {o : Outcome}
    (ho : (s.workers i).step E (s.free i) s.files = some o) :
    Stepped E (jobs i) s.files (replayed E jobs files₀ s.log (fileAt E jobs i)) (s.workers i) o :=
  step_at (h.place i) (fun _ hpc hfree => h.unlocked hE hs hpc hfree) ho

/-- A step that writes no audit line. -/
theorem Linear.quiet (hE : Distinct E jobs) (h : Linear E jobs files₀ s)
    (hs : (server E (fun i => (jobs i).incoming) files₀).Reachable s) {i : Fin n} {o : Outcome}
    (ho : (s.workers i).step E (s.free i) s.files = some o) (hl : o.line = none) :
    Linear E jobs files₀ ⟨o.files, s.log, Function.update s.workers i o.worker⟩ := by
  have hst := h.stepped hE hs ho
  obtain ⟨hat, hkeep⟩ := hst.quiet hl
  refine ⟨fun j => ?_, fun x => ?_, fun pre j l post hlog => ?_⟩
  · by_cases hji : j = i
    · subst hji
      simp only [Function.update_self]
      exact hat
    simp only [Function.update_of_ne hji]
    by_cases hf : fileAt E jobs j = fileAt E jobs i
    · by_cases hw : Writing (jobs i) (s.workers i)
      · -- the writer is alone on its file
        have hout : (s.workers j).pc.inside = false := by
          by_contra hin
          exact hji (h.alone hE hs hw.inside hw.1 hf (by simpa using hin))
        exact (h.place j).frame hout
      · rw [hst.same hw]; exact h.place j
    · rw [hst.other _ hf]; exact h.place j
  · by_cases hw : fileAt E jobs i = x ∧ Writing (jobs i) (s.workers i)
    · exact .inr ⟨i, hw.1, by simpa using hkeep hw.2⟩
    · have hfx : o.files x = s.files x := by
        by_cases hx : x = fileAt E jobs i
        · rw [hst.same fun h => hw ⟨hx.symm, h⟩]
        · exact hst.other x hx
      rcases h.agree x with ha | ⟨j, hf, hwj⟩
      · exact .inl (hfx.trans ha)
      · have hji : j ≠ i := by rintro rfl; exact hw ⟨hf, hwj⟩
        exact .inr ⟨j, hf, by simpa [Function.update_of_ne hji] using hwj⟩
  · obtain ⟨h1, h2, h3⟩ := h.lines pre j l post hlog
    by_cases hji : j = i
    · subst hji
      obtain ⟨-, hsock, hcl⟩ := closing_step h3 ho
      simp only [Function.update_self, hsock]
      exact ⟨h1, h2, hcl⟩
    · simp only [Function.update_of_ne hji]
      exact ⟨h1, h2, h3⟩

theorem replayed_snoc (log : List (Fin n × LogLine)) (i : Fin n) (l : LogLine) :
    replayed E jobs files₀ (log ++ [(i, l)]) =
      ((jobs i).op E).apply (replayed E jobs files₀ log) := by
  simp [replayed, replay_snoc]

/-- An audit line: the request takes effect. -/
theorem Linear.audit (hE : Distinct E jobs) (h : Linear E jobs files₀ s)
    (hs : (server E (fun i => (jobs i).incoming) files₀).Reachable s) {i : Fin n} {o : Outcome}
    (ho : (s.workers i).step E (s.free i) s.files = some o) {l : LogLine} (hl : o.line = some l) :
    Linear E jobs files₀
      ⟨o.files, s.log ++ [(i, l)], Function.update s.workers i o.worker⟩ := by
  obtain ⟨hline, hsock, hin, hfiles, hafter, hclosing, hat⟩ := (h.stepped hE hs ho).audited l hl
  have hown : replayed E jobs files₀ (s.log ++ [(i, l)]) (fileAt E jobs i) =
      ((jobs i).op E).after (replayed E jobs files₀ s.log (fileAt E jobs i)) := by
    have := apply_file ((jobs i).op E) (replayed E jobs files₀ s.log)
    rw [Job.op_file] at this
    rw [replayed_snoc]
    exact this
  have hother : ∀ x, x ≠ fileAt E jobs i →
      replayed E jobs files₀ (s.log ++ [(i, l)]) x = replayed E jobs files₀ s.log x := by
    intro x hx
    rw [replayed_snoc]
    exact apply_other _ _ (by rw [Job.op_file]; exact hx)
  rw [hfiles]
  refine ⟨fun j => ?_, fun x => ?_, fun pre j l' post hlog => ?_⟩
  · by_cases hji : j = i
    · subst hji
      simp only [Function.update_self]
      exact hat _ _
    simp only [Function.update_of_ne hji]
    by_cases hf : fileAt E jobs j = fileAt E jobs i
    · rcases (jobs i).sound.method with hm | hm
      · -- a GET leaves what the log says as it was
        rw [hf, hown, Job.op_get _ _ hm, ← hf]
        exact h.place j
      · have hout : (s.workers j).pc.inside = false := by
          by_contra hin'
          exact hji (h.alone hE hs hin hm hf (by simpa using hin'))
        exact (h.place j).frame hout
    · rw [hother _ hf]; exact h.place j
  · by_cases hx : x = fileAt E jobs i
    · subst hx
      exact .inl (hafter.trans hown.symm)
    · rw [hother x hx]
      rcases h.agree x with ha | ⟨j, hf, hwj⟩
      · exact .inl ha
      · have hji : j ≠ i := by rintro rfl; exact hx hf.symm
        exact .inr ⟨j, hf, by simpa [Function.update_of_ne hji] using hwj⟩
  · rcases List.eq_nil_or_concat post with rfl | ⟨post', e, rfl⟩
    · -- the new line
      obtain ⟨rfl, he⟩ := List.append_inj' hlog rfl
      simp only [List.cons.injEq, Prod.mk.injEq, and_true] at he
      obtain ⟨rfl, rfl⟩ := he
      simp only [Function.update_self]
      exact ⟨hline, hsock, hclosing⟩
    · rw [List.concat_eq_append, ← List.cons_append, ← List.append_assoc] at hlog
      obtain ⟨h1, h2, h3⟩ := h.lines pre j l' post' (List.append_inj' hlog rfl).1
      have hji : j ≠ i := by
        intro hh
        subst hh
        have := (closing_step h3 ho).1
        rw [hl] at this
        cases this
      simp only [Function.update_of_ne hji]
      exact ⟨h1, h2, h3⟩

/-- **Log and files stay in step**, whatever the interleaving. -/
theorem server_linear (hE : Distinct E jobs)
    (hs : (server E (fun i => (jobs i).incoming) files₀).Reachable s) :
    Linear E jobs files₀ s := by
  have hI : (server E (fun i => (jobs i).incoming) files₀).Inductive fun s =>
      (server E (fun i => (jobs i).incoming) files₀).Reachable s ∧ Linear E jobs files₀ s := by
    refine ⟨?_, ?_⟩
    · intro s hh
      subst hh
      exact ⟨⟨_, [], rfl, .nil _⟩, .init⟩
    · intro s i s' hh hst
      obtain ⟨hr, h⟩ := hh
      refine ⟨hr.step hst, ?_⟩
      obtain ⟨o, ho, rfl⟩ := Option.map_eq_some_iff.mp hst
      cases hl : o.line with
      | none =>
        have := h.quiet hE hr ho hl
        simpa using this
      | some l => exact h.audit hE hr ho hl
  exact (hI.reachable s hs).2

/-- A request that has finished is in the log, once. -/
theorem logged_once (hs : (server E (fun i => (jobs i).incoming) files₀).Reachable s) (i : Fin n)
    (hd : (s.workers i).pc = .done) : ∃ l, s.linesOf i = [l] := by
  obtain ⟨hl, hat⟩ := server_planned hs i
  rw [show (s.solo i).worker.pc = .done from hd, Pc.done, PlannedAt, List.append_nil] at hat
  rcases hat with ⟨hsil, -⟩ | ⟨-, res, hseq⟩
  · exact absurd hsil (jobs i).sound.not_silent
  · rw [Logged, hseq.once.2, List.map_cons, List.map_nil, List.map_eq_singleton_iff] at hl
    obtain ⟨l, hl, -⟩ := hl
    exact ⟨l, hl⟩

end

/-- **The audit log is a linearization.** When all requests have finished, in
whatever interleaving: replaying the log from the initial files gives each
line the status in it and its client the bytes it received; every request has
one line; and the files end as the replay does. -/
theorem log_linearizes (E : Env) (files₀ : Files) (jobs : Fin n → Job) (hE : Distinct E jobs)
    (s : Sys n) (hs : (server E (fun i => (jobs i).incoming) files₀).Reachable s)
    (hd : ∀ i, (s.workers i).pc = .done) :
    (∀ pre i l post, s.log = pre ++ (i, l) :: post →
      l = (jobs i).line (replyAfter E jobs files₀ pre i) ∧
      (s.workers i).sock.written = wire (replyAfter E jobs files₀ pre i)) ∧
    (∀ i, ∃ l, s.linesOf i = [l]) ∧
    s.files = replayed E jobs files₀ s.log := by
  have h := server_linear hE hs
  refine ⟨fun pre i l post hlog => ?_, fun i => logged_once hs i (hd i), funext fun x => ?_⟩
  · obtain ⟨h1, h2, -⟩ := h.lines pre i l post hlog
    exact ⟨h1, h2⟩
  · rcases h.agree x with ha | ⟨i, -, hw⟩
    · exact ha
    · have := hw.2
      rw [hd i] at this
      cases this

/-- `PUT /a` of two bytes, the second one in a segment of its own. -/
def putHi : Incoming where
  client := ⟨ascii "PUT /a HTTP/1.1\r\nContent-Length: 2\r\n\r\nhi", [.got 38, .got 0]⟩

/-- The requests of the run below. -/
def twoJobs : Fin 2 → Job
  | 0 => ⟨putHi, (connParse .ok putHi.client).2.1, (connParse .ok putHi.client).2.2, by
      refine ⟨rfl, ?_, ?_, ?_, ?_, ?_, ?_, ?_⟩ <;> decide⟩
  | 1 => ⟨getA, (connParse .ok getA.client).2.1, (connParse .ok getA.client).2.2, by
      refine ⟨rfl, ?_, ?_, ?_, ?_, ?_, ?_, ?_⟩ <;> decide⟩

/-- One interleaving: the PUT takes its lock and the GET waits for it; the GET
then reads what was stored while the PUT closes its connection. -/
theorem log_linearizes_twoJobs : ∃ s, (server ⟨[], 1, 2⟩ (fun i => (twoJobs i).incoming)
      fun _ => none).Reachable s ∧ s.log.map Prod.fst = [0, 1] ∧
    (s.workers 1).sock.written = fileHeader 2 ++ ascii "hi" ∧
    s.files = replayed ⟨[], 1, 2⟩ twoJobs (fun _ => none) s.log := by
  have hrun : ((LTS.exec (Sys.step ⟨[], 1, 2⟩)
      ⟨fun _ => none, [], fun i : Fin 2 => (twoJobs i).incoming.start⟩
      ([0, 0, 1, 1] ++ List.replicate 11 0 ++ [1, 0] ++ List.replicate 9 1)).map fun s =>
        ((s.workers 0).pc, (s.workers 1).pc, s.log.map Prod.fst, (s.workers 1).sock.written)) =
      some (.done, .done, [0, 1], fileHeader 2 ++ ascii "hi") := by decide
  obtain ⟨s, hs, hd⟩ := Option.map_eq_some_iff.mp hrun
  simp only [Prod.mk.injEq] at hd
  obtain ⟨h0, h1, hlog, hsock⟩ := hd
  have hr : (server ⟨[], 1, 2⟩ (fun i => (twoJobs i).incoming) fun _ => none).Reachable s :=
    ⟨_, _, rfl, LTS.run_of_exec _ _ _ hs⟩
  have hE : Distinct ⟨[], 1, 2⟩ twoJobs := by unfold Distinct; decide
  have hdone : ∀ i, (s.workers i).pc = .done := by
    intro i
    match i with
    | 0 => exact h0
    | 1 => exact h1
  exact ⟨s, hr, hlog, hsock, (log_linearizes _ _ _ hE s hr hdone).2.2⟩

end HttpC.L5
