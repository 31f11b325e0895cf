import HttpC.Core.LTS
import HttpC.L3Handler.Worker

/-!
# The discipline of every exit

One connection, with everything around it arbitrary: at each step the rest of
the system may have changed the files and may or may not let the lock go, and
every call may have any outcome. `handler` is that system; its state is the
worker and the audit lines it wrote.

The source repeats the respond / audit / close / unlock sequence at every
exit. `Planned` says for each place what has been done and, in an exit, that
what is left completes one of three sequences; it is kept by every step
(`planned_step`), and `Disciplined` is read off at the end.
-/
namespace HttpC.L3
open HttpC.L1.Util HttpC.L2 HttpC.Flock

structure Solo where
  worker : Worker
  log : List LogLine
  deriving DecidableEq, Repr

/-- One step, the lock's state and the files being what the label says. -/
def Solo.step (E : Env) (s : Solo) (around : (Bytes → Mode → Bool) × Files) : Option Solo :=
  (s.worker.step E around.1 around.2).map fun o => ⟨o.worker, s.log ++ o.line.toList⟩

def handler (E : Env) (q : Incoming) : LTS Solo ((Bytes → Mode → Bool) × Files) :=
  .ofFn (· = ⟨q.start, []⟩) (Solo.step E)

/-- `conn_new` fails, or the first `read()` that is not interrupted finds the
connection closed. -/
def Silent (q : Incoming) : Prop :=
  q.oracle.calloc = false ∨
    (retryRead BUFFER_SIZE q.client.pending q.client.script).1 = .data []

/-- The responses attempted in a trace. -/
def responses : List Act → List Response
  | [] => []
  | .respond res :: as => res :: responses as
  | _ :: as => responses as

/-- The statuses audited in a trace. -/
def audits : List Act → List Response
  | [] => []
  | .audit res :: as => res :: audits as
  | _ :: as => audits as

/-- `a` happens before the first `b`. -/
def Before (a b : Act) (t : List Act) : Prop := a ∈ t.takeWhile (· != b)

instance (a b : Act) (t : List Act) : Decidable (Before a b t) := by unfold Before; exact inferInstance

/-- What the handler owes its client, its lock, its descriptor and its
connection, told by the labels of its trace. The step that records a label does
what it says: `Logged` for the audit lines, `held_between` for the lock. -/
structure Disciplined (silent : Prop) (t : List Act) (log : List LogLine) : Prop where
  quiet : silent → responses t = [] ∧ log = []
  answered : ¬ silent → ∃ res l, responses t = [res] ∧ log = [l] ∧ l.status = responseGetCode res
  unlocked : t.count .unlock = t.count .lock ∧ t.count .lock ≤ 1
  unlock_last : .lock ∈ t → Before .lock .unlock t ∧ audits (t.takeWhile (· != .unlock)) ≠ []
  closed : t.count .closeFd = t.count .openFd ∧ t.count .openFd ≤ 1
  closed_first : .openFd ∈ t → Before .openFd .closeFd t ∧ Before .closeFd .unlock t
  conn : t.count .closeConn = 1 ∧ t.getLast? = some .closeConn

/-! ## The control flow -/

/-- Where a handler goes from a place between the dispatch and the exits, and
what it does on the way. -/
inductive Flow : Pc → List Act → Pc → Prop where
  | lockFails (op) : Flow (.lock op) [] (exitPlain .INTERNAL_SERVER_ERROR)
  | lockShared : Flow (.lock .SH) [.lock] .getOpen
  | lockExclusive : Flow (.lock .EX) [.lock] .putAccess
  | getOpenFails (res) : Flow .getOpen [] (exitLocked res)
  | getOpened : Flow .getOpen [.openFd] .getStat
  | getStatFails (res) : Flow .getStat [] (exitOpen res)
  | getStatted (count) : Flow .getStat [] (.getHead count)
  | getEnds (count) : Flow (.getHead count) [.respond .OK] (exitSent .OK)
  | getSends (count) : Flow (.getHead count) [.respond .OK] (.getSend count 0)
  | getSent (count total) : Flow (.getSend count total) [] (exitSent .OK)
  | getRound (count total total') : Flow (.getSend count total) [] (.getSend count total')
  | putAccessed (ex) : Flow .putAccess [] (.putOpen ex)
  | putOpenFails (ex res) : Flow (.putOpen ex) [] (exitLocked res)
  | putOpened (ex) : Flow (.putOpen ex) [.openFd] (.putTrunc ex)
  | putTruncFails (ex res) : Flow (.putTrunc ex) [] (exitOpen res)
  | putTruncated (ex) : Flow (.putTrunc ex) [] (.putLeft ex)
  | putLeftEnds (ex res) : Flow (.putLeft ex) [] (exitOpen res)
  | putLeftGoesOn (ex) : Flow (.putLeft ex) [] (.putRecv ex 0)
  | putRecvEnds (ex total res) : Flow (.putRecv ex total) [] (exitOpen res)
  | putRound (ex total total') : Flow (.putRecv ex total) [] (.putRecv ex total')

/-- Between the dispatch and the exits. -/
def Pc.working : Pc → Bool
  | .new | .parse | .tail _ => false
  | _ => true

/-- A step along the flow: no audit line, the same connection, and the lock
taken only where it is free. -/
structure Follows (E : Env) (free : Bytes → Mode → Bool) (w : Worker) (pc : Pc) (o : Outcome)
    (acts : List Act) : Prop where
  flow : Flow pc acts o.worker.pc
  trace : o.worker.trace = w.trace ++ acts
  conn : o.worker.conn = w.conn
  line : o.line = none
  held : acts ≠ [.lock] → o.worker.held = w.held
  locked : acts = [.lock] → ∃ op, pc = .lock op ∧ free (E.lockOf w.conn.uri) op = true ∧
    o.worker.held = some (E.lockOf w.conn.uri, op)

section
variable {E : Env} {w : Worker} {free : Bytes → Mode → Bool} {files : Files} {o : Outcome}

theorem follows_plain {pc : Pc} {acts : List Act} (h : Flow pc acts o.worker.pc)
    (hne : acts ≠ [.lock]) (ht : o.worker.trace = w.trace ++ acts) (hc : o.worker.conn = w.conn)
    (hl : o.line = none) (hh : o.worker.held = w.held) : ∃ acts, Follows E free w pc o acts :=
  ⟨acts, h, ht, hc, hl, fun _ => hh, fun he => absurd he hne⟩

theorem Flow.putExit (ex : Bool) (total : Nat) (res : Option Response) :
    Flow (.putRecv ex total) [] (L3.putExit ex res) := by
  unfold L3.putExit
  split <;> exact .putRecvEnds ex total _

/-- **Every step of a working handler follows the flow.** -/
theorem step_follows (ho : w.step E free files = some o) (hw : w.pc.working = true) :
    ∃ acts, Follows E free w w.pc o acts := by
  have nil : w.trace = w.trace ++ [] := (List.append_nil _).symm
  cases hpc : w.pc with
  | new => rw [hpc] at hw; cases hw
  | parse => rw [hpc] at hw; cases hw
  | tail acts => rw [hpc] at hw; cases hw
  | lock op =>
    simp only [Worker.step, hpc] at ho
    split at ho
    · cases ho; exact follows_plain (.lockFails op) (by simp) nil rfl rfl rfl
    · split at ho
      · rename_i hf
        cases ho
        cases op
        · exact ⟨_, .lockShared, rfl, rfl, rfl, fun h => absurd rfl h, fun _ => ⟨.SH, rfl, hf, rfl⟩⟩
        · exact ⟨_, .lockExclusive, rfl, rfl, rfl, fun h => absurd rfl h, fun _ => ⟨.EX, rfl, hf, rfl⟩⟩
      · cases ho
  | getOpen =>
    simp only [Worker.step, hpc] at ho
    split at ho <;> cases ho
    · exact follows_plain (.getOpenFails _) (by simp) nil rfl rfl rfl
    · exact follows_plain (.getOpenFails _) (by simp) nil rfl rfl rfl
    · exact follows_plain .getOpened (by simp) rfl rfl rfl rfl
  | getStat =>
    simp only [Worker.step, hpc] at ho
    split at ho
    · cases ho; exact follows_plain (.getStatFails _) (by simp) nil rfl rfl rfl
    · split at ho <;> cases ho
      · exact follows_plain (.getStatFails _) (by simp) nil rfl rfl rfl
      · exact follows_plain (.getStatted _) (by simp) nil rfl rfl rfl
  | getHead count =>
    simp only [Worker.step, hpc] at ho
    split at ho <;> cases ho
    · exact follows_plain (.getEnds count) (by simp) rfl rfl rfl rfl
    · refine follows_plain ?_ (by simp) rfl rfl rfl rfl
      simp only
      split
      · exact .getSends count
      · exact .getEnds count
  | getSend count total =>
    simp only [Worker.step, hpc] at ho
    split at ho <;> cases ho
    · exact follows_plain (.getSent count total) (by simp) nil rfl rfl rfl
    · exact follows_plain (.getRound count total _) (by simp) nil rfl rfl rfl
  | putAccess =>
    simp only [Worker.step, hpc] at ho
    cases ho
    exact follows_plain (.putAccessed _) (by simp) nil rfl rfl rfl
  | putOpen ex =>
    simp only [Worker.step, hpc] at ho
    split at ho <;> cases ho
    · exact follows_plain (.putOpenFails ex _) (by simp) nil rfl rfl rfl
    · exact follows_plain (.putOpened ex) (by simp) rfl rfl rfl rfl
  | putTrunc ex =>
    simp only [Worker.step, hpc] at ho
    split at ho <;> cases ho
    · exact follows_plain (.putTruncFails ex _) (by simp) nil rfl rfl rfl
    · exact follows_plain (.putTruncated ex) (by simp) nil rfl rfl rfl
  | putLeft ex =>
    simp only [Worker.step, hpc] at ho
    split at ho <;> cases ho
    · exact follows_plain (.putLeftEnds ex _) (by simp) nil rfl rfl rfl
    · refine follows_plain ?_ (by simp) nil rfl rfl rfl
      simp only
      split
      · exact .putLeftGoesOn ex
      · exact .putLeftEnds ex _
  | putRecv ex total =>
    simp only [Worker.step, hpc] at ho
    split at ho <;> cases ho
    · exact follows_plain (.putExit ex total _) (by simp) nil rfl rfl rfl
    · exact follows_plain (.putRound ex total _) (by simp) nil rfl rfl rfl

end

/-! ## The three sequences -/

/-- The whole of what a handler may do, with the status it answers. -/
inductive Sequence : Response → List Act → Prop where
  | plain (res) : Sequence res [.respond res, .audit res, .closeConn]
  | locked (res) : Sequence res [.lock, .respond res, .audit res, .unlock, .closeConn]
  | opened (res) : Sequence res
      [.lock, .openFd, .respond res, .audit res, .closeFd, .unlock, .closeConn]

/-- The log holds a line for each audit of `t`, with its status. -/
def Logged (t : List Act) (log : List LogLine) : Prop :=
  log.map LogLine.status = (audits t).map responseGetCode

theorem Sequence.once {res : Response} {t : List Act} (h : Sequence res t) :
    responses t = [res] ∧ audits t = [res] := by
  cases h <;> exact ⟨rfl, rfl⟩

theorem Sequence.disciplined {silent : Prop} {res : Response} {t : List Act} {log : List LogLine}
    (h : Sequence res t) (hs : ¬ silent) (hl : Logged t log) : Disciplined silent t log := by
  have hrs := h.once
  obtain ⟨l, hlog, hst⟩ : ∃ l, log = [l] ∧ l.status = responseGetCode res := by
    rw [Logged, hrs.2, List.map_cons, List.map_nil, List.map_eq_singleton_iff] at hl
    exact hl
  refine ⟨fun h => absurd h hs, fun _ => ⟨res, l, hrs.1, hlog, hst⟩, ?_, ?_, ?_, ?_, ?_⟩ <;>
    clear hl hlog hst hrs <;> cases h <;> cases res <;> decide

theorem disciplined_silent {silent : Prop} {log : List LogLine} (hs : silent)
    (hl : Logged [.closeConn] log) : Disciplined silent [.closeConn] log := by
  have hnil : log = [] := List.map_eq_nil_iff.mp hl
  exact ⟨fun _ => ⟨rfl, hnil⟩, fun h => absurd hs h, by decide, by decide, by decide, by decide,
    by decide⟩

/-! ## The plan at each place -/

/-- What has been done on the way to a place, before any exit. -/
def Pc.past : Pc → List Act
  | .getOpen | .putAccess | .putOpen _ => [.lock]
  | .getStat | .getHead _ | .putTrunc _ | .putLeft _ | .putRecv _ _ => [.lock, .openFd]
  | .getSend _ _ => [.lock, .openFd, .respond .OK]
  | _ => []

/-- What was done and is left to do is the one silent act, or one of the
sequences. -/
def Whole (q : Incoming) (t : List Act) : Prop :=
  (Silent q ∧ t = [.closeConn]) ∨ (¬ Silent q ∧ ∃ res, Sequence res t)

def PlannedAt (q : Incoming) (w : Worker) : Pc → Prop
  | .tail acts => Whole q (w.trace ++ acts)
  | .new => w = q.start
  | .parse => w = { q.start with conn := connNew, pc := .parse } ∧ q.oracle.calloc = true
  | pc => w.trace = pc.past ∧ ¬ Silent q

def Planned (q : Incoming) (s : Solo) : Prop :=
  Logged s.worker.trace s.log ∧ PlannedAt q s.worker s.worker.pc

section
variable {q : Incoming} {E : Env} {w : Worker} {log : List LogLine}

/-- The exits complete what was done on the way to them. -/
theorem whole_exits (hs : ¬ Silent q) (res : Response) :
    Whole q [.respond res, .audit res, .closeConn] ∧
      Whole q [.lock, .respond res, .audit res, .unlock, .closeConn] ∧
      Whole q [.lock, .openFd, .respond res, .audit res, .closeFd, .unlock, .closeConn] :=
  ⟨.inr ⟨hs, res, .plain res⟩, .inr ⟨hs, res, .locked res⟩, .inr ⟨hs, res, .opened res⟩⟩

theorem audits_append (s t : List Act) : audits (s ++ t) = audits s ++ audits t := by
  induction s with
  | nil => rfl
  | cons a s ih => cases a <;> simp [audits, ih]

theorem responses_append (s t : List Act) : responses (s ++ t) = responses s ++ responses t := by
  induction s with
  | nil => rfl
  | cons a s ih => cases a <;> simp [responses, ih]

/-- An act of an exit: it is recorded, and audited if it is an audit. -/
theorem planned_act {a : Act} {as : List Act} {files : Files} (hl : Logged w.trace log)
    (hw : Whole q (w.trace ++ a :: as)) :
    Planned q ⟨(w.act files a as).worker, log ++ (w.act files a as).line.toList⟩ := by
  have hw' : Whole q (w.trace ++ [a] ++ as) := by simpa using hw
  have hlog : ∀ l : List LogLine, l.map LogLine.status = (audits [a]).map responseGetCode →
      Logged (w.trace ++ [a]) (log ++ l) := by
    intro l h
    unfold Logged at hl ⊢
    rw [audits_append, List.map_append, List.map_append, hl, h]
  cases a <;> exact ⟨hlog _ rfl, hw'⟩

/-- The dispatch closes an empty connection, answers, or goes for the lock. -/
theorem dispatch_cases (res : Option Response) (c : Conn UInt8) :
    (dispatch res c = .tail [.closeConn] ∧ connIsEmpty c = true) ∨
      ((∃ res', dispatch res c = exitPlain res') ∧ (res = none ∨ connIsEmpty c = false)) ∨
      ((∃ op, dispatch res c = .lock op) ∧ res = none) := by
  cases res with
  | some res =>
    cases he : connIsEmpty c with
    | true => exact .inl ⟨by simp [dispatch, he], rfl⟩
    | false =>
      refine .inr (.inl ⟨?_, .inr rfl⟩)
      simp only [dispatch, he, Bool.false_eq_true, if_false]
      split
      · exact ⟨_, rfl⟩
      · exact ⟨_, rfl⟩
  | none =>
    cases hr : c.request with
    | GET => exact .inr (.inr ⟨⟨.SH, by simp [dispatch, hr]⟩, rfl⟩)
    | PUT => exact .inr (.inr ⟨⟨.EX, by simp [dispatch, hr]⟩, rfl⟩)
    | UNSUPPORTED => exact .inr (.inl ⟨⟨.NOT_IMPLEMENTED, by simp [dispatch, hr]⟩, .inl rfl⟩)

/-- An accepted request was not empty. -/
theorem accepted_read {rc : Regcomp} {s s' : Src UInt8} {c : Conn UInt8}
    (hp : connParse rc s = (none, c, s')) :
    (retryRead BUFFER_SIZE s.pending s.script).1 ≠ .data [] := by
  intro h
  obtain ⟨-, buf, r, hr, hline, -⟩ := connParse_none hp
  have h0 := (@readUntil_nil_iff _ _ _ BLANK_LINE _ (by decide)).mpr h
  rw [hr, Except.ok.injEq] at h0
  have := hline.length_pos
  rw [h0] at this
  exact this rfl

theorem planned_parse {c : Conn UInt8} {res : Option Response} {s' : Src UInt8}
    (hc : q.oracle.calloc = true) (hp : connParse q.oracle.regcomp q.client = (res, c, s')) :
    PlannedAt q { q.start with conn := c, client := s', pc := dispatch res c } (dispatch res c) := by
  have hiff := connParse_empty_iff q.oracle.regcomp q.client
  rw [hp] at hiff
  have hempty : connIsEmpty c = true ↔ Silent q := by
    unfold Silent; rw [hiff, hc]; simp
  have hnone : res = none → ¬ Silent q := by
    intro hh h
    subst hh
    exact accepted_read hp (hiff.mp (hempty.mpr h))
  rcases dispatch_cases res c with ⟨hd, he⟩ | ⟨⟨res', hd⟩, he⟩ | ⟨⟨op, hd⟩, he⟩
  · rw [hd]; exact .inl ⟨hempty.mp he, rfl⟩
  · have hs : ¬ Silent q := by
      rcases he with he | he
      · exact hnone he
      · intro h; rw [hempty.mpr h] at he; cases he
    rw [hd]; exact (whole_exits hs res').1
  · rw [hd]; exact ⟨rfl, hnone he⟩

theorem audits_past (pc : Pc) : audits pc.past = [] := by cases pc <;> rfl

/-- On the way to an exit nothing has been logged, and the place reached goes
on with the plan. -/
theorem planned_of_past {pc : Pc} {w' : Worker} (hl : Logged w.trace log) (ht : w.trace = pc.past)
    (hn : audits w'.trace = []) (h : PlannedAt q w' w'.pc) : Planned q ⟨w', log ++ []⟩ := by
  unfold Logged at hl
  rw [ht, audits_past, List.map_nil, List.map_eq_nil_iff] at hl
  subst hl
  exact ⟨by simp [Logged, hn], h⟩

theorem Flow.audits {pc pc' : Pc} {acts : List Act} (h : Flow pc acts pc') : L3.audits acts = [] := by
  cases h <;> rfl

/-- The flow keeps the plan: what was done leads to the next place, or is
completed by the exit taken. -/
theorem planned_flow {pc : Pc} {acts : List Act} {w' : Worker} (hl : Logged w.trace log)
    (ht : w.trace = pc.past) (hs : ¬ Silent q) (hf : Flow pc acts w'.pc)
    (ht' : w'.trace = w.trace ++ acts) : Planned q ⟨w', log ++ []⟩ := by
  rw [ht] at ht'
  refine planned_of_past hl ht ?_ ?_
  · rw [ht', audits_append, audits_past, hf.audits]; rfl
  · generalize hpc : w'.pc = pc' at hf
    have hex := whole_exits hs
    cases hf
    case lockFails => rw [exitPlain, PlannedAt, ht']; exact (hex _).1
    case getOpenFails | putOpenFails => rw [exitLocked, PlannedAt, ht']; exact (hex _).2.1
    case getStatFails | putTruncFails | putLeftEnds | putRecvEnds =>
      rw [exitOpen, PlannedAt, ht']; exact (hex _).2.2
    case getEnds | getSent => rw [exitSent, PlannedAt, ht']; exact (hex .OK).2.2
    all_goals exact ⟨ht', hs⟩

/-- **Every step keeps the plan.** -/
theorem planned_step {s s' : Solo} {around : (Bytes → Mode → Bool) × Files} (h : Planned q s)
    (hst : s.step E around = some s') : Planned q s' := by
  obtain ⟨w, log⟩ := s
  obtain ⟨o, ho, rfl⟩ := Option.map_eq_some_iff.mp hst
  clear hst
  obtain ⟨hl, hat⟩ := h
  simp only at hl hat ho
  cases hpc : w.pc with
  | new =>
    rw [hpc] at hat
    subst hat
    have hl0 : log = [] := List.map_eq_nil_iff.mp hl
    subst hl0
    simp only [Worker.step, hpc] at ho
    split at ho
    · rename_i hc
      cases ho
      exact ⟨rfl, rfl, hc⟩
    · rename_i hc
      cases ho
      exact ⟨rfl, .inl ⟨.inl (by simpa [Incoming.start] using hc), rfl⟩⟩
  | parse =>
    rw [hpc] at hat
    obtain ⟨hw, hc⟩ := hat
    subst hw
    have hl0 : log = [] := List.map_eq_nil_iff.mp hl
    subst hl0
    simp only [Worker.step] at ho
    cases ho
    exact ⟨rfl, planned_parse hc rfl⟩
  | tail acts =>
    rw [hpc] at hat
    cases acts with
    | nil => simp [Worker.step, hpc] at ho
    | cons a as =>
      simp only [Worker.step, hpc, Option.some.injEq] at ho
      subst ho
      exact planned_act hl hat
  | _ =>
    rw [hpc] at hat
    obtain ⟨ht, hs⟩ := hat
    obtain ⟨acts, hfo⟩ := step_follows ho (by rw [hpc]; rfl)
    rw [hpc] at hfo
    rw [hfo.line]
    exact planned_flow hl ht hs hfo.flow hfo.trace

end

theorem handler_planned {E : Env} {q : Incoming} {s : Solo} (h : (handler E q).Reachable s) :
    Planned q s := by
  have hI : (handler E q).Inductive (Planned q) :=
    ⟨by rintro s rfl; exact ⟨rfl, rfl⟩, fun s l s' h hst => planned_step h hst⟩
  exact hI.reachable s h

/-- **Handler discipline.** Whatever the client sends and whatever the calls
return, a handler that has returned kept it. -/
theorem handler_disciplined (E : Env) (q : Incoming) (s : Solo) (hr : (handler E q).Reachable s)
    (hd : s.worker.pc = .done) : Disciplined (Silent q) s.worker.trace s.log := by
  obtain ⟨hl, hat⟩ := handler_planned hr
  rw [hd, Pc.done, PlannedAt, List.append_nil] at hat
  rcases hat with ⟨hs, ht⟩ | ⟨hs, res, ht⟩
  · rw [ht] at hl ⊢; exact disciplined_silent hs hl
  · exact ht.disciplined hs hl

/-- `GET /a`, in one segment. -/
def getA : Incoming := { client := ⟨ascii "GET /a HTTP/1.1\r\n\r\n", []⟩ }

/-- In an empty directory it takes eight steps. -/
theorem handler_disciplined_getA : ∃ s, (handler ⟨[], 1, 2⟩ getA).Reachable s ∧
    s.worker.pc = .done ∧ Disciplined (Silent getA) s.worker.trace s.log := by
  have hrun : ((LTS.exec (Solo.step ⟨[], 1, 2⟩) ⟨getA.start, []⟩
      (List.replicate 8 (fun _ _ => true, fun _ => none))).map fun s => s.worker.pc) =
        some .done := by decide
  obtain ⟨s, hs, hd⟩ := Option.map_eq_some_iff.mp hrun
  have hr : (handler ⟨[], 1, 2⟩ getA).Reachable s := ⟨_, _, rfl, LTS.run_of_exec _ _ _ hs⟩
  exact ⟨s, hr, hd, handler_disciplined _ _ s hr hd⟩

end HttpC.L3
