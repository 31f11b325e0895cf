import HttpC.L3Handler.Guard

/-!
# What a handler writes in the log

`audit_send_response` (src/httpserver.c:392-400) prints the connection's
method, URI and request id; nothing past `conn_parse` changes them. So the
lines of a connection are those of its audits, printed for the connection
`conn_parse` left (`handler_lines`), whatever way it left it.
-/
namespace HttpC.L3
open HttpC.L1.Util HttpC.L2 HttpC.Flock

/-- The connection `conn_parse` leaves, accepted or not. -/
def Incoming.parsed (q : Incoming) : Conn UInt8 := (connParse q.oracle.regcomp q.client).2.1

/-- The audit line of a connection answered `res`. -/
def auditLine (c : Conn UInt8) (res : Response) : LogLine :=
  ⟨requestGetStr c.request, c.uri, responseGetCode res, c.requestId⟩

/-- The lines follow the audits of the trace. -/
structure Honest (q : Incoming) (s : Solo) : Prop where
  planned : Planned q s
  conn : q.oracle.calloc = true → s.worker.pc ≠ .new → s.worker.pc ≠ .parse →
    s.worker.conn = q.parsed
  lines : s.log = (audits s.worker.trace).map (auditLine q.parsed)

section
variable {q : Incoming} {E : Env} {w : Worker}

theorem not_silent_calloc (h : ¬ Silent q) : q.oracle.calloc = true := by
  cases hc : q.oracle.calloc with
  | true => rfl
  | false => exact absurd (.inl hc) h

/-- What is audited is audited of a connection that was parsed. -/
theorem honest_act {log : List LogLine} {files : Files} {a : Act} {as : List Act}
    (h : Honest q ⟨w, log⟩) (hpc : w.pc = .tail (a :: as)) :
    Honest q ⟨(w.act files a as).worker, log ++ (w.act files a as).line.toList⟩ := by
  obtain ⟨hl, hat⟩ := h.planned
  have hlines := h.lines
  simp only at hl hat hlines
  rw [hpc] at hat
  have hconn : q.oracle.calloc = true → w.conn = q.parsed := fun hc =>
    h.conn hc (by simp only [hpc]; simp) (by simp only [hpc]; simp)
  have htr : (w.act files a as).worker.trace = w.trace ++ [a] := by cases a <;> rfl
  have hcn : (w.act files a as).worker.conn = w.conn := by cases a <;> rfl
  refine ⟨planned_act hl hat, fun hc _ _ => ?_, ?_⟩
  · simp only [hcn]; exact hconn hc
  · simp only [htr, audits_append, List.map_append, hlines]
    congr 1
    cases a
    case audit res =>
      have hs : ¬ Silent q := by
        rcases hat with ⟨-, hw⟩ | ⟨hs, -⟩
        · have := congrArg audits hw
          simp [audits_append, audits] at this
        · exact hs
      have hc := hconn (not_silent_calloc hs)
      simp only [Worker.act, Worker.auditSendResponse, Option.toList_some, audits, List.map_cons,
        List.map_nil, auditLine, hc]
    all_goals rfl

theorem honest_step {s s' : Solo} {around : (Bytes → Mode → Bool) × Files} (h : Honest q s)
    (hst : s.step E around = some s') : Honest q s' := by
  obtain ⟨w, log⟩ := s
  obtain ⟨o, ho, rfl⟩ := Option.map_eq_some_iff.mp hst
  have hpl := planned_step h.planned hst
  have hat := h.planned.2
  have hlines := h.lines
  simp only at hat ho hlines
  cases hpc : w.pc with
  | new =>
    rw [hpc] at hat
    subst hat
    simp only [Worker.step, hpc] at ho
    split at ho
    · cases ho
      exact ⟨hpl, fun _ _ hp => absurd rfl hp, by simpa using hlines⟩
    · rename_i hc
      cases ho
      exact ⟨hpl, fun hc' => absurd hc' hc, by simpa using hlines⟩
  | parse =>
    rw [hpc] at hat
    obtain ⟨hw, -⟩ := hat
    subst hw
    simp only [Worker.step] at ho
    cases ho
    exact ⟨hpl, fun _ _ _ => rfl, by simpa using hlines⟩
  | tail acts =>
    cases acts with
    | nil => simp [Worker.step, hpc] at ho
    | cons a as =>
      simp only [Worker.step, hpc, Option.some.injEq] at ho
      subst ho
      exact honest_act h hpc
  | _ =>
    obtain ⟨acts, hfo⟩ := step_follows ho (by rw [hpc]; rfl)
    refine ⟨hpl, fun hc _ _ => ?_, ?_⟩
    · simp only [hfo.conn]
      exact h.conn hc (by simp only [hpc]; simp) (by simp only [hpc]; simp)
    · simp only [hfo.line, hfo.trace, audits_append, hfo.flow.audits, hlines]
      simp

/-- At most one audit, ever. -/
theorem Planned.audits_le {s : Solo} (h : Planned q s) : (audits s.worker.trace).length ≤ 1 := by
  have hat := h.2
  cases hpc : s.worker.pc with
  | tail acts =>
    rw [hpc] at hat
    have hle : (audits (s.worker.trace ++ acts)).length ≤ 1 := by
      rcases hat with ⟨-, ht⟩ | ⟨-, res, hseq⟩
      · rw [ht]; decide
      · rw [hseq.once.2]; exact Nat.le_refl 1
    rw [audits_append, List.length_append] at hle
    omega
  | new =>
    rw [hpc] at hat
    rw [show s.worker = q.start from hat]; exact Nat.zero_le 1
  | parse =>
    rw [hpc] at hat
    rw [hat.1]; exact Nat.zero_le 1
  | _ =>
    rw [hpc] at hat
    rw [hat.1, audits_past]; exact Nat.zero_le 1

end

/-- **The lines of a connection** are those of its audits, at most one, printed
for the connection `conn_parse` left. -/
theorem handler_lines {E : Env} {q : Incoming} {s : Solo} (h : (handler E q).Reachable s) :
    s.log = (audits s.worker.trace).map (auditLine q.parsed) ∧
      (audits s.worker.trace).length ≤ 1 := by
  have hI : (handler E q).Inductive (Honest q) := by
    refine ⟨?_, fun s l s' hs hst => honest_step hs hst⟩
    intro s hh
    subst hh
    exact ⟨⟨rfl, rfl⟩, fun _ hn => absurd rfl hn, rfl⟩
  have := hI.reachable s h
  exact ⟨this.lines, this.planned.audits_le⟩

/-! ## Requests refused without a lock -/

/-- What a handler does for a request that `handle_connection` answers `res`
itself. -/
def RefusedAt (res : Response) (w : Worker) : Pc → Prop
  | .new | .parse => True
  | .tail acts => w.trace ++ acts = [.respond res, .audit res, .closeConn]
  | _ => False

theorem refused_step {E : Env} {q : Incoming} {res : Response} {w : Worker}
    {free : Bytes → Mode → Bool} {files : Files} {o : Outcome} (hc : q.oracle.calloc = true)
    (hd : dispatch (connParse q.oracle.regcomp q.client).1 q.parsed = exitPlain res)
    (hpl : PlannedAt q w w.pc) (h : RefusedAt res w w.pc) (ho : w.step E free files = some o) :
    RefusedAt res o.worker o.worker.pc ∧ o.files = files := by
  cases hpc : w.pc with
  | new =>
    rw [hpc] at hpl
    simp only [Worker.step, hpc] at ho
    rw [show w.oracle.calloc = true by rw [show w = q.start from hpl]; exact hc, if_pos rfl] at ho
    cases ho
    exact ⟨trivial, rfl⟩
  | parse =>
    rw [hpc] at hpl
    obtain ⟨hw, -⟩ := hpl
    subst hw
    simp only [Worker.step] at ho
    cases ho
    refine ⟨?_, rfl⟩
    show RefusedAt res _ (dispatch (connParse q.oracle.regcomp q.client).1 q.parsed)
    rw [hd]; rfl
  | tail acts =>
    cases acts with
    | nil => simp [Worker.step, hpc] at ho
    | cons a as =>
      simp only [Worker.step, hpc, Option.some.injEq] at ho
      subst ho
      rw [hpc] at h
      have h' : w.trace ++ [a] ++ as = [.respond res, .audit res, .closeConn] := by
        rw [List.append_assoc]; exact h
      cases a <;> exact ⟨h', rfl⟩
  | _ => rw [hpc] at h; exact h.elim

/-- **A refused request** only ever answers, audits and closes. -/
theorem refused {E : Env} {q : Incoming} {s : Solo} {res : Response} (hc : q.oracle.calloc = true)
    (hd : dispatch (connParse q.oracle.regcomp q.client).1 q.parsed = exitPlain res)
    (h : (handler E q).Reachable s) : RefusedAt res s.worker s.worker.pc := by
  have hI : (handler E q).Inductive fun s => Planned q s ∧ RefusedAt res s.worker s.worker.pc := by
    refine ⟨?_, ?_⟩
    · intro s hh
      subst hh
      exact ⟨⟨rfl, rfl⟩, trivial⟩
    · intro s l s' hh hst
      obtain ⟨hp, hr⟩ := hh
      refine ⟨planned_step hp hst, ?_⟩
      obtain ⟨o, ho, rfl⟩ := Option.map_eq_some_iff.mp hst
      exact (refused_step hc hd hp.2 hr ho).1
  exact (hI.reachable s h).2

end HttpC.L3
