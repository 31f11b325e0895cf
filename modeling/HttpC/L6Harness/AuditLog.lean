import HttpC.Core.Text
import HttpC.L3Handler.Lines
import HttpC.L5Concurrency.Audit

/-!
# The audit log as text

`log_audit` (src/log.c) prints a line without escaping anything;
`parseAuditLog` (ztest/src/audit.zig) splits the text at newlines, trims each
line, splits it at commas and reads the numbers. Whatever its clients sent,
the text of a server's log splits into exactly the lines written and each of
them into exactly its four fields (`log_unforgeable`): what reaches a line
went through the URI and header patterns, whose alphabets hold neither
separators nor blanks (`connParse_tame`). When the request ids are numbers the
parser gives the records back.
-/
namespace HttpC.L6
open HttpC.L1.Util HttpC.L2 HttpC.L3 HttpC.L5 HttpC.Text

/-! ## Printing -/

/-- A line of the log, without its newline.
mirrors src/log.c:33 -/
def row (l : LogLine) : Bytes :=
  cstr l.oper ++ 44 :: (cstr l.uri ++ 44 :: (decimal l.status ++ 44 :: cstr l.rid))

/-- mirrors src/log.c:19-37 -/
def logAudit (l : LogLine) : Bytes := row l ++ ascii "\n"

/-- The text of a log. -/
def logText (log : List LogLine) : Bytes := (log.map logAudit).flatten

/-! ## Parsing -/

/-- mirrors ztest/src/audit.zig:19-27 -/
structure Result where
  ok : Bool := true
  messages : List Bytes := []
  deriving DecidableEq, Repr

def Result.fail (r : Result) (message : Bytes) : Result := ⟨false, r.messages ++ [message]⟩

/-- mirrors ztest/src/audit.zig:29-34 -/
structure Op where
  oper : Bytes
  uri : Bytes
  status : UInt16
  rid : Int64
  deriving DecidableEq, Repr

/-- mirrors ztest/src/audit.zig:51-75 -/
def parseLine (lineNo : Nat) (rawLine : Bytes) (acc : List Op × Result) : List Op × Result :=
  let line := trim (ascii " \t\r") rawLine
  let place := ascii "audit log line " ++ decimal lineNo ++ ascii ": "
  if line = [] then acc
  else
    match line.splitOn 44 with
    | [oper, uri, status, rid] =>
      match parseU16 status, parseI64 rid with
      | none, _ =>
        (acc.1, acc.2.fail (place ++ ascii "status " ++ status ++ ascii " is not an integer"))
      | some _, none =>
        (acc.1, acc.2.fail (place ++ ascii "request id " ++ rid ++ ascii " is not an integer"))
      | some status, some rid => (acc.1 ++ [⟨oper, uri, status, rid⟩], acc.2)
    | fields =>
      (acc.1, acc.2.fail (place ++
        ascii "expected 4 comma-separated fields (Oper,URI,Status,RequestID), got " ++
        decimal fields.length ++ ascii ": " ++ line))

/-- The lines from number `lineNo` on. -/
def parseLines : Nat → List Bytes → List Op × Result → List Op × Result
  | _, [], acc => acc
  | lineNo, l :: ls, acc => parseLines (lineNo + 1) ls (parseLine lineNo l acc)

/-- mirrors ztest/src/audit.zig:44-78 -/
def parseAuditLog (text : Bytes) : List Op × Result := parseLines 1 (text.splitOn 10) ([], {})

/-! ## Splitting what was printed -/

/-- No byte that splits or is trimmed, and no NUL. -/
def Inert (s : Bytes) : Prop := ∀ x ∈ s, x ∉ [44, 10, 32, 9, 13, 0]

theorem inert_of_class {p : UInt8 → Bool} (hp : [44, 10, 32, 9, 13, 0].all (fun x => !p x) = true)
    {s : Bytes} (h : ∀ x ∈ s, p x = true) : Inert s := by
  intro x hx hm
  have := List.all_eq_true.mp hp x hm
  rw [h x hx] at this
  cases this

theorem inert_decimal (n : Nat) : Inert (decimal n) := by
  intro x hx hm
  obtain ⟨h1, -⟩ := decimal_digits hx
  have : ([44, 10, 32, 9, 13, 0] : Bytes).all (fun y => decide (y.toNat < 48)) = true := by decide
  have := List.all_eq_true.mp this x hm
  simp only [decide_eq_true_eq] at this
  omega

/-- A line whose texts hold nothing special. -/
structure InertLine (l : LogLine) : Prop where
  oper : Inert l.oper
  uri : Inert l.uri
  rid : Inert l.rid

section
variable {l : LogLine}

theorem row_eq (h : InertLine l) :
    row l = l.oper ++ 44 :: (l.uri ++ 44 :: (decimal l.status ++ 44 :: l.rid)) := by
  have h0 : ∀ {s : Bytes}, Inert s → cstr s = s := fun hs =>
    cstr_eq_self fun h => hs 0 h (by decide)
  rw [row, h0 h.oper, h0 h.uri, h0 h.rid]

/-- **Four fields.** -/
theorem row_fields (h : InertLine l) :
    (row l).splitOn 44 = [l.oper, l.uri, decimal l.status, l.rid] := by
  have hc : ∀ {s : Bytes}, Inert s → (44 : UInt8) ∉ s := fun hs h => hs 44 h (by decide)
  rw [row_eq h, List.splitOn_append_cons_self_of_not_mem (hc h.oper),
    List.splitOn_append_cons_self_of_not_mem (hc h.uri),
    List.splitOn_append_cons_self_of_not_mem (hc (inert_decimal _)),
    List.splitOn_eq_singleton (hc h.rid)]

/-- The only special bytes of a line are its commas. -/
theorem mem_row (h : InertLine l) {x : UInt8} (hx : x ∈ row l) : x ∉ [10, 32, 9, 13] := by
  have hsub : ∀ y ∈ ([10, 32, 9, 13] : Bytes), y ∈ ([44, 10, 32, 9, 13, 0] : Bytes) ∧ y ≠ 44 := by
    intro y hy
    simp only [List.mem_cons, List.not_mem_nil, or_false] at hy ⊢
    rcases hy with rfl | rfl | rfl | rfl <;> decide
  intro hm
  obtain ⟨hs, hne⟩ := hsub x hm
  rw [row_eq h] at hx
  simp only [List.mem_append, List.mem_cons] at hx
  rcases hx with hx | hx | hx | hx | hx | hx | hx
  · exact h.oper x hx hs
  · exact hne hx
  · exact h.uri x hx hs
  · exact hne hx
  · exact inert_decimal _ x hx hs
  · exact hne hx
  · exact h.rid x hx hs

theorem row_trim (h : InertLine l) : trim (ascii " \t\r") (row l) = row l := by
  have e : ascii " \t\r" = [32, 9, 13] := by decide
  rw [e]
  exact trim_eq_self fun x hx hm => mem_row h hx (List.mem_cons_of_mem _ hm)

theorem row_ne_nil (l : LogLine) : row l ≠ [] := by simp [row]

end

/-- **The text splits into the lines.** -/
theorem logText_lines {log : List LogLine} (h : ∀ l ∈ log, InertLine l) :
    (logText log).splitOn 10 = log.map row ++ [[]] := by
  induction log with
  | nil => rfl
  | cons l log ih =>
    obtain ⟨hl, hlog⟩ := List.forall_mem_cons.mp h
    have e : logText (l :: log) = row l ++ 10 :: logText log := by
      have : ascii "\n" = [10] := by decide
      simp [logText, logAudit, this]
    rw [e, List.splitOn_append_cons_self_of_not_mem (fun hm => mem_row hl hm (by decide)), ih hlog]
    rfl

/-- The record of a line. -/
structure Decodes (l : LogLine) (op : Op) : Prop where
  oper : op.oper = l.oper
  uri : op.uri = l.uri
  status : op.status.toNat = l.status
  rid : decimalInt op.rid.toInt = l.rid

theorem parseLine_row {l : LogLine} (h : InertLine l) {op : Op} (hop : Decodes l op)
    (lineNo : Nat) (acc : List Op × Result) :
    parseLine lineNo (row l) acc = (acc.1 ++ [op], acc.2) := by
  have hstatus : parseU16 (decimal l.status) = some op.status := by
    rw [← hop.status, parseU16_decimal op.status.toNat_lt, UInt16.ofNat_toNat]
  have hrid : parseI64 l.rid = some op.rid := by rw [← hop.rid, parseI64_decimalInt]
  unfold parseLine
  simp only [row_trim h, row_ne_nil, if_false, row_fields h, hstatus, hrid]
  rw [← hop.oper, ← hop.uri]

/-- **The parser gives the records back.** -/
theorem parseLines_rows {log : List LogLine} {ops : List Op} (h : ∀ l ∈ log, InertLine l)
    (hops : List.Forall₂ Decodes log ops) (lineNo : Nat) (acc : List Op × Result) :
    parseLines lineNo (log.map row ++ [[]]) acc = (acc.1 ++ ops, acc.2) := by
  induction hops generalizing lineNo acc with
  | nil => simp [parseLines, parseLine, trim]
  | @cons l op log ops hop _ ih =>
    obtain ⟨hl, hlog⟩ := List.forall_mem_cons.mp h
    rw [List.map_cons, List.cons_append, parseLines, parseLine_row hl hop, ih hlog]
    simp

/-! ## The log of a server -/

/-- What is written for a connection. -/
def fieldsOf (c : Conn UInt8) (res : Response) : List Bytes :=
  [requestGetStr c.request, c.uri, decimal (responseGetCode res), c.requestId]

theorem inert_auditLine (q : Incoming) (res : Response) : InertLine (auditLine q.parsed res) := by
  have htame : Tame q.parsed := connParse_tame q.oracle.regcomp q.client
  have hverb : (requestGetStr q.parsed.request).all isAlpha = true := by
    cases q.parsed.request <;> decide
  exact ⟨inert_of_class (p := isAlpha) (by decide) (List.all_eq_true.mp hverb),
    inert_of_class (p := isUri) (by decide) htame.uri,
    inert_of_class (p := isValue) (by decide) htame.id⟩

section
variable {n : Nat} {E : Env} {reqs : Fin n → Incoming} {files : Files} {s : Sys n}

/-- A line in the log is the line of its connection's one audit. -/
theorem log_line (hs : (server E reqs files).Reachable s) {e : Fin n × LogLine} (he : e ∈ s.log) :
    ∃ res, audits (s.workers e.1).trace = [res] ∧ e.2 = auditLine (reqs e.1).parsed res := by
  obtain ⟨hl, hle⟩ := handler_lines (solo_reachable hs e.1)
  have hmem : e.2 ∈ s.linesOf e.1 := mem_linesOf.mpr he
  rw [show s.linesOf e.1 = _ from hl] at hmem
  obtain ⟨res, hres, heq⟩ := List.mem_map.mp hmem
  refine ⟨res, ?_, heq.symm⟩
  cases hau : audits (s.solo e.1).worker.trace with
  | nil => rw [hau] at hres; cases hres
  | cons a as =>
    rw [hau] at hres hle
    obtain rfl : as = [] := List.eq_nil_of_length_eq_zero (by simpa using hle)
    rw [List.mem_singleton] at hres
    rw [hres]; exact hau

theorem count_log (s : Sys n) (i : Fin n) : (s.log.map Prod.fst).count i = (s.linesOf i).length := by
  unfold Sys.linesOf
  induction s.log with
  | nil => rfl
  | cons e log ih =>
    by_cases h : e.1 = i
    · simp [h, ih]
    · simp [h, ih]

end

theorem exists_forall₂ {α β : Type} {R : α → β → Prop} {l : List α} (h : ∀ a ∈ l, ∃ b, R a b) :
    ∃ l', List.Forall₂ R l l' := by
  induction l with
  | nil => exact ⟨[], .nil⟩
  | cons a l ih =>
    obtain ⟨⟨b, hb⟩, hl⟩ := List.forall_mem_cons.mp h
    obtain ⟨l', hl'⟩ := ih hl
    exact ⟨b :: l', .cons hb hl'⟩

/-- The text of the log is one line for each connection that was audited, in
the order of the log; each splits into the fields of its connection and loses
nothing when trimmed. -/
structure Unforgeable {n : Nat} (reqs : Fin n → Incoming) (s : Sys n) : Prop where
  once : (s.log.map Prod.fst).Nodup
  audited : ∀ i, i ∈ s.log.map Prod.fst ↔ audits (s.workers i).trace ≠ []
  lines : (logText (s.log.map Prod.snd)).splitOn 10 = (s.log.map Prod.snd).map row ++ [[]]
  fields : ∀ e ∈ s.log, ∃ res, audits (s.workers e.1).trace = [res] ∧
    (row e.2).splitOn 44 = fieldsOf (reqs e.1).parsed res
  kept : ∀ e ∈ s.log, trim (ascii " \t\r") (row e.2) = row e.2

/-- **The audit log is unforgeable and decodes back**, whatever the clients
sent, whatever the calls returned and however the handlers interleaved. -/
theorem log_unforgeable (n : Nat) (E : Env) (reqs : Fin n → Incoming) (files : Files) (s : Sys n)
    (hs : (server E reqs files).Reachable s) :
    Unforgeable reqs s ∧
      ((∀ e ∈ s.log, ∃ k : Int64, (reqs e.1).parsed.requestId = decimalInt k.toInt) →
        ∃ ops, parseAuditLog (logText (s.log.map Prod.snd)) = (ops, {}) ∧
          List.Forall₂ (fun e op => ∃ res, audits (s.workers e.1).trace = [res] ∧
            Decodes (auditLine (reqs e.1).parsed res) op) s.log ops) := by
  have hinert : ∀ l ∈ s.log.map Prod.snd, InertLine l := by
    intro l hl
    obtain ⟨e, he, rfl⟩ := List.mem_map.mp hl
    obtain ⟨res, -, hline⟩ := log_line hs he
    rw [hline]
    exact inert_auditLine (reqs e.1) res
  refine ⟨⟨?_, ?_, logText_lines hinert, ?_, ?_⟩, ?_⟩
  · rw [List.nodup_iff_count_le_one]
    intro i
    rw [count_log, show s.linesOf i = _ from (handler_lines (solo_reachable hs i)).1, List.length_map]
    exact (handler_lines (solo_reachable hs i)).2
  · intro i
    rw [← List.count_pos_iff, count_log, show s.linesOf i = _ from (handler_lines (solo_reachable hs i)).1,
      List.length_map, List.length_pos_iff]
    rfl
  · intro e he
    obtain ⟨res, hau, hline⟩ := log_line hs he
    exact ⟨res, hau, by rw [row_fields (hinert _ (List.mem_map_of_mem he)), hline]; rfl⟩
  · intro e he
    exact row_trim (hinert _ (List.mem_map_of_mem he))
  · intro hids
    have hrec : ∀ e ∈ s.log, ∃ op, (∃ res, audits (s.workers e.1).trace = [res] ∧
        Decodes (auditLine (reqs e.1).parsed res) op) ∧ Decodes e.2 op := by
      intro e he
      obtain ⟨res, hau, hline⟩ := log_line hs he
      obtain ⟨k, hk⟩ := hids e he
      have hcode : (UInt16.ofNat (responseGetCode res)).toNat = responseGetCode res := by
        cases res <;> decide
      have hdec : Decodes (auditLine (reqs e.1).parsed res)
          ⟨_, _, UInt16.ofNat (responseGetCode res), k⟩ := ⟨rfl, rfl, hcode, hk.symm⟩
      exact ⟨_, ⟨res, hau, hdec⟩, by rw [hline]; exact hdec⟩
    obtain ⟨ops, hops⟩ := exists_forall₂ hrec
    have hdec : List.Forall₂ Decodes (s.log.map Prod.snd) ops :=
      List.forall₂_map_left_iff.mpr (hops.imp fun _ _ h => h.2)
    refine ⟨ops, ?_, hops.imp fun _ _ h => h.1⟩
    rw [parseAuditLog, logText_lines hinert, parseLines_rows hinert hdec]
    rfl

/-- One `GET /a` in an empty directory. -/
theorem log_unforgeable_getA : ∃ s : Sys 1,
    (server ⟨[], 1, 2⟩ (fun _ => getA) fun _ => none).Reachable s ∧
    logText (s.log.map Prod.snd) = ascii "GET,a,404,0\n" ∧ Unforgeable (fun _ => getA) s ∧
    ∃ ops, parseAuditLog (ascii "GET,a,404,0\n") = (ops, {}) ∧ ops.length = 1 := by
  have hrun : ((LTS.exec (Sys.step ⟨[], 1, 2⟩) ⟨fun _ => none, [], fun _ : Fin 1 => getA.start⟩
      (List.replicate 8 0)).map fun s => s.log) =
        some [(0, ⟨ascii "GET", ascii "a", 404, ascii "0"⟩)] := by decide
  obtain ⟨s, hs, hlog⟩ := Option.map_eq_some_iff.mp hrun
  have hr : (server (n := 1) ⟨[], 1, 2⟩ (fun _ => getA) fun _ => none).Reachable s :=
    ⟨_, _, rfl, LTS.run_of_exec _ _ _ hs⟩
  have htext : logText (s.log.map Prod.snd) = ascii "GET,a,404,0\n" := by rw [hlog]; decide
  obtain ⟨hu, hp⟩ := log_unforgeable 1 _ _ _ s hr
  obtain ⟨ops, hops, hall⟩ := hp fun e _ => ⟨0, by decide⟩
  rw [htext] at hops
  exact ⟨s, hr, htext, hu, ops, hops, by rw [← hall.length_eq, hlog]; rfl⟩

end HttpC.L6
