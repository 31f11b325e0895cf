import HttpC.L7Mock.Alone
import HttpC.L7Mock.Linear
import HttpC.L7Mock.Request

/-!
# The mock drops an audit line that does not fit its buffer

`writeAudit` prints the line into 1024 bytes and returns without a word when
`bufPrint` fails (ztest/mock/main.zig:49-50); `auditAndRespond` sends the
response all the same. A client decides the length of its request id, so a
long enough one gets an answer, and a PUT its effect, without a line. The C
server's `log_audit` has no such limit.

While every line fits, the log is what the mock is for: `log_strict`.

Fix: format the line into the log's writer, or into the connection's arena.
-/
namespace HttpC.Bugs.AuditDropped
open HttpC.L1.Util HttpC.L2 HttpC.L3 HttpC.L6 HttpC.L7

/-- What the mock's log owes in state `s`. -/
structure Strict {n : Nat} (E : Env) (jobs : Fin n → Job) (files₀ : Files) (s : Mock n) : Prop where
  mutex : ∀ i j m m', (jobs i).task.uri = (jobs j).task.uri → (s.threads i).mutex = some m →
    (s.threads j).mutex = some m' → m = m'
  replays : ∀ pre i l post, s.log = pre ++ (i, l) :: post →
    l = (jobs i).line (replyAfter E jobs files₀ pre i) ∧
      (s.threads i).sock.written <+: wire (answer (replyAfter E jobs files₀ pre i)) ∧
      ((s.threads i).pc = .done →
        (s.threads i).sock.written = wire (answer (replyAfter E jobs files₀ pre i)))
  once : ∀ i, (s.threads i).pc = .done → (s.log.map Prod.fst).count i = 1
  files : (∀ i, (s.threads i).pc = .done) → s.files = replayed E jobs files₀ s.log
  logged : ∀ i, (s.threads i).sock.written ≠ [] → ∃ l, (i, l) ∈ s.log

/-- **While every line fits, the log is a strict linearization**, in every
state of every interleaving in which no call has failed. -/
theorem log_strict {n : Nat} (E : Env) (jobs : Fin n → Job) (files₀ : Files)
    (hfit : ∀ i, Fits (jobs i).task) (s : Mock n)
    (hs : (mock E (fun i => (jobs i).incoming) files₀).Reachable s)
    (hf : ∀ i, (s.threads i).fault = false) : Strict E jobs files₀ s := by
  have h := mock_linear hfit hs hf
  have hl := mock_locks hs
  refine ⟨fun i j m m' hu hi hj => ?_, fun pre i l post he => ?_, fun i hd => ?_, fun hd => ?_,
    fun i hw => ?_⟩
  · -- a thread with a mutex has read its request
    have htask : ∀ {i m}, (s.threads i).mutex = some m → (s.threads i).task = (jobs i).task := by
      intro i m hm
      apply (h.place i).task
      intro hpc
      rw [(hl.thread i).start hpc] at hm
      cases hm
    exact hl.same (by rw [htask hi, htask hj, hu]) hi hj
  · obtain ⟨h1, h2⟩ := h.lines pre i l post he
    exact ⟨h1, h2.sent⟩
  · rw [h.once i, hd]; rfl
  · funext x
    rcases h.agree x with ha | ⟨i, -, hin⟩
    · exact ha
    · rw [hd i] at hin
      cases hin
  · have hlate : (s.threads i).pc.late = true := by
      by_contra hn
      exact hw ((h.place i).unsent (by simpa using hn))
    obtain ⟨pre, l, post, he⟩ := h.logged hlate
    exact ⟨l, by rw [he]; simp⟩

/-! ## Two requests -/

/-- `PUT /a` of two bytes, the second one in a segment of its own. -/
def putHi : MockIncoming where
  client := ⟨ascii "PUT /a HTTP/1.1\r\nContent-Length: 2\r\n\r\nhi", [.got 38, .got 0]⟩

def getA : MockIncoming where
  client := ⟨ascii "GET /a HTTP/1.1\r\nRequest-Id: 7\r\n\r\n", []⟩

theorem flat_a : Flat (ascii "a") := ⟨by decide, by decide, by decide, by decide, by decide⟩

def twoJobs : Fin 2 → Job
  | 0 => ⟨putHi, ⟨ascii "PUT", ascii "a", ascii "0", 2, ascii "h"⟩, ⟨ascii "i", [.got 0]⟩, by decide,
      by decide, flat_a⟩
  | 1 => ⟨getA, ⟨ascii "GET", ascii "a", ascii "7", 0, []⟩, ⟨[], []⟩, by decide, by decide, flat_a⟩

/-- One interleaving: the GET is in the lock table first but the PUT gets the
mutex; the GET reads what was stored while the PUT answers. -/
theorem log_strict_twoJobs : ∃ s, (mock ⟨[], 1, 2⟩ (fun i => (twoJobs i).incoming)
      fun _ => none).Reachable s ∧ s.log.map Prod.fst = [0, 1] ∧
    (s.threads 1).sock.written = wire (200, ascii "hi") ∧
    Strict ⟨[], 1, 2⟩ twoJobs (fun _ => none) s := by
  have hrun : ((LTS.exec (Mock.step ⟨[], 1, 2⟩)
      { files := fun _ => none, threads := fun i : Fin 2 => (twoJobs i).incoming.start }
      ([1, 1, 1, 0, 1, 1] ++ List.replicate 11 0 ++ [1, 0] ++ List.replicate 8 1)).map fun s =>
        (s.log.map Prod.fst, (s.threads 1).sock.written, (s.threads 0).fault, (s.threads 1).fault)) =
      some ([0, 1], wire (200, ascii "hi"), false, false) := by decide
  obtain ⟨s, hs, hd⟩ := Option.map_eq_some_iff.mp hrun
  simp only [Prod.mk.injEq] at hd
  obtain ⟨hlog, hsock, h0, h1⟩ := hd
  have hr : (mock ⟨[], 1, 2⟩ (fun i => (twoJobs i).incoming) fun _ => none).Reachable s :=
    ⟨_, _, rfl, LTS.run_of_exec _ _ _ hs⟩
  have hfit : ∀ i, Fits (twoJobs i).task := by
    intro i
    match i with
    | 0 => unfold Fits; decide
    | 1 => unfold Fits; decide
  have hf : ∀ i, (s.threads i).fault = false := by
    intro i
    match i with
    | 0 => exact h0
    | 1 => exact h1
  exact ⟨s, hr, hlog, hsock, log_strict _ _ _ hfit s hr hf⟩

/-! ## A line that does not fit -/

/-- A GET of a file that is not there whose line does not fit is answered and
not logged. -/
theorem missing_unlogged (E : Env) {q : MockIncoming} {T : Task} {rest : Src UInt8}
    (hread : readTask q.client = some (T, rest)) (hget : branch T.method = .get)
    (hopen : q.oracle.openErr = none) (hw : Writes q.sockWrites)
    (hbig : ¬ (auditText (T.line 404)).length ≤ LINE_MAX) :
    ∃ s, (aloneMock E q fun _ => none).Reachable s ∧ (s.threads 0).fault = false ∧
      (s.threads 0).sock.written = wire (404, errorBody 404) ∧ s.log = [] := by
  let t : Thread := { q.served T rest with pc := auditError 404 }
  have hserve : handling.Run (q.served T rest, none) [()] (t, none) := by
    refine .single ?_
    show Thread.serve _ _ = _
    simp [Thread.serve, MockIncoming.served, hget, Thread.getStep, MockIncoming.start, hopen, t,
      getOpenCode]
  have hlock : (aloneMock E q fun _ => none).Run _ _ _ := lock_runs hread (by rw [hget]; decide)
  obtain ⟨ms, hhandle, -⟩ := serve_runs (E := E) (fun _ => none) (q := q) hserve rfl rfl
  obtain ⟨ms', t', hend, -, hsock, hfault⟩ := respond_runs (E := E) (q := q) (t := t) rfl rfl rfl hw
  refine ⟨_, ⟨_, _, rfl, hlock.append (hhandle.append hend)⟩, hfault, hsock, ?_⟩
  exact if_neg hbig

/-- `11...1` -/
def ones (n : Nat) : Bytes := List.replicate n 49

theorem ones_length (n : Nat) : (ones n).length = n := List.length_replicate

/-- `GET /a`, with a request id of `n` digits. -/
def lineA : ReqLine := ⟨ascii "GET", ascii "a", ascii "1", 46, ascii "1"⟩
def idField (n : Nat) : Field := ⟨REQUEST_ID_KEY, 32, ones n⟩
def getOnes (n : Nat) : MockIncoming where
  client := ⟨printed lineA [idField n], []⟩

theorem getOnes_read {n : Nat} (hn : n ≤ 2000) :
    ∃ rest, readTask (getOnes n).client = some (⟨ascii "GET", ascii "a", ones n, 0, []⟩, rest) := by
  have hline : lineA.Ok := by decide
  have hfield : ∀ f ∈ [idField n], Plain f := by
    refine List.forall_mem_singleton.mpr ⟨by simp only [idField]; decide,
      List.all_eq_true.mp (by simp only [idField]; decide), rfl, fun x hx => ?_⟩
    rw [List.eq_of_mem_replicate hx]
    decide
  have hline_len : lineA.text.length = 17 := by decide
  have hkey : REQUEST_ID_KEY.length = 10 := by decide
  have hlen : (printed lineA [idField n]).length ≤ 1 <<< 20 := by
    simp only [printed, idField, List.length_append, List.map_cons, List.map_nil, List.flatten_cons,
      List.flatten_nil, Field.text_length, ones_length, hline_len, hkey, List.length_cons, List.length_nil]
    omega
  obtain ⟨k, rest, hread, -⟩ := readTask_printed (B := []) (s := (getOnes n).client) hline hfield hlen
    (List.append_nil _).symm (List.forall_mem_nil _)
  rw [List.take_nil] at hread
  exact ⟨rest, hread⟩

/-- **Counterexample**: with 1100 digits the client has its 404, and the log is
empty. -/
theorem long_id_unlogged : ¬ ∀ (n : Nat) (E : Env) (jobs : Fin n → Job) (files₀ : Files) (s : Mock n),
    (mock E (fun i => (jobs i).incoming) files₀).Reachable s →
    (∀ i, (s.threads i).fault = false) → Strict E jobs files₀ s := by
  intro hall
  obtain ⟨rest, hread⟩ := getOnes_read (n := 1100) (by decide)
  let J : Job := ⟨getOnes 1100, _, rest, hread, .inl (by decide), flat_a⟩
  have hbig : ¬ (auditText (J.task.line 404)).length ≤ LINE_MAX := by
    simp only [auditText, Task.line, J, List.length_append, ones_length, LINE_MAX]
    omega
  obtain ⟨s, hs, hf, hsock, hlog⟩ := missing_unlogged ⟨[], 1, 2⟩ hread (by decide) rfl
    (List.forall_mem_nil _) hbig
  have hstrict := hall 1 ⟨[], 1, 2⟩ (fun _ => J) _ s hs fun i => by rw [Subsingleton.elim i 0]; exact hf
  obtain ⟨l, hl⟩ := hstrict.logged 0 (by rw [hsock]; decide)
  rw [hlog] at hl
  cases hl

end HttpC.Bugs.AuditDropped
