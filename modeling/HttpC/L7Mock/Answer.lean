import HttpC.L7Mock.Alone

/-!
# What the mock answers a request alone

As for the C server (`L5Concurrency/Answer`): with every transfer going
through, the answer follows from the outcomes of `access`, `openFile`,
`createFile` and `stat` and from what the file held. `mockGetAnswer` and
`mockPutAnswer` are the tables of `handleConnection`.
-/
namespace HttpC.L7
open HttpC.L1.Util HttpC.L2 HttpC.L3

/-- `errorBody(code)` under its code. -/
def errorAnswer (code : Nat) : Nat × Bytes := (code, errorBody code)

/-- mirrors ztest/mock/main.zig:133-158 -/
def mockGetAnswer (o : MockOracle) (f : Option Bytes) : Nat × Bytes :=
  match o.openErr, f with
  | some e, _ => errorAnswer (getOpenCode e)
  | none, none => errorAnswer (getOpenCode .FileNotFound)
  | none, some c =>
    if o.isDir then errorAnswer 403
    else if c.length ≤ 1 <<< 30 then (200, c)
    else errorAnswer 500

/-- The code for a PUT of `body`, and what the file holds then.
mirrors ztest/mock/main.zig:167-208 -/
def mockPutAnswer (o : MockOracle) (f : Option Bytes) (body : Bytes) : Nat × Option Bytes :=
  match o.openErr with
  | some e => (putOpenCode e, f)
  | none => (if o.access && f.isSome then 200 else 201, some body)

/-! ## The loops -/

/-- `readToEndAlloc` reads to the end. -/
theorem getRead_handling (fuel : Nat) {t : Thread} {acc d : Bytes} (hpc : t.pc = .getRead acc)
    (hc : Cut t.fileReads) (hfuel : d.length < fuel) :
    ∃ ls t', handling.Run (t, some (acc ++ d)) ls (t', some (acc ++ d)) ∧
      t'.pc = (if (acc ++ d).length ≤ 1 <<< 30 then .audit 200 (acc ++ d) else auditError 500) ∧
      t'.sock = t.sock := by
  induction fuel generalizing t acc d with
  | zero => omega
  | succ fuel ih =>
    have hrest : ((some (acc ++ d)).getD []).drop acc.length = d := List.drop_left
    obtain ⟨bs, s, hr, hnil⟩ := retryRead_cut d hc (Nat.succ_pos d.length)
    obtain ⟨hd, -, hsuf⟩ := retryRead_data hr
    cases bs with
    | nil =>
      obtain rfl := hnil rfl
      rw [List.append_nil] at hrest ⊢
      have hstep : handling.step (t, some acc) () (t.getStep (some acc), some acc) := by
        simp only [handling, LTS.ofFn, Thread.serve, hpc]
      refine ⟨_, _, .single hstep, ?_, ?_⟩
      · simp only [Thread.getStep, hpc, hrest, hr]
        split <;> rfl
      · simp only [Thread.getStep, hpc, hrest, hr]
        split <;> rfl
    | cons b bs =>
      have hlt := retryRead_lt hr
      have hstep : handling.step (t, some (acc ++ d)) ()
          ({ t with fileReads := s.script, pc := .getRead (acc ++ b :: bs) }, some (acc ++ d)) := by
        simp only [handling, LTS.ofFn, Thread.serve, hpc, Thread.getStep, hrest, hr]
      obtain ⟨ls, t', hrun, h1, h2⟩ := ih (t := { t with
          fileReads := s.script, pc := .getRead (acc ++ b :: bs) }) (d := s.pending) rfl
        (hc.suffix hsuf) (by omega)
      rw [List.append_assoc, ← hd] at hrun h1
      exact ⟨_, t', .cons hstep hrun, h1, h2⟩

/-- The body transfer reads and stores the rest of the body. -/
theorem putRecv_handling (fuel : Nat) {t : Thread} {ex : Bool} {stored body : Bytes}
    (hpc : t.pc = .putRecv ex stored.length stored.length) (hl : t.task.contentLength = body.length)
    (hb : stored ++ t.client.pending = body) (hc : Cut t.client.script) (hw : Writes t.fileWrites)
    (hfuel : t.client.pending.length < fuel) :
    ∃ ls t', handling.Run (t, some stored) ls (t', some body) ∧
      t'.pc = auditError (if ex then 200 else 201) ∧ t'.sock = t.sock := by
  induction fuel generalizing t stored with
  | zero => omega
  | succ fuel ih =>
    have hlen := congrArg List.length hb
    rw [List.length_append] at hlen
    by_cases hlt : stored.length < t.task.contentLength
    · have hmin : 1 ≤ min 8192 (t.task.contentLength - stored.length) := by omega
      obtain ⟨bs, s, hr, hnil⟩ := retryRead_cut t.client.pending hc hmin
      obtain ⟨hd, -, hsuf⟩ := retryRead_data hr
      cases bs with
      | nil =>
        rw [hnil rfl] at hlen
        simp only [List.length_nil] at hlen
        omega
      | cons b bs =>
        obtain ⟨fd, hfd, hput, hw'⟩ := writeAll_writes (d := ⟨[], t.fileWrites⟩) (b :: bs) hw
        rw [List.nil_append] at hput
        have hstep : handling.step (t, some stored) ()
            ({ t with
              client := s, fileWrites := fd.script,
              pc := .putRecv ex (stored ++ b :: bs).length (stored ++ b :: bs).length,
              fault := t.fault || false }, some (stored ++ b :: bs)) := by
          simp only [handling, LTS.ofFn, Thread.serve, hpc, Thread.putStep, if_pos hlt, hr, hfd, hput,
            Option.getD_some, writeAt_end, List.length_append]
          rfl
        have hless := retryRead_lt hr
        obtain ⟨ls, t', hrun, h1, h2⟩ := ih (t := { t with
            client := s, fileWrites := fd.script,
            pc := .putRecv ex (stored ++ b :: bs).length (stored ++ b :: bs).length,
            fault := t.fault || false }) rfl hl
          (by rw [List.append_assoc, ← hd]; exact hb) (hc.suffix hsuf) hw' (by simp only; omega)
        exact ⟨_, t', .cons hstep hrun, h1, h2⟩
    · -- all there
      have hnil : t.client.pending = [] := List.length_eq_zero_iff.mp (by omega)
      rw [hnil, List.append_nil] at hb
      subst hb
      have hstep : handling.step (t, some stored) ()
          ({ t with pc := auditError (if ex then 200 else 201) }, some stored) := by
        simp only [handling, LTS.ofFn, Thread.serve, hpc, Thread.putStep, if_neg hlt]
      exact ⟨_, _, .single hstep, rfl, rfl⟩

/-! ## To the end -/

/-- A thread that answers `a`. -/
def MockEnded (E : Env) (q : MockIncoming) (files : Files) (T : Task) (files' : Files)
    (a : Nat × Bytes) : Prop :=
  ∃ s, (aloneMock E q files).Reachable s ∧ (s.threads 0).pc = .done ∧ s.files = files' ∧
    (s.threads 0).sock.written = wire a ∧ s.log = audited (T.line a.1)

section
variable {E : Env} {q : MockIncoming} {files : Files} {T : Task} {rest : Src UInt8}

theorem handled_ended {t : Thread} {f : Option Bytes} {ls : List Unit} {a : Nat × Bytes}
    (h : readTask q.client = some (T, rest)) (hm : branch T.method ≠ .other)
    (hrun : handling.Run (q.served T rest, files (E.fileOf T.uri)) ls (t, f))
    (hpc : t.pc = .audit a.1 a.2) (hsock : t.sock = ⟨[], q.sockWrites⟩) (hw : Writes q.sockWrites) :
    MockEnded E q files T (Function.update files (E.fileOf T.uri) f) a := by
  obtain ⟨ms, hserve, htask, hmutex⟩ : ∃ ms, (aloneMock E q files).Run _ ms _ ∧ _ :=
    serve_runs files hrun rfl rfl
  obtain ⟨ns, t', hresp, hdone, hsent, -⟩ :
      ∃ ns t', (aloneMock E q files).Run (locked _ T.uri t) ns (released _ _ _ t') ∧ _ :=
    respond_runs hpc hmutex (by rw [hsock]) (by rw [hsock]; exact hw)
  have htask : t.task = T := htask
  rw [htask] at hresp
  exact ⟨_, ⟨_, _, rfl, ((lock_runs h hm).append hserve).append hresp⟩, hdone, rfl, hsent, rfl⟩

/-- **A GET alone.** -/
theorem mockGet_ended (h : readTask q.client = some (T, rest)) (hm : branch T.method = .get)
    (hr : Cut q.fileReads) (hw : Writes q.sockWrites) :
    MockEnded E q files T files (mockGetAnswer q.oracle (files (E.fileOf T.uri))) := by
  have hother : branch T.method ≠ .other := by rw [hm]; simp
  have hpc : (q.served T rest).pc = .getOpen := by simp [MockIncoming.served, hm]
  have ho : (q.served T rest).oracle = q.oracle := rfl
  -- a run that leaves the file alone
  have hend : ∀ {t ls a}, handling.Run (q.served T rest, files (E.fileOf T.uri)) ls
      (t, files (E.fileOf T.uri)) → t.pc = .audit a.1 a.2 → t.sock = ⟨[], q.sockWrites⟩ →
      MockEnded E q files T files a := by
    intro t ls a hrun hpc hsock
    have := handled_ended h hother hrun hpc hsock hw
    rwa [Function.update_eq_self] at this
  have hopen : handling.step (q.served T rest, files (E.fileOf T.uri)) ()
      ((q.served T rest).getStep (files (E.fileOf T.uri)), files (E.fileOf T.uri)) := by
    simp only [handling, LTS.ofFn, Thread.serve, hpc]
  unfold mockGetAnswer
  split
  · rename_i e hoe
    exact hend (.single hopen) (by simp only [Thread.getStep, hpc, ho, hoe]; rfl)
      (by simp only [Thread.getStep, hpc, ho, hoe]; rfl)
  · rename_i hoe hf
    exact hend (.single hopen) (by simp only [Thread.getStep, hpc, ho, hoe, hf]; rfl)
      (by simp only [Thread.getStep, hpc, ho, hoe, hf]; rfl)
  · rename_i c hoe hf
    rw [hf] at hopen hend
    have hstat : handling.step ({ q.served T rest with pc := .getStat }, some c) ()
        (({ q.served T rest with pc := .getStat } : Thread).getStep (some c), some c) := by
      simp only [handling, LTS.ofFn, Thread.serve]
    have e : (q.served T rest).getStep (some c) = { q.served T rest with pc := .getStat } := by
      simp only [Thread.getStep, hpc, ho, hoe]
    rw [e] at hopen
    split
    · rename_i hd
      have e' : ({ q.served T rest with pc := .getStat } : Thread).getStep (some c) =
          { q.served T rest with pc := auditError 403, fault := true } := by
        simp only [Thread.getStep, ho, hd, if_true]
      rw [e'] at hstat
      exact hend (.cons hopen (.single hstat)) rfl rfl
    · rename_i hd
      have e' : ({ q.served T rest with pc := .getStat } : Thread).getStep (some c) =
          { q.served T rest with pc := .getRead [] } := by
        simp only [Thread.getStep, ho, if_neg hd]
      rw [e'] at hstat
      obtain ⟨ls, t, hrun, htpc, hts⟩ := getRead_handling (c.length + 1)
        (t := { q.served T rest with pc := .getRead [] }) (d := c) rfl hr (Nat.lt_succ_self _)
      rw [List.nil_append] at hrun htpc
      refine hend (.cons hopen (.cons hstat hrun)) ?_ hts
      rw [htpc]
      split <;> rfl

/-- **A PUT alone** whose client sends `body`. -/
theorem mockPut_ended {body : Bytes} (h : readTask q.client = some (T, rest))
    (hm : branch T.method = .put) (hl : T.contentLength = body.length)
    (hb : T.leftover ++ rest.pending = body) (hc : Cut rest.script) (hfw : Writes q.fileWrites)
    (hw : Writes q.sockWrites) :
    let a := mockPutAnswer q.oracle (files (E.fileOf T.uri)) body
    MockEnded E q files T (Function.update files (E.fileOf T.uri) a.2) (errorAnswer a.1) := by
  have hother : branch T.method ≠ .other := by rw [hm]; simp
  have hpc : (q.served T rest).pc = .putAccess := by simp [MockIncoming.served, hm]
  have ho : (q.served T rest).oracle = q.oracle := rfl
  have hend : ∀ {t ls f code}, handling.Run (q.served T rest, files (E.fileOf T.uri)) ls (t, f) →
      t.pc = auditError code → t.sock = ⟨[], q.sockWrites⟩ →
      MockEnded E q files T (Function.update files (E.fileOf T.uri) f) (errorAnswer code) :=
    fun hrun hpc hsock => handled_ended h hother hrun hpc hsock hw
  generalize hf : files (E.fileOf T.uri) = f at hend ⊢
  generalize hex : (q.oracle.access && f.isSome) = ex
  have haccess : handling.step (q.served T rest, f) ()
      ({ q.served T rest with pc := .putCreate ex, fault := false || ex != f.isSome }, f) := by
    simp only [handling, LTS.ofFn, Thread.serve, hpc, Thread.putStep, ho, hex]
    rfl
  generalize (false || ex != f.isSome) = flt at haccess
  unfold mockPutAnswer
  cases hoe : q.oracle.openErr with
  | some e =>
    have hcreate : handling.step ({ q.served T rest with pc := .putCreate ex, fault := flt }, f) ()
        ({ q.served T rest with pc := auditError (putOpenCode e), fault := true }, f) := by
      simp only [handling, LTS.ofFn, Thread.serve, Thread.putStep, ho, hoe]
    exact hend (.cons haccess (.single hcreate)) rfl rfl
  | none =>
    have hcreate : handling.step ({ q.served T rest with pc := .putCreate ex, fault := flt }, f) ()
        ({ q.served T rest with pc := .putLeft ex, fault := flt }, some []) := by
      simp only [handling, LTS.ofFn, Thread.serve, Thread.putStep, ho, hoe]
    obtain ⟨fd, hfd, hput, hfw'⟩ := writeAll_writes (d := ⟨[], q.fileWrites⟩) T.leftover hfw
    rw [List.nil_append] at hput
    have hat : writeAt [] 0 T.leftover = T.leftover := writeAt_end [] _
    have hleft : handling.step ({ q.served T rest with pc := .putLeft ex, fault := flt }, some []) ()
        ({ q.served T rest with
          fileWrites := fd.script, pc := .putRecv ex T.leftover.length T.leftover.length,
          fault := flt || false }, some T.leftover) := by
      have hfw₀ : (q.served T rest).fileWrites = q.fileWrites := rfl
      have ht₀ : (q.served T rest).task = T := rfl
      simp only [handling, LTS.ofFn, Thread.serve, Thread.putStep, hfw₀, ht₀, hfd, hput,
        Option.getD_some, hat]
      rfl
    obtain ⟨ls, t, hrun, htpc, hts⟩ := putRecv_handling (rest.pending.length + 1)
      (t := { q.served T rest with
        fileWrites := fd.script, pc := .putRecv ex T.leftover.length T.leftover.length,
        fault := flt || false }) rfl hl hb hc hfw' (Nat.lt_succ_self _)
    simp only [hex]
    exact hend (.cons haccess (.cons hcreate (.cons hleft hrun))) htpc hts

end

end HttpC.L7
