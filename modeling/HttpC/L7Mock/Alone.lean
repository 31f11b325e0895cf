import HttpC.L7Mock.Locks

/-!
# One connection on its own

With nobody else around a thread gets its locks at once, and what is left of
`handleConnection` is a run of the handler on the request's file
(`serve_runs`) between a fixed beginning (`lock_runs`) and a fixed end
(`respond_runs`).
-/
namespace HttpC.L7
open HttpC.L1.Util HttpC.L2 HttpC.L3

/-- The mock with nothing but this connection. -/
abbrev aloneMock (E : Env) (q : MockIncoming) (files : Files) : LTS (Mock 1) (Fin 1) :=
  mock E (fun _ => q) files

theorem set_one (s : Mock 1) (t : Thread) : s.set 0 t = { s with threads := fun _ => t } := by
  have : Function.update s.threads 0 t = fun _ => t := by
    funext i
    rw [Subsingleton.elim i 0, Function.update_self]
  simp only [Mock.set, this]

/-- **One end.** -/
theorem aloneMock_unique {E : Env} {q : MockIncoming} {files : Files} {s t : Mock 1}
    (hs : (aloneMock E q files).Reachable s) (ht : (aloneMock E q files).Reachable t)
    (hds : (s.threads 0).pc = .done) (hdt : (t.threads 0).pc = .done) : s = t := by
  obtain ⟨s₀, ls, rfl, hrs⟩ := hs
  obtain ⟨t₀, ms, rfl, hrt⟩ := ht
  have stuck : ∀ u : Mock 1, (u.threads 0).pc = .done → ∀ i, u.step E i = none := by
    intro u hu i
    obtain rfl : i = 0 := Subsingleton.elim _ _
    simp only [Mock.step, hu]
  exact hrs.stuck_unique hrt (stuck s hds) (stuck t hdt)

/-- The thread holds the mutex of `uri`. -/
def locked (files : Files) (uri : Bytes) (t : Thread) : Mock 1 where
  files := files
  table := Function.update (fun _ => none) uri (some 0)
  fresh := 1
  held := Function.update (fun _ => none) 0 (some 0)
  threads _ := t

/-- The thread has given it back. -/
def released (files : Files) (uri : Bytes) (log : List (Fin 1 × LogLine)) (t : Thread) : Mock 1 where
  files := files
  table := Function.update (fun _ => none) uri (some 0)
  fresh := 1
  log := log
  threads _ := t

/-- Where a handler starts. -/
def MockIncoming.served (q : MockIncoming) (T : Task) (rest : Src UInt8) : Thread :=
  { q.start with
    task := T, client := rest, mutex := some 0,
    pc := if branch T.method = .put then .putAccess else .getOpen }

section
variable {E : Env} {q : MockIncoming} {files files₀ : Files} {T : Task} {rest : Src UInt8}

/-- From the first byte to the URI's mutex. -/
theorem lock_runs (h : readTask q.client = some (T, rest)) (hm : branch T.method ≠ .other) :
    (aloneMock E q files).Run { files, threads := fun _ => q.start } [0, 0, 0, 0, 0, 0]
      (locked files T.uri (q.served T rest)) := by
  apply LTS.run_of_exec _ _ _
  have hc : q.start.client = q.client := rfl
  have hp : q.start.pc = .start := rfl
  simp only [LTS.exec, Mock.step, hp, hc, h, if_neg hm, set_one, Option.bind_some, if_true]
  simp only [locked, MockIncoming.served, MockIncoming.start, Nat.zero_add]

/-- A handler between its lock and its audit line, on its file. -/
def Thread.serve (t : Thread) (f : Option Bytes) : Option (Thread × Option Bytes) :=
  match t.pc with
  | .getOpen | .getStat | .getRead _ => some (t.getStep f, f)
  | .putAccess | .putCreate _ | .putLeft _ | .putRecv _ _ _ => some (t.putStep f)
  | _ => none

def handling : LTS (Thread × Option Bytes) Unit := .ofFn (fun _ => True) fun p _ => p.1.serve p.2

theorem serve_keeps {t : Thread} {f : Option Bytes} {p : Thread × Option Bytes}
    (h : t.serve f = some p) : Keeps t p.1 := by
  cases hpc : t.pc <;> simp only [Thread.serve, hpc] at h <;> cases h
  case getOpen => exact getStep_keeps _ (.inl hpc)
  case getStat => exact getStep_keeps _ (.inr (.inl hpc))
  case getRead acc => exact getStep_keeps _ (.inr (.inr ⟨acc, hpc⟩))
  case putAccess => exact putStep_keeps _ (.inl hpc)
  case putCreate ex => exact putStep_keeps _ (.inr (.inl ⟨ex, hpc⟩))
  case putLeft ex => exact putStep_keeps _ (.inr (.inr (.inl ⟨ex, hpc⟩)))
  case putRecv ex w off => exact putStep_keeps _ (.inr (.inr (.inr ⟨ex, w, off, hpc⟩)))

theorem serve_step {t : Thread} {p : Thread × Option Bytes}
    (h : t.serve (files (E.fileOf t.task.uri)) = some p) :
    Mock.step E (locked files t.task.uri t) 0 =
      some (locked (Function.update files (E.fileOf t.task.uri) p.2) t.task.uri p.1) := by
  cases hpc : t.pc <;> simp only [Thread.serve, hpc] at h <;> cases h
  all_goals simp only [Mock.step, locked, hpc, set_one, Function.update_eq_self]

/-- **What a handler does, the mock does.** -/
theorem serve_runs (files : Files) {p : Thread × Option Bytes} {t : Thread} {ls : List Unit}
    {uri : Bytes} (h : handling.Run (t, files (E.fileOf uri)) ls p) (hu : t.task.uri = uri)
    (hm : t.mutex = some 0) :
    ∃ ms, (aloneMock E q files₀).Run (locked files uri t) ms
        (locked (Function.update files (E.fileOf uri) p.2) uri p.1) ∧
      p.1.task = t.task ∧ p.1.mutex = some 0 := by
  generalize he : (t, files (E.fileOf uri)) = p₀ at h
  induction h generalizing t files with
  | nil p =>
    subst he
    exact ⟨[], by rw [Function.update_eq_self]; exact .nil _, rfl, hm⟩
  | @cons p p₁ p₂ l ls hst _ ih =>
    subst he hu
    have hst : t.serve (files (E.fileOf t.task.uri)) = some p₁ := hst
    have hk := serve_keeps hst
    have htask : p₁.1.task = t.task := hk.task (by rw [hm]; simp)
    obtain ⟨ms, hr, h1, h2⟩ := ih (Function.update files (E.fileOf t.task.uri) p₁.2) (t := p₁.1)
      (by rw [htask]) (hk.mutex.trans hm) (by rw [Function.update_self])
    rw [Function.update_idem] at hr
    exact ⟨0 :: ms, .cons (serve_step hst) hr, h1.trans htask, h2⟩

/-- What `writeAudit` adds to the log. -/
def audited (l : LogLine) : List (Fin 1 × LogLine) :=
  if (auditText l).length ≤ LINE_MAX then [(0, l)] else []

/-- The audit line and the unlock. -/
theorem audit_runs {t : Thread} {uri : Bytes} {code : Nat} {body : Bytes}
    (hpc : t.pc = .audit code body) (hm : t.mutex = some 0) :
    (aloneMock E q files₀).Run (locked files uri t) [0, 0]
      (released files uri (audited (t.task.line code)) { t with pc := .sendHead code body }) := by
  have h1 : Mock.step E (locked files uri t) 0 =
      some { locked files uri { t with pc := .unlock code body } with
        log := audited (t.task.line code) } := by
    simp only [Mock.step, locked, hpc, hm, set_one, reduceCtorEq, if_false]
    rfl
  have h2 : Mock.step E { locked files uri { t with pc := .unlock code body } with
        log := audited (t.task.line code) } 0 =
      some (released files uri (audited (t.task.line code)) { t with pc := .sendHead code body }) := by
    simp only [Mock.step, locked, hm, set_one, released, Function.update_idem, Function.update_eq_self]
  exact .cons h1 (.single h2)

/-- **From the audit line to the end.** -/
theorem respond_runs {t : Thread} {uri : Bytes} {code : Nat} {body : Bytes}
    (hpc : t.pc = .audit code body) (hm : t.mutex = some 0) (hsock : t.sock.written = [])
    (hw : Writes t.sock.script) :
    ∃ ms t', (aloneMock E q files₀).Run (locked files uri t) ms
        (released files uri (audited (t.task.line code)) t') ∧
      t'.pc = .done ∧ t'.sock.written = wire (code, body) ∧ t'.fault = t.fault := by
  have hrun : (aloneMock E q files₀).Run (locked files uri t) _ _ := audit_runs hpc hm
  have hsend : ∀ t', (t'.pc = .sendHead code body ∨ t'.pc = .sendBody body) →
      Mock.step E (released files uri (audited (t.task.line code)) t') 0 =
        some (released files uri (audited (t.task.line code)) t'.sendStep) := by
    rintro t' (h | h) <;> simp only [Mock.step, released, h, set_one]
  obtain ⟨d, hd, hd1, hd2⟩ := writeAll_writes (responseHead code body.length) hw
  rw [hsock, List.nil_append] at hd1
  let t₁ : Thread := { t with pc := .sendHead code body }
  have ht₁ : t₁.sendStep =
      { t with sock := d, pc := if 0 < body.length then .sendBody body else .done } := by
    simp only [Thread.sendStep, t₁, hd]
  have hrun₁ := hrun.append (.single (hsend t₁ (.inl rfl)))
  by_cases hb : 0 < body.length
  · -- a second write for the body
    rw [if_pos hb] at ht₁
    rw [ht₁] at hrun₁
    obtain ⟨d', hd', hd1', -⟩ := writeAll_writes body hd2
    have ht₂ : ({ t with sock := d, pc := .sendBody body } : Thread).sendStep =
        { t with sock := d', pc := .done } := by
      simp only [Thread.sendStep, hd']
    have hrun₂ := hrun₁.append (.single (hsend _ (.inr rfl)))
    rw [ht₂] at hrun₂
    exact ⟨_, _, hrun₂, rfl, by rw [hd1', hd1]; rfl, rfl⟩
  · rw [if_neg hb] at ht₁
    rw [ht₁] at hrun₁
    refine ⟨_, _, hrun₁, rfl, ?_, rfl⟩
    have hnil : body = [] := List.length_eq_zero_iff.mp (by omega)
    show d.written = _
    rw [hd1, wire, hnil, List.append_nil]

end

end HttpC.L7
