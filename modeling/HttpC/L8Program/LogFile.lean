import HttpC.Core.Tally
import HttpC.L5Concurrency.Progress
import HttpC.L6Harness.AuditLog

/-!
# The log file

src/log.c. In the server (`L5Concurrency/Server.lean`) an audit is one step.
Here it is the call it is: take `log_mu`, look at `log_stream`, `fprintf` into
stdio's buffer piece by piece, `fflush` the buffer to the file piece by piece,
give the mutex back; all handlers interleave between any two of these, and
stdio may write part of its buffer out at any moment of the call. `log_close`
may come in at any time, as src/log.c allows for (`main` has the call behind
its endless loop). `write()` is taken to succeed: the source checks neither
`fprintf` nor `fflush`.

A signal handler calls `_exit` and a crash does not even do that; of the log
only `file` is left then. So `file` in every reachable state is what an auditor
may find.

`kept` is not in the source: it records the lines whose call found the stream
open. The audit counts as done in the step that gives the mutex back, and so
every run of this system is a run of the server (`logging_server`).
-/
namespace HttpC.L8
open HttpC.L1.Util HttpC.L2 HttpC.L3 HttpC.L5 HttpC.L6

/-- Where a thread is in `log_audit`.
mirrors src/log.c:19-37 -/
inductive Stage where
  | idle
  | lock (l : LogLine)
  | check (l : LogLine)
  | print (l : LogLine) (rest : Bytes)
  | flush (l : LogLine)
  | unlock (l : LogLine) (printed : Bool)
  deriving DecidableEq, Repr

/-- Where the caller of `log_close` is.
mirrors src/log.c:39-46 -/
inductive Closer where
  | off | lock | close | unlock | ended
  deriving DecidableEq, Repr

structure Logging (n : Nat) where
  sys : Sys n
  stages : Fin n → Stage
  closer : Closer
  /-- Who has `log_mu`; `some none` is the caller of `log_close`. -/
  mutex : Option (Option (Fin n))
  /-- `log_stream != NULL` -/
  live : Bool
  /-- `log_stream == stderr` -/
  stderr : Bool
  buffer : Bytes
  file : Bytes
  kept : List LogLine

/-- What stdio does in a step: nothing, take up to `k + 1` bytes into its
buffer, or write up to `k + 1` bytes of it out. -/
inductive Move where
  | go | copy (k : Nat) | spill (k : Nat)
  deriving DecidableEq, Repr

inductive Tick (n : Nat) where
  | handler (i : Fin n) (mv : Move) | closer
  deriving DecidableEq, Repr

namespace Logging
variable {n : Nat}

/-- Thread `i` moves on. -/
def moved (s : Logging n) (i : Fin n) (st : Stage) : Logging n :=
  { s with stages := Function.update s.stages i st }

def spill (s : Logging n) (k : Nat) : Option (Logging n) :=
  if s.buffer = [] then none
  else some { s with file := s.file ++ s.buffer.take (k + 1), buffer := s.buffer.drop (k + 1) }

/-- mirrors src/log.c:19-37 -/
def stepHandler (E : Env) (s : Logging n) (i : Fin n) (mv : Move) : Option (Logging n) :=
  match s.stages i, mv with
  | .idle, .go =>
    match (s.sys.workers i).pc with
    | .tail (.audit res :: _) =>
      some (s.moved i (.lock ((s.sys.workers i).auditSendResponse res)))
    | _ => (s.sys.step E i).map fun y => { s with sys := y }
  | .lock l, .go =>
    if s.mutex = none then some { s.moved i (.check l) with mutex := some (some i) } else none
  | .check l, .go =>
    if s.live then some (s.moved i (.print l (logAudit l))) else some (s.moved i (.unlock l false))
  | .print l rest, .copy k =>
    -- `fprintf(NULL, ...)` has no behaviour
    if s.live ∧ rest ≠ [] then
      some { s.moved i (.print l (rest.drop (k + 1))) with buffer := s.buffer ++ rest.take (k + 1) }
    else none
  | .print _ _, .spill k => if s.live then s.spill k else none
  | .print l [], .go => some (s.moved i (.flush l))
  | .flush _, .spill k => if s.live then s.spill k else none
  | .flush l, .go => if s.buffer = [] then some (s.moved i (.unlock l true)) else none
  | .unlock l printed, .go =>
    (s.sys.step E i).map fun y =>
      { s.moved i .idle with
        sys := y, mutex := none, kept := if printed then s.kept ++ [l] else s.kept }
  | _, _ => none

/-- mirrors src/log.c:39-46 -/
def stepCloser (s : Logging n) : Option (Logging n) :=
  match s.closer with
  | .off => some { s with closer := .lock }
  | .lock => if s.mutex = none then some { s with closer := .close, mutex := some none } else none
  | .close =>
    if s.live ∧ s.stderr = false then
      some { s with closer := .unlock, live := false, file := s.file ++ s.buffer, buffer := [] }
    else some { s with closer := .unlock }
  | .unlock => some { s with closer := .ended, mutex := none }
  | .ended => none

def step (E : Env) (s : Logging n) : Tick n → Option (Logging n)
  | .handler i mv => s.stepHandler E i mv
  | .closer => s.stepCloser

/-- After `log_init`. -/
def initial (reqs : Fin n → Incoming) (files : Files) (stderr : Bool) : Logging n where
  sys := ⟨files, [], fun i => (reqs i).start⟩
  stages := fun _ => .idle
  closer := .off
  mutex := none
  live := true
  stderr := stderr
  buffer := []
  file := []
  kept := []

end Logging

variable {n : Nat}

def logging (E : Env) (reqs : Fin n → Incoming) (files : Files) (stderr : Bool) :
    LTS (Logging n) (Tick n) :=
  .ofFn (· = Logging.initial reqs files stderr) (Logging.step E)

/-! ## What a step can be -/

/-- Between the two operations on the mutex. -/
def Stage.inside : Stage → Bool
  | .idle | .lock _ => false
  | _ => true

/-- The arguments of the call. -/
def Stage.line : Stage → Option LogLine
  | .idle => none
  | .lock l | .check l | .print l _ | .flush l | .unlock l _ => some l

/-- In stdio. -/
def Stage.printing : Stage → Bool
  | .print _ _ | .flush _ => true
  | _ => false

/-- What is still to be copied. -/
def Stage.rest : Stage → Bytes
  | .print _ rest => rest
  | _ => []

/-- The text the call adds to the log, once it has started to. -/
def Stage.text : Stage → Bytes
  | .print l _ | .flush l | .unlock l true => logAudit l
  | _ => []

/-- One step of handler `i`. -/
inductive Audits (E : Env) (s : Logging n) (i : Fin n) : Logging n → Prop where
  /-- a step of the handler outside `log_audit` -/
  | other (y : Sys n) (hi : s.stages i = .idle)
      (hpc : ∀ res as, (s.sys.workers i).pc ≠ .tail (.audit res :: as)) (hy : s.sys.step E i = some y) :
      Audits E s i { s with sys := y }
  | call (res : Response) (as : List Act) (hi : s.stages i = .idle)
      (hpc : (s.sys.workers i).pc = .tail (.audit res :: as)) :
      Audits E s i (s.moved i (.lock ((s.sys.workers i).auditSendResponse res)))
  | lock (l : LogLine) (hi : s.stages i = .lock l) (hm : s.mutex = none) :
      Audits E s i { s.moved i (.check l) with mutex := some (some i) }
  | check (l : LogLine) (hi : s.stages i = .check l) (hl : s.live = true) :
      Audits E s i (s.moved i (.print l (logAudit l)))
  | drop (l : LogLine) (hi : s.stages i = .check l) (hl : s.live = false) :
      Audits E s i (s.moved i (.unlock l false))
  | copy (l : LogLine) (rest : Bytes) (k : Nat) (hi : s.stages i = .print l rest)
      (hl : s.live = true) (hr : rest ≠ []) :
      Audits E s i
        { s.moved i (.print l (rest.drop (k + 1))) with buffer := s.buffer ++ rest.take (k + 1) }
  | spill (k : Nat) (hi : (s.stages i).printing = true) (hl : s.live = true) (hb : s.buffer ≠ []) :
      Audits E s i
        { s with file := s.file ++ s.buffer.take (k + 1), buffer := s.buffer.drop (k + 1) }
  | printed (l : LogLine) (hi : s.stages i = .print l []) : Audits E s i (s.moved i (.flush l))
  | flushed (l : LogLine) (hi : s.stages i = .flush l) (hb : s.buffer = []) :
      Audits E s i (s.moved i (.unlock l true))
  | unlock (l : LogLine) (printed : Bool) (y : Sys n) (hi : s.stages i = .unlock l printed)
      (hy : s.sys.step E i = some y) :
      Audits E s i
        { s.moved i .idle with
          sys := y, mutex := none, kept := if printed then s.kept ++ [l] else s.kept }

theorem spill_some {s s' : Logging n} {k : Nat} (h : s.spill k = some s') :
    s.buffer ≠ [] ∧
      s' = { s with file := s.file ++ s.buffer.take (k + 1), buffer := s.buffer.drop (k + 1) } := by
  unfold Logging.spill at h
  split at h
  · cases h
  · rename_i hb; cases h; exact ⟨hb, rfl⟩

theorem stepHandler_audits {E : Env} {s s' : Logging n} {i : Fin n} {mv : Move}
    (h : s.stepHandler E i mv = some s') : Audits E s i s' := by
  unfold Logging.stepHandler at h
  split at h
  · rename_i hi
    split at h
    · rename_i res as hpc
      cases h
      exact .call res as hi hpc
    · rename_i hpc
      obtain ⟨y, hy, rfl⟩ := Option.map_eq_some_iff.mp h
      exact .other y hi hpc hy
  · rename_i l hi
    split at h
    · rename_i hm; cases h; exact .lock l hi hm
    · cases h
  · rename_i l hi
    split at h
    · rename_i hl; cases h; exact .check l hi hl
    · rename_i hl; cases h; exact .drop l hi (by simpa using hl)
  · rename_i l rest k hi
    split at h
    · rename_i hl; cases h; exact .copy l rest k hi hl.1 hl.2
    · cases h
  · rename_i l rest k hi
    split at h
    · rename_i hl
      obtain ⟨hb, rfl⟩ := spill_some h
      exact .spill k (by rw [hi]; rfl) hl hb
    · cases h
  · rename_i l hi; cases h; exact .printed l hi
  · rename_i l k hi
    split at h
    · rename_i hl
      obtain ⟨hb, rfl⟩ := spill_some h
      exact .spill k (by rw [hi]; rfl) hl hb
    · cases h
  · rename_i l hi
    split at h
    · rename_i hb; cases h; exact .flushed l hi hb
    · cases h
  · rename_i l printed hi
    obtain ⟨y, hy, rfl⟩ := Option.map_eq_some_iff.mp h
    exact .unlock l printed y hi hy
  · cases h

/-! ## The invariant -/

/-- The stage of the thread that has the mutex. -/
def Logging.current (s : Logging n) : Stage :=
  match s.mutex with
  | some (some i) => s.stages i
  | _ => .idle

structure LogInv (s : Logging n) : Prop where
  mutex : ∀ i, (s.stages i).inside = true ↔ s.mutex = some (some i)
  closer : (s.closer = .close ∨ s.closer = .unlock) ↔ s.mutex = some none
  call : ∀ i l, (s.stages i).line = some l → ∃ res as,
    (s.sys.workers i).pc = .tail (.audit res :: as) ∧ l = (s.sys.workers i).auditSendResponse res
  live : ∀ i, s.live = false → (s.stages i).text = []
  dropped : ∀ i l, s.stages i = .unlock l false → s.live = false
  text : s.file ++ s.buffer ++ s.current.rest = logText s.kept ++ s.current.text
  clean : s.current.printing = false → s.buffer = []
  flushed : logText s.kept <+: s.file
  kept : s.kept <+: s.sys.log.map Prod.snd
  all : s.live = true → s.kept = s.sys.log.map Prod.snd

section
variable {E : Env} {s s' : Logging n} {i : Fin n}

theorem Logging.current_eq (h : s.mutex = some (some i)) : s.current = s.stages i := by
  simp [Logging.current, h]

theorem Logging.current_outside (h : ∀ i, s.mutex ≠ some (some i)) : s.current = .idle := by
  unfold Logging.current
  split
  · rename_i i hi; exact absurd hi (h i)
  · rfl

/-- The thread that has the mutex is the only one inside. -/
theorem LogInv.holder (h : LogInv s) (hi : (s.stages i).inside = true) : s.current = s.stages i :=
  Logging.current_eq ((h.mutex i).mp hi)

/-- A thread outside the mutex does not show. -/
theorem LogInv.bystander (h : LogInv s) (hi : (s.stages i).inside = false) (st : Stage) :
    (s.moved i st).current = s.current := by
  unfold Logging.current Logging.moved
  simp only
  split
  · rename_i j hj
    have hji : j ≠ i := by
      rintro rfl
      rw [(h.mutex j).mpr hj] at hi
      cases hi
    rw [Function.update_of_ne hji]
  · rfl

/-- A thread that has the mutex and keeps it. -/
theorem current_moved (hi : s.mutex = some (some i)) (st : Stage) : (s.moved i st).current = st := by
  simp [Logging.current, Logging.moved, hi]

theorem inside_moved (h : LogInv s) {st : Stage} (hst : st.inside = (s.stages i).inside) (j : Fin n) :
    (Function.update s.stages i st j).inside = true ↔ s.mutex = some (some j) := by
  by_cases hj : j = i
  · subst hj; rw [Function.update_self, hst]; exact h.mutex j
  · rw [Function.update_of_ne hj]; exact h.mutex j

theorem call_moved (h : LogInv s) {st : Stage} (hst : ∀ l, st.line = some l → ∃ res as,
      (s.sys.workers i).pc = .tail (.audit res :: as) ∧ l = (s.sys.workers i).auditSendResponse res)
    (j : Fin n) (l : LogLine) (hl : (Function.update s.stages i st j).line = some l) : ∃ res as,
      (s.sys.workers j).pc = .tail (.audit res :: as) ∧
        l = (s.sys.workers j).auditSendResponse res := by
  by_cases hj : j = i
  · subst hj; rw [Function.update_self] at hl; exact hst l hl
  · rw [Function.update_of_ne hj] at hl; exact h.call j l hl

/-- A thread that stays inside changes what is in the file, the buffer and its
own hands, not the sum. -/
theorem LogInv.within (h : LogInv s) {st : Stage} {file buffer : Bytes}
    (hi : (s.stages i).inside = true) (hin : st.inside = true)
    (hline : ∀ l, st.line = some l → (s.stages i).line = some l)
    (hlive : s.live = false → st.text = []) (hdrop : ∀ l, st = .unlock l false → s.live = false)
    (htext : file ++ buffer ++ st.rest = logText s.kept ++ st.text)
    (hclean : st.printing = false → buffer = []) (hfile : s.file <+: file) :
    LogInv { s.moved i st with file := file, buffer := buffer } := by
  have hm := (h.mutex i).mp hi
  have hcur : ({ s.moved i st with file := file, buffer := buffer } : Logging n).current = st :=
    current_moved hm st
  refine ⟨inside_moved h (by rw [hin, hi]), h.closer,
    call_moved h fun l hl => h.call i l (hline l hl), ?_, ?_, by rw [hcur]; exact htext,
    by rw [hcur]; exact hclean, h.flushed.trans hfile, h.kept, h.all⟩
  · intro j hl
    by_cases hj : j = i
    · subst hj; simp only [Logging.moved, Function.update_self]; exact hlive hl
    · simp only [Logging.moved, Function.update_of_ne hj]; exact h.live j hl
  · intro j l hl
    by_cases hj : j = i
    · subst hj; simp only [Logging.moved, Function.update_self] at hl; exact hdrop l hl
    · simp only [Logging.moved, Function.update_of_ne hj] at hl; exact h.dropped j l hl

/-- A step outside `log_audit` logs nothing. -/
theorem other_log {y : Sys n} (hpc : ∀ res as, (s.sys.workers i).pc ≠ .tail (.audit res :: as))
    (hy : s.sys.step E i = some y) : y.log = s.sys.log := by
  obtain ⟨o, ho, -, hl, -⟩ := step_inv hy
  have hnone : o.line = none := by
    cases hp : (s.sys.workers i).pc with
    | new =>
      simp only [Worker.step, hp] at ho
      split at ho <;> cases ho <;> rfl
    | parse =>
      simp only [Worker.step, hp] at ho
      cases ho
      rfl
    | tail acts =>
      cases acts with
      | nil => simp [Worker.step, hp] at ho
      | cons a as =>
        simp only [Worker.step, hp, Option.some.injEq] at ho
        subst ho
        cases a
        case audit res => exact absurd hp (hpc res as)
        all_goals rfl
    | _ =>
      obtain ⟨acts, hfo⟩ := step_follows ho (by rw [hp]; rfl)
      exact hfo.line
  rw [hl, hnone]
  simp

/-- The step that ends the call logs its line. -/
theorem audit_log {res : Response} {as : List Act} {y : Sys n}
    (hpc : (s.sys.workers i).pc = .tail (.audit res :: as)) (hy : s.sys.step E i = some y) :
    y.log = s.sys.log ++ [(i, (s.sys.workers i).auditSendResponse res)] := by
  obtain ⟨o, ho, -, hl, -⟩ := step_inv hy
  simp only [Worker.step, hpc, Option.some.injEq] at ho
  subst ho
  exact hl

theorem audit_steps (E : Env) {res : Response} {as : List Act}
    (hpc : (s.sys.workers i).pc = .tail (.audit res :: as)) : ∃ y, s.sys.step E i = some y :=
  Option.isSome_iff_exists.mp (by simp [Sys.step, Worker.step, hpc])

theorem other_workers {y : Sys n} (hy : s.sys.step E i = some y) {j : Fin n} (hj : j ≠ i) :
    y.workers j = s.sys.workers j := by
  obtain ⟨o, -, -, -, hw⟩ := step_inv hy
  rw [hw, Function.update_of_ne hj]

theorem logInv_handler (h : LogInv s) (hst : Audits E s i s') : LogInv s' := by
  cases hst with
  | other y hi hpc hy =>
    have hlog := other_log hpc hy
    refine ⟨h.mutex, h.closer, ?_, h.live, h.dropped, h.text, h.clean, h.flushed,
      by rw [hlog]; exact h.kept, by rw [hlog]; exact h.all⟩
    intro j l hl
    by_cases hj : j = i
    · subst hj; simp only [hi] at hl; cases hl
    · simp only [other_workers hy hj]; exact h.call j l hl
  | call res as hi hpc =>
    have hin : (s.stages i).inside = false := by rw [hi]; rfl
    have hcur := h.bystander hin (.lock ((s.sys.workers i).auditSendResponse res))
    refine ⟨inside_moved h (by rw [hin]; rfl), h.closer, call_moved h ?_, ?_, ?_,
      by rw [hcur]; exact h.text, by rw [hcur]; exact h.clean, h.flushed, h.kept, h.all⟩
    · intro l hl
      cases hl
      exact ⟨res, as, hpc, rfl⟩
    · intro j hl
      by_cases hj : j = i
      · subst hj; simp [Logging.moved, Stage.text]
      · simp only [Logging.moved, Function.update_of_ne hj]; exact h.live j hl
    · intro j l hl
      by_cases hj : j = i
      · subst hj; simp [Logging.moved] at hl
      · simp only [Logging.moved, Function.update_of_ne hj] at hl; exact h.dropped j l hl
  | lock l hi hm =>
    have hcur : s.current = .idle := Logging.current_outside fun j hj => by rw [hm] at hj; cases hj
    have htext := h.text
    have hclean := h.clean
    rw [hcur] at htext hclean
    have hcur' : ({ s.moved i (.check l) with mutex := some (some i) } : Logging n).current =
        .check l := by simp [Logging.current, Logging.moved]
    refine ⟨?_, ?_, call_moved h fun l' hl => h.call i l' (by rw [hi]; exact hl), ?_, ?_,
      by rw [hcur']; exact htext, by rw [hcur']; exact hclean, h.flushed, h.kept, h.all⟩
    · intro j
      by_cases hj : j = i
      · subst hj; simp [Logging.moved, Stage.inside]
      · simp only [Logging.moved, Function.update_of_ne hj, h.mutex j, hm, Option.some.injEq,
          reduceCtorEq, false_iff]
        exact fun he => hj he.symm
    · simp only [Logging.moved, h.closer, hm, reduceCtorEq, Option.some.injEq]
    · intro j hl
      by_cases hj : j = i
      · subst hj; simp [Logging.moved, Stage.text]
      · simp only [Logging.moved, Function.update_of_ne hj]; exact h.live j hl
    · intro j l' hl
      by_cases hj : j = i
      · subst hj; simp [Logging.moved] at hl
      · simp only [Logging.moved, Function.update_of_ne hj] at hl; exact h.dropped j l' hl
  | check l hi hl =>
    have hin : (s.stages i).inside = true := by rw [hi]; rfl
    have hcur := h.holder hin
    have htext := h.text
    have hbuf := h.clean (by rw [hcur, hi]; rfl)
    rw [hcur, hi, hbuf] at htext
    refine h.within hin rfl (fun l' hl' => by rw [hi]; exact hl') (fun h0 => by rw [hl] at h0; cases h0)
      (fun l' he => by cases he) ?_ (fun he => by cases he) (List.prefix_refl _)
    simp only [Stage.rest, Stage.text, List.append_nil] at htext ⊢
    rw [hbuf, List.append_nil, htext]
  | drop l hi hl =>
    have hin : (s.stages i).inside = true := by rw [hi]; rfl
    have hcur := h.holder hin
    have htext := h.text
    have hbuf := h.clean (by rw [hcur, hi]; rfl)
    rw [hcur, hi] at htext
    exact h.within hin rfl (fun l' hl' => by rw [hi]; exact hl') (fun _ => rfl) (fun _ _ => hl) htext
      (fun _ => hbuf) (List.prefix_refl _)
  | copy l rest k hi hl hr =>
    have hin : (s.stages i).inside = true := by rw [hi]; rfl
    have htext := h.text
    rw [h.holder hin, hi] at htext
    refine h.within hin rfl (fun l' hl' => by rw [hi]; exact hl') (fun h0 => by rw [hl] at h0; cases h0)
      (fun l' he => by cases he) ?_ (fun he => by cases he) (List.prefix_refl _)
    show s.file ++ (s.buffer ++ rest.take (k + 1)) ++ rest.drop (k + 1) = _
    rw [← List.append_assoc s.file, List.append_assoc _ (rest.take (k + 1)), List.take_append_drop]
    exact htext
  | spill k hi hl hb =>
    have hin : (s.stages i).inside = true := by
      cases hs : s.stages i <;> rw [hs] at hi <;> first | rfl | cases hi
    have htext := h.text
    refine ⟨h.mutex, h.closer, h.call, h.live, h.dropped, ?_, ?_,
      h.flushed.trans (List.prefix_append _ _), h.kept, h.all⟩
    · show s.file ++ s.buffer.take (k + 1) ++ s.buffer.drop (k + 1) ++ s.current.rest = _
      rw [List.append_assoc s.file, List.take_append_drop]
      exact htext
    · intro he
      have he : s.current.printing = false := he
      rw [h.holder hin, hi] at he
      cases he
  | printed l hi =>
    have hin : (s.stages i).inside = true := by rw [hi]; rfl
    have htext := h.text
    rw [h.holder hin, hi] at htext
    refine h.within hin rfl (fun l' hl' => by rw [hi]; exact hl') ?_ (fun l' he => by cases he) htext
      (fun he => by cases he) (List.prefix_refl _)
    intro h0
    have := h.live i h0
    rwa [hi] at this
  | flushed l hi hb =>
    have hin : (s.stages i).inside = true := by rw [hi]; rfl
    have htext := h.text
    rw [h.holder hin, hi] at htext
    refine h.within hin rfl (fun l' hl' => by rw [hi]; exact hl') ?_ (fun l' he => by cases he) htext
      (fun _ => hb) (List.prefix_refl _)
    intro h0
    have := h.live i h0
    rwa [hi] at this
  | unlock l printed y hi hy =>
    have hin : (s.stages i).inside = true := by rw [hi]; rfl
    have hm := (h.mutex i).mp hin
    obtain ⟨res, as, hpc, hl⟩ := h.call i l (by rw [hi]; rfl)
    have hlog := audit_log hpc hy
    rw [← hl] at hlog
    have htext := h.text
    have hbuf := h.clean (by rw [h.holder hin, hi]; rfl)
    rw [h.holder hin, hi] at htext
    have hcur : ({ s.moved i .idle with
        sys := y, mutex := none, kept := if printed then s.kept ++ [l] else s.kept } :
          Logging n).current = .idle := rfl
    have hsnd : y.log.map Prod.snd = s.sys.log.map Prod.snd ++ [l] := by rw [hlog]; simp
    have hprinted : printed = true → logText (s.kept ++ [l]) = s.file := by
      rintro rfl
      rw [hbuf] at htext
      simpa [Stage.rest, Stage.text, logText] using htext.symm
    refine ⟨?_, ?_, ?_, ?_, ?_, ?_, fun _ => hbuf, ?_, ?_, ?_⟩
    · intro j
      by_cases hj : j = i
      · subst hj; simp [Logging.moved, Stage.inside]
      · simp only [Logging.moved, Function.update_of_ne hj, h.mutex j, hm, Option.some.injEq,
          reduceCtorEq, iff_false]
        exact fun he => hj he.symm
    · simp only [Logging.moved, h.closer, hm, reduceCtorEq, Option.some.injEq]
    · intro j l' hl'
      by_cases hj : j = i
      · subst hj; simp [Logging.moved, Stage.line] at hl'
      · simp only [Logging.moved, Function.update_of_ne hj] at hl' ⊢
        rw [other_workers hy hj]
        exact h.call j l' hl'
    · intro j h0
      by_cases hj : j = i
      · subst hj; simp [Logging.moved, Stage.text]
      · simp only [Logging.moved, Function.update_of_ne hj]; exact h.live j h0
    · intro j l' hl'
      by_cases hj : j = i
      · subst hj; simp [Logging.moved] at hl'
      · simp only [Logging.moved, Function.update_of_ne hj] at hl'; exact h.dropped j l' hl'
    · rw [hcur]
      cases printed with
      | true =>
        show s.file ++ s.buffer ++ [] = logText (s.kept ++ [l]) ++ []
        rw [hprinted rfl, hbuf, List.append_nil]
      | false => exact htext
    · show logText (if printed then s.kept ++ [l] else s.kept) <+: s.file
      cases printed with
      | true =>
        simp only [if_true]
        rw [hprinted rfl]
      | false => exact h.flushed
    · show (if printed then s.kept ++ [l] else s.kept) <+: y.log.map Prod.snd
      rw [hsnd]
      cases hp : printed with
      | true =>
        have hlive : s.live = true := by
          by_contra h0
          have := h.live i (by simpa using h0)
          rw [hi, hp] at this
          exact row_ne_nil l (List.append_eq_nil_iff.mp this).1
        rw [h.all hlive]
        exact List.prefix_refl _
      | false => exact h.kept.trans (List.prefix_append _ _)
    · intro hlive
      have hlive : s.live = true := hlive
      cases hp : printed with
      | true =>
        show s.kept ++ [l] = _
        rw [h.all hlive, hsnd]
      | false =>
        rw [hp] at hi
        rw [h.dropped i l hi] at hlive
        cases hlive

theorem logInv_closer (h : LogInv s) (hst : s.stepCloser = some s') : LogInv s' := by
  unfold Logging.stepCloser at hst
  split at hst
  · rename_i hc
    cases hst
    refine ⟨h.mutex, ?_, h.call, h.live, h.dropped, h.text, h.clean, h.flushed, h.kept, h.all⟩
    rw [← h.closer, hc]
    simp
  · rename_i hc
    split at hst
    · rename_i hm
      cases hst
      have hcur : s.current = .idle := Logging.current_outside fun j hj => by rw [hm] at hj; cases hj
      have htext := h.text
      have hclean := h.clean
      rw [hcur] at htext hclean
      refine ⟨fun j => ?_, by simp, h.call, h.live, h.dropped, htext, hclean, h.flushed, h.kept, h.all⟩
      rw [h.mutex j, hm]
      simp
    · cases hst
  · rename_i hc
    have hm := h.closer.mp (.inl hc)
    have hcur : s.current = .idle := Logging.current_outside fun j hj => by rw [hm] at hj; cases hj
    have hbuf := h.clean (by rw [hcur]; rfl)
    -- nobody is inside, so nobody is in stdio
    have hout : ∀ j, (s.stages j).inside = false := fun j => by
      by_contra hj
      rw [(h.mutex j).mp (by simpa using hj)] at hm
      cases hm
    have hquiet : ∀ j, (s.stages j).text = [] := fun j => by
      have := hout j
      cases hs : s.stages j <;> rw [hs] at this <;> first | rfl | cases this
    have hcl : (Closer.unlock = .close ∨ Closer.unlock = .unlock) ↔ s.mutex = some none :=
      ⟨fun _ => hm, fun _ => .inr rfl⟩
    split at hst
    · cases hst
      refine ⟨h.mutex, hcl, h.call, fun j _ => hquiet j, fun _ _ _ => rfl, ?_, fun _ => rfl,
        h.flushed.trans (List.prefix_append _ _), h.kept, fun h0 => by cases h0⟩
      show s.file ++ s.buffer ++ [] ++ s.current.rest = _
      rw [List.append_nil]
      exact h.text
    · cases hst
      exact ⟨h.mutex, hcl, h.call, h.live, h.dropped, h.text, h.clean, h.flushed, h.kept, h.all⟩
  · rename_i hc
    have hm := h.closer.mp (.inr hc)
    cases hst
    have hcur : s.current = .idle := Logging.current_outside fun j hj => by rw [hm] at hj; cases hj
    have htext := h.text
    have hclean := h.clean
    rw [hcur] at htext hclean
    refine ⟨fun j => ?_, by simp, h.call, h.live, h.dropped, htext, hclean, h.flushed, h.kept, h.all⟩
    rw [h.mutex j, hm]
    simp
  · cases hst

end

section
variable {E : Env} {reqs : Fin n → Incoming} {files : Files} {stderr : Bool} {s : Logging n}

theorem logInv_init : LogInv (Logging.initial reqs files stderr) where
  mutex i := by simp [Logging.initial, Stage.inside]
  closer := by simp [Logging.initial]
  call i l hl := by cases hl
  live i _ := rfl
  dropped i l hl := by cases hl
  text := rfl
  clean _ := rfl
  flushed := List.prefix_refl _
  kept := List.prefix_refl _
  all _ := rfl

theorem logging_inv (h : (logging E reqs files stderr).Reachable s) : LogInv s := by
  have hI : (logging E reqs files stderr).Inductive LogInv := by
    refine ⟨fun s hs => by subst hs; exact logInv_init, fun s e s' hs hst => ?_⟩
    cases e with
    | handler i mv => exact logInv_handler hs (stepHandler_audits hst)
    | closer => exact logInv_closer hs hst
  exact hI.reachable s h

/-- **The server with this log is the server**: the audit takes effect when the
mutex is given back. -/
theorem logging_server (h : (logging E reqs files stderr).Reachable s) :
    (server E reqs files).Reachable s.sys := by
  have hI : (logging E reqs files stderr).Inductive fun s =>
      (server E reqs files).Reachable s.sys := by
    refine ⟨fun s hs => by subst hs; exact ⟨_, [], rfl, .nil _⟩, fun s e s' hs hst => ?_⟩
    cases e with
    | handler i mv =>
      cases stepHandler_audits hst with
      | other y hi hpc hy => exact hs.step hy
      | unlock l printed y hi hy => exact hs.step hy
      | call | lock | check | drop | copy | spill | printed | flushed => exact hs
    | closer =>
      have hsys : s'.sys = s.sys := by
        have hst : s.stepCloser = some s' := hst
        unfold Logging.stepCloser at hst
        repeat' split at hst
        all_goals cases hst <;> rfl
      rw [hsys]; exact hs
  exact hI.reachable s h

/-! ## What an auditor may find -/

/-- What a call that has not ended will log. -/
theorem LogInv.pending (h : LogInv s) (hs : (server E reqs files).Reachable s.sys) {i : Fin n}
    {l : LogLine} (hl : (s.stages i).line = some l) : InertLine l := by
  obtain ⟨res, as, hpc, rfl⟩ := h.call i l hl
  obtain ⟨y, hy⟩ := audit_steps E hpc
  have hlog := audit_log hpc hy
  obtain ⟨res', -, hline⟩ := log_line (hs.step hy)
    (e := (i, (s.sys.workers i).auditSendResponse res)) (by rw [hlog]; simp)
  simp only at hline
  rw [hline]
  exact inert_auditLine _ _

theorem LogInv.inert (h : LogInv s) (hs : (server E reqs files).Reachable s.sys) {l : LogLine}
    (hl : l ∈ s.kept) : InertLine l := by
  obtain ⟨e, he, rfl⟩ := List.mem_map.mp (h.kept.subset hl)
  obtain ⟨res, -, hline⟩ := log_line hs he
  rw [hline]
  exact inert_auditLine _ _

/-- A text of whole lines with something behind it. -/
theorem logText_split {log : List LogLine} (h : ∀ l ∈ log, InertLine l) {p : Bytes} (hp : 10 ∉ p) :
    (logText log ++ p).splitOn 10 = log.map row ++ [p] := by
  induction log with
  | nil => exact List.splitOn_eq_singleton hp
  | cons l log ih =>
    obtain ⟨hl, hlog⟩ := List.forall_mem_cons.mp h
    have e : logText (l :: log) ++ p = row l ++ 10 :: (logText log ++ p) := by
      have : ascii "\n" = [10] := by decide
      simp [logText, logAudit, this]
    rw [e, List.splitOn_append_cons_self_of_not_mem (fun hm => mem_row hl hm (by decide)), ih hlog]
    rfl

/-- The file, in every state a run can be stopped in. -/
structure Durable (reqs : Fin n → Incoming) (s : Logging n) : Prop where
  /-- One thread at a time uses the stream, and never when it is `NULL`. -/
  alone : ∀ i j, (s.stages i).inside = true → (s.stages j).inside = true → i = j
  safe : ∀ i, (s.stages i).printing = true → s.live = true
  /-- The file is the lines of the audits that are done and at most one more,
  whole or in part: no line is torn by another. -/
  whole : ∃ ls p, s.file.splitOn 10 = ls.map row ++ [p] ∧
    (ls = s.kept ∨ ∃ i l, (s.stages i).line = some l ∧ ls = s.kept ++ [l]) ∧
    (p ≠ [] → ls = s.kept ∧ ∃ i l, (s.stages i).line = some l ∧ p <+: row l)
  kept : s.kept <+: s.sys.log.map Prod.snd
  /-- While the stream is open the file holds the line of every request whose
  lock was given back or whose connection was closed. -/
  durable : s.live = true → ∀ i, ¬ Silent (reqs i) →
    .unlock ∈ (s.sys.workers i).trace ∨ .closeConn ∈ (s.sys.workers i).trace →
    ∃ l, (i, l) ∈ s.sys.log ∧ row l ∈ s.file.splitOn 10

/-- **The log is durable line by line**, in every interleaving of the handlers,
however stdio cuts its writes, wherever `log_close` comes in and whenever the
process ends. -/
theorem log_durable (E : Env) (reqs : Fin n → Incoming) (files : Files) (stderr : Bool)
    (s : Logging n) (hs : (logging E reqs files stderr).Reachable s) : Durable reqs s := by
  have h := logging_inv hs
  have hsrv := logging_server hs
  have hin : ∀ l ∈ s.kept, InertLine l := fun l hl => h.inert hsrv hl
  have hnl : ascii "\n" = [10] := by decide
  -- the file is what is kept and the part of the current line that is written
  obtain ⟨part, hpart⟩ := h.flushed
  have htext : part ++ (s.buffer ++ s.current.rest) = s.current.text := by
    have := h.text
    rw [← hpart, List.append_assoc, List.append_assoc] at this
    exact List.append_cancel_left this
  have hwhole : ∃ ls p, s.file.splitOn 10 = ls.map row ++ [p] ∧
      (ls = s.kept ∨ ∃ i l, (s.stages i).line = some l ∧ ls = s.kept ++ [l]) ∧
      (p ≠ [] → ls = s.kept ∧ ∃ i l, (s.stages i).line = some l ∧ p <+: row l) := by
    by_cases hp : part = []
    · refine ⟨s.kept, [], ?_, .inl rfl, fun h0 => absurd rfl h0⟩
      rw [← hpart, hp]
      exact logText_split hin (by simp)
    · -- the holder of the mutex is printing its line
      obtain ⟨i, l, hl, ht⟩ : ∃ i l, (s.stages i).line = some l ∧ s.current.text = logAudit l := by
        have hne : s.current.text ≠ [] := fun h0 => by
          rw [h0] at htext
          exact hp (List.append_eq_nil_iff.mp htext).1
        cases hm : s.mutex with
        | none => exact absurd (by simp [Logging.current, hm, Stage.text]) hne
        | some o =>
          cases o with
          | none => exact absurd (by simp [Logging.current, hm, Stage.text]) hne
          | some i =>
            have hcur := Logging.current_eq hm
            rw [hcur] at hne ⊢
            cases hst : s.stages i with
            | print l rest => exact ⟨i, l, by rw [hst]; rfl, rfl⟩
            | flush l => exact ⟨i, l, by rw [hst]; rfl, rfl⟩
            | unlock l printed =>
              cases printed with
              | true => exact ⟨i, l, by rw [hst]; rfl, rfl⟩
              | false => rw [hst] at hne; exact absurd rfl hne
            | idle | lock | check => rw [hst] at hne; exact absurd rfl hne
      have hrow : InertLine l := h.pending hsrv hl
      have hpre : part <+: row l ++ [10] := ⟨_, by rw [htext, ht, logAudit, hnl]⟩
      rcases List.prefix_concat_iff.mp hpre with he | hpre
      · refine ⟨s.kept ++ [l], [], ?_, .inr ⟨i, l, hl, rfl⟩, fun h0 => absurd rfl h0⟩
        have he' : s.file = logText (s.kept ++ [l]) ++ [] := by
          rw [← hpart, he]
          simp [logText, logAudit, hnl]
        rw [he']
        refine logText_split ?_ (by simp)
        intro l' hl'
        rcases List.mem_append.mp hl' with hl' | hl'
        · exact hin l' hl'
        · rw [List.mem_singleton.mp hl']; exact hrow
      · refine ⟨s.kept, part, ?_, .inl rfl, fun _ => ⟨rfl, i, l, hl, hpre⟩⟩
        rw [← hpart]
        exact logText_split hin fun hm => mem_row hrow (hpre.subset hm) (by decide)
  refine ⟨?_, ?_, hwhole, h.kept, ?_⟩
  · intro i j hi hj
    have := ((h.mutex i).mp hi).symm.trans ((h.mutex j).mp hj)
    simpa using this
  · intro i hi
    by_contra h0
    have := h.live i (by simpa using h0)
    cases hst : s.stages i with
    | print l rest => rw [hst] at this; exact row_ne_nil l (List.append_eq_nil_iff.mp this).1
    | flush l => rw [hst] at this; exact row_ne_nil l (List.append_eq_nil_iff.mp this).1
    | idle | lock | check | unlock => rw [hst] at hi; cases hi
  · intro hlive i hq ht
    obtain ⟨l, hl⟩ := List.exists_mem_of_ne_nil _ (planned_audited (server_planned hsrv i) hq ht)
    have hlog : (i, l) ∈ s.sys.log := mem_linesOf.mp hl
    refine ⟨l, hlog, ?_⟩
    have hk : l ∈ s.kept := by
      rw [h.all hlive]
      exact List.mem_map_of_mem hlog
    obtain ⟨ls, p, hf, hls, -⟩ := hwhole
    have hmem : l ∈ ls := by
      rcases hls with rfl | ⟨j, l', -, rfl⟩
      · exact hk
      · exact List.mem_append_left _ hk
    rw [hf]
    exact List.mem_append_left _ (List.mem_map_of_mem hmem)

/-! ## Logging ends -/

/-- What is left of a call, for a thread that will make it or is in it; a byte
counts twice until it is in the buffer. -/
def stageLeft (p : Worker × Stage) : Nat :=
  match p.2 with
  | .idle =>
    match p.1.pc with
    | .tail (.audit res :: _) => 2 * (logAudit (p.1.auditSendResponse res)).length + 6
    | _ => 0
  | .lock l => 2 * (logAudit l).length + 5
  | .check l => 2 * (logAudit l).length + 4
  | .print _ rest => 2 * rest.length + 3
  | .flush _ => 2
  | .unlock _ _ => 1

def Closer.left : Closer → Nat
  | .off => 4 | .lock => 3 | .close => 2 | .unlock => 1 | .ended => 0

def threads (workers : Fin n → Worker) (stages : Fin n → Stage) : Fin n → Worker × Stage :=
  fun i => (workers i, stages i)

def Logging.left (s : Logging n) : Nat :=
  tally stageLeft (threads s.sys.workers s.stages) + s.buffer.length + s.closer.left

def logRank (s : Logging n) : (Fin n → Nat ×ₗ Nat) ×ₗ Nat := toLex (ranks s.sys, s.left)

/-- A thread moves on, and takes from the buffer at most what it gives up. -/
theorem left_moved {workers : Fin n → Worker} {stages : Fin n → Stage} {i : Fin n} {st : Stage}
    {k m : Nat} (h : stageLeft (workers i, st) + m < stageLeft (workers i, stages i) + k) :
    tally stageLeft (threads workers (Function.update stages i st)) + m <
      tally stageLeft (threads workers stages) + k := by
  have hup : threads workers (Function.update stages i st) =
      Function.update (threads workers stages) i (workers i, st) := by
    funext j
    by_cases hj : j = i
    · subst hj; simp [threads]
    · simp [threads, Function.update_of_ne hj]
  have := tally_update stageLeft (threads workers stages) i (workers i, st)
  rw [show threads workers stages i = (workers i, stages i) from rfl] at this
  rw [hup]
  omega

theorem logRank_handler {i : Fin n} {s' : Logging n} (hst : Audits E s i s') :
    logRank s' < logRank s := by
  have hsys : ∀ {s' : Logging n} {y : Sys n}, s.sys.step E i = some y → s'.sys = y →
      logRank s' < logRank s := by
    intro s' y hy he
    exact Prod.Lex.toLex_lt_toLex.mpr (.inl (by rw [he]; exact ranks_step hy))
  have hleft : ∀ {s' : Logging n}, s'.sys = s.sys → s'.left < s.left → logRank s' < logRank s := by
    intro s' he hlt
    exact Prod.Lex.toLex_lt_toLex.mpr (.inr ⟨by rw [he], hlt⟩)
  have hmove : ∀ {a : Stage}, stageLeft (s.sys.workers i, a) <
      stageLeft (s.sys.workers i, s.stages i) → (s.moved i a).left < s.left := by
    intro a hlt
    have := left_moved (k := 0) (m := 0) hlt
    simp only [Logging.left, Logging.moved]
    omega
  cases hst with
  | other y hi hpc hy => exact hsys hy rfl
  | unlock l printed y hi hy => exact hsys hy rfl
  | call res as hi hpc => exact hleft rfl (hmove (by simp [stageLeft, hi, hpc]))
  | lock l hi hm => exact hleft rfl (hmove (a := .check l) (by simp [stageLeft, hi]))
  | check l hi hl => exact hleft rfl (hmove (by simp [stageLeft, hi]))
  | drop l hi hl => exact hleft rfl (hmove (by simp [stageLeft, hi]))
  | copy l rest k hi hl hr =>
    refine hleft rfl ?_
    have hlen := List.length_pos_of_ne_nil hr
    have hrank : stageLeft (s.sys.workers i, .print l (rest.drop (k + 1))) +
        (rest.take (k + 1)).length < stageLeft (s.sys.workers i, s.stages i) + 0 := by
      simp only [stageLeft, hi, List.length_drop, List.length_take]
      omega
    have := left_moved hrank
    simp only [Logging.left, Logging.moved, List.length_append]
    omega
  | spill k hi hl hb =>
    refine hleft rfl ?_
    have hlen := List.length_pos_of_ne_nil hb
    simp only [Logging.left, List.length_drop]
    omega
  | printed l hi => exact hleft rfl (hmove (by simp [stageLeft, hi]))
  | flushed l hi hb => exact hleft rfl (hmove (by simp [stageLeft, hi]))

theorem logRank_closer {s' : Logging n} (hst : s.stepCloser = some s') : logRank s' < logRank s := by
  have hleft : s'.sys = s.sys → s'.left < s.left → logRank s' < logRank s := by
    intro he hlt
    exact Prod.Lex.toLex_lt_toLex.mpr (.inr ⟨by rw [he], hlt⟩)
  unfold Logging.stepCloser at hst
  split at hst
  · rename_i hc
    cases hst
    exact hleft rfl (by simp [Logging.left, Closer.left, hc])
  · rename_i hc
    split at hst <;> cases hst
    exact hleft rfl (by simp [Logging.left, Closer.left, hc])
  · rename_i hc
    split at hst <;> cases hst
    · refine hleft rfl ?_
      simp only [Logging.left, Closer.left, hc, List.length_nil]
      omega
    · exact hleft rfl (by simp [Logging.left, Closer.left, hc])
  · rename_i hc
    cases hst
    exact hleft rfl (by simp [Logging.left, Closer.left, hc])
  · cases hst

/-- Who has the mutex can go on. -/
theorem holder_goes_on {i : Fin n} (h : LogInv s) (hi : (s.stages i).inside = true) :
    ∃ mv s', s.stepHandler E i mv = some s' := by
  have hlive : (s.stages i).text ≠ [] → s.live = true := fun hne => by
    by_contra h0
    exact hne (h.live i (by simpa using h0))
  have hne : ∀ l, logAudit l ≠ [] := fun l h0 => row_ne_nil l (List.append_eq_nil_iff.mp h0).1
  have some_of : ∀ {m : Move}, (s.stepHandler E i m).isSome = true →
      ∃ mv s', s.stepHandler E i mv = some s' := fun {m} hs =>
    ⟨m, Option.isSome_iff_exists.mp hs⟩
  cases hst : s.stages i with
  | idle => rw [hst] at hi; cases hi
  | lock l => rw [hst] at hi; cases hi
  | check l =>
    refine some_of (m := .go) ?_
    simp only [Logging.stepHandler, hst]
    split <;> rfl
  | print l rest =>
    cases rest with
    | nil => exact some_of (m := .go) (by simp only [Logging.stepHandler, hst]; rfl)
    | cons b bs =>
      have hl := hlive (by rw [hst]; exact hne l)
      exact some_of (m := .copy 0) (by simp [Logging.stepHandler, hst, hl])
  | flush l =>
    by_cases hb : s.buffer = []
    · exact some_of (m := .go) (by simp [Logging.stepHandler, hst, hb])
    · have hl := hlive (by rw [hst]; exact hne l)
      exact some_of (m := .spill 0) (by simp [Logging.stepHandler, Logging.spill, hst, hl, hb])
  | unlock l printed =>
    obtain ⟨res, as, hpc, -⟩ := h.call i l (by rw [hst]; rfl)
    obtain ⟨y, hy⟩ := audit_steps E hpc
    exact some_of (m := .go) (by simp [Logging.stepHandler, hst, hy])

/-- **No deadlock** between the mutex and the locks. -/
theorem logging_goes_on (h : LogInv s) (hsrv : (server E reqs files).Reachable s.sys)
    (hnot : ¬ AllDone s.sys) : ∃ e s', s.step E e = some s' := by
  cases hm : s.mutex with
  | some o =>
    cases o with
    | some i =>
      obtain ⟨mv, s', hst⟩ := holder_goes_on (E := E) h ((h.mutex i).mpr hm)
      exact ⟨.handler i mv, s', hst⟩
    | none =>
      refine ⟨.closer, ?_⟩
      rcases h.closer.mpr hm with hc | hc
      · refine Option.isSome_iff_exists.mp ?_
        simp only [Logging.step, Logging.stepCloser, hc]
        split <;> rfl
      · exact Option.isSome_iff_exists.mp (by simp [Logging.step, Logging.stepCloser, hc])
  | none =>
    obtain ⟨i, hi⟩ := not_forall.mp hnot
    obtain ⟨j, -, y, hy⟩ := server_goes_on hsrv hi
    refine ⟨.handler j .go, Option.isSome_iff_exists.mp ?_⟩
    have hout : (s.stages j).inside = false := by
      by_contra hj
      have := (h.mutex j).mp (by simpa using hj)
      rw [hm] at this
      cases this
    cases hst : s.stages j with
    | idle =>
      simp only [Logging.step, Logging.stepHandler, hst]
      split
      · rfl
      · rw [hy]; rfl
    | lock l => simp [Logging.step, Logging.stepHandler, hst, hm]
    | check | print | flush | unlock => rw [hst] at hout; cases hout

/-- When all connections are done the file is the log. -/
theorem LogInv.settled (h : LogInv s) (hd : AllDone s.sys) :
    s.file = logText s.kept ∧ (s.live = true → s.file = logText (s.sys.log.map Prod.snd)) := by
  have hidle : ∀ i, (s.stages i).inside = false := fun i => by
    cases hl : (s.stages i).line with
    | none => cases hst : s.stages i <;> rw [hst] at hl <;> first | rfl | cases hl
    | some l =>
      obtain ⟨res, as, hpc, -⟩ := h.call i l hl
      rw [hd i] at hpc
      cases hpc
  have hcur : s.current = .idle := Logging.current_outside fun i hi => by
    have := (h.mutex i).mpr hi
    rw [hidle i] at this
    cases this
  have htext := h.text
  rw [hcur, h.clean (by rw [hcur]; rfl)] at htext
  simp only [Stage.rest, Stage.text, List.append_nil] at htext
  exact ⟨htext, fun hl => by rw [htext, h.all hl]⟩

/-- **Logging ends.** Whatever the scheduler does and however stdio cuts its
writes, all connections come to their end, and then the file holds the whole
log. -/
theorem logging_ends (E : Env) (reqs : Fin n → Incoming) (files : Files) (stderr : Bool)
    (s : Logging n) (hs : (logging E reqs files stderr).Reachable s) :
    (logging E reqs files stderr).Inevitable (fun s => AllDone s.sys ∧ s.file = logText s.kept ∧
      (s.live = true → s.file = logText (s.sys.log.map Prod.snd))) s := by
  refine LTS.Inevitable.of_rank (P := (logging E reqs files stderr).Reachable) logRank
    (fun s e s' hs hst => hs.step hst) ?_ ?_ hs
  · intro s e s' _ hst
    cases e with
    | handler i mv => exact logRank_handler (stepHandler_audits hst)
    | closer => exact logRank_closer hst
  · intro s hs hnot
    have h := logging_inv hs
    exact logging_goes_on h (logging_server hs) fun hd => hnot ⟨hd, h.settled hd⟩

end

/-- A `GET` stopped while stdio writes its line out: three bytes are in the
file. -/
theorem getA_torn : ∃ s, (logging (n := 1) ⟨[], 1, 2⟩ (fun _ => getA) (fun _ => none) false).Reachable s ∧
    s.file = ascii "GET" := by
  have hrun : ((LTS.exec (Logging.step ⟨[], 1, 2⟩)
      (Logging.initial (n := 1) (fun _ => getA) (fun _ => none) false)
      (List.replicate 8 (.handler 0 .go) ++ [.handler 0 (.copy 99), .handler 0 (.spill 2)])).map
        fun s => s.file) = some (ascii "GET") := by decide
  obtain ⟨s, hs, hf⟩ := Option.map_eq_some_iff.mp hrun
  exact ⟨s, ⟨_, _, rfl, LTS.run_of_exec _ _ _ hs⟩, hf⟩

theorem log_durable_torn : ∃ s,
    (logging (n := 1) ⟨[], 1, 2⟩ (fun _ => getA) (fun _ => none) false).Reachable s ∧
    s.file = ascii "GET" ∧ Durable (fun _ => getA) s := by
  obtain ⟨s, hs, hf⟩ := getA_torn
  exact ⟨s, hs, hf, log_durable _ _ _ _ s hs⟩

theorem logging_ends_torn : ∃ s,
    (logging (n := 1) ⟨[], 1, 2⟩ (fun _ => getA) (fun _ => none) false).Reachable s ∧
    s.file = ascii "GET" ∧
    (logging (n := 1) ⟨[], 1, 2⟩ (fun _ => getA) (fun _ => none) false).Inevitable
      (fun s => AllDone s.sys ∧ s.file = logText s.kept ∧
        (s.live = true → s.file = logText (s.sys.log.map Prod.snd))) s := by
  obtain ⟨s, hs, hf⟩ := getA_torn
  exact ⟨s, hs, hf, logging_ends _ _ _ _ s hs⟩

end HttpC.L8
