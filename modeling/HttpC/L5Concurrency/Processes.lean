import HttpC.L5Concurrency.Linear

/-!
# Several server processes, any of which may be killed

The lock directory is named after the working directory and not after the
process, so that two servers of one directory exclude each other
(src/httpserver.c:47-51). A `Host` is any number of processes over one file
system, each with its environment, its audit log and its requests.

A SIGTERM ends a process in `_exit` (src/httpserver.c:135-168), a `kill -9`
ends it as well: first its threads stop, one by one and wherever they are,
inside a `write()` to the file of a PUT too; when the last one has stopped the
kernel closes the descriptors, and only then are the locks the threads held
free. An audit line is one step here: a thread does not stop inside the
`write()` of the log, which would leave that line torn at the log's end
(`L8Program/LogFile`).

`history` is what took effect, in the order of time: an audit line, or that
the thread of a PUT stopped between taking its lock and its audit line, with
what its file then held. No process sees it.
-/
namespace HttpC.L5
open HttpC.L1.Util HttpC.L2 HttpC.L3 HttpC.Flock HttpC.Spec

variable {k n : Nat}

inductive Life where
  | up | exiting | gone
  deriving DecidableEq, Repr

inductive Effect (n : Nat) where
  | line (i : Fin n) (l : LogLine)
  | cut (i : Fin n) (b : Bytes)
  deriving DecidableEq, Repr

def Effect.who : Effect n → Fin n
  | .line i _ => i
  | .cut i _ => i

structure Host (k n : Nat) where
  files : Files
  logs : Fin k → List (Fin n × LogLine)
  life : Fin k → Life
  stopped : Fin n → Bool
  workers : Fin n → Worker
  history : List (Effect n)

/-- A thread takes a step, a process gets a signal, a thread of it stops after
`sent` bytes of the `write()` to its file that it is in, the process is
gone. -/
inductive Host.Ev (k n : Nat) where
  | run (i : Fin n)
  | signal (p : Fin k)
  | stop (i : Fin n) (sent : Nat)
  | exit (p : Fin k)
  deriving DecidableEq, Repr

/-- The bytes of the step the handler is in reach its file in order; the first
`sent` of them did. -/
def cutShort (E : Env) (files : Files) (w : Worker) (sent : Nat) : Files :=
  let file := E.fileOf w.conn.uri
  match w.pc with
  | .putLeft _ =>
    let fd := (writeAll ⟨[], w.fileWrites⟩ (leftover w.conn)).2
    Function.update files file (some (writeAt ((files file).getD []) 0 (fd.written.take sent)))
  | .putRecv _ total =>
    let fd := (passRound (remaining w.conn) w.client ⟨[], w.fileWrites⟩ total).2.2
    Function.update files file
      (some (writeAt ((files file).getD []) ((leftover w.conn).length + total)
        (fd.written.take sent)))
  | _ => files

/-- What a stopping thread leaves behind. -/
def leaves (E : Env) (files : Files) (i : Fin n) (w : Worker) : List (Effect n) :=
  if w.conn.request = .PUT ∧ Pc.writing w.pc = true then
    ((files (E.fileOf w.conn.uri)).map (Effect.cut i)).toList
  else []

section
variable (Es : Fin k → Env) (owner : Fin n → Fin k)

/-- A process that is gone holds nothing. -/
def Host.table (s : Host k n) : Fin n → Option (Bytes × Mode) := fun i =>
  if s.life (owner i) = .gone then none else (s.workers i).held

def Host.free (s : Host k n) (i : Fin n) (key : Bytes) (m : Mode) : Bool :=
  decide (Free (s.table owner) i key m)

def Host.step (s : Host k n) : Host.Ev k n → Option (Host k n)
  | .run i =>
    if s.stopped i then none
    else ((s.workers i).step (Es (owner i)) (s.free owner i) s.files).map fun o =>
      { s with
        files := o.files
        logs := Function.update s.logs (owner i)
          (s.logs (owner i) ++ o.line.toList.map (i, ·))
        workers := Function.update s.workers i o.worker
        history := s.history ++ o.line.toList.map (.line i) }
  | .signal p =>
    if s.life p = .up then some { s with life := Function.update s.life p .exiting } else none
  | .stop i sent =>
    if s.life (owner i) = .exiting ∧ s.stopped i = false then
      let files := cutShort (Es (owner i)) s.files (s.workers i) sent
      some { s with
        files
        stopped := Function.update s.stopped i true
        history := s.history ++ leaves (Es (owner i)) files i (s.workers i) }
    else none
  | .exit p =>
    if s.life p = .exiting ∧ ∀ i, owner i = p → s.stopped i = true then
      some { s with life := Function.update s.life p .gone }
    else none

def Host.start (reqs : Fin n → Incoming) (files : Files) : Host k n where
  files
  logs _ := []
  life _ := .up
  stopped _ := false
  workers i := (reqs i).start
  history := []

def processes (reqs : Fin n → Incoming) (files : Files) : LTS (Host k n) (Host.Ev k n) :=
  .ofFn (· = .start reqs files) (Host.step Es owner)

end

/-! ## What a step can do -/

section
variable {Es : Fin k → Env} {owner : Fin n → Fin k} {s s' : Host k n}

theorem host_run {i : Fin n} (h : s.step Es owner (.run i) = some s') :
    s.stopped i = false ∧
      ∃ o, (s.workers i).step (Es (owner i)) (s.free owner i) s.files = some o ∧
        s' = { s with
          files := o.files
          logs := Function.update s.logs (owner i)
            (s.logs (owner i) ++ o.line.toList.map (i, ·))
          workers := Function.update s.workers i o.worker
          history := s.history ++ o.line.toList.map (.line i) } := by
  simp only [Host.step] at h
  split at h
  · cases h
  · rename_i hst
    obtain ⟨o, ho, rfl⟩ := Option.map_eq_some_iff.mp h
    exact ⟨by simpa using hst, o, ho, rfl⟩

theorem host_signal {p : Fin k} (h : s.step Es owner (.signal p) = some s') :
    s.life p = .up ∧ s' = { s with life := Function.update s.life p .exiting } := by
  simp only [Host.step] at h
  split at h
  · cases h; exact ⟨‹_›, rfl⟩
  · cases h

theorem host_stop {i : Fin n} {sent : Nat} (h : s.step Es owner (.stop i sent) = some s') :
    s.life (owner i) = .exiting ∧ s.stopped i = false ∧
      s' = { s with
        files := cutShort (Es (owner i)) s.files (s.workers i) sent
        stopped := Function.update s.stopped i true
        history := s.history ++ leaves (Es (owner i))
          (cutShort (Es (owner i)) s.files (s.workers i) sent) i (s.workers i) } := by
  simp only [Host.step] at h
  split at h
  · rename_i hst
    cases h
    exact ⟨hst.1, hst.2, rfl⟩
  · cases h

theorem host_exit {p : Fin k} (h : s.step Es owner (.exit p) = some s') :
    s.life p = .exiting ∧ (∀ i, owner i = p → s.stopped i = true) ∧
      s' = { s with life := Function.update s.life p .gone } := by
  simp only [Host.step] at h
  split at h
  · rename_i hst
    cases h
    exact ⟨hst.1, hst.2, rfl⟩
  · cases h

/-! ## Locks across processes -/

/-- The lock table is that of a reader/writer lock, handlers hold what their
place says, and a thread stops in a process that is going, before it is
gone. -/
structure Host.Locked (Es : Fin k → Env) (owner : Fin n → Fin k) (s : Host k n) : Prop where
  table : Ok (s.table owner)
  guarded : ∀ i, Guarded (Es (owner i)) (s.workers i)
  gone : ∀ i, s.life (owner i) = .gone → s.stopped i = true
  going : ∀ i, s.stopped i = true → s.life (owner i) ≠ .up

/-- A thread that has not stopped holds what its handler holds. -/
theorem Host.Locked.live (h : s.Locked Es owner) {i : Fin n} (hi : s.stopped i = false) :
    s.table owner i = (s.workers i).held := by
  have hne : s.life (owner i) ≠ .gone := by
    intro hg
    rw [h.gone i hg] at hi
    cases hi
  simp [Host.table, hne]

theorem locked_run {i : Fin n} (h : s.Locked Es owner)
    (hst : s.step Es owner (.run i) = some s') : s'.Locked Es owner := by
  obtain ⟨hi, o, ho, rfl⟩ := host_run hst
  refine ⟨?_, fun j => ?_, h.gone, h.going⟩
  · have htab : (fun j => if s.life (owner j) = .gone then none
        else (Function.update s.workers i o.worker j).held) =
        Function.update (s.table owner) i o.worker.held := by
      funext j
      by_cases hj : j = i
      · subst hj
        have hne : s.life (owner j) ≠ .gone := by
          intro hg
          rw [h.gone j hg] at hi
          cases hi
        simp [hne]
      · simp [Function.update_of_ne hj, Host.table]
    unfold Host.table
    rw [htab]
    rcases step_held ho with hh | hh | ⟨key, m, hf, hh⟩
    · rw [hh, ← h.live hi, Function.update_eq_self]
      exact h.table
    · rw [hh]; exact h.table.release
    · rw [hh]; exact h.table.acquire (of_decide_eq_true hf)
  · by_cases hj : j = i
    · subst hj
      simp only [Function.update_self]
      exact guarded_step (h.guarded j) ho
    · simp only [Function.update_of_ne hj]
      exact h.guarded j

/-- Whoever loses its locks leaves the others' as they are. -/
theorem locked_life {p : Fin k} {l : Life} (h : s.Locked Es owner) (hl : l ≠ .up)
    (hp : s.life p ≠ .gone) (hg : l = .gone → ∀ i, owner i = p → s.stopped i = true) :
    Host.Locked Es owner { s with life := Function.update s.life p l } := by
  refine ⟨?_, h.guarded, fun i hi => ?_, fun i hi => ?_⟩
  · have hkeep : ∀ i x, (if Function.update s.life p l (owner i) = .gone then none
        else (s.workers i).held) = some x → s.table owner i = some x := by
      intro i x hx
      split at hx
      · cases hx
      · rw [Host.table, if_neg, hx]
        by_cases hi : owner i = p
        · rw [hi]; exact hp
        · rwa [Function.update_of_ne hi] at *
    intro i j key m m' hij hi hj
    exact h.table i j key m m' hij (hkeep i _ hi) (hkeep j _ hj)
  · simp only at hi
    by_cases hip : owner i = p
    · rw [hip, Function.update_self] at hi
      exact hg hi i hip
    · rw [Function.update_of_ne hip] at hi
      exact h.gone i hi
  · simp only
    by_cases hip : owner i = p
    · rw [hip, Function.update_self]; exact hl
    · rw [Function.update_of_ne hip]; exact h.going i hi

theorem locked_step {e : Host.Ev k n} (h : s.Locked Es owner)
    (hst : s.step Es owner e = some s') : s'.Locked Es owner := by
  cases e with
  | run i => exact locked_run h hst
  | signal p =>
    obtain ⟨hp, rfl⟩ := host_signal hst
    exact locked_life h (by decide) (by rw [hp]; decide) (by intro hh; cases hh)
  | stop i sent =>
    obtain ⟨hp, -, rfl⟩ := host_stop hst
    refine ⟨h.table, h.guarded, fun j hj => ?_, fun j hj => ?_⟩
    · simp only
      by_cases hji : j = i
      · rw [hji, Function.update_self]
      · rw [Function.update_of_ne hji]; exact h.gone j hj
    · simp only at hj ⊢
      by_cases hji : j = i
      · rw [hji, hp]; decide
      · rw [Function.update_of_ne hji] at hj; exact h.going j hj
  | exit p =>
    obtain ⟨hp, hall, rfl⟩ := host_exit hst
    exact locked_life h (by decide) (by rw [hp]; decide) (fun _ => hall)

theorem locked_start (reqs : Fin n → Incoming) (files : Files) :
    Host.Locked Es owner (.start reqs files) where
  table i j key m m' _ hi := by cases hi
  guarded i := .outside rfl rfl (fun m hm => by cases hm) (Nat.zero_le _)
  gone i hi := by cases hi
  going i hi := by cases hi

/-! ## The audit logs -/

/-- The line of a process's own log. -/
def Effect.inLog (owner : Fin n → Fin k) (p : Fin k) : Effect n → Option (Fin n × LogLine)
  | .line i l => if owner i = p then some (i, l) else none
  | .cut _ _ => none

/-- The line of one request. -/
def Effect.lineOf (i : Fin n) : Effect n → Option LogLine
  | .line j l => if j = i then some l else none
  | .cut _ _ => none

/-- Each log is what its process wrote of the history, and each request keeps
to its plan. -/
structure Host.Recorded (owner : Fin n → Fin k) (reqs : Fin n → Incoming) (s : Host k n) :
    Prop where
  logs : ∀ p, s.logs p = s.history.filterMap (Effect.inLog owner p)
  planned : ∀ i, Planned (reqs i) ⟨s.workers i, s.history.filterMap (Effect.lineOf i)⟩

theorem inLog_line (p : Fin k) (i : Fin n) (o : Option LogLine) :
    (o.toList.map (Effect.line i)).filterMap (Effect.inLog owner p) =
      if owner i = p then o.toList.map (i, ·) else [] := by
  cases o with
  | none => simp
  | some l => by_cases h : owner i = p <;> simp [Effect.inLog, h]

theorem lineOf_line (i j : Fin n) (o : Option LogLine) :
    (o.toList.map (Effect.line i)).filterMap (Effect.lineOf j) = if i = j then o.toList else [] := by
  cases o with
  | none => simp
  | some l => by_cases h : i = j <;> simp [Effect.lineOf, h]

/-- What a stopping thread leaves is in no log. -/
theorem leaves_unlogged {α : Type} {f : Effect n → Option α} (hf : ∀ i b, f (.cut i b) = none)
    (E : Env) (files : Files) (i : Fin n) (w : Worker) :
    (leaves E files i w).filterMap f = [] := by
  unfold leaves
  split
  · cases files (E.fileOf w.conn.uri) <;> simp [hf]
  · rfl

theorem recorded_step {reqs : Fin n → Incoming} {e : Host.Ev k n} (h : s.Recorded owner reqs)
    (hst : s.step Es owner e = some s') : s'.Recorded owner reqs := by
  cases e with
  | run i =>
    obtain ⟨-, o, ho, rfl⟩ := host_run hst
    refine ⟨fun p => ?_, fun j => ?_⟩
    · simp only [List.filterMap_append, inLog_line, ← h.logs p]
      by_cases hp : owner i = p
      · subst hp; simp
      · simp [Function.update_of_ne (Ne.symm hp), hp]
    · simp only [List.filterMap_append, lineOf_line]
      by_cases hj : i = j
      · subst hj
        have hstep : (Solo.step (Es (owner i))
            ⟨s.workers i, s.history.filterMap (Effect.lineOf i)⟩ (s.free owner i, s.files)) =
            some ⟨o.worker, s.history.filterMap (Effect.lineOf i) ++ o.line.toList⟩ := by
          simp [Solo.step, ho]
        simpa using planned_step (h.planned i) hstep
      · simpa [hj, Function.update_of_ne (Ne.symm hj)] using h.planned j
  | signal p =>
    obtain ⟨-, rfl⟩ := host_signal hst
    exact ⟨h.logs, h.planned⟩
  | stop i sent =>
    obtain ⟨-, -, rfl⟩ := host_stop hst
    refine ⟨fun p => ?_, fun j => ?_⟩
    · simp only [List.filterMap_append]
      rw [leaves_unlogged fun _ _ => rfl, List.append_nil]
      exact h.logs p
    · simp only [List.filterMap_append]
      rw [leaves_unlogged fun _ _ => rfl, List.append_nil]
      exact h.planned j
  | exit p =>
    obtain ⟨-, -, rfl⟩ := host_exit hst
    exact ⟨h.logs, h.planned⟩

end

end HttpC.L5
