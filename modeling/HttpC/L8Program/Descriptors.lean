import Mathlib.Data.Finset.Option
import HttpC.Core.Handles
import HttpC.L8Program.HandOff

/-!
# Every descriptor of the process

Besides its connection a handler has two descriptors in local variables:
`lockfd`, which `uri_lock` opens and then waits on with `flock`
(src/httpserver.c:111-125), and `fd`, the file. All three kinds are numbers of
one table, which the kernel hands out again as soon as they are closed: a
`close` too many would close somebody else's connection, lock or file (and
closing a lockfile gives up its lock), a `close` too few would in the end leave
`accept` without a number.

`Fds` puts the two variables beside the program. `open` and `accept` return any
number that is not open for anything. The lockfile is opened in a step of its
own, before the `flock` that may wait; a failing `flock` closes it again.

`descriptors_kept` is the discipline over whole runs: every `close` closes what
its own handler opened, nothing is left open by a handler that has returned,
and there is a bound on what can be open at a time, whatever the clients do.
-/
namespace HttpC.L8
open HttpC.L1.Util HttpC.L2 HttpC.L3 HttpC.L4 HttpC.L5 HttpC.Flock

/-- The local variables of `handle_get` and `handle_put`. -/
inductive Slot where
  | lockfd | fd
  deriving DecidableEq, Repr

structure Fds (t m : Nat) where
  prog : Prog t m
  files : Handles.Table (Fin m × Slot)

/-- An event of the program in which no `open` succeeds, or an `open` of a
worker, with the number it returns. -/
inductive Sc (t : Nat) where
  | ev (e : Ev t) | opens (i : Fin t) (x : Int)
  deriving DecidableEq, Repr

/-- The place right after a successful `open` of the file. -/
def justOpened : Pc → Bool
  | .getStat | .putTrunc _ => true
  | _ => false

variable {t m : Nat}

/-- The connection whose handler worker `i` is in. -/
def Prog.running (s : Prog t m) (i : Fin t) : Option (Fin m) :=
  match s.pool.workers i, s.serving i with
  | .handling _, some c => if (s.sys.workers c).pc = .done then none else some c
  | _, _ => none

namespace Fds

def isOpen (s : Fds t m) (x : Int) : Prop := s.prog.table x ≠ none ∨ s.files.opened x ≠ none

/-- A step of the program, with what it does to the descriptors. -/
def along (E : Env) (s : Fds t m) (e : Ev t) (files : Handles.Table (Fin m × Slot)) :
    Option (Fds t m) :=
  (s.prog.step E e).map fun p => ⟨p, files⟩

/-- mirrors src/httpserver.c:111-132,271-390, the calls that open and close -/
def stepWorker (E : Env) (s : Fds t m) (i : Fin t) : Option (Fds t m) :=
  match s.prog.running i with
  | none => s.along E (.worker i) s.files
  | some c =>
    match (s.prog.sys.workers c).pc with
    | .lock _ =>
      if (s.prog.sys.workers c).oracle.uriLock then
        -- `flock`, on the open lockfile
        if (s.files.var (c, .lockfd)).isSome then s.along E (.worker i) s.files else none
      else
        -- `open` failed, or `flock` did
        s.along E (.worker i) (s.files.close (c, .lockfd))
    | .tail (.closeFd :: _) => s.along E (.worker i) (s.files.close (c, .fd))
    | .tail (.unlock :: _) => s.along E (.worker i) (s.files.close (c, .lockfd))
    | _ =>
      (s.along E (.worker i) s.files).filter fun s' => !justOpened (s'.prog.sys.workers c).pc

/-- An `open` that returns `x`. -/
def stepOpen (E : Env) (s : Fds t m) (i : Fin t) (x : Int) : Option (Fds t m) :=
  match s.prog.running i with
  | none => none
  | some c =>
    match (s.prog.sys.workers c).pc with
    | .lock _ =>
      if s.files.var (c, .lockfd) = none then
        some { s with files := s.files.take (c, .lockfd) x }
      else none
    | .getOpen | .putOpen _ =>
      (s.along E (.worker i) (s.files.take (c, .fd) x)).filter fun s' =>
        justOpened (s'.prog.sys.workers c).pc
    | _ => none

def step (E : Env) (s : Fds t m) : Sc t → Option (Fds t m)
  | .ev (.worker i) => s.stepWorker E i
  | .ev (.accept x) => if s.files.opened x = none then s.along E (.accept x) s.files else none
  | .ev e => s.along E e s.files
  | .opens i x =>
    if 0 ≤ x ∧ s.prog.table x = none ∧ s.files.opened x = none then s.stepOpen E i x else none

end Fds

def descriptors (t : Nat) (junk : Nat → Int) (E : Env) (reqs : Fin m → Incoming) (files : Files) :
    LTS (Fds t m) (Sc t) :=
  .ofFn (· = ⟨Prog.initial t junk reqs files, .empty⟩) (Fds.step E)

/-! ## What a handler's step does to its two variables -/

/-- `fd` is open. -/
def fileOpen : Pc → Bool
  | .getStat | .getHead _ | .getSend _ _ | .putTrunc _ | .putLeft _ | .putRecv _ _ => true
  | .tail acts => decide (.closeFd ∈ acts)
  | _ => false

inductive Touch (w : Worker) (pc' : Pc) : Prop where
  | flock (op : Mode) (hpc : w.pc = .lock op) (hin : pc'.inside = w.oracle.uriLock)
      (hf : fileOpen pc' = false) (hl : ∀ op, pc' ≠ .lock op) (hj : justOpened pc' = false)
  | opens (hj : justOpened w.pc = false) (hj' : justOpened pc' = true) (hl : ∀ op, w.pc ≠ .lock op)
      (hw : fileOpen w.pc = false) (hin : pc'.inside = w.pc.inside)
      (ht : ∀ acts, w.pc ≠ .tail acts)
  | closeFd (as : List Act) (hpc : w.pc = .tail (.closeFd :: as)) (hin : pc'.inside = w.pc.inside)
      (hf : fileOpen pc' = false)
  | unlock (as : List Act) (hpc : w.pc = .tail (.unlock :: as)) (hin : pc'.inside = false)
      (hf : fileOpen pc' = fileOpen w.pc)
  | other (hl : ∀ op, w.pc ≠ .lock op) (hc : ∀ as, w.pc ≠ .tail (.closeFd :: as))
      (hu : ∀ as, w.pc ≠ .tail (.unlock :: as)) (hj : justOpened pc' = false)
      (hin : pc'.inside = w.pc.inside) (hf : fileOpen pc' = fileOpen w.pc)

section
variable {E : Env} {w : Worker} {free : Bytes → Mode → Bool} {files : Files} {o : Outcome}

theorem touch_act {a : Act} {as : List Act} (hpc : w.pc = .tail (a :: as)) (hg : Guarded E w)
    (hc : (a :: as).count .closeFd ≤ 1) : Touch w (.tail as) := by
  have honce := hg.once
  rw [hpc, Pc.unlocks] at honce
  by_cases ha : a = .closeFd
  · subst ha
    rw [List.count_cons_self] at hc
    have hnot : Act.closeFd ∉ as := List.count_eq_zero.mp (by omega)
    exact .closeFd as hpc (by rw [hpc]; simp [Pc.inside]) (by simpa [fileOpen] using hnot)
  by_cases hu : a = .unlock
  · subst hu
    rw [List.count_cons_self] at honce
    have hnot : Act.unlock ∉ as := List.count_eq_zero.mp (by omega)
    exact .unlock as hpc (by simpa [Pc.inside] using hnot) (by rw [hpc]; simp [fileOpen])
  · refine .other (by rw [hpc]; simp) ?_ ?_ rfl ?_ ?_
    · rw [hpc]; intro as' he; cases he; exact ha rfl
    · rw [hpc]; intro as' he; cases he; exact hu rfl
    · rw [hpc]; simp [Pc.inside, Ne.symm hu]
    · rw [hpc]; simp [fileOpen, Ne.symm ha]

theorem touch_flow {pc pc' : Pc} {acts : List Act} (h : Flow pc acts pc') (hl : ∀ op, pc ≠ .lock op)
    (hpc : w.pc = pc) : Touch w pc' := by
  cases h
  case lockFails op => exact absurd rfl (hl op)
  case lockShared => exact absurd rfl (hl .SH)
  case lockExclusive => exact absurd rfl (hl .EX)
  case getOpened | putOpened =>
    exact .opens (by rw [hpc]; rfl) rfl (by rw [hpc]; exact hl) (by rw [hpc]; rfl) (by rw [hpc]; rfl)
      (by rw [hpc]; simp)
  all_goals
    exact .other (by rw [hpc]; exact hl) (by rw [hpc]; simp) (by rw [hpc]; simp) rfl
      (by rw [hpc]; simp [Pc.inside, exitLocked, exitOpen, exitSent])
      (by rw [hpc]; simp [fileOpen, exitLocked, exitOpen, exitSent])

/-- **A step opens, closes or leaves alone.** -/
theorem step_touch (hg : Guarded E w) (hc : ∀ acts, w.pc = .tail acts → acts.count .closeFd ≤ 1)
    (ho : w.step E free files = some o) : Touch w o.worker.pc := by
  cases hpc : w.pc with
  | new =>
    simp only [Worker.step, hpc] at ho
    split at ho <;> cases ho <;>
      exact .other (by rw [hpc]; simp) (by rw [hpc]; simp) (by rw [hpc]; simp) rfl
        (by rw [hpc]; simp [Pc.inside]) (by rw [hpc]; simp [fileOpen])
  | parse =>
    simp only [Worker.step, hpc] at ho
    cases ho
    have hin := (dispatch_mode (connParse w.oracle.regcomp w.client).1
      (connParse w.oracle.regcomp w.client).2.1).1
    refine .other (by rw [hpc]; simp) (by rw [hpc]; simp) (by rw [hpc]; simp) ?_
      (by rw [hpc]; exact hin) ?_
    · simp only [dispatch]
      repeat' split
      all_goals rfl
    · rw [hpc]
      simp only [dispatch]
      repeat' split
      all_goals simp [fileOpen, exitPlain]
  | tail acts =>
    cases acts with
    | nil => simp [Worker.step, hpc] at ho
    | cons a as =>
      simp only [Worker.step, hpc, Option.some.injEq] at ho
      subst ho
      have hw : (w.act files a as).worker.pc = .tail as := by cases a <;> rfl
      rw [hw]
      exact touch_act hpc hg (hc _ hpc)
  | lock op =>
    simp only [Worker.step, hpc] at ho
    split at ho
    · rename_i hu
      cases ho
      exact .flock op hpc (by rw [hu]; simp [exitPlain, Pc.inside]) (by simp [exitPlain, fileOpen])
        (by simp [exitPlain]) rfl
    · rename_i hu
      split at ho
      · cases ho
        have hu : w.oracle.uriLock = true := by simpa using hu
        cases op <;> exact .flock _ hpc (by rw [hu]; rfl) rfl (by simp) rfl
      · cases ho
  | _ =>
    obtain ⟨acts, hfo⟩ := step_follows ho (by rw [hpc]; rfl)
    rw [hpc] at hfo
    exact touch_flow hfo.flow (by simp) hpc

end

/-- The file is closed once. -/
theorem closes_once {E : Env} {reqs : Fin m → Incoming} {files : Files} {s : Sys m}
    (h : (server E reqs files).Reachable s) (c : Fin m) (acts : List Act)
    (hpc : (s.workers c).pc = .tail acts) : acts.count .closeFd ≤ 1 := by
  obtain ⟨-, hat⟩ := server_planned h c
  rw [show (s.solo c).worker.pc = .tail acts from hpc, PlannedAt] at hat
  have hle : acts.count .closeFd ≤ ((s.solo c).worker.trace ++ acts).count .closeFd := by
    rw [List.count_append]; omega
  refine Nat.le_trans hle ?_
  generalize (s.solo c).worker.trace ++ acts = all at hat
  rcases hat with ⟨-, he⟩ | ⟨-, res, hseq⟩
  · rw [he]; decide
  · cases hseq <;> simp

/-! ## What a step can be -/

/-- Worker `i` is in a handler. -/
theorem running_iff {s : Prog t m} {i : Fin t} {c : Fin m} : s.running i = some c ↔
    (∃ x, s.pool.workers i = .handling x) ∧ s.serving i = some c ∧ (s.sys.workers c).pc ≠ .done := by
  unfold Prog.running
  constructor
  · intro h
    split at h
    · rename_i x c' hw hc
      split at h
      · cases h
      · rename_i hd
        cases h
        exact ⟨⟨x, hw⟩, hc, hd⟩
    · cases h
  · rintro ⟨⟨x, hw⟩, hc, hd⟩
    simp only [hw, hc, if_neg hd]

/-- What a step of connection `c`'s handler, on its way to `pc'`, does to the
descriptors. -/
inductive Calls (s : Fds t m) (c : Fin m) (pc' : Pc) : Handles.Table (Fin m × Slot) → Prop where
  | flock (op : Mode) (hpc : (s.prog.sys.workers c).pc = .lock op)
      (hu : (s.prog.sys.workers c).oracle.uriLock = true) (hv : s.files.var (c, .lockfd) ≠ none) :
      Calls s c pc' s.files
  | lockFails (op : Mode) (hpc : (s.prog.sys.workers c).pc = .lock op)
      (hu : (s.prog.sys.workers c).oracle.uriLock = false) :
      Calls s c pc' (s.files.close (c, .lockfd))
  | closeFd (as : List Act) (hpc : (s.prog.sys.workers c).pc = .tail (.closeFd :: as)) :
      Calls s c pc' (s.files.close (c, .fd))
  | unlock (as : List Act) (hpc : (s.prog.sys.workers c).pc = .tail (.unlock :: as)) :
      Calls s c pc' (s.files.close (c, .lockfd))
  | openFd (x : Int) (hx : s.prog.table x = none ∧ s.files.opened x = none)
      (hj : justOpened pc' = true) : Calls s c pc' (s.files.take (c, .fd) x)
  | other (hl : ∀ op, (s.prog.sys.workers c).pc ≠ .lock op)
      (hc : ∀ as, (s.prog.sys.workers c).pc ≠ .tail (.closeFd :: as))
      (hu : ∀ as, (s.prog.sys.workers c).pc ≠ .tail (.unlock :: as))
      (hj : justOpened pc' = false) : Calls s c pc' s.files

/-- One step of the process. -/
inductive Moves (E : Env) (s : Fds t m) : Fds t m → Prop where
  /-- no handler moves, and a number accepted is not open -/
  | apart (e : Ev t) (p : Prog t m) (hp : s.prog.step E e = some p) (hs : p.sys = s.prog.sys)
      (hx : ∀ x, s.files.opened x ≠ none → s.prog.table x = none → p.table x = none) :
      Moves E s ⟨p, s.files⟩
  /-- the lockfile is opened -/
  | lockOpen (i : Fin t) (c : Fin m) (x : Int) (op : Mode) (hc : s.prog.running i = some c)
      (hpc : (s.prog.sys.workers c).pc = .lock op) (hv : s.files.var (c, .lockfd) = none)
      (hx : s.prog.table x = none ∧ s.files.opened x = none) :
      Moves E s { s with files := s.files.take (c, .lockfd) x }
  /-- a handler moves -/
  | handler (i : Fin t) (c : Fin m) (p : Prog t m) (o : Outcome) (T : Handles.Table (Fin m × Slot))
      (hp : s.prog.step E (.worker i) = some p)
      (ho : (s.prog.sys.workers c).step E (s.prog.sys.free c) s.prog.sys.files = some o)
      (hw : p.sys.workers = Function.update s.prog.sys.workers c o.worker)
      (ht : ∀ x, s.prog.table x = none → p.table x = none) (hT : Calls s c o.worker.pc T) :
      Moves E s ⟨p, T⟩

section
variable {E : Env} {s s' : Fds t m}

/-- A worker in a handler moves the handler. -/
theorem running_step {p p' : Prog t m} {i : Fin t} {c : Fin m} (hc : p.running i = some c)
    (hp : p.step E (.worker i) = some p') :
    ∃ o, (p.sys.workers c).step E (p.sys.free c) p.sys.files = some o ∧
      p'.sys.workers = Function.update p.sys.workers c o.worker ∧
      ∀ x, p.table x = none → p'.table x = none := by
  obtain ⟨⟨x, hw⟩, hs, hd⟩ := running_iff.mp hc
  cases stepWorker_works hp with
  | serve connfd c' y hw' hc' hd' hy =>
    rw [hs] at hc'
    cases hc'
    obtain ⟨o, ho, -, -, hyw⟩ := step_inv hy
    refine ⟨o, ho, hyw, fun z hz => ?_⟩
    simp only
    split
    · by_cases he : z = connfd
      · rw [he, Function.update_self]
      · rw [Function.update_of_ne he]; exact hz
    · exact hz
  | «return» connfd c' hw' hc' hd' =>
    rw [hs] at hc'
    cases hc'
    exact absurd hd' hd
  | start connfd hx hw' => rw [hw] at hw'; cases hw'
  | exit hw' => rw [hw] at hw'; cases hw'
  | pop pc sh pc' hw' hp => rw [hw] at hw'; cases hw'

/-- Otherwise it moves none. -/
theorem idle_step {p p' : Prog t m} {i : Fin t} (hc : p.running i = none)
    (hp : p.step E (.worker i) = some p') : p'.sys = p.sys ∧ p'.table = p.table := by
  cases stepWorker_works hp with
  | serve connfd c y hw hs hd hy =>
    rw [running_iff.mpr ⟨⟨connfd, hw⟩, hs, hd⟩] at hc
    cases hc
  | «return» | start | exit | pop => exact ⟨rfl, rfl⟩

theorem along_inv {e : Ev t} {T : Handles.Table (Fin m × Slot)} (h : s.along E e T = some s') :
    ∃ p, s.prog.step E e = some p ∧ s' = ⟨p, T⟩ := by
  obtain ⟨p, hp, rfl⟩ := Option.map_eq_some_iff.mp h
  exact ⟨p, hp, rfl⟩

theorem stepWorker_moves {i : Fin t} (h : s.stepWorker E i = some s') : Moves E s s' := by
  unfold Fds.stepWorker at h
  split at h
  · rename_i hc
    obtain ⟨p, hp, rfl⟩ := along_inv h
    obtain ⟨hs, ht⟩ := idle_step hc hp
    exact .apart (.worker i) p hp hs fun x _ hx => by rw [ht]; exact hx
  · rename_i c hc
    split at h
    · rename_i op hpc
      split at h
      · rename_i hu
        split at h
        · rename_i hv
          obtain ⟨p, hp, rfl⟩ := along_inv h
          obtain ⟨o, ho, hw, ht⟩ := running_step hc hp
          exact .handler i c p o _ hp ho hw ht
            (.flock op hpc hu (Option.isSome_iff_ne_none.mp hv))
        · cases h
      · rename_i hu
        obtain ⟨p, hp, rfl⟩ := along_inv h
        obtain ⟨o, ho, hw, ht⟩ := running_step hc hp
        exact .handler i c p o _ hp ho hw ht (.lockFails op hpc (by simpa using hu))
    · rename_i as hpc
      obtain ⟨p, hp, rfl⟩ := along_inv h
      obtain ⟨o, ho, hw, ht⟩ := running_step hc hp
      exact .handler i c p o _ hp ho hw ht (.closeFd as hpc)
    · rename_i as hpc
      obtain ⟨p, hp, rfl⟩ := along_inv h
      obtain ⟨o, ho, hw, ht⟩ := running_step hc hp
      exact .handler i c p o _ hp ho hw ht (.unlock as hpc)
    · rename_i hl hcl hu
      obtain ⟨h, hj⟩ := Option.filter_eq_some_iff.mp h
      obtain ⟨p, hp, rfl⟩ := along_inv h
      obtain ⟨o, ho, hw, ht⟩ := running_step hc hp
      rw [hw, Function.update_self] at hj
      exact .handler i c p o _ hp ho hw ht (.other hl hcl hu (by simpa using hj))

theorem stepOpen_moves {i : Fin t} {x : Int} (hx : s.prog.table x = none ∧ s.files.opened x = none)
    (h : s.stepOpen E i x = some s') : Moves E s s' := by
  have file : ∀ {c : Fin m}, s.prog.running i = some c →
      (s.along E (.worker i) (s.files.take (c, .fd) x)).filter
        (fun s' => justOpened (s'.prog.sys.workers c).pc) = some s' → Moves E s s' := by
    intro c hc h
    obtain ⟨h, hj⟩ := Option.filter_eq_some_iff.mp h
    obtain ⟨p, hp, rfl⟩ := along_inv h
    obtain ⟨o, ho, hw, ht⟩ := running_step hc hp
    rw [hw, Function.update_self] at hj
    exact .handler i c p o _ hp ho hw ht (.openFd x hx hj)
  unfold Fds.stepOpen at h
  split at h
  · cases h
  · rename_i c hc
    split at h
    · rename_i op hpc
      split at h
      · rename_i hv
        cases h
        exact .lockOpen i c x op hc hpc hv hx
      · cases h
    · exact file hc h
    · exact file hc h
    · cases h

theorem step_moves {e : Sc t} (h : s.step E e = some s') : Moves E s s' := by
  cases e with
  | opens i x =>
    simp only [Fds.step] at h
    split at h
    · rename_i hx
      exact stepOpen_moves hx.2 h
    · cases h
  | ev e =>
    cases e with
    | worker i => exact stepWorker_moves h
    | accept x =>
      simp only [Fds.step] at h
      split at h
      · rename_i hx
        obtain ⟨p, hp, rfl⟩ := along_inv h
        obtain ⟨hm, -, rfl⟩ := accept_inv hp
        refine .apart (.accept x) _ hp rfl fun y hy hty => ?_
        have hne : y ≠ x := by rintro rfl; exact hy hx
        simp only [Function.update_of_ne hne]
        exact hty
      · cases h
    | acceptFails =>
      obtain ⟨p, hp, rfl⟩ := along_inv h
      refine .apart _ p hp ?_ ?_ <;> simp only [Prog.step] at hp <;> split at hp <;> cases hp
      · rfl
      · exact fun x _ hx => hx
    | caller | createFails =>
      obtain ⟨p, hp, rfl⟩ := along_inv h
      refine .apart _ p hp ?_ ?_ <;> obtain ⟨q, -, rfl⟩ := Option.map_eq_some_iff.mp hp
      · rfl
      · exact fun x _ hx => hx

/-- It is a step of the program, or none. -/
theorem Moves.prog (h : Moves E s s') :
    s'.prog = s.prog ∨ ∃ e, s.prog.step E e = some s'.prog := by
  cases h with
  | apart e p hp => exact .inr ⟨e, hp⟩
  | lockOpen => exact .inl rfl
  | handler i c p o T hp => exact .inr ⟨.worker i, hp⟩

end

/-! ## The invariant -/

/-- What the variables of one connection hold at a place of its handler. -/
structure HeldAt (T : Handles.Table (Fin m × Slot)) (c : Fin m) (pc : Pc) : Prop where
  locked : pc.inside = true → T.var (c, .lockfd) ≠ none
  locking : T.var (c, .lockfd) ≠ none → pc.serving = true
  file : T.var (c, .fd) ≠ none ↔ fileOpen pc = true

structure Held (s : Fds t m) : Prop where
  exact : s.files.Exact
  apart : ∀ x, s.files.opened x ≠ none → s.prog.table x = none
  held : ∀ c, HeldAt s.files c (s.prog.sys.workers c).pc

section
variable {E : Env} {s s' : Fds t m}

theorem serving_of_inside {pc : Pc} (h : pc.inside = true) : pc.serving = true := by
  cases pc <;> simp_all [Pc.serving, Pc.inside]

/-- Away from its lock a handler serves as long as it is inside. -/
theorem inside_of_serving {pc : Pc} (hl : ∀ op, pc ≠ .lock op) (h : pc.serving = true) :
    pc.inside = true := by
  cases pc
  case lock op => exact absurd rfl (hl op)
  all_goals exact h

/-- The variables of the others. -/
theorem HeldAt.frame {T T' : Handles.Table (Fin m × Slot)} {c : Fin m} {pc : Pc} (h : HeldAt T c pc)
    (hv : ∀ v, T'.var (c, v) = T.var (c, v)) : HeldAt T' c pc := by
  obtain ⟨h1, h2, h3⟩ := h
  exact ⟨by rw [hv]; exact h1, by rw [hv]; exact h2, by rw [hv]; exact h3⟩

/-- A handler's step keeps its own variables and its place together. -/
theorem heldAt_step {c : Fin m} {pc' : Pc} {T : Handles.Table (Fin m × Slot)}
    (h : HeldAt s.files c (s.prog.sys.workers c).pc) (ht : Touch (s.prog.sys.workers c) pc')
    (hT : Calls s c pc' T) : HeldAt T c pc' := by
  have hother : ∀ v w : Slot, v ≠ w → ((c, v) : Fin m × Slot) ≠ (c, w) := fun v w hvw he =>
    hvw (congrArg Prod.snd he)
  cases hT with
  | flock op hpc hu hv =>
    cases ht with
    | flock _ _ hin hf =>
      rw [hu] at hin
      exact ⟨fun _ => hv, fun _ => serving_of_inside hin, by rw [h.file, hpc, hf]; simp [fileOpen]⟩
    | opens _ _ hl => exact absurd hpc (hl op)
    | closeFd as hpc' => rw [hpc] at hpc'; cases hpc'
    | unlock as hpc' => rw [hpc] at hpc'; cases hpc'
    | other hl => exact absurd hpc (hl op)
  | lockFails op hpc hu =>
    cases ht with
    | flock _ _ hin hf =>
      rw [hu] at hin
      refine ⟨fun hi => (by rw [hin] at hi; cases hi), fun hv => absurd Handles.Table.close_var hv,
        ?_⟩
      rw [Handles.Table.close_var_of_ne (hother _ _ (by decide)), h.file, hpc, hf]
      simp [fileOpen]
    | opens _ _ hl => exact absurd hpc (hl op)
    | closeFd as hpc' => rw [hpc] at hpc'; cases hpc'
    | unlock as hpc' => rw [hpc] at hpc'; cases hpc'
    | other hl => exact absurd hpc (hl op)
  | closeFd as hpc =>
    cases ht with
    | flock _ hpc' => rw [hpc] at hpc'; cases hpc'
    | opens _ _ _ _ _ htail => exact absurd hpc (htail _)
    | closeFd as' _ hin hf =>
      have hlv : (s.files.close (c, .fd)).var (c, .lockfd) = s.files.var (c, .lockfd) :=
        Handles.Table.close_var_of_ne (hother _ _ (by decide))
      refine ⟨?_, ?_, ?_⟩
      · rw [hlv, hin]; exact h.locked
      · rw [hlv]
        intro hv
        have hs := h.locking hv
        rw [hpc] at hs
        exact serving_of_inside (by rw [hin, hpc]; exact hs)
      · rw [Handles.Table.close_var, hf]; simp
    | unlock as' hpc' => rw [hpc] at hpc'; cases hpc'
    | other _ hc => exact absurd hpc (hc _)
  | unlock as hpc =>
    cases ht with
    | flock _ hpc' => rw [hpc] at hpc'; cases hpc'
    | opens _ _ _ _ _ htail => exact absurd hpc (htail _)
    | closeFd as' hpc' => rw [hpc] at hpc'; cases hpc'
    | unlock as' _ hin hf =>
      refine ⟨fun hi => (by rw [hin] at hi; cases hi), fun hv => absurd Handles.Table.close_var hv,
        ?_⟩
      rw [Handles.Table.close_var_of_ne (hother _ _ (by decide)), h.file, hf]
    | other _ _ hu => exact absurd hpc (hu _)
  | openFd x hx hj =>
    have hlv : (s.files.take (c, .fd) x).var (c, .lockfd) = s.files.var (c, .lockfd) :=
      Handles.Table.take_var_of_ne (hother _ _ (by decide))
    cases ht with
    | opens _ _ hl _ hin =>
      refine ⟨?_, ?_, ?_⟩
      · rw [hlv, hin]; exact h.locked
      · rw [hlv]
        exact fun hv => serving_of_inside (by rw [hin]; exact inside_of_serving hl (h.locking hv))
      · rw [Handles.Table.take_var]
        cases pc' <;> simp_all [justOpened, fileOpen]
    | flock _ _ _ _ _ hj' => rw [hj'] at hj; cases hj
    | closeFd _ _ _ hf => cases pc' <;> simp_all [justOpened, fileOpen]
    | unlock _ _ hin => cases pc' <;> simp_all [justOpened, Pc.inside]
    | other _ _ _ hj' => rw [hj'] at hj; cases hj
  | other hl hc hu hj =>
    cases ht with
    | flock op hpc => exact absurd hpc (hl op)
    | opens _ hj' => rw [hj] at hj'; cases hj'
    | closeFd as hpc => exact absurd hpc (hc as)
    | unlock as hpc => exact absurd hpc (hu as)
    | other _ _ _ _ hin hf =>
      exact ⟨by rw [hin]; exact h.locked,
        fun hv => serving_of_inside (by rw [hin]; exact inside_of_serving hl (h.locking hv)),
        by rw [h.file, hf]⟩

/-- A call of one handler leaves the variables of the others. -/
theorem Calls.frame {c c' : Fin m} {pc' : Pc} {T : Handles.Table (Fin m × Slot)}
    (hT : Calls s c pc' T) (hc : c' ≠ c) (v : Slot) : T.var (c', v) = s.files.var (c', v) := by
  have hne : ∀ w : Slot, ((c', v) : Fin m × Slot) ≠ (c, w) := fun w he => hc (congrArg Prod.fst he)
  cases hT with
  | flock | other => rfl
  | lockFails | closeFd | unlock => exact Handles.Table.close_var_of_ne (hne _)
  | openFd => exact Handles.Table.take_var_of_ne (hne _)

theorem Calls.exact {c : Fin m} {pc' : Pc} {T : Handles.Table (Fin m × Slot)} (hT : Calls s c pc' T)
    (ht : Touch (s.prog.sys.workers c) pc') (h : Held s) :
    T.Exact ∧ ∀ x, T.opened x ≠ none → s.prog.table x = none := by
  have hclose : ∀ k, (s.files.close k).Exact ∧
      ∀ x, (s.files.close k).opened x ≠ none → s.prog.table x = none := fun k =>
    ⟨h.exact.close, fun x hx => h.apart x fun hn => hx (Handles.Table.close_opened hn)⟩
  cases hT with
  | flock | other => exact ⟨h.exact, h.apart⟩
  | lockFails | closeFd | unlock => exact hclose _
  | openFd x hx hj =>
    have hv : s.files.var (c, .fd) = none := by
      by_contra hv
      have hf := (h.held c).file.mp hv
      cases ht with
      | opens _ _ _ hw => rw [hw] at hf; cases hf
      | flock _ _ _ _ _ hj' => rw [hj'] at hj; cases hj
      | closeFd _ _ _ hf' => cases pc' <;> simp_all [justOpened, fileOpen]
      | unlock _ _ hin => cases pc' <;> simp_all [justOpened, Pc.inside]
      | other _ _ _ hj' => rw [hj'] at hj; cases hj
    refine ⟨h.exact.take hv hx.2, fun y hy => ?_⟩
    by_cases he : y = x
    · rw [he]; exact hx.1
    · rw [Handles.Table.take_opened_of_ne he] at hy
      exact h.apart y hy

theorem held_step {reqs : Fin m → Incoming} {files : Files} (h : Held s)
    (hsrv : (server E reqs files).Reachable s.prog.sys) (hm : Moves E s s') : Held s' := by
  cases hm with
  | apart e p hp hs hx =>
    exact ⟨h.exact, fun x hxo => hx x hxo (h.apart x hxo), fun c => by rw [hs]; exact h.held c⟩
  | lockOpen i c x op hc hpc hv hx =>
    refine ⟨h.exact.take hv hx.2, fun y hy => ?_, fun c' => ?_⟩
    · by_cases he : y = x
      · rw [he]; exact hx.1
      · rw [Handles.Table.take_opened_of_ne he] at hy
        exact h.apart y hy
    · by_cases hcc : c' = c
      · subst hcc
        refine ⟨fun _ => by rw [Handles.Table.take_var]; simp, fun _ => by rw [hpc]; rfl, ?_⟩
        rw [Handles.Table.take_var_of_ne (by simp)]
        exact (h.held c').file
      · exact (h.held c').frame fun v =>
          Handles.Table.take_var_of_ne fun he => hcc (congrArg Prod.fst he)
  | handler i c p o T hp ho hw ht hT =>
    have htouch := step_touch (server_guarded hsrv c) (closes_once hsrv c) ho
    obtain ⟨hex, hap⟩ := hT.exact htouch h
    refine ⟨hex, fun x hx => ht x (hap x hx), fun c' => ?_⟩
    simp only [hw]
    by_cases hcc : c' = c
    · subst hcc
      rw [Function.update_self]
      exact heldAt_step (h.held c') htouch hT
    · rw [Function.update_of_ne hcc]
      exact (h.held c').frame (hT.frame hcc)

end

section
variable {junk : Nat → Int} {E : Env} {reqs : Fin m → Incoming} {files : Files} {s : Fds t m}

theorem descriptors_held (h : (descriptors t junk E reqs files).Reachable s) :
    (program t junk E reqs files).Reachable s.prog ∧ Held s := by
  have hI : (descriptors t junk E reqs files).Inductive fun s =>
      (program t junk E reqs files).Reachable s.prog ∧ Held s := by
    refine ⟨?_, ?_⟩
    · intro s hs
      subst hs
      refine ⟨⟨_, [], rfl, .nil _⟩, Handles.Table.exact_empty, fun x hx => absurd rfl hx, fun c => ?_⟩
      exact ⟨fun hi => (by cases hi), fun hv => absurd rfl hv, ⟨fun hv => absurd rfl hv,
        fun hf => (by cases hf)⟩⟩
    · intro s e s' hs hst
      have hm := step_moves hst
      refine ⟨?_, held_step hs.2 (program_server hs.1) hm⟩
      rcases hm.prog with he | ⟨e', he'⟩
      · rw [he]; exact hs.1
      · exact hs.1.step he'
  exact hI.reachable s h

end

/-! ## How many can be open -/

/-- A worker with an element it has popped and not handled; one that exited
keeps its sentinel. -/
def inHand : Thread → Nat
  | .popping pc => pc.elem.toList.length
  | .exited => 1
  | _ => 0

def inHandler : Thread → Nat
  | .handling _ => 1
  | _ => 0

structure Counted (s : Prog t m) : Prop where
  served : s.served.length = s.pool.handled.length
  popped : s.pool.shared.popped.length = s.pool.handled.length + tally inHand s.pool.workers
  size : s.pool.shared.queue.size = t

section
variable {E : Env} {s s' : Prog t m} {reqs : Fin m → Incoming}

theorem counted_caller (h : Counted s) (hp : PoolInv s.accepted (lift s.accepted s)) {p : Pool t}
    (hst : s.pool.stepCaller = some p) : Counted { s with pool := p } := by
  unfold Pool.stepCaller at hst
  split at hst
  · cases hst
  · rename_i i rest ht
    cases hst
    have hun := created_unborn hp ht
    refine ⟨h.served, ?_, h.size⟩
    have htally := tally_update inHand s.pool.workers i (.popping .waitEmpty)
    have hpop := h.popped
    rw [hun] at htally
    simp only [inHand, Pop.elem, Option.toList_none, List.length_nil] at htally
    simp only
    omega
  · split at hst
    · cases hst; exact ⟨h.served, h.popped, h.size⟩
    · obtain ⟨⟨sh, pc'⟩, hpush, rfl⟩ := Option.map_eq_some_iff.mp hst
      refine ⟨h.served, ?_, (Push.conserved hpush).size.trans h.size⟩
      simp only [(Push.record hpush).1]
      exact h.popped
  · split at hst
    · cases hst; exact ⟨h.served, h.popped, h.size⟩
    · cases hst
  · cases hst; exact ⟨h.served, h.popped, h.size⟩

theorem counted_worker {i : Fin t} (h : Counted s) (hh : HandOff reqs s)
    (hp : PoolInv s.accepted (lift s.accepted s)) (hst : Works E s i s') : Counted s' := by
  have hpop := h.popped
  cases hst with
  | serve connfd c y hw hc hd hy => exact ⟨h.served, h.popped, h.size⟩
  | «return» connfd c hw hc hd =>
    have htally := tally_update inHand s.pool.workers i (.popping .waitEmpty)
    rw [hw] at htally
    simp only [inHand, Pop.elem, Option.toList_none, List.length_nil] at htally
    exact ⟨h.served, by simp only; omega, h.size⟩
  | start connfd hx hw =>
    obtain ⟨c, -, htab⟩ := hh.in_hand hp hw rfl hx
    have htally := tally_update inHand s.pool.workers i (.handling connfd)
    rw [hw] at htally
    simp only [inHand, Pop.elem, Option.toList_some, List.length_singleton] at htally
    refine ⟨?_, ?_, h.size⟩
    · simp [htab, h.served]
    · simp only [List.length_append, List.length_singleton]
      omega
  | exit hw =>
    have htally := tally_update inHand s.pool.workers i .exited
    rw [hw] at htally
    simp only [inHand, Pop.elem, Option.toList_some, List.length_singleton] at htally
    exact ⟨h.served, by simp only; omega, h.size⟩
  | pop pc sh pc' hw hpc =>
    have htally := tally_update inHand s.pool.workers i (.popping pc')
    rw [hw] at htally
    refine ⟨h.served, ?_, (Pop.conserved hpc).size.trans h.size⟩
    rcases (Pop.record hpc).2 with ⟨h1, h2⟩ | ⟨x, h1, h2, h3⟩
    · simp only [inHand, h2] at htally
      simp only [h1]
      omega
    · simp only [inHand, h2, h3, Option.toList_none, List.length_nil, Option.toList_some,
        List.length_singleton] at htally
      simp only [h1, List.length_append, List.length_singleton]
      omega

theorem program_counted {junk : Nat → Int} {files : Files} (ht : 1 ≤ t)
    (h : (program t junk E reqs files).Reachable s) : Counted s := by
  have hI : (program t junk E reqs files).Inductive fun s =>
      (program t junk E reqs files).Reachable s ∧ Counted s := by
    refine ⟨?_, ?_⟩
    · intro s hs
      subst hs
      refine ⟨⟨_, [], rfl, .nil _⟩, rfl, ?_, rfl⟩
      simp [Prog.initial, Pool.initial, tally, inHand]
    · intro s e s' hs hst
      refine ⟨hs.1.step hst, ?_⟩
      have hc := hs.2
      have hp := program_poolInv ht hs.1
      cases e with
      | accept x =>
        obtain ⟨hm, -, rfl⟩ := accept_inv hst
        exact ⟨hc.served, hc.popped, hc.size⟩
      | acceptFails =>
        have hst : s.step E .acceptFails = some s' := hst
        simp only [Prog.step] at hst
        split at hst <;> cases hst
        exact hc
      | caller =>
        obtain ⟨p, hcall, rfl⟩ := Option.map_eq_some_iff.mp hst
        exact counted_caller hc hp hcall
      | createFails =>
        obtain ⟨p, hf, rfl⟩ := Option.map_eq_some_iff.mp hst
        unfold Pool.stepFail at hf
        split at hf <;> cases hf
        exact ⟨hc.served, hc.popped, hc.size⟩
      | worker i => exact counted_worker hc (program_handOff ht hs.1) hp (stepWorker_works hst)
  exact (hI.reachable s h).2

/-- Connections accepted whose handler nobody called. -/
def unserved (s : Prog t m) : Finset (Fin m) :=
  Finset.univ.filter fun c => c.val < s.accepted.length ∧ c ∉ s.served.map Prod.snd

/-- Connections in a handler. -/
def underway (s : Prog t m) : Finset (Fin m) :=
  Finset.univ.filter fun c => c ∈ s.served.map Prod.snd ∧ (s.sys.workers c).pc ≠ .done

theorem unserved_le (h : HandOff reqs s) : (unserved s).card + s.served.length ≤ s.accepted.length := by
  have hdis : Disjoint (unserved s) (s.served.map Prod.snd).toFinset := by
    rw [Finset.disjoint_left]
    intro c hc
    rw [List.mem_toFinset]
    exact (Finset.mem_filter.mp hc).2.2
  have hsub : (unserved s ∪ (s.served.map Prod.snd).toFinset).image Fin.val ⊆
      Finset.range s.accepted.length := by
    intro k hk
    obtain ⟨c, hc, rfl⟩ := Finset.mem_image.mp hk
    rw [Finset.mem_range]
    rcases Finset.mem_union.mp hc with hc | hc
    · exact (Finset.mem_filter.mp hc).2.1
    · obtain ⟨e, he, rfl⟩ := List.mem_map.mp (List.mem_toFinset.mp hc)
      exact h.accepted e he
  have hcard := Finset.card_le_card hsub
  rwa [Finset.card_image_of_injective _ Fin.val_injective, Finset.card_union_of_disjoint hdis,
    List.toFinset_card_of_nodup h.once, List.length_map, Finset.card_range] at hcard

/-- Each connection in a handler has a worker in it. -/
theorem underway_le (h : HandOff reqs s) : (underway s).card ≤ tally inHandler s.pool.workers := by
  have hsub : underway s ⊆ (Finset.univ.filter fun i => inHandler (s.pool.workers i) = 1).biUnion
      fun i => (s.serving i).toFinset := by
    intro c hc
    obtain ⟨hm, hd⟩ := (Finset.mem_filter.mp hc).2
    obtain ⟨⟨i, c'⟩, he, rfl⟩ := List.mem_map.mp hm
    rcases h.ended i c' he with hs | hdone
    · obtain ⟨-, x, hw, -⟩ := h.serving i c' hs
      refine Finset.mem_biUnion.mpr ⟨i, Finset.mem_filter.mpr ⟨Finset.mem_univ i, by rw [hw]; rfl⟩, ?_⟩
      rw [hs]; simp
    · exact absurd hdone hd
  refine (Finset.card_le_card hsub).trans ((Finset.card_biUnion_le_card_mul _ _ 1 ?_).trans ?_)
  · intro i _
    cases s.serving i <;> simp
  · rw [Nat.mul_one, Finset.card_filter]
    refine Finset.sum_le_sum fun i _ => ?_
    split <;> omega

/-- A worker has something in hand or is in a handler, not both. -/
theorem hands_le (f : Fin t → Thread) : tally inHand f + tally inHandler f ≤ t := by
  unfold tally
  rw [← Finset.sum_add_distrib]
  refine (Finset.sum_le_card_nsmul _ _ 1 fun i _ => ?_).trans (by simp)
  cases f i with
  | popping pc => cases hpc : pc.elem <;> simp [inHand, inHandler, hpc]
  | unborn | handling | exited => simp [inHand, inHandler]

/-- The dispatcher is at most one ahead of the ring. -/
theorem accepted_le (h : Dispatch s) : s.accepted.length ≤ s.pool.shared.pushed.length + 1 := by
  cases h with
  | creating k hk ht ha => rw [ha]; exact Nat.zero_le _
  | failed hf ha => rw [ha]; exact Nat.zero_le _
  | idle hf ht hpc hp => rw [hp]; exact Nat.le_succ _
  | submitting x hf ht hp =>
    rw [← hp, List.length_append, List.length_drop]
    simp only [List.length_singleton]
    omega

/-- **At most one connection in the dispatcher's hand, a ring full of them, one
for each worker, and two files for each handler.** -/
theorem connections_le {junk : Nat → Int} {files : Files} (ht : 1 ≤ t)
    (h : (program t junk E reqs files).Reachable s) :
    (unserved s).card + 3 * (underway s).card ≤ 4 * t + 1 := by
  have hh := program_handOff ht h
  have hc := program_counted ht h
  have hroom := (program_poolInv ht h).queue.counts.room
  rw [lift_shared] at hroom
  have h1 := unserved_le hh
  have h2 := underway_le hh
  have h3 := hands_le s.pool.workers
  have h4 := accepted_le (program_dispatch ht h)
  have h5 := hc.served
  have h6 := hc.popped
  have h7 := hc.size
  omega

end

/-! ## The discipline -/

/-- What the process keeps, whatever the schedule, the outcomes of the calls
and the numbers the kernel hands out. -/
structure Kept (s : Fds t m) : Prop where
  /-- A number is open for one variable of one handler, which holds it, or for
  one connection. -/
  owner : ∀ x k, s.files.opened x = some k ↔ s.files.var k = some x
  apart : ∀ x, s.files.opened x ≠ none → s.prog.table x = none
  /-- Every `close` closes what its handler opened. -/
  closeFd : ∀ c as, (s.prog.sys.workers c).pc = .tail (.closeFd :: as) →
    ∃ x, s.files.var (c, .fd) = some x ∧ s.files.opened x = some (c, .fd)
  closeLock : ∀ c as, (s.prog.sys.workers c).pc = .tail (.unlock :: as) →
    ∃ x, s.files.var (c, .lockfd) = some x ∧ s.files.opened x = some (c, .lockfd)
  closeConn : ∀ i c x, s.prog.pool.workers i = .handling x → s.prog.serving i = some c →
    closing (s.prog.sys.workers c).pc = true → s.prog.table x = some c
  /-- A lock is held on an open lockfile of its holder. -/
  locked : ∀ c k, (s.prog.sys.workers c).held = some k →
    ∃ x, s.files.opened x = some (c, .lockfd)
  /-- A handler that has returned has left nothing open. -/
  ended : ∀ c, (s.prog.sys.workers c).pc = .done →
    (∀ v, s.files.var (c, v) = none) ∧ ∀ x, s.prog.table x ≠ some c
  bounded : ∀ F : Finset Int, (∀ x ∈ F, s.isOpen x) → F.card ≤ 4 * t + 1

section
variable {junk : Nat → Int} {E : Env} {reqs : Fin m → Incoming} {files : Files} {s : Fds t m}

theorem Held.in_use (h : Held s) (hh : HandOff reqs s.prog) {c : Fin m} {v : Slot} {x : Int}
    (hx : s.files.var (c, v) = some x) : c ∈ underway s.prog := by
  have hne : s.files.var (c, v) ≠ none := by rw [hx]; simp
  have hpc : (s.prog.sys.workers c).pc ≠ .new ∧ (s.prog.sys.workers c).pc ≠ .done := by
    cases v with
    | lockfd =>
      have hs := (h.held c).locking hne
      constructor <;> intro he <;> rw [he] at hs <;> cases hs
    | fd =>
      have hf := (h.held c).file.mp hne
      constructor <;> intro he <;> rw [he] at hf <;> cases hf
  refine Finset.mem_filter.mpr ⟨Finset.mem_univ c, ?_, hpc.2⟩
  by_contra hn
  apply hpc.1
  rw [hh.untouched c hn]
  rfl

/-- The open numbers are those of the connections and of the two variables of
each handler. -/
theorem Held.bounded (ht : 1 ≤ t) (hr : (program t junk E reqs files).Reachable s.prog) (h : Held s)
    (F : Finset Int) (hF : ∀ x ∈ F, s.isOpen x) : F.card ≤ 4 * t + 1 := by
  have hh := program_handOff ht hr
  have hsub : F ⊆ ((unserved s.prog).biUnion fun c => s.prog.accepted[c.val]?.toFinset) ∪
      (underway s.prog).biUnion fun c => s.prog.accepted[c.val]?.toFinset ∪
        ((s.files.var (c, .lockfd)).toFinset ∪ (s.files.var (c, .fd)).toFinset) := by
    intro x hx
    rw [Finset.mem_union, Finset.mem_biUnion, Finset.mem_biUnion]
    rcases hF x hx with hx | hx
    · obtain ⟨c, hc⟩ := Option.ne_none_iff_exists'.mp hx
      obtain ⟨hget, hd⟩ := (hh.table x c).mp hc
      by_cases hm : c ∈ s.prog.served.map Prod.snd
      · refine .inr ⟨c, Finset.mem_filter.mpr ⟨Finset.mem_univ c, hm, hd⟩, ?_⟩
        rw [hget]; simp
      · refine .inl ⟨c, Finset.mem_filter.mpr ⟨Finset.mem_univ c, ?_, hm⟩, ?_⟩
        · exact (List.getElem?_eq_some_iff.mp hget).1
        · rw [hget]; simp
    · obtain ⟨⟨c, v⟩, hc⟩ := Option.ne_none_iff_exists'.mp hx
      have hv := (h.exact x _).mp hc
      refine .inr ⟨c, h.in_use hh hv, ?_⟩
      cases v <;> simp [hv]
  have one : ∀ o : Option Int, o.toFinset.card ≤ 1 := fun o => by cases o <;> simp
  have hle := Finset.card_biUnion_le_card_mul (unserved s.prog)
    (fun c => s.prog.accepted[c.val]?.toFinset) 1 fun c _ => one _
  have hle' := Finset.card_biUnion_le_card_mul (underway s.prog)
    (fun c => s.prog.accepted[c.val]?.toFinset ∪
      ((s.files.var (c, .lockfd)).toFinset ∪ (s.files.var (c, .fd)).toFinset)) 3 fun c _ => by
        have h1 := Finset.card_union_le s.prog.accepted[c.val]?.toFinset
          ((s.files.var (c, .lockfd)).toFinset ∪ (s.files.var (c, .fd)).toFinset)
        have h2 := Finset.card_union_le (s.files.var (c, .lockfd)).toFinset
          (s.files.var (c, .fd)).toFinset
        have h3 := one s.prog.accepted[c.val]?
        have h4 := one (s.files.var (c, .lockfd))
        have h5 := one (s.files.var (c, .fd))
        omega
  have hall := (Finset.card_le_card hsub).trans (Finset.card_union_le _ _)
  have hbound := connections_le ht hr
  omega

/-- **No descriptor is lost, closed twice or closed for somebody else**, and
`t` workers never have more than `4 * t + 1` of them open. -/
theorem descriptors_kept (t : Nat) (ht : 1 ≤ t) (junk : Nat → Int) (E : Env)
    (reqs : Fin m → Incoming) (files : Files) (s : Fds t m)
    (hs : (descriptors t junk E reqs files).Reachable s) : Kept s := by
  obtain ⟨hr, h⟩ := descriptors_held hs
  have hh := program_handOff ht hr
  have hsrv := program_server hr
  have hopen : ∀ k, s.files.var k ≠ none → ∃ x, s.files.var k = some x ∧ s.files.opened x = some k := by
    intro k hk
    obtain ⟨x, hx⟩ := Option.ne_none_iff_exists'.mp hk
    exact ⟨x, hx, (h.exact x k).mpr hx⟩
  refine ⟨h.exact, h.apart, ?_, ?_, ?_, ?_, ?_, h.bounded ht hr⟩
  · intro c as hpc
    exact hopen _ ((h.held c).file.mpr (by rw [hpc]; simp [fileOpen]))
  · intro c as hpc
    exact hopen _ ((h.held c).locked (by rw [hpc]; simp [Pc.inside]))
  · intro i c x hw hc hcl
    obtain ⟨-, x', hx', hget⟩ := hh.serving i c hc
    rw [hw] at hx'
    cases hx'
    refine (hh.table x c).mpr ⟨hget, fun hd => ?_⟩
    rw [hd] at hcl
    cases hcl
  · intro c k hk
    rw [(server_guarded hsrv c).held] at hk
    split at hk
    · rename_i hin
      obtain ⟨x, -, hx⟩ := hopen _ ((h.held c).locked hin)
      exact ⟨x, hx⟩
    · cases hk
  · intro c hd
    refine ⟨fun v => ?_, fun x hx => ((hh.table x c).mp hx).2 hd⟩
    cases hv : s.files.var (c, v) with
    | none => rfl
    | some x => exact absurd hd (Finset.mem_filter.mp (h.in_use hh hv)).2.2

end

/-- One worker and three clients: the first in its handler with its file open,
the second in the ring, the third in the dispatcher's hand. All five numbers the
bound allows are open. -/
theorem descriptors_kept_five : ∃ s : Fds 1 3,
    (descriptors 1 (fun _ => 0) ⟨[], 1, 2⟩ (fun _ => getA) fun _ => some [104]).Reachable s ∧
    [5, 8, 9].map s.prog.table = [some 0, some 1, some 2] ∧
    [6, 7].map s.files.opened = [some (0, .lockfd), some (0, .fd)] ∧ Kept s := by
  have hrun : ((LTS.exec (Fds.step ⟨[], 1, 2⟩)
      ⟨Prog.initial (m := 3) 1 (fun _ => 0) (fun _ => getA) fun _ => some [104], .empty⟩
      (.ev .caller :: .ev (.accept 5) :: (List.replicate 8 (.ev .caller) ++
        List.replicate 10 (.ev (.worker 0)) ++
        [.opens 0 6, .ev (.worker 0), .opens 0 7, .ev (.accept 8)] ++
        List.replicate 8 (.ev .caller) ++ [.ev (.accept 9)]))).map fun s =>
          ([5, 8, 9].map s.prog.table, [6, 7].map s.files.opened)) =
      some ([some 0, some 1, some 2], [some (0, .lockfd), some (0, .fd)]) := by decide
  obtain ⟨s, hs, hd⟩ := Option.map_eq_some_iff.mp hrun
  simp only [Prod.mk.injEq] at hd
  have hr : (descriptors 1 (fun _ => 0) ⟨[], 1, 2⟩ (fun _ => getA) fun _ => some [104]).Reachable s :=
    ⟨_, _, rfl, LTS.run_of_exec _ _ _ hs⟩
  exact ⟨s, hr, hd.1, hd.2, descriptors_kept 1 (by decide) _ _ _ _ s hr⟩

end HttpC.L8
