import Mathlib.Data.List.FinRange
import HttpC.L4Pool.Queue

/-!
# The thread pool

src/threadpool.c:30-100. One thread, the caller, runs `threadpool_new`, any
number of `threadpool_submit` and `threadpool_destroy`; `pthread_create` may
fail at any of its calls, and the roll-back then takes the place of everything
after it. Created workers pop, run the handler and pop again until they get
the sentinel. All queue operations go step by step (`Queue.lean`), so worker
and caller interleave inside `queue_push` and `queue_pop`.

The caller is its list of operations still to do, with the place in the
`queue_push` at the head of the list.

`PoolInv` ties together the queue's own invariant, the caller's place
(`Phase`) and, for each worker and each element, how often the worker got it
from the queue, how often it called the handler with it and whether it has it
in hand.
-/
namespace HttpC.L4

/-- mirrors src/threadpool.c:18 -/
def STOP_SENTINEL : Int := -1

/-- What the caller does. -/
inductive Instr (n : Nat) where
  | create (i : Fin n) | push (elem : Int) | join (i : Fin n) | delete
  deriving DecidableEq, Repr

/-- Stop and join the first `k` workers, then delete the queue: the two loops
and the call that src/threadpool.c:67-71 and 92-97 have in common. -/
def stopWorkers (n k : Nat) : List (Instr n) :=
  (List.replicate k STOP_SENTINEL).map .push ++ ((List.finRange n).take k).map .join ++ [.delete]

/-- mirrors src/threadpool.c:64-65 -/
def threadpoolNew (n : Nat) : List (Instr n) := (List.finRange n).map .create

/-- mirrors src/threadpool.c:66-71 -/
def rollBack {n : Nat} (i : Fin n) : List (Instr n) := stopWorkers n i

/-- mirrors src/threadpool.c:81-85 -/
def threadpoolSubmit {n : Nat} (connfd : Int) : Instr n := .push connfd

/-- mirrors src/threadpool.c:87-100 -/
def threadpoolDestroy (n : Nat) : List (Instr n) := stopWorkers n n

inductive Thread where
  | unborn | popping (pc : Pop Int) | handling (connfd : Int) | exited
  deriving DecidableEq, Repr

structure Pool (n : Nat) where
  shared : Shared (Option (Fin n)) Int
  todo : List (Instr n)
  pc : Push
  workers : Fin n → Thread
  handled : List (Fin n × Int)
  failed : Bool
  deleted : Bool

inductive Label (n : Nat) where
  | caller | createFails | worker (i : Fin n)
  deriving DecidableEq, Repr

namespace Pool
variable {n : Nat}

def stepCaller (s : Pool n) : Option (Pool n) :=
  match s.todo with
  | [] => none
  | .create i :: rest =>
    some { s with todo := rest, workers := Function.update s.workers i (.popping .waitEmpty) }
  | .push x :: rest =>
    if s.pc = .returned then some { s with todo := rest, pc := .waitFull }
    else (s.pc.step s.shared x).map fun r => { s with shared := r.1, pc := r.2 }
  | .join i :: rest => if s.workers i = .exited then some { s with todo := rest } else none
  | .delete :: rest => some { s with todo := rest, deleted := true }

/-- `pthread_create` fails.
mirrors src/threadpool.c:65-75 -/
def stepFail (s : Pool n) : Option (Pool n) :=
  match s.todo with
  | .create i :: _ => some { s with todo := rollBack i, failed := true }
  | _ => none

/-- mirrors src/threadpool.c:30-42 -/
def stepWorker (s : Pool n) (i : Fin n) : Option (Pool n) :=
  match s.workers i with
  | .unborn => none
  | .exited => none
  | .handling _ =>
    -- the handler returns
    some { s with workers := Function.update s.workers i (.popping .waitEmpty) }
  | .popping (.returned x) =>
    if x = STOP_SENTINEL then some { s with workers := Function.update s.workers i .exited }
    else some { s with
      workers := Function.update s.workers i (.handling x), handled := s.handled ++ [(i, x)] }
  | .popping pc =>
    (pc.step (some i) s.shared).map fun r =>
      { s with shared := r.1, workers := Function.update s.workers i (.popping r.2) }

def step (s : Pool n) : Label n → Option (Pool n)
  | .caller => s.stepCaller
  | .createFails => s.stepFail
  | .worker i => s.stepWorker i

end Pool

variable {n : Nat}

/-- The whole life of a pool: create it, submit `fds`, destroy it. -/
def lifeOf (n : Nat) (fds : List Int) : List (Instr n) :=
  threadpoolNew n ++ fds.map threadpoolSubmit ++ threadpoolDestroy n

def Pool.initial (n size : Nat) (junk : Nat → Int) (fds : List Int) : Pool n where
  shared := ⟨queueNew size junk, [], []⟩
  todo := lifeOf n fds
  pc := .waitFull
  workers := fun _ => .unborn
  handled := []
  failed := false
  deleted := false

def pool (n size : Nat) (junk : Nat → Int) (fds : List Int) : LTS (Pool n) (Label n) :=
  .ofFn (· = Pool.initial n size junk fds) Pool.step

/-! ## The threads as callers of the queue -/

def Thread.call : Thread → Call Int
  | .popping pc => .pop pc
  | _ => .idle

def callerCall (todo : List (Instr n)) (pc : Push) : Call Int :=
  match todo with
  | .push x :: _ => .push x pc
  | _ => .idle

def callsOf (todo : List (Instr n)) (pc : Push) (workers : Fin n → Thread) :
    Option (Fin n) → Call Int
  | none => callerCall todo pc
  | some i => (workers i).call

def Pool.calls (s : Pool n) : Option (Fin n) → Call Int := callsOf s.todo s.pc s.workers

theorem callsOf_worker (todo : List (Instr n)) (pc : Push) (workers : Fin n → Thread) (i : Fin n)
    (t : Thread) : callsOf todo pc (Function.update workers i t) =
      Function.update (callsOf todo pc workers) (some i) t.call := by
  funext j
  cases j with
  | none => rfl
  | some j =>
    by_cases hj : j = i
    · subst hj; simp [callsOf]
    · rw [Function.update_of_ne (by simpa using hj)]
      simp [callsOf, Function.update_of_ne hj]

theorem callsOf_caller (todo todo' : List (Instr n)) (pc pc' : Push) (workers : Fin n → Thread) :
    callsOf todo' pc' workers =
      Function.update (callsOf todo pc workers) none (callerCall todo' pc') := by
  funext j
  cases j with
  | none => rfl
  | some j => rw [Function.update_of_ne (by simp)]; rfl

/-! ## The invariant -/

/-- How many copies of `x` the worker has in hand; a worker that exited keeps
the sentinel. -/
def Thread.keeps (x : Int) : Thread → Nat
  | .popping pc => if pc.elem = some x then 1 else 0
  | .exited => if x = STOP_SENTINEL then 1 else 0
  | _ => 0

/-- All that is ever pushed: the submitted descriptors, unless the pool could
not be created, and one sentinel for each of `k` workers. -/
def target (fds : List Int) (failed : Bool) (k : Nat) : List Int :=
  (if failed then [] else fds) ++ List.replicate k STOP_SENTINEL

def joins (n k j : Nat) : List (Instr n) := (((List.finRange n).take k).drop j).map .join

/-- Where the caller is, with `k` workers created. -/
inductive Phase (fds : List Int) (s : Pool n) (k : Nat) : Prop where
  | creating (hk : k < n) (hf : s.failed = false)
      (ht : s.todo = ((List.finRange n).drop k).map .create ++ fds.map .push ++ stopWorkers n n)
      (hpc : s.pc = .waitFull) (hp : s.shared.pushed = [])
  | pushing (elems : List Int) (hne : elems ≠ []) (hk : k ≤ n) (hf : s.failed = false → k = n)
      (ht : s.todo = elems.map .push ++ joins n k 0 ++ [.delete])
      (hp : s.shared.pushed ++ elems.drop s.pc.stored.toNat = target fds s.failed k)
  | joining (j : Nat) (hj : j ≤ k) (hk : k ≤ n) (hf : s.failed = false → k = n)
      (ht : s.todo = joins n k j ++ [.delete]) (hpc : s.pc = .waitFull)
      (hp : s.shared.pushed = target fds s.failed k)
      (hx : ∀ i : Fin n, i.val < j → s.workers i = .exited)
  | returned (hk : k ≤ n) (hf : s.failed = false → k = n) (ht : s.todo = []) (hpc : s.pc = .waitFull)
      (hp : s.shared.pushed = target fds s.failed k)
      (hx : ∀ i : Fin n, i.val < k → s.workers i = .exited)

structure PoolInv (fds : List Int) (s : Pool n) : Prop where
  queue : Inv s.shared s.calls
  phase : ∃ k, Phase fds s k ∧ ∀ i : Fin n, s.workers i = .unborn ↔ k ≤ i.val
  deleted : s.deleted = true → s.todo = []
  caller : ∀ x, s.shared.popped.count (none, x) = 0
  worker : ∀ i x, s.shared.popped.count (some i, x) = s.handled.count (i, x) + (s.workers i).keeps x
  handled : ∀ i, (i, STOP_SENTINEL) ∉ s.handled

/-! ## A step of a worker -/

section
variable {fds : List Int} {s s' : Pool n} {i : Fin n}

theorem stepWorker_cases (h : s.stepWorker i = some s') :
    (∃ fd, s.workers i = .handling fd ∧
      s' = { s with workers := Function.update s.workers i (.popping .waitEmpty) }) ∨
    (s.workers i = .popping (.returned STOP_SENTINEL) ∧
      s' = { s with workers := Function.update s.workers i .exited }) ∨
    (∃ x, x ≠ STOP_SENTINEL ∧ s.workers i = .popping (.returned x) ∧
      s' = { s with
        workers := Function.update s.workers i (.handling x), handled := s.handled ++ [(i, x)] }) ∨
    ∃ pc sh pc', s.workers i = .popping pc ∧ pc.step (some i) s.shared = some (sh, pc') ∧
      s' = { s with shared := sh, workers := Function.update s.workers i (.popping pc') } := by
  unfold Pool.stepWorker at h
  split at h
  · cases h
  · cases h
  · rename_i fd hw; cases h; exact .inl ⟨fd, hw, rfl⟩
  · rename_i x hw
    split at h
    · rename_i hx; cases h; subst hx; exact .inr (.inl ⟨hw, rfl⟩)
    · rename_i hx; cases h; exact .inr (.inr (.inl ⟨x, hx, hw, rfl⟩))
  · rename_i pc _ hw
    obtain ⟨⟨sh, pc'⟩, hp, rfl⟩ := Option.map_eq_some_iff.mp h
    exact .inr (.inr (.inr ⟨pc, sh, pc', hw, hp, rfl⟩))

/-- The caller's place does not depend on what a worker does, as long as it
stays exited once it is. -/
theorem Phase.worker {k : Nat} (h : Phase fds s k) (ht : s'.todo = s.todo) (hpc : s'.pc = s.pc)
    (hf : s'.failed = s.failed) (hp : s'.shared.pushed = s.shared.pushed)
    (hx : ∀ i, s.workers i = .exited → s'.workers i = .exited) : Phase fds s' k := by
  cases h with
  | creating h1 h2 h3 h4 h5 =>
    exact .creating h1 (by rw [hf, h2]) (by rw [ht, h3]) (by rw [hpc, h4]) (by rw [hp, h5])
  | pushing elems h1 h2 h3 h4 h5 =>
    exact .pushing elems h1 h2 (by rw [hf]; exact h3) (by rw [ht, h4]) (by rw [hp, hpc, hf, h5])
  | joining j h1 h2 h3 h4 h5 h6 h7 =>
    exact .joining j h1 h2 (by rw [hf]; exact h3) (by rw [ht, h4]) (by rw [hpc, h5])
      (by rw [hp, hf, h6]) (fun i hi => hx i (h7 i hi))
  | returned h1 h2 h3 h4 h5 h6 =>
    exact .returned h1 (by rw [hf]; exact h2) (by rw [ht, h3]) (by rw [hpc, h4]) (by rw [hp, hf, h5])
      (fun i hi => hx i (h6 i hi))

/-- Worker `i` goes from one running state to another. -/
theorem PoolInv.stepped (h : PoolInv fds s) {t : Thread} (hsh : s'.shared.pushed = s.shared.pushed)
    (hrest : s'.todo = s.todo ∧ s'.pc = s.pc ∧ s'.failed = s.failed ∧ s'.deleted = s.deleted)
    (hw : s'.workers = Function.update s.workers i t) (hq : Inv s'.shared s'.calls)
    (hrun : s.workers i ≠ .unborn ∧ s.workers i ≠ .exited) (ht : t ≠ .unborn)
    (hcaller : ∀ x, s'.shared.popped.count (none, x) = 0)
    (hcount : ∀ j x, s'.shared.popped.count (some j, x) =
      s'.handled.count (j, x) + (Function.update s.workers i t j).keeps x)
    (hstop : ∀ j, (j, STOP_SENTINEL) ∉ s'.handled) : PoolInv fds s' := by
  obtain ⟨k, hph, hborn⟩ := h.phase
  obtain ⟨h1, h2, h3, h4⟩ := hrest
  refine ⟨hq, ⟨k, hph.worker h1 h2 h3 hsh fun j hj => ?_, fun j => ?_⟩, ?_, hcaller, ?_, hstop⟩
  · by_cases hji : j = i
    · subst hji; exact absurd hj hrun.2
    · rw [hw, Function.update_of_ne hji]; exact hj
  · rw [hw]
    by_cases hji : j = i
    · subst hji
      rw [Function.update_self]
      exact ⟨fun h => absurd h ht, fun h => absurd ((hborn j).mpr h) hrun.1⟩
    · rw [Function.update_of_ne hji]; exact hborn j
  · rw [h4, h1]; exact h.deleted
  · rw [hw]; exact hcount

theorem poolInv_worker (h : PoolInv fds s) (hst : s.stepWorker i = some s') : PoolInv fds s' := by
  have hcalls : ∀ t : Thread, callsOf s.todo s.pc (Function.update s.workers i t) =
      Function.update s.calls (some i) t.call := callsOf_worker s.todo s.pc s.workers i
  have hother : ∀ (t : Thread) (j : Fin n), j ≠ i → Function.update s.workers i t j = s.workers j :=
    fun t j hj => Function.update_of_ne hj _ _
  rcases stepWorker_cases hst with ⟨fd, hw, rfl⟩ | ⟨hw, rfl⟩ | ⟨x, hx, hw, rfl⟩ |
    ⟨pc, sh, pc', hw, hp, rfl⟩
  · -- the handler returned
    have hc : s.calls (some i) = .idle := by simp [Pool.calls, callsOf, hw, Thread.call]
    refine h.stepped rfl ⟨rfl, rfl, rfl, rfl⟩ rfl ?_ (by simp [hw]) (by simp) h.caller ?_ h.handled
    · show Inv s.shared (callsOf _ _ _)
      rw [hcalls]
      exact h.queue.switch (by rw [hc]; rfl) rfl
    · intro j x
      by_cases hj : j = i
      · subst hj
        have := h.worker j x
        rw [hw] at this
        simpa [Thread.keeps, Pop.elem] using this
      · rw [hother _ j hj]; exact h.worker j x
  · -- the sentinel
    have hc : s.calls (some i) = .pop (.returned STOP_SENTINEL) := by
      simp [Pool.calls, callsOf, hw, Thread.call]
    refine h.stepped rfl ⟨rfl, rfl, rfl, rfl⟩ rfl ?_ (by simp [hw]) (by simp) h.caller ?_ h.handled
    · show Inv s.shared (callsOf _ _ _)
      rw [hcalls]
      exact h.queue.switch (by rw [hc]; rfl) rfl
    · intro j x
      by_cases hj : j = i
      · subst hj
        have := h.worker j x
        rw [hw] at this
        simpa [Thread.keeps, Pop.elem, eq_comm] using this
      · rw [hother _ j hj]; exact h.worker j x
  · -- the handler is called
    have hc : s.calls (some i) = .pop (.returned x) := by
      simp [Pool.calls, callsOf, hw, Thread.call]
    refine h.stepped rfl ⟨rfl, rfl, rfl, rfl⟩ rfl ?_ (by simp [hw]) (by simp) h.caller ?_ ?_
    · show Inv s.shared (callsOf _ _ _)
      rw [hcalls]
      exact h.queue.switch (by rw [hc]; rfl) rfl
    · intro j y
      by_cases hj : j = i
      · subst hj
        have := h.worker j y
        rw [hw] at this
        simp only [Thread.keeps, Pop.elem, Option.some.injEq] at this
        simp only [List.count_append, List.count_singleton, Function.update_self, Thread.keeps,
          this, beq_iff_eq, Prod.mk.injEq, true_and, Nat.add_zero]
      · rw [hother _ j hj]
        simp only [List.count_append, List.count_singleton, beq_iff_eq, Prod.mk.injEq,
          Ne.symm hj, false_and, if_false, Nat.add_zero]
        exact h.worker j y
    · intro j hm
      rcases List.mem_append.mp hm with hm | hm
      · exact h.handled j hm
      · simp only [List.mem_singleton, Prod.mk.injEq] at hm
        exact hx hm.2.symm
  · -- inside `queue_pop`
    have hc : s.calls (some i) = .pop pc := by simp [Pool.calls, callsOf, hw, Thread.call]
    obtain ⟨hpushed, hrec⟩ := Pop.record hp
    refine h.stepped hpushed ⟨rfl, rfl, rfl, rfl⟩ rfl ?_ (by simp [hw]) (by simp) ?_ ?_ h.handled
    · show Inv sh (callsOf _ _ _)
      rw [hcalls]
      exact h.queue.pop hc hp
    · intro x
      rcases hrec with ⟨hpop, -⟩ | ⟨y, hpop, -, -⟩
      · rw [hpop]; exact h.caller x
      · rw [hpop, List.count_append, h.caller x]; simp
    · intro j x
      by_cases hj : j = i
      · subst hj
        have := h.worker j x
        rw [hw] at this
        simp only [Function.update_self, Thread.keeps] at this ⊢
        rcases hrec with ⟨hpop, hel⟩ | ⟨y, hpop, hel, hel'⟩
        · rw [hpop, hel]; exact this
        · rw [hel] at this
          rw [hpop, hel', List.count_append, this]
          simp [List.count_singleton]
      · rw [hother _ j hj]
        rcases hrec with ⟨hpop, -⟩ | ⟨y, hpop, -, -⟩
        · rw [hpop]; exact h.worker j x
        · rw [hpop, List.count_append, h.worker j x]
          simp [Ne.symm hj]

/-! ## A step of the caller -/

theorem drop_finRange {k : Nat} (hk : k < n) :
    (List.finRange n).drop k = ⟨k, hk⟩ :: (List.finRange n).drop (k + 1) := by
  rw [List.drop_eq_getElem_cons (by simpa using hk), List.getElem_finRange]
  rfl

theorem joins_cons {k j : Nat} (hj : j < k) (hk : k ≤ n) :
    joins n k j = .join ⟨j, by omega⟩ :: joins n k (j + 1) := by
  unfold joins
  rw [List.drop_eq_getElem_cons (by simp; omega), List.getElem_take, List.getElem_finRange]
  rfl

theorem joins_self (k : Nat) : joins n k k = [] := by
  unfold joins
  rw [List.drop_of_length_le (by simp)]
  rfl

theorem stopWorkers_eq (k : Nat) : stopWorkers n k =
    (List.replicate k STOP_SENTINEL).map .push ++ joins n k 0 ++ [.delete] := by
  simp [stopWorkers, joins]

theorem callerCall_waitFull (todo : List (Instr n)) : (callerCall todo .waitFull).inFlight = 0 := by
  unfold callerCall
  split <;> rfl

/-- The phase that begins with elements to push, or with none left. -/
theorem Phase.start {k : Nat} (elems : List Int) (hk : k ≤ n) (hf : s.failed = false → k = n)
    (ht : s.todo = elems.map .push ++ joins n k 0 ++ [.delete]) (hpc : s.pc = .waitFull)
    (hp : s.shared.pushed ++ elems = target fds s.failed k) : Phase fds s k := by
  cases elems with
  | nil =>
    have hp' : s.shared.pushed = target fds s.failed k := by simpa using hp
    exact .joining 0 (Nat.zero_le _) hk hf (by simpa using ht) hpc hp'
      fun i hi => absurd hi (Nat.not_lt_zero _)
  | cons x es => exact .pushing (x :: es) (by simp) hk hf ht (by rw [hpc]; exact hp)

/-- The caller moves on, and no worker changes. -/
theorem PoolInv.moved (h : PoolInv fds s) {k : Nat} (hborn : ∀ i : Fin n, s.workers i = .unborn ↔ k ≤ i.val)
    (hph : Phase fds s' k) (hw : s'.workers = s.workers) (hh : s'.handled = s.handled)
    (hpop : s'.shared.popped = s.shared.popped) (hd : s'.deleted = true → s'.todo = [])
    (hq : Inv s'.shared (Function.update s.calls none (callerCall s'.todo s'.pc))) :
    PoolInv fds s' := by
  refine ⟨?_, ⟨k, hph, by rw [hw]; exact hborn⟩, hd, ?_, ?_, by rw [hh]; exact h.handled⟩
  · have := callsOf_caller s.todo s'.todo s.pc s'.pc s.workers
    rw [← hw] at this
    unfold Pool.calls
    rw [this]
    rw [hw]
    exact hq
  · rw [hpop]; exact h.caller
  · rw [hpop, hh, hw]; exact h.worker

theorem poolInv_fail (h : PoolInv fds s) (hst : s.stepFail = some s') : PoolInv fds s' := by
  obtain ⟨k, hph, hborn⟩ := h.phase
  unfold Pool.stepFail at hst
  cases hph with
  | creating hk hf ht hpc hp =>
    rw [drop_finRange hk] at ht
    simp only [ht, List.map_cons, List.cons_append, Option.some.injEq] at hst
    subst hst
    have hc : s.calls none = .idle := by simp [Pool.calls, callsOf, callerCall, ht]
    refine h.moved hborn ?_ rfl rfl rfl ?_ ?_
    · refine .start (List.replicate k STOP_SENTINEL) (Nat.le_of_lt hk) (fun h => by cases h)
        (stopWorkers_eq k) hpc ?_
      simp [hp, target]
    · intro hd
      have := h.deleted hd
      rw [ht] at this
      cases this
    · exact h.queue.switch (by rw [hc]; rfl) (by rw [hpc]; exact callerCall_waitFull _)
  | pushing elems hne hk hf ht hp =>
    cases elems with
    | nil => exact absurd rfl hne
    | cons x es => rw [ht] at hst; cases hst
  | joining j hj hk hf ht hpc hp hx =>
    rcases Nat.lt_or_eq_of_le hj with hlt | rfl
    · rw [ht, joins_cons hlt hk] at hst; cases hst
    · rw [ht, joins_self] at hst; cases hst
  | returned hk hf ht hpc hp hx => rw [ht] at hst; cases hst

theorem poolInv_caller (h : PoolInv fds s) (hst : s.stepCaller = some s') : PoolInv fds s' := by
  obtain ⟨k, hph, hborn⟩ := h.phase
  have hdel : ∀ {t : List (Instr n)}, s.todo ≠ [] → s.deleted = true → t = [] :=
    fun hne hd => absurd (h.deleted hd) hne
  unfold Pool.stepCaller at hst
  cases hph with
  | creating hk hf ht hpc hp =>
    rw [drop_finRange hk] at ht
    simp only [ht, List.map_cons, List.cons_append, Option.some.injEq] at hst
    have hc : s.calls none = .idle := by simp [Pool.calls, callsOf, callerCall, ht]
    have hnew : s.workers ⟨k, hk⟩ = .unborn := (hborn _).mpr (Nat.le_refl k)
    have hcn : s.calls (some ⟨k, hk⟩) = .idle := by simp [Pool.calls, callsOf, hnew, Thread.call]
    subst hst
    refine ⟨?_, ⟨k + 1, ?_, ?_⟩, hdel (by rw [ht]; simp), h.caller, ?_, h.handled⟩
    · -- the new worker is about to pop, the caller goes on
      rw [Pool.calls, callsOf_worker, callsOf_caller s.todo _ s.pc _ s.workers]
      refine (h.queue.switch (by rw [hc]; rfl) ?_).switch ?_ rfl
      · rw [hpc]; exact callerCall_waitFull _
      · rw [Function.update_of_ne (by simp), hcn]; rfl
    · rcases Nat.lt_or_eq_of_le (Nat.succ_le_of_lt hk) with hlt | rfl
      · exact .creating hlt hf rfl hpc hp
      · refine .start (fds ++ List.replicate (k + 1) STOP_SENTINEL) (Nat.le_refl _)
          (fun _ => rfl) ?_ hpc ?_
        · simp [stopWorkers_eq]
        · simp [hp, hf, target]
    · intro j
      by_cases hj : j = ⟨k, hk⟩
      · subst hj; simp
      · simp only [Function.update_of_ne hj, hborn j]
        have : j.val ≠ k := fun he => hj (Fin.ext he)
        omega
    · intro j x
      by_cases hj : j = ⟨k, hk⟩
      · subst hj
        have := h.worker ⟨k, hk⟩ x
        rw [hnew] at this
        simpa [Thread.keeps, Pop.elem] using this
      · simp only [Function.update_of_ne hj]
        exact h.worker j x
  | pushing elems hne hk hf ht hp =>
    cases elems with
    | nil => exact absurd rfl hne
    | cons x es =>
      have hc : s.calls none = .push x s.pc := by simp [Pool.calls, callsOf, callerCall, ht]
      simp only [ht, List.map_cons, List.cons_append] at hst
      split at hst
      · -- `queue_push` returned
        rename_i hret
        cases hst
        refine h.moved hborn ?_ rfl rfl rfl (hdel (by rw [ht]; simp)) ?_
        · exact .start es hk hf (by simp) rfl (by simpa [hret, Push.stored] using hp)
        · exact h.queue.switch (by rw [hc, hret]; rfl) (callerCall_waitFull _)
      · obtain ⟨⟨sh, pc'⟩, hpush, rfl⟩ := Option.map_eq_some_iff.mp hst
        obtain ⟨hpop, hrec⟩ := Push.record hpush
        refine h.moved hborn ?_ rfl rfl hpop (hdel (by rw [ht]; simp)) ?_
        · refine .pushing (x :: es) hne hk hf rfl ?_
          rcases hrec with ⟨h1, h2⟩ | ⟨h1, h2, h3⟩
          · rw [h1, h2]; exact hp
          · rw [h2] at hp
            rw [h1, h3, List.append_assoc]
            exact hp
        · exact h.queue.push hc hpush
  | joining j hj hk hf ht hpc hp hx =>
    have hc : s.calls none = .idle := by
      rcases Nat.lt_or_eq_of_le hj with hlt | rfl
      · simp [Pool.calls, callsOf, callerCall, ht, joins_cons hlt hk]
      · simp [Pool.calls, callsOf, callerCall, ht, joins_self]
    rcases Nat.lt_or_eq_of_le hj with hlt | rfl
    · rw [joins_cons hlt hk] at ht
      simp only [ht, List.cons_append] at hst
      split at hst
      · rename_i hex
        cases hst
        refine h.moved hborn ?_ rfl rfl rfl (hdel (by rw [ht]; simp)) ?_
        · refine .joining (j + 1) hlt hk hf rfl hpc hp fun i hi => ?_
          rcases Nat.lt_succ_iff_lt_or_eq.mp hi with hi | rfl
          · exact hx i hi
          · exact hex
        · exact h.queue.switch (by rw [hc]; rfl) (by rw [hpc]; exact callerCall_waitFull _)
      · cases hst
    · rw [joins_self] at ht
      simp only [ht, List.nil_append, Option.some.injEq] at hst
      subst hst
      refine h.moved hborn (.returned hk hf rfl hpc hp hx) rfl rfl rfl (fun _ => rfl) ?_
      exact h.queue.switch (by rw [hc]; rfl) rfl
  | returned hk hf ht hpc hp hx => rw [ht] at hst; cases hst

end

theorem poolInv_init {size : Nat} (hn : 0 < n) (hs : 0 < size) (junk : Nat → Int) (fds : List Int) :
    PoolInv fds (Pool.initial n size junk fds) := by
  have ht : (Pool.initial n size junk fds).todo =
      ((List.finRange n).drop 0).map .create ++ fds.map .push ++ stopWorkers n n := rfl
  refine ⟨inv_new hs junk fun t => ?_, ⟨0, .creating hn rfl ht rfl rfl, fun i => ?_⟩,
    fun h => (by cases h), fun x => rfl, fun i x => rfl, fun i h => (by cases h)⟩
  · cases t with
    | none =>
      rw [drop_finRange hn] at ht
      simp [Pool.calls, callsOf, callerCall, ht]
    | some i => rfl
  · simp [Pool.initial]

/-- **The pool stays in order**, whatever the interleaving. -/
theorem pool_inv {size : Nat} (hn : 0 < n) (hs : 0 < size) {junk : Nat → Int} {fds : List Int}
    {s : Pool n} (h : (pool n size junk fds).Reachable s) : PoolInv fds s := by
  have hI : (pool n size junk fds).Inductive (PoolInv fds) := by
    refine ⟨?_, ?_⟩
    · rintro s rfl; exact poolInv_init hn hs junk fds
    · intro s l s' hi hst
      cases l with
      | caller => exact poolInv_caller hi hst
      | createFails => exact poolInv_fail hi hst
      | worker i => exact poolInv_worker hi hst
  exact hI.reachable s h

end HttpC.L4
