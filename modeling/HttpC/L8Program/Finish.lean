import HttpC.L8Program.HandOff

/-!
# Every accepted connection is answered

Between two accepts the program is left to itself. It is never stuck while
something is left to do: a thread in a call of the queue goes on, or the one
that holds the mutex does (`Inv.progress`); a handler goes on, or one that
holds a lock does (`server_goes_on`), and that one is run by a worker; a
dispatcher that finds the ring full has filled it, so somebody has something to
pop. And it cannot go on for ever: every step of the pool uses up part of the
way of a descriptor from `queue_push` to the handler (`poolRank`), every other
step is one of a handler. So whatever the scheduler does, all that was accepted
is handled and everybody waits (`program_finishes`), and what `accept` adds
afterwards is handled too.
-/
namespace HttpC.L8
open HttpC.L1.Util HttpC.L2 HttpC.L3 HttpC.L4 HttpC.L5 HttpC.Flock

variable {t m : Nat}

/-! ## What the pool has left to do -/

def Push.left : Push → Nat
  | .waitFull => 19 | .waitMutex => 18 | .store => 17 | .advance => 16 | .count => 15
  | .postMutex => 14 | .postEmpty => 13 | .returned => 1

def Pop.left : Pop Int → Nat
  | .waitEmpty => 0 | .waitMutex => 9 | .load => 8 | .advance _ => 7 | .count _ => 6
  | .postMutex _ => 5 | .postFull _ => 4 | .returned _ => 3

def Thread.left : Thread → Nat
  | .unborn => 0
  | .popping pc => Pop.left pc
  | .handling _ => 2
  | .exited => 0

/-- A `pthread_create` that fails is answered by the whole roll-back. -/
def Instr.left (t : Nat) : Instr t → Nat
  | .create _ => 21 * t + 3
  | .push _ => 20
  | .join _ => 1
  | .delete => 1

def todoLeft (t : Nat) (todo : List (Instr t)) : Nat := (todo.map (Instr.left t)).sum

def callerLeft (todo : List (Instr t)) (pc : Push) : Nat :=
  match todo with
  | .push _ :: rest => Push.left pc + todoLeft t rest
  | todo => todoLeft t todo

/-- An element in the ring is worth the pop it makes possible. -/
def poolRank (p : Pool t) : Nat :=
  callerLeft p.todo p.pc + 10 * p.shared.queue.empty + tally Thread.left p.workers

theorem Push.left_step {s s' : Shared (Option (Fin t)) Int} {x : Int} {pc pc' : Push}
    (h : pc.step s x = some (s', pc')) :
    Push.left pc' + 10 * s'.queue.empty < Push.left pc + 10 * s.queue.empty := by
  cases pc <;> simp only [Push.step] at h
  case returned => cases h
  case waitFull | waitMutex =>
    split at h
    · cases h; simp [Push.left]
    · cases h
  all_goals cases h; simp [Push.left]; try omega

theorem Pop.left_step {i : Option (Fin t)} {s s' : Shared (Option (Fin t)) Int} {pc pc' : Pop Int}
    (h : pc.step i s = some (s', pc')) :
    Pop.left pc' + 10 * s'.queue.empty < Pop.left pc + 10 * s.queue.empty := by
  cases pc <;> simp only [Pop.step] at h
  case returned => cases h
  case waitEmpty | waitMutex =>
    split at h
    · cases h; simp [Pop.left]; try omega
    · cases h
  all_goals cases h; simp [Pop.left]

theorem callerLeft_le (todo : List (Instr t)) (pc : Push) : callerLeft todo pc ≤ todoLeft t todo := by
  unfold callerLeft
  split
  · rename_i x rest
    have : Push.left pc ≤ 20 := by cases pc <;> simp [Push.left]
    simp only [todoLeft, List.map_cons, List.sum_cons, Instr.left]
    omega
  · exact Nat.le_refl _

theorem todoLeft_rollBack (i : Fin t) : todoLeft t (rollBack i) ≤ 21 * t + 1 := by
  have hjoin : (((List.finRange t).take i).map (Instr.left t ∘ Instr.join)).sum ≤ i := by
    have hone : ∀ l : List (Fin t), (l.map (Instr.left t ∘ Instr.join)).sum = l.length := by
      intro l
      induction l with
      | nil => rfl
      | cons a l ih => simp only [List.map_cons, List.sum_cons, ih, List.length_cons,
          Function.comp, Instr.left]; omega
    rw [hone]
    simp
  have hi := i.isLt
  simp only [rollBack, stopWorkers, todoLeft, List.map_append, List.map_map, List.map_replicate,
    List.sum_append, List.sum_replicate, Instr.left, smul_eq_mul, List.map_cons, List.map_nil,
    List.sum_cons, List.sum_nil]
  omega

theorem poolRank_caller {p p' : Pool t} (h : p.stepCaller = some p') : poolRank p' < poolRank p := by
  unfold Pool.stepCaller at h
  split at h
  · cases h
  · rename_i i rest ht
    cases h
    have hle := callerLeft_le rest p.pc
    have htl := tally_update Thread.left p.workers i (.popping .waitEmpty)
    simp only [poolRank, ht, callerLeft, todoLeft, List.map_cons, List.sum_cons, Instr.left,
      Thread.left, Pop.left] at hle htl ⊢
    omega
  · rename_i x rest ht
    split at h
    · rename_i hret
      cases h
      have hle := callerLeft_le rest .waitFull
      simp only [poolRank, ht, hret, callerLeft, Push.left] at hle ⊢
      omega
    · obtain ⟨⟨sh, pc'⟩, hst, rfl⟩ := Option.map_eq_some_iff.mp h
      have := Push.left_step hst
      simp only [poolRank, ht, callerLeft]
      omega
  · rename_i i rest ht
    split at h
    · cases h
      have hle := callerLeft_le rest p.pc
      simp only [poolRank, ht, callerLeft, todoLeft, List.map_cons, List.sum_cons, Instr.left] at hle ⊢
      omega
    · cases h
  · rename_i rest ht
    cases h
    have hle := callerLeft_le rest p.pc
    simp only [poolRank, ht, callerLeft, todoLeft, List.map_cons, List.sum_cons, Instr.left] at hle ⊢
    omega

theorem poolRank_fail {p p' : Pool t} (h : p.stepFail = some p') : poolRank p' < poolRank p := by
  unfold Pool.stepFail at h
  split at h
  · rename_i i rest ht
    cases h
    have hle := callerLeft_le (rollBack i) p.pc
    have hr := todoLeft_rollBack i
    simp only [poolRank, ht, callerLeft, todoLeft, List.map_cons, List.sum_cons, Instr.left] at hle hr ⊢
    omega
  · cases h

/-- A worker's own step, with what it does to the tally. -/
theorem tally_lt {w : Thread → Nat} {f : Fin t → Thread} {i : Fin t} {a b : Thread} {k m : Nat}
    (hi : f i = a) (h : w b + m < w a + k) :
    tally w (Function.update f i b) + m < tally w f + k := by
  have := tally_update w f i b
  rw [hi] at this
  omega

theorem poolRank_worker {p p' : Pool t} {i : Fin t} (h : p.stepWorker i = some p') :
    poolRank p' < poolRank p := by
  rcases stepWorker_cases h with ⟨fd, hw, rfl⟩ | ⟨hw, rfl⟩ | ⟨x, hx, hw, rfl⟩ | ⟨pc, sh, pc', hw, hp, rfl⟩
  · have := tally_lt (k := 0) (m := 0) hw (w := Thread.left) (b := .popping .waitEmpty)
      (by simp [Thread.left, Pop.left])
    simp only [poolRank]
    omega
  · have := tally_lt (k := 0) (m := 0) hw (w := Thread.left) (b := .exited)
      (by simp [Thread.left, Pop.left])
    simp only [poolRank]
    omega
  · have := tally_lt (k := 0) (m := 0) hw (w := Thread.left) (b := .handling x)
      (by simp [Thread.left, Pop.left])
    simp only [poolRank]
    omega
  · have := tally_lt hw (w := Thread.left) (b := .popping pc') (Pop.left_step hp)
    simp only [poolRank]
    omega

/-! ## The program left to itself -/

/-- Not an event of the outside. -/
def Ev.inside : Ev t → Prop
  | .accept _ | .acceptFails => False
  | _ => True

def progRank (s : Prog t m) : (Fin m → Nat ×ₗ Nat) × Nat := (ranks s.sys, poolRank s.pool)

section
variable {E : Env} {s s' : Prog t m}

theorem progRank_step {e : Ev t} (he : e.inside) (h : s.step E e = some s') :
    progRank s' < progRank s := by
  cases e with
  | accept | acceptFails => exact he.elim
  | caller =>
    obtain ⟨p, hp, rfl⟩ := Option.map_eq_some_iff.mp h
    exact Prod.mk_lt_mk_iff_right.mpr (poolRank_caller hp)
  | createFails =>
    obtain ⟨p, hp, rfl⟩ := Option.map_eq_some_iff.mp h
    exact Prod.mk_lt_mk_iff_right.mpr (poolRank_fail hp)
  | worker i =>
    unfold progRank
    rcases (stepWorker_works h).moves with ⟨hp, c, hc⟩ | ⟨hp, hs⟩
    · rw [hp]
      exact Prod.mk_lt_mk_iff_left.mpr (ranks_step hc)
    · rw [hs]
      exact Prod.mk_lt_mk_iff_right.mpr (poolRank_worker hp)

/-! ## Steps a worker can take -/

/-- Outside a handler a worker goes on when the pool lets it. -/
theorem step_idle {i : Fin t} {p : Pool t} (hw : ∀ x, s.pool.workers i ≠ .handling x)
    (hp : s.pool.stepWorker i = some p) :
    ∃ s', s.step E (.worker i) = some s' ∧ s'.accepted = s.accepted ∧ s'.sys = s.sys := by
  show ∃ s', s.stepWorker E i = some s' ∧ _
  unfold Prog.stepWorker
  simp only [hp, Option.map_some]
  split
  · rename_i hh _; exact absurd hh (hw _)
  · rename_i hh _; exact absurd hh (hw _)
  · split <;> exact ⟨_, rfl, rfl, rfl⟩
  · exact ⟨_, rfl, rfl, rfl⟩

/-- In a handler that is done it returns. -/
theorem step_return {i : Fin t} {x : Int} {c : Fin m} (hw : s.pool.workers i = .handling x)
    (hc : s.serving i = some c) (hd : (s.sys.workers c).pc = .done) :
    ∃ s', s.step E (.worker i) = some s' ∧ s'.accepted = s.accepted ∧ s'.sys = s.sys := by
  show ∃ s', s.stepWorker E i = some s' ∧ _
  simp only [Prog.stepWorker, hw, hc, if_pos hd, Pool.stepWorker, Option.map_some, Option.some.injEq]
  exact ⟨_, rfl, rfl, rfl⟩

/-- In another it goes on when the handler does. -/
theorem step_serve {i : Fin t} {x : Int} {c : Fin m} {y : Sys m}
    (hw : s.pool.workers i = .handling x) (hc : s.serving i = some c)
    (hd : (s.sys.workers c).pc ≠ .done) (hy : s.sys.step E c = some y) :
    ∃ s', s.step E (.worker i) = some s' ∧ s'.accepted = s.accepted ∧ s'.sys = y := by
  show ∃ s', s.stepWorker E i = some s' ∧ _
  simp only [Prog.stepWorker, hw, hc, if_neg hd, hy, Option.map_some, Option.some.injEq]
  exact ⟨_, rfl, rfl, rfl⟩

/-! ## Nobody is stuck -/

/-- The dispatcher is back at `accept` and every worker waits in `queue_pop`
(or creating the pool was given up, and no worker is left); all that was
accepted is closed. -/
structure Rests (s : Prog t m) : Prop where
  dispatcher : s.pool.todo = []
  waiting : s.pool.failed = false → ∀ i, s.pool.workers i = .popping .waitEmpty
  rolledBack : s.pool.failed = true → ∀ i,
    s.pool.workers i = .unborn ∨ s.pool.workers i = .exited
  closed : ∀ c : Fin m, c.val < s.accepted.length → (s.sys.workers c).pc = .done

/-- Nothing goes on from inside. -/
def Stuck (E : Env) (s : Prog t m) : Prop := ∀ e : Ev t, e.inside → s.step E e = none

/-- The dispatcher cannot go on, and no worker outside a handler. -/
structure PoolStuck (s : Prog t m) : Prop where
  caller : s.pool.stepCaller = none
  worker : ∀ i, (∀ x, s.pool.workers i ≠ .handling x) → s.pool.stepWorker i = none

theorem Stuck.worker (h : Stuck E s) {i : Fin t} {Q : Prog t m → Prop} :
    ¬ ∃ s', s.step E (.worker i) = some s' ∧ Q s' := by
  intro hex
  obtain ⟨s', hst, -⟩ := hex
  rw [h (.worker i) trivial] at hst
  cases hst

theorem Stuck.pool (h : Stuck E s) : PoolStuck s := by
  refine ⟨Option.map_eq_none_iff.mp (h .caller trivial), fun i hw => ?_⟩
  cases hp : s.pool.stepWorker i with
  | none => rfl
  | some p => exact (h.worker (step_idle hw hp)).elim

/-- In a handler a worker goes on when the handler does, or is done. -/
theorem Stuck.handler (h : Stuck E s) {i : Fin t} {x : Int} {c : Fin m}
    (hw : s.pool.workers i = .handling x) (hc : s.serving i = some c) :
    (s.sys.workers c).pc ≠ .done ∧ s.sys.step E c = none := by
  have hd : (s.sys.workers c).pc ≠ .done := fun hd => h.worker (step_return hw hc hd)
  refine ⟨hd, ?_⟩
  cases hy : s.sys.step E c with
  | none => rfl
  | some y => exact (h.worker (step_serve hw hc hd hy)).elim

section
variable {reqs : Fin m → Incoming}

/-- With the pool created, no thread is in the middle of a call of the
queue. -/
theorem no_call (hp : PoolInv s.accepted (lift s.accepted s)) (hd : Dispatch s)
    (hf : s.pool.failed = false) (hstuck : PoolStuck s) (th : Option (Fin t)) :
    ((lift s.accepted s).calls th).inFlight = 0 := by
  refine Nat.eq_zero_of_not_pos fun hpos => ?_
  obtain ⟨j, hj, hst⟩ := hp.queue.progress hpos
  rw [lift_shared] at hst
  cases j with
  | some i =>
    have hc : (lift s.accepted s).calls (some i) = (s.pool.workers i).call := by
      simp [Pool.calls, callsOf]
    rw [hc] at hst hj
    cases hw : s.pool.workers i with
    | popping pc =>
      rw [hw] at hst hj
      simp only [Thread.call, Call.step, Option.isSome_map] at hst
      have hnone := hstuck.worker i fun x hx => by rw [hw] at hx; cases hx
      unfold Pool.stepWorker at hnone
      rw [hw] at hnone
      cases pc
      case returned => cases hst
      all_goals
        rw [Option.map_eq_none_iff] at hnone
        rw [hnone] at hst
        cases hst
    | unborn | handling | exited => rw [hw] at hj; exact absurd hj (Nat.lt_irrefl 0)
  | none =>
    have hc : (lift s.accepted s).calls none =
        callerCall (s.pool.todo ++ threadpoolDestroy t) s.pool.pc := by
      simp [Pool.calls, callsOf, lift, hf]
    rw [hc] at hst hj
    cases hd with
    | creating k hk ht =>
      rw [ht, drop_finRange hk] at hj
      exact absurd hj (Nat.lt_irrefl 0)
    | failed hf' => rw [hf] at hf'; cases hf'
    | idle _ ht hpc =>
      rw [hpc, callerCall_waitFull] at hj
      exact absurd hj (Nat.lt_irrefl 0)
    | submitting x _ ht =>
      have hnone := hstuck.caller
      simp only [ht, List.cons_append, callerCall, Call.step, Option.isSome_map] at hst
      simp only [Pool.stepCaller, ht] at hnone
      split at hnone
      · cases hnone
      · rw [Option.map_eq_none_iff] at hnone
        rw [hnone] at hst
        cases hst

/-- The dispatcher is back at `accept`, or it waits for room in the ring. -/
theorem dispatcher_waits (hp : PoolInv s.accepted (lift s.accepted s)) (hd : Dispatch s)
    (hf : s.pool.failed = false) (hstuck : PoolStuck s) :
    s.pool.todo = [] ∧ s.pool.shared.pushed = s.accepted ∨ s.pool.shared.queue.full = 0 := by
  have hcall := no_call hp hd hf hstuck none
  have hnone := hstuck.caller
  cases hd with
  | creating k hk ht =>
    rw [drop_finRange hk] at ht
    simp [Pool.stepCaller, ht] at hnone
  | failed hf' => rw [hf] at hf'; cases hf'
  | idle _ ht _ hpu => exact .inl ⟨ht, hpu⟩
  | submitting x _ ht =>
    right
    have hc : (lift s.accepted s).calls none = .push x s.pool.pc := by
      simp [Pool.calls, callsOf, callerCall, lift, hf, ht]
    rw [hc] at hcall
    simp only [Pool.stepCaller, ht] at hnone
    cases hpc : s.pool.pc
    case waitFull =>
      simp only [hpc, reduceCtorEq, if_false, Option.map_eq_none_iff, Push.step,
        ite_eq_right_iff, imp_false] at hnone
      omega
    case returned => simp [hpc] at hnone
    all_goals rw [hpc] at hcall; cases hcall

/-- A worker outside a handler waits for an element, of which there is none. -/
theorem idle_waits (h : HandOff reqs s) (hp : PoolInv s.accepted (lift s.accepted s))
    (hd : Dispatch s) (hf : s.pool.failed = false) (hstuck : PoolStuck s) {i : Fin t}
    (hi : ∀ x, s.pool.workers i ≠ .handling x) :
    s.pool.workers i = .popping .waitEmpty ∧ s.pool.shared.queue.empty = 0 := by
  have hnone := hstuck.worker i hi
  cases hw : s.pool.workers i with
  | unborn =>
    obtain ⟨k, hph, hborn⟩ := hp.phase
    rw [lift_workers] at hborn
    have hk : k ≤ i.val := (hborn i).mp hw
    have hlf : (lift s.accepted s).failed = false := by simp [lift, hf]
    have hall : k = t → False := fun he => by have := i.isLt; omega
    cases hph with
    | creating hk' _ ht =>
      -- the caller still has a worker to create
      rw [drop_finRange hk'] at ht
      cases hd with
      | creating k' hk' ht' =>
        have hcaller := hstuck.caller
        rw [drop_finRange hk'] at ht'
        simp [Pool.stepCaller, ht'] at hcaller
      | failed hf' => rw [hf] at hf'; cases hf'
      | idle _ ht' =>
        obtain ⟨r, rfl⟩ := Nat.exists_eq_add_of_lt (Nat.zero_lt_of_lt i.isLt)
        simp [lift, hf, ht', threadpoolDestroy, stopWorkers, List.replicate_succ] at ht
      | submitting x _ ht' => simp [lift, hf, ht'] at ht
    | pushing _ _ _ hf' => exact (hall (hf' hlf)).elim
    | joining _ _ _ hf' => exact (hall (hf' hlf)).elim
    | returned _ hf' => exact (hall (hf' hlf)).elim
  | exited =>
    -- it would have taken a sentinel, and only descriptors were pushed
    exfalso
    have hcount := hp.worker i STOP_SENTINEL
    rw [lift_shared, lift_workers, hw, keeps_exited] at hcount
    have hmem : (some i, STOP_SENTINEL) ∈ s.pool.shared.popped := by
      apply List.one_le_count_iff.mp
      omega
    have hfifo := hp.queue.ring.fifo
    rw [lift_shared] at hfifo
    have hacc := (hfifo.trans (pushed_accepted hd hf)).subset (List.mem_map.mpr ⟨_, hmem, rfl⟩)
    have hneg : 0 ≤ STOP_SENTINEL := h.fds _ hacc
    revert hneg
    decide
  | handling x => exact absurd hw (hi x)
  | popping pc =>
    have hidle := no_call hp hd hf hstuck (some i)
    have hc : (lift s.accepted s).calls (some i) = .pop pc := by
      simp [Pool.calls, callsOf, hw, Thread.call]
    rw [hc] at hidle
    cases pc
    case waitEmpty =>
      refine ⟨rfl, ?_⟩
      simp only [Pool.stepWorker, hw, Option.map_eq_none_iff, Pop.step, ite_eq_right_iff,
        reduceCtorEq, imp_false] at hnone
      omega
    case returned x =>
      simp only [Pool.stepWorker, hw] at hnone
      split at hnone <;> cases hnone
    all_goals cases hidle

/-- What was taken has a handler. -/
theorem handled_popped (h : HandOff reqs s) (hp : PoolInv s.accepted (lift s.accepted s))
    (hd : Dispatch s) (hf : s.pool.failed = false) (hstuck : PoolStuck s) (x : Int) :
    (s.pool.handled.map Prod.snd).count x = (s.pool.shared.popped.map Prod.snd).count x := by
  have htaken := hp.taken x
  rw [lift_shared, lift_handled, lift_workers, tally_eq_zero fun i => ?_, Nat.add_zero] at htaken
  · exact htaken.symm
  · by_cases hi : ∀ x, s.pool.workers i ≠ .handling x
    · rw [(idle_waits h hp hd hf hstuck hi).1]
      simp [Thread.keeps, Pop.elem]
    · obtain ⟨y, hy⟩ := not_forall_not.mp hi
      rw [hy]
      rfl

/-- A connection nobody serves is still in the queue, or in the dispatcher's
hand. -/
theorem unserved_unpopped (h : HandOff reqs s) (hp : PoolInv s.accepted (lift s.accepted s))
    (hd : Dispatch s) (hf : s.pool.failed = false) (hstuck : PoolStuck s) {c : Fin m}
    (hc : c.val < s.accepted.length) (hn : c ∉ s.served.map Prod.snd) :
    s.pool.shared.popped.length < s.accepted.length := by
  have hfifo := hp.queue.ring.fifo
  rw [lift_shared] at hfifo
  have hpre := hfifo.trans (pushed_accepted hd hf)
  have hle := hpre.length_le
  rw [List.length_map] at hle
  have hwaiting := h.waiting _ ⟨c, hn, List.getElem?_eq_getElem hc⟩
  rw [handled_popped h hp hd hf hstuck] at hwaiting
  by_contra hge
  rw [hpre.eq_of_length (by rw [List.length_map]; omega)] at hwaiting
  omega

/-- **A worker that waits has nobody waiting for it**: the dispatcher is back at
`accept`, and all that was accepted has a handler. -/
theorem all_served (h : HandOff reqs s) (hp : PoolInv s.accepted (lift s.accepted s))
    (hd : Dispatch s) (hf : s.pool.failed = false) (hstuck : PoolStuck s)
    (hempty : s.pool.shared.queue.empty = 0) :
    s.pool.todo = [] ∧ ∀ c : Fin m, c.val < s.accepted.length → c ∈ s.served.map Prod.snd := by
  obtain ⟨hitems, hroom, -⟩ := quiet_counts hp.queue (no_call hp hd hf hstuck)
  have hsize := hp.queue.ring.tail_lt
  rw [lift_shared] at hitems hroom hsize
  rcases dispatcher_waits hp hd hf hstuck with ⟨htodo, hpushed⟩ | hfull
  · refine ⟨htodo, fun c hc => ?_⟩
    by_contra hn
    have := unserved_unpopped h hp hd hf hstuck hc hn
    rw [hpushed] at hitems
    omega
  · omega

/-- **The pool serves whom it can.** If it cannot go on, the dispatcher is back at
`accept` and all that was accepted has a handler, or every worker is in one. -/
theorem pool_serves (h : HandOff reqs s) (hp : PoolInv s.accepted (lift s.accepted s))
    (hd : Dispatch s) (hf : s.pool.failed = false) (hstuck : PoolStuck s) :
    (s.pool.todo = [] ∧ ∀ c : Fin m, c.val < s.accepted.length → c ∈ s.served.map Prod.snd) ∨
      ∀ i, ∃ c, s.serving i = some c := by
  by_cases hidle : ∃ i, ∀ x, s.pool.workers i ≠ .handling x
  · obtain ⟨i, hi⟩ := hidle
    exact .inl (all_served h hp hd hf hstuck (idle_waits h hp hd hf hstuck hi).2)
  · refine .inr fun i => ?_
    obtain ⟨x, hx⟩ := not_forall_not.mp (not_exists.mp hidle i)
    exact Option.ne_none_iff_exists'.mp (h.handling i x hx)

end

end

/-! ## What is left at the end -/

/-- Everything accepted was handled by one worker, answered and audited once,
and closed; no lock is held. -/
structure Finished (reqs : Fin m → Incoming) (s : Prog t m) : Prop where
  rests : Rests s
  served : ∀ c : Fin m, c.val < s.accepted.length → ∃ i, (i, c) ∈ s.served
  closed : ∀ x, s.table x = none
  unlocked : ∀ c, (s.sys.workers c).held = none
  answered : ∀ c : Fin m, c.val < s.accepted.length → ¬ Silent (reqs c) →
    ∃ res l, responses (s.sys.workers c).trace = [res] ∧ s.sys.linesOf c = [l] ∧
      l.status = responseGetCode res
  quiet : ∀ c : Fin m, c.val < s.accepted.length → Silent (reqs c) →
    responses (s.sys.workers c).trace = [] ∧ s.sys.linesOf c = []

section
variable {junk : Nat → Int} {E : Env} {reqs : Fin m → Incoming} {files : Files} {s : Prog t m}

theorem Rests.finished (ht : 1 ≤ t) (hs : (program t junk E reqs files).Reachable s) (h : Rests s) :
    Finished reqs s := by
  have hh := program_handOff ht hs
  have hsrv := program_server hs
  have hserved : ∀ c : Fin m, c.val < s.accepted.length → ∃ i, (i, c) ∈ s.served := by
    intro c hc
    by_contra hn
    have hnot : c ∉ s.served.map Prod.snd := fun hm => by
      obtain ⟨⟨i, c'⟩, hm, he⟩ := List.mem_map.mp hm
      exact hn ⟨i, by rw [← he]; exact hm⟩
    have hdone := h.closed c hc
    rw [hh.untouched c hnot] at hdone
    cases hdone
  have hplan : ∀ c : Fin m, c.val < s.accepted.length →
      Logged (s.sys.workers c).trace (s.sys.linesOf c) ∧ Whole (reqs c) (s.sys.workers c).trace := by
    intro c hc
    obtain ⟨hl, hat⟩ := server_planned hsrv c
    rw [show (s.sys.solo c).worker.pc = .done from h.closed c hc, Pc.done, PlannedAt,
      List.append_nil] at hat
    exact ⟨hl, hat⟩
  refine ⟨h, hserved, ?_, ?_, ?_, ?_⟩
  · intro x
    cases htab : s.table x with
    | none => rfl
    | some c =>
      obtain ⟨hget, hd⟩ := (hh.table x c).mp htab
      exact absurd (h.closed c (List.getElem?_eq_some_iff.mp hget).1) hd
  · intro c
    rw [(server_guarded hsrv c).held]
    by_cases hc : c.val < s.accepted.length
    · rw [h.closed c hc]; rfl
    · have hnot : c ∉ s.served.map Prod.snd := fun hm => by
        obtain ⟨e, he, hce⟩ := List.mem_map.mp hm
        exact hc (hce ▸ hh.accepted e he)
      rw [hh.untouched c hnot]; rfl
  · intro c hc hq
    obtain ⟨hl, hw⟩ := hplan c hc
    rcases hw with ⟨hs, -⟩ | ⟨-, res, hseq⟩
    · exact absurd hs hq
    · obtain ⟨hr, ha⟩ := hseq.once
      rw [Logged, ha, List.map_cons, List.map_nil, List.map_eq_singleton_iff] at hl
      obtain ⟨l, hl, hst⟩ := hl
      exact ⟨res, l, hr, hl, hst⟩
  · intro c hc hq
    obtain ⟨hl, hw⟩ := hplan c hc
    rcases hw with ⟨-, htr⟩ | ⟨hs, -⟩
    · rw [htr] at hl ⊢
      exact ⟨rfl, List.map_eq_nil_iff.mp hl⟩
    · exact absurd hq hs

end

end HttpC.L8
