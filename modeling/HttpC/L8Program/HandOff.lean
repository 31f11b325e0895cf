import HttpC.L5Concurrency.Audit
import HttpC.L8Program.Program

/-!
# The hand-off of descriptors

`HandOff` is what the program keeps between `accept` and the end of the
handler. A descriptor stands for the last connection it was accepted for until
that connection's handler closes it. Since `accept` hands out only what is not
open, of the connections that had a descriptor all but one are closed, and
closed connections have been handled. So the number of times the descriptor
was accepted and the number of times it was handled differ by at most one
(`waiting`, `settled`), and a worker that has popped it (which the pool counts,
`PoolInv.taken`) finds it open, for a connection nobody has served
(`in_hand`).
-/
namespace HttpC.L8
open HttpC.L1.Util HttpC.L2 HttpC.L3 HttpC.L4 HttpC.L5 HttpC.Flock

variable {t m : Nat}

/-! ## The last act of a handler -/

/-- The connection is closed at the end of an exit, and only there. -/
def closesLast : Pc → Prop
  | .tail (a :: as) => (a :: as).count .closeConn = 1 ∧ (a :: as).getLast? = some .closeConn
  | _ => True

theorem closesLast_dispatch (res : Option Response) (c : Conn UInt8) :
    closesLast (dispatch res c) ∧ dispatch res c ≠ .done := by
  unfold dispatch
  repeat' split
  all_goals simp [closesLast, exitPlain, Pc.done]

theorem closesLast_flow {pc pc' : Pc} {acts : List Act} (h : Flow pc acts pc') :
    closesLast pc' ∧ pc' ≠ .done ∧ closing pc = false := by
  cases h <;> simp [closesLast, closing, Pc.done, exitPlain, exitLocked, exitOpen, exitSent]

/-- **A handler is done when it has closed its connection.** -/
theorem closesLast_step {E : Env} {free : Bytes → Mode → Bool} {files : Files} {w : Worker}
    {o : Outcome} (h : closesLast w.pc) (ho : w.step E free files = some o) :
    closesLast o.worker.pc ∧ (o.worker.pc = .done ↔ closing w.pc = true) := by
  cases hpc : w.pc with
  | new =>
    simp only [Worker.step, hpc] at ho
    split at ho <;> cases ho <;> simp [closesLast, closing, Pc.done]
  | parse =>
    simp only [Worker.step, hpc] at ho
    cases ho
    obtain ⟨h1, h2⟩ := closesLast_dispatch (connParse w.oracle.regcomp w.client).1
      (connParse w.oracle.regcomp w.client).2.1
    exact ⟨h1, by simp [closing, h2]⟩
  | tail acts =>
    cases acts with
    | nil => simp [Worker.step, hpc] at ho
    | cons a as =>
      simp only [Worker.step, hpc, Option.some.injEq] at ho
      subst ho
      have hw : (w.act files a as).worker.pc = .tail as := by cases a <;> rfl
      rw [hpc] at h
      obtain ⟨hcount, hlast⟩ := h
      rw [hw]
      cases as with
      | nil =>
        simp only [List.getLast?_singleton, Option.some.injEq] at hlast
        subst hlast
        exact ⟨trivial, by simp [Pc.done, closing]⟩
      | cons b bs =>
        rw [List.getLast?_cons_cons] at hlast
        have hmem : 1 ≤ (b :: bs).count .closeConn :=
          List.one_le_count_iff.mpr (List.mem_of_getLast? hlast)
        rw [List.count_cons] at hcount
        have ha : a ≠ .closeConn := by
          rintro rfl
          simp only [beq_self_eq_true, if_true] at hcount
          omega
        refine ⟨⟨?_, hlast⟩, ?_⟩
        · simpa [ha] using hcount
        · cases a <;> simp_all [Pc.done, closing]
  | _ =>
    obtain ⟨acts, hfo⟩ := step_follows ho (by rw [hpc]; rfl)
    obtain ⟨h1, h2, h3⟩ := closesLast_flow hfo.flow
    rw [hpc] at h3
    exact ⟨h1, by simp [h2, h3]⟩

theorem server_closesLast {E : Env} {reqs : Fin m → Incoming} {files : Files} {s : Sys m}
    (h : (server E reqs files).Reachable s) (c : Fin m) : closesLast (s.workers c).pc := by
  have hI : (server E reqs files).Inductive fun s => ∀ c, closesLast (s.workers c).pc := by
    refine ⟨?_, ?_⟩
    · intro s hs c
      subst hs
      trivial
    · intro s i s' hs hst c
      obtain ⟨o, ho, -, -, hw⟩ := step_inv hst
      rw [hw]
      by_cases hc : c = i
      · subst hc
        rw [Function.update_self]
        exact (closesLast_step (hs c) ho).1
      · rw [Function.update_of_ne hc]
        exact hs c
  exact hI.reachable s h c

/-! ## Where the dispatcher is -/

inductive Dispatch (s : Prog t m) : Prop where
  | creating (k : Nat) (hk : k < t) (ht : s.pool.todo = ((List.finRange t).drop k).map .create)
      (ha : s.accepted = []) (hf : s.pool.failed = false) (hpc : s.pool.pc = .waitFull)
      (hp : s.pool.shared.pushed = [])
  | failed (hf : s.pool.failed = true) (ha : s.accepted = [])
  | idle (hf : s.pool.failed = false) (ht : s.pool.todo = []) (hpc : s.pool.pc = .waitFull)
      (hp : s.pool.shared.pushed = s.accepted)
  | submitting (x : Int) (hf : s.pool.failed = false) (ht : s.pool.todo = [.push x])
      (hp : s.pool.shared.pushed ++ [x].drop s.pool.pc.stored.toNat = s.accepted)

section
variable {junk : Nat → Int} {E : Env} {reqs : Fin m → Incoming} {files : Files} {s s' : Prog t m}

theorem dispatch_init (ht : 1 ≤ t) : Dispatch (Prog.initial t junk reqs files) :=
  .creating 0 ht rfl rfl rfl rfl rfl

/-- A step that leaves the dispatcher where it is. -/
theorem Dispatch.frame (h : Dispatch s) (ha : s'.accepted = s.accepted)
    (ht : s'.pool.todo = s.pool.todo) (hpc : s'.pool.pc = s.pool.pc)
    (hf : s'.pool.failed = s.pool.failed) (hp : s'.pool.shared.pushed = s.pool.shared.pushed) :
    Dispatch s' := by
  cases h with
  | creating k h1 h2 h3 h4 h5 h6 =>
    exact .creating k h1 (by rw [ht, h2]) (by rw [ha, h3]) (by rw [hf, h4]) (by rw [hpc, h5])
      (by rw [hp, h6])
  | failed h1 h2 => exact .failed (by rw [hf, h1]) (by rw [ha, h2])
  | idle h1 h2 h3 h4 => exact .idle (by rw [hf, h1]) (by rw [ht, h2]) (by rw [hpc, h3]) (by rw [hp, ha, h4])
  | submitting x h1 h2 h3 => exact .submitting x (by rw [hf, h1]) (by rw [ht, h2]) (by rw [hp, hpc, ha, h3])

theorem dispatch_caller (h : Dispatch s) {p : Pool t} (hp : s.pool.stepCaller = some p) :
    Dispatch { s with pool := p } := by
  unfold Pool.stepCaller at hp
  cases h with
  | creating k hk ht ha hf hpc hpu =>
    rw [drop_finRange hk] at ht
    simp only [ht, List.map_cons, Option.some.injEq] at hp
    subst hp
    rcases Nat.lt_or_eq_of_le (Nat.succ_le_of_lt hk) with hlt | rfl
    · exact .creating (k + 1) hlt rfl ha hf hpc hpu
    · exact .idle hf (by simp) hpc (by simp only; rw [hpu, ha])
  | failed hf ha => exact .failed ((stepCaller_failed hp).trans hf) ha
  | idle hf ht hpc hpu => rw [ht] at hp; cases hp
  | submitting x hf ht hpu =>
    simp only [ht] at hp
    split at hp
    · rename_i hret
      cases hp
      rw [hret] at hpu
      exact .idle hf rfl rfl (by simpa [Push.stored] using hpu)
    · obtain ⟨⟨sh, pc'⟩, hst, rfl⟩ := Option.map_eq_some_iff.mp hp
      refine .submitting x hf rfl ?_
      rcases (Push.record hst).2 with ⟨h1, h2⟩ | ⟨h1, h2, h3⟩
      · simp only [h1, h2]; exact hpu
      · rw [h2] at hpu
        simp only [h1, h3]
        simpa using hpu

theorem dispatch_step {e : Ev t} (h : Dispatch s) (hst : s.step E e = some s') : Dispatch s' := by
  cases e with
  | accept connfd =>
    obtain ⟨hm, ⟨ht, hf, -, -⟩, rfl⟩ := accept_inv hst
    cases h with
    | creating k hk ht' => rw [ht, drop_finRange hk] at ht'; cases ht'
    | failed hf' => rw [hf] at hf'; cases hf'
    | idle _ _ hpc hp =>
      refine .submitting connfd hf rfl ?_
      simp only [hpc, hp]
      rfl
    | submitting x _ ht' => rw [ht] at ht'; cases ht'
  | acceptFails =>
    simp only [Prog.step] at hst
    split at hst <;> cases hst
    exact h
  | caller =>
    obtain ⟨p, hp, rfl⟩ := Option.map_eq_some_iff.mp hst
    exact dispatch_caller h hp
  | createFails =>
    obtain ⟨p, hp, rfl⟩ := Option.map_eq_some_iff.mp hst
    unfold Pool.stepFail at hp
    split at hp
    · rename_i i rest ht
      cases hp
      refine .failed rfl ?_
      cases h with
      | creating k hk ht' ha => exact ha
      | failed hf ha => exact ha
      | idle hf ht' => rw [ht] at ht'; cases ht'
      | submitting x hf ht' => rw [ht] at ht'; cases ht'
    · cases hp
  | worker i =>
    obtain ⟨ha, ht, hpc, hf, hp⟩ := (stepWorker_works hst).dispatcher
    exact h.frame ha ht hpc hf hp

theorem program_dispatch (ht : 1 ≤ t) (h : (program t junk E reqs files).Reachable s) :
    Dispatch s := by
  have hI : (program t junk E reqs files).Inductive fun s => Dispatch s :=
    ⟨fun s hs => by subst hs; exact dispatch_init ht, fun s e s' hs hst => dispatch_step hs hst⟩
  exact hI.reachable s h

end

/-! ## What the pool counts -/

section
variable {fds : List Int} {p : Pool t}

/-- A worker that is created does not exist yet. -/
theorem create_unborn (h : PoolInv fds p) {i : Fin t} {rest : List (Instr t)}
    (ht : p.todo = .create i :: rest) : p.workers i = .unborn := by
  obtain ⟨k, hph, hborn⟩ := h.phase
  cases hph with
  | creating hk hf ht' =>
    rw [ht', drop_finRange hk] at ht
    simp only [List.map_cons, List.cons_append, List.cons.injEq, Instr.create.injEq] at ht
    exact (hborn i).mpr (by rw [← ht.1])
  | pushing elems hne hk hf ht' =>
    obtain ⟨x, es, rfl⟩ := List.exists_cons_of_ne_nil hne
    rw [ht'] at ht
    cases ht
  | joining j hj hk hf ht' =>
    rcases Nat.lt_or_eq_of_le hj with hlt | rfl
    · rw [ht', joins_cons hlt hk] at ht; cases ht
    · rw [ht', joins_self] at ht; cases ht
  | returned hk hf ht' => rw [ht'] at ht; cases ht

/-- No descriptor is pushed more often than it was submitted. -/
theorem pushed_count (h : PoolInv fds p) {x : Int} (hx : x ≠ STOP_SENTINEL) :
    p.shared.pushed.count x ≤ fds.count x := by
  obtain ⟨k, hph, -⟩ := h.phase
  have htarget : (target fds p.failed k).count x ≤ fds.count x := by
    rw [target, List.count_append, List.count_replicate]
    split <;> simp [Ne.symm hx]
  cases hph with
  | creating hk hf ht hpc hp => rw [hp]; exact Nat.zero_le _
  | pushing elems hne hk hf ht hp =>
    rw [← hp, List.count_append] at htarget
    omega
  | joining j hj hk hf ht hpc hp => rw [hp]; exact htarget
  | returned hk hf ht hpc hp => rw [hp]; exact htarget

/-- A descriptor a worker has popped and not yet handled was submitted more
often than handled. -/
theorem popped_count (h : PoolInv fds p) {i : Fin t} {pc : Pop Int} {x : Int}
    (hw : p.workers i = .popping pc) (he : pc.elem = some x) (hx : x ≠ STOP_SENTINEL) :
    (p.handled.map Prod.snd).count x < fds.count x := by
  have hkeep := le_tally (Thread.keeps x) p.workers i
  rw [hw, Thread.keeps, if_pos he] at hkeep
  have htaken := h.taken x
  have hfifo := h.queue.ring.fifo.sublist.count_le x
  have hpush := pushed_count h hx
  omega

end

@[simp] theorem lift_shared (fds : List Int) (s : Prog t m) : (lift fds s).shared = s.pool.shared := by
  unfold lift; split <;> rfl

@[simp] theorem lift_workers (fds : List Int) (s : Prog t m) :
    (lift fds s).workers = s.pool.workers := by
  unfold lift; split <;> rfl

@[simp] theorem lift_handled (fds : List Int) (s : Prog t m) :
    (lift fds s).handled = s.pool.handled := by
  unfold lift; split <;> rfl

/-- A worker that the program creates does not exist yet. -/
theorem created_unborn {s : Prog t m} (hp : PoolInv s.accepted (lift s.accepted s)) {i : Fin t}
    {rest : List (Instr t)} (ht : s.pool.todo = .create i :: rest) : s.pool.workers i = .unborn := by
  have hl : ∃ r, (lift s.accepted s).todo = .create i :: r := by
    unfold lift
    split
    · exact ⟨rest, ht⟩
    · exact ⟨rest ++ ((s.accepted.drop s.accepted.length).map threadpoolSubmit ++
        threadpoolDestroy t), by simp only [ht, List.cons_append]⟩
  obtain ⟨r, hr⟩ := hl
  have hun := create_unborn hp hr
  rwa [lift_workers] at hun

/-! ## The invariant -/

/-- Connection `c` was accepted and nobody has called the handler for it. -/
def Waits (s : Prog t m) (c : Fin m) (x : Int) : Prop :=
  c ∉ s.served.map Prod.snd ∧ s.accepted[c.val]? = some x

structure HandOff (reqs : Fin m → Incoming) (s : Prog t m) : Prop where
  fds : ∀ x ∈ s.accepted, 0 ≤ x
  /-- The open descriptors are those of the accepted connections whose handler
  has not closed them, each for its own. -/
  table : ∀ x c, s.table x = some c ↔ s.accepted[c.val]? = some x ∧ (s.sys.workers c).pc ≠ .done
  untouched : ∀ c, c ∉ s.served.map Prod.snd → s.sys.workers c = (reqs c).start
  once : (s.served.map Prod.snd).Nodup
  accepted : ∀ e ∈ s.served, e.2.val < s.accepted.length
  handling : ∀ i x, s.pool.workers i = .handling x → s.serving i ≠ none
  serving : ∀ i c, s.serving i = some c →
    (i, c) ∈ s.served ∧ ∃ x, s.pool.workers i = .handling x ∧ s.accepted[c.val]? = some x
  ended : ∀ i c, (i, c) ∈ s.served → s.serving i = some c ∨ (s.sys.workers c).pc = .done
  waiting : ∀ x, (∃ c, Waits s c x) →
    s.accepted.count x = (s.pool.handled.map Prod.snd).count x + 1
  settled : ∀ x, (¬ ∃ c, Waits s c x) → s.accepted.count x = (s.pool.handled.map Prod.snd).count x

section
variable {E : Env} {reqs : Fin m → Incoming} {s s' : Prog t m}

/-- A connection that waits is open. -/
theorem HandOff.waits_open (h : HandOff reqs s) {c : Fin m} {x : Int} (hc : Waits s c x) :
    s.table x = some c :=
  (h.table x c).mpr ⟨hc.2, by rw [h.untouched c hc.1]; exact fun h => nomatch h⟩

/-- No connection has two handlers. -/
theorem HandOff.alone (h : HandOff reqs s) {i j : Fin t} {c : Fin m} (hi : s.serving i = some c)
    (hj : s.serving j = some c) : i = j :=
  congrArg Prod.fst (List.inj_on_of_nodup_map h.once (h.serving i c hi).1 (h.serving j c hj).1 rfl)

theorem HandOff.started (h : HandOff reqs s) {c : Fin m} (hc : (s.sys.workers c).pc ≠ .new) :
    c ∈ s.served.map Prod.snd := by
  by_contra hn
  rw [h.untouched c hn] at hc
  exact hc rfl

/-- A connection that was served and is not done has its worker. -/
theorem HandOff.served (h : HandOff reqs s) {c : Fin m} (hc : c ∈ s.served.map Prod.snd)
    (hd : (s.sys.workers c).pc ≠ .done) : ∃ i, s.serving i = some c := by
  obtain ⟨⟨i, c'⟩, hm, rfl⟩ := List.mem_map.mp hc
  exact ⟨i, (h.ended i c' hm).resolve_right hd⟩

theorem handOff_init (junk : Nat → Int) (files : Files) :
    HandOff reqs (Prog.initial t junk reqs files) where
  fds x hx := by cases hx
  table x c := by simp [Prog.initial]
  untouched c _ := rfl
  once := List.nodup_nil
  accepted e he := by cases he
  handling i x hw := by cases hw
  serving i c hc := by cases hc
  ended i c hc := by cases hc
  waiting x := by
    rintro ⟨c, -, hc⟩
    simp [Prog.initial] at hc
  settled x _ := rfl

/-- A step of the pool that starts and ends no handler. -/
theorem HandOff.frame (h : HandOff reqs s) {p : Pool t} (hh : p.handled = s.pool.handled)
    (hw : ∀ i x, p.workers i = .handling x ↔ s.pool.workers i = .handling x) :
    HandOff reqs { s with pool := p } where
  fds := h.fds
  table := h.table
  untouched := h.untouched
  once := h.once
  accepted := h.accepted
  handling i x hx := h.handling i x ((hw i x).mp hx)
  serving i c hc := by
    obtain ⟨h1, x, h2, h3⟩ := h.serving i c hc
    exact ⟨h1, x, (hw i x).mpr h2, h3⟩
  ended := h.ended
  waiting x hx := by simp only [hh]; exact h.waiting x hx
  settled x hx := by simp only [hh]; exact h.settled x hx

/-- What the files hold is none of its business. -/
theorem HandOff.files (h : HandOff reqs s) {y : Sys m} (hw : y.workers = s.sys.workers) :
    HandOff reqs { s with sys := y } where
  fds := h.fds
  table := by rw [hw]; exact h.table
  untouched := by rw [hw]; exact h.untouched
  once := h.once
  accepted := h.accepted
  handling := h.handling
  serving := h.serving
  ended := by rw [hw]; exact h.ended
  waiting := h.waiting
  settled := h.settled

/-- The last accepted descriptor, and the others. -/
theorem getElem?_accept (l : List Int) (x y : Int) (k : Nat) :
    (l ++ [x])[k]? = some y ↔ l[k]? = some y ∨ (k = l.length ∧ x = y) := by
  rcases Nat.lt_trichotomy k l.length with hk | rfl | hk
  · rw [List.getElem?_append_left hk]
    simp [Nat.ne_of_lt hk]
  · simp
  · rw [List.getElem?_eq_none (by simp; omega), List.getElem?_eq_none (by omega)]
    simp [Nat.ne_of_gt hk]

theorem handOff_accept {connfd : Int} (h : HandOff reqs s)
    (hst : s.step E (.accept connfd) = some s') : HandOff reqs s' := by
  obtain ⟨hm, ⟨-, -, h0, hfree⟩, rfl⟩ := accept_inv hst
  -- nobody has the descriptor, so nobody waits with it
  have hnone : ¬ ∃ c, Waits s c connfd := by
    rintro ⟨c, hc⟩
    rw [h.waits_open hc] at hfree
    cases hfree
  have hnew : (⟨s.accepted.length, hm⟩ : Fin m) ∉ s.served.map Prod.snd := by
    intro hmem
    obtain ⟨e, he, hc⟩ := List.mem_map.mp hmem
    have := h.accepted e he
    rw [hc] at this
    exact Nat.lt_irrefl _ this
  refine ⟨?_, ?_, h.untouched, h.once, ?_, h.handling, ?_, h.ended, ?_, ?_⟩
  · intro x hx
    rcases List.mem_append.mp hx with hx | hx
    · exact h.fds x hx
    · rw [List.mem_singleton.mp hx]; exact h0
  · intro x c
    simp only [getElem?_accept]
    by_cases hx : x = connfd
    · subst hx
      rw [Function.update_self, Option.some.injEq]
      constructor
      · rintro rfl
        refine ⟨.inr ⟨rfl, rfl⟩, ?_⟩
        rw [h.untouched _ hnew]
        exact fun h => nomatch h
      · rintro ⟨hc | ⟨hc, -⟩, hd⟩
        · have := (h.table x c).mpr ⟨hc, hd⟩
          rw [hfree] at this
          cases this
        · exact Fin.ext hc.symm
    · rw [Function.update_of_ne hx, h.table]
      constructor
      · exact fun ⟨h1, h2⟩ => ⟨.inl h1, h2⟩
      · rintro ⟨h1 | ⟨-, h1⟩, h2⟩
        · exact ⟨h1, h2⟩
        · exact absurd h1.symm hx
  · intro e he
    have := h.accepted e he
    simp only [List.length_append]
    omega
  · intro i c hc
    obtain ⟨h1, x, h2, h3⟩ := h.serving i c hc
    exact ⟨h1, x, h2, (getElem?_accept _ _ _ _).mpr (.inl h3)⟩
  · rintro x ⟨c, hc, hget⟩
    rw [List.count_append]
    by_cases hx : x = connfd
    · subst hx
      rw [h.settled x hnone]
      simp
    · rcases (getElem?_accept _ _ _ _).mp hget with hget | ⟨-, he⟩
      · rw [h.waiting x ⟨c, hc, hget⟩]
        simp [Ne.symm hx]
      · exact absurd he.symm hx
  · intro x hno
    rw [List.count_append]
    by_cases hx : x = connfd
    · subst hx
      exact absurd ⟨⟨s.accepted.length, hm⟩, hnew, (getElem?_accept _ _ _ _).mpr (.inr ⟨rfl, rfl⟩)⟩ hno
    · rw [h.settled x fun ⟨c, hc, hget⟩ =>
        hno ⟨c, hc, (getElem?_accept _ _ _ _).mpr (.inl hget)⟩]
      simp [Ne.symm hx]

/-- **What a worker has popped is open and was served by nobody.** -/
theorem HandOff.in_hand (h : HandOff reqs s) (hp : PoolInv s.accepted (lift s.accepted s))
    {i : Fin t} {pc : Pop Int} {x : Int} (hw : s.pool.workers i = .popping pc)
    (he : pc.elem = some x) (hx : x ≠ STOP_SENTINEL) : ∃ c, Waits s c x ∧ s.table x = some c := by
  have hlt := popped_count hp (by rw [lift_workers]; exact hw) he hx
  rw [lift_handled] at hlt
  by_cases hc : ∃ c, Waits s c x
  · obtain ⟨c, hc⟩ := hc
    exact ⟨c, hc, h.waits_open hc⟩
  · rw [h.settled x hc] at hlt
    exact absurd hlt (Nat.lt_irrefl _)

theorem handOff_serve (h : HandOff reqs s) {i : Fin t} {connfd : Int} {c : Fin m} {y : Sys m}
    (hlast : closesLast (s.sys.workers c).pc) (hw : s.pool.workers i = .handling connfd)
    (hc : s.serving i = some c) (hd : (s.sys.workers c).pc ≠ .done) (hy : s.sys.step E c = some y) :
    HandOff reqs { s with
      sys := y
      table := if closing (s.sys.workers c).pc then Function.update s.table connfd none
        else s.table } := by
  obtain ⟨o, ho, -, -, hyw⟩ := step_inv hy
  have hdone := (closesLast_step hlast ho).2
  obtain ⟨hserved, x, hx, hget⟩ := h.serving i c hc
  rw [hw] at hx
  cases hx
  have hother : ∀ c', c' ≠ c → y.workers c' = s.sys.workers c' := fun c' hne => by
    rw [hyw, Function.update_of_ne hne]
  have hself : y.workers c = o.worker := by rw [hyw, Function.update_self]
  have hopen : s.table connfd = some c := (h.table _ _).mpr ⟨hget, hd⟩
  refine ⟨h.fds, ?_, ?_, h.once, h.accepted, h.handling, h.serving, ?_, h.waiting, h.settled⟩
  · intro x c'
    by_cases hc' : c' = c
    · subst hc'
      simp only [hself, ne_eq, hdone]
      by_cases hcl : closing (s.sys.workers c').pc = true
      · simp only [hcl, if_true, not_true_eq_false, and_false, iff_false]
        by_cases hx : x = connfd
        · rw [hx, Function.update_self]; simp
        · rw [Function.update_of_ne hx, h.table, hget]
          exact fun h => hx (Option.some.inj h.1).symm
      · simp only [hcl, if_false, h.table, hd, ne_eq, not_false_eq_true, and_true,
          Bool.false_eq_true]
    · simp only [hother c' hc']
      split
      · by_cases hx : x = connfd
        · subst hx
          rw [Function.update_self, ← h.table, hopen]
          simp [Ne.symm hc']
        · rw [Function.update_of_ne hx, h.table]
      · exact h.table x c'
  · intro c' hc'
    have hne : c' ≠ c := by
      rintro rfl
      exact hc' (List.mem_map.mpr ⟨_, hserved, rfl⟩)
    simp only [hother c' hne]
    exact h.untouched c' hc'
  · intro j c' hm
    by_cases hne : c' = c
    · subst hne
      have := List.inj_on_of_nodup_map h.once hm hserved rfl
      cases this
      exact .inl hc
    · simp only [hother c' hne]
      exact h.ended j c' hm

theorem handOff_return (h : HandOff reqs s) {i : Fin t} {c : Fin m}
    (hc : s.serving i = some c) (hd : (s.sys.workers c).pc = .done) :
    HandOff reqs { s with
      pool := { s.pool with workers := Function.update s.pool.workers i (.popping .waitEmpty) }
      serving := Function.update s.serving i none } := by
  refine ⟨h.fds, h.table, h.untouched, h.once, h.accepted, ?_, ?_, ?_, h.waiting, h.settled⟩
  · intro j x hx
    by_cases hj : j = i
    · subst hj; simp at hx
    · simp only [Function.update_of_ne hj] at hx ⊢
      exact h.handling j x hx
  · intro j c' hc'
    by_cases hj : j = i
    · subst hj; simp at hc'
    · simp only [Function.update_of_ne hj] at hc' ⊢
      exact h.serving j c' hc'
  · intro j c' hm
    have := h.ended j c' hm
    by_cases hj : j = i
    · subst hj
      rw [hc] at this
      rcases this with he | he
      · cases he; exact .inr hd
      · exact .inr he
    · simp only [Function.update_of_ne hj]
      exact this

theorem handOff_start (h : HandOff reqs s) {i : Fin t} {connfd : Int} {c : Fin m}
    (hw : s.pool.workers i = .popping (.returned connfd)) (hc : Waits s c connfd) :
    HandOff reqs { s with
      pool := { s.pool with
        workers := Function.update s.pool.workers i (.handling connfd)
        handled := s.pool.handled ++ [(i, connfd)] }
      serving := Function.update s.serving i (some c)
      served := s.served ++ [(i, c)] } := by
  have hidle : s.serving i = none := by
    cases hs : s.serving i with
    | none => rfl
    | some c' =>
      obtain ⟨-, x, hx, -⟩ := h.serving i c' hs
      rw [hw] at hx
      cases hx
  -- who waits afterwards: the others
  have hwaits : ∀ c' x, (c' ∉ (s.served ++ [(i, c)]).map Prod.snd ∧ s.accepted[c'.val]? = some x) ↔
      Waits s c' x ∧ c' ≠ c := by
    intro c' x
    simp only [Waits, List.map_append, List.map_cons, List.map_nil, List.mem_append,
      List.mem_singleton, not_or]
    exact ⟨fun h => ⟨⟨h.1.1, h.2⟩, h.1.2⟩, fun h => ⟨⟨h.1.1, h.2⟩, h.1.2⟩⟩
  refine ⟨h.fds, h.table, ?_, ?_, ?_, ?_, ?_, ?_, ?_, ?_⟩
  · intro c' hc'
    refine h.untouched c' fun hm => hc' ?_
    rw [List.map_append]
    exact List.mem_append_left _ hm
  · simp only [List.map_append, List.map_cons, List.map_nil]
    exact List.nodup_append.mpr ⟨h.once, List.nodup_singleton _, by
      intro a ha b hb
      rw [List.mem_singleton.mp hb]
      rintro rfl
      exact hc.1 ha⟩
  · intro e he
    rcases List.mem_append.mp he with he | he
    · exact h.accepted e he
    · rw [List.mem_singleton.mp he]
      exact (List.getElem?_eq_some_iff.mp hc.2).1
  · intro j x hx
    by_cases hj : j = i
    · subst hj; simp
    · simp only [Function.update_of_ne hj] at hx ⊢
      exact h.handling j x hx
  · intro j c' hc'
    by_cases hj : j = i
    · subst hj
      simp only [Function.update_self, Option.some.injEq] at hc'
      subst hc'
      exact ⟨List.mem_append_right _ (List.mem_singleton.mpr rfl), connfd, by simp, hc.2⟩
    · simp only [Function.update_of_ne hj] at hc' ⊢
      obtain ⟨h1, h2⟩ := h.serving j c' hc'
      exact ⟨List.mem_append_left _ h1, h2⟩
  · intro j c' hmem
    rcases List.mem_append.mp hmem with hm | hm
    · by_cases hj : j = i
      · subst hj
        rcases h.ended j c' hm with he | he
        · rw [hidle] at he; cases he
        · exact .inr he
      · simp only [Function.update_of_ne hj]
        exact h.ended j c' hm
    · cases List.mem_singleton.mp hm
      exact .inl (by simp)
  · rintro x ⟨c', hc'⟩
    obtain ⟨hc', hne⟩ := (hwaits c' x).mp hc'
    have hx : connfd ≠ x := by
      rintro rfl
      have := (h.waits_open hc').symm.trans (h.waits_open hc)
      exact hne (Option.some.inj this)
    simp only [List.map_append, List.map_cons, List.map_nil, List.count_append]
    rw [h.waiting x ⟨c', hc'⟩]
    simp [hx]
  · intro x hno
    simp only [List.map_append, List.map_cons, List.map_nil, List.count_append]
    by_cases hx : connfd = x
    · subst hx
      rw [h.waiting connfd ⟨c, hc⟩]
      simp
    · rw [h.settled x]
      · simp [hx]
      · rintro ⟨c', hc'⟩
        refine hno ⟨c', (hwaits c' x).mpr ⟨hc', ?_⟩⟩
        rintro rfl
        exact hx (Option.some.inj (hc.2.symm.trans hc'.2))

/-- A worker that is not and will not be in a handler. -/
theorem update_handling {workers : Fin t → Thread} {i : Fin t} {th : Thread}
    (h : ∀ x, workers i ≠ .handling x) (h' : ∀ x, th ≠ .handling x) (j : Fin t) (x : Int) :
    Function.update workers i th j = .handling x ↔ workers j = .handling x := by
  by_cases hj : j = i
  · subst hj
    rw [Function.update_self]
    exact ⟨fun he => absurd he (h' x), fun he => absurd he (h x)⟩
  · rw [Function.update_of_ne hj]

theorem handOff_caller (h : HandOff reqs s) (hp : PoolInv s.accepted (lift s.accepted s)) {p : Pool t}
    (hst : s.pool.stepCaller = some p) : HandOff reqs { s with pool := p } := by
  unfold Pool.stepCaller at hst
  split at hst
  · cases hst
  · rename_i i rest ht
    cases hst
    -- the new worker handles nothing, and did not before
    have hun := created_unborn hp ht
    exact h.frame rfl (update_handling (fun x he => by rw [hun] at he; cases he) fun x he => nomatch he)
  · split at hst
    · cases hst; exact h.frame rfl fun _ _ => .rfl
    · obtain ⟨r, -, rfl⟩ := Option.map_eq_some_iff.mp hst
      exact h.frame rfl fun _ _ => .rfl
  · split at hst
    · cases hst; exact h.frame rfl fun _ _ => .rfl
    · cases hst
  · cases hst; exact h.frame rfl fun _ _ => .rfl

theorem handOff_step {e : Ev t} (h : HandOff reqs s) (hp : PoolInv s.accepted (lift s.accepted s))
    (hlast : ∀ c, closesLast (s.sys.workers c).pc) (hst : s.step E e = some s') : HandOff reqs s' := by
  cases e with
  | accept connfd => exact handOff_accept h hst
  | acceptFails =>
    simp only [Prog.step] at hst
    split at hst <;> cases hst
    exact h
  | caller =>
    obtain ⟨p, hc, rfl⟩ := Option.map_eq_some_iff.mp hst
    exact handOff_caller h hp hc
  | createFails =>
    obtain ⟨p, hc, rfl⟩ := Option.map_eq_some_iff.mp hst
    unfold Pool.stepFail at hc
    split at hc
    · cases hc; exact h.frame rfl fun _ _ => .rfl
    · cases hc
  | worker i =>
    cases stepWorker_works hst with
    | serve connfd c y hw hc hd hy => exact handOff_serve h (hlast c) hw hc hd hy
    | «return» connfd c hw hc hd => exact handOff_return h hc hd
    | start connfd hx hw =>
      obtain ⟨c, hc, htab⟩ := h.in_hand hp hw rfl hx
      rw [htab]
      exact handOff_start h hw hc
    | exit hw =>
      exact h.frame rfl (update_handling (fun x he => by rw [hw] at he; cases he) fun x he => by cases he)
    | pop pc sh pc' hw hpop =>
      exact h.frame rfl (update_handling (fun x he => by rw [hw] at he; cases he) fun x he => by cases he)

end

section
variable {junk : Nat → Int} {E : Env} {reqs : Fin m → Incoming} {files : Files} {s : Prog t m}

theorem program_poolInv (ht : 1 ≤ t) (h : (program t junk E reqs files).Reachable s) :
    PoolInv s.accepted (lift s.accepted s) :=
  pool_inv ht ht (program_pool h (List.prefix_refl _))

/-- **The hand-off holds in every state of every run.** -/
theorem program_handOff (ht : 1 ≤ t) (h : (program t junk E reqs files).Reachable s) :
    HandOff reqs s := by
  have hI : (program t junk E reqs files).Inductive fun s =>
      (program t junk E reqs files).Reachable s ∧ HandOff reqs s := by
    refine ⟨?_, ?_⟩
    · intro s hs
      subst hs
      exact ⟨⟨_, [], rfl, .nil _⟩, handOff_init junk files⟩
    · intro s e s' hs hst
      exact ⟨hs.1.step hst, handOff_step hs.2 (program_poolInv ht hs.1)
        (server_closesLast (program_server hs.1)) hst⟩
  exact (hI.reachable s h).2

/-- What the hand-off guarantees, whatever the schedule and however the kernel
reuses descriptors. -/
structure Delivered (s : Prog t m) : Prop where
  /-- An open descriptor stands for one connection, the one it was accepted
  for, from `accept` to the `close` of that connection's handler. -/
  table : ∀ x c, s.table x = some c ↔ s.accepted[c.val]? = some x ∧ (s.sys.workers c).pc ≠ .done
  /-- A worker that has taken a descriptor from the queue finds it open, for a
  connection nobody served. -/
  popped : ∀ i pc x, s.pool.workers i = .popping pc → pc.elem = some x → x ≠ STOP_SENTINEL →
    ∃ c, s.table x = some c ∧ c ∉ s.served.map Prod.snd
  /-- A handler runs on the descriptor of its own connection, up to and
  including the `close`. -/
  own : ∀ i x, s.pool.workers i = .handling x → ∃ c, s.serving i = some c ∧
    s.accepted[c.val]? = some x ∧ ((s.sys.workers c).pc ≠ .done → s.table x = some c)
  /-- No connection has two handlers, at a time or one after the other. -/
  alone : ∀ i j c, s.serving i = some c → s.serving j = some c → i = j
  once : (s.served.map Prod.snd).Nodup
  /-- Descriptors are taken in the order of the accepts. -/
  fifo : s.pool.failed = false → s.pool.shared.popped.map Prod.snd <+: s.accepted
  /-- A handler that nobody called has done nothing. -/
  untouched : ∀ c, c ∉ s.served.map Prod.snd → (s.sys.workers c).pc = .new ∧ ∀ l, (c, l) ∉ s.sys.log

theorem pushed_accepted (h : Dispatch s) (hf : s.pool.failed = false) :
    s.pool.shared.pushed <+: s.accepted := by
  cases h with
  | creating k hk ht ha hf hpc hp => rw [hp]; exact List.nil_prefix
  | failed hf' => rw [hf] at hf'; cases hf'
  | idle _ _ _ hp => rw [hp]
  | submitting x _ _ hp => exact ⟨_, hp⟩

/-- **No descriptor is mixed up.** -/
theorem program_delivers (t : Nat) (ht : 1 ≤ t) (junk : Nat → Int) (E : Env)
    (reqs : Fin m → Incoming) (files : Files) (s : Prog t m)
    (hs : (program t junk E reqs files).Reachable s) : Delivered s := by
  have h := program_handOff ht hs
  have hp := program_poolInv ht hs
  refine ⟨h.table, ?_, ?_, ?_, h.once, ?_, ?_⟩
  · intro i pc x hw he hx
    obtain ⟨c, hc, htab⟩ := h.in_hand hp hw he hx
    exact ⟨c, htab, hc.1⟩
  · intro i x hw
    obtain ⟨c, hc⟩ := Option.ne_none_iff_exists'.mp (h.handling i x hw)
    obtain ⟨-, x', hx', hget⟩ := h.serving i c hc
    rw [hw] at hx'
    cases hx'
    exact ⟨c, hc, hget, fun hd => (h.table x c).mpr ⟨hget, hd⟩⟩
  · exact fun i j c hi hj => h.alone hi hj
  · intro hf
    have hfifo := hp.queue.ring.fifo
    rw [lift_shared] at hfifo
    exact hfifo.trans (pushed_accepted (program_dispatch ht hs) hf)
  · intro c hc
    have hnew : (s.sys.workers c).pc = .new := by rw [h.untouched c hc]; rfl
    exact ⟨hnew, unstarted_unlogged (program_server hs) hnew⟩

end

/-- Two clients of one worker: the first has been answered and its descriptor
is accepted again before the worker is back at the queue. -/
theorem program_delivers_reused : ∃ s : Prog 1 2,
    (program 1 (fun _ => 0) ⟨[], 1, 2⟩ (fun _ => getA) fun _ => none).Reachable s ∧
    s.accepted = [5, 5] ∧ s.serving 0 = some 0 ∧ s.table 5 = some 1 ∧ Delivered s := by
  have hrun : ((LTS.exec (Prog.step ⟨[], 1, 2⟩)
      (Prog.initial (m := 2) 1 (fun _ => 0) (fun _ => getA) fun _ => none)
      (.caller :: .accept 5 :: (List.replicate 8 .caller ++ List.replicate 16 (.worker 0) ++
        [.accept 5]))).map fun s => (s.accepted, s.serving 0, s.table 5)) =
      some ([5, 5], some 0, some 1) := by decide
  obtain ⟨s, hs, hd⟩ := Option.map_eq_some_iff.mp hrun
  simp only [Prod.mk.injEq] at hd
  have hr : (program 1 (fun _ => 0) ⟨[], 1, 2⟩ (fun _ => getA) fun _ => none).Reachable s :=
    ⟨_, _, rfl, LTS.run_of_exec _ _ _ hs⟩
  exact ⟨s, hr, hd.1, hd.2.1, hd.2.2, program_delivers 1 (by decide) _ _ _ _ s hr⟩

end HttpC.L8
