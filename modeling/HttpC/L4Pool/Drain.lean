import Mathlib.Data.Fintype.Fin
import HttpC.L4Pool.ThreadPool

/-!
# The pool loses, repeats and strands nothing

Read off `PoolInv`. The sentinels taken so far are the workers that keep one
(`PoolInv.stops`), and the queue is FIFO, so while a sentinel is missing some
worker is left to take it: no state is stuck (`PoolInv.progress`), also when
the ring is smaller than the number of sentinels and also in the roll-back of
`threadpool_new`. When the caller has joined everybody, all that was pushed has
been popped: `pool_drains`.
-/
namespace HttpC.L4

variable {n : Nat} {fds : List Int} {s : Pool n}

/-! ## Counting sentinels -/

/-- What was taken is what was handled and what is in hand. -/
theorem PoolInv.taken (h : PoolInv fds s) (x : Int) : (s.shared.popped.map Prod.snd).count x =
    (s.handled.map Prod.snd).count x + tally (Thread.keeps x) s.workers := by
  rw [count_snd_eq_sum, count_snd_eq_sum, Fintype.sum_option, h.caller, Nat.zero_add, tally,
    ← Finset.sum_add_distrib]
  exact Finset.sum_congr rfl fun i _ => h.worker i x

theorem PoolInv.unhandled (h : PoolInv fds s) :
    (s.handled.map Prod.snd).count STOP_SENTINEL = 0 := by
  apply List.count_eq_zero.mpr
  intro hm
  obtain ⟨⟨i, x⟩, hm, hx⟩ := List.mem_map.mp hm
  simp only at hx
  subst hx
  exact h.handled i hm

theorem PoolInv.stops (h : PoolInv fds s) : (s.shared.popped.map Prod.snd).count STOP_SENTINEL =
    tally (Thread.keeps STOP_SENTINEL) s.workers := by
  rw [h.taken, h.unhandled, Nat.zero_add]

theorem Thread.keeps_le (x : Int) (t : Thread) : t.keeps x ≤ 1 := by
  cases t <;> simp only [Thread.keeps] <;> first | omega | (split <;> omega)

theorem sum_lt_eq {k : Nat} (hk : k ≤ n) : ∑ i : Fin n, (if i.val < k then 1 else 0) = k := by
  rw [← Finset.card_filter, Fin.card_filter_val_lt, Nat.min_eq_right hk]

/-- With fewer sentinels kept than workers created, some worker has none. -/
theorem exists_running {workers : Fin n → Thread} {k : Nat} (hk : k ≤ n)
    (h : tally (Thread.keeps STOP_SENTINEL) workers < k) :
    ∃ i : Fin n, i.val < k ∧ (workers i).keeps STOP_SENTINEL = 0 := by
  by_contra hn
  have hle : ∑ i : Fin n, (if i.val < k then 1 else 0) ≤ tally (Thread.keeps STOP_SENTINEL) workers := by
    apply Finset.sum_le_sum
    intro i _
    split
    · rename_i hi
      exact Nat.one_le_iff_ne_zero.mpr fun h0 => hn ⟨i, hi, h0⟩
    · exact Nat.zero_le _
  rw [sum_lt_eq hk] at hle
  omega

/-- With as many sentinels kept as workers created, each has one. -/
theorem all_stopped {workers : Fin n → Thread} {k : Nat} (hk : k ≤ n)
    (hborn : ∀ i : Fin n, workers i = .unborn ↔ k ≤ i.val)
    (h : tally (Thread.keeps STOP_SENTINEL) workers = k) {i : Fin n} (hi : i.val < k) :
    (workers i).keeps STOP_SENTINEL = 1 := by
  have hle : ∀ j ∈ Finset.univ, (workers j).keeps STOP_SENTINEL ≤ if j.val < k then 1 else 0 := by
    intro j _
    split
    · exact Thread.keeps_le _ _
    · rename_i hj
      rw [(hborn j).mpr (Nat.le_of_not_lt hj)]
      exact Nat.le_refl _
  have heq := (Finset.sum_eq_sum_iff_of_le hle).mp (by rw [sum_lt_eq hk]; exact h) i
    (Finset.mem_univ i)
  rw [heq, if_pos hi]

/-- Whatever is left of the caller's pushes ends in a sentinel. -/
theorem stop_mem {A p e : List Int} {k : Nat} (hk : 0 < k) (he : e ≠ [])
    (h : p ++ e = A ++ List.replicate k STOP_SENTINEL) : STOP_SENTINEL ∈ e := by
  have hlast := congrArg List.getLast? h
  rw [List.getLast?_append_of_ne_nil _ he,
    List.getLast?_append_of_ne_nil _ (by simp; omega), List.getLast?_replicate,
    if_neg (by omega)] at hlast
  exact List.mem_of_getLast? hlast

theorem count_target (hfds : ∀ fd ∈ fds, 0 ≤ fd) (failed : Bool) (k : Nat) :
    (target fds failed k).count STOP_SENTINEL = k := by
  have h0 : (if failed then [] else fds).count STOP_SENTINEL = 0 := by
    apply List.count_eq_zero.mpr
    intro hm
    split at hm
    · cases hm
    · have := hfds _ hm
      revert this; decide
  rw [target, List.count_append, h0, List.count_replicate_self, Nat.zero_add]

/-! ## No state is stuck -/

/-- Some thread can go on, without another `pthread_create` failing. -/
def Enabled (s : Pool n) : Prop := ∃ l s', l ≠ Label.createFails ∧ s.step l = some s'

theorem Enabled.of_caller (h : s.stepCaller.isSome = true) : Enabled s := by
  obtain ⟨s', hs⟩ := Option.isSome_iff_exists.mp h
  exact ⟨.caller, s', by simp, hs⟩

theorem Enabled.of_worker (i : Fin n) (h : (s.stepWorker i).isSome = true) : Enabled s := by
  obtain ⟨s', hs⟩ := Option.isSome_iff_exists.mp h
  exact ⟨.worker i, s', by simp, hs⟩

/-- A step of a call is a step of its thread. -/
theorem Enabled.of_call {t : Option (Fin n)} (h : ((s.calls t).step t s.shared).isSome = true) :
    Enabled s := by
  cases t with
  | none =>
    refine .of_caller ?_
    have hc : s.calls none = callerCall s.todo s.pc := rfl
    rw [hc] at h
    unfold callerCall at h
    split at h
    · rename_i x rest ht
      simp only [Call.step, Option.isSome_map] at h
      have hne : s.pc ≠ .returned := by
        intro he
        rw [he] at h
        cases h
      simp only [Pool.stepCaller, ht, if_neg hne, Option.isSome_map]
      exact h
    · cases h
  | some i =>
    refine .of_worker i ?_
    have hc : s.calls (some i) = (s.workers i).call := rfl
    rw [hc] at h
    unfold Thread.call at h
    split at h
    · rename_i pc hw
      simp only [Call.step, Option.isSome_map] at h
      unfold Pool.stepWorker
      rw [hw]
      cases pc
      case returned => cases h
      all_goals
        simp only [Option.isSome_map]
        exact h
    · cases h

theorem Enabled.of_inFlight (h : Inv s.shared s.calls) {t : Option (Fin n)}
    (ht : 0 < (s.calls t).inFlight) : Enabled s := by
  obtain ⟨j, -, hj⟩ := h.progress ht
  exact .of_call hj

/-- A running worker can go on, unless it waits for an element. -/
theorem worker_progress (h : Inv s.shared s.calls) {i : Fin n}
    (hi : s.workers i ≠ .unborn ∧ s.workers i ≠ .exited) :
    Enabled s ∨ (s.workers i = .popping .waitEmpty ∧ s.shared.queue.empty = 0) := by
  have hc : s.calls (some i) = (s.workers i).call := rfl
  cases hw : s.workers i with
  | unborn => exact absurd hw hi.1
  | exited => exact absurd hw hi.2
  | handling fd => exact .inl (.of_worker i (by simp [Pool.stepWorker, hw]))
  | popping pc =>
    rw [hw] at hc
    cases pc with
    | returned x =>
      refine .inl (.of_worker i ?_)
      simp only [Pool.stepWorker, hw]
      split <;> rfl
    | waitEmpty =>
      by_cases he : 0 < s.shared.queue.empty
      · refine .inl (.of_call (t := some i) ?_)
        rw [hc]
        simp [Thread.call, Call.step, Pop.step, he]
      · exact .inr ⟨rfl, by omega⟩
    | _ =>
      refine .inl (.of_inFlight h (t := some i) ?_)
      rw [hc]
      simp [Thread.call, Call.inFlight, Call.claim, Call.taken]

/-- Nobody is in a call: the semaphores say all there is to say. -/
theorem quiet_counts (h : Inv s.shared s.calls) (hq : ∀ t, (s.calls t).inFlight = 0) :
    s.shared.queue.empty + s.shared.popped.length = s.shared.pushed.length ∧
      s.shared.queue.full + s.shared.pushed.length = s.shared.queue.size + s.shared.popped.length ∧
      s.shared.queue.count + s.shared.popped.length = s.shared.pushed.length := by
  have hz := fun t => Call.outside (hq t)
  have hi := h.counts.items
  have hr := h.counts.room
  have hc := h.counts.count
  rw [tally_eq_zero fun t => (hz t).claim, tally_eq_zero fun t => (hz t).stored] at hi
  rw [tally_eq_zero fun t => (hz t).room, tally_eq_zero fun t => (hz t).taken] at hr
  rw [tally_eq_zero fun t => (hz t).uncounted, tally_eq_zero fun t => (hz t).undiscounted] at hc
  exact ⟨by omega, by omega, by omega⟩

/-- A worker waits for an element and nobody can go on: the queue is empty. -/
theorem empty_of_stuck (h : Inv s.shared s.calls) (he : s.shared.queue.empty = 0)
    (hn : ¬ Enabled s) : (∀ t, (s.calls t).inFlight = 0) ∧
      s.shared.popped.length = s.shared.pushed.length := by
  have hq : ∀ t, (s.calls t).inFlight = 0 := fun t =>
    Nat.eq_zero_of_not_pos fun ht => hn (.of_inFlight h ht)
  have := (quiet_counts h hq).1
  exact ⟨hq, by omega⟩

theorem keeps_exited : Thread.keeps STOP_SENTINEL .exited = 1 := by simp [Thread.keeps]

/-- **Progress.** While the caller has not returned or a worker runs, somebody
can go on. -/
theorem PoolInv.progress (hn : 0 < n) (hfds : ∀ fd ∈ fds, 0 ≤ fd) (h : PoolInv fds s)
    (hrun : s.todo ≠ [] ∨ ∃ i, s.workers i ≠ .unborn ∧ s.workers i ≠ .exited) : Enabled s := by
  obtain ⟨k, hph, hborn⟩ := h.phase
  cases hph with
  | creating hk hf ht hpc hp =>
    rw [drop_finRange hk] at ht
    exact .of_caller (by simp [Pool.stepCaller, ht])
  | pushing elems hne hk hf ht hp =>
    obtain ⟨x, es, rfl⟩ := List.exists_cons_of_ne_nil hne
    have hc : s.calls none = .push x s.pc := by simp [Pool.calls, callsOf, callerCall, ht]
    cases hpc : s.pc with
    | returned => exact .of_caller (by simp [Pool.stepCaller, ht, hpc])
    | waitFull =>
      by_cases hfull : 0 < s.shared.queue.full
      · exact .of_call (t := none) (by rw [hc, hpc]; simp [Call.step, Push.step, hfull])
      by_contra hstuck
      -- a sentinel is still to be pushed, so some worker has none
      rw [hpc, show Push.waitFull.stored = false from rfl, Bool.toNat_false, List.drop_zero] at hp
      have hk0 : 0 < k := by
        cases hfail : s.failed with
        | false => rw [hf hfail]; exact hn
        | true =>
          refine Nat.pos_of_ne_zero fun h0 => hne ?_
          rw [hfail, h0, target] at hp
          exact (List.append_eq_nil_iff.mp hp).2
      have hleft := List.one_le_count_iff.mpr (stop_mem hk0 hne hp)
      have hall := congrArg (List.count STOP_SENTINEL) hp
      rw [List.count_append, count_target hfds] at hall
      have hpopped := h.queue.ring.fifo.sublist.count_le STOP_SENTINEL
      rw [h.stops] at hpopped
      obtain ⟨i, hi, hkeep⟩ := @exists_running _ s.workers k hk (by omega)
      have hrunning : s.workers i ≠ .unborn ∧ s.workers i ≠ .exited := by
        refine ⟨fun hu => ?_, fun hx => ?_⟩
        · have := (hborn i).mp hu; omega
        · rw [hx, keeps_exited] at hkeep; cases hkeep
      rcases worker_progress h.queue hrunning with hen | ⟨-, hempty⟩
      · exact hstuck hen
      -- it waits, so the queue is empty; but the caller finds it full
      · obtain ⟨hq, hlen⟩ := empty_of_stuck h.queue hempty hstuck
        have hroom := (quiet_counts h.queue hq).2.1
        have hsize := h.queue.ring.tail_lt
        omega
    | _ =>
      refine .of_inFlight h.queue (t := none) ?_
      rw [hc, hpc]
      simp [Call.inFlight, Call.room, Call.stored]
  | joining j hj hk hf ht hpc hp hx =>
    rcases Nat.lt_or_eq_of_le hj with hlt | rfl
    · rw [joins_cons hlt hk] at ht
      by_cases hex : s.workers ⟨j, by omega⟩ = .exited
      · exact .of_caller (by simp [Pool.stepCaller, ht, hex])
      by_contra hstuck
      have hrunning : s.workers ⟨j, by omega⟩ ≠ .unborn := fun hu => by
        have := (hborn _).mp hu
        simp only at this
        omega
      rcases worker_progress h.queue ⟨hrunning, hex⟩ with hen | ⟨hwait, hempty⟩
      · exact hstuck hen
      -- it waits, so all sentinels were taken, its own among them
      · obtain ⟨-, hlen⟩ := empty_of_stuck h.queue hempty hstuck
        have hpop : s.shared.popped.map Prod.snd = s.shared.pushed :=
          h.queue.ring.fifo.eq_of_length (by rw [List.length_map, hlen])
        have hstops := h.stops
        rw [hpop, hp, count_target hfds] at hstops
        have := all_stopped hk hborn hstops.symm (i := ⟨j, by omega⟩) hlt
        rw [hwait] at this
        cases this
    · rw [joins_self] at ht
      exact .of_caller (by simp [Pool.stepCaller, ht])
  | returned hk hf ht hpc hp hx =>
    rcases hrun with hrun | ⟨i, hi⟩
    · exact absurd ht hrun
    · refine absurd (hx i ?_) hi.2
      by_contra hge
      exact hi.1 ((hborn i).mpr (Nat.le_of_not_lt hge))

/-! ## What is left at the end -/

/-- Everything submitted was handled once, every worker took one sentinel, and
nothing is left in the queue; of a pool that could not be created nothing was
handled and only the workers it had were stopped. -/
structure Drained (fds : List Int) (s : Pool n) : Prop where
  handled : (s.handled.map Prod.snd).Perm (if s.failed then [] else fds)
  sentinels : ∀ i, (s.workers i = .exited ∧ s.shared.popped.count (some i, STOP_SENTINEL) = 1) ∨
    (s.failed = true ∧ s.workers i = .unborn ∧ s.shared.popped.count (some i, STOP_SENTINEL) = 0)
  empty : s.shared.popped.map Prod.snd = s.shared.pushed ∧ s.shared.queue.count = 0
  idle : ∀ t, s.calls t = .idle

/-- When every created worker has its sentinel, all that was pushed has been
popped. -/
theorem PoolInv.popped_all (hfds : ∀ fd ∈ fds, 0 ≤ fd) (h : PoolInv fds s) {k : Nat} (hk : k ≤ n)
    (hf : k = 0 → s.failed = true) (hp : s.shared.pushed = target fds s.failed k)
    (hx : ∀ i : Fin n, i.val < k → s.workers i = .exited) :
    s.shared.popped.map Prod.snd = s.shared.pushed := by
  obtain ⟨e, he⟩ := h.queue.ring.fifo
  have hstops : k ≤ (s.shared.popped.map Prod.snd).count STOP_SENTINEL := by
    rw [h.stops]
    by_contra hlt
    obtain ⟨i, hi, hkeep⟩ := exists_running hk (Nat.lt_of_not_le hlt)
    rw [hx i hi, keeps_exited] at hkeep
    cases hkeep
  cases e with
  | nil => rw [← he, List.append_nil]
  | cons x e =>
    exfalso
    have hcount := congrArg (List.count STOP_SENTINEL) (he.trans hp)
    rw [List.count_append, count_target hfds] at hcount
    rcases Nat.eq_zero_or_pos k with rfl | hk0
    · have := he.trans hp
      rw [target, hf rfl] at this
      simp at this
    · have := List.one_le_count_iff.mpr (stop_mem hk0 (by simp) (he.trans hp))
      omega

theorem PoolInv.drained (hn : 0 < n) (hfds : ∀ fd ∈ fds, 0 ≤ fd) (h : PoolInv fds s)
    (ht : s.todo = []) : Drained fds s := by
  obtain ⟨k, hph, hborn⟩ := h.phase
  cases hph with
  | creating hk hf ht' hpc hp => rw [ht, drop_finRange hk] at ht'; cases ht'
  | pushing elems hne hk hf ht' hp => rw [ht] at ht'; simp at ht'
  | joining j hj hk hf ht' hpc hp hx => rw [ht] at ht'; simp at ht'
  | returned hk hf ht' hpc hp hx =>
    have hend : ∀ i, s.workers i = .exited ∨ s.workers i = .unborn := fun i => by
      rcases Nat.lt_or_ge i.val k with hi | hi
      · exact .inl (hx i hi)
      · exact .inr ((hborn i).mpr hi)
    have hidle : ∀ t, s.calls t = .idle := by
      intro t
      cases t with
      | none => simp [Pool.calls, callsOf, callerCall, ht]
      | some i => rcases hend i with hi | hi <;> simp [Pool.calls, callsOf, hi, Thread.call]
    have hk0 : k = 0 → s.failed = true := fun h0 => by
      cases hfail : s.failed with
      | true => rfl
      | false => have := hf hfail; omega
    have hall := h.popped_all hfds hk hk0 hp hx
    refine ⟨?_, fun i => ?_, ⟨hall, ?_⟩, hidle⟩
    · -- element by element: taken is handled, the sentinels apart
      apply List.perm_iff_count.mpr
      intro x
      have htaken := h.taken x
      rw [hall, hp, target, List.count_append] at htaken
      by_cases hx' : x = STOP_SENTINEL
      · subst hx'
        have hc := count_target hfds s.failed 0
        rw [target, List.replicate_zero, List.append_nil] at hc
        rw [h.unhandled, hc]
      · have hkeep : tally (Thread.keeps x) s.workers = 0 := tally_eq_zero fun i => by
          rcases hend i with hi | hi <;> simp [hi, Thread.keeps, hx']
        have hstop : (List.replicate k STOP_SENTINEL).count x = 0 := by
          rw [List.count_replicate]; simp [Ne.symm hx']
        omega
    · have hw := h.worker i STOP_SENTINEL
      rw [List.count_eq_zero.mpr (h.handled i), Nat.zero_add] at hw
      rcases Nat.lt_or_ge i.val k with hi | hi
      · exact .inl ⟨hx i hi, by rw [hw, hx i hi, keeps_exited]⟩
      · refine .inr ⟨?_, (hborn i).mpr hi, by rw [hw, (hborn i).mpr hi]; rfl⟩
        cases hfail : s.failed with
        | true => rfl
        | false => have := hf hfail; omega
    · have hq := (quiet_counts h.queue fun t => by rw [hidle t]; rfl).2.2
      have hlen := congrArg List.length hall
      rw [List.length_map] at hlen
      omega

/-- Descriptors come before sentinels. -/
theorem PoolInv.fds_first (hfds : ∀ fd ∈ fds, 0 ≤ fd) (h : PoolInv fds s) (hf : s.failed = false)
    {pre post : List (Option (Fin n) × Int)} {t : Option (Fin n)}
    (hpop : s.shared.popped = pre ++ (t, STOP_SENTINEL) :: post) : fds <+: pre.map Prod.snd := by
  obtain ⟨k, hph, -⟩ := h.phase
  have hpushed : s.shared.pushed <+: target fds false k := by
    cases hph with
    | creating hk hf ht hpc hp => rw [hp]; exact List.nil_prefix
    | pushing elems hne hk hf' ht hp => rw [hf] at hp; exact ⟨_, hp⟩
    | joining j hj hk hf' ht hpc hp hx => rw [hp, hf]
    | returned hk hf' ht hpc hp hx => rw [hp, hf]
  have hpre := h.queue.ring.fifo.trans hpushed
  rw [hpop, List.map_append, List.map_cons, target] at hpre
  simp only [Bool.false_eq_true, if_false] at hpre
  refine List.prefix_of_prefix_length_le (List.prefix_append _ _)
    ((List.prefix_append _ _).trans hpre) ?_
  by_contra hlt
  -- a sentinel among the descriptors
  have hget : fds[(pre.map Prod.snd).length]? = some STOP_SENTINEL := by
    obtain ⟨e, he⟩ := hpre
    have hi := congrArg (fun l => l[(pre.map Prod.snd).length]?) he
    simp only [List.append_assoc] at hi
    rw [List.getElem?_append_right (Nat.le_refl _), Nat.sub_self,
      List.getElem?_append_left (Nat.lt_of_not_le hlt)] at hi
    exact hi.symm
  have := hfds _ (List.mem_of_getElem? hget)
  revert this; decide

/-- **The pool loses, repeats and strands nothing.** In every reachable state,
for every ring size, any descriptors and any failing `pthread_create`: every
descriptor is taken before any sentinel; when the caller has returned, or the
queue is deleted, the pool is drained; and before that some thread can go
on. -/
theorem pool_drains (n size : Nat) (junk : Nat → Int) (fds : List Int) (hn : 1 ≤ n)
    (hsize : 1 ≤ size) (hfds : ∀ fd ∈ fds, 0 ≤ fd) (s : Pool n)
    (hs : (pool n size junk fds).Reachable s) :
    (s.failed = false → ∀ pre t post, s.shared.popped = pre ++ (t, STOP_SENTINEL) :: post →
      fds <+: pre.map Prod.snd) ∧
    (s.todo = [] ∨ s.deleted = true → Drained fds s) ∧
    ((s.todo ≠ [] ∨ ∃ i, s.workers i ≠ .unborn ∧ s.workers i ≠ .exited) → Enabled s) := by
  have h := pool_inv hn hsize hs
  refine ⟨fun hf pre t post hpop => h.fds_first hfds hf hpop, fun hend => ?_, h.progress hn hfds⟩
  rcases hend with ht | hd
  · exact h.drained hn hfds ht
  · exact h.drained hn hfds (h.deleted hd)

/-- Two workers, one slot, one descriptor: worker 1 handles it and stops first. -/
theorem pool_drains_two : ∃ s, (pool 2 1 (fun _ => 0) [5]).Reachable s ∧ s.deleted = true ∧
    s.handled = [(1, 5)] ∧ Drained [5] s := by
  have hrun : ((LTS.exec Pool.step (Pool.initial 2 1 (fun _ => 0) [5])
      (List.replicate 10 .caller ++ List.replicate 7 (.worker 1) ++ List.replicate 8 .caller ++
        List.replicate 9 (.worker 1) ++ List.replicate 8 .caller ++ [.worker 1] ++
        List.replicate 8 (.worker 0) ++ List.replicate 3 .caller)).map fun s =>
          (s.deleted, s.handled)) = some (true, [(1, 5)]) := by decide
  obtain ⟨s, hs, hd⟩ := Option.map_eq_some_iff.mp hrun
  rw [Prod.mk.injEq] at hd
  have hr : (pool 2 1 (fun _ => 0) [5]).Reachable s := ⟨_, _, rfl, LTS.run_of_exec _ _ _ hs⟩
  exact ⟨s, hr, hd.1, hd.2,
    (pool_drains 2 1 _ [5] (by decide) (by decide) (by decide) s hr).2.1 (.inr hd.1)⟩

end HttpC.L4
