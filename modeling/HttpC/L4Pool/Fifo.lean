import HttpC.L4Pool.Queue

/-!
# The queue under any callers

`users size` is one queue of `size` slots and any number of threads, each
calling `queue_push` and `queue_pop` as often as it likes, in any interleaving
of their semaphore and field operations. `queue_fifo` is what every reachable
state satisfies: the fields of the ring, the token count, mutual exclusion,
and that what was popped is what was pushed first.
-/
namespace HttpC.L4

variable {ι α : Type}

structure Users (ι α : Type) where
  shared : Shared ι α
  calls : ι → Call α

/-- A thread enters `queue_push` or `queue_pop`, or takes its next step. -/
inductive Use (ι α : Type) where
  | push (i : ι) (elem : α) | pop (i : ι) | step (i : ι)

/-- The thread is in no call. -/
def Call.over : Call α → Bool
  | .idle | .push _ .returned | .pop (.returned _) => true
  | _ => false

def Users.step [DecidableEq ι] (s : Users ι α) : Use ι α → Option (Users ι α)
  | .push i x =>
    if (s.calls i).over then
      some { s with calls := Function.update s.calls i (.push x .waitFull) }
    else none
  | .pop i =>
    if (s.calls i).over then some { s with calls := Function.update s.calls i (.pop .waitEmpty) }
    else none
  | .step i =>
    ((s.calls i).step i s.shared).map fun r =>
      { shared := r.1, calls := Function.update s.calls i r.2 }

def users [DecidableEq ι] (size : Nat) : LTS (Users ι α) (Use ι α) :=
  .ofFn (fun s => ∃ junk, s = ⟨⟨queueNew size junk, [], []⟩, fun _ => .idle⟩) Users.step

/-! ## What holds in every state -/

/-- Element number `k` was pushed and not yet popped. -/
def Shared.Live (s : Shared ι α) (k : Nat) : Prop := s.popped.length ≤ k ∧ k < s.pushed.length

/-- The state of the queue, from outside. -/
structure Fifo [Fintype ι] (size : Nat) (s : Users ι α) : Prop where
  head : s.shared.queue.head < size
  tail : s.shared.queue.tail < size
  count : (∀ i, (s.calls i).inMutex = 0) →
    0 ≤ s.shared.queue.count ∧ s.shared.queue.count ≤ size ∧
      s.shared.queue.tail = (s.shared.queue.head + s.shared.queue.count.toNat) % size
  mutex : ∀ i j, (s.calls i).inMutex = 1 → (s.calls j).inMutex = 1 → i = j
  tokens : s.shared.queue.full + s.shared.queue.empty +
    (Finset.univ.filter fun i => 0 < (s.calls i).inFlight).card = size
  /-- No element that is still to be popped is in the slot a pusher writes. -/
  store : ∀ i x, s.calls i = .push x .store → ∀ k, s.shared.Live k → k % size ≠ s.shared.queue.tail
  /-- The slot a popper reads holds the oldest element still to be popped. -/
  load : ∀ i, s.calls i = .pop .load →
    s.shared.pushed[s.shared.popped.length]? = some (s.shared.queue.buffer s.shared.queue.head)
  /-- Every element still to be popped is where it was put. -/
  slots : ∀ k x, s.shared.Live k → s.shared.pushed[k]? = some x →
    s.shared.queue.buffer (k % size) = x
  fifo : s.shared.popped.map Prod.snd <+: s.shared.pushed

theorem Call.inFlight_of_over {c : Call α} (h : c.over = true) : c.inFlight = 0 := by
  cases c with
  | idle => rfl
  | push x pc => cases pc <;> first | rfl | cases h
  | pop pc => cases pc <;> first | rfl | cases h

theorem Call.inFlight_le (c : Call α) : c.inFlight ≤ 1 := by
  cases c with
  | idle => exact Nat.zero_le _
  | push x pc => cases pc <;> exact Nat.le_of_ble_eq_true rfl
  | pop pc => cases pc <;> exact Nat.le_of_ble_eq_true rfl

theorem Call.uncounted_le (c : Call α) : c.uncounted ≤ c.inMutex := by
  cases c with
  | idle => exact Nat.le_refl _
  | push x pc => cases pc <;> simp [Call.uncounted, Call.inMutex]
  | pop pc => cases pc <;> simp [Call.uncounted]

theorem Call.undiscounted_le (c : Call α) : c.undiscounted ≤ c.inMutex := by
  cases c with
  | idle => exact Nat.le_refl _
  | push x pc => cases pc <;> simp [Call.undiscounted]
  | pop pc => cases pc <;> simp [Call.undiscounted, Call.inMutex]

theorem Call.step_size {i : ι} {s s' : Shared ι α} {c c' : Call α}
    (h : c.step i s = some (s', c')) : s'.queue.size = s.queue.size := by
  cases c with
  | idle => cases h
  | push x pc =>
    obtain ⟨⟨t, pc'⟩, hp, he⟩ := Option.map_eq_some_iff.mp h
    cases he
    exact (Push.conserved hp).size
  | pop pc =>
    obtain ⟨⟨t, pc'⟩, hp, he⟩ := Option.map_eq_some_iff.mp h
    cases he
    exact (Pop.conserved hp).size

section
variable [Fintype ι] {s : Users ι α} {size : Nat}

/-- What is in flight is one token each. -/
theorem card_inFlight (calls : ι → Call α) :
    (Finset.univ.filter fun i => 0 < (calls i).inFlight).card =
      tally Call.room calls + tally Call.stored calls + tally Call.claim calls +
        tally Call.taken calls := by
  rw [Finset.card_filter]
  simp only [tally, ← Finset.sum_add_distrib]
  apply Finset.sum_congr rfl
  intro i _
  have hle := (calls i).inFlight_le
  change _ = (calls i).inFlight
  split <;> omega

/-- The fields, once nobody is in the mutex. -/
theorem Inv.count_outside (h : Inv s.shared s.calls) (hout : ∀ i, (s.calls i).inMutex = 0) :
    0 ≤ s.shared.queue.count ∧ s.shared.queue.count ≤ s.shared.queue.size ∧
      s.shared.queue.tail =
        (s.shared.queue.head + s.shared.queue.count.toNat) % s.shared.queue.size := by
  have hzero : ∀ w : Call α → Nat, (∀ c, w c ≤ c.inMutex) → tally w s.calls = 0 :=
    fun w hw => tally_eq_zero fun i => Nat.le_zero.mp (hout i ▸ hw _)
  have hcount := h.counts.count
  have hitems := h.counts.items
  have hroom := h.counts.room
  have hring := h.ring
  rw [hzero _ Call.uncounted_le, hzero _ Call.undiscounted_le] at hcount
  rw [hzero _ Call.tailLag_le, hzero _ Call.headLag_le] at hring
  refine ⟨by omega, by omega, ?_⟩
  have hn : s.shared.queue.count.toNat = s.shared.pushed.length - s.shared.popped.length := by omega
  rw [hn, ← hring.tail_slot, ← hring.head_slot, Nat.mod_add_mod]
  congr 1
  omega

theorem Inv.mutual (h : Inv s.shared s.calls) {i j : ι} (hi : (s.calls i).inMutex = 1)
    (hj : (s.calls j).inMutex = 1) : i = j := by
  classical
  by_contra hij
  have hone : tally Call.inMutex s.calls ≤ 1 := by have := h.counts.mutex; omega
  have hmove := tally_update Call.inMutex s.calls i .idle
  have hle := le_tally Call.inMutex (Function.update s.calls i .idle) j
  rw [Function.update_of_ne (Ne.symm hij), hj] at hle
  rw [hi, show Call.inMutex (.idle : Call α) = 0 from rfl] at hmove
  omega

theorem Inv.fifo (h : Inv s.shared s.calls) (hs : s.shared.queue.size = size) : Fifo size s := by
  subst hs
  refine ⟨h.ring.head_lt, h.ring.tail_lt, h.count_outside, fun i j => h.mutual, ?_, ?_, ?_, ?_,
    h.ring.fifo⟩
  · have h1 := h.counts.items
    have h2 := h.counts.room
    rw [card_inFlight]
    omega
  · intro i x hi k hk
    have hring := h.ring
    obtain ⟨ht, hh⟩ := h.counts.no_lag hi rfl rfl rfl
    rw [ht, hh] at hring
    exact hring.tail_free (h.counts.room_at_store hi) hk.1 hk.2
  · intro i hi
    have hring := h.ring
    obtain ⟨ht, hh⟩ := h.counts.no_lag hi rfl rfl rfl
    rw [ht, hh] at hring
    exact hring.head_full (h.counts.item_at_load hi)
  · exact fun k x hk => h.ring.slots k x hk.1

variable [DecidableEq ι]

theorem users_step {s' : Users ι α} {u : Use ι α} (h : Inv s.shared s.calls)
    (hst : s.step u = some s') :
    Inv s'.shared s'.calls ∧ s'.shared.queue.size = s.shared.queue.size := by
  cases u with
  | push i x =>
    simp only [Users.step] at hst
    split at hst
    · rename_i hover
      cases hst
      exact ⟨h.switch (Call.inFlight_of_over hover) rfl, rfl⟩
    · cases hst
  | pop i =>
    simp only [Users.step] at hst
    split at hst
    · rename_i hover
      cases hst
      exact ⟨h.switch (Call.inFlight_of_over hover) rfl, rfl⟩
    · cases hst
  | step i =>
    obtain ⟨⟨t, c'⟩, hc, rfl⟩ := Option.map_eq_some_iff.mp hst
    exact ⟨h.step hc, Call.step_size hc⟩

/-- **The bounded queue is a queue**, whatever its callers do and however they
interleave. -/
theorem queue_fifo (size : Nat) (hs : 0 < size) (s : Users ι α) (h : (users size).Reachable s) :
    Fifo size s := by
  have hI : (users size).Inductive fun s : Users ι α =>
      Inv s.shared s.calls ∧ s.shared.queue.size = size := by
    refine ⟨?_, ?_⟩
    · intro s hh
      obtain ⟨junk, rfl⟩ := hh
      exact ⟨inv_new hs junk fun _ => rfl, rfl⟩
    · intro s u s' hh hst
      obtain ⟨hinv, hsize⟩ := hh
      obtain ⟨h1, h2⟩ := users_step hinv hst
      exact ⟨h1, h2.trans hsize⟩
  obtain ⟨hinv, hsize⟩ := hI.reachable s h
  exact hinv.fifo hsize

end

/-- One slot, a pusher and a popper: the popper gets the element. -/
theorem queue_fifo_one : ∃ s : Users (Fin 2) Nat, (users 1).Reachable s ∧
    s.shared.popped = [(1, 7)] ∧ Fifo 1 s := by
  have hrun : ((LTS.exec Users.step
      (⟨⟨queueNew 1 fun _ => 0, [], []⟩, fun _ => .idle⟩ : Users (Fin 2) Nat)
      (.push 0 7 :: .pop 1 :: (List.replicate 7 (.step 0) ++ List.replicate 3 (.step 1)))).map
        fun s => s.shared.popped) = some [(1, 7)] := by decide
  obtain ⟨s, hs, hp⟩ := Option.map_eq_some_iff.mp hrun
  have hr : (users 1).Reachable s := ⟨_, _, ⟨fun _ => 0, rfl⟩, LTS.run_of_exec _ _ _ hs⟩
  exact ⟨s, hr, hp, queue_fifo 1 (by decide) s hr⟩

end HttpC.L4
