import Mathlib.Data.Nat.ModEq
import HttpC.Core.LTS
import HttpC.Core.Tally

/-!
# The bounded queue: `queue_push`, `queue_pop`

src/queue.c:44-120: a ring of `size` slots, a mutex and two counting
semaphores. Every semaphore operation and every field update is a step of its
own, so calls of any number of threads interleave between any two of them; a
`sem_wait` is enabled only while the counter is positive.

`pushed` and `popped` are not in the source: they record what was stored and
loaded so far, in mutex order, and by whom it was loaded.

`Inv` counts, over all threads, who has claimed a slot or an element and not
yet given it back (`tally`), and ties the fields to the two records. It is
kept by every step of every call (`Inv.step`).
-/
namespace HttpC.L4

/-- mirrors src/queue.c:44-53 -/
structure Queue (α : Type) where
  size : Nat
  count : Int
  buffer : Nat → α
  head : Nat
  tail : Nat
  mutex : Nat
  empty : Nat
  full : Nat

/-- `malloc` leaves `junk` in the slots.
mirrors src/queue.c:55-87 -/
def queueNew {α : Type} (size : Nat) (junk : Nat → α) : Queue α where
  size := size
  count := 0
  buffer := junk
  head := 0
  tail := 0
  mutex := 1
  empty := 0
  full := size

structure Shared (ι α : Type) where
  queue : Queue α
  pushed : List α
  popped : List (ι × α)

/-- Places in `queue_push`: src/queue.c:93-103. -/
inductive Push where
  | waitFull | waitMutex | store | advance | count | postMutex | postEmpty | returned
  deriving DecidableEq, Repr

/-- Places in `queue_pop`: src/queue.c:110-119, with the element once it is
loaded. -/
inductive Pop (α : Type) where
  | waitEmpty | waitMutex | load
  | advance (elem : α) | count (elem : α) | postMutex (elem : α) | postFull (elem : α)
  | returned (elem : α)
  deriving DecidableEq, Repr

/-- The element a popper has loaded. -/
def Pop.elem {α : Type} : Pop α → Option α
  | .advance x | .count x | .postMutex x | .postFull x | .returned x => some x
  | _ => none

/-- Whether a pusher has stored its element. -/
def Push.stored : Push → Bool
  | .waitFull | .waitMutex | .store => false
  | _ => true

variable {ι α : Type}

/-- mirrors src/queue.c:89-104 -/
def Push.step (s : Shared ι α) (elem : α) : Push → Option (Shared ι α × Push)
  | .waitFull =>
    if 0 < s.queue.full then
      some ({ s with queue := { s.queue with full := s.queue.full - 1 } }, .waitMutex)
    else none
  | .waitMutex =>
    if 0 < s.queue.mutex then
      some ({ s with queue := { s.queue with mutex := s.queue.mutex - 1 } }, .store)
    else none
  | .store =>
    some ({ s with
      queue := { s.queue with buffer := Function.update s.queue.buffer s.queue.tail elem }
      pushed := s.pushed ++ [elem] }, .advance)
  | .advance =>
    some ({ s with queue := { s.queue with tail := (s.queue.tail + 1) % s.queue.size } }, .count)
  | .count => some ({ s with queue := { s.queue with count := s.queue.count + 1 } }, .postMutex)
  | .postMutex =>
    some ({ s with queue := { s.queue with mutex := s.queue.mutex + 1 } }, .postEmpty)
  | .postEmpty =>
    some ({ s with queue := { s.queue with empty := s.queue.empty + 1 } }, .returned)
  | .returned => none

/-- mirrors src/queue.c:106-120 -/
def Pop.step (i : ι) (s : Shared ι α) : Pop α → Option (Shared ι α × Pop α)
  | .waitEmpty =>
    if 0 < s.queue.empty then
      some ({ s with queue := { s.queue with empty := s.queue.empty - 1 } }, .waitMutex)
    else none
  | .waitMutex =>
    if 0 < s.queue.mutex then
      some ({ s with queue := { s.queue with mutex := s.queue.mutex - 1 } }, .load)
    else none
  | .load =>
    some ({ s with popped := s.popped ++ [(i, s.queue.buffer s.queue.head)] },
      .advance (s.queue.buffer s.queue.head))
  | .advance x =>
    some ({ s with queue := { s.queue with head := (s.queue.head + 1) % s.queue.size } }, .count x)
  | .count x =>
    some ({ s with queue := { s.queue with count := s.queue.count - 1 } }, .postMutex x)
  | .postMutex x =>
    some ({ s with queue := { s.queue with mutex := s.queue.mutex + 1 } }, .postFull x)
  | .postFull x =>
    some ({ s with queue := { s.queue with full := s.queue.full + 1 } }, .returned x)
  | .returned _ => none

/-- A pusher's step records its element when it stores it, and nothing else. -/
theorem Push.record {s s' : Shared ι α} {x : α} {pc pc' : Push} (h : pc.step s x = some (s', pc')) :
    s'.popped = s.popped ∧
      ((s'.pushed = s.pushed ∧ pc'.stored = pc.stored) ∨
        (s'.pushed = s.pushed ++ [x] ∧ pc.stored = false ∧ pc'.stored = true)) := by
  cases pc <;> simp only [Push.step] at h
  case returned => cases h
  case waitFull | waitMutex =>
    split at h
    · cases h; exact ⟨rfl, .inl ⟨rfl, rfl⟩⟩
    · cases h
  case store => cases h; exact ⟨rfl, .inr ⟨rfl, rfl, rfl⟩⟩
  all_goals cases h; exact ⟨rfl, .inl ⟨rfl, rfl⟩⟩

/-- A popper's step records its element when it loads it, and nothing else. -/
theorem Pop.record {i : ι} {s s' : Shared ι α} {pc pc' : Pop α}
    (h : pc.step i s = some (s', pc')) :
    s'.pushed = s.pushed ∧
      ((s'.popped = s.popped ∧ pc'.elem = pc.elem) ∨
        ∃ x, s'.popped = s.popped ++ [(i, x)] ∧ pc.elem = none ∧ pc'.elem = some x) := by
  cases pc <;> simp only [Pop.step] at h
  case returned => cases h
  case waitEmpty | waitMutex =>
    split at h
    · cases h; exact ⟨rfl, .inl ⟨rfl, rfl⟩⟩
    · cases h
  case load => cases h; exact ⟨rfl, .inr ⟨_, rfl, rfl, rfl⟩⟩
  all_goals cases h; exact ⟨rfl, .inl ⟨rfl, rfl⟩⟩

/-- What a thread has to do with the queue. -/
inductive Call (α : Type) where
  | idle
  | push (elem : α) (pc : Push)
  | pop (pc : Pop α)
  deriving DecidableEq, Repr

def Call.step (i : ι) (s : Shared ι α) : Call α → Option (Shared ι α × Call α)
  | .idle => none
  | .push x pc => (pc.step s x).map fun r => (r.1, .push x r.2)
  | .pop pc => (pc.step i s).map fun r => (r.1, .pop r.2)

/-! ## Who holds what -/

/-- Between the two mutex operations. -/
def Call.inMutex : Call α → Nat
  | .push _ .store | .push _ .advance | .push _ .count | .push _ .postMutex => 1
  | .pop .load | .pop (.advance _) | .pop (.count _) | .pop (.postMutex _) => 1
  | _ => 0

/-- A pusher with a slot it has not filled. -/
def Call.room : Call α → Nat
  | .push _ .waitMutex | .push _ .store => 1
  | _ => 0

/-- A pusher whose element is not yet announced. -/
def Call.stored : Call α → Nat
  | .push _ .advance | .push _ .count | .push _ .postMutex | .push _ .postEmpty => 1
  | _ => 0

/-- A popper with an element it has not loaded. -/
def Call.claim : Call α → Nat
  | .pop .waitMutex | .pop .load => 1
  | _ => 0

/-- A popper whose slot is not yet announced. -/
def Call.taken : Call α → Nat
  | .pop (.advance _) | .pop (.count _) | .pop (.postMutex _) | .pop (.postFull _) => 1
  | _ => 0

/-- `tail`, `head` and `count` lag behind the records while a thread is at
these places. -/
def Call.tailLag : Call α → Nat
  | .push _ .advance => 1
  | _ => 0

def Call.headLag : Call α → Nat
  | .pop (.advance _) => 1
  | _ => 0

def Call.uncounted : Call α → Nat
  | .push _ .advance | .push _ .count => 1
  | _ => 0

def Call.undiscounted : Call α → Nat
  | .pop (.advance _) | .pop (.count _) => 1
  | _ => 0

/-- Past the first wait and not past the last post. -/
def Call.inFlight (c : Call α) : Nat := c.room + c.stored + c.claim + c.taken

theorem Call.tailLag_le (c : Call α) : c.tailLag ≤ c.inMutex := by
  cases c with
  | idle => exact Nat.le_refl _
  | push x pc => cases pc <;> simp [Call.tailLag, Call.inMutex]
  | pop pc => cases pc <;> simp [Call.tailLag]

theorem Call.headLag_le (c : Call α) : c.headLag ≤ c.inMutex := by
  cases c with
  | idle => exact Nat.le_refl _
  | push x pc => cases pc <;> simp [Call.headLag]
  | pop pc => cases pc <;> simp [Call.headLag, Call.inMutex]

theorem Call.inFlight_of_inMutex {c : Call α} (h : 0 < c.inMutex) : 0 < c.inFlight := by
  cases c with
  | idle => exact absurd h (Nat.lt_irrefl 0)
  | push x pc => cases pc <;> simp_all [Call.inMutex, Call.inFlight, Call.room, Call.stored]
  | pop pc => cases pc <;> simp_all [Call.inMutex, Call.inFlight, Call.claim, Call.taken]

/-- A call that is not in flight weighs nothing. -/
structure Call.Outside (c : Call α) : Prop where
  inMutex : c.inMutex = 0
  room : c.room = 0
  stored : c.stored = 0
  claim : c.claim = 0
  taken : c.taken = 0
  tailLag : c.tailLag = 0
  headLag : c.headLag = 0
  uncounted : c.uncounted = 0
  undiscounted : c.undiscounted = 0

theorem Call.outside {c : Call α} (h : c.inFlight = 0) : c.Outside := by
  cases c with
  | idle => constructor <;> rfl
  | push x pc => cases pc <;> first | (constructor <;> rfl) | cases h
  | pop pc => cases pc <;> first | (constructor <;> rfl) | cases h

/-! ## What one step conserves -/

/-- What a thread holds and what the counters say change together. -/
structure Conserved (s s' : Shared ι α) (c c' : Call α) : Prop where
  size : s'.queue.size = s.queue.size
  mutex : s'.queue.mutex + c'.inMutex = s.queue.mutex + c.inMutex
  items : s'.queue.empty + c'.claim + c'.stored + s'.popped.length + s.pushed.length =
    s.queue.empty + c.claim + c.stored + s.popped.length + s'.pushed.length
  room : s'.queue.full + c'.room + c'.taken + s'.pushed.length + s.popped.length =
    s.queue.full + c.room + c.taken + s.pushed.length + s'.popped.length
  count : s'.queue.count + c'.uncounted + s'.popped.length + s.pushed.length + c.undiscounted =
    s.queue.count + c.uncounted + s.popped.length + s'.pushed.length + c'.undiscounted

theorem Push.conserved {s s' : Shared ι α} {x : α} {pc pc' : Push}
    (h : pc.step s x = some (s', pc')) : Conserved s s' (.push x pc) (.push x pc') := by
  cases pc <;> simp only [Push.step] at h
  case returned => cases h
  case waitFull | waitMutex =>
    split at h
    · cases h
      constructor <;> simp [Call.inMutex, Call.room, Call.stored, Call.claim, Call.taken,
        Call.uncounted, Call.undiscounted]
      omega
    · cases h
  all_goals
    cases h
    constructor <;> simp [Call.inMutex, Call.room, Call.stored, Call.claim, Call.taken,
      Call.uncounted, Call.undiscounted] <;> omega

theorem Pop.conserved {i : ι} {s s' : Shared ι α} {pc pc' : Pop α}
    (h : pc.step i s = some (s', pc')) : Conserved s s' (.pop pc) (.pop pc') := by
  cases pc <;> simp only [Pop.step] at h
  case returned => cases h
  case waitEmpty | waitMutex =>
    split at h
    · cases h
      constructor <;> simp [Call.inMutex, Call.room, Call.stored, Call.claim, Call.taken,
        Call.uncounted, Call.undiscounted]
      omega
    · cases h
  all_goals
    cases h
    constructor <;> simp [Call.inMutex, Call.room, Call.stored, Call.claim, Call.taken,
      Call.uncounted, Call.undiscounted] <;> omega

/-! ## The ring -/

/-- The ring, against the records, with `tail` and `head` behind by `dt` and
`dh`. -/
structure Ring (s : Shared ι α) (dt dh : Nat) : Prop where
  tail : s.queue.tail + dt ≡ s.pushed.length [MOD s.queue.size]
  tail_lt : s.queue.tail < s.queue.size
  head : s.queue.head + dh ≡ s.popped.length [MOD s.queue.size]
  head_lt : s.queue.head < s.queue.size
  slots : ∀ k x, s.popped.length ≤ k → s.pushed[k]? = some x → s.queue.buffer (k % s.queue.size) = x
  fifo : s.popped.map Prod.snd <+: s.pushed

section
variable {s : Shared ι α}

theorem Ring.tail_slot {dh : Nat} (h : Ring s 0 dh) :
    s.pushed.length % s.queue.size = s.queue.tail := by
  have := h.tail.symm
  unfold Nat.ModEq at this
  rw [this, Nat.add_zero, Nat.mod_eq_of_lt h.tail_lt]

theorem Ring.head_slot {dt : Nat} (h : Ring s dt 0) :
    s.popped.length % s.queue.size = s.queue.head := by
  have := h.head.symm
  unfold Nat.ModEq at this
  rw [this, Nat.add_zero, Nat.mod_eq_of_lt h.head_lt]

/-- At most `size` elements are in the ring, so none of them is in the slot at
`tail` while there is room. -/
theorem Ring.tail_free {dh k : Nat} (h : Ring s 0 dh)
    (hroom : s.pushed.length < s.queue.size + s.popped.length) (hk : s.popped.length ≤ k)
    (hlt : k < s.pushed.length) : k % s.queue.size ≠ s.queue.tail := by
  rw [← h.tail_slot]
  intro he
  have hd := (Nat.modEq_iff_dvd' (Nat.le_of_lt hlt)).mp he
  have := Nat.eq_zero_of_dvd_of_lt hd (by omega)
  omega

/-- While there is an element, the slot at `head` holds the next one. -/
theorem Ring.head_full {dt : Nat} (h : Ring s dt 0)
    (hitem : s.popped.length < s.pushed.length) :
    s.pushed[s.popped.length]? = some (s.queue.buffer s.queue.head) := by
  have hget := List.getElem?_eq_getElem hitem
  rw [hget, ← h.slots _ _ (Nat.le_refl _) hget, h.head_slot]

/-- Storing at `tail` while there is room. -/
theorem Ring.store {dh : Nat} (h : Ring s 0 dh) (x : α)
    (hroom : s.pushed.length < s.queue.size + s.popped.length) :
    Ring { s with
      queue := { s.queue with buffer := Function.update s.queue.buffer s.queue.tail x }
      pushed := s.pushed ++ [x] } 1 dh := by
  refine ⟨?_, h.tail_lt, h.head, h.head_lt, ?_, h.fifo.trans (List.prefix_append _ _)⟩
  · simp only [List.length_append, List.length_singleton]
    exact h.tail.add_right 1
  · intro k y hk hy
    simp only at hk hy ⊢
    rcases Nat.lt_trichotomy k s.pushed.length with hlt | rfl | hgt
    · rw [List.getElem?_append_left hlt] at hy
      rw [Function.update_of_ne (h.tail_free hroom hk hlt)]
      exact h.slots k y hk hy
    · rw [List.getElem?_append_right (Nat.le_refl _), Nat.sub_self] at hy
      cases hy
      rw [h.tail_slot, Function.update_self]
    · rw [List.getElem?_eq_none (by simp; omega)] at hy
      cases hy

/-- Loading at `head` while there is an element. -/
theorem Ring.load {dt : Nat} (h : Ring s dt 0) (i : ι) (hitem : s.popped.length < s.pushed.length) :
    Ring { s with popped := s.popped ++ [(i, s.queue.buffer s.queue.head)] } dt 1 := by
  have hx := h.head_full hitem
  refine ⟨h.tail, h.tail_lt, ?_, h.head_lt, ?_, ?_⟩
  · simp only [List.length_append, List.length_singleton]
    exact h.head.add_right 1
  · intro k y hk hy
    simp only [List.length_append, List.length_singleton] at hk
    exact h.slots k y (by omega) hy
  · have htake := List.prefix_iff_eq_take.mp h.fifo
    rw [List.length_map] at htake
    simp only [List.map_append, List.map_cons, List.map_nil]
    rw [htake, List.prefix_iff_eq_take]
    simp only [List.length_append, List.length_take, List.length_singleton]
    rw [Nat.min_eq_left (by omega), List.take_add_one, hx]
    rfl

theorem Ring.tail_advance {dt dh : Nat} (h : Ring s (dt + 1) dh) :
    Ring { s with queue := { s.queue with tail := (s.queue.tail + 1) % s.queue.size } } dt dh := by
  refine ⟨?_, Nat.mod_lt _ (Nat.zero_lt_of_lt h.tail_lt), h.head, h.head_lt, h.slots, h.fifo⟩
  refine Nat.ModEq.trans ?_ h.tail
  rw [Nat.add_comm dt 1, ← Nat.add_assoc]
  exact (Nat.mod_modEq _ _).add_right dt

theorem Ring.head_advance {dt dh : Nat} (h : Ring s dt (dh + 1)) :
    Ring { s with queue := { s.queue with head := (s.queue.head + 1) % s.queue.size } } dt dh := by
  refine ⟨h.tail, h.tail_lt, ?_, Nat.mod_lt _ (Nat.zero_lt_of_lt h.head_lt), h.slots, h.fifo⟩
  refine Nat.ModEq.trans ?_ h.head
  rw [Nat.add_comm dh 1, ← Nat.add_assoc]
  exact (Nat.mod_modEq _ _).add_right dh

/-- The counters alone. -/
theorem Ring.counters {dt dh : Nat} (h : Ring s dt dh) {mutex empty full : Nat} {count : Int} :
    Ring { s with queue := { s.queue with mutex, empty, full, count } } dt dh :=
  ⟨h.tail, h.tail_lt, h.head, h.head_lt, h.slots, h.fifo⟩

end

/-! ## All threads together -/

variable [Fintype ι]

/-- The semaphores and `count`, against the records. -/
structure Counts (s : Shared ι α) (calls : ι → Call α) : Prop where
  mutex : s.queue.mutex + tally Call.inMutex calls = 1
  items : s.queue.empty + tally Call.claim calls + tally Call.stored calls + s.popped.length =
    s.pushed.length
  room : s.queue.full + tally Call.room calls + tally Call.taken calls + s.pushed.length =
    s.queue.size + s.popped.length
  count : s.queue.count + tally Call.uncounted calls + s.popped.length =
    s.pushed.length + tally Call.undiscounted calls

structure Inv (s : Shared ι α) (calls : ι → Call α) : Prop where
  counts : Counts s calls
  ring : Ring s (tally Call.tailLag calls) (tally Call.headLag calls)

theorem inv_new {size : Nat} (hs : 0 < size) (junk : Nat → α) {calls : ι → Call α}
    (hc : ∀ i, calls i = .idle) : Inv (⟨queueNew size junk, [], []⟩ : Shared ι α) calls := by
  have h0 : ∀ w : Call α → Nat, w .idle = 0 → tally w calls = 0 :=
    fun w hw => tally_eq_zero fun i => by rw [hc i, hw]
  refine ⟨⟨?_, ?_, ?_, ?_⟩, ⟨?_, hs, ?_, hs, ?_, List.prefix_refl _⟩⟩
  · rw [h0 _ rfl]; rfl
  · rw [h0 _ rfl, h0 _ rfl]; rfl
  · rw [h0 _ rfl, h0 _ rfl]; rfl
  · rw [h0 _ rfl, h0 _ rfl]; rfl
  · rw [h0 _ rfl]; exact Nat.ModEq.refl _
  · rw [h0 _ rfl]; exact Nat.ModEq.refl _
  · intro k x _ h; simp at h

section
variable {s s' : Shared ι α} {calls : ι → Call α} {i : ι} {c c' : Call α}

/-- While a thread is in the mutex and has nothing half done, nobody has. -/
theorem Counts.no_lag (h : Counts s calls) (hc : calls i = c) (hin : c.inMutex = 1)
    (ht : c.tailLag = 0) (hh : c.headLag = 0) :
    tally Call.tailLag calls = 0 ∧ tally Call.headLag calls = 0 := by
  have hone : tally Call.inMutex calls ≤ 1 := by have := h.mutex; omega
  subst hc
  exact ⟨tally_eq_zero_of_alone Call.tailLag_le hone hin ht,
    tally_eq_zero_of_alone Call.headLag_le hone hin hh⟩

/-- A pusher at `store` has room. -/
theorem Counts.room_at_store {x : α} (h : Counts s calls) (hc : calls i = .push x .store) :
    s.pushed.length < s.queue.size + s.popped.length := by
  have hroom := h.room
  have hmine := le_tally Call.room calls i
  rw [hc] at hmine
  simp only [Call.room] at hmine
  omega

/-- A popper at `load` has an element. -/
theorem Counts.item_at_load (h : Counts s calls) (hc : calls i = .pop .load) :
    s.popped.length < s.pushed.length := by
  have hitem := h.items
  have hmine := le_tally Call.claim calls i
  rw [hc] at hmine
  simp only [Call.claim] at hmine
  omega

variable [DecidableEq ι]

theorem Counts.step (h : Counts s calls) (hc : calls i = c) (k : Conserved s s' c c') :
    Counts s' (Function.update calls i c') := by
  have hmove : ∀ w : Call α → Nat, tally w (Function.update calls i c') + w c = tally w calls + w c' :=
    fun w => by rw [← hc]; exact tally_update w calls i c'
  have m1 := hmove Call.inMutex; have m2 := hmove Call.claim; have m3 := hmove Call.stored
  have m4 := hmove Call.room; have m5 := hmove Call.taken; have m6 := hmove Call.uncounted
  have m7 := hmove Call.undiscounted
  obtain ⟨h1, h2, h3, h4⟩ := h
  obtain ⟨k0, k1, k2, k3, k4⟩ := k
  exact ⟨by omega, by omega, by omega, by omega⟩

theorem Inv.push {x : α} {pc pc' : Push} (h : Inv s calls) (hc : calls i = .push x pc)
    (hst : pc.step s x = some (s', pc')) : Inv s' (Function.update calls i (.push x pc')) := by
  refine ⟨h.counts.step hc (Push.conserved hst), ?_⟩
  have mt := tally_update Call.tailLag calls i (.push x pc')
  have mh := tally_update Call.headLag calls i (.push x pc')
  rw [hc] at mt mh
  have hring := h.ring
  cases pc <;> simp only [Push.step] at hst
  case returned => cases hst
  case store =>
    cases hst
    obtain ⟨ht, hh⟩ := h.counts.no_lag hc rfl rfl rfl
    simp only [Call.tailLag, Call.headLag, ht, hh] at mt mh hring ⊢
    rw [show tally Call.tailLag _ = 1 by omega, show tally Call.headLag _ = 0 by omega]
    exact hring.store x (h.counts.room_at_store hc)
  case advance =>
    cases hst
    simp only [Call.tailLag, Call.headLag, Nat.add_zero] at mt mh
    rw [← mt, ← mh] at hring
    exact hring.tail_advance
  case waitFull | waitMutex =>
    split at hst
    · cases hst
      simp only [Call.tailLag, Call.headLag, Nat.add_zero] at mt mh
      rw [mt, mh]
      exact hring.counters
    · cases hst
  all_goals
    cases hst
    simp only [Call.tailLag, Call.headLag, Nat.add_zero] at mt mh
    rw [mt, mh]
    exact hring.counters

theorem Inv.pop {pc pc' : Pop α} (h : Inv s calls) (hc : calls i = .pop pc)
    (hst : pc.step i s = some (s', pc')) : Inv s' (Function.update calls i (.pop pc')) := by
  refine ⟨h.counts.step hc (Pop.conserved hst), ?_⟩
  have mt := tally_update Call.tailLag calls i (.pop pc')
  have mh := tally_update Call.headLag calls i (.pop pc')
  rw [hc] at mt mh
  have hring := h.ring
  cases pc <;> simp only [Pop.step] at hst
  case returned => cases hst
  case load =>
    cases hst
    obtain ⟨ht, hh⟩ := h.counts.no_lag hc rfl rfl rfl
    simp only [Call.tailLag, Call.headLag, ht, hh] at mt mh hring ⊢
    rw [show tally Call.tailLag _ = 0 by omega, show tally Call.headLag _ = 1 by omega]
    exact hring.load i (h.counts.item_at_load hc)
  case advance =>
    cases hst
    simp only [Call.tailLag, Call.headLag, Nat.add_zero] at mt mh
    rw [← mt, ← mh] at hring
    exact hring.head_advance
  case waitEmpty | waitMutex =>
    split at hst
    · cases hst
      simp only [Call.tailLag, Call.headLag, Nat.add_zero] at mt mh
      rw [mt, mh]
      exact hring.counters
    · cases hst
  all_goals
    cases hst
    simp only [Call.tailLag, Call.headLag, Nat.add_zero] at mt mh
    rw [mt, mh]
    exact hring.counters

/-- **Every step of every call keeps the queue in order.** -/
theorem Inv.step (h : Inv s calls) (hst : (calls i).step i s = some (s', c')) :
    Inv s' (Function.update calls i c') := by
  cases hc : calls i with
  | idle => rw [hc] at hst; cases hst
  | push x pc =>
    rw [hc] at hst
    obtain ⟨⟨t, pc'⟩, hp, he⟩ := Option.map_eq_some_iff.mp hst
    cases he
    exact h.push hc hp
  | pop pc =>
    rw [hc] at hst
    obtain ⟨⟨t, pc'⟩, hp, he⟩ := Option.map_eq_some_iff.mp hst
    cases he
    exact h.pop hc hp

/-- A thread that is in no call, or before the first or past the last
semaphore of one, may go to another such place. -/
theorem Inv.switch (h : Inv s calls) (hc : (calls i).inFlight = 0) (hc' : c'.inFlight = 0) :
    Inv s (Function.update calls i c') := by
  have hz := Call.outside hc
  have hz' := Call.outside hc'
  refine ⟨h.counts.step rfl ⟨rfl, ?_, ?_, ?_, ?_⟩, ?_⟩
  · rw [hz.inMutex, hz'.inMutex]
  · rw [hz.claim, hz.stored, hz'.claim, hz'.stored]
  · rw [hz.room, hz.taken, hz'.room, hz'.taken]
  · rw [hz.uncounted, hz.undiscounted, hz'.uncounted, hz'.undiscounted]
  · have mt := tally_update Call.tailLag calls i c'
    have mh := tally_update Call.headLag calls i c'
    rw [hz.tailLag, hz'.tailLag, Nat.add_zero, Nat.add_zero] at mt
    rw [hz.headLag, hz'.headLag, Nat.add_zero, Nat.add_zero] at mh
    rw [mt, mh]
    exact h.ring

/-! ## Progress -/

omit [Fintype ι] [DecidableEq ι] in
/-- Inside the mutex nothing blocks. -/
theorem Call.step_of_inMutex (i : ι) (s : Shared ι α) (h : 0 < c.inMutex) :
    (c.step i s).isSome = true := by
  cases c with
  | idle => exact absurd h (Nat.lt_irrefl 0)
  | push x pc => cases pc <;> first | rfl | exact absurd h (Nat.lt_irrefl 0)
  | pop pc => cases pc <;> first | rfl | exact absurd h (Nat.lt_irrefl 0)

omit [DecidableEq ι] in
/-- **Past the first semaphore of a call somebody can go on**: the thread
itself, or the one that holds the mutex. -/
theorem Inv.progress (h : Inv s calls) (hc : 0 < (calls i).inFlight) :
    ∃ j, 0 < (calls j).inFlight ∧ ((calls j).step j s).isSome = true := by
  by_cases hm : 0 < s.queue.mutex
  · refine ⟨i, hc, ?_⟩
    cases hci : calls i with
    | idle => rw [hci] at hc; exact absurd hc (Nat.lt_irrefl 0)
    | push x pc =>
      rw [hci] at hc
      cases pc
      case waitFull | returned => exact absurd hc (Nat.lt_irrefl 0)
      case waitMutex => simp [Call.step, Push.step, hm]
      all_goals rfl
    | pop pc =>
      rw [hci] at hc
      cases pc
      case waitEmpty | returned => exact absurd hc (Nat.lt_irrefl 0)
      case waitMutex => simp [Call.step, Pop.step, hm]
      all_goals rfl
  · have h1 := h.counts.mutex
    obtain ⟨j, hj⟩ := exists_of_tally_pos (show 0 < tally Call.inMutex calls by omega)
    exact ⟨j, Call.inFlight_of_inMutex hj, Call.step_of_inMutex j s hj⟩

end

end HttpC.L4
