import Mathlib.Data.DFinsupp.WellFounded
import Mathlib.Data.Prod.Lex
import HttpC.Core.Inevitable
import HttpC.L7Mock.Locks

/-!
# Every connection of the mock comes to an end

A thread of the mock waits for `table_mutex` and then for the mutex of its URI,
never for the second with the first in hand: whoever has `table_mutex` is in
`lockFor`, and whoever has a URI's mutex is in its critical section, and in
neither does a thread wait (`mock_goes_on`).

`lockFor` may hand the same file's URIs two mutexes (`a` and `./a`), so a file
can grow while a GET reads it. It grows by a PUT's step, though, and the PUTs
have only so much to write: the ranks of the threads come first, and what the
GETs have left to read second (`mockRank`).
-/
namespace HttpC.L7
open HttpC.L1.Util HttpC.L2 HttpC.L3 HttpC.L6

/-! ## How far a thread is from its end -/

def Pc.phase : Pc → Nat
  | .start => 15
  | .lockTable => 14
  | .lookup => 13
  | .insert => 12
  | .unlockTable => 11
  | .lockUri => 10
  | .getOpen | .putAccess => 9
  | .getStat | .putCreate _ => 8
  | .putLeft _ => 7
  | .getRead _ | .putRecv _ _ _ => 6
  | .audit _ _ => 5
  | .unlock _ _ => 4
  | .sendHead _ _ => 3
  | .sendBody _ => 2
  | .done => 1

/-- What an upload has left to do. -/
def Thread.left (t : Thread) : Nat :=
  match t.pc with
  | .putRecv _ written _ => t.task.contentLength - written
  | _ => 0

def rank (t : Thread) : Nat ×ₗ Nat := toLex (t.pc.phase, t.left)

/-- What a GET has left to read of its file. -/
def Thread.unread (t : Thread) (file : Option Bytes) : Nat :=
  match t.pc with
  | .getRead acc => (file.getD []).length - acc.length
  | _ => 0

section
variable {t t' : Thread}

theorem rank_of_phase (h : t'.pc.phase < t.pc.phase) : rank t' < rank t :=
  Prod.Lex.toLex_lt_toLex.mpr (.inl h)

/-- A step of a GET goes on in the source, or reads more of the file. -/
theorem getStep_rank (file : Option Bytes)
    (h : t.pc = .getOpen ∨ t.pc = .getStat ∨ ∃ acc, t.pc = .getRead acc) :
    rank (t.getStep file) < rank t ∨
      (rank (t.getStep file) = rank t ∧ (t.getStep file).task = t.task ∧
        (t.getStep file).unread file < t.unread file) := by
  obtain h | h | ⟨acc, h⟩ := h
  · refine .inl (rank_of_phase ?_)
    simp only [Thread.getStep, h]
    split <;> simp [Pc.phase, auditError]
  · refine .inl (rank_of_phase ?_)
    simp only [Thread.getStep, h]
    split <;> simp [Pc.phase, auditError]
  · simp only [Thread.getStep, h]
    cases hr : retryRead (((file.getD []).drop acc.length).length + 1)
      ((file.getD []).drop acc.length) t.fileReads with
    | mk res s =>
      cases res with
      | fail e => exact .inl (rank_of_phase (by simp [h, Pc.phase, auditError]))
      | data d =>
        cases d with
        | nil =>
          refine .inl (rank_of_phase ?_)
          simp only
          split <;> simp [h, Pc.phase, auditError]
        | cons b bs =>
          refine .inr ⟨by simp [rank, Thread.left, h, Pc.phase], rfl, ?_⟩
          have htaken := congrArg List.length (retryRead_data hr).1
          simp only [List.length_drop, List.length_append, List.length_cons] at htaken
          simp only [Thread.unread, h, List.length_append, List.length_cons]
          omega

/-- A step of a PUT goes on in the source, or takes in more of the body. -/
theorem putStep_rank (file : Option Bytes)
    (h : t.pc = .putAccess ∨ (∃ ex, t.pc = .putCreate ex) ∨ (∃ ex, t.pc = .putLeft ex) ∨
      ∃ ex w off, t.pc = .putRecv ex w off) : rank (t.putStep file).1 < rank t := by
  obtain h | ⟨ex, h⟩ | ⟨ex, h⟩ | ⟨ex, w, off, h⟩ := h
  · exact rank_of_phase (by simp [Thread.putStep, h, Pc.phase])
  · apply rank_of_phase
    simp only [Thread.putStep, h]
    split <;> simp [Pc.phase, auditError]
  · exact rank_of_phase (by simp [Thread.putStep, h, Pc.phase])
  · simp only [Thread.putStep, h]
    split
    · rename_i hw
      cases hr : retryRead (min 8192 (t.task.contentLength - w)) t.client.pending t.client.script with
      | mk res s =>
        cases res with
        | fail e => exact rank_of_phase (by simp [h, Pc.phase, auditError])
        | data d =>
          cases d with
          | nil => exact rank_of_phase (by simp [h, Pc.phase, auditError])
          | cons b bs =>
            refine Prod.Lex.toLex_lt_toLex.mpr (.inr ⟨by simp [h, Pc.phase], ?_⟩)
            simp only [Thread.left, h, List.length_cons]
            omega
    · exact rank_of_phase (by simp [h, Pc.phase, auditError])

theorem sendStep_rank
    (h : (∃ code body, t.pc = .sendHead code body) ∨ ∃ body, t.pc = .sendBody body) :
    rank t.sendStep < rank t := by
  apply rank_of_phase
  obtain ⟨code, body, h⟩ | ⟨body, h⟩ := h
  · simp only [Thread.sendStep, h]
    split
    · simp [Pc.phase]
    · simp only
      split <;> simp [Pc.phase]
  · simp only [Thread.sendStep, h]
    split <;> simp [Pc.phase]

end

/-! ## The mock -/

variable {n : Nat} {E : Env} {s s' : Mock n} {i : Fin n}

/-- The step of thread `i` takes it closer to its end, or it reads more of a
file that stays as it is. -/
def Advances (E : Env) (s : Mock n) (i : Fin n) (s' : Mock n) : Prop :=
  ∃ t, s'.threads = Function.update s.threads i t ∧
    (rank t < rank (s.threads i) ∨
      (rank t = rank (s.threads i) ∧ s'.files = s.files ∧ t.task = (s.threads i).task ∧
        t.unread (s.files (E.fileOf (s.threads i).task.uri)) <
          (s.threads i).unread (s.files (E.fileOf (s.threads i).task.uri))))

theorem advances_phase {t : Thread} (ht : s'.threads = Function.update s.threads i t)
    (h : t.pc.phase < (s.threads i).pc.phase) : Advances E s i s' :=
  ⟨t, ht, .inl (rank_of_phase h)⟩

theorem advances_get (h : (s.threads i).pc = .getOpen ∨ (s.threads i).pc = .getStat ∨
      ∃ acc, (s.threads i).pc = .getRead acc) :
    Advances E s i
      (s.set i ((s.threads i).getStep (s.files (E.fileOf (s.threads i).task.uri)))) := by
  refine ⟨_, rfl, ?_⟩
  rcases getStep_rank (s.files (E.fileOf (s.threads i).task.uri)) h with hr | ⟨hr, ht, hu⟩
  · exact .inl hr
  · exact .inr ⟨hr, rfl, ht, hu⟩

/-- **Every step is an advance.** -/
theorem mock_advances (hst : s.step E i = some s') : Advances E s i s' := by
  cases hpc : (s.threads i).pc with
  | start =>
    simp only [Mock.step, hpc] at hst
    split at hst
    · cases hst; exact advances_phase rfl (by simp [hpc, Pc.phase])
    · cases hst
      refine advances_phase rfl ?_
      simp only [hpc]
      split <;> simp [Pc.phase, auditError]
  | lockTable =>
    simp only [Mock.step, hpc] at hst
    split at hst
    · cases hst; exact advances_phase rfl (by simp [hpc, Pc.phase])
    · cases hst
  | lookup =>
    simp only [Mock.step, hpc] at hst
    split at hst <;> cases hst <;> exact advances_phase rfl (by simp [hpc, Pc.phase])
  | insert =>
    simp only [Mock.step, hpc] at hst
    cases hst; exact advances_phase rfl (by simp [hpc, Pc.phase])
  | unlockTable =>
    simp only [Mock.step, hpc] at hst
    cases hst; exact advances_phase rfl (by simp [hpc, Pc.phase])
  | lockUri =>
    simp only [Mock.step, hpc] at hst
    split at hst
    · cases hst
    · split at hst
      · cases hst
        refine advances_phase rfl ?_
        simp only [hpc]
        split <;> simp [Pc.phase]
      · cases hst
  | getOpen =>
    simp only [Mock.step, hpc] at hst
    cases hst; exact advances_get (.inl hpc)
  | getStat =>
    simp only [Mock.step, hpc] at hst
    cases hst; exact advances_get (.inr (.inl hpc))
  | getRead acc =>
    simp only [Mock.step, hpc] at hst
    cases hst; exact advances_get (.inr (.inr ⟨acc, hpc⟩))
  | putAccess =>
    simp only [Mock.step, hpc] at hst
    cases hst; exact ⟨_, rfl, .inl (putStep_rank _ (.inl hpc))⟩
  | putCreate ex =>
    simp only [Mock.step, hpc] at hst
    cases hst; exact ⟨_, rfl, .inl (putStep_rank _ (.inr (.inl ⟨ex, hpc⟩)))⟩
  | putLeft ex =>
    simp only [Mock.step, hpc] at hst
    cases hst; exact ⟨_, rfl, .inl (putStep_rank _ (.inr (.inr (.inl ⟨ex, hpc⟩))))⟩
  | putRecv ex w off =>
    simp only [Mock.step, hpc] at hst
    cases hst; exact ⟨_, rfl, .inl (putStep_rank _ (.inr (.inr (.inr ⟨ex, w, off, hpc⟩))))⟩
  | audit code body =>
    simp only [Mock.step, hpc] at hst
    cases hst
    refine advances_phase rfl ?_
    simp only [hpc]
    split <;> simp [Pc.phase]
  | unlock code body =>
    simp only [Mock.step, hpc] at hst
    cases hst; exact advances_phase rfl (by simp [hpc, Pc.phase])
  | sendHead code body =>
    simp only [Mock.step, hpc] at hst
    cases hst; exact ⟨_, rfl, .inl (sendStep_rank (.inl ⟨code, body, hpc⟩))⟩
  | sendBody body =>
    simp only [Mock.step, hpc] at hst
    cases hst; exact ⟨_, rfl, .inl (sendStep_rank (.inr ⟨body, hpc⟩))⟩
  | done =>
    simp only [Mock.step, hpc] at hst
    cases hst

/-- An advance does not go back in the source. -/
theorem Advances.phase (h : Advances E s i s') :
    ∃ t, s'.threads = Function.update s.threads i t ∧ t.pc.phase ≤ (s.threads i).pc.phase := by
  obtain ⟨t, ht, hr | ⟨hr, -⟩⟩ := h
  · rcases Prod.Lex.toLex_lt_toLex.mp hr with hp | ⟨hp, -⟩
    · exact ⟨t, ht, Nat.le_of_lt hp⟩
    · exact ⟨t, ht, Nat.le_of_eq hp⟩
  · exact ⟨t, ht, Nat.le_of_eq (congrArg Prod.fst (toLex.injective hr))⟩

/-! ## Nobody waits in vain -/

/-- What the mock waits for. -/
theorem mock_blocked (h : s.step E i = none) :
    (s.threads i).pc = .done ∨ ((s.threads i).pc = .lockTable ∧ s.tableHeld ≠ none) ∨
      ((s.threads i).pc = .lockUri ∧ ∀ m, (s.threads i).mutex = some m → s.held m ≠ none) := by
  cases hpc : (s.threads i).pc with
  | done => exact .inl rfl
  | lockTable =>
    simp only [Mock.step, hpc] at h
    split at h
    · cases h
    · exact .inr (.inl ⟨rfl, ‹_›⟩)
  | lockUri =>
    refine .inr (.inr ⟨rfl, fun m hm hfree => ?_⟩)
    simp [Mock.step, hpc, hm, hfree] at h
  | _ =>
    simp only [Mock.step, hpc] at h
    repeat' split at h
    all_goals cases h

/-- `lockFor` has returned a mutex. -/
def Given (t : Thread) : Prop := t.pc = .unlockTable ∨ t.pc = .lockUri → t.mutex ≠ none

theorem given_of_phase {t : Thread} (h : t.pc.phase < 10 ∨ 11 < t.pc.phase) : Given t := by
  intro hpc
  rcases hpc with hpc | hpc <;> rw [hpc] at h <;> simp [Pc.phase] at h

theorem given_step (h : ∀ j, Given (s.threads j)) (hst : s.step E i = some s') (j : Fin n) :
    Given (s'.threads j) := by
  have hset : ∀ {t : Thread}, s'.threads = Function.update s.threads i t → Given t →
      Given (s'.threads j) := by
    intro t ht hg
    rw [ht]
    by_cases hj : j = i
    · rw [hj, Function.update_self]; exact hg
    · rw [Function.update_of_ne hj]; exact h j
  by_cases hlate : (s.threads i).pc.phase < 10
  · obtain ⟨t, ht, hle⟩ := (mock_advances hst).phase
    exact hset ht (given_of_phase (.inl (by omega)))
  cases hpc : (s.threads i).pc with
  | start =>
    simp only [Mock.step, hpc] at hst
    split at hst
    · cases hst; exact hset rfl (given_of_phase (.inl (by simp [Pc.phase])))
    · cases hst
      refine hset rfl (given_of_phase ?_)
      simp only
      split <;> simp [Pc.phase, auditError]
  | lockTable =>
    simp only [Mock.step, hpc] at hst
    split at hst
    · cases hst; exact hset rfl (given_of_phase (.inr (by simp [Pc.phase])))
    · cases hst
  | lookup =>
    simp only [Mock.step, hpc] at hst
    split at hst <;> cases hst
    · exact hset rfl fun _ => by simp
    · exact hset rfl (given_of_phase (.inr (by simp [Pc.phase])))
  | insert =>
    simp only [Mock.step, hpc] at hst
    cases hst; exact hset rfl fun _ => by simp
  | unlockTable =>
    simp only [Mock.step, hpc] at hst
    cases hst
    exact hset rfl fun _ => h i (.inl hpc)
  | lockUri =>
    simp only [Mock.step, hpc] at hst
    split at hst
    · cases hst
    · split at hst
      · cases hst
        refine hset rfl (given_of_phase (.inl ?_))
        simp only
        split <;> simp [Pc.phase]
      · cases hst
  | _ =>
    rw [hpc] at hlate
    simp [Pc.phase] at hlate

section
variable {reqs : Fin n → MockIncoming} {files : Files}

theorem mock_given (hs : (mock E reqs files).Reachable s) (i : Fin n) : Given (s.threads i) := by
  have hI : (mock E reqs files).Inductive fun s => ∀ i, Given (s.threads i) := by
    refine ⟨?_, fun s i s' h hst j => given_step h hst j⟩
    intro s hh i
    subst hh
    exact given_of_phase (.inr (by simp [MockIncoming.start, Pc.phase]))
  exact hI.reachable s hs i

/-- **No deadlock.** While a thread is not done, it can go on, or the one that
has the mutex it waits for can. -/
theorem mock_goes_on (hs : (mock E reqs files).Reachable s) (hi : (s.threads i).pc ≠ .done) :
    ∃ j s', s.step E j = some s' := by
  have hl := mock_locks hs
  have can : ∀ j, s.step E j ≠ none → ∃ j s', s.step E j = some s' := by
    intro j hj
    obtain ⟨s', hst⟩ := Option.ne_none_iff_exists'.mp hj
    exact ⟨j, s', hst⟩
  cases hst : s.step E i with
  | some s' => exact ⟨i, s', hst⟩
  | none =>
    rcases mock_blocked hst with hd | ⟨-, hheld⟩ | ⟨hpc, hheld⟩
    · exact absurd hd hi
    · -- somebody is in `lockFor`
      obtain ⟨j, hj⟩ := Option.ne_none_iff_exists'.mp hheld
      have hin := (hl.thread j).table.mp hj
      refine can j fun hnone => ?_
      rcases mock_blocked hnone with h | ⟨h, -⟩ | ⟨h, -⟩ <;> rw [h] at hin <;> cases hin
    · -- somebody works on the URI
      obtain ⟨m, hm⟩ := Option.ne_none_iff_exists'.mp (mock_given hs i (.inr hpc))
      obtain ⟨j, hj⟩ := Option.ne_none_iff_exists'.mp (hheld m hm)
      have hin := (((hl.thread j).held m).mp hj).1
      refine can j fun hnone => ?_
      rcases mock_blocked hnone with h | ⟨h, -⟩ | ⟨h, -⟩ <;> rw [h] at hin <;> cases hin

/-- The threads' ranks first, then what the GETs have left to read. -/
def mockRank (E : Env) (s : Mock n) : (Fin n → Nat ×ₗ Nat) ×ₗ (Fin n → Nat) :=
  toLex (fun i => rank (s.threads i),
    fun i => (s.threads i).unread (s.files (E.fileOf (s.threads i).task.uri)))

theorem mockRank_step (hst : s.step E i = some s') : mockRank E s' < mockRank E s := by
  obtain ⟨t, ht, hr⟩ := mock_advances hst
  have hranks : (fun j => rank (s'.threads j)) =
      Function.update (fun j => rank (s.threads j)) i (rank t) := by
    funext j
    by_cases hj : j = i
    · subst hj; simp [ht]
    · simp [ht, Function.update_of_ne hj]
  rcases hr with hr | ⟨hr, hf, htask, hu⟩
  · refine Prod.Lex.toLex_lt_toLex.mpr (.inl ?_)
    rw [hranks]
    exact update_lt_self_iff.mpr hr
  · refine Prod.Lex.toLex_lt_toLex.mpr (.inr ⟨?_, ?_⟩)
    · rw [hranks, hr]
      exact Function.update_eq_self i _
    · have hunread : (fun j => (s'.threads j).unread
            (s'.files (E.fileOf (s'.threads j).task.uri))) =
          Function.update (fun j => (s.threads j).unread
            (s.files (E.fileOf (s.threads j).task.uri))) i
            (t.unread (s.files (E.fileOf (s.threads i).task.uri))) := by
        funext j
        by_cases hj : j = i
        · subst hj; simp [ht, hf, htask]
        · simp [ht, hf, Function.update_of_ne hj]
      rw [hunread]
      exact update_lt_self_iff.mpr hu

end

/-- All threads have returned, and no mutex is held. -/
def Finished (s : Mock n) : Prop :=
  (∀ i, (s.threads i).pc = .done) ∧ s.tableHeld = none ∧ ∀ m, s.held m = none

theorem Locks.finished (h : Locks s) (hd : ∀ i, (s.threads i).pc = .done) : Finished s := by
  refine ⟨hd, Option.eq_none_iff_forall_ne_some.mpr fun i hi => ?_, fun m =>
    Option.eq_none_iff_forall_ne_some.mpr fun i hi => ?_⟩
  · have := (h.thread i).table.mp hi
    rw [hd i] at this
    cases this
  · have := (((h.thread i).held m).mp hi).1
    rw [hd i] at this
    cases this

/-- **Every connection of the mock comes to an end**, from every reachable
state and in every interleaving, also when URIs that name one file go through
different mutexes; and then no mutex is held. -/
theorem mock_connections_end (E : Env) (reqs : Fin n → MockIncoming) (files : Files) (s : Mock n)
    (hs : (mock E reqs files).Reachable s) : (mock E reqs files).Inevitable Finished s := by
  refine LTS.Inevitable.of_rank (P := (mock E reqs files).Reachable) (mockRank E)
    (fun s i s' h hst => h.step hst) (fun s i s' _ hst => mockRank_step hst) ?_ hs
  intro s h hnot
  have hn : ¬ ∀ i, (s.threads i).pc = .done := fun hd => hnot ((mock_locks h).finished hd)
  obtain ⟨i, hi⟩ := not_forall.mp hn
  exact mock_goes_on h hi

/-- `PUT /a`, its body in a segment of its own, and `GET /a`. -/
def putThenGet : Fin 2 → MockIncoming
  | 0 => { client := ⟨ascii "PUT /a HTTP/1.1\r\nContent-Length: 2\r\n\r\nhi", [.got 37]⟩ }
  | 1 => { client := ⟨ascii "GET /a HTTP/1.1\r\n\r\n", []⟩ }

/-- The GET waits for the mutex that the PUT has, while the body is still to
come. -/
theorem mock_connections_end_waiting : ∃ s, (mock ⟨[], 1, 2⟩ putThenGet fun _ => none).Reachable s ∧
    (s.threads 0).pc = .putRecv false 0 0 ∧ (s.threads 1).pc = .lockUri ∧
    (mock ⟨[], 1, 2⟩ putThenGet fun _ => none).Inevitable Finished s := by
  have hrun : ((LTS.exec (Mock.step ⟨[], 1, 2⟩)
      { files := fun _ => none, threads := fun i : Fin 2 => (putThenGet i).start }
      (List.replicate 9 0 ++ List.replicate 4 1)).map fun s =>
        ((s.threads 0).pc, (s.threads 1).pc)) = some (.putRecv false 0 0, .lockUri) := by decide
  obtain ⟨s, hs, hd⟩ := Option.map_eq_some_iff.mp hrun
  simp only [Prod.mk.injEq] at hd
  have hr : (mock ⟨[], 1, 2⟩ putThenGet fun _ => none).Reachable s :=
    ⟨_, _, rfl, LTS.run_of_exec _ _ _ hs⟩
  exact ⟨s, hr, hd.1, hd.2, mock_connections_end _ _ _ s hr⟩

end HttpC.L7
