import HttpC.L7Mock.Mock

/-!
# One mutex for each URI

`lockFor` of `ztest/mock/main.zig` looks a URI up and inserts a new mutex in
two steps; `table_mutex` is held around both. In every state of every run
(`Locks`, `mock_locks`) a mutex belongs to one URI, a thread that was given one
was given the one in the table, and whoever works on a URI holds it.
-/
namespace HttpC.L7
open HttpC.L1.Util HttpC.L2 HttpC.L3

/-- `table_mutex` is held. -/
def Pc.inTable : Pc → Bool
  | .lookup | .insert | .unlockTable => true
  | _ => false

/-- The mutex of the URI is held, if the request took one. -/
def Pc.inside : Pc → Bool
  | .getOpen | .getStat | .getRead _ | .putAccess | .putCreate _ | .putLeft _ | .putRecv _ _ _
  | .audit _ _ | .unlock _ _ => true
  | _ => false

/-- A step that has nothing to do with the locks. -/
structure Keeps (t t' : Thread) : Prop where
  mutex : t'.mutex = t.mutex
  task : t.mutex ≠ none → t'.task = t.task
  inside : t.mutex ≠ none → t'.pc.inside = t.pc.inside
  before : t.pc.inTable = false
  after : t'.pc.inTable = false
  started : t'.pc ≠ .start
  fault : t.fault = true → t'.fault = true

section
variable {t : Thread}

theorem getStep_keeps (file : Option Bytes)
    (h : t.pc = .getOpen ∨ t.pc = .getStat ∨ ∃ acc, t.pc = .getRead acc) :
    Keeps t (t.getStep file) := by
  obtain h | h | ⟨acc, h⟩ := h <;> simp only [Thread.getStep, h] <;> repeat' split
  all_goals exact ⟨rfl, fun _ => rfl, fun _ => by rw [h]; rfl, by rw [h]; rfl, rfl,
    by simp [auditError], fun hf => by simp [hf]⟩

theorem putStep_keeps (file : Option Bytes)
    (h : t.pc = .putAccess ∨ (∃ ex, t.pc = .putCreate ex) ∨ (∃ ex, t.pc = .putLeft ex) ∨
      ∃ ex w off, t.pc = .putRecv ex w off) :
    Keeps t (t.putStep file).1 := by
  obtain h | ⟨ex, h⟩ | ⟨ex, h⟩ | ⟨ex, w, off, h⟩ := h <;> simp only [Thread.putStep, h] <;>
    repeat' split
  all_goals exact ⟨rfl, fun _ => rfl, fun _ => by rw [h]; rfl, by rw [h]; rfl, rfl,
    by simp [auditError], fun hf => by simp [hf]⟩

theorem sendStep_keeps
    (h : (∃ code body, t.pc = .sendHead code body) ∨ ∃ body, t.pc = .sendBody body) :
    Keeps t t.sendStep := by
  obtain ⟨code, body, h⟩ | ⟨body, h⟩ := h <;> simp only [Thread.sendStep, h] <;> repeat' split
  all_goals exact ⟨rfl, fun _ => rfl, fun _ => by rw [h]; rfl, by rw [h]; rfl, rfl, by simp,
    fun hf => by simp [hf]⟩

end

variable {n : Nat}

/-- What thread `t`, the `i`-th, has of the locks. -/
structure Guarded (s : Mock n) (i : Fin n) (t : Thread) : Prop where
  table : s.tableHeld = some i ↔ t.pc.inTable = true
  missing : t.pc = .insert → s.table t.task.uri = none
  mutex : ∀ m, t.mutex = some m → s.table t.task.uri = some m
  start : t.pc = .start → t.mutex = none
  held : ∀ m, s.held m = some i ↔ t.pc.inside = true ∧ t.mutex = some m

structure Locks (s : Mock n) : Prop where
  small : ∀ u m, s.table u = some m → m < s.fresh
  inj : ∀ u v m, s.table u = some m → s.table v = some m → u = v
  thread : ∀ i, Guarded s i (s.threads i)

section
variable {s : Mock n} {i : Fin n} {t : Thread}

/-- A step that has nothing to do with the locks. -/
theorem Guarded.own (h : Guarded s i (s.threads i)) (hk : Keeps (s.threads i) t) : Guarded s i t where
  table := by rw [h.table, hk.before, hk.after]
  missing hpc := by
    have := hk.after
    rw [hpc] at this
    cases this
  mutex m hm := by
    rw [hk.mutex] at hm
    rw [hk.task (by rw [hm]; simp)]
    exact h.mutex m hm
  start hpc := absurd hpc hk.started
  held m := by
    rw [h.held m, hk.mutex]
    apply and_congr_left
    intro hm
    rw [hk.inside (by rw [hm]; simp)]

/-- One thread steps: the others keep what they have. -/
theorem Locks.update {s' : Mock n} (h : Locks s)
    (hsmall : ∀ u m, s'.table u = some m → m < s'.fresh)
    (hinj : ∀ u v m, s'.table u = some m → s'.table v = some m → u = v)
    (hthreads : s'.threads = Function.update s.threads i t) (hown : Guarded s' i t)
    (hgrow : ∀ u m, s.table u = some m → s'.table u = some m)
    (hmiss : ∀ j, j ≠ i → (s.threads j).pc = .insert → s'.table (s.threads j).task.uri = none)
    (htable : ∀ j, j ≠ i → (s'.tableHeld = some j ↔ s.tableHeld = some j))
    (hheld : ∀ j, j ≠ i → ∀ m, (s'.held m = some j ↔ s.held m = some j)) : Locks s' := by
  refine ⟨hsmall, hinj, fun j => ?_⟩
  rw [hthreads]
  by_cases hj : j = i
  · subst hj
    rw [Function.update_self]
    exact hown
  · rw [Function.update_of_ne hj]
    have hg := h.thread j
    exact ⟨(htable j hj).trans hg.table, hmiss j hj, fun m hm => hgrow _ _ (hg.mutex m hm), hg.start,
      fun m => (hheld j hj m).trans (hg.held m)⟩

/-- The same when the table is as before. -/
theorem Locks.keep {s' : Mock n} (h : Locks s) (htab : s'.table = s.table) (hfresh : s'.fresh = s.fresh)
    (hthreads : s'.threads = Function.update s.threads i t) (hown : Guarded s' i t)
    (htable : ∀ j, j ≠ i → (s'.tableHeld = some j ↔ s.tableHeld = some j))
    (hheld : ∀ j, j ≠ i → ∀ m, (s'.held m = some j ↔ s.held m = some j)) : Locks s' := by
  refine h.update ?_ ?_ hthreads hown ?_ ?_ htable hheld
  · rw [htab, hfresh]; exact h.small
  · rw [htab]; exact h.inj
  · rw [htab]; exact fun _ _ hm => hm
  · rw [htab]; exact fun j _ hpc => (h.thread j).missing hpc

/-- Only the lock operations touch the locks. -/
theorem Locks.own (h : Locks s) (hk : Keeps (s.threads i) t) (files : Files)
    (log : List (Fin n × LogLine)) : Locks { s.set i t with files, log } := by
  have hg := (h.thread i).own hk
  refine h.keep rfl rfl rfl ?_ (fun _ _ => Iff.rfl) (fun _ _ _ => Iff.rfl)
  exact ⟨hg.table, hg.missing, hg.mutex, hg.start, hg.held⟩

/-! ## The lock operations -/

theorem Locks.lockTable (h : Locks s) (hpc : (s.threads i).pc = .lockTable)
    (hfree : s.tableHeld = none) :
    Locks { s.set i { s.threads i with pc := .lookup } with tableHeld := some i } := by
  have hg := h.thread i
  refine h.keep rfl rfl rfl ⟨?_, by simp, hg.mutex, by simp, fun m => ?_⟩ (fun j hj => ?_)
    (fun _ _ _ => Iff.rfl)
  · simp [Pc.inTable]
  · simpa [hpc, Pc.inside] using hg.held m
  · simp [hfree, Ne.symm hj]

theorem Locks.lookup (h : Locks s) (hpc : (s.threads i).pc = .lookup) {m : Nat}
    (hm : s.table (s.threads i).task.uri = some m) :
    Locks (s.set i { s.threads i with mutex := some m, pc := .unlockTable }) := by
  have hg := h.thread i
  refine h.keep rfl rfl rfl ⟨?_, by simp, fun m' hm' => ?_, by simp, fun m' => ?_⟩
    (fun _ _ => Iff.rfl) (fun _ _ _ => Iff.rfl)
  · simpa [hpc, Pc.inTable] using hg.table
  · simp only [Option.some.injEq] at hm'
    rw [← hm']; exact hm
  · simpa [hpc, Pc.inside] using hg.held m'

theorem Locks.miss (h : Locks s) (hpc : (s.threads i).pc = .lookup)
    (hm : s.table (s.threads i).task.uri = none) :
    Locks (s.set i { s.threads i with pc := .insert }) := by
  have hg := h.thread i
  refine h.keep rfl rfl rfl ⟨?_, fun _ => hm, hg.mutex, by simp, fun m' => ?_⟩
    (fun _ _ => Iff.rfl) (fun _ _ _ => Iff.rfl)
  · simpa [hpc, Pc.inTable] using hg.table
  · simpa [hpc, Pc.inside] using hg.held m'

/-- **A new mutex.** Nobody else is in the table, and its number is new. -/
theorem Locks.insert (h : Locks s) (hpc : (s.threads i).pc = .insert) :
    Locks { s.set i { s.threads i with mutex := some s.fresh, pc := .unlockTable } with
      table := Function.update s.table (s.threads i).task.uri (some s.fresh)
      fresh := s.fresh + 1 } := by
  have hg := h.thread i
  have hnone := hg.missing hpc
  have hin : s.tableHeld = some i := hg.table.mpr (by rw [hpc]; rfl)
  have hval : ∀ u m, Function.update s.table (s.threads i).task.uri (some s.fresh) u = some m →
      (u = (s.threads i).task.uri ∧ m = s.fresh) ∨ s.table u = some m := by
    intro u m hm
    by_cases hu : u = (s.threads i).task.uri
    · subst hu
      rw [Function.update_self, Option.some.injEq] at hm
      exact .inl ⟨rfl, hm.symm⟩
    · rw [Function.update_of_ne hu] at hm
      exact .inr hm
  refine h.update (fun u m hm => ?_) (fun u v m hu hv => ?_) rfl
    ⟨?_, by simp, fun m hm => ?_, by simp, fun m => ?_⟩ (fun u m hm => ?_) (fun j hj hpcj => ?_)
    (fun _ _ => Iff.rfl) (fun _ _ _ => Iff.rfl)
  · rcases hval u m hm with ⟨-, rfl⟩ | hm
    · exact Nat.lt_succ_self _
    · exact Nat.lt_succ_of_lt (h.small u m hm)
  · rcases hval u m hu with ⟨hu, hm⟩ | hu <;> rcases hval v m hv with ⟨hv, hm'⟩ | hv
    · rw [hu, hv]
    · rw [hm] at hv
      exact absurd (h.small v _ hv) (Nat.lt_irrefl _)
    · rw [hm'] at hu
      exact absurd (h.small u _ hu) (Nat.lt_irrefl _)
    · exact h.inj u v m hu hv
  · simpa [hpc, Pc.inTable] using hg.table
  · simp only [Option.some.injEq] at hm
    simp [hm]
  · simpa [hpc, Pc.inside] using hg.held m
  · by_cases hu : u = (s.threads i).task.uri
    · subst hu
      rw [hnone] at hm
      cases hm
    · simp only [Function.update_of_ne hu]
      exact hm
  · -- it would hold `table_mutex` too
    have := (h.thread j).table.mpr (by rw [hpcj]; rfl)
    rw [hin, Option.some.injEq] at this
    exact absurd this.symm hj

theorem Locks.unlockTable (h : Locks s) (hpc : (s.threads i).pc = .unlockTable) :
    Locks { s.set i { s.threads i with pc := .lockUri } with tableHeld := none } := by
  have hg := h.thread i
  have hin : s.tableHeld = some i := hg.table.mpr (by rw [hpc]; rfl)
  refine h.keep rfl rfl rfl ⟨?_, by simp, hg.mutex, by simp, fun m => ?_⟩ (fun j hj => ?_)
    (fun _ _ _ => Iff.rfl)
  · simp [Pc.inTable]
  · simpa [hpc, Pc.inside] using hg.held m
  · simp [hin, Ne.symm hj]

theorem Locks.lockUri (h : Locks s) (hpc : (s.threads i).pc = .lockUri) {m : Nat}
    (hm : (s.threads i).mutex = some m) (hfree : s.held m = none) {pc : Pc}
    (hin : pc.inside = true) (hout : pc.inTable = false) :
    Locks { s.set i { s.threads i with pc } with held := Function.update s.held m (some i) } := by
  have hg := h.thread i
  refine h.keep rfl rfl rfl ⟨?_, fun hp => ?_, hg.mutex, fun hp => ?_, fun m' => ?_⟩
    (fun _ _ => Iff.rfl) (fun j hj m' => ?_)
  · show s.tableHeld = some i ↔ pc.inTable = true
    rw [hg.table, hpc, hout]
    rfl
  · simp only at hp
    rw [hp] at hin; cases hin
  · simp only at hp
    rw [hp] at hin; cases hin
  · by_cases hmm : m' = m
    · subst hmm; simp [hin, hm]
    · have := hg.held m'
      simp only [hpc, Pc.inside, Bool.false_eq_true, false_and, iff_false] at this
      simp [Function.update_of_ne hmm, this, hin, hm, Ne.symm hmm]
  · by_cases hmm : m' = m
    · subst hmm; simp [hfree, Ne.symm hj]
    · simp [Function.update_of_ne hmm]

theorem Locks.unlock (h : Locks s) {code : Nat} {body : Bytes}
    (hpc : (s.threads i).pc = .unlock code body) :
    Locks { s.set i { s.threads i with pc := .sendHead code body } with
      held := match (s.threads i).mutex with
        | some m => Function.update s.held m none
        | none => s.held } := by
  have hg := h.thread i
  refine h.keep rfl rfl rfl ⟨?_, by simp, hg.mutex, by simp, fun m' => ?_⟩ (fun _ _ => Iff.rfl)
    (fun j hj m' => ?_)
  · simpa [hpc, Pc.inTable] using hg.table
  · have := hg.held m'
    simp only [hpc, Pc.inside, true_and] at this
    cases hm : (s.threads i).mutex with
    | none =>
      rw [hm] at this
      simpa [Pc.inside] using this
    | some m =>
      by_cases hmm : m' = m
      · subst hmm; simp [Pc.inside]
      · rw [hm] at this
        simp only [Option.some.injEq, Ne.symm hmm, iff_false] at this
        simp [Function.update_of_ne hmm, Pc.inside, this]
  · cases hm : (s.threads i).mutex with
    | none => simp
    | some m =>
      have := hg.held m
      simp only [hpc, Pc.inside, true_and, hm, iff_true] at this
      by_cases hmm : m' = m
      · subst hmm; simp [this, Ne.symm hj]
      · simp [Function.update_of_ne hmm]

/-- **What a step does to the locks.** -/
inductive Moves (s : Mock n) (i : Fin n) : Mock n → Prop where
  | own {t : Thread} (files : Files) (log : List (Fin n × LogLine)) : Keeps (s.threads i) t →
      Moves s i { s.set i t with files, log }
  | lockTable : (s.threads i).pc = .lockTable → s.tableHeld = none →
      Moves s i { s.set i { s.threads i with pc := .lookup } with tableHeld := some i }
  | found {m : Nat} : (s.threads i).pc = .lookup → s.table (s.threads i).task.uri = some m →
      Moves s i (s.set i { s.threads i with mutex := some m, pc := .unlockTable })
  | miss : (s.threads i).pc = .lookup → s.table (s.threads i).task.uri = none →
      Moves s i (s.set i { s.threads i with pc := .insert })
  | insert : (s.threads i).pc = .insert →
      Moves s i { s.set i { s.threads i with mutex := some s.fresh, pc := .unlockTable } with
        table := Function.update s.table (s.threads i).task.uri (some s.fresh)
        fresh := s.fresh + 1 }
  | unlockTable : (s.threads i).pc = .unlockTable →
      Moves s i { s.set i { s.threads i with pc := .lockUri } with tableHeld := none }
  | lockUri {m : Nat} {pc : Pc} : (s.threads i).pc = .lockUri → (s.threads i).mutex = some m →
      s.held m = none → pc.inside = true → pc.inTable = false →
      Moves s i { s.set i { s.threads i with pc } with held := Function.update s.held m (some i) }
  | unlock {code : Nat} {body : Bytes} : (s.threads i).pc = .unlock code body →
      Moves s i { s.set i { s.threads i with pc := .sendHead code body } with
        held := match (s.threads i).mutex with
          | some m => Function.update s.held m none
          | none => s.held }

theorem step_moves {E : Env} {s' : Mock n} (hstart : (s.threads i).pc = .start → (s.threads i).mutex = none)
    (hst : s.step E i = some s') : Moves s i s' := by
  cases hpc : (s.threads i).pc with
  | start =>
    have hm := hstart hpc
    simp only [Mock.step, hpc] at hst
    split at hst
    · cases hst
      refine .own s.files s.log ?_
      exact ⟨rfl, fun hn => absurd hm hn, fun hn => absurd hm hn, by rw [hpc]; rfl, rfl, by simp, id⟩
    · cases hst
      refine .own s.files s.log ?_
      refine ⟨rfl, fun hn => absurd hm hn, fun hn => absurd hm hn, by rw [hpc]; rfl, ?_, ?_, id⟩
      · simp only; split <;> rfl
      · simp only; split <;> simp [auditError]
  | lockTable =>
    simp only [Mock.step, hpc] at hst
    split at hst
    · rename_i hfree
      cases hst
      exact .lockTable hpc hfree
    · cases hst
  | lookup =>
    simp only [Mock.step, hpc] at hst
    split at hst
    · rename_i m hm
      cases hst
      exact .found hpc hm
    · rename_i hm
      cases hst
      exact .miss hpc hm
  | insert =>
    simp only [Mock.step, hpc] at hst
    cases hst
    exact .insert hpc
  | unlockTable =>
    simp only [Mock.step, hpc] at hst
    cases hst
    exact .unlockTable hpc
  | lockUri =>
    simp only [Mock.step, hpc] at hst
    split at hst
    · cases hst
    · rename_i m hm
      split at hst
      · rename_i hfree
        cases hst
        refine .lockUri hpc hm hfree ?_ ?_ <;> split <;> rfl
      · cases hst
  | getOpen =>
    simp only [Mock.step, hpc] at hst
    cases hst
    exact .own _ _ (getStep_keeps _ (.inl hpc))
  | getStat =>
    simp only [Mock.step, hpc] at hst
    cases hst
    exact .own _ _ (getStep_keeps _ (.inr (.inl hpc)))
  | getRead acc =>
    simp only [Mock.step, hpc] at hst
    cases hst
    exact .own _ _ (getStep_keeps _ (.inr (.inr ⟨acc, hpc⟩)))
  | putAccess =>
    simp only [Mock.step, hpc] at hst
    cases hst
    exact .own _ _ (putStep_keeps _ (.inl hpc))
  | putCreate ex =>
    simp only [Mock.step, hpc] at hst
    cases hst
    exact .own _ _ (putStep_keeps _ (.inr (.inl ⟨ex, hpc⟩)))
  | putLeft ex =>
    simp only [Mock.step, hpc] at hst
    cases hst
    exact .own _ _ (putStep_keeps _ (.inr (.inr (.inl ⟨ex, hpc⟩))))
  | putRecv ex w off =>
    simp only [Mock.step, hpc] at hst
    cases hst
    exact .own _ _ (putStep_keeps _ (.inr (.inr (.inr ⟨ex, w, off, hpc⟩))))
  | audit code body =>
    simp only [Mock.step, hpc] at hst
    cases hst
    refine .own s.files _ ?_
    refine ⟨rfl, fun _ => rfl, fun hm => ?_, by rw [hpc]; rfl, ?_, ?_, id⟩
    · simp only [if_neg hm, hpc]; rfl
    · simp only; split <;> rfl
    · simp only; split <;> simp
  | unlock code body =>
    simp only [Mock.step, hpc] at hst
    cases hst
    exact .unlock hpc
  | sendHead code body =>
    simp only [Mock.step, hpc] at hst
    cases hst
    exact .own _ _ (sendStep_keeps (.inl ⟨code, body, hpc⟩))
  | sendBody body =>
    simp only [Mock.step, hpc] at hst
    cases hst
    exact .own _ _ (sendStep_keeps (.inr ⟨body, hpc⟩))
  | done =>
    simp only [Mock.step, hpc] at hst
    cases hst

/-- **One step keeps the locks in order.** -/
theorem Locks.step {s' : Mock n} (h : Locks s) (hm : Moves s i s') : Locks s' := by
  cases hm with
  | own files log hk => exact h.own hk files log
  | lockTable hpc hfree => exact h.lockTable hpc hfree
  | found hpc hm => exact h.lookup hpc hm
  | miss hpc hm => exact h.miss hpc hm
  | insert hpc => exact h.insert hpc
  | unlockTable hpc => exact h.unlockTable hpc
  | lockUri hpc hm hfree hin hout => exact h.lockUri hpc hm hfree hin hout
  | unlock hpc => exact h.unlock hpc

/-- A failure is remembered. -/
theorem Moves.fault {s' : Mock n} (hm : Moves s i s') {j : Fin n}
    (hj : (s'.threads j).fault = false) : (s.threads j).fault = false := by
  by_cases hji : j = i
  · subst hji
    cases hm with
    | own _ _ hk =>
      by_contra hne
      have := hk.fault (by simpa using hne)
      simp [this] at hj
    | _ => simpa using hj
  · cases hm <;> simpa [hji] using hj

variable {E : Env} {reqs : Fin n → MockIncoming} {files : Files}

/-- **The locks are in order in every reachable state.** -/
theorem mock_locks (hs : (mock E reqs files).Reachable s) : Locks s := by
  have hI : (mock E reqs files).Inductive Locks := by
    refine ⟨?_, fun s i s' h hst => h.step (step_moves (h.thread i).start hst)⟩
    intro s hh
    subst hh
    refine ⟨by simp, by simp, fun i => ⟨?_, ?_, ?_, ?_, ?_⟩⟩ <;>
      simp [MockIncoming.start, Pc.inTable, Pc.inside]
  exact hI.reachable s hs

/-- **One and the same mutex** for all requests of a URI. -/
theorem Locks.same (h : Locks s) {j : Fin n} {m m' : Nat}
    (hu : (s.threads i).task.uri = (s.threads j).task.uri) (hi : (s.threads i).mutex = some m)
    (hj : (s.threads j).mutex = some m') : m = m' := by
  have h1 := (h.thread i).mutex m hi
  have h2 := (h.thread j).mutex m' hj
  rw [hu, h2, Option.some.injEq] at h1
  exact h1.symm

/-- Whoever works on a URI is alone. -/
theorem Locks.alone (h : Locks s) {j : Fin n} {m : Nat}
    (hu : (s.threads j).task.uri = (s.threads i).task.uri) (hi : (s.threads i).mutex = some m)
    (hm : (s.threads j).mutex ≠ none) (hin : (s.threads i).pc.inside = true)
    (hin' : (s.threads j).pc.inside = true) : j = i := by
  obtain ⟨m', hm'⟩ := Option.ne_none_iff_exists'.mp hm
  obtain rfl := h.same hu hm' hi
  have h1 := ((h.thread i).held m').mpr ⟨hin, hi⟩
  have h2 := ((h.thread j).held m').mpr ⟨hin', hm'⟩
  rw [h1, Option.some.injEq] at h2
  exact h2.symm

end

end HttpC.L7
