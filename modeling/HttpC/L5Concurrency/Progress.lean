import Mathlib.Data.DFinsupp.WellFounded
import Mathlib.Data.Prod.Lex
import HttpC.Core.Inevitable
import HttpC.L5Concurrency.Server

/-!
# Every connection comes to an end

A handler waits for nobody but at its `flock` (`blocked`), and while it waits
it holds nothing; whoever holds a lock is inside its critical section, where
nothing waits. So of any number of connections some one can go on until all
are done (`server_goes_on`), although each holds one lock and waits for
another's.

Every step takes a handler on: to a later place in the source, through one
more round of `pass_bytes`, or through one more act of an exit
(`step_rank`). The ranks of all handlers together are well founded, so no run
is infinite, whatever the scheduler does.

`read()` and `write()` always return here: the server arms a five second
timeout in both directions on every connection (src/listener.c:63-75).
-/
namespace HttpC.L5
open HttpC.L1.Util HttpC.L2 HttpC.L3 HttpC.Flock

/-! ## How far a handler is from its end -/

def Pc.phase : Pc → Nat
  | .new => 9
  | .parse => 8
  | .lock _ => 7
  | .getOpen | .putAccess => 6
  | .getStat | .putOpen _ => 5
  | .getHead _ | .putTrunc _ => 4
  | .putLeft _ => 3
  | .getSend _ _ | .putRecv _ _ => 2
  | .tail _ => 1

/-- What a loop has left to do. -/
def Pc.left (c : Conn UInt8) : Pc → Nat
  | .getSend count total => count - total
  | .putRecv _ total => remaining c - total
  | .tail acts => acts.length
  | _ => 0

def rank (w : Worker) : Nat ×ₗ Nat := toLex (Pc.phase w.pc, Pc.left w.conn w.pc)

section
variable {E : Env} {free : Bytes → Mode → Bool} {files : Files} {w : Worker} {o : Outcome}

theorem rank_of_phase {w w' : Worker} (h : Pc.phase w'.pc < Pc.phase w.pc) : rank w' < rank w :=
  Prod.Lex.toLex_lt_toLex.mpr (.inl h)

theorem rank_of_left {w w' : Worker} (h : Pc.phase w'.pc = Pc.phase w.pc)
    (hl : Pc.left w'.conn w'.pc < Pc.left w.conn w.pc) : rank w' < rank w :=
  Prod.Lex.toLex_lt_toLex.mpr (.inr ⟨h, hl⟩)

/-- A round that goes on has less to do. -/
theorem passRound_again {α : Type} {n total t : Nat} {s s' : Src α} {d d' : Dst α}
    (h : passRound n s d total = (.again t, s', d')) : n - t < n - total := by
  obtain ⟨c, q, hP, hres⟩ := passRound_spec n s d total
  rw [h] at hP hres
  obtain ⟨rfl, -, hne⟩ := hres
  have hlen := List.length_pos_of_ne_nil hne
  have hle := hP.le
  omega

theorem dispatch_phase (res : Option Response) (c : Conn UInt8) : Pc.phase (dispatch res c) < 8 := by
  unfold dispatch exitPlain
  repeat' split
  all_goals simp [Pc.phase]

/-- The flow goes on in the source, the two loops apart. -/
theorem flow_phase {pc pc' : Pc} {acts : List Act} (h : Flow pc acts pc') :
    Pc.phase pc' < Pc.phase pc ∨ (∃ count t t', pc = .getSend count t ∧ pc' = .getSend count t') ∨
      ∃ ex t t', pc = .putRecv ex t ∧ pc' = .putRecv ex t' := by
  cases h
  case getRound count t t' => exact .inr (.inl ⟨count, t, t', rfl, rfl⟩)
  case putRound ex t t' => exact .inr (.inr ⟨ex, t, t', rfl, rfl⟩)
  all_goals exact .inl (by simp [Pc.phase, exitPlain, exitLocked, exitOpen, exitSent])

/-- **Every step takes a handler closer to its end.** -/
theorem step_rank (ho : w.step E free files = some o) : rank o.worker < rank w := by
  cases hpc : w.pc with
  | new =>
    apply rank_of_phase
    simp only [Worker.step, hpc] at ho
    split at ho <;> cases ho <;> simp [hpc, Pc.phase]
  | parse =>
    apply rank_of_phase
    simp only [Worker.step, hpc] at ho
    cases ho
    rw [hpc]
    exact dispatch_phase _ _
  | tail acts =>
    cases acts with
    | nil => simp [Worker.step, hpc] at ho
    | cons a as =>
      simp only [Worker.step, hpc, Option.some.injEq] at ho
      subst ho
      have hw : (w.act files a as).worker.pc = .tail as := by cases a <;> rfl
      exact rank_of_left (by rw [hw, hpc]; rfl) (by rw [hw, hpc]; simp [Pc.left])
  | _ =>
    obtain ⟨acts, hfo⟩ := step_follows ho (by rw [hpc]; rfl)
    rcases flow_phase hfo.flow with h | ⟨count, t, t', he, he'⟩ | ⟨ex, t, t', he, he'⟩
    · exact rank_of_phase h
    · -- one more round of `pass_bytes` to the client
      refine rank_of_left (by rw [he, he']; rfl) ?_
      rw [he, he']
      simp only [Worker.step, he] at ho
      split at ho
      · cases ho; cases he'
      · rename_i hr
        cases ho
        cases he'
        exact passRound_again hr
    · -- one more round of `pass_bytes` from the client
      refine rank_of_left (by rw [he, he']; rfl) ?_
      rw [hfo.conn, he, he']
      simp only [Worker.step, he] at ho
      split at ho
      · cases ho
        unfold putExit at he'
        split at he' <;> cases he'
      · rename_i hr
        cases ho
        cases he'
        exact passRound_again hr

/-- **A handler waits only for its lock.** -/
theorem blocked (h : w.step E free files = none) :
    w.pc = .done ∨ ∃ op, w.pc = .lock op ∧ free (E.lockOf w.conn.uri) op = false := by
  cases hpc : w.pc with
  | tail acts =>
    cases acts with
    | nil => exact .inl rfl
    | cons a as => simp [Worker.step, hpc] at h
  | lock op =>
    simp only [Worker.step, hpc] at h
    split at h
    · cases h
    · split at h
      · cases h
      · rename_i hf
        exact .inr ⟨op, rfl, by simpa using hf⟩
  | _ =>
    simp only [Worker.step, hpc] at h
    repeat' split at h
    all_goals cases h

end

/-! ## The server -/

variable {n : Nat} {E : Env} {reqs : Fin n → Incoming} {files : Files} {s : Sys n}

/-- A lock that is not free has a holder. -/
theorem holder_of_not_free {ι κ : Type} {t : ι → Option (κ × Mode)} {i : ι} {k : κ} {m : Mode}
    (h : ¬ Free t i k m) : ∃ j m', t j = some (k, m') := by
  by_contra hn
  have hz : ∀ j m', t j ≠ some (k, m') := fun j m' hj => hn ⟨j, m', hj⟩
  apply h
  cases m with
  | SH => intro j _; exact hz j .EX
  | EX => intro j _; exact ⟨hz j .SH, hz j .EX⟩

/-- `j` is `i`, or inside the critical section `i` waits for. -/
def Ahead (E : Env) (s : Sys n) (i j : Fin n) : Prop :=
  j = i ∨ (s.workers j).pc.inside = true ∧ (∃ op, (s.workers i).pc = .lock op) ∧
    E.lockOf (s.workers j).conn.uri = E.lockOf (s.workers i).conn.uri

/-- **No deadlock.** While a connection is not done, it can go on, or one that
is inside its critical section can. -/
theorem server_goes_on (h : (server E reqs files).Reachable s) {i : Fin n}
    (hi : (s.workers i).pc ≠ .done) : ∃ j, Ahead E s i j ∧ ∃ s', s.step E j = some s' := by
  have can : ∀ {j : Fin n}, (s.workers j).step E (s.free j) s.files ≠ none →
      ∃ s', s.step E j = some s' := by
    intro j hj
    obtain ⟨o, ho⟩ := Option.ne_none_iff_exists'.mp hj
    exact ⟨_, by unfold Sys.step; rw [ho]; rfl⟩
  cases hst : (s.workers i).step E (s.free i) s.files with
  | some o => exact ⟨i, .inl rfl, can (by rw [hst]; simp)⟩
  | none =>
    rcases blocked hst with hd | ⟨op, hpc, hf⟩
    · exact absurd hd hi
    -- someone holds the lock, so it is inside its critical section
    obtain ⟨j, m, hj⟩ := holder_of_not_free (of_decide_eq_false hf)
    have hheld : (s.workers j).held = some _ := hj
    rw [(server_guarded h j).held] at hheld
    split at hheld
    case isFalse => cases hheld
    rename_i hin
    have hlock := congrArg Prod.fst (Option.some.inj hheld)
    refine ⟨j, .inr ⟨hin, ⟨op, hpc⟩, hlock⟩, can fun hnone => ?_⟩
    rcases blocked hnone with hd | ⟨op', hl, -⟩
    · rw [hd] at hin; cases hin
    · rw [hl] at hin; cases hin

/-- The ranks of all connections. -/
def ranks (s : Sys n) : Fin n → Nat ×ₗ Nat := fun i => rank (s.workers i)

theorem ranks_step {s' : Sys n} {i : Fin n} (h : s.step E i = some s') : ranks s' < ranks s := by
  obtain ⟨o, ho, -, -, hw⟩ := step_inv h
  have hr : ranks s' = Function.update (ranks s) i (rank o.worker) := by
    funext j
    by_cases hj : j = i
    · subst hj; simp [ranks, hw]
    · simp [ranks, hw, Function.update_of_ne hj]
  rw [hr]
  exact update_lt_self_iff.mpr (step_rank ho)

def AllDone (s : Sys n) : Prop := ∀ i, (s.workers i).pc = .done

/-- **Every connection comes to an end**, from every reachable state, in every
interleaving and without any fairness: the server is never stuck before all
connections are done, and no run goes on for ever. -/
theorem connections_end (E : Env) (reqs : Fin n → Incoming) (files : Files) (s : Sys n)
    (h : (server E reqs files).Reachable s) : (server E reqs files).Inevitable AllDone s := by
  refine LTS.Inevitable.of_rank (P := (server E reqs files).Reachable) ranks
    (fun s i s' hs hst => hs.step hst) (fun s i s' _ hst => ranks_step hst) ?_ h
  intro s hs hnot
  obtain ⟨i, hi⟩ := not_forall.mp hnot
  obtain ⟨j, -, s', hst⟩ := server_goes_on hs hi
  exact ⟨j, s', hst⟩

/-- Two readers of one file, both inside their lock. -/
theorem connections_end_two : ∃ s, (server (n := 2) ⟨[], 1, 2⟩ (fun _ => getA) fun _ => none).Reachable s ∧
    (s.workers 0).pc = .getOpen ∧ (s.workers 1).pc = .getOpen ∧
    (server (n := 2) ⟨[], 1, 2⟩ (fun _ => getA) fun _ => none).Inevitable AllDone s := by
  have hrun : ((LTS.exec (Sys.step ⟨[], 1, 2⟩) (⟨fun _ => none, [], fun _ => getA.start⟩ : Sys 2)
      [0, 1, 0, 1, 0, 1]).map fun s => ((s.workers 0).pc, (s.workers 1).pc)) =
        some (.getOpen, .getOpen) := by decide
  obtain ⟨s, hs, hd⟩ := Option.map_eq_some_iff.mp hrun
  simp only [Prod.mk.injEq] at hd
  have hr : (server (n := 2) ⟨[], 1, 2⟩ (fun _ => getA) fun _ => none).Reachable s :=
    ⟨_, _, rfl, LTS.run_of_exec _ _ _ hs⟩
  exact ⟨s, hr, hd.1, hd.2, connections_end _ _ _ s hr⟩

end HttpC.L5
