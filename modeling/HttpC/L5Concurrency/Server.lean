import HttpC.Core.LTS
import HttpC.L3Handler.Guard

/-!
# Any number of connections at once

`server E reqs files` runs one worker for each request, in any interleaving of
their steps, over one file system, one lock table and one audit log. `flock`
is a correct reader/writer lock on lockfiles: the step that takes a lock is
enabled only when the table lets it. Appending to the log is one step
(src/log.c serialises it with a mutex and flushes inside). A SIGTERM ends the
process between two steps, so every reachable state is one it may end in.

Lock state and place in the source go together (`Guarded`), which gives mutual
exclusion between holders of one lockfile (`server_locks`).
-/
namespace HttpC.L5
open HttpC.L1.Util HttpC.L2 HttpC.L3 HttpC.Flock

structure Sys (n : Nat) where
  files : Files
  log : List (Fin n × LogLine)
  workers : Fin n → Worker

namespace Sys
variable {n : Nat}

/-- Who holds which lockfile. -/
def table (s : Sys n) : Fin n → Option (Bytes × Mode) := fun i => (s.workers i).held

def free (s : Sys n) (i : Fin n) (k : Bytes) (m : Mode) : Bool := decide (Free s.table i k m)

/-- One step of worker `i`. -/
def step (E : Env) (s : Sys n) (i : Fin n) : Option (Sys n) :=
  ((s.workers i).step E (s.free i) s.files).map fun o =>
    { files := o.files
      log := s.log ++ o.line.toList.map (i, ·)
      workers := Function.update s.workers i o.worker }

/-- The audit lines of one request. -/
def linesOf (s : Sys n) (i : Fin n) : List LogLine :=
  s.log.filterMap fun e => if e.1 = i then some e.2 else none

end Sys

variable {n : Nat}

def server (E : Env) (reqs : Fin n → Incoming) (files : Files) : LTS (Sys n) (Fin n) :=
  .ofFn (· = ⟨files, [], fun i => (reqs i).start⟩) (Sys.step E)

theorem step_inv {E : Env} {s s' : Sys n} {i : Fin n} (h : s.step E i = some s') :
    ∃ o, (s.workers i).step E (s.free i) s.files = some o ∧ s'.files = o.files ∧
      s'.log = s.log ++ o.line.toList.map (i, ·) ∧
      s'.workers = Function.update s.workers i o.worker := by
  obtain ⟨o, ho, rfl⟩ := Option.map_eq_some_iff.mp h
  exact ⟨o, ho, rfl, rfl, rfl⟩

/-! ## One worker of the server is one handler -/

/-- What the server's state says about one connection. -/
def Sys.solo (s : Sys n) (i : Fin n) : Solo := ⟨s.workers i, s.linesOf i⟩

/-- A step of the server is a step of one handler and leaves the others
alone. -/
theorem solo_step {E : Env} {s s' : Sys n} {i : Fin n} (h : s.step E i = some s') (j : Fin n) :
    if j = i then (s.solo j).step E (s.free i, s.files) = some (s'.solo j)
    else s'.solo j = s.solo j := by
  obtain ⟨o, ho, -, hl, hw⟩ := step_inv h
  split
  · rename_i hji
    subst hji
    have e : s'.linesOf j = s.linesOf j ++ o.line.toList := by
      unfold Sys.linesOf
      rw [hl, List.filterMap_append, List.filterMap_map]
      cases o.line <;> simp
    simp only [Sys.solo, Solo.step, ho, Option.map_some, hw, Function.update_self, e]
  · rename_i hji
    have e : s'.linesOf j = s.linesOf j := by
      unfold Sys.linesOf
      rw [hl, List.filterMap_append, List.filterMap_map]
      cases o.line <;> simp [Ne.symm hji]
    simp only [Sys.solo, hw, Function.update_of_ne hji, e]

/-- **Every connection of the server runs a handler**, in an environment the
others make. -/
theorem solo_reachable {E : Env} {reqs : Fin n → Incoming} {files : Files} {s : Sys n}
    (h : (server E reqs files).Reachable s) (j : Fin n) :
    (handler E (reqs j)).Reachable (s.solo j) := by
  have hI : (server E reqs files).Inductive fun s =>
      ∀ j, (handler E (reqs j)).Reachable (s.solo j) := by
    refine ⟨?_, ?_⟩
    · intro s hh j
      subst hh
      exact ⟨_, [], rfl, .nil _⟩
    · intro s i s' hs hst j
      have := solo_step hst j
      split at this
      · exact (hs j).step this
      · rw [this]; exact hs j
  exact hI.reachable s h j

/-! ## Locks -/

theorem server_guarded {E : Env} {reqs : Fin n → Incoming} {files : Files} {s : Sys n}
    (h : (server E reqs files).Reachable s) (i : Fin n) : Guarded E (s.workers i) :=
  guarded (solo_reachable h i)

theorem update_table (s : Sys n) (i : Fin n) (w : Worker) :
    (fun j => (Function.update s.workers i w j).held) = Function.update s.table i w.held := by
  funext j
  by_cases hj : j = i
  · subst hj; simp
  · simp [Function.update_of_ne hj, Sys.table]

/-- **The lock table stays that of a reader/writer lock.** -/
theorem server_locks {E : Env} {reqs : Fin n → Incoming} {files : Files} {s : Sys n}
    (h : (server E reqs files).Reachable s) : Ok s.table := by
  have hI : (server E reqs files).Inductive fun s => Ok s.table := by
    refine ⟨?_, ?_⟩
    · intro s hh i j k m m' _ hi
      subst hh
      cases hi
    · intro s i s' hs hst
      obtain ⟨o, ho, -, -, hw⟩ := step_inv hst
      have htab : s'.table = Function.update s.table i o.worker.held := by
        rw [← update_table, ← hw]; rfl
      rw [htab]
      rcases step_held ho with h | h | ⟨k, m, hf, h⟩
      · rw [h, show (s.workers i).held = s.table i from rfl, Function.update_eq_self]
        exact hs
      · rw [h]; exact hs.release
      · rw [h]; exact hs.acquire (of_decide_eq_true hf)
  exact hI.reachable s h

/-- **Mutual exclusion.** A PUT inside its lock is alone on its lockfile. -/
theorem put_alone {E : Env} {reqs : Fin n → Incoming} {files : Files} {s : Sys n}
    (h : (server E reqs files).Reachable s) {i j : Fin n}
    (hi : (s.workers i).pc.inside = true) (hput : (s.workers i).conn.request = .PUT)
    (hj : (s.workers j).pc.inside = true)
    (hk : E.lockOf (s.workers i).conn.uri = E.lockOf (s.workers j).conn.uri) : j = i := by
  have hti : s.table i = some (E.lockOf (s.workers i).conn.uri, .EX) := by
    rw [Sys.table, (server_guarded h i).held, hi, hput]; rfl
  have htj : s.table j = some (E.lockOf (s.workers i).conn.uri,
      lockMode (s.workers j).conn.request) := by
    rw [Sys.table, (server_guarded h j).held, hj, hk]; rfl
  exact (server_locks h).alone hti htj

end HttpC.L5
