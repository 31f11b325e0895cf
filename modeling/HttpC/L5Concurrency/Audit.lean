import HttpC.L5Concurrency.Server

/-!
# When the audit line is there

The handlers send the response first and audit it then (src/httpserver.c:
every exit; test_scripts/test_workload.sh:54-57 documents the order): a client
may hold its complete response while the line is still to come
(`answered_before_audited`). What the server does guarantee is the line before
it gives back the lock and before it closes the connection, which is what the
test drivers wait for: `audited_before_closed`.

The log only grows, and a request that has not started has no line in it; so a
request that starts after another one's connection was closed is logged behind
it. A SIGTERM may end the process in any reachable state.
-/
namespace HttpC.L5
open HttpC.L1.Util HttpC.L2 HttpC.L3 HttpC.Flock

variable {n : Nat}

/-! ## The order within one trace -/

/-- What comes before `x` in the whole comes before it in a part that has
`x`. -/
theorem before_mem {x y : Act} {a b : List Act} (h : Before y x (a ++ b)) (hx : x ∈ a) : y ∈ a := by
  unfold Before at h
  induction a with
  | nil => cases hx
  | cons z a ih =>
    rw [List.cons_append, List.takeWhile_cons] at h
    split at h
    · rename_i hz
      rcases List.mem_cons.mp h with rfl | h
      · exact List.mem_cons_self
      · rcases List.mem_cons.mp hx with rfl | hx
        · simp at hz
        · exact List.mem_cons_of_mem _ (ih h hx)
    · cases h

theorem audits_ne_nil {res : Response} {t : List Act} (h : .audit res ∈ t) : audits t ≠ [] := by
  obtain ⟨a, b, rfl⟩ := List.append_of_mem h
  simp [audits_append, audits]

theorem Sequence.audited {res : Response} {t : List Act} (h : Sequence res t) :
    Before (.audit res) .closeConn t ∧ (.unlock ∈ t → Before (.audit res) .unlock t) := by
  cases h <;> simp [Before]

/-- Nothing is unlocked or closed on the way to an exit. -/
theorem past_quiet (pc : Pc) : Act.unlock ∉ pc.past ∧ Act.closeConn ∉ pc.past := by
  cases pc <;> simp [Pc.past]

/-- An answered request that was unlocked or closed has been audited. -/
theorem planned_audited {q : Incoming} {s : Solo} (h : Planned q s) (hq : ¬ Silent q)
    (ht : .unlock ∈ s.worker.trace ∨ .closeConn ∈ s.worker.trace) : s.log ≠ [] := by
  obtain ⟨hl, hat⟩ := h
  have key : audits s.worker.trace ≠ [] := by
    cases hpc : s.worker.pc with
    | tail acts =>
      rw [hpc] at hat
      rcases hat with ⟨hs, -⟩ | ⟨-, res, hseq⟩
      · exact absurd hs hq
      · obtain ⟨h1, h2⟩ := Sequence.audited hseq
        rcases ht with ht | ht
        · exact audits_ne_nil (before_mem (h2 (List.mem_append_left _ ht)) ht)
        · exact audits_ne_nil (before_mem h1 ht)
    | new =>
      rw [hpc] at hat
      rw [show s.worker = q.start from hat] at ht
      rcases ht with ht | ht <;> cases ht
    | parse =>
      rw [hpc] at hat
      rw [hat.1] at ht
      rcases ht with ht | ht <;> cases ht
    | _ =>
      rw [hpc] at hat
      rw [hat.1] at ht
      rcases ht with ht | ht
      · exact absurd ht (past_quiet _).1
      · exact absurd ht (past_quiet _).2
  intro h0
  rw [h0, Logged, List.map_nil, eq_comm, List.map_eq_nil_iff] at hl
  exact key hl

/-! ## The log only grows -/

theorem log_step {E : Env} {s s' : Sys n} {i : Fin n} (h : s.step E i = some s') :
    s.log <+: s'.log := by
  obtain ⟨o, -, -, hl, -⟩ := step_inv h
  exact ⟨_, hl.symm⟩

theorem log_run {E : Env} {reqs : Fin n → Incoming} {files : Files} {s s' : Sys n}
    {ls : List (Fin n)} (h : (server E reqs files).Run s ls s') : s.log <+: s'.log := by
  induction h with
  | nil => exact List.prefix_refl _
  | cons hst _ ih => exact (log_step hst).trans ih

theorem server_planned {E : Env} {reqs : Fin n → Incoming} {files : Files} {s : Sys n}
    (h : (server E reqs files).Reachable s) (i : Fin n) : Planned (reqs i) (s.solo i) :=
  handler_planned (solo_reachable h i)

theorem mem_linesOf {s : Sys n} {i : Fin n} {l : LogLine} : l ∈ s.linesOf i ↔ (i, l) ∈ s.log := by
  simp only [Sys.linesOf, List.mem_filterMap]
  constructor
  · intro hh
    obtain ⟨⟨j, l'⟩, hm, he⟩ := hh
    split at he
    · rename_i hj; simp only at hj he; cases he; subst hj; exact hm
    · cases he
  · intro h; exact ⟨(i, l), h, by simp⟩

/-- A request that has not started is not in the log. -/
theorem unstarted_unlogged {E : Env} {reqs : Fin n → Incoming} {files : Files} {s : Sys n}
    (h : (server E reqs files).Reachable s) {j : Fin n} (hj : (s.workers j).pc = .new)
    (l : LogLine) : (j, l) ∉ s.log := by
  intro hm
  obtain ⟨hl, hat⟩ := server_planned h j
  rw [show (s.solo j).worker.pc = .new from hj] at hat
  rw [show (s.solo j).worker = (reqs j).start from hat] at hl
  have hnil : s.linesOf j = [] := List.map_eq_nil_iff.mp hl
  have := mem_linesOf.mpr hm
  rw [hnil] at this
  cases this

/-! ## Audited before closed -/

/-- The server has given back the lock of request `i`, or closed its
connection. -/
def Settled (s : Sys n) (i : Fin n) : Prop :=
  .unlock ∈ (s.workers i).trace ∨ .closeConn ∈ (s.workers i).trace

/-- **Audited before closed.** In every reachable state, a request that was
answered and settled is in the log; and one that had not started by then is
only ever logged behind it. -/
theorem audited_before_closed (E : Env) (reqs : Fin n → Incoming) (files : Files) (s : Sys n)
    (hs : (server E reqs files).Reachable s) (i : Fin n) (hq : ¬ Silent (reqs i))
    (hi : Settled s i) :
    (∃ l, (i, l) ∈ s.log) ∧
      ∀ j ls t, (s.workers j).pc = .new → (server E reqs files).Run s ls t →
        ∀ pre l post, t.log = pre ++ (j, l) :: post → ∃ l', (i, l') ∈ pre := by
  have hlog : s.linesOf i ≠ [] := planned_audited (server_planned hs i) hq hi
  obtain ⟨l, hl⟩ := List.exists_mem_of_ne_nil _ hlog
  have hmem := mem_linesOf.mp hl
  refine ⟨⟨l, hmem⟩, fun j ls t hj hrun pre l' post ht => ⟨l, ?_⟩⟩
  obtain ⟨rest, hrest⟩ := log_run hrun
  -- the line of `j` is not in the log of `s`, so that log lies in front of it
  have hpre : s.log <+: pre := by
    rcases List.append_eq_append_iff.mp (hrest.trans ht) with ⟨a, ha, -⟩ | ⟨c, hc, hc'⟩
    · exact ⟨a, ha.symm⟩
    · cases c with
      | nil => rw [List.append_nil] at hc; exact ⟨[], by rw [hc, List.append_nil]⟩
      | cons x c =>
        rw [List.cons_append, List.cons.injEq] at hc'
        exact absurd (by rw [hc, ← hc'.1]; simp) (unstarted_unlogged hs hj l')
  exact hpre.subset hmem

/-- One `GET /a` in an empty directory, run to its end. -/
theorem audited_before_closed_getA : ∃ s, (server (n := 1) ⟨[], 1, 2⟩ (fun _ => getA)
      fun _ => none).Reachable s ∧ ¬ Silent getA ∧ Settled s 0 ∧ ∃ l, (0, l) ∈ s.log := by
  have hrun : ((LTS.exec (Sys.step ⟨[], 1, 2⟩) ⟨fun _ => none, [], fun _ : Fin 1 => getA.start⟩
      (List.replicate 8 0)).map fun s => decide (Act.closeConn ∈ (s.workers 0).trace)) =
        some true := by decide
  obtain ⟨s, hs, hd⟩ := Option.map_eq_some_iff.mp hrun
  have hr : (server (n := 1) ⟨[], 1, 2⟩ (fun _ => getA) fun _ => none).Reachable s :=
    ⟨_, _, rfl, LTS.run_of_exec _ _ _ hs⟩
  have hq : ¬ Silent getA := by unfold Silent; decide
  exact ⟨s, hr, hq, .inr (of_decide_eq_true hd),
    (audited_before_closed _ _ _ s hr 0 hq (.inr (of_decide_eq_true hd))).1⟩

/-- Status line, headers and all the body bytes the headers announce. -/
def Complete (b : Bytes) : Prop :=
  (∃ res, b = responseText res) ∨ ∃ content, b = fileHeader content.length ++ content

/-- **Counterexample** to auditing before answering: two `GET /a` one after the
other; the first has its whole 404 on the wire, the second is served from
beginning to end, and only the second is in the log. -/
theorem answered_before_audited :
    ¬ ∀ (n : Nat) (E : Env) (reqs : Fin n → Incoming) (files : Files) (s : Sys n),
      (server E reqs files).Reachable s → ∀ i, Complete (s.workers i).sock.written →
        ∃ l, (i, l) ∈ s.log := by
  intro h
  have hrun : ((LTS.exec (Sys.step ⟨[], 1, 2⟩) ⟨fun _ => none, [], fun _ : Fin 2 => getA.start⟩
      (List.replicate 5 0 ++ List.replicate 8 1)).map fun s =>
        ((s.workers 0).sock.written, s.log.map Prod.fst)) =
      some (responseText .NOT_FOUND, [1]) := by decide
  obtain ⟨s, hs, hd⟩ := Option.map_eq_some_iff.mp hrun
  rw [Prod.mk.injEq] at hd
  obtain ⟨l, hl⟩ := h 2 ⟨[], 1, 2⟩ (fun _ => getA) (fun _ => none) s
    ⟨_, _, rfl, LTS.run_of_exec _ _ _ hs⟩ 0 (.inl ⟨_, hd.1⟩)
  have h01 : (0 : Fin 2) ∈ s.log.map Prod.fst := List.mem_map_of_mem hl
  rw [hd.2] at h01
  revert h01; decide

end HttpC.L5
