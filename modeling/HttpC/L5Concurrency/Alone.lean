import HttpC.L3Handler.Lines
import HttpC.L3Handler.Stream
import HttpC.L5Concurrency.Server

/-!
# A request handled alone

`alone` is the server with one connection. Nobody holds a lock it could wait
for, so a handler left alone (`lone`) runs in it as it is
(`alone_of_lone`), and since a handler is deterministic it ends in one state
only (`alone_unique`). `exit_runs` takes a handler through an exit.
-/
namespace HttpC.L5
open HttpC.L1.Util HttpC.L2 HttpC.L3 HttpC.Flock

variable {E : Env}

/-! ## One worker, the others waiting -/

section
variable {n : Nat}

/-- Whether a worker gets a lock is up to the others. -/
theorem free_congr {s t : Sys n} {i : Fin n} (h : ∀ j, j ≠ i → (t.workers j).held = (s.workers j).held) :
    t.free i = s.free i := by
  funext k m
  have e : Free t.table i k m ↔ Free s.table i k m := by
    have ht : ∀ j, j ≠ i → t.table j = s.table j := h
    cases m
    · exact forall_congr' fun j => forall_congr' fun hj => by rw [ht j hj]
    · exact forall_congr' fun j => forall_congr' fun hj => by rw [ht j hj]
  unfold Sys.free
  simp only [e]

/-- **What a handler does on its own, it does in the server** while the other
workers stand still. -/
theorem server_run (reqs : Fin n → Incoming) (files : Files) {s : Sys n} {i : Fin n}
    {p : Worker × Files} {ls : List Unit}
    (h : (lone E (s.free i)).Run (s.workers i, s.files) ls p) :
    ∃ log ms, (server E reqs files).Run s ms ⟨p.2, log, Function.update s.workers i p.1⟩ ∧
      ∀ j ∈ ms, j = i := by
  generalize he : (s.workers i, s.files) = p₀ at h
  generalize hf : s.free i = free at h
  induction h generalizing s with
  | nil p =>
    subst he
    exact ⟨s.log, [], by rw [Function.update_eq_self]; exact .nil s, by simp⟩
  | @cons p p₁ p₂ l ls hst _ ih =>
    subst he hf
    obtain ⟨o, ho, rfl⟩ := Option.map_eq_some_iff.mp hst
    let s₁ : Sys n := ⟨o.files, s.log ++ o.line.toList.map (i, ·), Function.update s.workers i o.worker⟩
    have hstep : (server E reqs files).step s i s₁ := by
      show Sys.step E s i = some s₁
      unfold Sys.step
      rw [ho]; rfl
    have hfree : s₁.free i = s.free i := free_congr fun j hj => by
      simp only [s₁, Function.update_of_ne hj]
    obtain ⟨log, ms, hr, hms⟩ := ih (s := s₁) (by simp [s₁]) hfree
    simp only [s₁, Function.update_idem] at hr
    exact ⟨log, i :: ms, .cons hstep hr, by simpa using hms⟩

end

/-! ## One connection -/

/-- The server with nothing but this request. -/
abbrev alone (E : Env) (q : Incoming) (files : Files) : LTS (Sys 1) (Fin 1) :=
  server E (fun _ => q) files

theorem free_alone (s : Sys 1) : s.free 0 = fun _ _ => true := by
  funext k m
  apply decide_eq_true
  cases m <;> exact fun j hj => absurd (Subsingleton.elim j 0) hj

variable {q : Incoming} {files : Files}

/-- **What a handler does alone, the server does**; its lines are those of its
audits. -/
theorem alone_of_lone {w : Worker} {files' : Files} {ls : List Unit}
    (h : (lone E fun _ _ => true).Run (q.start, files) ls (w, files')) :
    ∃ s, (alone E q files).Reachable s ∧ s.files = files' ∧ s.workers 0 = w ∧
      s.linesOf 0 = (audits w.trace).map (auditLine q.parsed) := by
  rw [← free_alone ⟨files, [], fun _ => q.start⟩] at h
  obtain ⟨log', ms, hr, -⟩ := server_run (fun _ => q) files (s := ⟨files, [], fun _ => q.start⟩) h
  have hs : (alone E q files).Reachable _ := ⟨_, ms, rfl, hr⟩
  refine ⟨_, hs, rfl, by simp, ?_⟩
  have := (handler_lines (solo_reachable hs 0)).1
  simpa [Sys.solo] using this

/-- **One end.** -/
theorem alone_unique {s t : Sys 1} (hs : (alone E q files).Reachable s)
    (ht : (alone E q files).Reachable t) (hds : (s.workers 0).pc = .done)
    (hdt : (t.workers 0).pc = .done) : s = t := by
  obtain ⟨s₀, ls, rfl, hrs⟩ := hs
  obtain ⟨t₀, ms, rfl, hrt⟩ := ht
  have stuck : ∀ u : Sys 1, (u.workers 0).pc = .done → ∀ i, u.step E i = none := by
    intro u hu i
    obtain rfl : i = 0 := Subsingleton.elim _ _
    simp only [Sys.step, Worker.step, hu, Pc.done, Option.map_none]
  exact hrs.stuck_unique hrt (stuck s hds) (stuck t hdt)

/-- What the responses of an exit put on the socket. -/
def sentBy (acts : List Act) (sock : Dst UInt8) : Dst UInt8 :=
  (responses acts).foldl (fun d res => (connSendResponse d res).2) sock

/-- An exit, act by act: the files stay, the acts are recorded, the responses
are sent. -/
theorem exit_runs (free : Bytes → Mode → Bool) (files : Files) (acts : List Act) (w : Worker)
    (hpc : w.pc = .tail acts) :
    ∃ w' ls, (lone E free).Run (w, files) ls (w', files) ∧ w'.pc = .done ∧
      w'.trace = w.trace ++ acts ∧ w'.sock = sentBy acts w.sock := by
  induction acts generalizing w with
  | nil => exact ⟨w, [], .nil _, hpc, (List.append_nil _).symm, rfl⟩
  | cons a as ih =>
    have hfiles : (w.act files a as).files = files := by cases a <;> rfl
    have hstep : (lone E free).step (w, files) () ((w.act files a as).worker, files) := by
      simp only [lone, LTS.ofFn, Worker.step, hpc, Option.map_some, hfiles]
    obtain ⟨w', ls, hr, hd, ht, hs⟩ := ih (w.act files a as).worker (by cases a <;> rfl)
    refine ⟨w', _, .cons hstep hr, hd, ?_, ?_⟩
    · rw [ht]; cases a <;> simp [Worker.act]
    · rw [hs]; cases a <;> rfl

/-- The worker of a request that has been parsed. -/
def dispatched (q : Incoming) : Worker :=
  { q.start with
    conn := q.parsed, client := (connParse q.oracle.regcomp q.client).2.2,
    pc := dispatch (connParse q.oracle.regcomp q.client).1 q.parsed }

theorem parse_step (free : Bytes → Mode → Bool) (files : Files) :
    (lone E free).step ({ q.start with conn := connNew, pc := .parse }, files) ()
      (dispatched q, files) := by
  simp only [lone, LTS.ofFn, Worker.step, Incoming.start, Option.map_some, dispatched, Incoming.parsed]

/-- The way to the dispatch. -/
theorem parse_runs (free : Bytes → Mode → Bool) (files : Files) (hc : q.oracle.calloc = true) :
    (lone E free).Run (q.start, files) [(), ()] (dispatched q, files) := by
  refine .cons ?_ (.single (parse_step free files))
  simp only [lone, LTS.ofFn, Worker.step, Incoming.start, hc, if_true, Option.map_some]

/-- **A refused request goes to its end by itself**, from wherever it is. -/
theorem refused_ends {res : Response} (free : Bytes → Mode → Bool) (files : Files)
    (hc : q.oracle.calloc = true)
    (hd : dispatch (connParse q.oracle.regcomp q.client).1 q.parsed = exitPlain res) {w : Worker}
    (hpl : PlannedAt q w w.pc) (h : RefusedAt res w w.pc) :
    ∃ w' ls, (lone E free).Run (w, files) ls (w', files) ∧ w'.pc = .done ∧
      w'.trace = [.respond res, .audit res, .closeConn] := by
  have hdis : (dispatched q).pc = .tail [.respond res, .audit res, .closeConn] := hd
  obtain ⟨v, ls, hr, hdone, htr, -⟩ := exit_runs (E := E) free files _ (dispatched q) hdis
  have htr' : v.trace = [.respond res, .audit res, .closeConn] := htr
  cases hpc : w.pc with
  | new =>
    rw [hpc] at hpl
    rw [show w = q.start from hpl]
    exact ⟨v, _, (parse_runs free files hc).append hr, hdone, htr'⟩
  | parse =>
    rw [hpc] at hpl
    rw [hpl.1]
    exact ⟨v, _, .cons (parse_step free files) hr, hdone, htr'⟩
  | tail acts =>
    rw [hpc] at h
    obtain ⟨v, ls, hr, hdone, htr, -⟩ := exit_runs (E := E) free files acts w hpc
    exact ⟨v, ls, hr, hdone, htr.trans h⟩
  | _ => rw [hpc] at h; exact h.elim

/-- The one run of a request refused without a lock. -/
theorem refused_alone (files : Files) {res : Response} (hc : q.oracle.calloc = true)
    (hd : dispatch (connParse q.oracle.regcomp q.client).1 q.parsed = exitPlain res) :
    ∃ s, (alone E q files).Reachable s ∧ s.linesOf 0 = [auditLine q.parsed res] := by
  obtain ⟨w, ls, hr, -, htr⟩ := refused_ends (E := E) (fun _ _ => true) files hc hd (w := q.start)
    rfl trivial
  obtain ⟨s, hs, -, -, hl⟩ := alone_of_lone hr
  exact ⟨s, hs, by rw [hl, htr]; rfl⟩

end HttpC.L5
