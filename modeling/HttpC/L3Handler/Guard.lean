import HttpC.L3Handler.Discipline

/-!
# Where the lock is held

A handler holds the lock of its URI from the step that takes it to the
`unlock` of its exit, shared for GET and exclusive for PUT
(src/httpserver.c:271-390). `guarded` says so for every place a handler can
be at, whatever goes on around it; `held_between` says it by the labels of the
trace, which are what `Disciplined` counts.
-/
namespace HttpC.L3
open HttpC.L1.Util HttpC.L2 HttpC.Flock

/-- mirrors src/httpserver.c:279,346 -/
def lockMode : Request → Mode
  | .PUT => .EX
  | _ => .SH

/-- The mode a place of a handler needs. -/
def Pc.mode : Pc → Option Mode
  | .lock op => some op
  | .getOpen | .getStat | .getHead _ | .getSend _ _ => some .SH
  | .putAccess | .putOpen _ | .putTrunc _ | .putLeft _ | .putRecv _ _ => some .EX
  | _ => none

/-- Between taking and giving back the lock. -/
def Pc.inside : Pc → Bool
  | .new | .parse | .lock _ => false
  | .tail acts => decide (.unlock ∈ acts)
  | _ => true

/-- How often the lock will be given back. -/
def Pc.unlocks : Pc → Nat
  | .tail acts => acts.count .unlock
  | _ => 0

structure Guarded (E : Env) (w : Worker) : Prop where
  held : w.held = if w.pc.inside then some (E.lockOf w.conn.uri, lockMode w.conn.request) else none
  mode : ∀ m, w.pc.mode = some m → lockMode w.conn.request = m
  once : w.pc.unlocks ≤ 1

section
variable {E : Env} {w : Worker}

/-- A step on one side of the lock. -/
theorem Guarded.keep {w' : Worker} (h : Guarded E w) (hin : w'.pc.inside = w.pc.inside)
    (hc : w'.conn = w.conn) (hh : w'.held = w.held)
    (hm : w'.pc.mode = none ∨ w'.pc.mode = w.pc.mode) (ho : w'.pc.unlocks ≤ 1) : Guarded E w' := by
  refine ⟨?_, ?_, ho⟩
  · rw [hh, h.held, hin, hc]
  · intro m hm'
    rw [hc]
    rcases hm with hm | hm
    · rw [hm] at hm'; cases hm'
    · exact h.mode m (hm ▸ hm')

theorem Guarded.outside {w' : Worker} (hh : w'.held = none) (hin : w'.pc.inside = false)
    (hm : ∀ m, w'.pc.mode = some m → lockMode w'.conn.request = m) (ho : w'.pc.unlocks ≤ 1) :
    Guarded E w' :=
  ⟨by rw [hh, hin]; rfl, hm, ho⟩

theorem guarded_act {files : Files} {a : Act} {as : List Act} (h : Guarded E w)
    (hpc : w.pc = .tail (a :: as)) : Guarded E (w.act files a as).worker := by
  have honce := h.once
  have hheld := h.held
  rw [hpc] at hheld honce
  simp only [Pc.unlocks] at honce
  by_cases ha : a = .unlock
  · subst ha
    rw [List.count_cons_self] at honce
    have hnot : Act.unlock ∉ as := List.count_eq_zero.mp (by omega)
    exact .outside rfl (by simpa [Worker.act, Pc.inside] using hnot) (fun m hm => by cases hm)
      (by simp only [Worker.act, Pc.unlocks]; omega)
  · have hmem : (Act.unlock ∈ a :: as) ↔ Act.unlock ∈ as := by
      rw [List.mem_cons]; exact ⟨fun h => h.resolve_left (Ne.symm ha), .inr⟩
    rw [List.count_cons_of_ne ha] at honce
    simp only [Pc.inside, hmem] at hheld
    cases a
    case unlock => exact absurd rfl ha
    all_goals
      exact ⟨by simpa [Worker.act, Pc.inside] using hheld, fun m hm => (by cases hm), honce⟩

/-- The dispatch asks for the mode of its method. -/
theorem dispatch_mode (res : Option Response) (c : Conn UInt8) :
    (dispatch res c).inside = false ∧
      (∀ m, (dispatch res c).mode = some m → lockMode c.request = m) ∧
      (dispatch res c).unlocks ≤ 1 := by
  cases res with
  | some res =>
    simp only [dispatch]
    split
    · exact ⟨rfl, fun m h => (by cases h), by decide⟩
    · split <;> exact ⟨rfl, fun m h => (by cases h), by simp [exitPlain, Pc.unlocks]⟩
  | none =>
    cases hr : c.request <;> simp only [dispatch, hr]
    · exact ⟨rfl, fun m h => (by cases h; rfl), by decide⟩
    · exact ⟨rfl, fun m h => (by cases h; rfl), by decide⟩
    · exact ⟨rfl, fun m h => (by cases h), by decide⟩

/-- The exits under the lock give it back once. -/
theorem exits_inside (res : Response) :
    ((exitLocked res).inside = true ∧ (exitLocked res).unlocks ≤ 1) ∧
      ((exitOpen res).inside = true ∧ (exitOpen res).unlocks ≤ 1) ∧
      ((exitSent res).inside = true ∧ (exitSent res).unlocks ≤ 1) := by
  simp [exitLocked, exitOpen, exitSent, Pc.inside, Pc.unlocks]

/-- A step takes a lock that is free, gives it back, or leaves it as it is. -/
theorem step_held {free : Bytes → Mode → Bool} {files : Files} {o : Outcome}
    (ho : w.step E free files = some o) :
    o.worker.held = w.held ∨ o.worker.held = none ∨
      ∃ k m, free k m = true ∧ o.worker.held = some (k, m) := by
  cases hpc : w.pc with
  | new =>
    simp only [Worker.step, hpc] at ho
    split at ho <;> cases ho <;> exact .inl rfl
  | parse =>
    simp only [Worker.step, hpc] at ho
    cases ho
    exact .inl rfl
  | tail acts =>
    cases acts with
    | nil => simp [Worker.step, hpc] at ho
    | cons a as =>
      simp only [Worker.step, hpc, Option.some.injEq] at ho
      subst ho
      cases a
      case unlock => exact .inr (.inl rfl)
      all_goals exact .inl rfl
  | _ =>
    obtain ⟨acts, hfo⟩ := step_follows ho (by rw [hpc]; rfl)
    by_cases hacts : acts = [.lock]
    · obtain ⟨op, -, hf, hh⟩ := hfo.locked hacts
      exact .inr (.inr ⟨_, op, hf, hh⟩)
    · exact .inl (hfo.held hacts)

/-- The flow stays inside the lock once it is taken, in one mode. -/
theorem flow_inside {pc pc' : Pc} {acts : List Act} (h : Flow pc acts pc') (hne : acts ≠ [.lock]) :
    pc'.inside = pc.inside ∧ (pc'.mode = none ∨ pc'.mode = pc.mode) ∧ pc'.unlocks ≤ 1 := by
  cases h
  case lockShared | lockExclusive => exact absurd rfl hne
  all_goals simp [Pc.inside, Pc.mode, Pc.unlocks, exitPlain, exitLocked, exitOpen, exitSent]

theorem guarded_follows {free : Bytes → Mode → Bool} {o : Outcome} {acts : List Act}
    (h : Guarded E w) (hfo : Follows E free w w.pc o acts) : Guarded E o.worker := by
  by_cases hacts : acts = [.lock]
  · subst hacts
    obtain ⟨op, hpc, -, hheld⟩ := hfo.locked rfl
    have hm := h.mode op (by rw [hpc]; rfl)
    have hflow := hfo.flow
    rw [hpc] at hflow
    generalize hpc' : o.worker.pc = pc' at hflow
    cases hflow <;>
      exact ⟨by rw [hheld, hpc', hfo.conn, hm]; rfl,
        fun m hm' => by rw [hpc'] at hm'; cases hm'; rw [hfo.conn]; exact hm,
        by rw [hpc']; exact Nat.zero_le _⟩
  · obtain ⟨hin, hm, ho⟩ := flow_inside hfo.flow hacts
    exact h.keep hin hfo.conn (hfo.held hacts) hm ho

theorem guarded_step {free : Bytes → Mode → Bool} {files : Files} {o : Outcome} (h : Guarded E w)
    (ho : w.step E free files = some o) : Guarded E o.worker := by
  cases hpc : w.pc with
  | new =>
    have hh : w.held = none := by rw [h.held, hpc]; rfl
    simp only [Worker.step, hpc] at ho
    split at ho <;> cases ho <;>
      exact .outside hh rfl (fun m hm => by cases hm) (by simp [Pc.unlocks])
  | parse =>
    have hh : w.held = none := by rw [h.held, hpc]; rfl
    simp only [Worker.step, hpc] at ho
    cases ho
    obtain ⟨h1, h2, h3⟩ := dispatch_mode (connParse w.oracle.regcomp w.client).1
      (connParse w.oracle.regcomp w.client).2.1
    exact .outside hh h1 h2 h3
  | tail acts =>
    cases acts with
    | nil => simp [Worker.step, hpc] at ho
    | cons a as =>
      simp only [Worker.step, hpc, Option.some.injEq] at ho
      subst ho
      exact guarded_act h hpc
  | _ =>
    obtain ⟨acts, hfo⟩ := step_follows ho (by rw [hpc]; rfl)
    exact guarded_follows h hfo

end

/-- **The lock is held where the source says so**, in every state a handler
can reach. -/
theorem guarded {E : Env} {q : Incoming} {s : Solo} (h : (handler E q).Reachable s) :
    Guarded E s.worker := by
  have hI : (handler E q).Inductive fun s => Guarded E s.worker := by
    refine ⟨?_, ?_⟩
    · intro s hh
      subst hh
      exact .outside rfl rfl (fun m hm => by cases hm) (Nat.zero_le _)
    · intro s l s' hs hst
      obtain ⟨o, ho, rfl⟩ := Option.map_eq_some_iff.mp hst
      exact guarded_step hs ho
  exact hI.reachable s h

/-! ## The labels are the effects -/

/-- What is left of an exit takes no lock. -/
def Unlocking (w : Worker) : Prop := ∀ acts, w.pc = .tail acts → .lock ∉ acts

theorem Flow.unlocking {pc pc' : Pc} {acts as : List Act} (h : Flow pc acts pc') (hp : pc' = .tail as) :
    .lock ∉ as := by
  cases h <;> cases hp <;> simp

theorem unlocking_step {E : Env} {w : Worker} {free : Bytes → Mode → Bool} {files : Files} {o : Outcome}
    (h : Unlocking w) (ho : w.step E free files = some o) : Unlocking o.worker := by
  intro as hp
  cases hpc : w.pc with
  | new =>
    simp only [Worker.step, hpc] at ho
    split at ho <;> cases ho <;> cases hp
    simp
  | parse =>
    simp only [Worker.step, hpc] at ho
    cases ho
    rcases dispatch_cases (connParse w.oracle.regcomp w.client).1
      (connParse w.oracle.regcomp w.client).2.1 with ⟨hd, -⟩ | ⟨⟨res, hd⟩, -⟩ | ⟨⟨op, hd⟩, -⟩
    · rw [hd] at hp; cases hp; simp
    · rw [hd] at hp; cases hp; simp
    · rw [hd] at hp; cases hp
  | tail acts =>
    cases acts with
    | nil => simp [Worker.step, hpc] at ho
    | cons a acts =>
      simp only [Worker.step, hpc, Option.some.injEq] at ho
      subst ho
      have hnot := h _ hpc
      cases a <;> cases hp <;> exact fun hm => hnot (List.mem_cons_of_mem _ hm)
  | _ =>
    obtain ⟨acts, hfo⟩ := step_follows ho (by rw [hpc]; rfl)
    exact hfo.flow.unlocking hp

theorem Whole.locks {q : Incoming} {t : List Act} (h : Whole q t) :
    t.count .unlock = t.count .lock ∧ t.count .lock ≤ 1 := by
  rcases h with ⟨-, rfl⟩ | ⟨-, res, hs⟩
  · decide
  · cases hs <;> cases res <;> decide

/-- **The lock is held exactly between the two labels**: a handler holds it
from the `lock` in its trace to the `unlock`. -/
theorem held_between {E : Env} {q : Incoming} {s : Solo} (h : (handler E q).Reachable s) :
    s.worker.held.isSome = true ↔ .lock ∈ s.worker.trace ∧ .unlock ∉ s.worker.trace := by
  have hun : Unlocking s.worker := by
    have hI : (handler E q).Inductive fun s => Unlocking s.worker := by
      refine ⟨?_, fun s l s' hs hst => ?_⟩
      · intro s hs acts hp
        subst hs
        cases hp
      · obtain ⟨o, ho, rfl⟩ := Option.map_eq_some_iff.mp hst
        exact unlocking_step hs ho
    exact hI.reachable s h
  have hheld : s.worker.held.isSome = s.worker.pc.inside := by
    rw [(guarded h).held]
    cases s.worker.pc.inside <;> rfl
  rw [hheld]
  obtain ⟨-, hat⟩ := handler_planned h
  cases hpc : s.worker.pc with
  | new =>
    rw [hpc] at hat
    have ht : s.worker.trace = [] := congrArg Worker.trace (show s.worker = q.start from hat)
    simp [ht, Pc.inside]
  | parse =>
    rw [hpc] at hat
    have ht : s.worker.trace = [] := congrArg Worker.trace hat.1
    simp [ht, Pc.inside]
  | tail acts =>
    -- one `lock` and one `unlock` in all, and the first is not to come
    rw [hpc] at hat
    obtain ⟨heq, hone⟩ := Whole.locks hat
    have hnot := List.count_eq_zero.mpr (hun _ hpc)
    rw [List.count_append, List.count_append, hnot] at heq
    rw [List.count_append, hnot] at hone
    simp only [Pc.inside, decide_eq_true_eq, ← List.count_pos_iff, Nat.pos_iff_ne_zero, ne_eq, not_not]
    omega
  | _ =>
    rw [hpc] at hat
    simp [hat.1, Pc.past, Pc.inside]

/-! ## What a handler works for -/

/-- Past the dispatch of a GET or PUT, until the lock is given back. -/
def Pc.serving : Pc → Bool
  | .lock _ => true
  | pc => pc.inside

/-- The connection `conn_parse` accepted. -/
def Accepted (q : Incoming) (c : Conn UInt8) : Prop :=
  ∃ s', connParse q.oracle.regcomp q.client = (none, c, s') ∧ (c.request = .GET ∨ c.request = .PUT)

/-- Nothing past the dispatch changes the connection. -/
theorem step_conn {E : Env} {w : Worker} {free : Bytes → Mode → Bool} {files : Files} {o : Outcome}
    (ho : w.step E free files = some o) (hpc : w.pc ≠ .new ∧ w.pc ≠ .parse) :
    o.worker.conn = w.conn ∧ (o.worker.pc.serving = true → w.pc.serving = true) := by
  cases hpc' : w.pc with
  | new => exact absurd hpc' hpc.1
  | parse => exact absurd hpc' hpc.2
  | tail acts =>
    cases acts with
    | nil => simp [Worker.step, hpc'] at ho
    | cons a as =>
      simp only [Worker.step, hpc', Option.some.injEq] at ho
      subst ho
      cases a <;> exact ⟨rfl, fun h => by simp_all [Worker.act, Pc.serving, Pc.inside]⟩
  | _ =>
    obtain ⟨acts, hfo⟩ := step_follows ho (by rw [hpc']; rfl)
    exact ⟨hfo.conn, fun _ => rfl⟩

theorem dispatch_serving {res : Option Response} {c : Conn UInt8}
    (h : (dispatch res c).serving = true) :
    res = none ∧ (c.request = .GET ∨ c.request = .PUT) := by
  cases res with
  | some res =>
    exfalso
    revert h
    simp only [dispatch]
    split
    · decide
    · split <;> simp [exitPlain, Pc.serving, Pc.inside]
  | none =>
    cases hr : c.request with
    | GET => exact ⟨rfl, .inl rfl⟩
    | PUT => exact ⟨rfl, .inr rfl⟩
    | UNSUPPORTED =>
      simp only [dispatch, hr] at h
      revert h; decide

/-- **A handler serves the request it accepted.** -/
theorem serving_accepted {E : Env} {q : Incoming} {s : Solo} (h : (handler E q).Reachable s)
    (hs : s.worker.pc.serving = true) : Accepted q s.worker.conn := by
  have hI : (handler E q).Inductive fun s =>
      Planned q s ∧ (s.worker.pc.serving = true → Accepted q s.worker.conn) := by
    refine ⟨?_, ?_⟩
    · intro s hh
      subst hh
      exact ⟨⟨rfl, rfl⟩, fun h => by cases h⟩
    · intro s l s' hh hst
      obtain ⟨hp, ha⟩ := hh
      refine ⟨planned_step hp hst, fun hs' => ?_⟩
      obtain ⟨o, ho, rfl⟩ := Option.map_eq_some_iff.mp hst
      by_cases hn : s.worker.pc = .new
      · exfalso
        simp only [Worker.step, hn] at ho
        split at ho <;> cases ho <;> cases hs'
      by_cases hpa : s.worker.pc = .parse
      · -- the dispatch of an accepted request
        have hat := hp.2
        rw [hpa] at hat
        simp only [Worker.step, hpa] at ho
        cases ho
        obtain ⟨hres, hreq⟩ := dispatch_serving hs'
        rw [hat.1] at hres ⊢
        exact ⟨_, Prod.ext hres rfl, by rw [hat.1] at hreq; exact hreq⟩
      · obtain ⟨hc, hsv⟩ := step_conn ho ⟨hn, hpa⟩
        simp only at hs' ⊢
        rw [hc]
        exact ha (hsv hs')
  exact (hI.reachable s h).2 hs

end HttpC.L3
