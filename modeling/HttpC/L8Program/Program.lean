import HttpC.L4Pool.Drain
import HttpC.L5Concurrency.Progress

/-!
# The whole program: dispatcher, pool, handlers and descriptors

src/httpserver.c:200-269. `main` creates the pool and then accepts connections
for ever, submitting each descriptor to the pool (`threadpool_submit` blocks
while the ring is full); a worker that pops a descriptor runs
`handle_connection` on it, which closes it. Here the pool (`L4.Pool`), whose
handlers took one step, and the handlers (`L5.Sys`), which nobody started, run
together, with what connects them in the kernel: the table of open
descriptors.

A descriptor is an `int` that `accept` may hand out again as soon as it is
closed, so it may be in the queue a second time while the worker that closed
it is still on its way to `queue_pop`. Nothing but the order of the steps
ensures that a worker's descriptor is still that of the connection it was
accepted for. `accept` returns any descriptor that is not open (the process
has others besides connections, which only narrows the choice).

`accepted` are the descriptors in the order of the accepts, so connection
number `c` is the `c`-th of them; `served` records which worker ran the
handler for which connection. `accept` and the two `setsockopt` may fail, which
the dispatcher answers by trying again.
-/
namespace HttpC.L8
open HttpC.L3 HttpC.L4 HttpC.L5

structure Prog (t m : Nat) where
  pool : Pool t
  sys : Sys m
  accepted : List Int
  /-- Which connection an open descriptor stands for. -/
  table : Int → Option (Fin m)
  /-- The connection a worker's handler runs for. -/
  serving : Fin t → Option (Fin m)
  served : List (Fin t × Fin m)

inductive Ev (t : Nat) where
  | accept (connfd : Int) | acceptFails | caller | createFails | worker (i : Fin t)
  deriving DecidableEq, Repr

/-- The next act is `close(connfd)`. -/
def closing : Pc → Bool
  | .tail (.closeConn :: _) => true
  | _ => false

namespace Prog
variable {t m : Nat}

/-- mirrors src/threadpool.c:30-42, with src/httpserver.c:224-269 for the
handler -/
def stepWorker (E : Env) (s : Prog t m) (i : Fin t) : Option (Prog t m) :=
  match s.pool.workers i, s.serving i with
  | .handling connfd, some c =>
    if (s.sys.workers c).pc = .done then
      (s.pool.stepWorker i).map fun p =>
        { s with pool := p, serving := Function.update s.serving i none }
    else
      (s.sys.step E c).map fun y =>
        { s with
          sys := y
          table := if closing (s.sys.workers c).pc then Function.update s.table connfd none
            else s.table }
  -- the descriptor was not open
  | .handling _, none => none
  | .popping (.returned x), _ =>
    if x = STOP_SENTINEL then (s.pool.stepWorker i).map fun p => { s with pool := p }
    else
      (s.pool.stepWorker i).map fun p =>
        { s with
          pool := p
          serving := Function.update s.serving i (s.table x)
          served := s.served ++ (s.table x).toList.map (i, ·) }
  | _, _ => (s.pool.stepWorker i).map fun p => { s with pool := p }

/-- mirrors src/httpserver.c:209-214 -/
def step (E : Env) (s : Prog t m) : Ev t → Option (Prog t m)
  | .accept connfd =>
    if h : s.accepted.length < m then
      if s.pool.todo = [] ∧ s.pool.failed = false ∧ 0 ≤ connfd ∧ s.table connfd = none then
        some { s with
          pool := { s.pool with todo := [threadpoolSubmit connfd] }
          accepted := s.accepted ++ [connfd]
          table := Function.update s.table connfd (some ⟨s.accepted.length, h⟩) }
      else none
    else none
  | .acceptFails => if s.pool.todo = [] ∧ s.pool.failed = false then some s else none
  | .caller => s.pool.stepCaller.map fun p => { s with pool := p }
  | .createFails => s.pool.stepFail.map fun p => { s with pool := p }
  | .worker i => s.stepWorker E i

/-- `threadpool_new(n_threads, n_threads, handle_connection)`: ring and pool
have the same size. -/
def initial (t : Nat) (junk : Nat → Int) (reqs : Fin m → Incoming) (files : Files) : Prog t m where
  pool := { Pool.initial t t junk [] with todo := threadpoolNew t }
  sys := ⟨files, [], fun c => (reqs c).start⟩
  accepted := []
  table := fun _ => none
  serving := fun _ => none
  served := []

end Prog

variable {t m : Nat}

def program (t : Nat) (junk : Nat → Int) (E : Env) (reqs : Fin m → Incoming) (files : Files) :
    LTS (Prog t m) (Ev t) :=
  .ofFn (· = Prog.initial t junk reqs files) (Prog.step E)

/-! ## What a worker's step can be -/

/-- One step of worker `i` of the program. -/
inductive Works (E : Env) (s : Prog t m) (i : Fin t) : Prog t m → Prop where
  /-- a step of the handler -/
  | serve (connfd : Int) (c : Fin m) (y : Sys m) (hw : s.pool.workers i = .handling connfd)
      (hc : s.serving i = some c) (hd : (s.sys.workers c).pc ≠ .done) (hy : s.sys.step E c = some y) :
      Works E s i { s with
        sys := y
        table := if closing (s.sys.workers c).pc then Function.update s.table connfd none
          else s.table }
  /-- the handler returns -/
  | return (connfd : Int) (c : Fin m) (hw : s.pool.workers i = .handling connfd)
      (hc : s.serving i = some c) (hd : (s.sys.workers c).pc = .done) :
      Works E s i { s with
        pool := { s.pool with workers := Function.update s.pool.workers i (.popping .waitEmpty) }
        serving := Function.update s.serving i none }
  /-- the handler is called -/
  | start (connfd : Int) (hx : connfd ≠ STOP_SENTINEL)
      (hw : s.pool.workers i = .popping (.returned connfd)) :
      Works E s i { s with
        pool := { s.pool with
          workers := Function.update s.pool.workers i (.handling connfd)
          handled := s.pool.handled ++ [(i, connfd)] }
        serving := Function.update s.serving i (s.table connfd)
        served := s.served ++ (s.table connfd).toList.map (i, ·) }
  /-- the worker exits -/
  | exit (hw : s.pool.workers i = .popping (.returned STOP_SENTINEL)) :
      Works E s i { s with
        pool := { s.pool with workers := Function.update s.pool.workers i .exited } }
  /-- a step of `queue_pop` -/
  | pop (pc : Pop Int) (sh : Shared (Option (Fin t)) Int) (pc' : Pop Int)
      (hw : s.pool.workers i = .popping pc) (hp : pc.step (some i) s.pool.shared = some (sh, pc')) :
      Works E s i { s with
        pool := { s.pool with
          shared := sh, workers := Function.update s.pool.workers i (.popping pc') } }

theorem stepWorker_works {E : Env} {s s' : Prog t m} {i : Fin t}
    (h : s.stepWorker E i = some s') : Works E s i s' := by
  unfold Prog.stepWorker at h
  split at h
  · rename_i connfd c hw hc
    split at h
    · rename_i hd
      simp only [Pool.stepWorker, hw, Option.map_some, Option.some.injEq] at h
      subst h
      exact .return connfd c hw hc hd
    · rename_i hd
      obtain ⟨y, hy, rfl⟩ := Option.map_eq_some_iff.mp h
      exact .serve connfd c y hw hc hd hy
  · cases h
  · rename_i _ x hw
    split at h
    · rename_i hx
      subst hx
      simp only [Pool.stepWorker, hw, if_true, Option.map_some, Option.some.injEq] at h
      subst h
      exact .exit hw
    · rename_i hx
      simp only [Pool.stepWorker, hw, if_neg hx, Option.map_some, Option.some.injEq] at h
      subst h
      exact .start x hx hw
  · rename_i hnr hnh hnn
    obtain ⟨p, hp, rfl⟩ := Option.map_eq_some_iff.mp h
    rcases stepWorker_cases hp with ⟨fd, hw, -⟩ | ⟨hw, -⟩ | ⟨x, -, hw, -⟩ | ⟨pc, sh, pc', hw, hst, rfl⟩
    · cases hc : s.serving i with
      | none => exact absurd hc (hnn fd hw)
      | some c => exact absurd hc (hnh fd c hw)
    · exact absurd hw (hnr _)
    · exact absurd hw (hnr _)
    · exact .pop pc sh pc' hw hst

/-! ## The program runs the pool -/

/-- The pool with all that is still to come: the submits of the descriptors
not yet accepted, and the destroy that `main` never gets to. -/
def lift (fds : List Int) (s : Prog t m) : Pool t :=
  if s.pool.failed then s.pool
  else { s.pool with
    todo := s.pool.todo ++ ((fds.drop s.accepted.length).map threadpoolSubmit ++ threadpoolDestroy t) }

section
variable {p p' : Pool t}

/-- The caller looks at nothing but its next instruction. -/
theorem stepCaller_append (r : List (Instr t)) (h : p.stepCaller = some p') :
    Pool.stepCaller { p with todo := p.todo ++ r } = some { p' with todo := p'.todo ++ r } := by
  unfold Pool.stepCaller at h ⊢
  split at h
  · cases h
  · rename_i i rest ht
    cases h
    simp only [ht, List.cons_append]
  · rename_i x rest ht
    simp only [ht, List.cons_append]
    split at h
    · rename_i hpc
      cases h
      rw [if_pos hpc]
    · rename_i hpc
      obtain ⟨r', hr, rfl⟩ := Option.map_eq_some_iff.mp h
      simp only [if_neg hpc, hr, Option.map_some, ht, List.cons_append]
  · rename_i i rest ht
    split at h
    · rename_i hx
      cases h
      simp only [ht, List.cons_append, if_pos hx]
    · cases h
  · rename_i rest ht
    cases h
    simp only [ht, List.cons_append]

theorem stepCaller_failed (h : p.stepCaller = some p') : p'.failed = p.failed := by
  unfold Pool.stepCaller at h
  split at h
  · cases h
  · cases h; rfl
  · split at h
    · cases h; rfl
    · obtain ⟨r, -, rfl⟩ := Option.map_eq_some_iff.mp h; rfl
  · split at h <;> cases h; rfl
  · cases h; rfl

/-- A worker does not look at the caller. -/
theorem stepWorker_todo (todo : List (Instr t)) {i : Fin t} (h : p.stepWorker i = some p') :
    Pool.stepWorker { p with todo } i = some { p' with todo } := by
  rcases stepWorker_cases h with ⟨fd, hw, rfl⟩ | ⟨hw, rfl⟩ | ⟨x, hx, hw, rfl⟩ | ⟨pc, sh, pc', hw, hp, rfl⟩
  · simp only [Pool.stepWorker, hw]
  · simp only [Pool.stepWorker, hw, if_true]
  · simp only [Pool.stepWorker, hw, if_neg hx]
  · unfold Pool.stepWorker
    simp only [hw]
    cases pc
    case returned => cases hp
    all_goals simp only [hp, Option.map_some]

end

section
variable {E : Env} {s s' : Prog t m}

/-- A worker's step is a step of its handler or a step of the pool. -/
theorem Works.moves {i : Fin t} (h : Works E s i s') :
    (s'.pool = s.pool ∧ ∃ c, s.sys.step E c = some s'.sys) ∨
      (s.pool.stepWorker i = some s'.pool ∧ s'.sys = s.sys) := by
  cases h with
  | serve connfd c y hw hc hd hy => exact .inl ⟨rfl, c, hy⟩
  | «return» connfd c hw hc hd => exact .inr ⟨by simp only [Pool.stepWorker, hw], rfl⟩
  | start connfd hx hw => exact .inr ⟨by simp only [Pool.stepWorker, hw, if_neg hx], rfl⟩
  | exit hw => exact .inr ⟨by simp only [Pool.stepWorker, hw, if_true], rfl⟩
  | pop pc sh pc' hw hp =>
    refine .inr ⟨?_, rfl⟩
    unfold Pool.stepWorker
    rw [hw]
    cases pc
    case returned => cases hp
    all_goals simp only [hp, Option.map_some]

/-- It does not touch the dispatcher. -/
theorem Works.dispatcher {i : Fin t} (h : Works E s i s') :
    s'.accepted = s.accepted ∧ s'.pool.todo = s.pool.todo ∧ s'.pool.pc = s.pool.pc ∧
      s'.pool.failed = s.pool.failed ∧ s'.pool.shared.pushed = s.pool.shared.pushed := by
  cases h with
  | serve | «return» | start | exit => exact ⟨rfl, rfl, rfl, rfl, rfl⟩
  | pop pc sh pc' hw hp => exact ⟨rfl, rfl, rfl, rfl, (Pop.record hp).1⟩

/-- What an `accept` does. -/
theorem accept_inv {connfd : Int} (h : s.step E (.accept connfd) = some s') :
    ∃ hm : s.accepted.length < m,
      (s.pool.todo = [] ∧ s.pool.failed = false ∧ 0 ≤ connfd ∧ s.table connfd = none) ∧
      s' = { s with
        pool := { s.pool with todo := [threadpoolSubmit connfd] }
        accepted := s.accepted ++ [connfd]
        table := Function.update s.table connfd (some ⟨s.accepted.length, hm⟩) } := by
  simp only [Prog.step] at h
  split at h
  · rename_i hm
    split at h
    · rename_i hg
      cases h
      exact ⟨hm, hg, rfl⟩
    · cases h
  · cases h

/-- **A step of the program is a step of the pool** that was told all
descriptors in advance, or no step of it. -/
theorem lift_step {e : Ev t} {fds : List Int} (h : s.step E e = some s')
    (hF : s'.accepted <+: fds) :
    lift fds s' = lift fds s ∨ ∃ l, (lift fds s).step l = some (lift fds s') := by
  cases e with
  | accept connfd =>
    obtain ⟨hm, ⟨ht, hf, -, -⟩, rfl⟩ := accept_inv h
    left
    -- the descriptor comes from the list of all of them
    obtain ⟨r, rfl⟩ := hF
    simp [lift, ht, hf]
  | acceptFails =>
    simp only [Prog.step] at h
    split at h <;> cases h
    exact .inl rfl
  | caller =>
    obtain ⟨p, hp, rfl⟩ := Option.map_eq_some_iff.mp h
    refine .inr ⟨.caller, ?_⟩
    have hfail := stepCaller_failed hp
    have happ := stepCaller_append ((fds.drop s.accepted.length).map threadpoolSubmit ++
      threadpoolDestroy t) hp
    simp only [lift, hfail] at happ ⊢
    split
    · exact hp
    · exact happ
  | createFails =>
    obtain ⟨p, hp, rfl⟩ := Option.map_eq_some_iff.mp h
    refine .inr ⟨.createFails, ?_⟩
    unfold Pool.stepFail at hp
    split at hp
    · rename_i i rest ht
      cases hp
      simp only [lift, if_true]
      split <;> simp [Pool.step, Pool.stepFail, ht]
    · cases hp
  | worker i =>
    obtain ⟨ha, ht, -, hfail, -⟩ := (stepWorker_works h).dispatcher
    rcases (stepWorker_works h).moves with ⟨hp, -⟩ | ⟨hp, -⟩
    · exact .inl (by simp only [lift, hp, ha])
    · refine .inr ⟨.worker i, ?_⟩
      have htodo := stepWorker_todo (s.pool.todo ++
        ((fds.drop s.accepted.length).map threadpoolSubmit ++ threadpoolDestroy t)) hp
      simp only [lift, hfail, ha, ht] at htodo ⊢
      split
      · exact hp
      · exact htodo

/-- Descriptors are accepted one after another. -/
theorem accepted_step {e : Ev t} (h : s.step E e = some s') : s.accepted <+: s'.accepted := by
  cases e with
  | accept connfd =>
    obtain ⟨hm, -, rfl⟩ := accept_inv h
    exact List.prefix_append _ _
  | acceptFails =>
    simp only [Prog.step] at h
    split at h <;> cases h
    exact List.prefix_refl _
  | caller | createFails =>
    obtain ⟨p, -, rfl⟩ := Option.map_eq_some_iff.mp h
    exact List.prefix_refl _
  | worker i => rw [(stepWorker_works h).dispatcher.1]

/-- Only a `pthread_create` that fails gives the pool up. -/
theorem failed_step {e : Ev t} (he : e ≠ .createFails) (h : s.step E e = some s') :
    s'.pool.failed = s.pool.failed := by
  cases e with
  | accept connfd =>
    obtain ⟨-, -, rfl⟩ := accept_inv h
    rfl
  | acceptFails =>
    simp only [Prog.step] at h
    split at h <;> cases h
    rfl
  | caller =>
    obtain ⟨p, hp, rfl⟩ := Option.map_eq_some_iff.mp h
    exact stepCaller_failed hp
  | createFails => exact absurd rfl he
  | worker i => exact (stepWorker_works h).dispatcher.2.2.2.1

/-- Only a worker in a handler touches what the handlers work on. -/
theorem sys_step {e : Ev t} (h : s.step E e = some s') :
    s'.sys = s.sys ∨ ∃ i c, s.serving i = some c ∧ s.sys.step E c = some s'.sys := by
  cases e with
  | accept connfd =>
    obtain ⟨hm, -, rfl⟩ := accept_inv h
    exact .inl rfl
  | acceptFails =>
    simp only [Prog.step] at h
    split at h <;> cases h
    exact .inl rfl
  | caller | createFails =>
    obtain ⟨p, -, rfl⟩ := Option.map_eq_some_iff.mp h
    exact .inl rfl
  | worker i =>
    cases stepWorker_works h with
    | serve connfd c y hw hc hd hy => exact .inr ⟨i, c, hc, hy⟩
    | «return» | start | exit | pop => exact .inl rfl

end

section
variable {junk : Nat → Int} {E : Env} {reqs : Fin m → Incoming} {files : Files} {s : Prog t m}

/-- **The program runs the pool**: with hindsight, on the descriptors of this
run. -/
theorem program_pool (h : (program t junk E reqs files).Reachable s) {fds : List Int}
    (hF : s.accepted <+: fds) : (pool t t junk fds).Reachable (lift fds s) := by
  have hI : (program t junk E reqs files).Inductive fun s =>
      ∀ fds, s.accepted <+: fds → (pool t t junk fds).Reachable (lift fds s) := by
    refine ⟨?_, ?_⟩
    · intro s hs fds _
      subst hs
      have hl : lift fds (Prog.initial t junk reqs files) = Pool.initial t t junk fds := by
        simp [lift, Prog.initial, Pool.initial, lifeOf]
      exact ⟨_, [], hl, .nil _⟩
    · intro s e s' hs hst fds hF
      have ih := hs fds ((accepted_step hst).trans hF)
      rcases lift_step hst hF with he | ⟨l, hl⟩
      · rw [he]; exact ih
      · exact ih.step hl
  exact hI.reachable s h fds hF

/-- **The program runs the server.** -/
theorem program_server (h : (program t junk E reqs files).Reachable s) :
    (server E reqs files).Reachable s.sys := by
  have hI : (program t junk E reqs files).Inductive fun s =>
      (server E reqs files).Reachable s.sys := by
    refine ⟨?_, ?_⟩
    · intro s hs
      subst hs
      exact ⟨_, [], rfl, .nil _⟩
    · intro s e s' hs hst
      rcases sys_step hst with he | ⟨-, c, -, hc⟩
      · rw [he]; exact hs
      · exact hs.step hc
  exact hI.reachable s h

end

end HttpC.L8
