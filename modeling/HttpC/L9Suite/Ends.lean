import HttpC.L8Program.Finish
import HttpC.L9Suite.Sending
import HttpC.L9Suite.Verdict

/-!
# The suite comes to its end

The driver and the whole program side by side. `Together` is what holds of the
two: the invariants of the suite, and those of the pool, of the dispatcher and of
the hand-off, which do not depend on what the driver does to the files.

At the end of a workload the verdict is green (`runOne_green`). A workload gets
there if it is prompt and the pool has room for it: with `-t 1` a driver that
waits for a GET while a PUT without its body has the only thread waits for
itself. `Roomy` leaves a thread to the connections that are ready. Then, if the
pool cannot go on, one of them has a worker (`Together.ready_served`), so a
handler can go on, and whatever the scheduler does the driver comes to the end of
the workload (`runOne_ends`). The workloads of the repository keep to both, with
the threads the harness gives them.
-/
namespace HttpC.L9
open HttpC.L1.Util HttpC.L2 HttpC.L3 HttpC.L4 HttpC.L5 HttpC.L6 HttpC.L8
open HttpC.L7 (Channel Flat)

/-- Where the driver blocks, fewer than `t` open connections are not ready. -/
def Roomy (t : Nat) (repoRoot : RepoRoot) (past : List Event) (e : Event) (_todo : List Event) : Prop :=
  Blocks e → ∃ ids : List Int64, ids.length < t ∧
    ∀ c ∈ creates past, .wait c.id ∉ past → Ready repoRoot past c ∨ c.id ∈ ids

section
variable {t : Nat} {junk : Nat → Int} {E : Env} {repoRoot : RepoRoot} {evs : List Event}
  {ch : Fin (creates evs).length → Channel} {reset : Errno → Bool} {past todo : List Event} {e : Event}
  {s s' : RunOne t (creates evs).length}

/-! ## What holds of driver and program -/

/-- The program is one that started with this pool, but for the files; `pool`
has all descriptors of the run in advance, as in `program_pool`. -/
structure Together (junk : Nat → Int) (E : Env) (repoRoot : RepoRoot) (evs : List Event)
    (ch : Fin (creates evs).length → Channel) (past : List Event)
    (s : RunOne t (creates evs).length) : Prop where
  running : Running E repoRoot evs ch past s.suite
  sending : Sending repoRoot evs past s.suite
  pool : ∀ fds, s.accepted <+: fds → (L4.pool t t junk fds).Reachable (lift fds s.prog)
  created : s.pool.failed = false
  dispatch : Dispatch s.prog
  handOff : HandOff (requests repoRoot evs ch) s.prog
  accepted : s.accepted.length ≤ s.suite.made

theorem together_init (ht : 1 ≤ t) :
    Together junk E repoRoot evs ch [] (RunOne.initial t junk repoRoot evs ch) where
  running := running_init
  sending := ⟨fun _ hi => absurd hi (Nat.not_lt_zero _), fun _ hi => absurd hi (Nat.not_lt_zero _)⟩
  pool fds _ := by
    have hl : lift fds (RunOne.initial t junk repoRoot evs ch).prog = Pool.initial t t junk fds := by
      simp [lift, RunOne.initial, RunOne.prog, Prog.initial, Pool.initial, lifeOf]
    exact ⟨_, [], hl, .nil _⟩
  created := rfl
  dispatch := dispatch_init ht
  handOff := handOff_init junk _
  accepted := Nat.le_refl 0

theorem Together.poolInv (h : Together junk E repoRoot evs ch past s) (ht : 1 ≤ t) :
    PoolInv s.accepted (lift s.accepted s.prog) :=
  pool_inv ht ht (h.pool _ (List.prefix_refl _))

theorem together_drive {cuts : List ReadEv} {u : Suite (creates evs).length}
    (h : Together junk E repoRoot evs ch past s) (hw : Each (Placed repoRoot) [] evs)
    (ht : s.suite.todo = e :: todo) (hcut : Cut cuts)
    (hst : s.suite.drive E repoRoot reset cuts = some u) :
    Together junk E repoRoot evs ch (past ++ [e]) { s with suite := u } where
  running := running_drive h.running hw ht hcut hst
  sending := sending_drive h.sending h.running hw ht hst
  pool := h.pool
  created := h.created
  dispatch := h.dispatch.frame rfl rfl rfl rfl rfl
  handOff := h.handOff.files (drive_workers ht hst)
  accepted := by
    refine h.accepted.trans ?_
    rw [h.running.made, (running_drive h.running hw ht hcut hst).made, creates_append,
      List.length_append]
    exact Nat.le_add_right _ _

theorem server_inv {ev : Ev t} (hst : s.step E repoRoot reset (.server ev) = some s') :
    ∃ p, s.prog.step E ev = some p ∧ p.accepted.length ≤ s.suite.made ∧
      (∀ i : Fin (creates evs).length, i.val < s.suite.made → s.suite.arrived i (p.sys.workers i)) ∧
      s' = s.withProg p := by
  obtain ⟨p, hp, hst⟩ := Option.bind_eq_some_iff.mp hst
  split at hst <;> cases hst
  rename_i hgate
  exact ⟨p, hp, hgate.1, hgate.2, rfl⟩

/-- A step of the program is one of a handler the driver can see, or none it
can see. -/
theorem Together.serves (h : Together junk E repoRoot evs ch past s) {ev : Ev t}
    {p : Prog t (creates evs).length} (hp : s.prog.step E ev = some p)
    (harr : ∀ i : Fin (creates evs).length, i.val < s.suite.made →
      s.suite.arrived i (p.sys.workers i)) :
    (s.withProg p).suite = s.suite ∨ ∃ c, s.suite.serve E c = some (s.withProg p).suite := by
  rcases sys_step hp with he | ⟨i, c, hc, hy⟩
  · left
    show { s.suite with sys := p.sys } = s.suite
    rw [he]
    rfl
  · right
    have hlt := h.handOff.accepted _ (h.handOff.serving i c hc).1
    have hmade : c.val < s.suite.made := Nat.lt_of_lt_of_le hlt h.accepted
    have hy : s.suite.sys.step E c = some p.sys := hy
    exact ⟨c, by simp [Suite.serve, hmade, hy, harr c hmade, RunOne.withProg]⟩

theorem together_server {ev : Ev t} (ht : 1 ≤ t) (h : Together junk E repoRoot evs ch past s)
    (hw : Each (Placed repoRoot) [] evs) (hev : ev ≠ .createFails)
    (hst : s.step E repoRoot reset (.server ev) = some s') :
    Together junk E repoRoot evs ch past s' := by
  obtain ⟨p, hp, hmade, harr, rfl⟩ := server_inv hst
  obtain ⟨hrun, hsend⟩ : Running E repoRoot evs ch past (s.withProg p).suite ∧
      Sending repoRoot evs past (s.withProg p).suite := by
    rcases h.serves hp harr with he | ⟨c, hc⟩
    · rw [he]; exact ⟨h.running, h.sending⟩
    · exact ⟨running_serve h.running hw hc, sending_serve h.sending hc⟩
  -- the files are not the server's own, but the handlers are
  obtain ⟨f, hf, -⟩ := h.running.server
  refine ⟨hrun, hsend, fun fds hF => ?_, (failed_step hev hp).trans h.created,
    dispatch_step h.dispatch hp, handOff_step h.handOff (h.poolInv ht) (fun c => server_closesLast hf c) hp,
    hmade⟩
  rcases lift_step hp hF with he | ⟨l, hl⟩
  · have hpool := h.pool fds ((accepted_step hp).trans hF)
    rw [← he] at hpool
    exact hpool
  · exact (h.pool fds ((accepted_step hp).trans hF)).step hl

/-- **Both go by their invariants all along.** -/
theorem runOne_together (ht : 1 ≤ t) (hw : Each (Placed repoRoot) [] evs)
    (hs : (runOne t junk E repoRoot reset evs ch).Reachable s) :
    ∃ past, Together junk E repoRoot evs ch past s := by
  have hI : (runOne t junk E repoRoot reset evs ch).Inductive fun s =>
      ∃ past, Together junk E repoRoot evs ch past s := by
    refine ⟨?_, ?_⟩
    · intro s hs
      subst hs
      exact ⟨[], together_init ht⟩
    · intro s mv s' hs hst
      obtain ⟨past, h⟩ := hs
      obtain ⟨hhealthy, hst⟩ := hst
      cases mv with
      | server ev => exact ⟨past, together_server ht h hw hhealthy.1 hst⟩
      | driver cuts =>
        obtain ⟨u, hu, rfl⟩ := Option.map_eq_some_iff.mp hst
        cases htodo : s.suite.todo with
        | nil => simp [Suite.drive, htodo] at hu
        | cons e todo => exact ⟨past ++ [e], together_drive h hw htodo hhealthy hu⟩
  exact hI.reachable s hs

/-! ## Somebody can go on -/

/-- There is always a descriptor to accept a connection on. -/
theorem free_descriptor {m : Nat} {reqs : Fin m → Incoming} {p : Prog t m} (h : HandOff reqs p) :
    ∃ x, 0 ≤ x ∧ p.table x = none := by
  obtain ⟨k, hk⟩ := Infinite.exists_notMem_finset (p.accepted.map Int.toNat).toFinset
  refine ⟨k, Int.natCast_nonneg k, ?_⟩
  cases htab : p.table k with
  | none => rfl
  | some c =>
    refine absurd ?_ hk
    rw [List.mem_toFinset]
    exact List.mem_map.mpr ⟨k, List.mem_of_getElem? ((h.table _ c).mp htab).1, Int.toNat_natCast k⟩

/-- Neither driver nor program goes on. -/
def Halted (E : Env) (repoRoot : RepoRoot) (reset : Errno → Bool) (s : RunOne t (creates evs).length) :
    Prop :=
  ∀ mv, Move.healthy mv → s.step E repoRoot reset mv = none

/-- What the program could do it may do. -/
theorem Halted.server (h : Halted E repoRoot reset s) (ev : Ev t) {p : Prog t (creates evs).length}
    (hev : ev ≠ .createFails ∧ ev ≠ .acceptFails) (hp : s.prog.step E ev = some p)
    (hmade : p.accepted.length ≤ s.suite.made) :
    ¬ ∀ i : Fin (creates evs).length, i.val < s.suite.made →
      s.suite.arrived i (p.sys.workers i) := by
  intro harr
  have hnone := h (.server ev) hev
  simp only [RunOne.step, hp, Option.bind_some] at hnone
  rw [if_pos ⟨hmade, harr⟩] at hnone
  cases hnone

/-- A step that no handler takes part in. -/
theorem Together.still (h : Together junk E repoRoot evs ch past s)
    (hhalt : Halted E repoRoot reset s) (ev : Ev t) {p : Prog t (creates evs).length}
    (hev : ev ≠ .createFails ∧ ev ≠ .acceptFails) (hp : s.prog.step E ev = some p)
    (hmade : p.accepted.length ≤ s.suite.made) : p.sys ≠ s.suite.sys := by
  intro hsys
  refine hhalt.server ev hev hp hmade ?_
  rw [hsys]
  exact h.sending.arrived

theorem Together.halted_worker (h : Together junk E repoRoot evs ch past s)
    (hhalt : Halted E repoRoot reset s) (i : Fin t) :
    ¬ ∃ p, s.prog.step E (.worker i) = some p ∧ p.accepted = s.accepted ∧ p.sys = s.suite.sys := by
  intro hex
  obtain ⟨p, hp, ha, hsys⟩ := hex
  exact h.still hhalt (.worker i) ⟨by simp, by simp⟩ hp (by rw [ha]; exact h.accepted) hsys

theorem Together.poolStuck (h : Together junk E repoRoot evs ch past s)
    (hhalt : Halted E repoRoot reset s) : PoolStuck s.prog := by
  refine ⟨?_, fun i hw => ?_⟩
  · cases hp : s.prog.pool.stepCaller with
    | none => rfl
    | some p =>
      exact absurd rfl (h.still hhalt .caller (p := { s.prog with pool := p }) ⟨by simp, by simp⟩
        (by simp [Prog.step, hp]) h.accepted)
  · cases hp : s.prog.pool.stepWorker i with
    | none => rfl
    | some p => exact (h.halted_worker hhalt i (step_idle hw hp)).elim

/-- The dispatcher at `accept` has accepted every connection made. -/
theorem Together.all_accepted (h : Together junk E repoRoot evs ch past s)
    (hhalt : Halted E repoRoot reset s) (hidle : s.pool.todo = []) :
    s.suite.made ≤ s.accepted.length := by
  by_contra hlt
  obtain ⟨x, h0, hfree⟩ := free_descriptor h.handOff
  have hm : s.prog.accepted.length < (creates evs).length := by
    have hsplit := congrArg (fun l => (creates l).length) h.running.split
    simp only [creates_append, List.length_append] at hsplit
    have hmade := h.running.made
    show s.accepted.length < _
    omega
  have hst : s.prog.step E (.accept x) = some { s.prog with
      pool := { s.pool with todo := [threadpoolSubmit x] }
      accepted := s.accepted ++ [x]
      table := Function.update s.table x (some ⟨s.accepted.length, hm⟩) } := by
    simp only [Prog.step, dif_pos hm]
    exact if_pos ⟨hidle, h.created, h0, hfree⟩
  refine absurd rfl (h.still hhalt (.accept x) ⟨by simp, by simp⟩ hst ?_)
  simp only [List.length_append, List.length_singleton]
  omega

/-- With every worker in a handler, one is in that of a connection that is
ready. -/
theorem Together.ready_worker (h : Together junk E repoRoot evs ch past s)
    (hw : Each (Placed repoRoot) [] evs) {ids : List Int64} (hfew : ids.length < t)
    (hids : ∀ c ∈ creates past, .wait c.id ∉ past → Ready repoRoot past c ∨ c.id ∈ ids)
    (hlive : ∀ i c, s.serving i = some c → (s.suite.sys.workers c).pc ≠ .done)
    (hfull : ∀ i, ∃ c, s.serving i = some c) :
    ∃ i c, s.serving i = some c ∧ Ready repoRoot past ((creates evs).get c) := by
  by_contra hno
  choose f hf using hfull
  have hmaps : ∀ i ∈ Finset.univ, idAt evs (f i) ∈ ids.toFinset := by
    intro i _
    have hmade := Nat.lt_of_lt_of_le (h.handOff.accepted _ (h.handOff.serving i _ (hf i)).1) h.accepted
    have hopen : .wait (idAt evs (f i)) ∉ past := fun hm =>
      hlive i _ (hf i) (h.running.waited _ hm).1
    rw [List.mem_toFinset]
    exact (hids _ (h.running.get_lt _ hmade) hopen).resolve_left fun hr => hno ⟨i, _, hf i, hr⟩
  have hinj : ∀ i ∈ Finset.univ, ∀ j ∈ Finset.univ, idAt evs (f i) = idAt evs (f j) → i = j := by
    intro i _ j _ hij
    refine h.handOff.alone (hf i) ?_
    rw [idAt_inj hw hij]
    exact hf j
  have hcard := (Finset.card_le_card_of_injOn (fun i => idAt evs (f i)) hmaps hinj).trans
    (List.toFinset_card_le ids)
  rw [Finset.card_univ, Fintype.card_fin] at hcard
  omega

/-- **A connection that is ready is served**, if driver and program halt and the
driver blocks for one. -/
theorem Together.ready_served (ht : 1 ≤ t) (h : Together junk E repoRoot evs ch past s)
    (hw : Each (Placed repoRoot) [] evs) (hhalt : Halted E repoRoot reset s) {ids : List Int64}
    (hfew : ids.length < t)
    (hids : ∀ c ∈ creates past, .wait c.id ∉ past → Ready repoRoot past c ∨ c.id ∈ ids)
    {i : Fin (creates evs).length} (hmade : i.val < s.suite.made)
    (hd : (s.suite.sys.workers i).pc ≠ .done) (hready : Ready repoRoot past ((creates evs).get i)) :
    ∃ c, c ∈ s.served.map Prod.snd ∧ c.val < s.suite.made ∧
      (s.suite.sys.workers c).pc ≠ .done ∧ Ready repoRoot past ((creates evs).get c) := by
  rcases pool_serves h.handOff (h.poolInv ht) h.dispatch h.created (h.poolStuck hhalt) with
    ⟨hidle, hserved⟩ | hfull
  · exact ⟨i, hserved i (Nat.lt_of_lt_of_le hmade (h.all_accepted hhalt hidle)), hmade, hd, hready⟩
  · have hlive : ∀ i c, s.serving i = some c → (s.suite.sys.workers c).pc ≠ .done := by
      intro i c hc hd
      obtain ⟨-, x, hx, -⟩ := h.handOff.serving i c hc
      exact h.halted_worker hhalt i (step_return hx hc hd)
    obtain ⟨k, c, hc, hrc⟩ := h.ready_worker hw hfew hids hlive hfull
    have hserved := (h.handOff.serving k c hc).1
    exact ⟨c, List.mem_map_of_mem hserved, Nat.lt_of_lt_of_le (h.handOff.accepted _ hserved) h.accepted,
      hlive k c hc, hrc⟩

/-- Its worker goes on when the handler does. -/
theorem Together.served_halts (h : Together junk E repoRoot evs ch past s)
    (hhalt : Halted E repoRoot reset s) {j : Fin (creates evs).length}
    (hj : j ∈ s.served.map Prod.snd) : s.suite.serve E j = none := by
  cases hu : s.suite.serve E j with
  | none => rfl
  | some u =>
    exfalso
    obtain ⟨-, hd, y, hy, hgate, -⟩ := serve_inv hu
    obtain ⟨o, -, -, -, hworkers⟩ := step_inv hy
    obtain ⟨i, hi⟩ := h.handOff.served hj hd
    obtain ⟨-, x, hx, -⟩ := h.handOff.serving i j hi
    obtain ⟨p, hst, ha, rfl⟩ := step_serve hx hi hd hy
    refine hhalt.server (.worker i) ⟨by simp, by simp⟩ hst (by rw [ha]; exact h.accepted) fun c hc => ?_
    by_cases hcj : c = j
    · subst hcj; exact hgate
    · rw [hworkers, Function.update_of_ne hcj]
      exact h.sending.arrived c hc

/-- **Nobody is stuck** before the end of the workload. -/
theorem together_goes_on (ht : 1 ≤ t) (h : Together junk E repoRoot evs ch past s)
    (hw : Each (Placed repoRoot) [] evs) (hp : Each (Prompt repoRoot) [] evs)
    (hr : Each (Roomy t repoRoot) [] evs) (htodo : s.suite.todo = e :: todo) :
    ∃ mv s', Move.healthy mv ∧ s.step E repoRoot reset mv = some s' := by
  by_contra hno
  have hhalt : Halted E repoRoot reset s := by
    intro mv hmv
    cases hst : s.step E repoRoot reset mv with
    | none => rfl
    | some s' => exact absurd ⟨mv, s', hmv, hst⟩ hno
  have hroomy : Roomy t repoRoot past e todo := by
    have hr' := hr
    rw [h.running.split, htodo] at hr'
    exact Each.at hr'
  have hdriver : s.suite.drive E repoRoot reset [] = none :=
    Option.map_eq_none_iff.mp (hhalt (.driver []) (show Cut ([] : List ReadEv) by decide))
  rcases drive_goes_on reset h.running hw hp htodo with hsome | ⟨hblocks, i, hmade, hd, hready⟩
  · rw [hdriver] at hsome
    cases hsome
  obtain ⟨ids, hfew, hids⟩ := hroomy hblocks
  obtain ⟨c, hc, hmade, hd, hready⟩ := h.ready_served ht hw hhalt hfew hids hmade hd hready
  -- its handler can go on, or that of one that has its lock: both have a worker
  obtain ⟨j, u, hj, hu⟩ := serve_goes_on h.running h.sending hw hmade hd hready
  have hserved : j ∈ s.served.map Prod.snd := by
    rcases hj with rfl | hnew
    · exact hc
    · exact h.handOff.started hnew
  rw [h.served_halts hhalt hserved] at hu
  cases hu

/-! ## The end -/

/-- What is left of the workload, of the connections to accept, and of those
accepted. -/
def runRank {n : Nat} (s : RunOne t n) : Nat ×ₗ (Nat ×ₗ ((Fin n → Nat ×ₗ Nat) × Nat)) :=
  toLex (s.suite.todo.length, toLex (n - s.accepted.length, progRank s.prog))

theorem runRank_drive {cuts : List ReadEv} {u : Suite (creates evs).length}
    (h : Running E repoRoot evs ch past s.suite) (hw : Each (Placed repoRoot) [] evs)
    (hcut : Cut cuts) (hst : s.suite.drive E repoRoot reset cuts = some u) :
    runRank { s with suite := u } < runRank s := by
  cases ht : s.suite.todo with
  | nil => simp [Suite.drive, ht] at hst
  | cons e todo =>
    have h1 := (running_drive h hw ht hcut hst).split
    have h2 := h.split
    rw [ht] at h2
    have h3 := congrArg List.length (h2.symm.trans h1)
    simp only [List.length_append, List.length_cons, List.length_nil] at h3
    refine Prod.Lex.toLex_lt_toLex.mpr (.inl ?_)
    show u.todo.length < s.suite.todo.length
    rw [ht, List.length_cons]
    omega

theorem runRank_server {ev : Ev t} (hev : ev ≠ .acceptFails)
    (hst : s.step E repoRoot reset (.server ev) = some s') : runRank s' < runRank s := by
  obtain ⟨p, hp, -, -, rfl⟩ := server_inv hst
  refine Prod.Lex.toLex_lt_toLex.mpr (.inr ⟨rfl, Prod.Lex.toLex_lt_toLex.mpr ?_⟩)
  have inner : ev.inside → progRank p < progRank s.prog := fun hin => progRank_step hin hp
  cases ev with
  | accept connfd =>
    left
    obtain ⟨hm, -, rfl⟩ := accept_inv hp
    have hm : s.accepted.length < (creates evs).length := hm
    simp only [RunOne.withProg, RunOne.prog, List.length_append, List.length_singleton]
    omega
  | acceptFails => exact absurd rfl hev
  | caller | createFails =>
    right
    have ha : p.accepted = s.accepted := by
      obtain ⟨q, -, rfl⟩ := Option.map_eq_some_iff.mp hp
      rfl
    exact ⟨congrArg (_ - List.length ·) ha, inner trivial⟩
  | worker i =>
    right
    exact ⟨congrArg (_ - List.length ·) (stepWorker_works hp).dispatcher.1, inner trivial⟩

/-- The driver comes to the end of the workload. -/
theorem comes_to_end (ht : 1 ≤ t) (hw : Each (Placed repoRoot) [] evs)
    (hp : Each (Prompt repoRoot) [] evs) (hr : Each (Roomy t repoRoot) [] evs)
    (hs : (runOne t junk E repoRoot reset evs ch).Reachable s) :
    (runOne t junk E repoRoot reset evs ch).Inevitable (fun s => s.suite.todo = []) s := by
  refine LTS.Inevitable.of_rank (P := (runOne t junk E repoRoot reset evs ch).Reachable) runRank
    (fun s mv s' hs hst => hs.step hst) ?_ ?_ hs
  · intro s mv s' hs hst
    obtain ⟨hmv, hst⟩ := hst
    cases mv with
    | driver cuts =>
      obtain ⟨past, h⟩ := runOne_together ht hw hs
      obtain ⟨u, hu, rfl⟩ := Option.map_eq_some_iff.mp hst
      exact runRank_drive h.running hw hmv hu
    | server ev => exact runRank_server hmv.2 hst
  · intro s hs hnot
    obtain ⟨past, h⟩ := runOne_together ht hw hs
    cases htodo : s.suite.todo with
    | nil => exact absurd htodo hnot
    | cons e todo =>
      obtain ⟨mv, s', hmv, hst⟩ := together_goes_on ht h hw hp hr htodo
      exact ⟨mv, s', hmv, hst⟩

end

/-! ## A workload that pauses -/

/-- A repository with one file. -/
def repoHi : RepoRoot := fun path n =>
  if path = ascii "f" ∧ 2 ≤ n then .ok (ascii "hi") else .error .fileNotFound

/-- A PUT stops after its request line while a GET of the same file is
answered. -/
def paused : List Event :=
  [.load (ascii "f") (ascii "a"),
    .create ⟨1, ascii "PUT", ascii "a", some (ascii "f")⟩, .sendLine 1,
    .create ⟨2, ascii "GET", ascii "a", none⟩, .sendAll 2, .wait 2,
    .sendHeaders 1, .sendBody 1 none, .wait 1, .unload (ascii "a")]

theorem repoHi_limited : Limited repoHi := by
  intro path n bytes h
  unfold repoHi at h
  split at h
  · rename_i hn
    cases h
    exact hn.2
  · cases h

theorem paused_placed : Each (Placed repoHi) [] paused := by
  have hflat : Flat (ascii "a") := ⟨by decide, by decide, by decide, by decide, by decide⟩
  have hput : Asks repoHi ⟨1, ascii "PUT", ascii "a", some (ascii "f")⟩ :=
    ⟨.inr ⟨rfl, rfl⟩, hflat, ⟨1, ascii "PUT", ascii "a", some (ascii "hi")⟩, _, by decide,
      ⟨rfl, .inl rfl, .inr rfl, by decide, short_noFit (by decide)⟩⟩
  have hget : Asks repoHi ⟨2, ascii "GET", ascii "a", none⟩ :=
    ⟨.inl ⟨rfl, rfl⟩, hflat, ⟨2, ascii "GET", ascii "a", none⟩, _, rfl,
      ⟨rfl, .inl rfl, .inl rfl, by decide, short_noFit (by decide)⟩⟩
  refine ⟨⟨rfl, hflat, ascii "hi", by decide⟩, ⟨hput, by decide, by decide⟩,
    ⟨⟨by decide, by decide⟩, by decide⟩, ⟨hget, by decide, by decide⟩,
    ⟨⟨by decide, by decide⟩, by decide⟩, ⟨by decide, by decide⟩, ⟨⟨by decide, by decide⟩, by decide⟩,
    ⟨⟨by decide, by decide⟩, by decide⟩, ⟨by decide, by decide⟩, ⟨hflat, .inr ?_⟩, trivial⟩
  intro id h
  cases h

theorem paused_get_sent (past : List Event) (h : sendsOf 2 past = [.sendAll]) :
    Sent repoHi past ⟨2, ascii "GET", ascii "a", none⟩ :=
  fun _ _ => .inl h

/-- At the first WAIT the PUT has sent no header yet. -/
theorem paused_get_ready : Ready repoHi (paused.take 5) ⟨2, ascii "GET", ascii "a", none⟩ := by
  refine ⟨paused_get_sent _ (by decide), List.forall_mem_cons.mpr ⟨fun _ => .inr (by decide), ?_⟩⟩
  exact List.forall_mem_singleton.mpr fun _ => .inl (paused_get_sent _ (by decide))

theorem paused_put_ready :
    Ready repoHi (paused.take 8) ⟨1, ascii "PUT", ascii "a", some (ascii "f")⟩ := by
  have hput : Sent repoHi (paused.take 8) ⟨1, ascii "PUT", ascii "a", some (ascii "f")⟩ := by
    intro d hd
    obtain rfl : _ = d := Option.some.inj hd
    exact .inr ⟨[none], by decide, by decide⟩
  refine ⟨hput, List.forall_mem_cons.mpr ⟨fun _ => .inl hput, ?_⟩⟩
  exact List.forall_mem_singleton.mpr fun _ => .inl (paused_get_sent _ (by decide))

theorem paused_prompt : Each (Prompt repoHi) [] paused := by
  refine ⟨trivial, trivial, trivial, trivial, trivial, ?_, trivial, trivial, ?_, trivial, trivial⟩
  · exact List.forall_mem_cons.mpr ⟨fun h => absurd h (by decide),
      List.forall_mem_singleton.mpr fun _ => paused_get_ready⟩
  · exact List.forall_mem_cons.mpr ⟨fun _ => paused_put_ready,
      List.forall_mem_singleton.mpr fun h => absurd h (by decide)⟩

/-- The PUT needs a thread of its own. -/
theorem paused_roomy : Each (Roomy 2 repoHi) [] paused := by
  refine ⟨False.elim, False.elim, False.elim, False.elim, False.elim, fun _ => ⟨[1], by decide, ?_⟩,
    False.elim, False.elim, fun _ => ⟨[], by decide, ?_⟩, False.elim, trivial⟩
  · exact List.forall_mem_cons.mpr ⟨fun _ => .inr (by decide),
      List.forall_mem_singleton.mpr fun _ => .inl paused_get_ready⟩
  · exact List.forall_mem_cons.mpr ⟨fun _ => .inl paused_put_ready,
      List.forall_mem_singleton.mpr fun h => absurd (by decide) h⟩

theorem cut_one : Cut [.got 0] := by decide

theorem writes_one : Writes [.put 1, .err .EINTR] := by decide

/-- First a byte, then the rest, on every descriptor. -/
def trickle : Channel :=
  ⟨[.got 0], [.put 1, .err .EINTR], [.got 0], [.put 1, .err .EINTR], cut_one, writes_one, cut_one,
    writes_one⟩

/-! ## The suite against the program -/

/-- **The suite ends, and passes.** Whatever the scheduler does, driver and
program together are never stuck before the end of the workload, do not go on
for ever, and end with a green verdict. -/
theorem runOne_ends (t : Nat) (ht : 1 ≤ t) (junk : Nat → Int) (E : Env) (cwd' : List Bytes)
    (repoRoot : RepoRoot) (hroot : Limited repoRoot) (reset : Errno → Bool)
    (excerpt : Bytes → Bytes) (evs : List Event) (hw : Each (Placed repoRoot) [] evs)
    (hp : Each (Prompt repoRoot) [] evs) (hr : Each (Roomy t repoRoot) [] evs)
    (ch : Fin (creates evs).length → Channel) (s : RunOne t (creates evs).length)
    (hs : (runOne t junk E repoRoot reset evs ch).Reachable s) :
    (runOne t junk E repoRoot reset evs ch).Inevitable
      (fun s => s.suite.todo = [] ∧ Passes cwd' repoRoot excerpt evs s.suite) s := by
  have hends := comes_to_end ht hw hp hr hs
  refine (hends.and (fun s mv s' hs hst => hs.step hst) hs).mono fun s hend => ?_
  obtain ⟨past, h⟩ := runOne_together ht hw hend.2
  exact ⟨hend.1, h.running.passes cwd' excerpt hw hroot hend.1⟩

/-- Two threads are enough for it. -/
theorem runOne_ends_paused :
    (runOne 2 (fun _ => 0) ⟨[ascii "srv"], 1, 2⟩ repoHi (fun _ => false) paused
        fun _ => trickle).Inevitable
      (fun s => s.suite.todo = [] ∧ Passes [ascii "tmp"] repoHi id paused s.suite)
      (RunOne.initial 2 (fun _ => 0) repoHi paused fun _ => trickle) :=
  runOne_ends 2 (by decide) _ _ _ _ repoHi_limited _ _ _ paused_placed paused_prompt paused_roomy _ _
    ⟨_, [], rfl, .nil _⟩

/-- **No false alarm.** A workload the suite can judge, run to its end against
the program in whatever interleaving and however the bytes come and go, passes,
and deserves to. -/
theorem runOne_green (t : Nat) (ht : 1 ≤ t) (junk : Nat → Int) (E : Env) (cwd' : List Bytes)
    (repoRoot : RepoRoot) (hroot : Limited repoRoot) (reset : Errno → Bool)
    (excerpt : Bytes → Bytes) (evs : List Event) (hw : Each (Placed repoRoot) [] evs)
    (ch : Fin (creates evs).length → Channel) (s : RunOne t (creates evs).length)
    (hs : (runOne t junk E repoRoot reset evs ch).Reachable s) (hend : s.suite.todo = []) :
    Passes cwd' repoRoot excerpt evs s.suite := by
  obtain ⟨past, h⟩ := runOne_together ht hw hs
  exact h.running.passes cwd' excerpt hw hroot hend

/-- The end of that run. -/
theorem runOne_green_paused : ∃ s,
    (runOne 2 (fun _ => 0) ⟨[ascii "srv"], 1, 2⟩ repoHi (fun _ => false) paused
        fun _ => trickle).Reachable s ∧
      s.suite.todo = [] ∧ Passes [ascii "tmp"] repoHi id paused s.suite := by
  have hinit : (runOne 2 (fun _ => 0) ⟨[ascii "srv"], 1, 2⟩ repoHi (fun _ => false) paused
      fun _ => trickle).Reachable (RunOne.initial 2 (fun _ => 0) repoHi paused fun _ => trickle) :=
    ⟨_, [], rfl, .nil _⟩
  obtain ⟨mvs, s, hrun, hend⟩ :=
    (comes_to_end (by decide) paused_placed paused_prompt paused_roomy hinit).run
  have hs := hinit.run hrun
  exact ⟨s, hs, hend, runOne_green 2 (by decide) _ _ _ _ repoHi_limited _ _ _ paused_placed _ s hs hend⟩

end HttpC.L9
