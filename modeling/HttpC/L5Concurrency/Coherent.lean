import HttpC.L5Concurrency.Processes

/-!
# Coherence across processes and kills

"Real cross-process coherency, the property flock buys over any in-process
table" (src/httpserver.c:50-51): whichever processes serve the requests, and
whichever of them are killed, the history is a linearization. Every audit line
has the status, and its client the bytes, of the sequential file server of
`Core/FileSpec`; a PUT that was cut off has not happened, or is one PUT of a
prefix of its body. Each process's audit log is its part of the history.

What the processes must share is the lockfile of a file they share
(`Shares`): so do processes that serve one directory (`shares_directory`).

The invariant is that of `L5Concurrency/Linear`, for the threads that have not
stopped. A thread that stops while it writes keeps its lock until its process
is gone; what its file then holds goes into the history, so that files and
history agree before anybody else gets in.
-/
namespace HttpC.L5
open HttpC.L1.Util HttpC.L2 HttpC.L3 HttpC.Flock HttpC.Spec

variable {k n : Nat}

section
variable (Es : Fin k → Env) (owner : Fin n → Fin k) (jobs : Fin n → Job) (files₀ : Files)

/-- The file of a request, and its lockfile. -/
def hostFile (i : Fin n) : List Bytes := (Es (owner i)).fileOf (jobs i).conn.uri

def hostLock (i : Fin n) : Bytes := (Es (owner i)).lockOf (jobs i).conn.uri

/-- Requests for one file go through one lockfile. -/
def Shares : Prop :=
  ∀ i j, hostFile Es owner jobs i = hostFile Es owner jobs j →
    hostLock Es owner jobs i = hostLock Es owner jobs j

/-- The operation an effect stands for. -/
def Effect.op : Effect n → Op (List Bytes)
  | .line i _ => (jobs i).op (Es (owner i))
  | .cut i b => .put (hostFile Es owner jobs i) b

/-- The files as a history leaves them. -/
def effected (h : List (Effect n)) : Files := replay files₀ (h.map (Effect.op Es owner jobs))

/-- The answer to request `i` after the history `h`. -/
def answerAfter (h : List (Effect n)) (i : Fin n) : Reply :=
  ((jobs i).op (Es (owner i))).reply (effected Es owner jobs files₀ h (hostFile Es owner jobs i))

end

/-- Servers of one directory share its lockfiles. -/
theorem shares_directory {E : Env} {Es : Fin k → Env} {owner : Fin n → Fin k} {jobs : Fin n → Job}
    (hE : ∀ p, Es p = E) (hd : Distinct E jobs) : Shares Es owner jobs := by
  intro i j hf
  simp only [hostFile, hE] at hf
  have hu : (jobs i).conn.uri = (jobs j).conn.uri := by
    by_contra hne
    exact hd i j hne hf
  rw [hostLock, hostLock, hE, hE, hu]

/-! ## A thread that stops -/

section
variable {E : Env} {J : Job} {files : Files} {g : Option Bytes} {w : Worker} {o : Outcome}
  {free : Bytes → Mode → Bool}

/-- What a place knows, and of a file that is open but not yet truncated. -/
def Placed (E : Env) (J : Job) (f g : Option Bytes) (w : Worker) : Prop :=
  At E J f g w w.pc ∧ ∀ ex, w.pc = .putTrunc ex → f = g ∨ f = some []

theorem Placed.frame {f f' g' : Option Bytes} (h : Placed E J f g w) (hin : w.pc.inside = false) :
    Placed E J f' g' w := by
  refine ⟨h.1.frame hin, fun ex hpc => ?_⟩
  rw [hpc] at hin
  cases hin

/-- The only way to a file that is open for writing. -/
theorem trunc_from {ex : Bool} (ho : w.step E free files = some o)
    (hpc : o.worker.pc = .putTrunc ex) : w.pc = .putOpen ex := by
  cases hw : w.pc with
  | new =>
    simp only [Worker.step, hw] at ho
    split at ho <;> cases ho <;> cases hpc
  | parse =>
    simp only [Worker.step, hw] at ho
    cases ho
    rcases dispatch_cases (connParse w.oracle.regcomp w.client).1
      (connParse w.oracle.regcomp w.client).2.1 with ⟨hd, -⟩ | ⟨⟨res, hd⟩, -⟩ | ⟨⟨op, hd⟩, -⟩ <;>
      rw [hd] at hpc <;> cases hpc
  | tail acts =>
    cases acts with
    | nil => simp [Worker.step, hw] at ho
    | cons a as =>
      simp only [Worker.step, hw, Option.some.injEq] at ho
      subst ho
      cases a <;> cases hpc
  | _ =>
    obtain ⟨acts, hfo⟩ := step_follows ho (by rw [hw]; rfl)
    have hflow := hfo.flow
    rw [hw, hpc] at hflow
    cases hflow
    all_goals rfl

/-- Opening a file for writing leaves it as it was, or makes an empty one. -/
theorem opened_content {ex : Bool} (h : Placed E J (files (E.fileOf J.conn.uri)) g w)
    (ho : w.step E free files = some o) (hpc : o.worker.pc = .putTrunc ex) :
    o.files (E.fileOf J.conn.uri) = g ∨ o.files (E.fileOf J.conn.uri) = some [] := by
  have hw := trunc_from ho hpc
  have hat := h.1
  rw [hw] at hat
  obtain ⟨hh, -, -, -, hfg, -⟩ := hat
  have hopen : w.oracle.openErr = none := by rw [hh.oracle]
  simp only [Worker.step, hw, hopen, hh.uri] at ho
  cases ho
  simp only [Function.update_self, hfg]
  cases g with
  | none => exact .inr rfl
  | some c => exact .inl rfl

theorem cutShort_other {sent : Nat} {x : List Bytes} (h : x ≠ E.fileOf w.conn.uri) :
    cutShort E files w sent x = files x := by
  cases hpc : w.pc
  case putLeft | putRecv =>
    simp only [cutShort, hpc]
    exact Function.update_of_ne h _ _
  all_goals simp only [cutShort, hpc]

/-- A handler that is not writing has nothing to cut short. -/
theorem cutShort_quiet {sent : Nat} (h : Placed E J (files (E.fileOf J.conn.uri)) g w)
    (hw : ¬ Writing J w) : cutShort E files w sent = files := by
  have hat := h.1
  unfold cutShort
  split
  · rename_i hpc
    rw [hpc] at hat
    exact absurd ⟨hat.2.2.1, by rw [hpc]; rfl⟩ hw
  · rename_i hpc
    rw [hpc] at hat
    exact absurd ⟨hat.2.2.1, by rw [hpc]; rfl⟩ hw
  · rfl

/-- Nothing is left behind by it either. -/
theorem leaves_quiet {i : Fin n} (h : Placed E J (files (E.fileOf J.conn.uri)) g w)
    (hw : ¬ Writing J w) : leaves E files i w = [] := by
  unfold leaves
  split
  · rename_i hc
    exfalso
    have hin : w.pc.inside = true := by
      have := hc.2
      cases hpc : w.pc <;> rw [hpc] at this <;> simp_all [Pc.writing, Pc.inside]
    rw [h.1.conn hin] at hc
    exact hw hc
  · rfl

/-- The write of the leftover, cut short. -/
theorem cut_left {ex : Bool} {sent : Nat} (h : At E J (files (E.fileOf J.conn.uri)) g w w.pc)
    (hpc : w.pc = .putLeft ex) :
    ∃ b, cutShort E files w sent (E.fileOf J.conn.uri) = some b ∧ b <+: J.body := by
  rw [hpc] at h
  obtain ⟨hh, -, -, -, hf, -⟩ := h
  obtain ⟨d, hd, hd1, -⟩ := writeAll_writes (d := ⟨[], w.fileWrites⟩) (leftover J.conn) hh.writes
  rw [List.nil_append] at hd1
  have hwr : ∀ bs, writeAt [] 0 bs = bs := writeAt_end []
  refine ⟨(leftover J.conn).take sent, ?_, ?_⟩
  · simp only [cutShort, hpc, hh.conn, Function.update_self, hf, hd, hd1, hwr, Option.getD_some]
  · exact (List.take_prefix _ _).trans (List.prefix_append _ _)

/-- A round of the upload, cut short. -/
theorem cut_recv {ex : Bool} {total sent : Nat}
    (h : At E J (files (E.fileOf J.conn.uri)) g w w.pc) (hpc : w.pc = .putRecv ex total) :
    ∃ b, cutShort E files w sent (E.fileOf J.conn.uri) = some b ∧ b <+: J.body := by
  rw [hpc] at h
  obtain ⟨hh, -, hput, -, hle, hcl, hf⟩ := h
  have hall := J.sound.whole hput
  have hoff : (leftover J.conn).length + total =
      (leftover J.conn ++ J.rest.pending.take total).length := by
    rw [List.length_append, List.length_take]; omega
  obtain ⟨a, p, hP, -⟩ := passRound_spec (remaining J.conn) w.client ⟨[], w.fileWrites⟩ total
  have htak : J.rest.pending.drop total =
      a ++ (passRound (remaining J.conn) w.client ⟨[], w.fileWrites⟩ total).2.1.pending := by
    rw [← hcl]; exact hP.taken
  refine ⟨leftover J.conn ++ (J.rest.pending.take total ++ p.take sent), ?_, ?_⟩
  · have hput' := hP.put
    rw [List.nil_append] at hput'
    simp only [cutShort, hpc, hh.conn, Function.update_self, hf, Option.getD_some, hput']
    rw [hoff, writeAt_end, List.append_assoc]
  · refine (List.prefix_append_right_inj _).mpr ?_
    have hpre : J.rest.pending.take total ++ p.take sent <+: J.rest.pending := by
      conv_rhs => rw [← List.take_append_drop total J.rest.pending, htak]
      refine (List.prefix_append_right_inj _).mpr ?_
      exact (List.take_prefix _ _).trans (hP.pre.trans (List.prefix_append _ _))
    -- a round takes no more than is left of the body
    refine List.prefix_take_iff.mpr ⟨hpre, ?_⟩
    have hlen := hP.pre.length_le
    have hmax := hP.le
    rw [List.length_append, List.length_take, List.length_take]
    omega

/-- **What a killed PUT leaves**: its file as it was, or a prefix of its
body. -/
theorem cut_content {sent : Nat} (h : Placed E J (files (E.fileOf J.conn.uri)) g w)
    (hw : Writing J w) :
    cutShort E files w sent (E.fileOf J.conn.uri) = g ∨
      ∃ b, cutShort E files w sent (E.fileOf J.conn.uri) = some b ∧ b <+: J.body := by
  obtain ⟨hat, htr⟩ := h
  have hkeep : (∀ ex, w.pc ≠ .putLeft ex) → (∀ ex t, w.pc ≠ .putRecv ex t) →
      cutShort E files w sent = files := by
    intro h1 h2
    unfold cutShort
    split
    · exact absurd ‹_› (h1 _)
    · exact absurd ‹_› (h2 _ _)
    · rfl
  cases hpc : w.pc with
  | putLeft ex => exact .inr (cut_left hat hpc)
  | putRecv ex total => exact .inr (cut_recv hat hpc)
  | putAccess =>
    rw [hkeep (by simp [hpc]) (by simp [hpc])]
    rw [hpc] at hat
    exact .inl hat.2.2.2.2
  | putOpen ex =>
    rw [hkeep (by simp [hpc]) (by simp [hpc])]
    rw [hpc] at hat
    exact .inl hat.2.2.2.2.1
  | putTrunc ex =>
    rw [hkeep (by simp [hpc]) (by simp [hpc])]
    rcases htr ex hpc with hf | hf
    · exact .inl hf
    · exact .inr ⟨[], hf, List.nil_prefix⟩
  | tail acts =>
    rw [hkeep (by simp [hpc]) (by simp [hpc])]
    rw [hpc] at hat
    have hau : audits acts ≠ [] := by
      have := hw.2
      rw [hpc] at this
      intro hh
      simp [Pc.writing, hh] at this
    have hbody : files (E.fileOf J.conn.uri) = (J.op E).after g := by
      obtain ⟨-, ⟨res, -, -, -, -, hf⟩ | ⟨res, -, -, -, hf⟩ | ⟨-, ha⟩⟩ := hat
      · exact hf
      · exact hf
      · exact absurd ha hau
    rw [J.op_put E hw.1] at hbody
    exact .inr ⟨J.body, hbody, List.prefix_refl _⟩
  | _ =>
    have := hw.2
    rw [hpc] at this
    cases this

end

/-! ## The whole host -/

/-- What is true of every place of a list is true of every place of a longer
one, if it is true of the last. -/
theorem splits_snoc {α : Type} {P : List α → α → Prop} {h : List α} {e : α}
    (hP : ∀ pre x post, h = pre ++ x :: post → P pre x) (he : P h e) :
    ∀ pre x post, h ++ [e] = pre ++ x :: post → P pre x := by
  intro pre x post heq
  rcases List.eq_nil_or_concat post with rfl | ⟨post', y, rfl⟩
  · obtain ⟨rfl, hx⟩ := List.append_inj' heq rfl
    cases hx
    exact he
  · rw [List.concat_eq_append, ← List.cons_append, ← List.append_assoc] at heq
    exact hP pre x post' (List.append_inj' heq rfl).1

section
variable (Es : Fin k → Env) (owner : Fin n → Fin k) (jobs : Fin n → Job) (files₀ : Files)

/-- What the history before an effect has to do with it. -/
def Explains (stopped : Fin n → Bool) (workers : Fin n → Worker) (pre : List (Effect n)) :
    Effect n → Prop
  | .line i l => l = (jobs i).line (answerAfter Es owner jobs files₀ pre i) ∧
      (workers i).sock.written = wire (answerAfter Es owner jobs files₀ pre i) ∧
      Closing (workers i)
  | .cut i b => stopped i = true ∧ (jobs i).conn.request = .PUT ∧
      (effected Es owner jobs files₀ pre (hostFile Es owner jobs i) = some b ∨
        b <+: (jobs i).body)

structure Host.Linear (s : Host k n) : Prop where
  place : ∀ i, s.stopped i = false → Placed (Es (owner i)) (jobs i)
    (s.files (hostFile Es owner jobs i))
    (effected Es owner jobs files₀ s.history (hostFile Es owner jobs i)) (s.workers i)
  agree : ∀ x, s.files x = effected Es owner jobs files₀ s.history x ∨
    ∃ i, s.stopped i = false ∧ hostFile Es owner jobs i = x ∧ Writing (jobs i) (s.workers i)
  explained : ∀ pre e post, s.history = pre ++ e :: post →
    Explains Es owner jobs files₀ s.stopped s.workers pre e
  once : (s.history.map Effect.who).Nodup

variable {Es owner jobs files₀} {s s' : Host k n}

@[simp] theorem Effect.op_file (e : Effect n) :
    (e.op Es owner jobs).file = hostFile Es owner jobs e.who := by
  cases e with
  | line i l => exact Job.op_file _ _
  | cut i b => rfl

theorem effected_snoc (h : List (Effect n)) (e : Effect n) :
    effected Es owner jobs files₀ (h ++ [e]) =
      (e.op Es owner jobs).apply (effected Es owner jobs files₀ h) := by
  simp [effected, replay_snoc]

/-- An effect changes its own file only. -/
theorem effected_other (h : List (Effect n)) (e : Effect n) {x : List Bytes}
    (hx : x ≠ hostFile Es owner jobs e.who) :
    effected Es owner jobs files₀ (h ++ [e]) x = effected Es owner jobs files₀ h x := by
  rw [effected_snoc]
  exact apply_other _ _ (by rw [Effect.op_file]; exact hx)

theorem effected_own (h : List (Effect n)) (e : Effect n) :
    effected Es owner jobs files₀ (h ++ [e]) (hostFile Es owner jobs e.who) =
      (e.op Es owner jobs).after
        (effected Es owner jobs files₀ h (hostFile Es owner jobs e.who)) := by
  rw [effected_snoc, ← Effect.op_file]
  exact apply_file _ _

theorem Explains.mono {stopped stopped' : Fin n → Bool} {workers workers' : Fin n → Worker}
    {pre : List (Effect n)} {e : Effect n}
    (h : Explains Es owner jobs files₀ stopped workers pre e)
    (hs : ∀ i, stopped i = true → stopped' i = true)
    (hw : ∀ i, Closing (workers i) → (workers' i).sock = (workers i).sock ∧ Closing (workers' i)) :
    Explains Es owner jobs files₀ stopped' workers' pre e := by
  cases e with
  | line i l =>
    obtain ⟨hl, hsock, hc⟩ := h
    obtain ⟨hsame, hc'⟩ := hw i hc
    exact ⟨hl, by rw [hsame]; exact hsock, hc'⟩
  | cut i b =>
    obtain ⟨hst, hb⟩ := h
    exact ⟨hs i hst, hb⟩

theorem Host.Linear.start :
    Host.Linear Es owner jobs files₀ (.start (fun i => (jobs i).incoming) files₀) where
  place _ _ := ⟨rfl, fun ex h => by cases h⟩
  agree _ := .inl rfl
  explained pre e post h := by simp [Host.start] at h
  once := List.nodup_nil

/-- A request in the history has stopped, or has only its connection left to
close. -/
theorem Host.Linear.past (h : s.Linear Es owner jobs files₀) {i : Fin n}
    (hm : i ∈ s.history.map Effect.who) : s.stopped i = true ∨ Closing (s.workers i) := by
  obtain ⟨e, he, rfl⟩ := List.mem_map.mp hm
  obtain ⟨pre, post, heq⟩ := List.append_of_mem he
  have hex := h.explained pre e post heq
  cases e with
  | line i l => exact .inr hex.2.2
  | cut i b => exact .inl hex.1

theorem Host.Linear.fresh (h : s.Linear Es owner jobs files₀) {i : Fin n}
    (hi : s.stopped i = false) (hc : ¬ Closing (s.workers i)) {e : Effect n} (he : e.who = i) :
    ((s.history ++ [e]).map Effect.who).Nodup := by
  rw [List.map_append, List.nodup_append]
  refine ⟨h.once, by simp, fun a ha b hb => ?_⟩
  simp only [List.map_cons, List.map_nil, List.mem_singleton] at hb
  rw [hb, he]
  intro hh
  subst hh
  rcases h.past ha with hst | hcl
  · rw [hi] at hst; cases hst
  · exact hc hcl

/-! ### Who is alone with a file -/

/-- A running thread inside its lock holds the lockfile of its request. -/
theorem Host.Linear.holds (h : s.Linear Es owner jobs files₀) (hl : s.Locked Es owner) {i : Fin n}
    (hi : s.stopped i = false) (hin : (s.workers i).pc.inside = true) :
    s.table owner i = some (hostLock Es owner jobs i, lockMode (jobs i).conn.request) := by
  rw [hl.live hi, (hl.guarded i).held, hin, (h.place i hi).1.conn hin]
  rfl

theorem Host.Linear.alone (hS : Shares Es owner jobs) (h : s.Linear Es owner jobs files₀)
    (hl : s.Locked Es owner) {i j : Fin n} (hi : s.stopped i = false) (hj : s.stopped j = false)
    (hin : (s.workers i).pc.inside = true) (hput : (jobs i).conn.request = .PUT)
    (hf : hostFile Es owner jobs j = hostFile Es owner jobs i)
    (hjn : (s.workers j).pc.inside = true) : j = i := by
  have hti := h.holds hl hi hin
  have htj := h.holds hl hj hjn
  rw [hput] at hti
  rw [hS j i hf] at htj
  exact hl.table.alone hti htj

/-- A lock that is free says that the file is what the history made it. -/
theorem Host.Linear.unlocked (hS : Shares Es owner jobs) (h : s.Linear Es owner jobs files₀)
    (hl : s.Locked Es owner) {i : Fin n} {op : Mode} (hpc : (s.workers i).pc = .lock op)
    (hfree : s.free owner i (hostLock Es owner jobs i) op = true) :
    s.files (hostFile Es owner jobs i) =
      effected Es owner jobs files₀ s.history (hostFile Es owner jobs i) := by
  rcases h.agree (hostFile Es owner jobs i) with ha | ⟨j, hj, hf, hw⟩
  · exact ha
  exfalso
  have hji : j ≠ i := by
    intro hh
    subst hh
    have := hw.2
    rw [hpc] at this
    cases this
  have ht := h.holds hl hj hw.inside
  rw [hS j i hf, hw.1] at ht
  have hfree' := of_decide_eq_true hfree
  cases op with
  | SH => exact hfree' j hji ht
  | EX => exact (hfree' j hji).2 ht

section
variable {files' : Files} {h' : List (Effect n)} {i : Fin n}

/-- Thread `i` changes its own file only; and that one only if nobody else is
inside with it. The others then know what they knew. -/
theorem Host.Linear.others (hS : Shares Es owner jobs) (h : s.Linear Es owner jobs files₀)
    (hl : s.Locked Es owner) (hi : s.stopped i = false)
    (hfar : ∀ x, x ≠ hostFile Es owner jobs i → files' x = s.files x ∧
      effected Es owner jobs files₀ h' x = effected Es owner jobs files₀ s.history x)
    (hnear : ((s.workers i).pc.inside = true ∧ (jobs i).conn.request = .PUT) ∨
      (files' (hostFile Es owner jobs i) = s.files (hostFile Es owner jobs i) ∧
        effected Es owner jobs files₀ h' (hostFile Es owner jobs i) =
          effected Es owner jobs files₀ s.history (hostFile Es owner jobs i)))
    {j : Fin n} (hji : j ≠ i) (hj : s.stopped j = false) :
    Placed (Es (owner j)) (jobs j) (files' (hostFile Es owner jobs j))
      (effected Es owner jobs files₀ h' (hostFile Es owner jobs j)) (s.workers j) := by
  have hp := h.place j hj
  by_cases hf : hostFile Es owner jobs j = hostFile Es owner jobs i
  · rcases hnear with ⟨hin, hput⟩ | ⟨h1, h2⟩
    · have hout : (s.workers j).pc.inside = false := by
        by_contra hjn
        exact hji (h.alone hS hl hi hj hin hput hf (by simpa using hjn))
      exact hp.frame hout
    · rw [hf] at hp ⊢
      rw [h1, h2]
      exact hp
  · obtain ⟨h1, h2⟩ := hfar _ hf
    rw [h1, h2]
    exact hp

/-- Files and history agree again, or thread `i` is the one that writes. -/
theorem Host.Linear.agrees {stopped' : Fin n → Bool} {workers' : Fin n → Worker}
    (h : s.Linear Es owner jobs files₀)
    (hfar : ∀ x, x ≠ hostFile Es owner jobs i → files' x = s.files x ∧
      effected Es owner jobs files₀ h' x = effected Es owner jobs files₀ s.history x)
    (hkeep : ∀ j, j ≠ i → stopped' j = s.stopped j ∧ workers' j = s.workers j)
    (hnear : files' (hostFile Es owner jobs i) =
        effected Es owner jobs files₀ h' (hostFile Es owner jobs i) ∨
      (stopped' i = false ∧ Writing (jobs i) (workers' i)) ∨
      (¬ Writing (jobs i) (s.workers i) ∧
        files' (hostFile Es owner jobs i) = s.files (hostFile Es owner jobs i) ∧
        effected Es owner jobs files₀ h' (hostFile Es owner jobs i) =
          effected Es owner jobs files₀ s.history (hostFile Es owner jobs i))) (x : List Bytes) :
    files' x = effected Es owner jobs files₀ h' x ∨
      ∃ j, stopped' j = false ∧ hostFile Es owner jobs j = x ∧ Writing (jobs j) (workers' j) := by
  -- what agreed before, or another thread writes, for a file that is as it was
  have hold : files' x = s.files x →
      effected Es owner jobs files₀ h' x = effected Es owner jobs files₀ s.history x →
      (hostFile Es owner jobs i = x → ¬ Writing (jobs i) (s.workers i)) →
      files' x = effected Es owner jobs files₀ h' x ∨
        ∃ j, stopped' j = false ∧ hostFile Es owner jobs j = x ∧
          Writing (jobs j) (workers' j) := by
    intro h1 h2 hnw
    rcases h.agree x with ha | ⟨j, hj, hf, hw⟩
    · exact .inl (by rw [h1, h2]; exact ha)
    · have hji : j ≠ i := by
        intro hh
        subst hh
        exact hnw hf hw
      obtain ⟨e1, e2⟩ := hkeep j hji
      exact .inr ⟨j, by rw [e1]; exact hj, hf, by rw [e2]; exact hw⟩
  by_cases hx : x = hostFile Es owner jobs i
  · subst hx
    rcases hnear with ha | ⟨hi, hw⟩ | ⟨hnw, h1, h2⟩
    · exact .inl ha
    · exact .inr ⟨i, hi, rfl, hw⟩
    · exact hold h1 h2 fun _ => hnw
  · obtain ⟨h1, h2⟩ := hfar x hx
    exact hold h1 h2 fun hh => absurd hh.symm hx

/-! ### One step -/

/-- A step that writes no audit line. -/
theorem Host.Linear.quiet (hS : Shares Es owner jobs) (h : s.Linear Es owner jobs files₀)
    (hl : s.Locked Es owner) (hi : s.stopped i = false) {o : Outcome}
    (ho : (s.workers i).step (Es (owner i)) (s.free owner i) s.files = some o)
    (hline : o.line = none) (logs : Fin k → List (Fin n × LogLine)) :
    Host.Linear Es owner jobs files₀
      { s with files := o.files, logs, workers := Function.update s.workers i o.worker } := by
  have hst := step_at (h.place i hi).1 (fun _ hpc hf => h.unlocked hS hl hpc hf) ho
  obtain ⟨hat, hkeep⟩ := hst.quiet hline
  have hfar : ∀ x, x ≠ hostFile Es owner jobs i → o.files x = s.files x ∧
      effected Es owner jobs files₀ s.history x = effected Es owner jobs files₀ s.history x :=
    fun x hx => ⟨hst.other x hx, rfl⟩
  refine ⟨fun j hj => ?_, ?_, fun pre e post heq => ?_, h.once⟩
  · by_cases hji : j = i
    · subst hji
      simp only [Function.update_self]
      exact ⟨hat, fun ex hpc => opened_content (h.place j hi) ho hpc⟩
    simp only [Function.update_of_ne hji]
    refine h.others hS hl hi hfar ?_ hji hj
    by_cases hw : Writing (jobs i) (s.workers i)
    · exact .inl ⟨hw.inside, hw.1⟩
    · exact .inr ⟨by rw [hst.same hw], rfl⟩
  · refine h.agrees hfar (fun j hji => ⟨rfl, Function.update_of_ne hji _ _⟩) ?_
    by_cases hw : Writing (jobs i) (s.workers i)
    · exact .inr (.inl ⟨hi, by simpa using hkeep hw⟩)
    · exact .inr (.inr ⟨hw, by rw [hst.same hw], rfl⟩)
  · refine (h.explained pre e post heq).mono (fun _ hh => hh) fun j hc => ?_
    by_cases hji : j = i
    · subst hji
      simp only [Function.update_self]
      exact (closing_step hc ho).2
    · simpa [Function.update_of_ne hji] using hc

/-- An audit line: the request takes effect. -/
theorem Host.Linear.audit (hS : Shares Es owner jobs) (h : s.Linear Es owner jobs files₀)
    (hl : s.Locked Es owner) (hi : s.stopped i = false) {o : Outcome}
    (ho : (s.workers i).step (Es (owner i)) (s.free owner i) s.files = some o) {l : LogLine}
    (hline : o.line = some l) (logs : Fin k → List (Fin n × LogLine)) :
    Host.Linear Es owner jobs files₀
      { s with
        files := o.files, logs, workers := Function.update s.workers i o.worker
        history := s.history ++ [.line i l] } := by
  have hst := step_at (h.place i hi).1 (fun _ hpc hf => h.unlocked hS hl hpc hf) ho
  obtain ⟨hl', hsock, hin, hfiles, hafter, hclosing, hat⟩ := hst.audited l hline
  have hnc : ¬ Closing (s.workers i) := by
    intro hc
    have := (closing_step hc ho).1
    rw [hline] at this
    cases this
  have hown : effected Es owner jobs files₀ (s.history ++ [.line i l]) (hostFile Es owner jobs i) =
      ((jobs i).op (Es (owner i))).after
        (effected Es owner jobs files₀ s.history (hostFile Es owner jobs i)) :=
    effected_own s.history (.line i l)
  have hfar : ∀ x, x ≠ hostFile Es owner jobs i → s.files x = s.files x ∧
      effected Es owner jobs files₀ (s.history ++ [.line i l]) x =
        effected Es owner jobs files₀ s.history x :=
    fun x hx => ⟨rfl, effected_other _ _ hx⟩
  rw [hfiles]
  refine ⟨fun j hj => ?_, ?_, ?_, h.fresh hi hnc rfl⟩
  · by_cases hji : j = i
    · subst hji
      simp only [Function.update_self]
      refine ⟨hat _ _, fun ex hpc => ?_⟩
      obtain ⟨acts, hacts, -⟩ := hclosing
      rw [hacts] at hpc
      cases hpc
    simp only [Function.update_of_ne hji]
    refine h.others hS hl hi hfar ?_ hji hj
    rcases (jobs i).sound.method with hm | hm
    · -- a GET has no effect on its file
      refine .inr ⟨rfl, ?_⟩
      rw [hown, Job.op_get _ _ hm]
      rfl
    · exact .inl ⟨hin, hm⟩
  · exact h.agrees hfar (fun j hji => ⟨rfl, Function.update_of_ne hji _ _⟩)
      (.inl (hafter.trans hown.symm))
  · refine splits_snoc (fun pre e post heq => ?_) ?_
    · refine (h.explained pre e post heq).mono (fun _ hh => hh) fun j hc => ?_
      have hji : j ≠ i := by
        intro hh
        subst hh
        exact hnc hc
      simpa [Function.update_of_ne hji] using hc
    · simp only [Explains, Function.update_self]
      exact ⟨hl', hsock, hclosing⟩

theorem stays_stopped (j : Fin n) (hj : s.stopped j = true) :
    Function.update s.stopped i true j = true := by
  by_cases hji : j = i
  · rw [hji, Function.update_self]
  · rw [Function.update_of_ne hji]; exact hj

/-- A thread stops outside a PUT. -/
theorem Host.Linear.stopQuiet (h : s.Linear Es owner jobs files₀)
    (hw : ¬ Writing (jobs i) (s.workers i)) :
    Host.Linear Es owner jobs files₀
      { s with stopped := Function.update s.stopped i true } := by
  refine ⟨fun j hj => ?_, ?_, fun pre e post heq => ?_, h.once⟩
  · simp only at hj
    by_cases hji : j = i
    · rw [hji, Function.update_self] at hj; cases hj
    · rw [Function.update_of_ne hji] at hj; exact h.place j hj
  · exact h.agrees (fun _ _ => ⟨rfl, rfl⟩) (fun j hji => ⟨Function.update_of_ne hji _ _, rfl⟩)
      (.inr (.inr ⟨hw, rfl, rfl⟩))
  · exact (h.explained pre e post heq).mono stays_stopped fun _ hc => ⟨rfl, hc⟩

/-- A thread stops inside a PUT: what it wrote is all that comes of it. -/
theorem Host.Linear.stopWriting (hS : Shares Es owner jobs) (h : s.Linear Es owner jobs files₀)
    (hl : s.Locked Es owner) (hi : s.stopped i = false)
    (hw : Writing (jobs i) (s.workers i)) {files' : Files} {es : List (Effect n)}
    (hother : ∀ x, x ≠ hostFile Es owner jobs i → files' x = s.files x)
    (hown : (files' (hostFile Es owner jobs i) = none ∧ es = [] ∧
        effected Es owner jobs files₀ s.history (hostFile Es owner jobs i) = none) ∨
      ∃ b, files' (hostFile Es owner jobs i) = some b ∧ es = [.cut i b] ∧
        (effected Es owner jobs files₀ s.history (hostFile Es owner jobs i) = some b ∨
          b <+: (jobs i).body)) :
    Host.Linear Es owner jobs files₀
      { s with
        files := files', stopped := Function.update s.stopped i true
        history := s.history ++ es } := by
  have hnc : ¬ Closing (s.workers i) := by
    intro hc
    obtain ⟨acts, hpc, -, ha⟩ := hc
    have := hw.2
    rw [hpc] at this
    simp [Pc.writing, ha] at this
  have hfar : ∀ x, x ≠ hostFile Es owner jobs i → files' x = s.files x ∧
      effected Es owner jobs files₀ (s.history ++ es) x =
        effected Es owner jobs files₀ s.history x := by
    intro x hx
    refine ⟨hother x hx, ?_⟩
    rcases hown with ⟨-, rfl, -⟩ | ⟨b, -, rfl, -⟩
    · rw [List.append_nil]
    · exact effected_other _ _ hx
  have hnear : files' (hostFile Es owner jobs i) =
      effected Es owner jobs files₀ (s.history ++ es) (hostFile Es owner jobs i) := by
    rcases hown with ⟨h1, rfl, h2⟩ | ⟨b, h1, rfl, -⟩
    · rw [List.append_nil, h1, h2]
    · rw [h1, show hostFile Es owner jobs i = hostFile Es owner jobs (Effect.cut i b).who from rfl,
        effected_own]
      rfl
  refine ⟨fun j hj => ?_, ?_, ?_, ?_⟩
  · simp only at hj
    by_cases hji : j = i
    · rw [hji, Function.update_self] at hj; cases hj
    · rw [Function.update_of_ne hji] at hj
      exact h.others hS hl hi hfar (.inl ⟨hw.inside, hw.1⟩) hji hj
  · exact h.agrees hfar (fun j hji => ⟨Function.update_of_ne hji _ _, rfl⟩) (.inl hnear)
  · have hmono : ∀ pre e post, s.history = pre ++ e :: post →
        Explains Es owner jobs files₀ (Function.update s.stopped i true) s.workers pre e :=
      fun pre e post heq => (h.explained pre e post heq).mono stays_stopped fun _ hc => ⟨rfl, hc⟩
    rcases hown with ⟨-, rfl, -⟩ | ⟨b, -, rfl, hb⟩
    · rw [List.append_nil]; exact hmono
    · exact splits_snoc hmono ⟨by simp, hw.1, hb⟩
  · rcases hown with ⟨-, rfl, -⟩ | ⟨b, -, rfl, -⟩
    · rw [List.append_nil]; exact h.once
    · exact h.fresh hi hnc rfl

theorem linear_stop {sent : Nat} (hS : Shares Es owner jobs) (h : s.Linear Es owner jobs files₀)
    (hl : s.Locked Es owner) (hst : s.step Es owner (.stop i sent) = some s') :
    s'.Linear Es owner jobs files₀ := by
  obtain ⟨-, hi, rfl⟩ := host_stop hst
  have hp := h.place i hi
  by_cases hw : Writing (jobs i) (s.workers i)
  · have hconn := hp.1.conn hw.inside
    have hfile : (Es (owner i)).fileOf (s.workers i).conn.uri = hostFile Es owner jobs i := by
      rw [hconn]; rfl
    refine h.stopWriting hS hl hi hw (fun x hx => cutShort_other (by rw [hfile]; exact hx)) ?_
    have hleaves : leaves (Es (owner i)) (cutShort (Es (owner i)) s.files (s.workers i) sent) i
        (s.workers i) = ((cutShort (Es (owner i)) s.files (s.workers i) sent
          (hostFile Es owner jobs i)).map (Effect.cut i)).toList := by
      rw [leaves, if_pos ⟨by rw [hconn]; exact hw.1, hw.2⟩, hfile]
    rw [hleaves]
    have hc : cutShort (Es (owner i)) s.files (s.workers i) sent (hostFile Es owner jobs i) =
        effected Es owner jobs files₀ s.history (hostFile Es owner jobs i) ∨
        ∃ b, cutShort (Es (owner i)) s.files (s.workers i) sent (hostFile Es owner jobs i) =
          some b ∧ b <+: (jobs i).body := cut_content hp hw
    cases hcut : cutShort (Es (owner i)) s.files (s.workers i) sent (hostFile Es owner jobs i) with
    | none =>
      rcases hc with hg | ⟨b, hb, -⟩
      · exact .inl ⟨rfl, rfl, by rw [← hg, hcut]⟩
      · rw [hcut] at hb; cases hb
    | some b =>
      refine .inr ⟨b, rfl, rfl, ?_⟩
      rcases hc with hg | ⟨b', hb, hpre⟩
      · exact .inl (by rw [← hg, hcut])
      · rw [hcut] at hb
        cases hb
        exact .inr hpre
  · rw [cutShort_quiet hp hw, leaves_quiet hp hw, List.append_nil]
    exact h.stopQuiet hw

theorem linear_step {e : Host.Ev k n} (hS : Shares Es owner jobs)
    (h : s.Linear Es owner jobs files₀) (hl : s.Locked Es owner)
    (hst : s.step Es owner e = some s') : s'.Linear Es owner jobs files₀ := by
  cases e with
  | run i =>
    obtain ⟨hi, o, ho, rfl⟩ := host_run hst
    cases hline : o.line with
    | none =>
      have := h.quiet hS hl hi ho hline (Function.update s.logs (owner i)
        (s.logs (owner i) ++ o.line.toList.map (i, ·)))
      simpa [hline] using this
    | some l =>
      have := h.audit hS hl hi ho hline (Function.update s.logs (owner i)
        (s.logs (owner i) ++ o.line.toList.map (i, ·)))
      simpa [hline] using this
  | signal p =>
    obtain ⟨-, rfl⟩ := host_signal hst
    exact ⟨h.place, h.agree, h.explained, h.once⟩
  | stop i sent => exact linear_stop hS h hl hst
  | exit p =>
    obtain ⟨-, -, rfl⟩ := host_exit hst
    exact ⟨h.place, h.agree, h.explained, h.once⟩

end

/-- What the processes did, in one order. -/
structure Coherent (Es : Fin k → Env) (owner : Fin n → Fin k) (jobs : Fin n → Job)
    (files₀ : Files) (s : Host k n) : Prop where
  logs : ∀ p, s.logs p = s.history.filterMap (Effect.inLog owner p)
  once : (s.history.map Effect.who).Nodup
  lines : ∀ pre i l post, s.history = pre ++ .line i l :: post →
    l = (jobs i).line (answerAfter Es owner jobs files₀ pre i) ∧
    (s.workers i).sock.written = wire (answerAfter Es owner jobs files₀ pre i)
  cuts : ∀ pre i b post, s.history = pre ++ .cut i b :: post →
    s.life (owner i) ≠ .up ∧ (jobs i).conn.request = .PUT ∧
    (effected Es owner jobs files₀ pre (hostFile Es owner jobs i) = some b ∨ b <+: (jobs i).body)
  files : ∀ x, s.files x = effected Es owner jobs files₀ s.history x ∨
    ∃ i, s.stopped i = false ∧ hostFile Es owner jobs i = x ∧ Writing (jobs i) (s.workers i)
  audited : ∀ i, .unlock ∈ (s.workers i).trace ∨ .closeConn ∈ (s.workers i).trace →
    ∃ l, .line i l ∈ s.history

end

/-- **Coherence across processes and kills.** For requests nothing goes wrong
with, bodies delivered whole (`Sound`), whichever process serves which and
wherever the threads of a killed one stop: each audit log is its
process's part of one history; in it every request is at most once, an audited
one with the status and the bytes that replaying the history before it gives,
a PUT that was cut off as a PUT of a prefix of its body or of what was there;
and the files are what replaying the history makes them, but for those a
running PUT is writing. -/
theorem processes_coherent (Es : Fin k → Env) (owner : Fin n → Fin k) (jobs : Fin n → Job)
    (files₀ : Files) (hS : Shares Es owner jobs) (s : Host k n)
    (hs : (processes Es owner (fun i => (jobs i).incoming) files₀).Reachable s) :
    Coherent Es owner jobs files₀ s := by
  have hI : (processes Es owner (fun i => (jobs i).incoming) files₀).Inductive fun s =>
      s.Locked Es owner ∧ s.Recorded owner (fun i => (jobs i).incoming) ∧
        s.Linear Es owner jobs files₀ := by
    refine ⟨?_, ?_⟩
    · intro s hh
      subst hh
      exact ⟨locked_start _ _, ⟨fun _ => rfl, fun _ => ⟨rfl, rfl⟩⟩, .start⟩
    · intro s e s' hh hst
      obtain ⟨hl, hr, h⟩ := hh
      exact ⟨locked_step hl hst, recorded_step hr hst, linear_step hS h hl hst⟩
  obtain ⟨hl, hr, h⟩ := hI.reachable s hs
  refine ⟨hr.logs, h.once, fun pre i l post heq => ?_, fun pre i b post heq => ?_, h.agree,
    fun i hi => ?_⟩
  · obtain ⟨h1, h2, -⟩ := h.explained pre _ post heq
    exact ⟨h1, h2⟩
  · obtain ⟨h1, h2⟩ := h.explained pre _ post heq
    exact ⟨hl.going i h1, h2⟩
  · obtain ⟨l, hm⟩ := List.exists_mem_of_ne_nil _
      (planned_audited (hr.planned i) (jobs i).sound.not_silent hi)
    obtain ⟨e, he, hline⟩ := List.mem_filterMap.mp hm
    cases e with
    | cut j b => cases hline
    | line j l' =>
      simp only [Effect.lineOf] at hline
      split at hline
      · rename_i hji
        subst hji
        exact ⟨l', he⟩
      · cases hline

/-- Two servers of one directory. The first takes a PUT of `hi` and is killed
with one byte of it in the file; the lock is then free, and the second server
answers a GET with that byte. -/
theorem processes_coherent_killed : ∃ s, (processes (fun _ : Fin 2 => ⟨[], 1, 2⟩)
      (fun i : Fin 2 => i) (fun i => (twoJobs i).incoming) fun _ => none).Reachable s ∧
    s.history.map Effect.who = [0, 1] ∧ (s.workers 1).sock.written = fileHeader 1 ++ ascii "h" ∧
    Coherent (fun _ : Fin 2 => ⟨[], 1, 2⟩) (fun i : Fin 2 => i) twoJobs (fun _ => none) s := by
  have hrun : ((LTS.exec (Host.step (fun _ : Fin 2 => ⟨[], 1, 2⟩) (fun i : Fin 2 => i))
      (.start (fun i : Fin 2 => (twoJobs i).incoming) fun _ => none)
      ([.run 1, .run 1] ++ List.replicate 7 (.run 0) ++ [.signal 0, .stop 0 0, .exit 0] ++
        List.replicate 10 (.run 1))).map fun s =>
        (s.history.map Effect.who, (s.workers 1).sock.written)) =
      some ([0, 1], fileHeader 1 ++ ascii "h") := by decide
  obtain ⟨s, hs, hd⟩ := Option.map_eq_some_iff.mp hrun
  simp only [Prod.mk.injEq] at hd
  obtain ⟨hwho, hsock⟩ := hd
  have hr : (processes (fun _ : Fin 2 => ⟨[], 1, 2⟩) (fun i : Fin 2 => i)
      (fun i => (twoJobs i).incoming) fun _ => none).Reachable s :=
    ⟨_, _, rfl, LTS.run_of_exec _ _ _ hs⟩
  have hS : Shares (fun _ : Fin 2 => ⟨[], 1, 2⟩) (fun i : Fin 2 => i) twoJobs :=
    shares_directory (fun _ => rfl) (by unfold Distinct; decide)
  exact ⟨s, hr, hwho, hsock, processes_coherent _ _ _ _ hS s hr⟩

end HttpC.L5
