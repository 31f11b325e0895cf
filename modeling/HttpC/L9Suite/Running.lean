import HttpC.L9Suite.Workload

/-!
# What holds while a workload runs

`Running` is the invariant of `Suite`: which events are past, what the driver
holds of each connection, that the server under it is a server that started
from the LOADed files, and that the log keeps to the order of the events: a
request that was waited for before another was created is logged before it.
-/
namespace HttpC.L9
open HttpC.L1.Util HttpC.L2 HttpC.L3 HttpC.L5 HttpC.L6
open HttpC.L7 (Channel Flat fileOf_flat)

/-! ## Single steps -/

/-- What a handler has written it does not take back. -/
theorem step_written {E : Env} {free : Bytes → Flock.Mode → Bool} {files : Files} {w : Worker}
    {o : Outcome} (ho : w.step E free files = some o) : w.sock.written <+: o.worker.sock.written := by
  cases hpc : w.pc with
  | getHead count =>
    simp only [Worker.step, hpc] at ho
    obtain ⟨p, -, hp, -⟩ := writeAll_spec w.sock (fileHeader count)
    split at ho <;> rename_i hw <;> rw [hw] at hp <;> cases ho <;> exact ⟨p, hp.symm⟩
  | getSend count total =>
    simp only [Worker.step, hpc] at ho
    obtain ⟨b, q, hP, -⟩ := passRound_spec count
      ⟨((files (E.fileOf w.conn.uri)).getD []).drop total, w.fileReads⟩ w.sock total
    have hput := hP.put
    split at ho <;> rename_i hr <;> rw [hr] at hput <;> cases ho <;> exact ⟨q, hput.symm⟩
  | tail acts =>
    cases acts with
    | nil => simp [Worker.step, hpc] at ho
    | cons a as =>
      simp only [Worker.step, hpc, Option.some.injEq] at ho
      subst ho
      cases a with
      | respond res =>
        obtain ⟨p, -, hp, -⟩ := writeAll_spec w.sock (responseText res)
        refine ⟨p, ?_⟩
        rw [← hp]
        simp only [Worker.act, connSendResponse]
        split <;> rename_i hw <;> rw [hw]
      | _ => exact List.prefix_rfl
  | _ =>
    simp only [Worker.step, hpc] at ho
    repeat' split at ho
    all_goals first | cases ho; exact List.prefix_rfl | cases ho

/-- `WAIT` records the whole response. -/
theorem doWait_records (reset : Errno → Bool) {written : Bytes} {d : Driver} {id : Int64}
    {c : RecvConn} (hc : d.conns id = some c) (h : Holds written c) :
    d.doWait reset id = .ok (d.record id written) := by
  unfold Driver.doWait
  rw [hc]
  simp only
  split
  · rename_i he
    have : c.received = written := by rw [← h.whole, h.ended he, List.append_nil]
    rw [← this]
    rfl
  · obtain ⟨c', hl, hw⟩ := recvLoop_holds reset h (Nat.lt_succ_self _)
    rw [recvUntilClosed, hl, ← hw]
    rfl

/-! ## The invariant -/

section
variable (E : Env) (repoRoot : RepoRoot) (evs : List Event) (ch : Fin (creates evs).length → Channel)

/-- The id of connection `i`. -/
def idAt (i : Fin (creates evs).length) : Int64 := ((creates evs).get i).id

/-- Connection `k` was waited for before `i` was made. -/
def Before (k i : Fin (creates evs).length) : Prop :=
  ∃ pre post, evs = pre ++ .create ((creates evs).get i) :: post ∧ .wait (idAt evs k) ∈ pre

/-- The driver recorded the status and the body of this response. -/
def Recorded {n : Nat} (s : Suite n) (id : Int64) (written : Bytes) : Prop :=
  s.responses id = some (written.drop ((findBodyStart written).getD written.length)) ∧
    ∀ sl, parseStatusLine written = some sl → s.statuses id = some sl.code

/-- The files the server starts from. -/
def loaded : Files := loadsIn E.cwd repoRoot evs fun _ => none

/-- `past` is what the driver has done. -/
structure Running (past : List Event) (s : Suite (creates evs).length) : Prop where
  split : evs = past ++ s.todo
  ok : s.failed = false
  made : s.made = (creates past).length
  conns : ∀ id i, s.conns id = some i ↔ i.val < s.made ∧ idAt evs i = id ∧ .wait id ∉ past
  setup : creates s.todo ≠ [] → s.made = 0 →
    s.sys.files = loadsIn E.cwd repoRoot past fun _ => none
  /-- Only the files differ from those of a server's run, and only before the
  first CREATE and after the last WAIT. -/
  server : ∃ f, (server E (requests repoRoot evs ch) (loaded E repoRoot evs)).Reachable
      { s.sys with files := f } ∧ (0 < s.made → (∃ id, .wait id ∈ s.todo) → f = s.sys.files)
  unborn : ∀ i, s.made ≤ i.val → s.sys.workers i = (requests repoRoot evs ch i).start
  received : ∀ i, (s.links i).received <+: (s.sys.workers i).sock.written
  ended : ∀ i, (s.links i).gotResponse = true → (s.sys.workers i).pc = .done ∧
    (s.links i).received = (s.sys.workers i).sock.written
  waited : ∀ i, .wait (idAt evs i) ∈ past → (s.sys.workers i).pc = .done ∧
    Recorded s (idAt evs i) (s.sys.workers i).sock.written
  order : ∀ pre i l post, s.sys.log = pre ++ (i, l) :: post →
    ∀ k, Before evs k i → k ∈ pre.map Prod.fst

end

section
variable {E : Env} {repoRoot : RepoRoot} {evs : List Event}
  {ch : Fin (creates evs).length → Channel} {reset : Errno → Bool} {past todo : List Event} {e : Event}
  {s s' : Suite (creates evs).length}

theorem running_init : Running E repoRoot evs ch [] (Suite.initial repoRoot evs ch) where
  split := rfl
  ok := rfl
  made := rfl
  conns id i := by simp [Suite.initial]
  setup _ _ := rfl
  server := ⟨_, ⟨_, [], rfl, .nil _⟩, fun h => absurd h (Nat.lt_irrefl 0)⟩
  unborn _ _ := rfl
  received _ := List.nil_prefix
  ended _ h := by cases h
  waited _ h := by cases h
  order pre i l post h := by simp [Suite.initial] at h

/-- Connection `i` stands in the workload where it was made. -/
theorem Running.get_lt (h : Running E repoRoot evs ch past s) (i : Fin (creates evs).length)
    (hi : i.val < s.made) : (creates evs).get i ∈ creates past := by
  have e : creates evs = creates past ++ creates s.todo := by rw [← creates_append, ← h.split]
  rw [h.made] at hi
  rw [List.get_eq_getElem]
  simp only [e]
  rw [List.getElem_append_left hi]
  exact List.getElem_mem hi

/-- The connection the next CREATE makes. -/
theorem Running.next (h : Running E repoRoot evs ch past s) {c : CreateEvent}
    (ht : s.todo = .create c :: todo) :
    ∃ hlt : s.made < (creates evs).length, (creates evs).get ⟨s.made, hlt⟩ = c := by
  have e : creates evs = creates past ++ c :: creates todo := by
    rw [← creates_create, ← creates_append, ← ht, ← h.split]
  have hlt : s.made < (creates evs).length := by rw [h.made, e]; simp
  refine ⟨hlt, ?_⟩
  rw [List.get_eq_getElem]
  simp only [e, h.made]
  rw [List.getElem_append_right (Nat.le_refl _)]
  simp

theorem idAt_inj (hw : Each (Placed repoRoot) [] evs) {i j : Fin (creates evs).length}
    (h : idAt evs i = idAt evs j) : i = j := by
  have hn := ids_nodup hw List.nodup_nil
  rw [List.nil_append] at hn
  have hi : i.val < ((creates evs).map CreateEvent.id).length := by simp
  have hj : j.val < ((creates evs).map CreateEvent.id).length := by simp
  have heq : ((creates evs).map CreateEvent.id)[i.val] = ((creates evs).map CreateEvent.id)[j.val] := by
    simpa [idAt] using h
  exact Fin.ext (hn.getElem_inj_iff.mp heq)

/-- The connection of a CREATE that is past. -/
theorem Running.index (h : Running E repoRoot evs ch past s) {c : CreateEvent}
    (hc : c ∈ creates past) : ∃ i, i.val < s.made ∧ (creates evs).get i = c := by
  obtain ⟨j, hj, rfl⟩ := List.mem_iff_getElem.mp hc
  have e : creates evs = creates past ++ creates s.todo := by rw [← creates_append, ← h.split]
  have hlt : j < (creates evs).length := by rw [e, List.length_append]; omega
  refine ⟨⟨j, hlt⟩, by rw [h.made]; exact hj, ?_⟩
  rw [List.get_eq_getElem]
  simp only [e]
  exact List.getElem_append_left hj

/-- The connection of an id in use. -/
theorem Running.opened (h : Running E repoRoot evs ch past s) {id : Int64} (ho : Opened past id) :
    ∃ i, s.conns id = some i := by
  obtain ⟨c, hc, rfl⟩ := List.mem_map.mp ho.1
  obtain ⟨i, hi, rfl⟩ := h.index hc
  exact ⟨i, (h.conns _ i).mpr ⟨hi, rfl, ho.2⟩⟩

theorem Running.placed (h : Running E repoRoot evs ch past s) (hw : Each (Placed repoRoot) [] evs)
    (ht : s.todo = e :: todo) : Placed repoRoot past e todo := by
  have hw' := hw
  rw [h.split, ht] at hw'
  exact Each.at hw'

theorem Running.rest (h : Running E repoRoot evs ch past s) (hw : Each (Placed repoRoot) [] evs) :
    Each (Placed repoRoot) past s.todo := by
  have hw' := hw
  rw [h.split] at hw'
  simpa using Each.append hw'

/-! ## The driver's steps -/

/-- An event that makes and closes no connection. -/
theorem Running.pass (h : Running E repoRoot evs ch past s) (ht : s.todo = e :: todo)
    (hc : creates [e] = []) (hwait : ∀ id, e ≠ .wait id) {files : Files}
    {links : Fin (creates evs).length → Link}
    (hsetup : creates todo ≠ [] → s.made = 0 →
      files = loadsIn E.cwd repoRoot (past ++ [e]) fun _ => none)
    (hsame : 0 < s.made → (∃ id, .wait id ∈ todo) → files = s.sys.files)
    (hrecv : ∀ i, (links i).received <+: (s.sys.workers i).sock.written)
    (hended : ∀ i, (links i).gotResponse = true → (s.sys.workers i).pc = .done ∧
      (links i).received = (s.sys.workers i).sock.written) :
    Running E repoRoot evs ch (past ++ [e]) { s with todo, sys := { s.sys with files }, links } := by
  have hmem : ∀ id, Event.wait id ∈ past ++ [e] ↔ .wait id ∈ past := by
    intro id
    simp [Ne.symm (hwait id)]
  obtain ⟨f, hf, hfeq⟩ := h.server
  have hsplit := h.split
  rw [ht] at hsplit
  refine ⟨by simpa using hsplit, h.ok, ?_, ?_, hsetup, ⟨f, hf, fun hm hex => ?_⟩, h.unborn, hrecv,
    hended, ?_, h.order⟩
  · rw [creates_append, hc, List.append_nil]; exact h.made
  · intro id i
    rw [hmem]
    exact h.conns id i
  · obtain ⟨id, hid⟩ := hex
    rw [hfeq hm ⟨id, by rw [ht]; exact List.mem_cons_of_mem _ hid⟩]
    exact (hsame hm ⟨id, hid⟩).symm
  · intro i hi
    exact h.waited i ((hmem _).mp hi)

theorem running_load {infile outfile bytes : Bytes} (h : Running E repoRoot evs ch past s)
    (hw : Each (Placed repoRoot) [] evs) (ht : s.todo = .load infile outfile :: todo)
    (hb : repoRoot infile (1 <<< 30) = .ok bytes) :
    Running E repoRoot evs ch (past ++ [.load infile outfile])
      (({ s with todo } : Suite _).store E outfile (some bytes)) := by
  have hp := h.placed hw ht
  have hm : s.made = 0 := by rw [h.made, hp.1]; rfl
  refine h.pass ht rfl (by simp) (fun hc _ => ?_) (fun hm' => absurd hm (by omega)) h.received h.ended
  have : s.sys.files = loadsIn E.cwd repoRoot past fun _ => none :=
    h.setup (by rw [ht]; exact hc) hm
  rw [loadsIn_append, this]
  simp only [loadsIn, hb]
  rfl

theorem running_unload {file : Bytes} (h : Running E repoRoot evs ch past s)
    (hw : Each (Placed repoRoot) [] evs) (ht : s.todo = .unload file :: todo) :
    Running E repoRoot evs ch (past ++ [.unload file])
      (({ s with todo } : Suite _).store E file none) := by
  obtain ⟨hflat, hp⟩ := h.placed hw ht
  have hrest := h.rest hw
  rw [ht] at hrest
  refine h.pass ht rfl (by simp) (fun hc hm => ?_) (fun hm hex => ?_) h.received h.ended
  · rcases hp with ⟨-, hnot⟩ | hno
    · have hf := h.setup (by rw [ht]; exact hc) hm
      rw [loadsIn_append, ← hf]
      refine Function.update_eq_self_iff.mpr ?_
      have hflat' : ∀ o ∈ loadedNames past, Flat o := fun o ho => by
        obtain ⟨infile, he⟩ := mem_loadedNames.mp ho
        exact loads_flat hw (mem_loadedNames.mpr ⟨infile, h.split ▸ List.mem_append_left _ he⟩)
      rw [hf]
      exact (loadsIn_other hflat hnot hflat' fun _ => none).symm
    · obtain ⟨c, hc⟩ := List.exists_mem_of_ne_nil _ hc
      exact absurd (wait_of_create hrest.2 (mem_creates.mp hc)) (hno _)
  · rcases hp with ⟨hnone, -⟩ | hno
    · rw [h.made, hnone] at hm
      exact absurd hm (Nat.lt_irrefl 0)
    · obtain ⟨id, hid⟩ := hex
      exact absurd hid (hno id)

/-- An event that changes at most what the driver holds of its connections. -/
theorem Running.linked (h : Running E repoRoot evs ch past s) (ht : s.todo = e :: todo)
    (hc : creates [e] = []) (hwait : ∀ id, e ≠ .wait id)
    (hload : ∀ files, loadsIn E.cwd repoRoot [e] files = files)
    {links : Fin (creates evs).length → Link}
    (hrecv : ∀ i, (links i).received <+: (s.sys.workers i).sock.written)
    (hended : ∀ i, (links i).gotResponse = true → (s.sys.workers i).pc = .done ∧
      (links i).received = (s.sys.workers i).sock.written) :
    Running E repoRoot evs ch (past ++ [e]) { s with todo, links } := by
  refine h.pass ht hc hwait (fun hne hm => ?_) (fun _ _ => rfl) hrecv hended
  rw [loadsIn_append, hload]
  refine h.setup ?_ hm
  rw [ht, ← List.singleton_append, creates_append, hc]
  exact hne

theorem running_send {id : Int64} {ev : SendEvent} (h : Running E repoRoot evs ch past s)
    (ht : s.todo = e :: todo) (hc : creates [e] = []) (hwait : ∀ id, e ≠ .wait id)
    (hload : ∀ files, loadsIn E.cwd repoRoot [e] files = files) (ho : Opened past id)
    (hst : ({ s with todo } : Suite _).send id ev = some s') :
    Running E repoRoot evs ch (past ++ [e]) s' := by
  obtain ⟨i, hi⟩ := h.opened ho
  simp only [Suite.send, Suite.conn, hi, Option.some.injEq] at hst
  subst hst
  refine h.linked ht hc hwait hload (fun j => ?_) (fun j => ?_)
  · by_cases hj : j = i
    · subst hj; simpa using h.received j
    · simpa [Function.update_of_ne hj] using h.received j
  · by_cases hj : j = i
    · subst hj; simpa using h.ended j
    · simpa [Function.update_of_ne hj] using h.ended j

/-- What the driver sees of a connection is the response, as far as it is
written. -/
theorem Running.holds (h : Running E repoRoot evs ch past s) {cuts : List ReadEv} (hcut : Cut cuts)
    (i : Fin (creates evs).length) : Holds (s.sys.workers i).sock.written (s.recvConn i cuts) := by
  obtain ⟨t, ht⟩ := h.received i
  have hun : s.unread i = t := by rw [Suite.unread, ← ht, List.drop_left]
  refine ⟨hcut, ?_, fun he => ?_⟩
  · rw [Suite.recvConn, hun]; exact ht
  · have := (h.ended i he).2
    rw [← ht] at this
    rw [Suite.recvConn, hun]
    exact List.self_eq_append_right.mp this

theorem running_recvPartial {id : Int64} {size : Nat} {cuts : List ReadEv}
    (h : Running E repoRoot evs ch past s) (hw : Each (Placed repoRoot) [] evs)
    (ht : s.todo = .recvPartial id size :: todo) (hcut : Cut cuts)
    (hst : ({ s with todo } : Suite _).doRecvPartial id size cuts = some s') :
    Running E repoRoot evs ch (past ++ [.recvPartial id size]) s' := by
  obtain ⟨ho, hsize⟩ := h.placed hw ht
  obtain ⟨i, hi⟩ := h.opened ho
  simp only [Suite.doRecvPartial, Suite.conn, hi] at hst
  split at hst
  · cases hst
  rename_i hopen
  obtain ⟨c, hc, hholds⟩ := recvPartial_holds (h.holds hcut i) hsize
  have hrecv : recvPartial (({ s with todo } : Suite _).recvConn i cuts) size = .ok c := hc
  rw [hrecv] at hst
  cases hst
  -- a read that finds the end finds the connection closed
  have hgot : c.gotResponse = true → (s.sys.workers i).pc = .done := by
    intro hg
    by_cases hun : s.unread i = []
    · by_contra hd
      exact hopen ⟨hun, by simpa [Suite.closed] using hd⟩
    · obtain ⟨bs, src, hr, hnil⟩ := retryRead_cut (s.unread i) hcut hsize
      have hrr : retryRead size (s.recvConn i cuts).stream.pending
        (s.recvConn i cuts).stream.script = (.data bs, src) := hr
      cases bs with
      | nil => exact absurd (hnil rfl) hun
      | cons b bs =>
        simp only [recvPartial, hrr, Except.ok.injEq] at hc
        rw [← hc] at hg
        exact (h.ended i hg).1
  refine h.linked ht rfl (by simp) (fun _ => rfl) (fun j => ?_) (fun j => ?_)
  · by_cases hj : j = i
    · subst hj
      rw [Function.update_self, ← hholds.whole]
      exact List.prefix_append _ _
    · simpa [Function.update_of_ne hj] using h.received j
  · by_cases hj : j = i
    · subst hj
      rw [Function.update_self]
      intro hg
      refine ⟨hgot hg, ?_⟩
      rw [← hholds.whole, hholds.ended hg, List.append_nil]
    · simpa [Function.update_of_ne hj] using h.ended j

/-- A CREATE makes the next connection; the first finds all files loaded. -/
theorem running_create {c : CreateEvent} (h : Running E repoRoot evs ch past s)
    (hw : Each (Placed repoRoot) [] evs) (ht : s.todo = .create c :: todo)
    (hst : ({ s with todo } : Suite _).doCreate repoRoot c = some s') :
    Running E repoRoot evs ch (past ++ [.create c]) s' := by
  obtain ⟨hasks, hfresh, hwait⟩ := h.placed hw ht
  obtain ⟨hlt, hget⟩ := h.next ht
  obtain ⟨d, hconn, -⟩ := hasks.made
  simp only [Suite.doCreate, hconn, dif_pos hlt, Option.some.injEq] at hst
  subst hst
  have hid : idAt evs ⟨s.made, hlt⟩ = c.id := by rw [idAt, hget]
  have hmem : ∀ id, Event.wait id ∈ past ++ [.create c] ↔ .wait id ∈ past := by simp
  have hsplit := h.split
  rw [ht] at hsplit
  have hnow : .wait c.id ∉ past := by
    intro hm
    obtain ⟨pre, post, hpp⟩ := List.append_of_mem hm
    have hw' := hw
    rw [hsplit, hpp, List.append_assoc, List.cons_append] at hw'
    obtain ⟨hin, -⟩ := Each.at hw'
    rw [hpp, creates_append, List.map_append, List.mem_append] at hfresh
    exact hfresh (.inl (by simpa using hin))
  obtain ⟨f, hf, hfeq⟩ := h.server
  refine ⟨by simpa using hsplit, h.ok, ?_, ?_, fun _ hm => by simp at hm, ?_, ?_, ?_, ?_, ?_, h.order⟩
  · show s.made + 1 = _
    rw [h.made, creates_append, List.length_append]
    rfl
  · intro id i
    rw [hmem]
    simp only [put]
    by_cases hi : id = c.id
    · subst hi
      rw [Function.update_self]
      constructor
      · intro he
        cases he
        exact ⟨Nat.lt_succ_self _, hid, hnow⟩
      · intro h
        rw [idAt_inj hw (h.2.1.trans hid.symm)]
    · rw [Function.update_of_ne hi, h.conns]
      constructor
      · intro h
        exact ⟨Nat.lt_succ_of_lt h.1, h.2⟩
      · intro h
        obtain ⟨h1, h2, h3⟩ := h
        refine ⟨?_, h2, h3⟩
        rcases Nat.lt_succ_iff_lt_or_eq.mp h1 with h1 | h1
        · exact h1
        · exact absurd (h2.symm.trans ((congrArg _ (Fin.ext h1)).trans hid)) hi
  · by_cases hm : s.made = 0
    · -- nothing has happened in the server yet
      have hfiles : s.sys.files = loaded E repoRoot evs := by
        rw [h.setup (by rw [ht]; simp) hm, loaded, hsplit, loadsIn_append]
        have hrest := h.rest hw
        rw [ht] at hrest
        exact (loadsIn_after hrest.2 (by simp) _).symm
      have hworkers : s.sys.workers = fun i => (requests repoRoot evs ch i).start :=
        funext fun i => h.unborn i (by omega)
      have hlog : s.sys.log = [] := by
        rw [List.eq_nil_iff_forall_not_mem]
        intro e he
        refine unstarted_unlogged hf (j := e.1) ?_ e.2 he
        show (s.sys.workers e.1).pc = .new
        rw [hworkers]
        rfl
      refine ⟨s.sys.files, ⟨_, [], ?_, .nil _⟩, fun _ _ => rfl⟩
      show s.sys = _
      rw [← hfiles, ← hworkers, ← hlog]
    · refine ⟨f, hf, fun _ hex => hfeq (by omega) ?_⟩
      obtain ⟨id, hid⟩ := hex
      exact ⟨id, by rw [ht]; exact List.mem_cons_of_mem _ hid⟩
  · intro i hi
    exact h.unborn i (Nat.le_of_succ_le hi)
  · intro i
    by_cases hi : i = ⟨s.made, hlt⟩
    · subst hi; simp
    · simpa [Function.update_of_ne hi] using h.received i
  · intro i
    by_cases hi : i = ⟨s.made, hlt⟩
    · subst hi; simp
    · simpa [Function.update_of_ne hi] using h.ended i
  · intro i hi
    exact h.waited i ((hmem _).mp hi)

theorem running_wait {id : Int64} {cuts : List ReadEv} (h : Running E repoRoot evs ch past s)
    (hw : Each (Placed repoRoot) [] evs) (ht : s.todo = .wait id :: todo) (hcut : Cut cuts)
    (hst : ({ s with todo } : Suite _).doWait reset id cuts = some s') :
    Running E repoRoot evs ch (past ++ [.wait id]) s' := by
  have ho : Opened past id := h.placed hw ht
  obtain ⟨i, hi⟩ := h.opened ho
  obtain ⟨hlt, hid, -⟩ := (h.conns id i).mp hi
  simp only [Suite.doWait, Suite.conn, hi] at hst
  split at hst
  · cases hst
  rename_i hopen
  have hdone : (s.sys.workers i).pc = .done := by
    by_cases hg : (s.links i).gotResponse = true
    · exact (h.ended i hg).1
    · by_contra hd
      exact hopen ⟨by simpa using hg, by simpa [Suite.closed] using hd⟩
  have hrec : ({ s with todo } : Suite _).recvConn i cuts = s.recvConn i cuts := rfl
  rw [hrec, doWait_records reset (by simp only [put, Function.update_self]) (h.holds hcut i)] at hst
  cases hst
  have hsplit := h.split
  rw [ht] at hsplit
  obtain ⟨f, hf, hfeq⟩ := h.server
  refine ⟨by simpa using hsplit, h.ok, ?_, ?_, ?_, ⟨f, hf, fun hm hex => hfeq hm ?_⟩, h.unborn,
    h.received, h.ended, ?_, h.order⟩
  · rw [creates_append]; simpa [creates] using h.made
  · intro id' j
    by_cases he : id' = id
    · subst he
      simp
    · simp only [Function.update_of_ne he, h.conns, List.mem_append, List.mem_singleton,
        Event.wait.injEq, he, or_false]
  · intro hc hm
    rw [loadsIn_append]
    exact h.setup (by rw [ht]; exact hc) hm
  · obtain ⟨id', hid'⟩ := hex
    exact ⟨id', by rw [ht]; exact List.mem_cons_of_mem _ hid'⟩
  · intro j hj
    by_cases hji : j = i
    · subst hji
      refine ⟨hdone, ?_⟩
      rw [hid]
      refine ⟨by simp [Driver.record, put], fun sl hsl => by simp [Driver.record, hsl, put]⟩
    · have hne : idAt evs j ≠ id := fun he => hji (idAt_inj hw (he.trans hid.symm))
      have hj' : .wait (idAt evs j) ∈ past := by simpa [hne] using hj
      obtain ⟨hd, h1, h2⟩ := h.waited j hj'
      refine ⟨hd, ?_, fun sl hsl => ?_⟩
      · simp only [Driver.record, put, Function.update_of_ne hne]
        exact h1
      · simp only [Driver.record]
        split
        · simp only [put, Function.update_of_ne hne]
          exact h2 sl hsl
        · exact h2 sl hsl

/-- **The driver's next event.** -/
theorem running_drive {cuts : List ReadEv} (h : Running E repoRoot evs ch past s)
    (hw : Each (Placed repoRoot) [] evs) (ht : s.todo = e :: todo) (hcut : Cut cuts)
    (hst : s.drive E repoRoot reset cuts = some s') : Running E repoRoot evs ch (past ++ [e]) s' := by
  have hp := h.placed hw ht
  simp only [Suite.drive, ht] at hst
  cases e with
  | load infile outfile =>
    obtain ⟨-, -, bytes, hb⟩ := hp
    simp only [hb] at hst
    cases hst
    exact running_load h hw ht hb
  | unload file =>
    cases hst
    exact running_unload h hw ht
  | sleep seconds =>
    cases hst
    exact h.linked ht rfl (by simp) (fun _ => rfl) h.received h.ended
  | create c => exact running_create h hw ht hst
  | sendLine id => exact running_send h ht rfl (by simp) (fun _ => rfl) hp.1 hst
  | sendHeaders id => exact running_send h ht rfl (by simp) (fun _ => rfl) hp.1 hst
  | sendBody id size => exact running_send h ht rfl (by simp) (fun _ => rfl) hp.1 hst
  | sendAll id => exact running_send h ht rfl (by simp) (fun _ => rfl) hp.1 hst
  | recvPartial id size => exact running_recvPartial h hw ht hcut hst
  | wait id => exact running_wait h hw ht hcut hst

/-! ## The server's steps -/

theorem serve_inv {i : Fin (creates evs).length} (hst : s.serve E i = some s') :
    i.val < s.made ∧ (s.sys.workers i).pc ≠ .done ∧ ∃ y, s.sys.step E i = some y ∧
      s.arrived i (y.workers i) ∧ s' = { s with sys := y } := by
  unfold Suite.serve at hst
  split at hst
  case isFalse => cases hst
  rename_i hmade
  obtain ⟨y, hy, hst⟩ := Option.bind_eq_some_iff.mp hst
  split at hst
  case isFalse => cases hst
  rename_i harr
  cases hst
  refine ⟨hmade, fun hd => ?_, y, hy, harr, rfl⟩
  obtain ⟨o, ho, -⟩ := step_inv hy
  simp [Worker.step, hd, Pc.done] at ho

/-- A connection that was made has its predecessors behind it. -/
theorem Running.before (h : Running E repoRoot evs ch past s) (hw : Each (Placed repoRoot) [] evs)
    {i k : Fin (creates evs).length} (hi : i.val < s.made) (hb : Before evs k i) :
    .wait (idAt evs k) ∈ past := by
  obtain ⟨pre, post, he, hm⟩ := hb
  have hw' := hw
  rw [he] at hw'
  obtain ⟨-, hfresh, -⟩ := Each.at hw'
  have h1 : pre ++ [.create ((creates evs).get i)] <+: evs := ⟨post, by simpa using he.symm⟩
  have h2 : past <+: evs := ⟨s.todo, h.split.symm⟩
  rcases List.prefix_or_prefix_of_prefix h1 h2 with hp | hp
  · exact hp.subset (List.mem_append_left _ hm)
  · rcases List.prefix_concat_iff.mp hp with hp | hp
    · rw [hp]; exact List.mem_append_left _ hm
    · -- its CREATE would stand twice in the workload
      refine absurd (List.mem_map_of_mem ?_) hfresh
      exact mem_creates.mpr (hp.subset (mem_creates.mp (h.get_lt i hi)))

theorem Running.of_done (h : Running E repoRoot evs ch past s) (hw : Each (Placed repoRoot) [] evs)
    {k : Fin (creates evs).length} (hd : (s.sys.workers k).pc = .done) :
    k ∈ s.sys.log.map Prod.fst := by
  obtain ⟨f, hf, -⟩ := h.server
  obtain ⟨l, hl⟩ := jobs_logged hw hf hd
  have hmem : (k, l) ∈ s.sys.log := mem_linesOf.mp (show l ∈ s.sys.linesOf k by
    rw [show s.sys.linesOf k = [l] from hl]; exact List.mem_singleton_self l)
  exact List.mem_map_of_mem hmem

/-- As long as a handler runs, the driver has its WAIT before it. -/
theorem Running.live (h : Running E repoRoot evs ch past s) (hw : Each (Placed repoRoot) [] evs)
    {i : Fin (creates evs).length} (hd : (s.sys.workers i).pc ≠ .done) :
    .wait (idAt evs i) ∈ s.todo := by
  have hm : .wait (idAt evs i) ∈ past ++ s.todo := by
    rw [← h.split]
    exact waited_of_created hw (List.get_mem (creates evs) i)
  rcases List.mem_append.mp hm with hm | hm
  · exact absurd (h.waited i hm).1 hd
  · exact hm

/-- While a handler runs, the files are the server's own. -/
theorem Running.serving (h : Running E repoRoot evs ch past s) (hw : Each (Placed repoRoot) [] evs)
    {i : Fin (creates evs).length} (hi : i.val < s.made) (hd : (s.sys.workers i).pc ≠ .done) :
    (L5.server E (requests repoRoot evs ch) (loaded E repoRoot evs)).Reachable s.sys := by
  obtain ⟨f, hf, hfeq⟩ := h.server
  rw [hfeq (by omega) ⟨_, h.live hw hd⟩] at hf
  exact hf

theorem running_serve {i : Fin (creates evs).length} (h : Running E repoRoot evs ch past s)
    (hw : Each (Placed repoRoot) [] evs) (hst : s.serve E i = some s') :
    Running E repoRoot evs ch past s' := by
  obtain ⟨hmade, hlive, y, hy, -, rfl⟩ := serve_inv hst
  obtain ⟨o, ho, -, hlog, hworkers⟩ := step_inv hy
  have hreach := h.serving hw hmade hlive
  have hother : ∀ j, j ≠ i → y.workers j = s.sys.workers j := fun j hj => by
    rw [hworkers, Function.update_of_ne hj]
  refine ⟨h.split, h.ok, h.made, h.conns, fun _ hm => absurd hmade (by rw [hm]; omega),
    ⟨y.files, hreach.step hy, fun _ _ => rfl⟩, ?_, ?_, ?_, ?_, ?_⟩
  · intro j hj
    have hj' : s.made ≤ j.val := hj
    rw [hother j (by rintro rfl; omega)]
    exact h.unborn j hj
  · intro j
    by_cases hj : j = i
    · subst hj
      rw [hworkers, Function.update_self]
      exact (h.received j).trans (step_written ho)
    · rw [hother j hj]; exact h.received j
  · intro j hg
    by_cases hj : j = i
    · subst hj
      exact absurd (h.ended j hg).1 hlive
    · rw [hother j hj]; exact h.ended j hg
  · intro j hm
    by_cases hj : j = i
    · subst hj
      exact absurd (h.waited j hm).1 hlive
    · rw [hother j hj]; exact h.waited j hm
  · intro pre j l post he k hb
    have he' : s.sys.log ++ o.line.toList.map (i, ·) = pre ++ (j, l) :: post := by
      rw [← hlog]; exact he
    cases hline : o.line with
    | none =>
      rw [hline, Option.toList_none, List.map_nil, List.append_nil] at he'
      exact h.order pre j l post he' k hb
    | some l' =>
      rw [hline] at he'
      rcases List.eq_nil_or_concat post with rfl | ⟨post', x, rfl⟩
      · -- the new line: its connection is made
        obtain ⟨rfl, hx⟩ := List.append_inj' he' rfl
        simp only [Option.toList_some, List.map_cons, List.map_nil, List.cons.injEq, Prod.mk.injEq,
          and_true] at hx
        obtain ⟨rfl, -⟩ := hx
        exact h.of_done hw (h.waited k (h.before hw hmade hb)).1
      · rw [List.concat_eq_append, ← List.cons_append, ← List.append_assoc] at he'
        exact h.order pre j l post' (List.append_inj' he' rfl).1 k hb

end

end HttpC.L9
