import HttpC.L5Concurrency.Progress
import HttpC.L9Suite.Running

/-!
# Where a workload can go on

A workload can hang the suite: the driver that waits for a GET while the
server holds its lock for a PUT whose body the driver has yet to send waits
for itself. `Prompt` rules this out: where the driver blocks for a connection,
that one is `Ready`: it has all of its request, and of the others on the same
URI each has all of its request or not even its headers. Then the driver goes
on (`drive_goes_on`), or a handler can (`serve_goes_on`).

`Sending` is what holds of the connections' wires: what was sent for a
connection is what the events so far say, and its handler has read no more.
-/
namespace HttpC.L9
open HttpC.L1.Util HttpC.L2 HttpC.L3 HttpC.L5 HttpC.L6
open HttpC.L7 (Channel Flat)

/-! ## What is on the wire -/

/-- Where the driver may have to wait for the server. -/
def Blocks : Event → Prop
  | .recvPartial _ _ | .wait _ => True
  | _ => False

/-- The whole request is sent. -/
def Sent (repoRoot : RepoRoot) (past : List Event) (c : CreateEvent) : Prop :=
  ∀ d, connOf repoRoot c = some d → Sends d (sendsOf c.id past)

/-- Nothing the driver has still to send keeps this connection from its end. -/
def Ready (repoRoot : RepoRoot) (past : List Event) (c : CreateEvent) : Prop :=
  Sent repoRoot past c ∧ ∀ c' ∈ creates past, c'.uri = c.uri →
    Sent repoRoot past c' ∨ sendsOf c'.id past <+: [.sendLine]

/-- Where the driver blocks, it does not block itself. -/
def Prompt (repoRoot : RepoRoot) (past : List Event) (e : Event) (_todo : List Event) : Prop :=
  match e with
  | .recvPartial id _ | .wait id => ∀ c ∈ creates past, c.id = id → Ready repoRoot past c
  | _ => True

theorem sendBody_eq (c : DriverConn) (size : Option Int) :
    ∃ x stop shut, sendBody c size = { c with wire := c.wire ++ x, sent := stop, shut } := by
  have key : ∀ stop : Nat, ∃ x n shut,
      (if stop = c.body.length then { ({ (if c.sent < stop then
          { c with wire := c.wire ++ (c.body.take stop).drop c.sent } else c) with sent := stop } :
            DriverConn) with shut := true }
        else { (if c.sent < stop then
          { c with wire := c.wire ++ (c.body.take stop).drop c.sent } else c) with sent := stop }) =
        { c with wire := c.wire ++ x, sent := n, shut } := by
    intro stop
    by_cases h1 : c.sent < stop
    · rw [if_pos h1]
      split <;> exact ⟨_, _, _, rfl⟩
    · rw [if_neg h1]
      split <;> exact ⟨[], _, _, by rw [List.append_nil]⟩
  cases size with
  | none => exact key _
  | some sz => exact key _

/-- Sending changes the wire and what is counted of the body. -/
theorem run_eq (c : DriverConn) (e : SendEvent) :
    ∃ x stop shut, c.run e = { c with wire := c.wire ++ x, sent := stop, shut } := by
  cases e with
  | sendLine => exact ⟨_, _, _, rfl⟩
  | sendHeaders => exact ⟨_, _, _, rfl⟩
  | sendBody size => exact sendBody_eq c size
  | sendAll =>
    obtain ⟨x, stop, shut, h⟩ := sendBody_eq { c with wire := c.wire ++ c.requestLine ++ c.headers } none
    refine ⟨c.requestLine ++ c.headers ++ x, stop, shut, ?_⟩
    rw [DriverConn.run, h]
    simp

theorem foldl_run_whole (c : DriverConn) (es : List SendEvent) :
    whole (es.foldl DriverConn.run c) = whole c := by
  induction es generalizing c with
  | nil => rfl
  | cons e es ih =>
    obtain ⟨x, stop, shut, h⟩ := run_eq c e
    rw [List.foldl_cons, ih, h]
    rfl

/-- The part of a request that is sent. -/
def InOrder (es : List SendEvent) : Prop :=
  es = [] ∨ es = [.sendLine] ∨ es = [.sendAll] ∨
    ∃ sizes : List (Option Int), es = .sendLine :: .sendHeaders :: sizes.map .sendBody

/-- What is sent in order is a beginning of the request. -/
theorem InOrder.wire {c : DriverConn} {es : List SendEvent} (h : InOrder es) (h0 : c.sent = 0)
    (hw : c.wire = []) : (es.foldl DriverConn.run c).wire <+: whole c := by
  rcases h with rfl | rfl | rfl | ⟨sizes, rfl⟩
  · rw [List.foldl_nil, hw]
    exact List.nil_prefix
  · simp only [List.foldl_cons, List.foldl_nil, DriverConn.run, hw, List.nil_append, whole,
      List.append_assoc]
    exact List.prefix_append _ _
  · rw [Sends.wire (.inl rfl) h0 hw]
    exact List.prefix_refl _
  · simp only [List.foldl_cons, DriverConn.run]
    rw [foldl_sendBody (c.requestLine ++ c.headers) sizes _ (by simp [h0, hw]) (by simp [h0])]
    exact (List.prefix_append_right_inj _).mpr (List.take_prefix _ _)

/-- A handler reads its connection in `conn_parse` and in `conn_recv_file`
only. -/
theorem step_client {E : Env} {free : Bytes → Flock.Mode → Bool} {files : Files} {w : Worker}
    {o : Outcome} (ho : w.step E free files = some o) :
    w.pc = .parse ∨ (∃ ex total, w.pc = .putRecv ex total) ∨ o.worker.client = w.client := by
  cases hpc : w.pc with
  | parse => exact .inl rfl
  | putRecv ex total => exact .inr (.inl ⟨ex, total, rfl⟩)
  | tail acts =>
    cases acts with
    | nil => simp [Worker.step, hpc] at ho
    | cons a as =>
      simp only [Worker.step, hpc, Option.some.injEq] at ho
      subst ho
      cases a <;> exact .inr (.inr rfl)
  | _ =>
    refine .inr (.inr ?_)
    simp only [Worker.step, hpc] at ho
    repeat' split at ho
    all_goals first | cases ho; rfl | cases ho

/-! ## What holds of the connections' wires -/

section
variable {E : Env} {repoRoot : RepoRoot} {evs : List Event}
  {ch : Fin (creates evs).length → Channel} {reset : Errno → Bool} {past todo : List Event} {e : Event}
  {s s' : Suite (creates evs).length}

/-- What was sent for a connection is what the events so far say, and its
handler has read no more. -/
structure Sending (repoRoot : RepoRoot) (evs past : List Event) (s : Suite (creates evs).length) :
    Prop where
  wires : ∀ i, i.val < s.made → ∀ d, connOf repoRoot ((creates evs).get i) = some d →
    (s.links i).conn = (sendsOf (idAt evs i) past).foldl DriverConn.run d
  arrived : ∀ i, i.val < s.made → s.arrived i (s.sys.workers i)

/-- An event that sends nothing. -/
theorem Sending.pass (h : Sending repoRoot evs past s) (he : ∀ id, sendsOf id [e] = [])
    (hm : s'.made = s.made) (hl : ∀ i, (s'.links i).conn = (s.links i).conn)
    (hw : s'.sys.workers = s.sys.workers) : Sending repoRoot evs (past ++ [e]) s' := by
  refine ⟨fun i hi d hd => ?_, fun i hi => ?_⟩
  · rw [hm] at hi
    rw [hl, sendsOf_append, he, List.append_nil]
    exact h.wires i hi d hd
  · rw [hm] at hi
    simp only [Suite.arrived, hl, hw]
    exact h.arrived i hi

theorem sending_send {id : Int64} {ev : SendEvent} (h : Sending repoRoot evs past s)
    (hr : Running E repoRoot evs ch past s) (hw : Each (Placed repoRoot) [] evs) (ho : Opened past id)
    (hself : sendsOf id [e] = [ev]) (hother : ∀ id', id' ≠ id → sendsOf id' [e] = [])
    (hst : ({ s with todo } : Suite _).send id ev = some s') : Sending repoRoot evs (past ++ [e]) s' := by
  obtain ⟨i, hi⟩ := hr.opened ho
  obtain ⟨hlt, hid, -⟩ := (hr.conns id i).mp hi
  simp only [Suite.send, Suite.conn, hi, Option.some.injEq] at hst
  subst hst
  refine ⟨fun j hj d hd => ?_, fun j hj => ?_⟩
  · by_cases hji : j = i
    · subst hji
      simp only [Function.update_self]
      rw [hid, sendsOf_append, hself, List.foldl_append, ← hid, ← h.wires j hj d hd]
      rfl
    · have hne : idAt evs j ≠ id := fun he => hji (idAt_inj hw (he.trans hid.symm))
      simp only [Function.update_of_ne hji]
      rw [sendsOf_append, hother _ hne, List.append_nil]
      exact h.wires j hj d hd
  · have hj' := h.arrived j hj
    by_cases hji : j = i
    · subst hji
      obtain ⟨x, stop, shut, hrun⟩ := run_eq (s.links j).conn ev
      simp only [Suite.arrived, Function.update_self, hrun] at hj' ⊢
      rw [List.length_append, ← Nat.add_assoc]
      exact Nat.le_add_right_of_le hj'
    · simpa only [Suite.arrived, Function.update_of_ne hji] using hj'

theorem sends_inOrder (hw : Each (Placed repoRoot) [] (past ++ todo)) (id : Int64) :
    InOrder (sendsOf id past) := by
  induction past using List.reverseRecOn generalizing todo with
  | nil => exact .inl rfl
  | append_singleton past e ih =>
    rw [List.append_assoc, List.singleton_append] at hw
    have ih := ih hw
    have hp : Placed repoRoot past e todo := Each.at hw
    rw [sendsOf_append]
    -- an event for another connection adds nothing
    have other : sendsOf id [e] = [] → InOrder (sendsOf id past ++ sendsOf id [e]) := fun h => by
      rw [h, List.append_nil]; exact ih
    cases e with
    | sendLine k =>
      by_cases hk : k = id
      · subst hk
        rw [hp.2]
        exact .inr (.inl (by simp [sendsOf]))
      · exact other (by simp [sendsOf, hk])
    | sendHeaders k =>
      by_cases hk : k = id
      · subst hk
        rw [hp.2]
        exact .inr (.inr (.inr ⟨[], by simp [sendsOf]⟩))
      · exact other (by simp [sendsOf, hk])
    | sendBody k size =>
      by_cases hk : k = id
      · subst hk
        have hbegun : [.sendLine, .sendHeaders] <+: sendsOf k past := hp.2
        rcases ih with h | h | h | ⟨sizes, h⟩
        · rw [h] at hbegun; exact absurd hbegun (by decide)
        · rw [h] at hbegun; exact absurd hbegun (by decide)
        · rw [h] at hbegun; exact absurd hbegun (by decide)
        · rw [h]
          exact .inr (.inr (.inr ⟨sizes ++ [size.map Int64.toInt], by simp [sendsOf]⟩))
      · exact other (by simp [sendsOf, hk])
    | sendAll k =>
      by_cases hk : k = id
      · subst hk
        rw [hp.2]
        exact .inr (.inr (.inl (by simp [sendsOf])))
      · exact other (by simp [sendsOf, hk])
    | _ => exact other rfl

/-- What is on the wire is a beginning of the request: how long it is says what
was sent. -/
theorem Sending.begins (h : Sending repoRoot evs past s) (hr : Running E repoRoot evs ch past s)
    (hw : Each (Placed repoRoot) [] evs) {i : Fin (creates evs).length} (hi : i.val < s.made) :
    (s.links i).conn.wire <+: whole (s.links i).conn := by
  obtain ⟨d, hd, h0, hnil⟩ := (asks hw i).made
  have hw' := hw
  rw [hr.split] at hw'
  rw [h.wires i hi d hd, foldl_run_whole]
  exact (sends_inOrder hw' _).wire h0 hnil

/-- Nothing is sent before the CREATE. -/
theorem sends_nil (hr : Running E repoRoot evs ch past s) (hw : Each (Placed repoRoot) [] evs)
    {id : Int64} (hfresh : id ∉ (creates past).map CreateEvent.id) : sendsOf id past = [] := by
  have hplaced : ∀ e ∈ past, ∃ pre post, past = pre ++ e :: post ∧
      Placed repoRoot pre e (post ++ s.todo) := by
    intro e he
    obtain ⟨pre, post, hp⟩ := List.append_of_mem he
    have hw' := hw
    rw [hr.split, hp, List.append_assoc, List.cons_append] at hw'
    exact ⟨pre, post, hp, Each.at hw'⟩
  refine List.filterMap_eq_nil_iff.mpr fun e he => ?_
  obtain ⟨pre, post, hp, hpl⟩ := hplaced e he
  have hne : ∀ {k : Int64}, Opened pre k → k ≠ id := by
    intro k ho hk
    subst hk
    rw [hp, creates_append, List.map_append] at hfresh
    exact hfresh (List.mem_append_left _ ho.1)
  cases e with
  | sendLine k => exact if_neg (hne hpl.1)
  | sendHeaders k => exact if_neg (hne hpl.1)
  | sendBody k size => exact if_neg (hne hpl.1)
  | sendAll k => exact if_neg (hne hpl.1)
  | _ => rfl

theorem sending_create {c : CreateEvent} (h : Sending repoRoot evs past s)
    (hr : Running E repoRoot evs ch past s) (hw : Each (Placed repoRoot) [] evs)
    (ht : s.todo = .create c :: todo)
    (hst : ({ s with todo } : Suite _).doCreate repoRoot c = some s') :
    Sending repoRoot evs (past ++ [.create c]) s' := by
  obtain ⟨hasks, hfresh, -⟩ := hr.placed hw ht
  obtain ⟨hlt, hget⟩ := hr.next ht
  obtain ⟨d, hconn, -⟩ := hasks.made
  simp only [Suite.doCreate, hconn, dif_pos hlt, Option.some.injEq] at hst
  subst hst
  have hold : ∀ {i : Fin (creates evs).length}, i.val < s.made + 1 → i ≠ ⟨s.made, hlt⟩ → i.val < s.made := by
    intro i hi hne
    have : i.val ≠ s.made := fun h => hne (Fin.ext h)
    omega
  have hsend : ∀ id, sendsOf id (past ++ [.create c]) = sendsOf id past := by
    intro id
    rw [sendsOf_append]
    exact List.append_nil _
  refine ⟨fun i hi d' hd' => ?_, fun i hi => ?_⟩
  · rw [hsend]
    by_cases hi' : i = ⟨s.made, hlt⟩
    · subst hi'
      rw [hget, hconn] at hd'
      cases hd'
      simp only [Function.update_self]
      rw [idAt, hget, sends_nil hr hw hfresh]
      rfl
    · simp only [Function.update_of_ne hi']
      exact h.wires i (hold hi hi') d' hd'
  · by_cases hi' : i = ⟨s.made, hlt⟩
    · subst hi'
      have hreq : (requests repoRoot evs ch ⟨s.made, hlt⟩).client.pending = whole d := by
        rw [requests, hget, incomingOf, hconn]
        rfl
      simp only [Suite.arrived, Function.update_self]
      rw [hr.unborn _ (Nat.le_refl _), Incoming.start, hreq]
      exact Nat.le_add_right _ _
    · simpa only [Suite.arrived, Function.update_of_ne hi'] using h.arrived i (hold hi hi')

/-- Receiving sends nothing. -/
theorem doRecvPartial_frame {id : Int64} {size : Nat} {cuts : List ReadEv}
    (hst : s.doRecvPartial id size cuts = some s') :
    s'.made = s.made ∧ (∀ i, (s'.links i).conn = (s.links i).conn) ∧
      s'.sys.workers = s.sys.workers := by
  unfold Suite.doRecvPartial Suite.conn at hst
  split at hst
  · cases hst; exact ⟨rfl, fun _ => rfl, rfl⟩
  · rename_i i hi
    simp only at hst
    split at hst
    · cases hst
    · split at hst <;> cases hst
      · exact ⟨rfl, fun _ => rfl, rfl⟩
      · refine ⟨rfl, fun j => ?_, rfl⟩
        by_cases hj : j = i
        · subst hj; simp
        · simp [Function.update_of_ne hj]

theorem doWait_frame {id : Int64} {cuts : List ReadEv} (hst : s.doWait reset id cuts = some s') :
    s'.made = s.made ∧ s'.links = s.links ∧ s'.sys = s.sys := by
  unfold Suite.doWait Suite.conn at hst
  split at hst
  · cases hst; exact ⟨rfl, rfl, rfl⟩
  · simp only at hst
    split at hst
    · cases hst
    · split at hst <;> cases hst <;> exact ⟨rfl, rfl, rfl⟩

theorem send_workers {id : Int64} {ev : SendEvent}
    (hst : s.send id ev = some s') : s'.sys.workers = s.sys.workers := by
  unfold Suite.send Suite.conn at hst
  split at hst <;> cases hst <;> rfl

/-- The driver leaves the handlers alone. -/
theorem drive_workers {cuts : List ReadEv}
    (ht : s.todo = e :: todo) (hst : s.drive E repoRoot reset cuts = some s') :
    s'.sys.workers = s.sys.workers := by
  simp only [Suite.drive, ht] at hst
  cases e with
  | load infile outfile =>
    simp only at hst
    split at hst <;> cases hst <;> rfl
  | unload file | sleep seconds => cases hst; rfl
  | create c =>
    simp only [Suite.doCreate] at hst
    split at hst
    · cases hst; rfl
    · split at hst <;> cases hst; rfl
  | sendLine id | sendHeaders id | sendBody id size | sendAll id =>
    exact send_workers (s := { s with todo }) hst
  | recvPartial id size => exact (doRecvPartial_frame (s := { s with todo }) hst).2.2
  | wait id => exact congrArg Sys.workers (doWait_frame (s := { s with todo }) hst).2.2

theorem sending_drive {cuts : List ReadEv} (h : Sending repoRoot evs past s)
    (hr : Running E repoRoot evs ch past s) (hw : Each (Placed repoRoot) [] evs)
    (ht : s.todo = e :: todo) (hst : s.drive E repoRoot reset cuts = some s') :
    Sending repoRoot evs (past ++ [e]) s' := by
  have hp := hr.placed hw ht
  simp only [Suite.drive, ht] at hst
  cases e with
  | load infile outfile =>
    obtain ⟨-, -, bytes, hb⟩ := hp
    simp only [hb] at hst
    cases hst
    exact h.pass (fun _ => rfl) rfl (fun _ => rfl) rfl
  | unload file =>
    cases hst
    exact h.pass (fun _ => rfl) rfl (fun _ => rfl) rfl
  | sleep seconds =>
    cases hst
    exact h.pass (fun _ => rfl) rfl (fun _ => rfl) rfl
  | create c => exact sending_create h hr hw ht hst
  | sendLine id =>
    exact sending_send h hr hw hp.1 (by simp [sendsOf]) (fun _ hn => by simp [sendsOf, Ne.symm hn]) hst
  | sendHeaders id =>
    exact sending_send h hr hw hp.1 (by simp [sendsOf]) (fun _ hn => by simp [sendsOf, Ne.symm hn]) hst
  | sendBody id size =>
    exact sending_send h hr hw hp.1 (by simp [sendsOf]) (fun _ hn => by simp [sendsOf, Ne.symm hn]) hst
  | sendAll id =>
    exact sending_send h hr hw hp.1 (by simp [sendsOf]) (fun _ hn => by simp [sendsOf, Ne.symm hn]) hst
  | recvPartial id size =>
    obtain ⟨h1, h2, h3⟩ := doRecvPartial_frame hst
    exact h.pass (fun _ => rfl) h1 h2 h3
  | wait id =>
    obtain ⟨h1, h2, h3⟩ := doWait_frame hst
    exact h.pass (fun _ => rfl) h1 (fun i => by rw [h2]) (by rw [h3])

theorem sending_serve {i : Fin (creates evs).length} (h : Sending repoRoot evs past s)
    (hst : s.serve E i = some s') : Sending repoRoot evs past s' := by
  obtain ⟨-, -, y, hy, hgate, rfl⟩ := serve_inv hst
  obtain ⟨o, -, -, -, hworkers⟩ := step_inv hy
  refine ⟨h.wires, fun j hj => ?_⟩
  by_cases hji : j = i
  · subst hji; exact hgate
  · have : y.workers j = s.sys.workers j := by rw [hworkers, Function.update_of_ne hji]
    show s.arrived j (y.workers j)
    rw [this]
    exact h.arrived j hj

/-! ## Somebody can go on -/

/-- A connection with all of its request sent reads what it likes. -/
theorem Sending.free (h : Sending repoRoot evs past s) (hw : Each (Placed repoRoot) [] evs)
    {i : Fin (creates evs).length} (hi : i.val < s.made)
    (hsent : Sent repoRoot past ((creates evs).get i)) (w : Worker) : s.arrived i w := by
  obtain ⟨d, hd, h0, hnil⟩ := (asks hw i).made
  have hconn := h.wires i hi d hd
  have hwire := (hsent d hd).wire h0 hnil
  have : (s.links i).conn.wire = whole d := by rw [hconn]; exact hwire
  rw [Suite.arrived, this, hconn, foldl_run_whole]
  exact Nat.le_add_left _ _

/-- A connection whose headers are not sent has not parsed its request. -/
theorem Sending.unparsed (h : Sending repoRoot evs past s)
    (ch : Fin (creates evs).length → Channel) (hw : Each (Placed repoRoot) [] evs)
    {i : Fin (creates evs).length} (hi : i.val < s.made)
    (hline : sendsOf (idAt evs i) past <+: [.sendLine]) :
    (jobs ch hw i).rest.pending.length < (s.sys.workers i).client.pending.length := by
  obtain ⟨d, hr⟩ := job_reads ch hw i
  obtain ⟨d', hd', -, hnil⟩ := (asks hw i).made
  rw [hr.made] at hd'
  cases hd'
  have hconn := h.wires i hi d hr.made
  have harr := h.arrived i hi
  have hwire : (s.links i).conn.wire.length ≤ d.requestLine.length := by
    rw [hconn]
    rcases List.prefix_cons_iff.mp hline with hnone | ⟨t, ht, htp⟩
    · rw [hnone]
      simp [hnil]
    · rw [List.prefix_nil.mp htp] at ht
      rw [ht]
      simp [DriverConn.run, hnil]
  have hlen : 0 < d.headers.length := List.length_pos_iff.mpr hr.headers
  have hhead := hr.head
  rw [Suite.arrived, hconn, foldl_run_whole] at harr
  rw [hconn] at hwire
  simp only [whole, List.length_append] at harr
  omega

/-- **The server goes on** for a connection that is ready: its handler does, or
that of one that holds its lock. -/
theorem serve_goes_on (hr : Running E repoRoot evs ch past s) (h : Sending repoRoot evs past s)
    (hw : Each (Placed repoRoot) [] evs) {i : Fin (creates evs).length} (hi : i.val < s.made)
    (hd : (s.sys.workers i).pc ≠ .done) (hready : Ready repoRoot past ((creates evs).get i)) :
    ∃ j s', (j = i ∨ (s.sys.workers j).pc ≠ .new) ∧ s.serve E j = some s' := by
  obtain ⟨hsent, hothers⟩ := hready
  have hreach := hr.serving hw hi hd
  have serves : ∀ {j : Fin (creates evs).length} {y : Sys (creates evs).length},
      (j = i ∨ (s.sys.workers j).pc ≠ .new) → j.val < s.made → s.sys.step E j = some y →
      s.arrived j (y.workers j) →
      ∃ j s', (j = i ∨ (s.sys.workers j).pc ≠ .new) ∧ s.serve E j = some s' := by
    intro j y hwho hj hy ha
    exact ⟨j, { s with sys := y }, hwho, by simp [Suite.serve, hj, hy, ha]⟩
  obtain ⟨j, hahead, y, hy⟩ := server_goes_on hreach hd
  rcases hahead with rfl | ⟨hin, ⟨op, hlock⟩, hsame⟩
  · exact serves (.inl rfl) hi hy (h.free hw hi hsent _)
  have hnew : (s.sys.workers j).pc ≠ .new := fun hnew => by rw [hnew] at hin; cases hin
  have hj : j.val < s.made := by
    by_contra hn
    rw [hr.unborn j (by omega)] at hnew
    exact hnew rfl
  have hlin := server_linear (jobs_distinct E hw) hreach
  -- who holds the lock has the same URI
  have huri : ((creates evs).get j).uri = ((creates evs).get i).uri := by
    obtain ⟨d, hri⟩ := job_reads ch hw i
    obtain ⟨d', hrj⟩ := job_reads ch hw j
    have hci : (s.sys.workers i).conn = (jobs ch hw i).conn := by
      have := hlin.place i
      rw [hlock] at this
      exact this.1.conn
    rw [(hlin.place j).conn hin, hci, hri.uri, hrj.uri] at hsame
    exact lockPathFor_inj E.dev E.ino (asks hw j).uriOk (asks hw i).uriOk hsame
  rcases hothers _ (hr.get_lt j hj) huri with hall | hline
  · exact serves (.inr hnew) hj hy (h.free hw hj hall _)
  obtain ⟨o, ho, -, -, hworkers⟩ := step_inv hy
  have hwj : y.workers j = o.worker := by rw [hworkers, Function.update_self]
  have hshort := h.unparsed ch hw hj hline
  rcases step_client ho with hpc | ⟨ex, total, hpc⟩ | hclient
  · rw [hpc] at hin; cases hin
  · -- it reads a body, so it has read the headers
    have hat := hlin.place j
    rw [hpc] at hat
    have := congrArg List.length hat.2.2.2.2.2.1
    rw [List.length_drop] at this
    omega
  · refine serves (.inr hnew) hj hy ?_
    rw [hwj, Suite.arrived, hclient]
    exact h.arrived j hj

/-- **The driver goes on**, or blocks for a connection that is ready. -/
theorem drive_goes_on (reset : Errno → Bool) (hr : Running E repoRoot evs ch past s)
    (hw : Each (Placed repoRoot) [] evs) (hp : Each (Prompt repoRoot) [] evs)
    (ht : s.todo = e :: todo) :
    (s.drive E repoRoot reset []).isSome ∨ Blocks e ∧ ∃ i : Fin (creates evs).length,
      i.val < s.made ∧ (s.sys.workers i).pc ≠ .done ∧ Ready repoRoot past ((creates evs).get i) := by
  have hplaced := hr.placed hw ht
  have hprompt : Prompt repoRoot past e todo := by
    have hp' := hp
    rw [hr.split, ht] at hp'
    exact Each.at hp'
  cases e with
  | recvPartial id size =>
    obtain ⟨i, hi⟩ := hr.opened hplaced.1
    obtain ⟨hlt, hid, -⟩ := (hr.conns id i).mp hi
    by_cases hd : (s.sys.workers i).pc = .done
    · left
      have hc : ({ s with todo } : Suite _).closed i = true := by simpa [Suite.closed] using hd
      simp only [Suite.drive, ht, Suite.doRecvPartial, Suite.conn, hi, hc, Bool.true_eq_false,
        and_false, if_false]
      split <;> rfl
    · exact .inr ⟨trivial, i, hlt, hd, hprompt _ (hr.get_lt i hlt) hid⟩
  | wait id =>
    obtain ⟨i, hi⟩ := hr.opened hplaced
    obtain ⟨hlt, hid, -⟩ := (hr.conns id i).mp hi
    by_cases hd : (s.sys.workers i).pc = .done
    · left
      have hc : ({ s with todo } : Suite _).closed i = true := by simpa [Suite.closed] using hd
      simp only [Suite.drive, ht, Suite.doWait, Suite.conn, hi, hc, Bool.true_eq_false, and_false,
        if_false]
      split <;> rfl
    · exact .inr ⟨trivial, i, hlt, hd, hprompt _ (hr.get_lt i hlt) hid⟩
  | create c =>
    obtain ⟨hlt, -⟩ := hr.next ht
    obtain ⟨d, hconn, -⟩ := hplaced.1.made
    exact .inl (by simp [Suite.drive, ht, Suite.doCreate, hconn, hlt])
  | load infile outfile =>
    obtain ⟨-, -, bytes, hb⟩ := hplaced
    exact .inl (by simp only [Suite.drive, ht, hb]; rfl)
  | unload file => exact .inl (by simp [Suite.drive, ht])
  | sleep seconds => exact .inl (by simp [Suite.drive, ht])
  | sendLine id | sendHeaders id | sendBody id size | sendAll id =>
    obtain ⟨i, hi⟩ := hr.opened hplaced.1
    exact .inl (by simp [Suite.drive, ht, Suite.send, Suite.conn, hi])

end

end HttpC.L9
