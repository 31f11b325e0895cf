import HttpC.Core.FileSpec
import HttpC.L7Mock.Locks

/-!
# The mock's log is a linearization

For GETs and PUTs on flat URIs, in a run where no call fails: the audit line is
written while the URI's mutex is held, so replaying the log from the initial
files gives every request its answer (`mock_linear`). As for the C server,
`At` says what each place knows of its own file and of what the log says it
holds; here readers hold the mutex too, so nobody else is inside.

The log only says this when every line gets into it: a line that does not fit
the buffer of `writeAudit` is dropped (`Fits`).
-/
namespace HttpC.L7
open HttpC.L1.Util HttpC.L2 HttpC.L3 HttpC.Spec

/-! ## Requests -/

/-- The name of a file in the working directory. -/
structure Flat (uri : Bytes) : Prop where
  nonempty : uri ≠ []
  dot : uri ≠ [46]
  dotdot : uri ≠ [46, 46]
  slash : (47 : UInt8) ∉ uri
  nul : (0 : UInt8) ∉ uri

theorem fileOf_flat (E : Env) {uri : Bytes} (h : Flat uri) : E.fileOf uri = E.cwd ++ [uri] := by
  have hc : Path.comps uri = [uri] := List.splitOn_eq_singleton h.slash
  have ha : Path.isAbsolute uri = false := by
    cases uri with
    | nil => rfl
    | cons x xs =>
      have hx : x ≠ 47 := fun he => h.slash (by rw [he]; exact List.mem_cons_self)
      simpa [Path.isAbsolute] using hx
  simp [Env.fileOf, Path.resolve, hc, ha, Path.walk, h.nonempty, h.dot, h.dotdot]

/-- A GET or PUT on a flat URI, as the mock reads it. -/
structure Job where
  incoming : MockIncoming
  task : Task
  rest : Src UInt8
  parsed : readTask incoming.client = some (task, rest)
  method : branch task.method = .get ∨ branch task.method = .put
  flat : Flat task.uri

/-- The audit line fits the buffer of `writeAudit`: every status has three
digits.
mirrors ztest/mock/main.zig:49-50 -/
def Fits (T : Task) : Prop := T.method.length + T.uri.length + T.rid.length + 7 ≤ LINE_MAX

theorem Fits.line {T : Task} (h : Fits T) {code : Nat} (hc : (decimal code).length = 3) :
    (auditText (T.line code)).length ≤ LINE_MAX := by
  have h1 : (ascii ",").length = 1 := by decide
  have h2 : (ascii "\n").length = 1 := by decide
  unfold Fits at h
  simp only [auditText, Task.line, List.length_append, h1, h2, hc]
  omega

def Job.remaining (J : Job) : Nat := J.task.contentLength - J.task.leftover.length

/-- The body a PUT delivers. -/
def Job.body (J : Job) : Bytes := J.task.leftover ++ J.rest.pending.take J.remaining

/-- The operation a request stands for. -/
def Job.op (J : Job) (E : Env) : Spec.Op (List Bytes) :=
  match branch J.task.method with
  | .put => .put (E.fileOf J.task.uri) J.body
  | _ => .get (E.fileOf J.task.uri)

@[simp] theorem Job.op_file (J : Job) (E : Env) : (J.op E).file = E.fileOf J.task.uri := by
  unfold Job.op; split <;> rfl

theorem Job.op_get (J : Job) (E : Env) (h : branch J.task.method = .get) :
    J.op E = .get (E.fileOf J.task.uri) := by
  unfold Job.op; rw [h]

theorem Job.op_put (J : Job) (E : Env) (h : branch J.task.method = .put) :
    J.op E = .put (E.fileOf J.task.uri) J.body := by
  unfold Job.op; rw [h]

/-- Status and body of an answer. -/
def answer : Reply → Nat × Bytes
  | .content c => (200, c)
  | .notFound => (404, errorBody 404)
  | .ok => (200, errorBody 200)
  | .created => (201, errorBody 201)

theorem answer_digits (r : Reply) : (decimal (answer r).1).length = 3 := by
  cases r <;> simp only [answer] <;> decide

/-- The audit line of an answer. -/
def Job.line (J : Job) (r : Reply) : LogLine := J.task.line (answer r).1

/-! ## What each place knows -/

structure Serving (J : Job) (t : Thread) : Prop where
  task : t.task = J.task
  unsent : t.sock.written = []
  mutex : t.mutex ≠ none

/-- `k` bytes of the rest of the body have been read and stored. -/
structure Received (J : Job) (t : Thread) (f : Option Bytes) (written off k : Nat) : Prop where
  count : written = J.task.leftover.length + k
  place : off = written
  le : k ≤ J.remaining
  sent : k ≤ J.rest.pending.length
  client : t.client.pending = J.rest.pending.drop k
  file : f = some (J.task.leftover ++ J.rest.pending.take k)

/-- `f` is what the request's file holds, `g` what replaying the log says it
holds. -/
def At (E : Env) (J : Job) (f g : Option Bytes) (t : Thread) : Pc → Prop
  | .start => t = J.incoming.start
  | .lockTable | .lookup | .insert | .unlockTable | .lockUri =>
    t.task = J.task ∧ t.client = J.rest ∧ t.sock.written = []
  | .getOpen => Serving J t ∧ branch J.task.method = .get ∧ f = g
  | .getStat => Serving J t ∧ branch J.task.method = .get ∧ ∃ c, f = some c ∧ g = some c
  | .getRead acc => Serving J t ∧ branch J.task.method = .get ∧
      ∃ c, f = some c ∧ g = some c ∧ acc <+: c
  | .putAccess => Serving J t ∧ branch J.task.method = .put ∧ t.client = J.rest ∧ f = g
  | .putCreate ex => Serving J t ∧ branch J.task.method = .put ∧ t.client = J.rest ∧ ex = g.isSome
  | .putLeft ex => Serving J t ∧ branch J.task.method = .put ∧ t.client = J.rest ∧
      f = some [] ∧ ex = g.isSome
  | .putRecv ex written off => Serving J t ∧ branch J.task.method = .put ∧ ex = g.isSome ∧
      ∃ k, Received J t f written off k
  | .audit code body => Serving J t ∧ f = (J.op E).after g ∧
      (code, body) = answer ((J.op E).reply g)
  | .unlock _ _ => t.task = J.task ∧ t.mutex ≠ none ∧ f = g
  | .sendHead _ _ | .sendBody _ | .done => t.task = J.task

/-- Outside the lock a place knows nothing of the file. -/
theorem At.frame {E : Env} {J : Job} {f g f' g' : Option Bytes} {t : Thread} {pc : Pc}
    (h : At E J f g t pc) (hin : pc.inside = false) : At E J f' g' t pc := by
  cases pc <;> first | exact h | cases hin

/-- Past its audit line. -/
def Pc.late : Pc → Bool
  | .unlock _ _ | .sendHead _ _ | .sendBody _ | .done => true
  | _ => false

/-- The answer is being sent, or has been. -/
def Answered (a : Nat × Bytes) (t : Thread) : Prop :=
  match t.pc with
  | .unlock code body | .sendHead code body => (code, body) = a ∧ t.sock.written = []
  | .sendBody body => body = a.2 ∧ t.sock.written = responseHead a.1 a.2.length
  | .done => t.sock.written = wire a
  | _ => False

section
variable {E : Env} {J : Job} {f g : Option Bytes} {t : Thread}

theorem At.task (h : At E J f g t t.pc) (hs : t.pc ≠ .start) : t.task = J.task := by
  cases hpc : t.pc <;> rw [hpc] at h
  case start => exact absurd hpc hs
  case lockTable | lookup | insert | unlockTable | lockUri | unlock => exact h.1
  case sendHead | sendBody | done => exact h
  all_goals exact h.1.task

theorem At.mutex (h : At E J f g t t.pc) (hin : t.pc.inside = true) : t.mutex ≠ none := by
  cases hpc : t.pc <;> rw [hpc] at h hin
  case start | lockTable | lookup | insert | unlockTable | lockUri => cases hin
  case sendHead | sendBody | done => cases hin
  case unlock => exact h.2.1
  all_goals exact h.1.mutex

/-- Nothing is sent before the audit line. -/
theorem At.unsent (h : At E J f g t t.pc) (hl : t.pc.late = false) : t.sock.written = [] := by
  cases hpc : t.pc <;> rw [hpc] at h hl
  case start => rw [h]; rfl
  case lockTable | lookup | insert | unlockTable | lockUri => exact h.2.2
  case unlock | sendHead | sendBody | done => cases hl
  all_goals exact h.1.unsent

/-! ## GET -/

theorem getOpen_at (hat : At E J f g t t.pc) (hpc : t.pc = .getOpen)
    (hf : (t.getStep f).fault = false) :
    At E J f g (t.getStep f) (t.getStep f).pc ∧ (t.getStep f).pc.late = false ∧
      (t.getStep f).pc.inside = true := by
  rw [hpc] at hat
  obtain ⟨hs, hget, rfl⟩ := hat
  unfold Thread.getStep at hf ⊢
  simp only [hpc] at hf ⊢
  split
  · rename_i e he
    simp [he] at hf
  · refine ⟨⟨⟨hs.task, hs.unsent, hs.mutex⟩, ?_⟩, rfl, rfl⟩
    rw [J.op_get E hget]
    exact ⟨rfl, rfl⟩
  · rename_i c _
    exact ⟨⟨⟨hs.task, hs.unsent, hs.mutex⟩, hget, c, rfl, rfl⟩, rfl, rfl⟩

theorem getStat_at (hat : At E J f g t t.pc) (hpc : t.pc = .getStat)
    (hf : (t.getStep f).fault = false) :
    At E J f g (t.getStep f) (t.getStep f).pc ∧ (t.getStep f).pc.late = false ∧
      (t.getStep f).pc.inside = true := by
  rw [hpc] at hat
  obtain ⟨hs, hget, c, hc⟩ := hat
  unfold Thread.getStep at hf ⊢
  simp only [hpc] at hf ⊢
  split
  · rename_i hd
    simp [hd] at hf
  · exact ⟨⟨⟨hs.task, hs.unsent, hs.mutex⟩, hget, c, hc.1, hc.2, List.nil_prefix⟩, rfl, rfl⟩

theorem getRead_at {acc : Bytes} (hat : At E J f g t t.pc) (hpc : t.pc = .getRead acc)
    (hf : (t.getStep f).fault = false) :
    At E J f g (t.getStep f) (t.getStep f).pc ∧ (t.getStep f).pc.late = false ∧
      (t.getStep f).pc.inside = true := by
  rw [hpc] at hat
  obtain ⟨hs, hget, c, rfl, rfl, ⟨d, rfl⟩⟩ := hat
  have hrest : (acc ++ d).drop acc.length = d := List.drop_left
  unfold Thread.getStep at hf ⊢
  simp only [hpc, Option.getD_some, hrest] at hf ⊢
  cases hr : retryRead (d.length + 1) d t.fileReads with
  | mk r s =>
    rw [hr] at hf
    cases r with
    | fail e => simp at hf
    | data bs =>
      cases bs with
      | nil =>
        simp only at hf ⊢
        split
        · rename_i hle
          simp only [if_pos hle, Bool.or_eq_false_iff, bne_eq_false_iff_eq] at hf
          -- the reads got to the end of the file
          obtain rfl := hf.2
          refine ⟨⟨⟨hs.task, hs.unsent, hs.mutex⟩, ?_⟩, rfl, rfl⟩
          rw [J.op_get E hget, List.append_nil]
          exact ⟨rfl, rfl⟩
        · rename_i hle
          rw [if_neg hle] at hf
          cases hf
      | cons b bs =>
        have hd := (retryRead_data hr).1
        refine ⟨⟨⟨hs.task, hs.unsent, hs.mutex⟩, hget, acc ++ d, rfl, rfl, s.pending, ?_⟩, rfl, rfl⟩
        rw [List.append_assoc, ← hd]

/-! ## PUT -/

/-- A `writeAll` that leaves no fault stored everything. -/
theorem writeAll_stored {d : Dst UInt8} {bs : Bytes} {b : Bool}
    (h : (b || !((writeAll d bs).1 matches .ok ())) = false) :
    (writeAll d bs).2.written = d.written ++ bs := by
  obtain ⟨p, -, hp, -, hok, -⟩ := writeAll_spec d bs
  rcases hr : (writeAll d bs).1 with e | u
  · simp [hr] at h
  · rw [hp, hok hr]

theorem putAccess_at (hat : At E J f g t t.pc) (hpc : t.pc = .putAccess)
    (hf : (t.putStep f).1.fault = false) :
    At E J (t.putStep f).2 g (t.putStep f).1 (t.putStep f).1.pc ∧
      (t.putStep f).1.pc.late = false ∧ (t.putStep f).1.pc.inside = true := by
  rw [hpc] at hat
  obtain ⟨hs, hput, hcl, rfl⟩ := hat
  unfold Thread.putStep at hf ⊢
  simp only [hpc, Bool.or_eq_false_iff, bne_eq_false_iff_eq] at hf ⊢
  exact ⟨⟨⟨hs.task, hs.unsent, hs.mutex⟩, hput, hcl, hf.2⟩, rfl, rfl⟩

theorem putCreate_at {ex : Bool} (hat : At E J f g t t.pc) (hpc : t.pc = .putCreate ex)
    (hf : (t.putStep f).1.fault = false) :
    At E J (t.putStep f).2 g (t.putStep f).1 (t.putStep f).1.pc ∧
      (t.putStep f).1.pc.late = false ∧ (t.putStep f).1.pc.inside = true := by
  rw [hpc] at hat
  obtain ⟨hs, hput, hcl, hex⟩ := hat
  unfold Thread.putStep at hf ⊢
  simp only [hpc] at hf ⊢
  split
  · rename_i e he
    simp [he] at hf
  · exact ⟨⟨⟨hs.task, hs.unsent, hs.mutex⟩, hput, hcl, rfl, hex⟩, rfl, rfl⟩

theorem putLeft_at {ex : Bool} (hat : At E J f g t t.pc) (hpc : t.pc = .putLeft ex)
    (hf : (t.putStep f).1.fault = false) :
    At E J (t.putStep f).2 g (t.putStep f).1 (t.putStep f).1.pc ∧
      (t.putStep f).1.pc.late = false ∧ (t.putStep f).1.pc.inside = true := by
  rw [hpc] at hat
  obtain ⟨hs, hput, hcl, rfl, hex⟩ := hat
  unfold Thread.putStep at hf ⊢
  simp only [hpc, hs.task] at hf ⊢
  have hw := writeAll_stored hf
  rw [List.nil_append] at hw
  have hat0 : writeAt [] 0 J.task.leftover = J.task.leftover := writeAt_end [] _
  simp only [hw, Option.getD_some, hat0]
  refine ⟨⟨⟨rfl, hs.unsent, hs.mutex⟩, hput, hex, 0, ?_⟩, rfl, rfl⟩
  exact ⟨rfl, rfl, Nat.zero_le _, Nat.zero_le _, by rw [hcl, List.drop_zero], by simp⟩

/-- The answer to a PUT that stored its body. -/
theorem stored_at {ex : Bool} (hs : Serving J t) (hput : branch J.task.method = .put)
    (hex : ex = g.isSome) : At E J (some J.body) g t (auditError (if ex then 200 else 201)) := by
  refine ⟨hs, ?_⟩
  rw [J.op_put E hput, hex]
  cases g <;> exact ⟨rfl, rfl⟩

theorem putRecv_at {ex : Bool} {written off : Nat} (hat : At E J f g t t.pc)
    (hpc : t.pc = .putRecv ex written off) (hf : (t.putStep f).1.fault = false) :
    At E J (t.putStep f).2 g (t.putStep f).1 (t.putStep f).1.pc ∧
      (t.putStep f).1.pc.late = false ∧ (t.putStep f).1.pc.inside = true := by
  rw [hpc] at hat
  obtain ⟨hs, hput, hex, k, hk⟩ := hat
  have hrem : J.remaining = J.task.contentLength - J.task.leftover.length := rfl
  have hcount := hk.count
  have hle := hk.le
  unfold Thread.putStep at hf ⊢
  simp only [hpc, hs.task] at hf ⊢
  by_cases hlt : written < J.task.contentLength
  · simp only [if_pos hlt] at hf ⊢
    cases hr : retryRead (min 8192 (J.task.contentLength - written)) t.client.pending t.client.script with
    | mk r s =>
      rw [hr] at hf
      cases r with
      | fail e => simp at hf
      | data bs =>
        cases bs with
        | nil => simp at hf
        | cons b bs =>
          simp only at hf ⊢
          obtain ⟨hd, hlen, -⟩ := retryRead_data hr
          have hw := writeAll_stored hf
          rw [List.nil_append] at hw
          generalize hbs : b :: bs = chunk at hd hlen hw hf ⊢
          have htake : J.rest.pending.take (k + chunk.length) = J.rest.pending.take k ++ chunk := by
            rw [List.take_add, ← hk.client, hd, List.take_left]
          have hnew : writeAt (f.getD []) off chunk =
              J.task.leftover ++ J.rest.pending.take (k + chunk.length) := by
            have hl : (J.task.leftover ++ J.rest.pending.take k).length = off := by
              rw [List.length_append, List.length_take, Nat.min_eq_left hk.sent, hk.place, hk.count]
            rw [hk.file, Option.getD_some, ← hl, writeAt_end, htake, List.append_assoc]
          have hpend : chunk.length ≤ (J.rest.pending.drop k).length := by
            rw [← hk.client, hd, List.length_append]; omega
          rw [List.length_drop] at hpend
          rw [hw, hnew]
          refine ⟨⟨⟨rfl, hs.unsent, hs.mutex⟩, hput, hex, k + chunk.length, ?_⟩, rfl, rfl⟩
          refine ⟨by omega, by rw [hk.place], by omega, by have := hk.sent; omega, ?_, rfl⟩
          rw [← List.drop_drop, ← hk.client, hd, List.drop_left]
  · simp only [if_neg hlt] at hf ⊢
    have hend : k = J.remaining := by omega
    have hfile : f = some J.body := by rw [hk.file, Job.body, hend]
    rw [hfile]
    exact ⟨stored_at ⟨rfl, hs.unsent, hs.mutex⟩ hput hex, rfl, rfl⟩

/-! ## The response -/

theorem writeAll_sent {d d' : Dst UInt8} {bs : Bytes} (h : writeAll d bs = (.ok (), d')) :
    d'.written = d.written ++ bs := by
  obtain ⟨p, -, hp, -, hok, -⟩ := writeAll_spec d bs
  rw [h] at hp hok
  rw [hp, hok rfl]

theorem sendStep_answered {a : Nat × Bytes} (h : Answered a t)
    (hpc : (∃ code body, t.pc = .sendHead code body) ∨ ∃ body, t.pc = .sendBody body)
    (hf : t.sendStep.fault = false) :
    Answered a t.sendStep ∧ t.sendStep.task = t.task ∧
      (t.sendStep.pc = .done ∨ ∃ body, t.sendStep.pc = .sendBody body) := by
  obtain ⟨code, body, hpc⟩ | ⟨body, hpc⟩ := hpc
  · simp only [Answered, hpc] at h
    obtain ⟨rfl, hw⟩ := h
    unfold Thread.sendStep at hf ⊢
    simp only [hpc] at hf ⊢
    split
    · rename_i e sock he
      simp [he] at hf
    · rename_i sock he
      have := writeAll_sent he
      rw [hw, List.nil_append] at this
      by_cases hb : 0 < body.length
      · rw [if_pos hb]
        exact ⟨⟨rfl, this⟩, rfl, .inr ⟨body, rfl⟩⟩
      · have hnil : body = [] := List.length_eq_zero_iff.mp (by omega)
        rw [if_neg hb]
        refine ⟨?_, rfl, .inl rfl⟩
        show sock.written = _
        rw [this, wire, hnil, List.append_nil]
  · simp only [Answered, hpc] at h
    obtain ⟨rfl, hw⟩ := h
    unfold Thread.sendStep at hf ⊢
    simp only [hpc] at hf ⊢
    split
    · rename_i e sock he
      simp [he] at hf
    · rename_i sock he
      have := writeAll_sent he
      rw [hw] at this
      exact ⟨this, rfl, .inl rfl⟩

end

/-! ## The whole system -/

variable {n : Nat}

section
variable (E : Env) (jobs : Fin n → Job) (files₀ : Files)

/-- The files as replaying a log leaves them. -/
def replayed (log : List (Fin n × LogLine)) : Files :=
  replay files₀ (log.map fun e => (jobs e.1).op E)

/-- The file of a request. -/
def fileAt (i : Fin n) : List Bytes := E.fileOf (jobs i).task.uri

/-- The answer to request `i` after the requests in `log`. -/
def replyAfter (log : List (Fin n × LogLine)) (i : Fin n) : Reply :=
  ((jobs i).op E).reply (replayed E jobs files₀ log (fileAt E jobs i))

structure Linear (s : Mock n) : Prop where
  place : ∀ i, At E (jobs i) (s.files (fileAt E jobs i))
    (replayed E jobs files₀ s.log (fileAt E jobs i)) (s.threads i) (s.threads i).pc
  agree : ∀ x, s.files x = replayed E jobs files₀ s.log x ∨
    ∃ i, fileAt E jobs i = x ∧ (s.threads i).pc.inside = true
  lines : ∀ pre i l post, s.log = pre ++ (i, l) :: post →
    l = (jobs i).line (replyAfter E jobs files₀ pre i) ∧
      Answered (answer (replyAfter E jobs files₀ pre i)) (s.threads i)
  once : ∀ i, (s.log.map Prod.fst).count i = if (s.threads i).pc.late then 1 else 0

variable {E jobs files₀} {s : Mock n} {i j : Fin n}

theorem fileAt_inj (h : fileAt E jobs i = fileAt E jobs j) :
    (jobs i).task.uri = (jobs j).task.uri := by
  unfold fileAt at h
  rw [fileOf_flat E (jobs i).flat, fileOf_flat E (jobs j).flat, List.append_cancel_left_eq,
    List.cons.injEq] at h
  exact h.1

theorem Linear.init : Linear E jobs files₀ { files := files₀, threads := fun i => (jobs i).incoming.start } where
  place _ := rfl
  agree _ := .inl rfl
  lines pre i l post h := by simp at h
  once _ := rfl

theorem inside_ne_start {pc : Pc} (h : pc.inside = true) : pc ≠ .start := by
  intro hh
  subst hh
  cases h

/-- Nobody else is inside on the same file. -/
theorem Linear.alone (h : Linear E jobs files₀ s) (hl : Locks s)
    (hf : fileAt E jobs j = fileAt E jobs i) (hi : (s.threads i).pc.inside = true)
    (hj : (s.threads j).pc.inside = true) : j = i := by
  obtain ⟨m, hm⟩ := Option.ne_none_iff_exists'.mp ((h.place i).mutex hi)
  refine hl.alone ?_ hm ((h.place j).mutex hj) hi hj
  rw [(h.place i).task (inside_ne_start hi), (h.place j).task (inside_ne_start hj)]
  exact fileAt_inj hf

/-- While the mutex is free the file is what the log says. -/
theorem Linear.unlocked (h : Linear E jobs files₀ s) (hl : Locks s)
    (hpc : (s.threads i).pc = .lockUri) {m : Nat} (hm : (s.threads i).mutex = some m)
    (hfree : s.held m = none) :
    s.files (fileAt E jobs i) = replayed E jobs files₀ s.log (fileAt E jobs i) := by
  rcases h.agree (fileAt E jobs i) with ha | ⟨j, hf, hin⟩
  · exact ha
  exfalso
  obtain ⟨m', hm'⟩ := Option.ne_none_iff_exists'.mp ((h.place j).mutex hin)
  have hu : (s.threads j).task.uri = (s.threads i).task.uri := by
    rw [(h.place i).task (by rw [hpc]; simp), (h.place j).task (inside_ne_start hin)]
    exact fileAt_inj hf
  obtain rfl := hl.same hu hm' hm
  rw [((hl.thread j).held m').mpr ⟨hin, hm'⟩] at hfree
  cases hfree

/-- A step that writes no audit line. -/
theorem Linear.quiet {s' : Mock n} {t : Thread} (h : Linear E jobs files₀ s) (hl : Locks s)
    (hthreads : s'.threads = Function.update s.threads i t) (hlog : s'.log = s.log)
    (hother : ∀ x, x ≠ fileAt E jobs i → s'.files x = s.files x)
    (hsame : (s.threads i).pc.inside = false → s'.files = s.files)
    (hat : At E (jobs i) (s'.files (fileAt E jobs i))
      (replayed E jobs files₀ s.log (fileAt E jobs i)) t t.pc)
    (hleave : t.pc.inside = false →
      (s.threads i).pc.inside = true → s'.files (fileAt E jobs i) =
        replayed E jobs files₀ s.log (fileAt E jobs i))
    (hlate : t.pc.late = (s.threads i).pc.late)
    (hans : ∀ a, Answered a (s.threads i) → Answered a t) : Linear E jobs files₀ s' := by
  refine ⟨fun j => ?_, fun x => ?_, fun pre j l post he => ?_, fun j => ?_⟩
  · rw [hthreads, hlog]
    by_cases hji : j = i
    · subst hji
      rw [Function.update_self]
      exact hat
    rw [Function.update_of_ne hji]
    by_cases hf : fileAt E jobs j = fileAt E jobs i
    · cases hin : (s.threads i).pc.inside with
      | false => rw [hsame hin]; exact h.place j
      | true =>
        -- `j` is outside, and knows nothing of the file
        have hout : (s.threads j).pc.inside = false := by
          by_contra hj
          exact hji (h.alone hl hf hin (by simpa using hj))
        exact (h.place j).frame hout
    · rw [hother _ hf]; exact h.place j
  · rw [hthreads, hlog]
    by_cases hx : x = fileAt E jobs i
    · subst hx
      cases hin : t.pc.inside with
      | true => exact .inr ⟨i, rfl, by rw [Function.update_self]; exact hin⟩
      | false =>
        cases hin' : (s.threads i).pc.inside with
        | true => exact .inl (hleave hin hin')
        | false =>
          rw [hsame hin']
          apply (h.agree _).imp id
          intro hh
          obtain ⟨j, hf, hj⟩ := hh
          have hji : j ≠ i := by
            intro hh
            subst hh
            rw [hin'] at hj
            cases hj
          exact ⟨j, hf, by rw [Function.update_of_ne hji]; exact hj⟩
    · rw [hother x hx]
      apply (h.agree x).imp id
      intro hh
      obtain ⟨j, rfl, hj⟩ := hh
      have hji : j ≠ i := by
        intro hh
        subst hh
        exact hx rfl
      exact ⟨j, rfl, by rw [Function.update_of_ne hji]; exact hj⟩
  · rw [hlog] at he
    obtain ⟨h1, h2⟩ := h.lines pre j l post he
    refine ⟨h1, ?_⟩
    rw [hthreads]
    by_cases hji : j = i
    · subst hji
      rw [Function.update_self]
      exact hans _ h2
    · rw [Function.update_of_ne hji]
      exact h2
  · rw [hthreads, hlog, h.once j]
    by_cases hji : j = i
    · subst hji
      rw [Function.update_self, hlate]
    · rw [Function.update_of_ne hji]

theorem replayed_snoc (log : List (Fin n × LogLine)) (i : Fin n) (l : LogLine) :
    replayed E jobs files₀ (log ++ [(i, l)]) =
      ((jobs i).op E).apply (replayed E jobs files₀ log) := by
  simp [replayed, replay_snoc]

/-- **The audit line: the request takes effect.** -/
theorem Linear.audit {s' : Mock n} (h : Linear E jobs files₀ s) (hl : Locks s) {code : Nat}
    {body : Bytes} (hpc : (s.threads i).pc = .audit code body)
    (hthreads : s'.threads = Function.update s.threads i { s.threads i with pc := .unlock code body })
    (hlog : s'.log = s.log ++ [(i, (s.threads i).task.line code)]) (hfiles : s'.files = s.files) :
    Linear E jobs files₀ s' := by
  have hin : (s.threads i).pc.inside = true := by rw [hpc]; rfl
  have hnot : (s.threads i).pc.late = false := by rw [hpc]; rfl
  have hat := h.place i
  rw [hpc] at hat
  obtain ⟨hs, hafter, hans⟩ := hat
  have hown : replayed E jobs files₀ (s.log ++ [(i, (s.threads i).task.line code)]) (fileAt E jobs i) =
      ((jobs i).op E).after (replayed E jobs files₀ s.log (fileAt E jobs i)) := by
    have := apply_file ((jobs i).op E) (replayed E jobs files₀ s.log)
    rw [Job.op_file] at this
    rw [replayed_snoc]
    exact this
  have hother : ∀ x, x ≠ fileAt E jobs i →
      replayed E jobs files₀ (s.log ++ [(i, (s.threads i).task.line code)]) x =
        replayed E jobs files₀ s.log x := by
    intro x hx
    rw [replayed_snoc]
    exact apply_other _ _ (by rw [Job.op_file]; exact hx)
  refine ⟨fun j => ?_, fun x => ?_, fun pre j l post he => ?_, fun j => ?_⟩
  · rw [hthreads, hlog, hfiles]
    by_cases hji : j = i
    · subst hji
      rw [Function.update_self]
      exact ⟨hs.task, hs.mutex, hafter.trans hown.symm⟩
    rw [Function.update_of_ne hji]
    by_cases hf : fileAt E jobs j = fileAt E jobs i
    · have hout : (s.threads j).pc.inside = false := by
        by_contra hj
        exact hji (h.alone hl hf hin (by simpa using hj))
      exact (h.place j).frame hout
    · rw [hother _ hf]; exact h.place j
  · rw [hthreads, hlog, hfiles]
    by_cases hx : x = fileAt E jobs i
    · subst hx
      exact .inl (hafter.trans hown.symm)
    · rw [hother x hx]
      apply (h.agree x).imp id
      intro hh
      obtain ⟨j, rfl, hj⟩ := hh
      have hji : j ≠ i := by
        intro hh
        subst hh
        exact hx rfl
      exact ⟨j, rfl, by rw [Function.update_of_ne hji]; exact hj⟩
  · rw [hlog] at he
    rw [hthreads]
    rcases List.eq_nil_or_concat post with rfl | ⟨post', e, rfl⟩
    · -- the new line
      obtain ⟨rfl, he'⟩ := List.append_inj' he rfl
      simp only [List.cons.injEq, Prod.mk.injEq, and_true] at he'
      obtain ⟨rfl, rfl⟩ := he'
      rw [Function.update_self]
      refine ⟨?_, hans, hs.unsent⟩
      rw [Job.line, hs.task, replyAfter, ← hans]
    · rw [List.concat_eq_append, ← List.cons_append, ← List.append_assoc] at he
      obtain ⟨h1, h2⟩ := h.lines pre j l post' (List.append_inj' he rfl).1
      have hji : j ≠ i := by
        intro hh
        subst hh
        rw [Answered, hpc] at h2
        exact h2
      rw [Function.update_of_ne hji]
      exact ⟨h1, h2⟩
  · rw [hthreads, hlog, List.map_append, List.count_append, h.once j]
    by_cases hji : j = i
    · subst hji
      rw [Function.update_self, hnot]
      simp [Pc.late]
    · rw [Function.update_of_ne hji, List.count_eq_zero_of_not_mem (by simpa using hji), Nat.add_zero]

/-- What the handlers do between lock and audit line is seen on their own file
only. -/
theorem Linear.serve {s' : Mock n} {t : Thread} {f : Option Bytes} (h : Linear E jobs files₀ s)
    (hl : Locks s) (hin : (s.threads i).pc.inside = true) (hlate : (s.threads i).pc.late = false)
    (hthreads : s'.threads = Function.update s.threads i t) (hlog : s'.log = s.log)
    (hfiles : s'.files = Function.update s.files (fileAt E jobs i) f)
    (hat : At E (jobs i) f (replayed E jobs files₀ s.log (fileAt E jobs i)) t t.pc ∧
      t.pc.late = false ∧ t.pc.inside = true) : Linear E jobs files₀ s' := by
  obtain ⟨hat, hlate', hin'⟩ := hat
  refine h.quiet hl hthreads hlog (fun x hx => ?_) (fun hn => ?_) ?_ (fun hn => ?_) ?_ (fun a ha => ?_)
  · rw [hfiles, Function.update_of_ne hx]
  · rw [hin] at hn; cases hn
  · rw [hfiles, Function.update_self]; exact hat
  · rw [hin'] at hn; cases hn
  · rw [hlate, hlate']
  · -- not past its audit line yet
    exfalso
    unfold Answered at ha
    cases hpc : (s.threads i).pc <;> rw [hpc] at ha hlate <;> first | exact ha | cases hlate

/-- Steps on the way to the lock. -/
theorem Linear.approach {s' : Mock n} {t : Thread} (h : Linear E jobs files₀ s) (hl : Locks s)
    (hin : (s.threads i).pc.inside = false) (hlate : (s.threads i).pc.late = false)
    (hthreads : s'.threads = Function.update s.threads i t) (hlog : s'.log = s.log)
    (hfiles : s'.files = s.files)
    (hat : At E (jobs i) (s.files (fileAt E jobs i))
      (replayed E jobs files₀ s.log (fileAt E jobs i)) t t.pc)
    (hlate' : t.pc.late = false) : Linear E jobs files₀ s' := by
  refine h.quiet hl hthreads hlog (fun x _ => by rw [hfiles]) (fun _ => hfiles) (by rw [hfiles]; exact hat)
    (fun _ hn => ?_) (by rw [hlate, hlate']) (fun a ha => ?_)
  · rw [hin] at hn; cases hn
  · exfalso
    unfold Answered at ha
    cases hpc : (s.threads i).pc <;> rw [hpc] at ha hlate <;> first | exact ha | cases hlate

/-- Steps behind the audit line. -/
theorem Linear.respond {s' : Mock n} {t : Thread} (h : Linear E jobs files₀ s) (hl : Locks s)
    (hlate : (s.threads i).pc.late = true) (hout : t.pc.inside = false)
    (hthreads : s'.threads = Function.update s.threads i t) (hlog : s'.log = s.log)
    (hfiles : s'.files = s.files) (htask : t.task = (jobs i).task) (hlate' : t.pc.late = true)
    (hans : ∀ a, Answered a (s.threads i) → Answered a t) : Linear E jobs files₀ s' := by
  have hat : ∀ {f g}, At E (jobs i) f g t t.pc := by
    intro f g
    cases hpc : t.pc <;> rw [hpc] at hout hlate' <;>
      first | exact htask | exact absurd hlate' Bool.false_ne_true | exact absurd hout.symm Bool.false_ne_true
  refine h.quiet hl hthreads hlog (fun x _ => by rw [hfiles]) (fun _ => hfiles) hat (fun _ hin => ?_)
    (by rw [hlate, hlate']) hans
  -- only the unlock leaves, and there the file is what the log says
  have hp := h.place i
  rw [hfiles]
  cases hpc : (s.threads i).pc <;> rw [hpc] at hin hlate hp <;>
    first | exact hp.2.2 | exact absurd hlate Bool.false_ne_true | exact absurd hin Bool.false_ne_true

/-- A request past its audit line has a line, and is answered by it. -/
theorem Linear.logged (h : Linear E jobs files₀ s) (hlate : (s.threads i).pc.late = true) :
    ∃ pre l post, s.log = pre ++ (i, l) :: post := by
  have hc := h.once i
  rw [hlate, if_pos rfl] at hc
  have hm : i ∈ s.log.map Prod.fst := List.count_pos_iff.mp (by omega)
  obtain ⟨⟨j, l⟩, hmem, rfl⟩ := List.mem_map.mp hm
  obtain ⟨pre, post, he⟩ := List.append_of_mem hmem
  exact ⟨pre, l, post, he⟩

theorem Linear.answered (h : Linear E jobs files₀ s) (hlate : (s.threads i).pc.late = true) :
    ∃ a, Answered a (s.threads i) := by
  obtain ⟨pre, l, post, he⟩ := h.logged hlate
  exact ⟨_, (h.lines pre i l post he).2⟩

/-- One step of a GET. -/
theorem Linear.get (h : Linear E jobs files₀ s) (hl : Locks s)
    (hpc : (s.threads i).pc = .getOpen ∨ (s.threads i).pc = .getStat ∨
      ∃ acc, (s.threads i).pc = .getRead acc)
    (hf : ((s.threads i).getStep (s.files (fileAt E jobs i))).fault = false) :
    Linear E jobs files₀ (s.set i ((s.threads i).getStep (s.files (fileAt E jobs i)))) := by
  have hat := h.place i
  have hin : (s.threads i).pc.inside = true := by
    obtain hpc | hpc | ⟨acc, hpc⟩ := hpc <;> rw [hpc] <;> rfl
  have hlate : (s.threads i).pc.late = false := by
    obtain hpc | hpc | ⟨acc, hpc⟩ := hpc <;> rw [hpc] <;> rfl
  refine h.serve hl hin hlate rfl rfl (Function.update_eq_self ..).symm ?_
  obtain hpc | hpc | ⟨acc, hpc⟩ := hpc
  · exact getOpen_at hat hpc hf
  · exact getStat_at hat hpc hf
  · exact getRead_at hat hpc hf

/-- One step of a PUT. -/
theorem Linear.put {s' : Mock n} (h : Linear E jobs files₀ s) (hl : Locks s)
    (hpc : (s.threads i).pc = .putAccess ∨ (∃ ex, (s.threads i).pc = .putCreate ex) ∨
      (∃ ex, (s.threads i).pc = .putLeft ex) ∨ ∃ ex w off, (s.threads i).pc = .putRecv ex w off)
    (hthreads : s'.threads =
      Function.update s.threads i ((s.threads i).putStep (s.files (fileAt E jobs i))).1)
    (hlog : s'.log = s.log)
    (hfiles : s'.files = Function.update s.files (fileAt E jobs i)
      ((s.threads i).putStep (s.files (fileAt E jobs i))).2)
    (hf : ((s.threads i).putStep (s.files (fileAt E jobs i))).1.fault = false) :
    Linear E jobs files₀ s' := by
  have hat := h.place i
  have hin : (s.threads i).pc.inside = true := by
    obtain hpc | ⟨ex, hpc⟩ | ⟨ex, hpc⟩ | ⟨ex, w, off, hpc⟩ := hpc <;> rw [hpc] <;> rfl
  have hlate : (s.threads i).pc.late = false := by
    obtain hpc | ⟨ex, hpc⟩ | ⟨ex, hpc⟩ | ⟨ex, w, off, hpc⟩ := hpc <;> rw [hpc] <;> rfl
  refine h.serve hl hin hlate hthreads hlog hfiles ?_
  obtain hpc | ⟨ex, hpc⟩ | ⟨ex, hpc⟩ | ⟨ex, w, off, hpc⟩ := hpc
  · exact putAccess_at hat hpc hf
  · exact putCreate_at hat hpc hf
  · exact putLeft_at hat hpc hf
  · exact putRecv_at hat hpc hf

/-- One step of `sendResponse`. -/
theorem Linear.send (h : Linear E jobs files₀ s) (hl : Locks s)
    (hpc : (∃ code body, (s.threads i).pc = .sendHead code body) ∨
      ∃ body, (s.threads i).pc = .sendBody body)
    (hf : (s.threads i).sendStep.fault = false) :
    Linear E jobs files₀ (s.set i (s.threads i).sendStep) := by
  have hlate : (s.threads i).pc.late = true := by
    obtain ⟨code, body, hpc⟩ | ⟨body, hpc⟩ := hpc <;> rw [hpc] <;> rfl
  have htask : (s.threads i).task = (jobs i).task := by
    refine (h.place i).task ?_
    obtain ⟨code, body, hpc⟩ | ⟨body, hpc⟩ := hpc <;> rw [hpc] <;> simp
  obtain ⟨r, hr⟩ := h.answered hlate
  obtain ⟨-, hkeep, hnext⟩ := sendStep_answered hr hpc hf
  refine h.respond hl hlate ?_ rfl rfl rfl (hkeep.trans htask) ?_ (fun a ha => ?_)
  · rcases hnext with hn | ⟨b, hn⟩ <;> rw [hn] <;> rfl
  · rcases hnext with hn | ⟨b, hn⟩ <;> rw [hn] <;> rfl
  · exact (sendStep_answered ha hpc hf).1

variable (hfit : ∀ i, Fits (jobs i).task)
include hfit

/-- **One step keeps log and files in step**, if no call fails. -/
theorem Linear.step {s' : Mock n} (h : Linear E jobs files₀ s) (hl : Locks s)
    (hst : s.step E i = some s') (hf : (s'.threads i).fault = false) : Linear E jobs files₀ s' := by
  have hat := h.place i
  have huri : ∀ {pc}, (s.threads i).pc = pc → pc ≠ .start →
      E.fileOf (s.threads i).task.uri = fileAt E jobs i := by
    intro pc hpc hne
    rw [hat.task (by rw [hpc]; exact hne)]
    rfl
  cases hpc : (s.threads i).pc with
  | start =>
    rw [hpc] at hat
    have htask : readTask (s.threads i).client = some ((jobs i).task, (jobs i).rest) := by
      rw [hat]; exact (jobs i).parsed
    have hne : branch (jobs i).task.method ≠ .other := by
      rcases (jobs i).method with hm | hm <;> rw [hm] <;> decide
    simp only [Mock.step, hpc, htask, if_neg hne] at hst
    cases hst
    refine h.approach hl (by rw [hpc]; rfl) (by rw [hpc]; rfl) rfl rfl rfl ⟨rfl, rfl, ?_⟩ rfl
    show (s.threads i).sock.written = []
    rw [hat]; rfl
  | lockTable =>
    rw [hpc] at hat
    simp only [Mock.step, hpc] at hst
    split at hst
    · cases hst
      exact h.approach hl (by rw [hpc]; rfl) (by rw [hpc]; rfl) rfl rfl rfl hat rfl
    · cases hst
  | lookup =>
    rw [hpc] at hat
    simp only [Mock.step, hpc] at hst
    split at hst
    · cases hst
      exact h.approach hl (by rw [hpc]; rfl) (by rw [hpc]; rfl) rfl rfl rfl hat rfl
    · cases hst
      exact h.approach hl (by rw [hpc]; rfl) (by rw [hpc]; rfl) rfl rfl rfl hat rfl
  | insert =>
    rw [hpc] at hat
    simp only [Mock.step, hpc] at hst
    cases hst
    exact h.approach hl (by rw [hpc]; rfl) (by rw [hpc]; rfl) rfl rfl rfl hat rfl
  | unlockTable =>
    rw [hpc] at hat
    simp only [Mock.step, hpc] at hst
    cases hst
    exact h.approach hl (by rw [hpc]; rfl) (by rw [hpc]; rfl) rfl rfl rfl hat rfl
  | lockUri =>
    rw [hpc] at hat
    obtain ⟨htask, hcl, hsock⟩ := hat
    simp only [Mock.step, hpc] at hst
    split at hst
    · cases hst
    rename_i m hm
    split at hst
    · rename_i hfree
      have hfg := h.unlocked hl hpc hm hfree
      have hs : ∀ {pc}, Serving (jobs i) { s.threads i with pc } :=
        ⟨htask, hsock, by simp [hm]⟩
      cases hst
      refine h.approach hl (by rw [hpc]; rfl) (by rw [hpc]; rfl) rfl rfl rfl ?_ ?_
      · rcases (jobs i).method with hget | hput
        · rw [if_neg (by rw [htask, hget]; decide)]
          exact ⟨hs, hget, hfg⟩
        · rw [if_pos (by rw [htask]; exact hput)]
          exact ⟨hs, hput, hcl, hfg⟩
      · simp only; split <;> rfl
    · cases hst
  | getOpen =>
    simp only [Mock.step, hpc, huri hpc (by simp)] at hst
    cases hst
    exact h.get hl (.inl hpc) (by simpa using hf)
  | getStat =>
    simp only [Mock.step, hpc, huri hpc (by simp)] at hst
    cases hst
    exact h.get hl (.inr (.inl hpc)) (by simpa using hf)
  | getRead acc =>
    simp only [Mock.step, hpc, huri hpc (by simp)] at hst
    cases hst
    exact h.get hl (.inr (.inr ⟨acc, hpc⟩)) (by simpa using hf)
  | putAccess =>
    simp only [Mock.step, hpc, huri hpc (by simp)] at hst
    cases hst
    exact h.put hl (.inl hpc) rfl rfl rfl (by simpa using hf)
  | putCreate ex =>
    simp only [Mock.step, hpc, huri hpc (by simp)] at hst
    cases hst
    exact h.put hl (.inr (.inl ⟨ex, hpc⟩)) rfl rfl rfl (by simpa using hf)
  | putLeft ex =>
    simp only [Mock.step, hpc, huri hpc (by simp)] at hst
    cases hst
    exact h.put hl (.inr (.inr (.inl ⟨ex, hpc⟩))) rfl rfl rfl (by simpa using hf)
  | putRecv ex written off =>
    simp only [Mock.step, hpc, huri hpc (by simp)] at hst
    cases hst
    exact h.put hl (.inr (.inr (.inr ⟨ex, written, off, hpc⟩))) rfl rfl rfl (by simpa using hf)
  | audit code body =>
    rw [hpc] at hat
    obtain ⟨hs, -, hans⟩ := hat
    have hcode : code = (answer _).1 := congrArg Prod.fst hans
    have hline : (auditText ((s.threads i).task.line code)).length ≤ LINE_MAX := by
      rw [hs.task]
      exact (hfit i).line (by rw [hcode]; exact answer_digits _)
    simp only [Mock.step, hpc, if_neg hs.mutex, if_pos hline] at hst
    cases hst
    exact h.audit hl hpc rfl rfl rfl
  | unlock code body =>
    have htask := hat.task (by rw [hpc]; simp)
    simp only [Mock.step, hpc] at hst
    cases hst
    refine h.respond hl (by rw [hpc]; rfl) rfl rfl rfl rfl htask rfl (fun a ha => ?_)
    simpa [Answered, hpc] using ha
  | sendHead code body =>
    simp only [Mock.step, hpc] at hst
    cases hst
    exact h.send hl (.inl ⟨code, body, hpc⟩) (by simpa using hf)
  | sendBody body =>
    simp only [Mock.step, hpc] at hst
    cases hst
    exact h.send hl (.inr ⟨body, hpc⟩) (by simpa using hf)
  | done =>
    simp only [Mock.step, hpc] at hst
    cases hst

/-- **Log and files stay in step**, whatever the interleaving. -/
theorem mock_linear (hs : (mock E (fun i => (jobs i).incoming) files₀).Reachable s)
    (hf : ∀ i, (s.threads i).fault = false) : Linear E jobs files₀ s := by
  have hI : (mock E (fun i => (jobs i).incoming) files₀).Inductive fun s =>
      Locks s ∧ ((∀ i, (s.threads i).fault = false) → Linear E jobs files₀ s) := by
    refine ⟨?_, ?_⟩
    · intro s hh
      subst hh
      exact ⟨mock_locks (E := E) ⟨_, [], rfl, .nil _⟩, fun _ => .init⟩
    · intro s i s' hh hst
      obtain ⟨hl, h⟩ := hh
      have hm := step_moves (hl.thread i).start hst
      refine ⟨hl.step hm, fun hf' => ?_⟩
      exact (h fun j => hm.fault (hf' j)).step hfit hl hst (hf' i)
  exact (hI.reachable s hs).2 hf

end

/-- The answer on the wire so far. -/
theorem Answered.sent {a : Nat × Bytes} {t : Thread} (h : Answered a t) :
    t.sock.written <+: wire a ∧ (t.pc = .done → t.sock.written = wire a) := by
  unfold Answered at h
  split at h
  · rw [h.2]; exact ⟨List.nil_prefix, fun hd => by simp_all⟩
  · rw [h.2]; exact ⟨List.nil_prefix, fun hd => by simp_all⟩
  · rw [h.2]; exact ⟨List.prefix_append _ _, fun hd => by simp_all⟩
  · rw [h]; exact ⟨List.prefix_refl _, fun _ => rfl⟩
  · exact h.elim

end HttpC.L7
