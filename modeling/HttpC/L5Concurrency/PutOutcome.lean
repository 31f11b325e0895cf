import HttpC.L5Concurrency.Alone
import HttpC.L5Concurrency.Audit

/-!
# What a PUT leaves behind

`handle_put` opens the file without truncating, truncates it under the lock
and streams the body into it in place (src/httpserver.c:354-389). There is no
temporary file and no way back: `put_not_atomic` is a PUT that answers 500 and
leaves the file empty. What it does keep, for a client that sends a block
declaring `N` bytes and at most `N` bytes of body: `put_outcome`.

* Nothing is touched unless lock and file were obtained.
* If `ftruncate` fails, the old content stays.
* From then on the file holds an initial part of the body, whatever happens;
  under a 200 or 201 it is all the client sent before its stream ended.
* When all `N` bytes arrive and no call fails, the answer is 200 or 201 and
  the file is the body.
-/
namespace HttpC.L5
open HttpC.L1.Util HttpC.L2 HttpC.L3 HttpC.Flock

/-! ## The request -/

/-- The last `Content-Length` line holds digits denoting `N`. -/
def Declares (fs : List Field) (N : Nat) : Prop :=
  ∃ pre f post, fs = pre ++ f :: post ∧ f.key = CONTENT_LENGTH_KEY ∧
    (∀ x ∈ f.value, isDigit x = true) ∧ valueOf f.value = N ∧
    ∀ g ∈ post, g.key ≠ CONTENT_LENGTH_KEY

/-- The block of a PUT of `uri` that declares `N`: the request line `r` and
header lines `L`, in which the parser finds `fs`, the last one at the end. -/
structure PutHead (H uri : Bytes) (N : Nat) (r : ReqLine) (L : Bytes) (fs : List Field) :
    Prop where
  block : Block H
  line : LineOf (cstr H) r
  minor : r.minor = ascii "1"
  put : r.request = .PUT
  uri : r.uri = uri
  text : H = r.text ++ (L ++ [13, 10])
  no_nul : (0 : UInt8) ∉ L
  scan : Scan L fs L.length
  declares : Declares fs N

/-- The client sends the block and at most `N` bytes `B` of body, of which `b`
arrive together with the block; they do not look like a header. The server
gets as far as `handle_put`; `rest` is what the connection has in store. -/
structure PutSent (q : Incoming) (uri H B : Bytes) (N : Nat) (b : Bytes) (rest : Src UInt8) :
    Prop where
  head : ∃ r L fs, PutHead H uri N r L fs
  fits : N < 2 ^ 63
  stream : q.client.pending = H ++ B
  short : B.length ≤ N
  calloc : q.oracle.calloc = true
  regcomp : q.oracle.regcomp = .ok
  read : readUntil q.client BUFFER_SIZE BLANK_LINE = (.ok (H ++ b), rest)
  plain : NoField (cstr b)

/-- The same, past the parser. -/
structure Sent (q : Incoming) (uri B : Bytes) (N : Nat) (c : Conn UInt8) (rest : Src UInt8) :
    Prop where
  calloc : q.oracle.calloc = true
  parsed : connParse q.oracle.regcomp q.client = (none, c, rest)
  put : c.request = .PUT
  uri : c.uri = uri
  body : leftover c ++ rest.pending = B
  remaining : remaining c = N - (leftover c).length
  short : B.length ≤ N

theorem lastLength_declares {fs : List Field} {N : Nat} (h : Declares fs N) (hok : ∀ f ∈ fs, f.Ok)
    (hN : N < 2 ^ 63) : lastLength fs 0 = N := by
  obtain ⟨pre, f, post, rfl, hkey, hdig, hval, hpost⟩ := h
  have hne : f.value ≠ [] := by
    have := (hok f (by simp)).value_pos
    exact List.ne_nil_of_length_pos this
  have hf : ssize (strtoull f.value) = N := by
    rw [strtoull_digits hne hdig (by omega), hval, ssize, if_pos hN]
  -- the fields behind the last one change nothing
  have hrest : ∀ (gs : List Field) (a : Int), (∀ g ∈ gs, g.key ≠ CONTENT_LENGTH_KEY) →
      lastLength gs a = a := by
    intro gs
    induction gs with
    | nil => intro a _; rfl
    | cons g gs ih =>
      intro a hg
      obtain ⟨h1, h2⟩ := List.forall_mem_cons.mp hg
      simp only [lastLength, List.foldl_cons, if_neg h1]
      exact ih a h2
  have hsplit : lastLength (pre ++ f :: post) 0 =
      lastLength post (ssize (strtoull f.value)) := by
    simp [lastLength, hkey]
  rw [hsplit, hf]
  exact hrest post N hpost

theorem PutSent.sent {q : Incoming} {uri H B : Bytes} {N : Nat} {b : Bytes} {rest : Src UInt8}
    (h : PutSent q uri H B N b rest) : ∃ c, Sent q uri B N c rest := by
  obtain ⟨r, L, fs, hh⟩ := h.head
  have h0 : (0 : UInt8) ∉ r.text ++ (L ++ [13, 10]) := by
    simp only [List.mem_append, not_or]
    exact ⟨fun hm => not_mem_cstr _ (hh.line.2.1.subset hm), hh.no_nul, by decide⟩
  have hL : Lines L := by
    obtain ⟨L', hL', hlines⟩ := hh.block.split hh.line
    rw [hh.text] at hL'
    rwa [List.append_cancel_right (List.append_cancel_left hL')]
  have hscan := scan_block hL h0 hh.scan (.done h.plain)
  rw [if_pos rfl, List.append_nil, ← hh.text] at hscan
  have hline : LineOf (cstr (octets (H ++ b))) r := by
    rw [octets_self]; exact (lineOf_block hh.block).mpr hh.line
  have hp := connParse_accept h.read hline hh.minor (by rw [octets_self]; exact hscan)
  have hleft : leftover (accepted (H ++ b) r fs L.length) = b := by
    rw [leftover_accepted]
    have : H.length = r.text.length + (L.length + 2) := by
      conv_lhs => rw [hh.text]
      simp
    rw [← this, List.drop_left]
  have hB : b ++ rest.pending = B := by
    have := (readUntil_ok h.read).1
    rw [h.stream, List.append_assoc] at this
    exact (List.append_cancel_left this).symm
  refine ⟨_, h.calloc, by rw [h.regcomp]; exact hp, hh.put, hh.uri, by rw [hleft]; exact hB, ?_,
    h.short⟩
  rw [remaining, hleft]
  simp only [accepted, lastLength_declares hh.declares hh.scan.ok h.fits]
  omega

/-! ## The outcome -/

/-- `access()` found the file. -/
def existed (q : Incoming) (old : Option Bytes) : Bool := q.oracle.access && old.isSome

def success (ex : Bool) : Response := if ex then .OK else .CREATED

theorem success_ne (ex : Bool) : success ex ≠ .INTERNAL_SERVER_ERROR := by
  cases ex <;> decide

/-- The file held `old` before and `new` after, and `res` was the answer. -/
structure PutDone (q : Incoming) (rest : Src UInt8) (B : Bytes) (N : Nat) (old new : Option Bytes)
    (res : Response) : Prop where
  refused : q.oracle.uriLock = false ∨ q.oracle.openErr ≠ none →
    res ≠ .OK ∧ res ≠ .CREATED ∧ new = old
  kept : q.oracle.uriLock = true → q.oracle.openErr = none → q.oracle.ftruncate = false →
    res = .INTERNAL_SERVER_ERROR ∧ new = some (old.getD [])
  stored : q.oracle.uriLock = true → q.oracle.openErr = none → q.oracle.ftruncate = true →
    ∃ p, new = some p ∧ p <+: B ∧
      (res = .INTERNAL_SERVER_ERROR ∨ res = success (existed q old)) ∧
      (res = success (existed q old) → ReadEv.eof ∉ rest.script → p = B) ∧
      (Cut rest.script → Writes q.fileWrites → B.length = N →
        res = success (existed q old) ∧ p = B)

/-- The file is open and empty. -/
structure Truncated (q : Incoming) : Prop where
  lock : q.oracle.uriLock = true
  opened : q.oracle.openErr = none
  truncated : q.oracle.ftruncate = true

section
variable {E : Env} {q : Incoming} {uri B : Bytes} {N : Nat} {c : Conn UInt8} {rest : Src UInt8}
  {old f : Option Bytes} {res : Response}

theorem PutDone.of_refused (h : q.oracle.uriLock = false ∨ q.oracle.openErr ≠ none)
    (hres : res ≠ .OK ∧ res ≠ .CREATED) : PutDone q rest B N old old res := by
  refine ⟨fun _ => ⟨hres.1, hres.2, rfl⟩, fun hl ho _ => ?_, fun hl ho _ => ?_⟩ <;>
    rcases h with h | h
  · rw [hl] at h; cases h
  · exact absurd ho h
  · rw [hl] at h; cases h
  · exact absurd ho h

theorem PutDone.of_truncated (h : Truncated q) {p : Bytes} (hp : p <+: B)
    (hres : res = .INTERNAL_SERVER_ERROR ∧ ¬ (Cut rest.script ∧ Writes q.fileWrites) ∨
      res = success (existed q old) ∧ (ReadEv.eof ∉ rest.script → p = B)) :
    PutDone q rest B N old (some p) res := by
  refine ⟨fun hr => ?_, fun _ _ ht => ?_, fun _ _ _ => ⟨p, rfl, hp, ?_⟩⟩
  · rcases hr with hr | hr
    · rw [h.lock] at hr; cases hr
    · exact absurd h.opened hr
  · rw [h.truncated] at ht; cases ht
  · rcases hres with ⟨rfl, hfail⟩ | ⟨rfl, hall⟩
    · exact ⟨.inl rfl, fun he => absurd he.symm (success_ne _), fun hc hw _ => absurd ⟨hc, hw⟩ hfail⟩
    · exact ⟨.inr rfl, fun _ => hall, fun hc _ _ => ⟨rfl, hall hc.no_eof⟩⟩

/-! ## What each place knows -/

/-- Nothing has been transferred yet. -/
structure Fresh (q : Incoming) (c : Conn UInt8) (rest : Src UInt8) (w : Worker) : Prop where
  oracle : w.oracle = q.oracle
  conn : w.conn = c
  client : w.client = rest
  writes : w.fileWrites = q.fileWrites

/-- `f` is what the file holds. -/
def PutAt (q : Incoming) (B : Bytes) (N : Nat) (c : Conn UInt8) (rest : Src UInt8)
    (old f : Option Bytes) (w : Worker) : Pc → Prop
  | .new => w = q.start ∧ f = old
  | .parse => w = { q.start with conn := connNew, pc := .parse } ∧ f = old
  | .lock op => Fresh q c rest w ∧ op = .EX ∧ f = old
  | .putAccess => Fresh q c rest w ∧ q.oracle.uriLock = true ∧ f = old
  | .putOpen ex => Fresh q c rest w ∧ q.oracle.uriLock = true ∧ ex = existed q old ∧ f = old
  | .putTrunc ex => Fresh q c rest w ∧ q.oracle.uriLock = true ∧ q.oracle.openErr = none ∧
      ex = existed q old ∧ f = some (old.getD [])
  | .putLeft ex => Fresh q c rest w ∧ Truncated q ∧ ex = existed q old ∧ f = some []
  | .putRecv ex total => w.conn = c ∧ Truncated q ∧ ex = existed q old ∧
      total ≤ rest.pending.length ∧ f = some (leftover c ++ rest.pending.take total) ∧
      w.client.pending = rest.pending.drop total ∧ w.client.script <:+ rest.script ∧
      w.fileWrites <:+ q.fileWrites
  | .tail acts => ∃ res, responses (w.trace ++ acts) = [res] ∧ PutDone q rest B N old f res
  | _ => False

/-! ## One step -/

variable {files : Files} {w : Worker} {o : Outcome} {free : Bytes → Mode → Bool}

/-- Entering an exit: nothing was answered on the way. -/
theorem putAt_exit {w' : Worker} {acts : List Act} (ht : responses w'.trace = [])
    (hr : responses acts = [res]) (hd : PutDone q rest B N old f res) :
    PutAt q B N c rest old f w' (.tail acts) := by
  refine ⟨res, ?_, hd⟩
  rw [responses_append, ht, hr]
  rfl

theorem putAt_lock (hat : PutAt q B N c rest old (files (E.fileOf uri)) w w.pc)
    (ht : w.trace = w.pc.past) {op : Mode} (hpc : w.pc = .lock op) (ho : w.step E free files = some o) :
    PutAt q B N c rest old (o.files (E.fileOf uri)) o.worker o.worker.pc := by
  rw [hpc] at hat ht
  obtain ⟨hf, rfl, hold⟩ := hat
  simp only [Worker.step, hpc, hf.oracle] at ho
  split at ho
  · rename_i hlock
    cases ho
    simp only [hold]
    exact putAt_exit (by rw [ht]; rfl) rfl (.of_refused (.inl hlock) (by decide))
  · rename_i hlock
    split at ho
    · cases ho
      exact ⟨⟨rfl, hf.conn, hf.client, hf.writes⟩, by simpa using hlock, hold⟩
    · cases ho

theorem putAt_open (h : Sent q uri B N c rest)
    (hat : PutAt q B N c rest old (files (E.fileOf uri)) w w.pc) (ht : w.trace = w.pc.past)
    {ex : Bool} (hpc : w.pc = .putOpen ex) (ho : w.step E free files = some o) :
    PutAt q B N c rest old (o.files (E.fileOf uri)) o.worker o.worker.pc := by
  rw [hpc] at hat ht
  obtain ⟨hf, hlock, hex, hold⟩ := hat
  have hu : w.conn.uri = uri := by rw [hf.conn, h.uri]
  simp only [Worker.step, hpc, hf.oracle, hu] at ho
  split at ho
  · rename_i e he
    cases ho
    simp only [hold]
    refine putAt_exit (by rw [ht]; rfl) rfl (.of_refused (.inr (by rw [he]; simp)) ?_)
    cases e <;> decide
  · rename_i he
    cases ho
    refine ⟨⟨rfl, hf.conn, hf.client, hf.writes⟩, hlock, he, hex, ?_⟩
    simp only [Function.update_self, hold]

theorem putAt_trunc (h : Sent q uri B N c rest)
    (hat : PutAt q B N c rest old (files (E.fileOf uri)) w w.pc) (ht : w.trace = w.pc.past)
    {ex : Bool} (hpc : w.pc = .putTrunc ex) (ho : w.step E free files = some o) :
    PutAt q B N c rest old (o.files (E.fileOf uri)) o.worker o.worker.pc := by
  rw [hpc] at hat ht
  obtain ⟨hf, hlock, hopen, hex, hold⟩ := hat
  have hu : w.conn.uri = uri := by rw [hf.conn, h.uri]
  simp only [Worker.step, hpc, hf.oracle, hu] at ho
  split at ho
  · rename_i htr
    cases ho
    simp only [hold]
    refine putAt_exit (by rw [ht]; rfl) rfl ⟨?_, fun _ _ _ => ⟨rfl, rfl⟩, fun _ _ h => ?_⟩
    · intro hh
      rcases hh with h | h
      · rw [hlock] at h; cases h
      · exact absurd hopen h
    · rw [htr] at h; cases h
  · rename_i htr
    cases ho
    refine ⟨⟨rfl, hf.conn, hf.client, hf.writes⟩, ⟨hlock, hopen, by simpa using htr⟩, hex, ?_⟩
    simp only [Function.update_self]

theorem putAt_left (h : Sent q uri B N c rest)
    (hat : PutAt q B N c rest old (files (E.fileOf uri)) w w.pc) (ht : w.trace = w.pc.past)
    {ex : Bool} (hpc : w.pc = .putLeft ex) (ho : w.step E free files = some o) :
    PutAt q B N c rest old (o.files (E.fileOf uri)) o.worker o.worker.pc := by
  rw [hpc] at hat ht
  obtain ⟨hf, htr, rfl, hold⟩ := hat
  have hu : w.conn.uri = uri := by rw [hf.conn, h.uri]
  have hwr : ∀ bs, writeAt [] 0 bs = bs := writeAt_end []
  obtain ⟨p, p1, p2, p3, p4, p5⟩ := writeAll_spec ⟨[], q.fileWrites⟩ (leftover c)
  have hB : leftover c <+: B := ⟨_, h.body⟩
  simp only [Worker.step, hpc, hf.conn, h.uri, hf.writes, hold, Option.getD_some, hwr] at ho
  cases hw : writeAll ⟨[], q.fileWrites⟩ (leftover c) with
  | mk r fd =>
    rw [hw] at p2 p3 p4 p5 ho
    simp only [List.nil_append] at p2
    cases r with
    | error e =>
      cases ho
      simp only [Function.update_self, p2]
      refine putAt_exit (by rw [ht]; rfl) rfl
        (.of_truncated htr (p1.trans hB) (.inl ⟨rfl, fun hcw => ?_⟩))
      have := p5 hcw.2
      cases this
    | ok u =>
      cases ho
      obtain rfl := p4 rfl
      simp only [Function.update_self, p2]
      by_cases h0 : 0 < remaining c
      · simp only [if_pos h0]
        exact ⟨rfl, htr, rfl, Nat.zero_le _, by simp, by simp [hf.client], by rw [hf.client], p3⟩
      · simp only [if_neg h0]
        refine putAt_exit (by rw [ht]; rfl) rfl (.of_truncated htr hB (.inr ⟨rfl, fun _ => ?_⟩))
        -- all of the body was buffered
        apply hB.eq_of_length_le
        have h1 := h.remaining; have h2 := h.short
        omega

theorem putAt_recv (h : Sent q uri B N c rest)
    (hat : PutAt q B N c rest old (files (E.fileOf uri)) w w.pc) (ht : w.trace = w.pc.past)
    {ex : Bool} {total : Nat} (hpc : w.pc = .putRecv ex total) (ho : w.step E free files = some o) :
    PutAt q B N c rest old (o.files (E.fileOf uri)) o.worker o.worker.pc := by
  rw [hpc] at hat ht
  obtain ⟨hconn, htr, rfl, hle, hold, hcl, hsrc, hdst⟩ := hat
  simp only [Worker.step, hpc, hconn, h.uri, hold, Option.getD_some] at ho
  cases hr : passRound (remaining c) w.client ⟨[], w.fileWrites⟩ total with
  | mk r sd =>
    obtain ⟨s', d⟩ := sd
    rw [hr] at ho
    have hR := received hle hcl hr
    have hpre := hR.pre
    rw [h.body] at hpre
    cases r with
    | stop res =>
      cases res with
      | error e =>
        cases ho
        simp only [Function.update_self]
        refine putAt_exit (by rw [ht]; rfl) rfl
          (.of_truncated htr hpre (.inl ⟨rfl, fun hcw => ?_⟩))
        exact hR.failed e rfl ⟨hcw.1.suffix hsrc, hcw.2.suffix hdst⟩
      | ok k =>
        obtain ⟨hnew, hstop⟩ := hR.ended k rfl
        cases ho
        simp only [Function.update_self]
        refine putAt_exit (by rw [ht]; rfl) rfl
          (.of_truncated htr hpre (.inr ⟨rfl, fun he => ?_⟩))
        -- the transfer succeeds only behind the body, or at the end of the stream
        have hall : rest.pending.length ≤ total := by
          have h1 := h.remaining; have h2 := h.short; have h3 := congrArg List.length h.body
          rw [List.length_append] at h3
          rcases hstop fun hm => he (hsrc.mem hm) with hn | hn <;> omega
        rw [hnew, List.take_of_length_le hall, h.body]
    | again t =>
      obtain ⟨hmax, -, hnew, hpend⟩ := hR.again t rfl
      cases ho
      simp only [Function.update_self, hnew]
      exact ⟨rfl, htr, rfl, hmax, rfl, hpend, hR.src.trans hsrc, hR.dst.trans hdst⟩

/-- **One step of a PUT**, whatever the calls return. -/
theorem putAt_step (h : Sent q uri B N c rest) (hpl : PlannedAt q w w.pc)
    (hat : PutAt q B N c rest old (files (E.fileOf uri)) w w.pc)
    (ho : w.step E free files = some o) :
    PutAt q B N c rest old (o.files (E.fileOf uri)) o.worker o.worker.pc := by
  cases hpc : w.pc with
  | new =>
    rw [hpc] at hat
    obtain ⟨rfl, hold⟩ := hat
    have hc : q.start.oracle.calloc = true := h.calloc
    simp only [Worker.step, hpc, hc, if_true] at ho
    cases ho
    exact ⟨rfl, hold⟩
  | parse =>
    rw [hpc] at hat
    obtain ⟨rfl, hold⟩ := hat
    have hp : connParse q.start.oracle.regcomp q.start.client = (none, c, rest) := h.parsed
    simp only [Worker.step, hp] at ho
    cases ho
    have hd : dispatch none c = .lock .EX := by simp only [dispatch, h.put]
    simp only [hd]
    exact ⟨⟨rfl, rfl, rfl, rfl⟩, rfl, hold⟩
  | lock op => exact putAt_lock hat (by rw [hpc] at hpl ⊢; exact hpl.1) hpc ho
  | putAccess =>
    rw [hpc] at hat
    obtain ⟨hf, hlock, hold⟩ := hat
    simp only [Worker.step, hpc, hf.conn, h.uri, hf.oracle, hold] at ho
    cases ho
    exact ⟨⟨rfl, rfl, hf.client, hf.writes⟩, hlock, rfl, hold⟩
  | putOpen ex => exact putAt_open h hat (by rw [hpc] at hpl ⊢; exact hpl.1) hpc ho
  | putTrunc ex => exact putAt_trunc h hat (by rw [hpc] at hpl ⊢; exact hpl.1) hpc ho
  | putLeft ex => exact putAt_left h hat (by rw [hpc] at hpl ⊢; exact hpl.1) hpc ho
  | putRecv ex total => exact putAt_recv h hat (by rw [hpc] at hpl ⊢; exact hpl.1) hpc ho
  | tail acts =>
    rw [hpc] at hat
    cases acts with
    | nil => simp [Worker.step, hpc] at ho
    | cons a as =>
      simp only [Worker.step, hpc, Option.some.injEq] at ho
      subst ho
      obtain ⟨res, hres, hd⟩ := hat
      rw [List.append_cons] at hres
      cases a <;> exact ⟨res, hres, hd⟩
  | getOpen => rw [hpc] at hat; exact hat.elim
  | getStat => rw [hpc] at hat; exact hat.elim
  | getHead count => rw [hpc] at hat; exact hat.elim
  | getSend count total => rw [hpc] at hat; exact hat.elim

end

/-! ## The whole run -/

theorem putAt_reachable {E : Env} {q : Incoming} {uri B : Bytes} {N : Nat} {c : Conn UInt8}
    {rest : Src UInt8} {files : Files} {s : Sys 1} (h : Sent q uri B N c rest)
    (hs : (alone E q files).Reachable s) :
    PutAt q B N c rest (files (E.fileOf uri)) (s.files (E.fileOf uri)) (s.workers 0)
      (s.workers 0).pc := by
  have hI : (alone E q files).Inductive fun s => (alone E q files).Reachable s ∧
      PutAt q B N c rest (files (E.fileOf uri)) (s.files (E.fileOf uri)) (s.workers 0)
        (s.workers 0).pc := by
    refine ⟨?_, ?_⟩
    · intro s hh
      subst hh
      exact ⟨⟨_, [], rfl, .nil _⟩, rfl, rfl⟩
    · intro s i s' hh hst
      obtain ⟨hr, hat⟩ := hh
      refine ⟨hr.step hst, ?_⟩
      obtain ⟨o, ho, hfiles, -, hw⟩ := step_inv hst
      obtain rfl : i = 0 := Subsingleton.elim _ _
      rw [hfiles, hw, Function.update_self]
      exact putAt_step h (server_planned hr 0).2 hat ho
  exact (hI.reachable s hs).2

/-- **The outcome of a PUT.** -/
theorem put_outcome (E : Env) (files : Files) (q : Incoming) (uri H B : Bytes) (N : Nat)
    (b : Bytes) (rest : Src UInt8) (hq : PutSent q uri H B N b rest) (s : Sys 1)
    (hs : (alone E q files).Reachable s) (hd : (s.workers 0).pc = .done) :
    ∃ res, responses (s.workers 0).trace = [res] ∧
      PutDone q rest B N (files (E.fileOf uri)) (s.files (E.fileOf uri)) res := by
  obtain ⟨c, hc⟩ := hq.sent
  have hat := putAt_reachable hc hs
  rw [hd] at hat
  obtain ⟨res, hres, hdone⟩ := hat
  rw [List.append_nil] at hres
  exact ⟨res, hres, hdone⟩

/-- `PUT /a` of two bytes that come after the block; the writes to the file go
as `ws` says. -/
def putTwo (ws : List WriteEv) : Incoming where
  client := ⟨ascii "PUT /a HTTP/1.1\r\nContent-Length: 2\r\n\r\nhi", [.got 37]⟩
  fileWrites := ws

theorem putTwo_sent (ws : List WriteEv) : PutSent (putTwo ws) (ascii "a")
    (ascii "PUT /a HTTP/1.1\r\nContent-Length: 2\r\n\r\n") (ascii "hi") 2 [] ⟨ascii "hi", []⟩ where
  head := by
    have hok : Field.Ok ⟨CONTENT_LENGTH_KEY, 32, ascii "2"⟩ := by decide
    have hscan := scan_texts (List.forall_mem_singleton.mpr hok)
    refine ⟨⟨ascii "PUT", ascii "a", ascii "1", 46, ascii "1"⟩, _, _, by decide,
      ⟨by decide, by decide, by decide⟩, rfl, by decide, rfl, by decide, by decide, hscan, ?_⟩
    exact ⟨[], _, [], rfl, rfl, List.all_eq_true.mp (by decide), by decide, fun g hg => by cases hg⟩
  fits := by decide
  stream := rfl
  short := by decide
  calloc := rfl
  regcomp := rfl
  read := by rw [show (putTwo ws).client = (putTwo []).client from rfl]; decide
  plain := noField_short (by decide)

/-- Into a directory without `a`: 201, and the file is the body. -/
theorem put_outcome_putTwo : ∃ s, (alone ⟨[], 1, 2⟩ (putTwo []) fun _ => none).Reachable s ∧
    responses (s.workers 0).trace = [.CREATED] ∧ s.files [ascii "a"] = some (ascii "hi") := by
  have hrun : ((LTS.exec (Sys.step ⟨[], 1, 2⟩)
      ⟨fun _ => none, [], fun _ : Fin 1 => (putTwo []).start⟩ (List.replicate 14 0)).map fun s =>
        (s.workers 0).pc) = some .done := by decide
  obtain ⟨s, hs, hd⟩ := Option.map_eq_some_iff.mp hrun
  have hr : (alone ⟨[], 1, 2⟩ (putTwo []) fun _ => none).Reachable s :=
    ⟨_, _, rfl, LTS.run_of_exec _ _ _ hs⟩
  obtain ⟨res, hres, hdone⟩ := put_outcome _ _ _ _ _ _ _ _ _ (putTwo_sent []) s hr hd
  obtain ⟨p, hp, -, -, -, hall⟩ := hdone.stored rfl rfl rfl
  obtain ⟨rfl, rfl⟩ := hall (by decide) (by decide) rfl
  exact ⟨s, hr, hres, hp⟩

/-- Stored whole and answered so, or refused and untouched. -/
def AllOrNothing (B : Bytes) (N : Nat) (old new : Option Bytes) (res : Response) : Prop :=
  ((res = .OK ∨ res = .CREATED) ∧ new = some B ∧ B.length = N) ∨
    (res ≠ .OK ∧ res ≠ .CREATED ∧ new = old)

/-- **Counterexample**: the file holds `old`, the first `write()` of the body
fails. The answer is 500 and the file is empty. -/
theorem put_not_atomic :
    ¬ ∀ (E : Env) (files : Files) (q : Incoming) (uri H B : Bytes) (N : Nat) (b : Bytes)
      (rest : Src UInt8), PutSent q uri H B N b rest → ∀ s, (alone E q files).Reachable s →
      (s.workers 0).pc = .done → ∀ res, responses (s.workers 0).trace = [res] →
        AllOrNothing B N (files (E.fileOf uri)) (s.files (E.fileOf uri)) res := by
  intro h
  have hrun : ((LTS.exec (Sys.step ⟨[], 1, 2⟩)
      ⟨fun _ => some (ascii "old"), [], fun _ : Fin 1 => (putTwo [.err .other]).start⟩
      (List.replicate 13 0)).map fun s =>
        ((s.workers 0).pc, responses (s.workers 0).trace, s.files [ascii "a"])) =
      some (.done, [.INTERNAL_SERVER_ERROR], some []) := by decide
  obtain ⟨s, hs, hd⟩ := Option.map_eq_some_iff.mp hrun
  simp only [Prod.mk.injEq] at hd
  obtain ⟨hpc, hres, hfile⟩ := hd
  have hall := h ⟨[], 1, 2⟩ (fun _ => some (ascii "old")) _ _ _ _ _ _ _ (putTwo_sent [.err .other]) s
    ⟨_, _, rfl, LTS.run_of_exec _ _ _ hs⟩ hpc _ hres
  rw [show Env.fileOf ⟨[], 1, 2⟩ (ascii "a") = [ascii "a"] by decide, hfile] at hall
  revert hall
  unfold AllOrNothing
  decide

end HttpC.L5
