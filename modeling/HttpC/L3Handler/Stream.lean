import HttpC.L3Handler.Discipline

/-!
# The streaming loops, step by step

The handlers' places `putLeft`, `putRecv`, `getHead` and `getSend` take
`conn_recv_file` and `conn_send_file` apart, one `pass_bytes` round a step, so
that others may run in between. `received` says what one round of the upload
leaves in the file. Left alone, the places do exactly what the two functions of
`L2Parse/Conn` do: `recv_refines`, `send_refines`.
-/
namespace HttpC.L3
open HttpC.L1.Util HttpC.L2 HttpC.Flock

/-! ## One round of a PUT -/

/-- A round over a connection that had `rest` to come when the transfer began,
into a file that holds the leftover and `total` bytes more: `new` is what the
file holds then. -/
structure Received (c : Conn UInt8) (rest s : Src UInt8) (ws : List WriteEv) (total : Nat)
    (r : Round) (s' : Src UInt8) (ws' : List WriteEv) (new : Bytes) : Prop where
  src : s'.script <:+ s.script
  dst : ws' <:+ ws
  pre : new <+: leftover c ++ rest.pending
  again : ∀ t, r = .again t → t ≤ rest.pending.length ∧ t ≤ remaining c ∧
    new = leftover c ++ rest.pending.take t ∧ s'.pending = rest.pending.drop t
  ended : ∀ k, r = .stop (.ok k) → new = leftover c ++ rest.pending.take total ∧
    (ReadEv.eof ∉ s.script → remaining c ≤ total ∨ rest.pending.length ≤ total)
  failed : ∀ e, r = .stop (.error e) → ¬ (Cut s.script ∧ Writes ws)

theorem received {c : Conn UInt8} {rest s s' : Src UInt8} {ws : List WriteEv} {total : Nat}
    {r : Round} {d : Dst UInt8} (hle : total ≤ rest.pending.length)
    (hs : s.pending = rest.pending.drop total)
    (hr : passRound (remaining c) s ⟨[], ws⟩ total = (r, s', d)) :
    Received c rest s ws total r s' d.script
      (writeAt (leftover c ++ rest.pending.take total) ((leftover c).length + total) d.written) := by
  obtain ⟨a, p, hP, hres⟩ := passRound_spec (remaining c) s ⟨[], ws⟩ total
  rw [hr] at hP hres
  have htak : rest.pending.drop total = a ++ s'.pending := by rw [← hs]; exact hP.taken
  have hnew : writeAt (leftover c ++ rest.pending.take total) ((leftover c).length + total)
      d.written = leftover c ++ (rest.pending.take total ++ p) := by
    have hoff : (leftover c).length + total = (leftover c ++ rest.pending.take total).length := by
      rw [List.length_append, List.length_take]; omega
    rw [hoff, writeAt_end, hP.put, List.append_assoc, List.nil_append]
  rw [hnew]
  refine ⟨hP.src, hP.dst, ?_, ?_, ?_, ?_⟩
  · apply (List.prefix_append_right_inj _).mpr
    conv_rhs => rw [← List.take_append_drop total rest.pending, htak]
    exact (List.prefix_append_right_inj _).mpr (hP.pre.trans (List.prefix_append _ _))
  · intro t h
    subst h
    obtain ⟨rfl, rfl, hne⟩ := hres
    have hlen := congrArg List.length htak
    have hpos := List.length_pos_of_ne_nil hne
    have hmax := hP.le
    rw [List.length_append, List.length_drop] at hlen
    refine ⟨by omega, by omega, ?_, ?_⟩
    · rw [List.take_add, htak, List.take_left]
    · rw [← List.drop_drop, htak, List.drop_left]
  · intro k h
    subst h
    obtain ⟨rfl, rfl, rfl, hstop⟩ := hres
    refine ⟨by rw [List.append_nil], fun he => (hstop he).imp id fun hn => ?_⟩
    simp only at hn
    rwa [hn, List.append_nil, List.drop_eq_nil_iff] at htak
  · intro e h
    subst h
    exact hres

/-! ## Left alone -/

/-- One handler, and nobody else. -/
def lone (E : Env) (free : Bytes → Mode → Bool) : LTS (Worker × Files) Unit :=
  .ofFn (fun _ => True) fun s _ => (s.1.step E free s.2).map fun o => (o.worker, o.files)

/-- What `handle_put` makes of the outcome of `pass_bytes`. -/
def recvError : Except Errno Nat → Option Response
  | .error _ => some .INTERNAL_SERVER_ERROR
  | .ok _ => none

/-- Where a round of the body transfer leads. -/
def recvNext (ex : Bool) : Round → Pc
  | .stop res => putExit ex (recvError res)
  | .again total => .putRecv ex total

/-- Where a round of the file transfer leads. -/
def sendNext (count : Nat) : Round → Pc
  | .stop _ => exitSent .OK
  | .again total => .getSend count total

section
variable (E : Env) (free : Bytes → Mode → Bool)

/-- The rounds of `pass_bytes(connfd, fd, remaining)`. -/
theorem recv_rounds (ex : Bool) (fuel : Nat) (w : Worker) (files : Files) (total : Nat)
    (content : Bytes) (hpc : w.pc = .putRecv ex total)
    (hf : files (E.fileOf w.conn.uri) = some content)
    (hoff : content.length = (leftover w.conn).length + total)
    (hfuel : w.client.pending.length < fuel) :
    let r := passBytesLoop (remaining w.conn) fuel w.client ⟨content, w.fileWrites⟩ total
    ∃ ls, (lone E free).Run (w, files) ls
      ({ w with client := r.2.1, fileWrites := r.2.2.script, pc := putExit ex (recvError r.1) },
        Function.update files (E.fileOf w.conn.uri) (some r.2.2.written)) := by
  induction fuel generalizing w files total content with
  | zero => omega
  | succ fuel ih =>
    obtain ⟨c, q, hP, hres⟩ := passRound_spec (remaining w.conn) w.client ⟨[], w.fileWrites⟩ total
    simp only [passBytesLoop]
    rw [passRound_shift]
    cases hr : passRound (remaining w.conn) w.client ⟨[], w.fileWrites⟩ total with
    | mk r sd =>
      obtain ⟨s', d⟩ := sd
      rw [hr] at hP hres
      have hwrite : writeAt content ((leftover w.conn).length + total) d.written =
          content ++ d.written := by rw [← hoff]; exact writeAt_end content d.written
      have hstep : (lone E free).step (w, files) ()
          ({ w with client := s', fileWrites := d.script, pc := recvNext ex r },
            Function.update files (E.fileOf w.conn.uri) (some (content ++ d.written))) := by
        simp only [lone, LTS.ofFn, Worker.step, hpc, hr, hf, Option.getD_some]
        cases r with
        | stop res => cases res <;> simp only [hwrite, Option.map_some, recvNext, recvError]
        | again t => simp only [hwrite, Option.map_some, recvNext]
      cases r with
      | stop res => exact ⟨_, .single hstep⟩
      | again t =>
        obtain ⟨rfl, rfl, -⟩ := hres
        have hput := hP.put
        have hlt := passRound_lt hr
        simp only [List.nil_append] at hput
        obtain ⟨ls, hls⟩ := ih { w with
            client := s', fileWrites := d.script, pc := .putRecv ex (total + q.length) }
          (Function.update files (E.fileOf w.conn.uri) (some (content ++ d.written)))
          (total + q.length) (content ++ d.written) rfl (by simp)
          (by simp only [List.length_append, hoff, hput]; omega) (by simp only; omega)
        simp only [Function.update_idem] at hls
        exact ⟨_, .cons hstep hls⟩

/-- **`conn_recv_file`, step by step.** From a truncated file the handler comes
to its exit with the result, the descriptors and the content that
`conn_recv_file` gives. -/
theorem recv_refines (w : Worker) (files : Files) (ex : Bool) (hpc : w.pc = .putLeft ex)
    (hf : files (E.fileOf w.conn.uri) = some []) :
    let r := connRecvFile w.conn w.client ⟨[], w.fileWrites⟩
    ∃ ls, (lone E free).Run (w, files) ls
      ({ w with client := r.2.1, fileWrites := r.2.2.script, pc := putExit ex r.1 },
        Function.update files (E.fileOf w.conn.uri) (some r.2.2.written)) := by
  intro r
  have hwrite : ∀ bs, writeAt [] 0 bs = bs := writeAt_end []
  have hr : r = connRecvFile w.conn w.client ⟨[], w.fileWrites⟩ := rfl
  rw [connRecvFile_eq] at hr
  clear_value r
  cases hw : writeAll ⟨[], w.fileWrites⟩ (leftover w.conn) with
  | mk res fd =>
    obtain ⟨p, -, hp, -, hall, -⟩ := writeAll_spec ⟨[], w.fileWrites⟩ (leftover w.conn)
    rw [hw] at hr hp hall
    have hstep : ∀ pc, pc = (match res with
          | .error _ => putExit ex (some .INTERNAL_SERVER_ERROR)
          | .ok _ => if 0 < remaining w.conn then .putRecv ex 0 else putExit ex none) →
        (lone E free).step (w, files) () ({ w with fileWrites := fd.script, pc },
          Function.update files (E.fileOf w.conn.uri) (some fd.written)) := by
      intro pc hpc'
      subst hpc'
      simp only [lone, LTS.ofFn, Worker.step, hpc, hw, hf, Option.getD_some, hwrite]
      cases res <;> rfl
    cases res with
    | error e =>
      subst hr
      exact ⟨_, .single (hstep _ rfl)⟩
    | ok u =>
      by_cases h0 : 0 < remaining w.conn
      · simp only [if_pos h0] at hr hstep
        have hfd : fd.written = leftover w.conn := by
          rw [hall rfl] at hp
          simpa using hp
        obtain ⟨ls, hls⟩ := recv_rounds E free ex (w.client.pending.length + 1)
          { w with fileWrites := fd.script, pc := .putRecv ex 0 }
          (Function.update files (E.fileOf w.conn.uri) (some fd.written)) 0 fd.written rfl (by simp)
          (by simp [hfd]) (Nat.lt_succ_self _)
        refine ⟨() :: ls, .cons (hstep _ rfl) ?_⟩
        simp only [Function.update_idem] at hls
        have hb : passBytesLoop (remaining w.conn) (w.client.pending.length + 1) w.client
            ⟨fd.written, fd.script⟩ 0 = passBytes w.client fd (remaining w.conn) := rfl
        rw [hb] at hls
        subst hr
        cases hpb : passBytes w.client fd (remaining w.conn) with
        | mk res sd =>
          rw [hpb] at hls
          cases res <;> exact hls
      · simp only [if_neg h0] at hr hstep
        subst hr
        exact ⟨_, .single (hstep _ rfl)⟩

/-- The rounds of `pass_bytes(fd, connfd, count)`: the descriptor stands at
`total` of a file nobody writes to. -/
theorem send_rounds (count fuel : Nat) (w : Worker) (files : Files) (total : Nat) (content : Bytes)
    (hpc : w.pc = .getSend count total) (hf : files (E.fileOf w.conn.uri) = some content)
    (hfuel : (content.drop total).length < fuel) :
    let r := passBytesLoop count fuel ⟨content.drop total, w.fileReads⟩ w.sock total
    ∃ ls, (lone E free).Run (w, files) ls
      ({ w with sock := r.2.2, fileReads := r.2.1.script, pc := exitSent .OK }, files) := by
  induction fuel generalizing w total with
  | zero => omega
  | succ fuel ih =>
    obtain ⟨c, q, hP, hres⟩ :=
      passRound_spec count ⟨content.drop total, w.fileReads⟩ w.sock total
    simp only [passBytesLoop]
    cases hr : passRound count ⟨content.drop total, w.fileReads⟩ w.sock total with
    | mk r sd =>
      obtain ⟨s', d⟩ := sd
      rw [hr] at hP hres
      have hstep : (lone E free).step (w, files) ()
          ({ w with sock := d, fileReads := s'.script, pc := sendNext count r }, files) := by
        simp only [lone, LTS.ofFn, Worker.step, hpc, hr, hf, Option.getD_some]
        cases r <;> simp only [Option.map_some, sendNext]
      cases r with
      | stop res => exact ⟨_, .single hstep⟩
      | again t =>
        obtain ⟨rfl, -, -⟩ := hres
        have hlt : s'.pending.length < (content.drop total).length := passRound_lt hr
        have htak : content.drop total = c ++ s'.pending := hP.taken
        have hrest : content.drop (total + c.length) = s'.pending := by
          rw [← List.drop_drop, htak, List.drop_left]
        obtain ⟨ls, hls⟩ := ih { w with
            sock := d, fileReads := s'.script, pc := .getSend count (total + c.length) }
          (total + c.length) rfl hf (by rw [hrest]; omega)
        simp only [hrest] at hls
        exact ⟨_, .cons hstep hls⟩

/-- **`conn_send_file`, step by step.** The header and the file's first `count`
bytes reach the client as `conn_send_file` sends them; `handle_get` audits the
`200` whatever it returned. -/
theorem send_refines (w : Worker) (files : Files) (count : Nat) (content : Bytes)
    (hpc : w.pc = .getHead count) (hf : files (E.fileOf w.conn.uri) = some content) :
    let r := connSendFile ⟨content, w.fileReads⟩ w.sock count
    ∃ ls, (lone E free).Run (w, files) ls
      ({ w with sock := r.2.2, fileReads := r.2.1.script, trace := w.trace ++ [.respond .OK],
                pc := exitSent .OK }, files) := by
  intro r
  have hr : r = connSendFile ⟨content, w.fileReads⟩ w.sock count := rfl
  clear_value r
  unfold connSendFile at hr
  cases hw : writeAll w.sock (fileHeader count) with
  | mk res sock =>
    rw [hw] at hr
    have hstep : ∀ pc, pc = (match res with
          | .error _ => exitSent .OK
          | .ok _ => if 0 < count then .getSend count 0 else exitSent .OK) →
        (lone E free).step (w, files) ()
          ({ w with sock, trace := w.trace ++ [.respond .OK], pc }, files) := by
      intro pc hpc'
      subst hpc'
      simp only [lone, LTS.ofFn, Worker.step, hpc, hw]
      cases res <;> rfl
    cases res with
    | error e =>
      subst hr
      exact ⟨_, .single (hstep _ rfl)⟩
    | ok u =>
      by_cases h0 : 0 < count
      · simp only [if_pos h0] at hr hstep
        obtain ⟨ls, hls⟩ := send_rounds E free count (content.length + 1)
          { w with sock, trace := w.trace ++ [.respond .OK], pc := .getSend count 0 }
          files 0 content rfl hf (Nat.lt_succ_self _)
        refine ⟨() :: ls, .cons (hstep _ rfl) ?_⟩
        have hb : passBytesLoop count (content.length + 1) ⟨content.drop 0, w.fileReads⟩ sock 0 =
            passBytes ⟨content, w.fileReads⟩ sock count := rfl
        simp only [hb] at hls
        subst hr
        cases hpb : passBytes ⟨content, w.fileReads⟩ sock count with
        | mk res sd =>
          rw [hpb] at hls
          cases res <;> exact hls
      · simp only [if_neg h0] at hr hstep
        subst hr
        exact ⟨_, .single (hstep _ rfl)⟩

end

end HttpC.L3
