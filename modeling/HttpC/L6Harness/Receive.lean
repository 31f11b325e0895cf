import HttpC.L2Parse.Streaming
import HttpC.L6Harness.Wire

/-!
# What the driver reads of a response

The receiving half of `ztest/src/oliver.zig`. A connection's stream is what
the server wrote before it closed its side, cut into `read()` results by its
script. `RECV_PARTIAL` takes some of it and `WAIT` the rest; between them
`received ++ pending` is always the whole response (`Holds`), so where the
response was cut is lost and `doWait` splits what the server printed:
`responses_decode`.
-/
namespace HttpC.L6
open HttpC.L1.Util HttpC.L2

/-- mirrors ztest/src/oliver.zig:16-25 -/
structure RecvConn where
  stream : Src UInt8
  received : Bytes := []
  gotResponse : Bool := false
  deriving DecidableEq, Repr

inductive DriverError where
  | unknownRequestId
  | readFailed (e : Errno)
  deriving DecidableEq, Repr

/-- mirrors ztest/src/oliver.zig:27-43 -/
structure Driver where
  conns : Int64 → Option RecvConn
  statuses : Int64 → Option UInt16
  responses : Int64 → Option Bytes

/-- `put` of a hash map. -/
def put {β : Type} (m : Int64 → Option β) (id : Int64) (v : β) : Int64 → Option β :=
  Function.update m id (some v)

/-- `stream.read()`, which retries `EINTR`. A read of no bytes is the end of
the stream.
mirrors ztest/src/oliver.zig:174-182 -/
def recvPartial (c : RecvConn) (size : Nat) : Except DriverError RecvConn :=
  match retryRead size c.stream.pending c.stream.script with
  | (.fail e, _) => .error (.readFailed e)
  | (.data [], s) => .ok { c with stream := s, gotResponse := true }
  | (.data (b :: bs), s) => .ok { c with stream := s, received := c.received ++ (b :: bs) }

/-- Every round but the last takes a byte, so the fuel is not used up
(`recvLoop_fuel`). `reset` tells which failures are
`error.ConnectionResetByPeer`.
mirrors ztest/src/oliver.zig:185-193 -/
def recvLoop (reset : Errno → Bool) : Nat → RecvConn → Except DriverError RecvConn
  | 0, c => .ok c
  | fuel + 1, c =>
    match retryRead 8192 c.stream.pending c.stream.script with
    | (.fail e, s) => if reset e then .ok { c with stream := s } else .error (.readFailed e)
    | (.data [], s) => .ok { c with stream := s }
    | (.data (b :: bs), s) =>
      recvLoop reset fuel { c with stream := s, received := c.received ++ (b :: bs) }

/-- mirrors ztest/src/oliver.zig:184-195 -/
def recvUntilClosed (reset : Errno → Bool) (c : RecvConn) : Except DriverError RecvConn := do
  let c ← recvLoop reset (c.stream.pending.length + 1) c
  .ok { c with gotResponse := true }

/-- mirrors ztest/src/oliver.zig:204-212 -/
def Driver.record (d : Driver) (id : Int64) (received : Bytes) : Driver :=
  let statuses := match parseStatusLine received with
    | some sl => put d.statuses id sl.code
    | none => d.statuses
  let bodyStart := (findBodyStart received).getD received.length
  let responses := put d.responses id (received.drop bodyStart)
  { conns := Function.update d.conns id none, statuses, responses }

/-- mirrors ztest/src/oliver.zig:197-213 -/
def Driver.doWait (reset : Errno → Bool) (d : Driver) (id : Int64) : Except DriverError Driver :=
  match d.conns id with
  | none => .error .unknownRequestId
  | some c => do
    let c ← (if c.gotResponse then .ok c else recvUntilClosed reset c)
    .ok (d.record id c.received)

/-- mirrors ztest/src/oliver.zig:108 -/
def Driver.doRecvPartial (d : Driver) (id : Int64) (size : Nat) : Except DriverError Driver :=
  match d.conns id with
  | none => .error .unknownRequestId
  | some c => do
    let c ← recvPartial c size
    .ok { d with conns := put d.conns id c }

/-- `RECV_PARTIAL`s of these sizes, then `WAIT`. -/
def Driver.receive (reset : Errno → Bool) (d : Driver) (id : Int64) (sizes : List Nat) :
    Except DriverError Driver := do
  let d ← sizes.foldlM (fun d size => d.doRecvPartial id size) d
  d.doWait reset id

/-! ## The response stays whole -/

/-- Between events: what was received and what is to come is the response,
and a connection that saw the end has all of it. -/
structure Holds (wire : Bytes) (c : RecvConn) : Prop where
  cut : Cut c.stream.script
  whole : c.received ++ c.stream.pending = wire
  ended : c.gotResponse = true → c.stream.pending = []

theorem recvPartial_holds {wire : Bytes} {c : RecvConn} {size : Nat} (h : Holds wire c)
    (hs : 1 ≤ size) : ∃ c', recvPartial c size = .ok c' ∧ Holds wire c' := by
  obtain ⟨bs, s, hr, hnil⟩ := retryRead_cut c.stream.pending h.cut hs
  obtain ⟨hp, -, hsuf⟩ := retryRead_data hr
  unfold recvPartial
  rw [hr]
  cases bs with
  | nil =>
    refine ⟨_, rfl, h.cut.suffix hsuf, ?_, fun _ => ?_⟩
    · rw [← h.whole, hp]; rfl
    · rw [hnil rfl] at hp
      exact (List.nil_eq_append_iff.mp hp).2
  | cons b bs =>
    refine ⟨_, rfl, h.cut.suffix hsuf, ?_, fun he => ?_⟩
    · rw [← h.whole, hp, List.append_assoc]
    · -- nothing was pending, so this read cannot have returned data
      rw [h.ended he] at hp
      cases hp

/-- **The fuel is not used up**: more of it changes nothing. -/
theorem recvLoop_fuel (reset : Errno → Bool) {fuel fuel' : Nat} {c : RecvConn}
    (hf : c.stream.pending.length < fuel) (hf' : c.stream.pending.length < fuel') :
    recvLoop reset fuel c = recvLoop reset fuel' c := by
  induction fuel generalizing fuel' c with
  | zero => omega
  | succ fuel ih =>
    obtain ⟨fuel', rfl⟩ := Nat.exists_eq_succ_of_ne_zero (Nat.ne_zero_of_lt hf')
    simp only [recvLoop]
    split
    · rfl
    · rfl
    · rename_i b bs s hr
      have hlt := retryRead_lt hr
      exact ih (Nat.lt_of_lt_of_le hlt (by omega)) (Nat.lt_of_lt_of_le hlt (by omega))

theorem recvLoop_holds (reset : Errno → Bool) {wire : Bytes} {c : RecvConn} {fuel : Nat}
    (h : Holds wire c) (hf : c.stream.pending.length < fuel) :
    ∃ c', recvLoop reset fuel c = .ok c' ∧ c'.received = wire := by
  induction fuel generalizing c with
  | zero => omega
  | succ fuel ih =>
    obtain ⟨bs, s, hr, hnil⟩ := retryRead_cut c.stream.pending h.cut (Nat.succ_pos 8191)
    obtain ⟨hp, -, hsuf⟩ := retryRead_data hr
    unfold recvLoop
    rw [hr]
    cases bs with
    | nil =>
      refine ⟨_, rfl, ?_⟩
      rw [← h.whole, hnil rfl, List.append_nil]
    | cons b bs =>
      have hlen := retryRead_lt hr
      refine ih ⟨h.cut.suffix hsuf, ?_, fun he => ?_⟩ (Nat.lt_of_lt_of_le hlen (by omega))
      · rw [← h.whole, hp, List.append_assoc]
      · rw [h.ended he] at hp
        cases hp

/-- **`WAIT` sees the whole response.** -/
theorem doWait_holds (reset : Errno → Bool) {wire : Bytes} {d : Driver} {id : Int64} {c : RecvConn}
    {sl : StatusLine} {start : Nat} (hc : d.conns id = some c) (h : Holds wire c)
    (hsl : parseStatusLine wire = some sl) (hb : findBodyStart wire = some start) :
    ∃ d', d.doWait reset id = .ok d' ∧ d'.statuses id = some sl.code ∧
      d'.responses id = some (wire.drop start) := by
  have hall : ∃ c', (if c.gotResponse then .ok c else recvUntilClosed reset c) = Except.ok c' ∧
      c'.received = wire := by
    split
    · rename_i he
      refine ⟨c, rfl, ?_⟩
      rw [← h.whole, h.ended he, List.append_nil]
    · obtain ⟨c', hl, hw⟩ := recvLoop_holds reset h (Nat.lt_succ_self _)
      refine ⟨{ c' with gotResponse := true }, ?_, hw⟩
      rw [recvUntilClosed, hl]; rfl
  obtain ⟨c', hok, hw⟩ := hall
  refine ⟨d.record id wire, ?_, ?_, ?_⟩
  · simp only [Driver.doWait, hc, hok]
    exact congrArg (fun w => Except.ok (d.record id w)) hw
  · simp [Driver.record, hsl, put]
  · simp [Driver.record, hb, put]

/-- Any number of partial reads first. -/
theorem receive_holds (reset : Errno → Bool) {wire : Bytes} {d : Driver} {id : Int64} {c : RecvConn}
    {sizes : List Nat} {sl : StatusLine} {start : Nat} (hc : d.conns id = some c) (h : Holds wire c)
    (hs : ∀ n ∈ sizes, 1 ≤ n) (hsl : parseStatusLine wire = some sl)
    (hb : findBodyStart wire = some start) :
    ∃ d', d.receive reset id sizes = .ok d' ∧ d'.statuses id = some sl.code ∧
      d'.responses id = some (wire.drop start) := by
  induction sizes generalizing d c with
  | nil => exact doWait_holds reset hc h hsl hb
  | cons n ns ih =>
    obtain ⟨hn, hns⟩ := List.forall_mem_cons.mp hs
    obtain ⟨c', hok, h'⟩ := recvPartial_holds h hn
    have hd : d.doRecvPartial id n = .ok { d with conns := put d.conns id c' } := by
      simp only [Driver.doRecvPartial, hc, hok]; rfl
    have hc' : put d.conns id c' id = some c' := by simp [put]
    obtain ⟨d', hrun, hres⟩ := ih (d := { d with conns := put d.conns id c' }) hc' h' hns
    refine ⟨d', ?_, hres⟩
    rw [← hrun]
    simp only [Driver.receive, List.foldlM_cons, hd]
    rfl

/-! ## What the server sends -/

theorem responseText_head (res : Response) : responseText res =
    headOf (responseGetCode res) (responseGetMessage res)
        (responseGetMessage res ++ ascii "\n").length ++
      (responseGetMessage res ++ ascii "\n") := rfl

theorem fileHeader_head (count : Nat) :
    fileHeader count = headOf (responseGetCode .OK) (responseGetMessage .OK) count := rfl

theorem responseGetCode_lt (res : Response) : responseGetCode res < 2 ^ 16 := by
  cases res <;> decide

theorem responseGetMessage_line (res : Response) : (10 : UInt8) ∉ responseGetMessage res := by
  cases res <;> decide

/-- The driver reads `code` and `body` off this wire, and it announces the
length of that body. -/
def Decoded (reset : Errno → Bool) (d : Driver) (id : Int64) (sizes : List Nat)
    (cuts : List ReadEv) (wire : Bytes) (code : Nat) (body : Bytes) : Prop :=
  (∃ d', ({ d with conns := put d.conns id ⟨⟨wire, cuts⟩, [], false⟩ } : Driver).receive
      reset id sizes = .ok d' ∧
    d'.statuses id = some (UInt16.ofNat code) ∧ d'.responses id = some body) ∧
  findHeader (headersOf wire) (ascii "Content-Length") = some (decimal body.length)

theorem decoded_head (reset : Errno → Bool) (d : Driver) (id : Int64) {sizes : List Nat}
    {cuts : List ReadEv} (res : Response) (body : Bytes) (hc : Cut cuts) (hs : ∀ n ∈ sizes, 1 ≤ n) :
    Decoded reset d id sizes cuts
      (headOf (responseGetCode res) (responseGetMessage res) body.length ++ body)
      (responseGetCode res) body := by
  have hline := responseGetMessage_line res
  refine ⟨?_, contentLength_head hline body⟩
  have hsl := parseStatusLine_head body.length (responseGetCode_lt res) hline body
  have hb := findBodyStart_block (headOf_block (responseGetCode res) body.length hline) body
  generalize hw : headOf (responseGetCode res) (responseGetMessage res) body.length ++ body = wire
    at hsl hb ⊢
  have hdrop : wire.drop (headOf (responseGetCode res) (responseGetMessage res) body.length).length =
      body := by rw [← hw, List.drop_left]
  have hholds : Holds wire ⟨⟨wire, cuts⟩, [], false⟩ := ⟨hc, rfl, by simp⟩
  have hput : put d.conns id ⟨⟨wire, cuts⟩, [], false⟩ id = some ⟨⟨wire, cuts⟩, [], false⟩ :=
    Function.update_self ..
  have := receive_holds reset (d := { d with conns := put d.conns id ⟨⟨wire, cuts⟩, [], false⟩ })
    hput hholds hs hsl hb
  rw [hdrop] at this
  exact this

/-- **Server responses decode exactly.** -/
theorem responses_decode (reset : Errno → Bool) (d : Driver) (id : Int64) {sizes : List Nat}
    {ws : List WriteEv} {cuts : List ReadEv} (hw : Writes ws) (hc : Cut cuts)
    (hs : ∀ n ∈ sizes, 1 ≤ n) :
    (∀ (content : Bytes) (rs : List ReadEv), Cut rs →
      Decoded reset d id sizes cuts
        (connSendFile ⟨content, rs⟩ ⟨[], ws⟩ content.length).2.2.written
        (responseGetCode .OK) content) ∧
    ∀ res : Response,
      Decoded reset d id sizes cuts (connSendResponse ⟨[], ws⟩ res).2.written
        (responseGetCode res) (responseGetMessage res ++ ascii "\n") := by
  refine ⟨fun content rs hr => ?_, fun res => ?_⟩
  · rw [(connSendFile_whole content hr hw).2, fileHeader_head]
    exact decoded_head reset d id .OK content hc hs
  · rw [connSendResponse_whole res hw, responseText_head]
    exact decoded_head reset d id res _ hc hs

/-- A file that is itself a response, written a byte at a time and read in
pieces. -/
theorem responses_decode_nested :
    Decoded (fun _ => false) ⟨fun _ => none, fun _ => none, fun _ => none⟩ 7 [3, 1]
      [.got 0, .err .EINTR, .got 4]
      (connSendFile ⟨ascii "HTTP/1.1 404 No\r\n\r\n", [.got 1]⟩ ⟨[], [.put 1, .err .EINTR]⟩
        (ascii "HTTP/1.1 404 No\r\n\r\n").length).2.2.written
      (responseGetCode .OK) (ascii "HTTP/1.1 404 No\r\n\r\n") :=
  (responses_decode _ _ 7 (by decide) (by decide) (by decide)).1 _ _ (by decide)

end HttpC.L6
