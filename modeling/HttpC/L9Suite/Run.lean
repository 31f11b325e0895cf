import HttpC.L6Harness.Check
import HttpC.L7Mock.OnTree
import HttpC.L8Program.HandOff

/-!
# The suite's driver against the whole program

`Driver.run` of `ztest/src/oliver.zig` executes the events of a workload one
after the other, in file order, while the server under test handles the
connections. `Suite` is the driver and what it sees of the server, the handlers
of `L5Concurrency`; `runOne` is the driver beside the whole program of
`L8Program`, started with `-t` threads. The driver blocks in `RECV_PARTIAL`
until there is something to read and in `WAIT` until the server has closed. The
dispatcher accepts a connection once it is made, and they come to it in the
order in which they are made; a handler reads nothing the driver has not sent
(`arrived`). LOAD and UNLOAD change the files under the server's feet.

There is no clock. A SLEEP is only a pause, and a read of a handler waits for as
long as the driver takes, where the source arms `SO_RCVTIMEO` with 5 s
(src/listener.c:63-75) and answers 500 when they have passed: what is said here
is said of the runs in which no read waits that long.

Connecting and sending succeed at once, no `read()` of the driver fails, the
socket takes what the server writes, `pthread_create`, `accept` and `setsockopt`
succeed. The probe with which the harness waits for the port
(ztest/src/main.zig:185) is left out: it is a connection without a byte. The
k-th CREATE makes connection k; what the driver keeps of it (`Conn`) stays in
`links` when WAIT has taken it out of the map.
-/
namespace HttpC.L9
open HttpC.L1.Util HttpC.L2 HttpC.L3 HttpC.L4 HttpC.L5 HttpC.L6 HttpC.L8
open HttpC.L7 (Channel)

/-- `readFileAlloc` of the repository's root. -/
abbrev RepoRoot := Bytes → Nat → Except ReadError Bytes

/-! ## Workloads -/

def creates (evs : List Event) : List CreateEvent :=
  evs.filterMap fun
    | .create c => some c
    | _ => none

/-- A CREATE with the bytes of its file.
mirrors ztest/src/oliver.zig:118-122 -/
def createOf (repoRoot : RepoRoot) (c : CreateEvent) : Option Create :=
  match c.infile with
  | none => some ⟨c.id, c.method, c.uri, none⟩
  | some infile =>
    match repoRoot infile (1 <<< 30) with
    | .ok bytes => some ⟨c.id, c.method, c.uri, some bytes⟩
    | .error _ => none

/-- The connection a CREATE makes.
mirrors ztest/src/oliver.zig:118-143 -/
def connOf (repoRoot : RepoRoot) (c : CreateEvent) : Option DriverConn :=
  (createOf repoRoot c).bind (doCreate {})

/-- All that the driver has to send for it. -/
def whole (d : DriverConn) : Bytes := d.requestLine ++ d.headers ++ d.body

/-- The same as the server gets it, in the pieces `k` says. -/
def incomingOf (repoRoot : RepoRoot) (c : CreateEvent) (k : Channel) : Incoming where
  client := ⟨((connOf repoRoot c).map whole).getD [], k.arrives⟩
  sockWrites := k.sockWrites
  fileReads := k.fileReads
  fileWrites := k.fileWrites

/-! ## State -/

/-- mirrors ztest/src/oliver.zig:16-25 -/
structure Link where
  conn : DriverConn := ⟨[], [], [], 0, [], false⟩
  received : Bytes := []
  gotResponse : Bool := false

/-- `failed` is `!ok` in `runOne`, after an error of the driver.
mirrors ztest/src/oliver.zig:32-43, ztest/src/main.zig:248-252 -/
structure Suite (n : Nat) where
  sys : Sys n
  todo : List Event
  made : Nat := 0
  links : Fin n → Link := fun _ => {}
  conns : Int64 → Option (Fin n) := fun _ => none
  statuses : Int64 → Option UInt16 := fun _ => none
  responses : Int64 → Option Bytes := fun _ => none
  failed : Bool := false

namespace Suite
variable {n : Nat}

/-- An error ends the driver's run. -/
def fail (s : Suite n) : Suite n := { s with todo := [], failed := true }

def store (s : Suite n) (E : Env) (path : Bytes) (content : Option Bytes) : Suite n :=
  { s with sys := { s.sys with files := Function.update s.sys.files (E.fileOf path) content } }

/-- What the server has written to connection `i` and the driver not yet
read. -/
def unread (s : Suite n) (i : Fin n) : Bytes :=
  (s.sys.workers i).sock.written.drop (s.links i).received.length

def closed (s : Suite n) (i : Fin n) : Bool := decide ((s.sys.workers i).pc = .done)

/-- Connection `i` as the receiving half of the driver sees it. -/
def recvConn (s : Suite n) (i : Fin n) (cuts : List ReadEv) : RecvConn :=
  ⟨⟨s.unread i, cuts⟩, (s.links i).received, (s.links i).gotResponse⟩

/-- mirrors ztest/src/oliver.zig:145-147 -/
def conn (s : Suite n) (id : Int64) (f : Fin n → Option (Suite n)) : Option (Suite n) :=
  match s.conns id with
  | none => some s.fail
  | some i => f i

/-- mirrors ztest/src/oliver.zig:92-107 -/
def send (s : Suite n) (id : Int64) (e : SendEvent) : Option (Suite n) :=
  s.conn id fun i => some
    { s with links := Function.update s.links i { s.links i with conn := (s.links i).conn.run e } }

/-- mirrors ztest/src/oliver.zig:87-143 -/
def doCreate (s : Suite n) (repoRoot : RepoRoot) (c : CreateEvent) : Option (Suite n) :=
  match connOf repoRoot c with
  | none => some s.fail
  | some d =>
    if h : s.made < n then
      some { s with
        made := s.made + 1
        links := Function.update s.links ⟨s.made, h⟩ { conn := d }
        conns := put s.conns c.id ⟨s.made, h⟩ }
    else none

/-- mirrors ztest/src/oliver.zig:174-182 -/
def doRecvPartial (s : Suite n) (id : Int64) (size : Nat) (cuts : List ReadEv) : Option (Suite n) :=
  s.conn id fun i =>
    if s.unread i = [] ∧ s.closed i = false then none
    else
      match recvPartial (s.recvConn i cuts) size with
      | .error _ => some s.fail
      | .ok c =>
        let link : Link := ⟨(s.links i).conn, c.received, c.gotResponse⟩
        some { s with links := Function.update s.links i link }

/-- mirrors ztest/src/oliver.zig:197-213 -/
def doWait (s : Suite n) (reset : Errno → Bool) (id : Int64) (cuts : List ReadEv) :
    Option (Suite n) :=
  s.conn id fun i =>
    if (s.links i).gotResponse = false ∧ s.closed i = false then none
    else
      let d : Driver := ⟨put (fun _ => none) id (s.recvConn i cuts), s.statuses, s.responses⟩
      match d.doWait reset id with
      | .error _ => some s.fail
      | .ok d => some { s with
          conns := Function.update s.conns id none
          statuses := d.statuses
          responses := d.responses }

/-- The next event. `none` while the driver blocks; `cuts` is how its `read()`s
cut what they read.
mirrors ztest/src/oliver.zig:86-116 -/
def drive (E : Env) (repoRoot : RepoRoot) (reset : Errno → Bool) (s : Suite n)
    (cuts : List ReadEv) : Option (Suite n) :=
  match s.todo with
  | [] => none
  | ev :: todo =>
    let s := { s with todo }
    match ev with
    | .load infile outfile =>
      match repoRoot infile (1 <<< 30) with
      | .error _ => some s.fail
      | .ok bytes => some (s.store E outfile (some bytes))
    | .unload file => some (s.store E file none)
    | .sleep _ => some s
    | .create c => s.doCreate repoRoot c
    | .sendLine id => s.send id .sendLine
    | .sendHeaders id => s.send id .sendHeaders
    | .sendBody id size => s.send id (.sendBody (size.map Int64.toInt))
    | .sendAll id => s.send id .sendAll
    | .recvPartial id size => s.doRecvPartial id size cuts
    | .wait id => s.doWait reset id cuts

/-- Whatever connection `i` has read so far was sent: what is still to come
for the handler `w` is no less than what is still to be sent. The two are ends
of one request, which is sent in its order (`Sending.begins`). -/
def arrived (s : Suite n) (i : Fin n) (w : Worker) : Prop :=
  (whole (s.links i).conn).length ≤
    w.client.pending.length + (s.links i).conn.wire.length

instance (s : Suite n) (i : Fin n) (w : Worker) : Decidable (s.arrived i w) :=
  inferInstanceAs (Decidable (_ ≤ _))

/-- A step of the handler of connection `i`. -/
def serve (E : Env) (s : Suite n) (i : Fin n) : Option (Suite n) :=
  if i.val < s.made then
    (s.sys.step E i).bind fun sys =>
      if s.arrived i (sys.workers i) then some { s with sys } else none
  else none

end Suite

/-! ## The driver beside the program -/

/-- The state of `runOne`: the suite, and what the program has beside its
handlers.
mirrors ztest/src/main.zig:226-252 -/
structure RunOne (t n : Nat) where
  suite : Suite n
  pool : Pool t
  accepted : List Int
  table : Int → Option (Fin n)
  serving : Fin t → Option (Fin n)
  served : List (Fin t × Fin n)

namespace RunOne
variable {t n : Nat}

/-- The server under test. -/
def prog (s : RunOne t n) : Prog t n :=
  ⟨s.pool, s.suite.sys, s.accepted, s.table, s.serving, s.served⟩

def withProg (s : RunOne t n) (p : Prog t n) : RunOne t n :=
  ⟨{ s.suite with sys := p.sys }, p.pool, p.accepted, p.table, p.serving, p.served⟩

end RunOne

/-- Who goes on. -/
inductive Move (t : Nat) where
  | driver (cuts : List ReadEv)
  | server (e : Ev t)

/-- No call fails. -/
def Move.healthy {t : Nat} : Move t → Prop
  | .driver cuts => Cut cuts
  | .server e => e ≠ .createFails ∧ e ≠ .acceptFails

/-- The server accepts no connection that is not made, and reads nothing that
was not sent. -/
def RunOne.step {t n : Nat} (E : Env) (repoRoot : RepoRoot) (reset : Errno → Bool) (s : RunOne t n) :
    Move t → Option (RunOne t n)
  | .driver cuts => (s.suite.drive E repoRoot reset cuts).map fun u => { s with suite := u }
  | .server e =>
    (s.prog.step E e).bind fun p =>
      if p.accepted.length ≤ s.suite.made ∧
          ∀ i : Fin n, i.val < s.suite.made → s.suite.arrived i (p.sys.workers i) then
        some (s.withProg p)
      else none

section
variable (t : Nat) (junk : Nat → Int) (E : Env) (repoRoot : RepoRoot) (reset : Errno → Bool)
  (evs : List Event) (ch : Fin (creates evs).length → Channel)

/-- The request of connection `i`. -/
def requests (i : Fin (creates evs).length) : Incoming :=
  incomingOf repoRoot ((creates evs).get i) (ch i)

/-- A fresh scratch directory, a server in it and the whole workload to go. -/
def Suite.initial : Suite (creates evs).length where
  sys := ⟨fun _ => none, [], fun i => (requests repoRoot evs ch i).start⟩
  todo := evs

/-- The server has just been started. -/
def RunOne.initial : RunOne t (creates evs).length :=
  let p := Prog.initial t junk (requests repoRoot evs ch) fun _ => none
  ⟨Suite.initial repoRoot evs ch, p.pool, p.accepted, p.table, p.serving, p.served⟩

/-- mirrors ztest/src/main.zig:231-252 -/
def runOne : LTS (RunOne t (creates evs).length) (Move t) :=
  (LTS.ofFn (· = RunOne.initial t junk repoRoot evs ch) (RunOne.step E repoRoot reset)).only
    Move.healthy

end

end HttpC.L9
