import HttpC.Bugs.MockDrift

/-!
# Two URIs that cannot be locked

`handle_get` gives a directory a 403 (src/httpserver.c:278-315). It opens the
URI's lockfile first, and `lock_path_for` (:101-106) has made that file's name
from the URI by replacing `/` only. For `.` and `..`, which REQUEST_LINE lets
through (src/connection.c:57), the path is the lock directory itself or the
one above it: `open` with `O_CREAT` fails (EISDIR), and the answer is a 500
before the target is looked at.

`locksAndDecides_iff`: of all accepted URIs these two alone have a name that
does it. What else can go wrong lies in the tree: something that is not a
readable file already has the lockfile's name, or the working directory is
the lock directory and a missing target comes to be as its own lockfile.

Fix: put a letter before the name in `lock_path_for`.
-/
namespace HttpC.Bugs.LockDots
open HttpC.L1.Util HttpC.L2 HttpC.L3 HttpC.L5 HttpC.L6 HttpC.L7 HttpC.FileSys HttpC.Bugs.MockDrift

/-! ## Locked, and decided by the target -/

/-- The last component of the lockfile's path is a name, under which there is a
regular file right in `D`, made if need be and open for reading. -/
def LockInside (E : Env) (σ : Tree) (D : List Bytes) (uri : Bytes) : Prop :=
  ∃ name, (Path.comps (E.lockOf uri)).getLast? = some name ∧ name ≠ [46] ∧ name ≠ [46, 46] ∧
    lockOpen E σ uri = .ok (D ++ [name]) ∧
    ∃ c w, (underLock E σ uri).node (D ++ [name]) = some (.file c true w)

/-- 403 for a directory or without permission, 404 where there is nothing, 200
for a file. A path that goes on behind a file (`ENOTDIR`) is none of these. -/
def statedStatus : Except Fail Node → Option Response
  | .ok (.dir ..) | .error .denied | .error .isDir => some .FORBIDDEN
  | .error .noEntry => some .NOT_FOUND
  | .ok (.file ..) => some .OK
  | .error .notDir => none

/-- The status of a GET, from what `open` finds at its target. -/
def targetStatus (target : Except Fail Node) : Response :=
  (statedStatus target).getD .INTERNAL_SERVER_ERROR

/-- `q` parses to a GET of `uri`; its calls find what the tree has. -/
structure Gets (E : Env) (σ : Tree) (uri : Bytes) (q : Incoming) (conn : Conn UInt8) : Prop where
  parsed : ∃ rest, connParse q.oracle.regcomp q.client = (none, conn, rest)
  get : conn.request = .GET
  target : conn.uri = uri
  calls : q.oracle = oracleOn E σ .GET uri

/-- `handle_get` alone answers `a`, on the tree with the lockfile in it. -/
def GetAnswers (E : Env) (σ : Tree) (uri : Bytes) (q : Incoming) (conn : Conn UInt8) (a : Answer) : Prop :=
  Answered E q (underLock E σ uri).files conn (underLock E σ uri).files a

/-- Every GET of `uri`, handled alone, is answered as its target was before the
lock was taken, however its transfers go. -/
def DecidedByTarget (E : Env) (σ : Tree) (uri : Bytes) : Prop :=
  ∀ q conn, Gets E σ uri q conn →
    ∃ a, a.res = targetStatus (σ.openRead E.cwd uri) ∧ GetAnswers E σ uri q conn a

structure LocksAndDecides (E : Env) (σ : Tree) (D : List Bytes) (uri : Bytes) : Prop where
  inside : LockInside E σ D uri
  decided : DecidedByTarget E σ uri

/-- The lockfile is free, and when it is new it is not the target. -/
structure LockFree (E : Env) (σ : Tree) (D : List Bytes) (uri : Bytes) : Prop where
  lockable : Lockable σ (D ++ [lockName uri]) uri
  apart : σ.node (D ++ [lockName uri]) = none → E.cwd = D → (47 : UInt8) ∈ uri

/-! ## The lockfile -/

section
variable {E : Env} {σ : Tree} {D : List Bytes} {uri : Bytes}

theorem lockOf_last (E : Env) (hu : UriOk uri) :
    (Path.comps (E.lockOf uri)).getLast? = some (lockName uri) := by
  have hpath : E.lockOf uri = lockDir E.dev E.ino ++ 47 :: lockName uri :=
    lockPathFor_eq E.dev E.ino hu
  rw [hpath, Path.comps, List.splitOn_append_cons_self,
    List.splitOn_eq_singleton (lockName_slash uri), List.getLast?_concat]

theorem lockable_of_ok (hu : UriOk uri) (h : σ.Usable E.cwd (lockDir E.dev E.ino) D) {L : List Bytes}
    (hl : lockOpen E σ uri = .ok L) : Lockable σ (D ++ [lockName uri]) uri := by
  by_contra hno
  obtain ⟨e, he⟩ := (lockOpen_eq hu h).2 hno
  rw [hl] at he
  cases he

theorem lockInside_iff (hu : UriOk uri) (h : σ.Usable E.cwd (lockDir E.dev E.ino) D) :
    LockInside E σ D uri ↔ Lockable σ (D ++ [lockName uri]) uri := by
  constructor
  · intro hin
    obtain ⟨name, -, -, -, hl, -⟩ := hin
    exact lockable_of_ok hu h hl
  · intro hl
    have hopen := (lockOpen_eq hu h).1 hl
    obtain ⟨hdot, hdots, hfile⟩ := hl
    refine ⟨lockName uri, lockOf_last E hu, ?_, ?_, hopen, ?_⟩
    · rw [ne_eq, lockName_eq_iff (by decide) (by decide)]
      exact hdot
    · rw [ne_eq, lockName_eq_iff (by decide) (by decide)]
      exact hdots
    · rw [underLock, hopen]
      cases hn : σ.node (D ++ [lockName uri]) with
      | none =>
        obtain ⟨r, hr⟩ := h.node
        refine ⟨[], true, ?_⟩
        show (σ.touch (D ++ [lockName uri])).node _ = _
        rw [Tree.touch_node hn (by rw [List.dropLast_concat, hr]; rfl), Function.update_self]
      | some n =>
        obtain ⟨hd, hr⟩ := hfile n hn
        have htouch : σ.touch (D ++ [lockName uri]) = σ := Tree.touch_of_some (by rw [hn]; simp)
        simp only [htouch, hn]
        cases n with
        | dir r w x => cases hd
        | file c r w =>
          obtain rfl : r = true := hr
          exact ⟨c, w, rfl⟩

/-! ## The answer -/

/-- `handle_get`'s table is the target's. -/
theorem getOn_res (σ : Tree) (cwd : List Bytes) (uri : Bytes) :
    (getOn σ cwd uri).res = targetStatus (σ.openRead cwd uri) := by
  unfold getOn
  cases σ.openRead cwd uri with
  | error e => cases e <;> rfl
  | ok n => cases n <;> rfl

theorem Gets.answers {q : Incoming} {conn : Conn UInt8} (h : Gets E σ uri q conn) :
    GetAnswers E σ uri q conn (serverGet E σ uri) := by
  obtain ⟨rest, hp⟩ := h.parsed
  have ha : GetAnswers E σ uri q conn _ :=
    get_answered hp h.get (by rw [h.calls]; rfl) (by rw [h.calls]; rfl)
  rw [h.target, h.calls, getAnswer_on] at ha
  exact ha

/-- A request has one answer. -/
theorem getAnswers_code {q : Incoming} {conn : Conn UInt8} {a b : Answer}
    (ha : GetAnswers E σ uri q conn a) (hb : GetAnswers E σ uri q conn b) :
    responseGetCode a.res = responseGetCode b.res := by
  obtain ⟨s, hs, hsd, -, -, hsl⟩ := ha
  obtain ⟨t, ht, htd, -, -, htl⟩ := hb
  obtain rfl := alone_unique hs ht hsd htd
  rw [hsl] at htl
  simp only [auditLine, List.cons.injEq, LogLine.mk.injEq, and_true, true_and] at htl
  exact htl

/-- A lockfile that was there, or is not asked for, changes nothing. -/
theorem serverGet_apart (hu : UriOk uri) (hcwd : ∃ d, σ.node E.cwd = some d)
    (h : σ.Usable E.cwd (lockDir E.dev E.ino) D) (hf : LockFree E σ D uri) :
    serverGet E σ uri = getOn σ E.cwd uri := by
  have hopen := (lockOpen_eq hu h).1 hf.lockable
  have hread : (σ.touch (D ++ [lockName uri])).openRead E.cwd uri = σ.openRead E.cwd uri := by
    by_cases hn : σ.node (D ++ [lockName uri]) = none
    · refine Tree.openRead_touch hn hcwd (avoids_lock hu fun he => ?_)
      obtain ⟨hD, hname⟩ := List.append_inj' he rfl
      have hin := hf.apart hn hD
      rw [List.singleton_inj.mp hname] at hin
      exact lockName_slash uri hin
    · rw [Tree.touch_of_some hn]
  simp only [serverGet, underLock, hopen, getOn, hread]

/-- Where the lock directory is the working directory, a missing target is
there once it is locked. -/
theorem serverGet_self (hu : UriOk uri) (h : σ.Usable E.cwd (lockDir E.dev E.ino) D)
    (hl : Lockable σ (D ++ [lockName uri]) uri) (hn : σ.node (D ++ [lockName uri]) = none)
    (hD : E.cwd = D) (hs : (47 : UInt8) ∉ uri) :
    σ.openRead E.cwd uri = .error .noEntry ∧ serverGet E σ uri = .file [] := by
  have hopen := (lockOpen_eq hu h).1 hl
  have hne := List.ne_nil_of_length_pos hu.pos
  obtain ⟨r, hr⟩ := h.node
  obtain ⟨hdot, hdots, -⟩ := hl
  rw [lockName_flat hs] at hn hopen
  have hwalk : Path.walk D uri = D ++ [uri] := by simp [Path.walk, hne, hdot, hdots]
  have hlocate : ∀ τ : Tree, τ.node D = some (.dir r true true) →
      τ.locate E.cwd uri = .ok (D ++ [uri]) := by
    intro τ hτ
    rw [Tree.locate, Tree.names_flat hs hne, Tree.start_flat E.cwd hs, hD]
    simp only [Tree.reach, Tree.look, hτ, if_true, hwalk]
  have hmade : (σ.touch (D ++ [uri])).node (D ++ [uri]) = some (.file [] true true) := by
    rw [Tree.touch_node hn (by rw [List.dropLast_concat, hr]; rfl), Function.update_self]
  have hdir : (σ.touch (D ++ [uri])).node D = some (.dir r true true) := by
    rw [Tree.touch_other (by simp), hr]
  constructor
  · simp only [Tree.openRead, hlocate σ hr, hn]
  · simp only [serverGet, underLock, hopen, getOn, Tree.openRead, hlocate _ hdir, hmade,
      Tree.slashed_flat hs]
    rfl

/-! ## Requests -/

/-- A GET as the driver sends it. -/
def getOf (uri : Bytes) : Create := ⟨7, ascii "GET", uri, none⟩

/-- Every accepted URI is asked for by some request. -/
theorem gets_exists (E : Env) (σ : Tree) (hu : UriOk uri) : ∃ q conn, Gets E σ uri q conn := by
  obtain ⟨d, hd⟩ : ∃ d, doCreate {} (getOf uri) = some d := ⟨_, rfl⟩
  have hbody : d.body = [] := (createBody_spec (doCreate_eq hd).1).1
  obtain ⟨conn, rest, hp, hreq, huri, -⟩ := create_parses hd (.inl rfl) (.inl rfl) hu
    (show Cut [] by decide) fun b _ _ hb => noField_of_noFit hb (short_noFit (by rw [hbody]; decide))
  have hget : conn.request = .GET := by
    change requestGetStr conn.request = ascii "GET" at hreq
    cases hc : conn.request <;> rw [hc] at hreq <;> first | rfl | (revert hreq; decide)
  exact ⟨⟨_, oracleOn E σ .GET uri, [], [], []⟩, conn, ⟨rest, hp⟩, hget, huri, rfl⟩

end

/-- **Exactly when a GET is locked and its target decides.** -/
theorem locksAndDecides_iff (E : Env) (σ : Tree) (D : List Bytes) {uri : Bytes} (hu : UriOk uri)
    (hcwd : ∃ d, σ.node E.cwd = some d) (hlock : σ.Usable E.cwd (lockDir E.dev E.ino) D) :
    LocksAndDecides E σ D uri ↔ LockFree E σ D uri := by
  constructor
  · intro h
    have hl := (lockInside_iff hu hlock).mp h.inside
    refine ⟨hl, fun hn hD => ?_⟩
    by_contra hs
    obtain ⟨hmissing, hself⟩ := serverGet_self hu hlock hl hn hD hs
    obtain ⟨q, conn, hq⟩ := gets_exists E σ hu
    obtain ⟨a, hres, ha⟩ := h.decided q conn hq
    have hcode := getAnswers_code ha hq.answers
    rw [hres, hmissing, hself] at hcode
    revert hcode; decide
  · intro h
    refine ⟨(lockInside_iff hu hlock).mpr h.lockable, fun q conn hq => ?_⟩
    refine ⟨serverGet E σ uri, ?_, hq.answers⟩
    rw [serverGet_apart hu hcwd hlock h, getOn_res]

/-! ## At work -/

theorem locksAndDecides_a :
    LocksAndDecides srv bare [ascii "tmp", ascii ".httpserver.locks.1.2"] (ascii "a") := by
  apply (locksAndDecides_iff srv bare _ (by decide) ⟨_, rfl⟩ bare_usable).mpr
  refine ⟨⟨by decide, by decide, fun n hn => ?_⟩, fun _ hD => ?_⟩
  · have hnone : bare.node ([ascii "tmp", ascii ".httpserver.locks.1.2"] ++ [lockName (ascii "a")]) =
        none := by decide
    rw [hnone] at hn; cases hn
  · revert hD; decide

/-- **Counterexample**: `GET /.` is a GET of a directory. It is not locked, and
answered 500. -/
theorem getDot_unlocked : UriOk [46] ∧ targetStatus (bare.openRead srv.cwd [46]) = .FORBIDDEN ∧
    (∃ q conn, Gets srv bare [46] q conn ∧
      GetAnswers srv bare [46] q conn (.message .INTERNAL_SERVER_ERROR)) ∧
    ¬ LocksAndDecides srv bare [ascii "tmp", ascii ".httpserver.locks.1.2"] [46] := by
  have hu : UriOk [46] := by decide
  have hno : ¬ Lockable bare ([ascii "tmp", ascii ".httpserver.locks.1.2"] ++ [lockName [46]]) [46] :=
    fun hl => hl.1 rfl
  obtain ⟨e, he⟩ := (lockOpen_eq hu bare_usable).2 hno
  have h500 : serverGet srv bare [46] = .message .INTERNAL_SERVER_ERROR := by rw [serverGet, he]
  obtain ⟨q, conn, hq⟩ := gets_exists srv bare hu
  have hans := hq.answers
  rw [h500] at hans
  refine ⟨hu, by decide, ⟨q, conn, hq, hans⟩, fun h => ?_⟩
  exact hno ((lockInside_iff hu bare_usable).mp h.inside)

end HttpC.Bugs.LockDots
