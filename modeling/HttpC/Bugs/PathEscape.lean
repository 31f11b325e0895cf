import HttpC.Core.Path
import HttpC.L2Parse.Block
import HttpC.L3Handler.Lock

/-!
# Requests leave the serve directory

The URI alphabet has `/` and `.`, and nothing between `process_request`
(src/connection.c:163-226) and `open(uri, ..)` (src/httpserver.c:288,360)
looks at components: `GET /../x` opens a sibling of the serve directory, and
`PUT //tmp/.httpserver.locks.D.I/a` truncates and rewrites the lockfile of
`a`. src/httpserver.c:51-52 rests the lock design on the opposite: "Lockfiles
live outside the serve directory, so no workload URI (resolved relative to
cwd) can collide with them."

`requestStays_iff` is the exact condition on a client's bytes.

Fix: refuse a URI with a leading `/` or a `..` component in `validate_uri`.
-/
namespace HttpC.Bugs.PathEscape
open HttpC.L1.Util HttpC.L2 HttpC.L3 HttpC.Path

/-- `uri` resolves into the serve directory, and to no lockfile. -/
def Stays (cwd : List Bytes) (dev ino : UInt64) (uri : Bytes) : Prop :=
  cwd <+: resolve cwd uri ∧ ∀ f, resolve cwd uri ≠ resolve [] (lockDir dev ino) ++ [f]

/-- Every request on this connection that reaches `handle_get` or
`handle_put` stays. -/
def RequestStays (cwd : List Bytes) (dev ino : UInt64) (s : Src UInt8) : Prop :=
  ∀ rc c s', connParse rc s = (none, c, s') → c.request = .GET ∨ c.request = .PUT →
    Stays cwd dev ino c.uri

/-- The names a URI must spell out before anything else: the whole path of the
serve directory if it starts at the root, the directories it climbed out of
otherwise. -/
def mustDescend (cwd : List Bytes) (uri : Bytes) : List Bytes :=
  if isAbsolute uri then cwd else (reduce uri).reenters cwd

/-- The reduced URI comes back into the serve directory, and does not go on to
the lock directory. -/
def Confined (cwd : List Bytes) (dev ino : UInt64) (uri : Bytes) : Prop :=
  ∃ rest, (reduce uri).names = mustDescend cwd uri ++ rest ∧
    ∀ f, cwd ++ rest ≠ resolve [] (lockDir dev ino) ++ [f]

def RequestConfined (cwd : List Bytes) (dev ino : UInt64) (s : Src UInt8) : Prop :=
  ∀ buf s' r, readUntil s BUFFER_SIZE BLANK_LINE = (.ok buf, s') → LineOf (cstr buf) r →
    r.minor = ascii "1" → r.request = .GET ∨ r.request = .PUT → Confined cwd dev ino r.uri

/-- Where a URI that comes back leads. -/
theorem resolve_of_descend {cwd rest : List Bytes} {uri : Bytes}
    (h : (reduce uri).names = mustDescend cwd uri ++ rest) : resolve cwd uri = cwd ++ rest := by
  rw [resolve_eq]
  unfold mustDescend at h
  split at h
  · rename_i ha
    simp only [ha, if_true, Reduced.place, h]
    simp
  · rename_i ha
    simp only [ha, Bool.false_eq_true, if_false, Reduced.place, h, Reduced.reenters]
    rw [← List.append_assoc, List.take_append_drop]

theorem inside_iff (cwd : List Bytes) (uri : Bytes) :
    cwd <+: resolve cwd uri ↔ mustDescend cwd uri <+: (reduce uri).names := by
  rw [resolve_eq]
  unfold mustDescend
  split
  · simp [Reduced.place]
  · exact Reduced.inside_iff _ _

theorem stays_iff (cwd : List Bytes) (dev ino : UInt64) (uri : Bytes) :
    Stays cwd dev ino uri ↔ Confined cwd dev ino uri := by
  constructor
  · intro ⟨hin, hlock⟩
    obtain ⟨rest, hrest⟩ := (inside_iff cwd uri).mp hin
    refine ⟨rest, hrest.symm, fun f hf => hlock f ?_⟩
    rw [resolve_of_descend hrest.symm, hf]
  · intro ⟨rest, hrest, hlock⟩
    have hres := resolve_of_descend hrest
    exact ⟨(inside_iff cwd uri).mpr ⟨rest, hrest.symm⟩, fun f => by rw [hres]; exact hlock f⟩

/-- **Exactly when a client's requests stay in the serve directory.** -/
theorem requestStays_iff (cwd : List Bytes) (dev ino : UInt64) (s : Src UInt8) :
    RequestStays cwd dev ino s ↔ RequestConfined cwd dev ino s := by
  constructor
  · intro h buf s' r hr hl hm hreq
    obtain ⟨fs, n, hs⟩ := scan_total (cstr ((octets buf).drop r.text.length))
    have hp := connParse_accept hr (by rw [octets_self]; exact hl) hm hs
    exact (stays_iff cwd dev ino r.uri).mp (h .ok _ s' hp hreq)
  · intro h rc c s' hp hreq
    obtain ⟨-, buf, r, hr, hl, hm, hq, hu⟩ := connParse_none hp
    rw [octets_self] at hl
    rw [hq] at hreq
    rw [hu]
    exact (stays_iff cwd dev ino r.uri).mpr (h buf s' r hr hl hm hreq)

/-- The request line and blank line of a PUT on the lockfile of `a`. -/
def putLock : Src UInt8 := ⟨ascii "PUT //tmp/.httpserver.locks.1.2/a HTTP/1.1\r\n\r\n", []⟩

/-- **Counterexample**: for a server in `/srv` the accepted URI is the lockfile
of `a`, outside the serve directory. -/
theorem put_lockfile : ¬ RequestStays [ascii "srv"] 1 2 putLock ∧
    resolve [ascii "srv"] (connParse .ok putLock).2.1.uri =
      resolve [] (lockPathFor (lockDir 1 2) (ascii "a") PATH_SIZE) := by
  refine ⟨fun h => ?_, by decide⟩
  obtain ⟨hin, -⟩ := h .ok _ _ rfl (by decide)
  revert hin; decide

end HttpC.Bugs.PathEscape
