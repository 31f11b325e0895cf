import HttpC.L5Concurrency.Server

/-!
# One file, many lockfiles

The lock design wants a file's lock to be its own: "Because we hold the
exclusive URI lock, no reader can observe a half-truncated file"
(src/httpserver.c:356-358). But `lock_path_for` (src/httpserver.c:101-106)
names the lockfile after the text of the URI, and `a`, `./a`, `.//a` and
`x/../a` are one file with four texts. A `PUT /a` that has truncated the file
runs beside a `GET /./a` inside its own lock.

`oneLock_iff`: lock identity is file identity, and the critical sections
exclude each other in every interleaving, exactly when no two requests spell
one file in two ways.

Fix: derive the lockfile from the resolved path.
-/
namespace HttpC.Bugs.LockAlias
open HttpC.L1.Util HttpC.L2 HttpC.L3 HttpC.L5 HttpC.Flock

variable {n : Nat}

/-- The URI a connection is served for, if it gets to a handler. -/
def served (q : Incoming) : Option Bytes :=
  match connParse q.oracle.regcomp q.client with
  | (none, c, _) => if c.request = .GET ∨ c.request = .PUT then some c.uri else none
  | _ => none

/-- The worker has truncated its file and not yet written its audit line. -/
def MidPut (w : Worker) : Prop :=
  w.conn.request = .PUT ∧ ((∃ ex, w.pc = .putLeft ex) ∨ (∃ ex total, w.pc = .putRecv ex total) ∨
    ∃ res, w.pc = exitOpen res ∨ w.pc = exitSent res)

/-- A half-written file is open to another handler. -/
def Torn (E : Env) (s : Sys n) : Prop :=
  ∃ i j, i ≠ j ∧ MidPut (s.workers i) ∧ (s.workers j).pc.inside = true ∧
    E.fileOf (s.workers i).conn.uri = E.fileOf (s.workers j).conn.uri

/-- One file, one lock: for the requests at hand, and in every interleaving of
them. -/
def OneLock (E : Env) (reqs : Fin n → Incoming) (files : Files) : Prop :=
  (∀ i j u v, served (reqs i) = some u → served (reqs j) = some v → E.fileOf u = E.fileOf v →
    E.lockOf u = E.lockOf v) ∧
  ∀ s, (server E reqs files).Reachable s → ¬ Torn E s

/-- No two requests spell one file in two ways. -/
def OneSpelling (E : Env) (reqs : Fin n → Incoming) : Prop :=
  ∀ i j u v, served (reqs i) = some u → served (reqs j) = some v → E.fileOf u = E.fileOf v → u = v

theorem served_of_accepted {q : Incoming} {c : Conn UInt8} (h : Accepted q c) :
    served q = some c.uri := by
  obtain ⟨s', hp, hreq⟩ := h
  simp only [served, hp, hreq, if_true]

theorem served_uriOk {q : Incoming} {u : Bytes} (h : served q = some u) : UriOk u := by
  unfold served at h
  split at h
  · rename_i c s' hp
    split at h
    · cases h
      obtain ⟨-, buf, r, -, hl, -, -, hu⟩ := connParse_none hp
      rw [hu]; exact hl.1.uri_ok
    · cases h
  · cases h

theorem inside_serving {pc : Pc} (h : pc.inside = true) : pc.serving = true := by
  cases pc <;> first | exact h | rfl

theorem MidPut.inside {w : Worker} (h : MidPut w) : w.pc.inside = true := by
  obtain ⟨-, ⟨ex, hp⟩ | ⟨ex, total, hp⟩ | ⟨res, hp | hp⟩⟩ := h
  · rw [hp]; rfl
  · rw [hp]; rfl
  · rw [hp]; exact (exits_inside res).2.1.1
  · rw [hp]; exact (exits_inside res).2.2.1

/-- **Exactly when one file has one lock.** -/
theorem oneLock_iff (E : Env) (reqs : Fin n → Incoming) (files : Files) :
    OneLock E reqs files ↔ OneSpelling E reqs := by
  constructor
  · intro h i j u v hu hv hf
    exact lockPathFor_inj E.dev E.ino (served_uriOk hu) (served_uriOk hv) (h.1 i j u v hu hv hf)
  · intro h
    refine ⟨fun i j u v hu hv hf => by rw [h i j u v hu hv hf], ?_⟩
    intro s hs hh
    obtain ⟨i, j, hij, hmid, hj, hf⟩ := hh
    have hin := hmid.inside
    have hui := served_of_accepted (serving_accepted (solo_reachable hs i) (inside_serving hin))
    have huj := served_of_accepted (serving_accepted (solo_reachable hs j) (inside_serving hj))
    have huv := h i j _ _ hui huj hf
    exact hij (put_alone hs hin hmid.1 hj (congrArg E.lockOf huv)).symm

/-- `PUT /a` and `GET /./a`. -/
def putGet : Fin 2 → Incoming
  | 0 => { client := ⟨ascii "PUT /a HTTP/1.1\r\n\r\n", []⟩ }
  | 1 => { client := ⟨ascii "GET /./a HTTP/1.1\r\n\r\n", []⟩ }

/-- **Counterexample**: `a` and `./a` are one file with two lockfiles, and
after nine steps the GET is inside its lock while the PUT has the file
truncated. -/
theorem aliased_put_get :
    Env.fileOf ⟨[], 1, 2⟩ (ascii "a") = Env.fileOf ⟨[], 1, 2⟩ (ascii "./a") ∧
      Env.lockOf ⟨[], 1, 2⟩ (ascii "a") ≠ Env.lockOf ⟨[], 1, 2⟩ (ascii "./a") ∧
      (∃ s, (server ⟨[], 1, 2⟩ putGet fun _ => none).Reachable s ∧ Torn ⟨[], 1, 2⟩ s) ∧
      ¬ OneLock ⟨[], 1, 2⟩ putGet fun _ => none := by
  have hrun : ((LTS.exec (Sys.step ⟨[], 1, 2⟩) ⟨fun _ => none, [], fun i => (putGet i).start⟩
      [0, 0, 0, 0, 0, 0, 1, 1, 1]).map fun s =>
        ((s.workers 0).pc, (s.workers 0).conn.request, (s.workers 0).conn.uri, (s.workers 1).pc,
          (s.workers 1).conn.uri)) =
      some (.putLeft false, .PUT, ascii "a", .getOpen, ascii "./a") := by decide
  obtain ⟨s, hs, hproj⟩ := Option.map_eq_some_iff.mp hrun
  simp only [Prod.mk.injEq] at hproj
  obtain ⟨h0, h1, h2, h3, h4⟩ := hproj
  have hfile : Env.fileOf ⟨[], 1, 2⟩ (ascii "a") = Env.fileOf ⟨[], 1, 2⟩ (ascii "./a") := by decide
  have hr : (server ⟨[], 1, 2⟩ putGet fun _ => none).Reachable s :=
    ⟨_, _, rfl, LTS.run_of_exec _ _ _ hs⟩
  have ht : Torn ⟨[], 1, 2⟩ s :=
    ⟨0, 1, by decide, ⟨h1, .inl ⟨_, h0⟩⟩, by rw [h3]; rfl, by rw [h2, h4]; exact hfile⟩
  exact ⟨hfile, by decide, ⟨s, hr, ht⟩, fun h => h.2 s hr ht⟩

end HttpC.Bugs.LockAlias
