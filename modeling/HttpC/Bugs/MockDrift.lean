import HttpC.L7Mock.OnTree

/-!
# The mock is not the C server

ztest/mock/main.zig:1-8 calls the mock "a faithful stand-in" with statuses
"mapped the same way the spec describes". The C server's `handle_put` says
what that is: "Errno mapping matches the spec: EACCES/EISDIR/ENOENT -> 403,
anything else -> 500" (src/httpserver.c:358-359). The mock's `createFile`
(ztest/mock/main.zig:176-179) has no `FileNotFound`: a PUT below a directory
that is not there is a 500. Its `readToEndAlloc` (:142) turns a file of more
than 1 GiB into a 500. And the C server opens a lockfile first: for the URIs
`.` and `..` that is a directory (500), and where the lock directory lies in
the working directory the lockfile is one more file there.

`faithful_iff`: with a usable lock directory the two agree on everything else,
for every tree of files.

Fix: map `error.FileNotFound` to 403 in the mock's `createFile`; drop the size
limit; keep `.` and `..` out of `lock_path_for`.
-/
namespace HttpC.Bugs.MockDrift
open HttpC.L1.Util HttpC.L2 HttpC.L3 HttpC.L5 HttpC.L6 HttpC.L7 HttpC.FileSys

/-! ## Agreement -/

/-- The status the driver reads off a response.
mirrors ztest/src/oliver.zig:204-206 -/
def statusOf (response : Bytes) : Option UInt16 := (parseStatusLine response).map StatusLine.code

/-- The body the driver reads off a response.
mirrors ztest/src/oliver.zig:207-208 -/
def bodyOf (response : Bytes) : Bytes := response.drop ((findBodyStart response).getD response.length)

/-- The same status, body, audit line, and files in the working directory. -/
structure Agree (E : Env) (s : Sys 1) (t : Mock 1) : Prop where
  status : statusOf (s.workers 0).sock.written = statusOf (t.threads 0).sock.written
  body : bodyOf (s.workers 0).sock.written = bodyOf (t.threads 0).sock.written
  line : s.linesOf 0 = t.log.map Prod.snd
  files : ∀ p, E.cwd <+: p → s.files p = t.files p

/-- Both servers come to their end with the request, and agree. -/
def Faithful (E : Env) (σ : Tree) (c : Create) (d : DriverConn) (k l : Channel) : Prop :=
  ∃ s t, ((alone E (onServer E σ c d k) (underLock E σ c.uri).files).Reachable s ∧
      (s.workers 0).pc = .done) ∧
    ((aloneMock E (onMock E σ c d l) σ.files).Reachable t ∧ (t.threads 0).pc = .done) ∧ Agree E s t

/-! ## The condition -/

/-- The name of a URI's lockfile.
mirrors src/httpserver.c:103-104 -/
def lockName (uri : Bytes) : Bytes := uri.map fun c => if c = 47 then 37 else c

/-- The lockfile `L` of `uri` can be opened: its name is no directory's, and
what bears it already is a readable file. -/
def Lockable (σ : Tree) (L : List Bytes) (uri : Bytes) : Prop :=
  uri ≠ [46] ∧ uri ≠ [46, 46] ∧ ∀ n, σ.node L = some n → n.isDir = false ∧ n.allows .read = true

/-- Where the mock's table differs: a PUT whose `open` finds no such directory,
a GET of more than 1 GiB. -/
def Drifts (E : Env) (σ : Tree) (method : Request) (uri : Bytes) : Prop :=
  match method with
  | .PUT => σ.openCreate .write E.cwd uri = .error .noEntry
  | _ => ∃ c r w, σ.openRead E.cwd uri = .ok (.file c r w) ∧ 1 <<< 30 < c.length

/-- The path goes on behind a file: a 500 in both tables. -/
def Breaks (E : Env) (σ : Tree) (method : Request) (uri : Bytes) : Prop :=
  match method with
  | .PUT => σ.openCreate .write E.cwd uri = .error .notDir
  | _ => σ.openRead E.cwd uri = .error .notDir

/-- With its lockfile, the C server does as the mock where the tables agree,
unless it has just made that file in the working directory; without, it
answers 500 and the mock must too. -/
def InStep (E : Env) (σ : Tree) (L : List Bytes) (method : Request) (uri : Bytes) : Prop :=
  (Lockable σ L uri ∧ (σ.node L = none → ¬ E.cwd <+: L) ∧ ¬ Drifts E σ method uri) ∨
    (¬ Lockable σ L uri ∧ (Drifts E σ method uri ∨ Breaks E σ method uri))

/-! ## From runs to outcomes -/

theorem statusReason_line (code : Nat) : (10 : UInt8) ∉ statusReason code := by
  unfold statusReason
  split <;> decide

theorem observe_wire {a : Nat × Bytes} (h : a.1 < 2 ^ 16) :
    statusOf (wire a) = some (UInt16.ofNat a.1) ∧ bodyOf (wire a) = a.2 := by
  have hline := statusReason_line a.1
  have e : wire a = headOf a.1 (statusReason a.1) a.2.length ++ a.2 := rfl
  constructor
  · rw [statusOf, e, parseStatusLine_head a.2.length h hline a.2]
    rfl
  · rw [bodyOf, e, findBodyStart_block (headOf_block a.1 a.2.length hline), Option.getD_some,
      List.drop_left]

/-- A status with three digits. -/
def Digits (code : Nat) : Prop := code < 2 ^ 16 ∧ (decimal code).length = 3

instance (code : Nat) : Decidable (Digits code) := inferInstanceAs (Decidable (_ ∧ _))

theorem digits_server (E : Env) (σ : Tree) (method : Request) (uri body : Bytes) :
    Digits (serverOutcome E σ method uri body).1.1 := by
  have h : ∀ res, Digits (responseGetCode res) := by
    intro res
    cases res <;> decide
  unfold serverOutcome
  split <;> exact h _

theorem digits_mock (E : Env) (σ : Tree) (method : Request) (uri body : Bytes) :
    Digits (mockOutcome E σ method uri body).1.1 := by
  have hput : ∀ e, Digits (putOpenCode (zigError e)) := fun e => by cases e <;> decide
  have hget : ∀ e, Digits (getOpenCode (zigError e)) := fun e => by cases e <;> decide
  unfold mockOutcome
  split
  · show Digits (mockPutOn σ E.cwd uri _ body).1
    unfold mockPutOn
    split
    · exact hput _
    · show Digits (if _ then 200 else 201)
      split <;> decide
  · show Digits (mockGetOn σ E.cwd uri).1
    unfold mockGetOn
    split
    · exact hget _
    · show Digits 403
      decide
    · split
      · show Digits 200
        decide
      · show Digits 500
        decide

/-- **Faithful runs are equal outcomes.** -/
theorem faithful_outcomes {opts : Options} {c : Create} {d : DriverConn} (E : Env) (σ : Tree)
    (k l : Channel) (h : Encoded opts c d) :
    Faithful E σ c d k l ↔
      (serverOutcome E σ (requestOf c.method) c.uri d.body).1 =
          (mockOutcome E σ (requestOf c.method) c.uri d.body).1 ∧
        ∀ p, E.cwd <+: p → (serverOutcome E σ (requestOf c.method) c.uri d.body).2 p =
          (mockOutcome E σ (requestOf c.method) c.uri d.body).2 p := by
  obtain ⟨s, hs, hsd, hsf, hsw, hsl⟩ := server_ends E σ k h
  obtain ⟨t, ht, htd, htf, htw, htl⟩ := mock_ends E σ l h
  have ds := digits_server E σ (requestOf c.method) c.uri d.body
  have dt := digits_mock E σ (requestOf c.method) c.uri d.body
  generalize serverOutcome E σ (requestOf c.method) c.uri d.body = so at *
  generalize mockOutcome E σ (requestOf c.method) c.uri d.body = mo at *
  have htl' : t.log.map Prod.snd = [lineOf c mo.1.1] := by
    rw [htl, audited, if_pos (lineOf_fits h dt.2)]
    rfl
  obtain ⟨s1, s2⟩ := observe_wire ds.1
  obtain ⟨t1, t2⟩ := observe_wire dt.1
  constructor
  · intro hh
    obtain ⟨s', t', ⟨hs', hsd'⟩, ⟨ht', htd'⟩, ha⟩ := hh
    obtain rfl := alone_unique hs' hs hsd' hsd
    obtain rfl := aloneMock_unique ht' ht htd' htd
    have hbody := ha.body
    have hline := ha.line
    rw [hsw, htw, s2, t2] at hbody
    rw [hsl, htl'] at hline
    have hcode : so.1.1 = mo.1.1 := by
      simp only [lineOf, List.cons.injEq, LogLine.mk.injEq, and_true, true_and] at hline
      exact hline
    exact ⟨Prod.ext hcode hbody, fun p hp => by rw [← hsf, ← htf]; exact ha.files p hp⟩
  · intro hh
    obtain ⟨he, hf⟩ := hh
    refine ⟨s, t, ⟨hs, hsd⟩, ⟨ht, htd⟩, ?_, ?_, ?_, ?_⟩
    · rw [hsw, htw, he]
    · rw [hsw, htw, he]
    · rw [hsl, htl', he]
    · intro p hp
      rw [hsf, htf]
      exact hf p hp

/-! ## The two tables -/

section
variable (σ : Tree) (cwd : List Bytes) (uri : Bytes)

theorem get_tables : pair (getOn σ cwd uri) = mockGetOn σ cwd uri ↔
    ¬ ∃ c r w, σ.openRead cwd uri = .ok (.file c r w) ∧ 1 <<< 30 < c.length := by
  unfold getOn mockGetOn
  generalize 1 <<< 30 = limit
  cases σ.openRead cwd uri with
  | error e => cases e <;> simp [pair_message] <;> rfl
  | ok n =>
    cases n with
    | dir r w x => simp [pair_message]; rfl
    | file c r w =>
      have hne : ((200, c) : Nat × Bytes) ≠ errorAnswer 500 := fun h =>
        absurd (show 200 = 500 from congrArg Prod.fst h) (by decide)
      have hp : pair (.file c) = (200, c) := rfl
      by_cases hc : c.length ≤ limit
      · simp [hp, hc]
      · simp only [hp, if_neg hc, hne, false_iff, not_not]
        exact ⟨c, r, w, rfl, by omega⟩

theorem mockGet_500 : errorAnswer 500 = mockGetOn σ cwd uri ↔
    (∃ c r w, σ.openRead cwd uri = .ok (.file c r w) ∧ 1 <<< 30 < c.length) ∨
      σ.openRead cwd uri = .error .notDir := by
  unfold mockGetOn
  generalize 1 <<< 30 = limit
  cases σ.openRead cwd uri with
  | error e => cases e <;> simp [errorAnswer, getOpenCode, zigError]
  | ok n =>
    cases n with
    | dir r w x => simp [errorAnswer]
    | file c r w =>
      by_cases hc : c.length ≤ limit
      · simp [errorAnswer, hc]
      · simp only [if_neg hc, true_iff]
        exact .inl ⟨c, r, w, rfl, by omega⟩

theorem put_tables (f : Option Bytes) (body : Bytes) :
    (responseGetCode (putOn σ cwd uri f body).1 = (mockPutOn σ cwd uri f body).1 ↔
      σ.openCreate .write cwd uri ≠ .error .noEntry) ∧
    (putOn σ cwd uri f body).2 = (mockPutOn σ cwd uri f body).2 := by
  unfold putOn mockPutOn
  cases σ.openCreate .write cwd uri with
  | error e => cases e <;> simp [putOpenError, errnoOf, putOpenCode, zigError, responseGetCode]
  | ok p => cases σ.exists_ cwd uri <;> simp [responseGetCode]

theorem mockPut_500 (f : Option Bytes) (body : Bytes) :
    (500 = (mockPutOn σ cwd uri f body).1 ↔
      σ.openCreate .write cwd uri = .error .noEntry ∨ σ.openCreate .write cwd uri = .error .notDir) ∧
    (500 = (mockPutOn σ cwd uri f body).1 → (mockPutOn σ cwd uri f body).2 = f) := by
  unfold mockPutOn
  cases σ.openCreate .write cwd uri with
  | error e => cases e <;> simp [putOpenCode, zigError]
  | ok p => cases σ.exists_ cwd uri <;> simp

end

/-! ## The lockfile -/

theorem lockName_flat {uri : Bytes} (h : (47 : UInt8) ∉ uri) : lockName uri = uri := by
  unfold lockName
  conv_rhs => rw [← List.map_id uri]
  refine List.map_congr_left fun x hx => if_neg ?_
  intro hh
  subst hh
  exact h hx

theorem mem_lockName {uri : Bytes} (h : (47 : UInt8) ∈ uri) : (37 : UInt8) ∈ lockName uri :=
  List.mem_map.mpr ⟨47, h, if_pos rfl⟩

theorem lockName_slash (uri : Bytes) : (47 : UInt8) ∉ lockName uri := no_slash_name uri

theorem lockName_ne_nil {uri : Bytes} (hu : UriOk uri) : lockName uri ≠ [] := by
  intro he
  have := hu.pos
  rw [List.map_eq_nil_iff.mp he] at this
  simp at this

theorem lockName_eq_iff {uri w : Bytes} (h37 : (37 : UInt8) ∉ w) (h47 : (47 : UInt8) ∉ w) :
    lockName uri = w ↔ uri = w := by
  constructor
  · intro h
    have hflat : (47 : UInt8) ∉ uri := fun hm => h37 (h ▸ mem_lockName hm)
    rw [← h, lockName_flat hflat]
  · intro hh
    subst hh
    exact lockName_flat h47

section
variable {E : Env} {σ : Tree} {D : List Bytes} {uri : Bytes}

/-- `uri_lock` succeeds exactly for a lockable URI. -/
theorem lockOpen_eq (hu : UriOk uri) (h : σ.Usable E.cwd (lockDir E.dev E.ino) D) :
    (Lockable σ (D ++ [lockName uri]) uri → lockOpen E σ uri = .ok (D ++ [lockName uri])) ∧
      (¬ Lockable σ (D ++ [lockName uri]) uri → ∃ e, lockOpen E σ uri = .error e) := by
  have hopen := h.openCreate .read (lockName_slash uri) (lockName_ne_nil hu)
  have hpath : lockDir E.dev E.ino ++ 47 :: lockName uri = E.lockOf uri :=
    (lockPathFor_eq E.dev E.ino hu).symm
  have hdot : lockName uri = [46] ↔ uri = [46] := lockName_eq_iff (by decide) (by decide)
  have hdots : lockName uri = [46, 46] ↔ uri = [46, 46] := lockName_eq_iff (by decide) (by decide)
  simp only [hpath, hdot, hdots] at hopen
  rw [lockOpen, hopen]
  constructor
  · intro hh
    obtain ⟨h1, h2, h3⟩ := hh
    rw [if_neg (not_or.mpr ⟨h1, h2⟩)]
    cases hn : σ.node (D ++ [lockName uri]) with
    | none => rfl
    | some n =>
      obtain ⟨hd, hr⟩ := h3 n hn
      simp only [hd, hr, Bool.false_eq_true, if_false, if_true]
  · intro hnot
    split
    · exact ⟨_, rfl⟩
    · rename_i hno
      cases hn : σ.node (D ++ [lockName uri]) with
      | none =>
        refine absurd ⟨fun h => hno (.inl h), fun h => hno (.inr h), fun n hn' => ?_⟩ hnot
        rw [hn] at hn'; cases hn'
      | some n =>
        simp only
        split
        · exact ⟨_, rfl⟩
        · rename_i hd
          split
          · rename_i hr
            refine absurd ⟨fun h => hno (.inl h), fun h => hno (.inr h), fun m hm => ?_⟩ hnot
            rw [hn] at hm; cases hm
            exact ⟨by simpa using hd, hr⟩
          · exact ⟨_, rfl⟩

/-- A lockfile that is not asked for by name is not on the way to the file. -/
theorem avoids_lock (hu : UriOk uri) (hout : E.cwd ++ [uri] ≠ D ++ [lockName uri]) :
    σ.Avoids (start E.cwd uri) (names uri) (D ++ [lockName uri]) := by
  by_cases hs : (47 : UInt8) ∈ uri
  · -- the name has a `%`, the components have none
    apply Tree.avoids_of_name
    intro c hc
    rw [List.getLast?_concat]
    intro h
    obtain ⟨⟩ := h
    have hin : (37 : UInt8) ∈ uri :=
      Path.mem_comps (List.mem_of_mem_filter hc) (mem_lockName hs)
    have := hu.cls 37 hin
    revert this; decide
  · rw [Tree.names_flat hs (List.ne_nil_of_length_pos hu.pos), Tree.start_flat E.cwd hs]
    exact Tree.avoids_singleton hout

/-! ## Outcomes -/

/-- The two outcomes agree in the working directory. -/
def Same (E : Env) (σ : Tree) (method : Request) (uri body : Bytes) : Prop :=
  (serverOutcome E σ method uri body).1 = (mockOutcome E σ method uri body).1 ∧
    ∀ p, E.cwd <+: p →
      (serverOutcome E σ method uri body).2 p = (mockOutcome E σ method uri body).2 p

theorem errorAnswer_inj {a b : Nat} : errorAnswer a = errorAnswer b ↔ a = b :=
  ⟨fun h => congrArg Prod.fst h, fun h => by rw [h]⟩

/-- Without a lock the C server answers 500. -/
theorem same_unlocked {method : Request} (body : Bytes) {e : Fail} (h : lockOpen E σ uri = .error e) :
    Same E σ method uri body ↔ Drifts E σ method uri ∨ Breaks E σ method uri := by
  have hunder : underLock E σ uri = σ := by rw [underLock, h]
  have hget : (pair (serverGet E σ uri)) = errorAnswer 500 := by
    rw [serverGet, h]; exact pair_message _
  have hput : serverPut E σ uri body = (.INTERNAL_SERVER_ERROR, σ.files (E.fileOf uri)) := by
    rw [serverPut, h, hunder]
  have h500 : responseGetCode .INTERNAL_SERVER_ERROR = 500 := rfl
  unfold Same serverOutcome mockOutcome Drifts Breaks
  cases method with
  | PUT =>
    obtain ⟨hcode, hfile⟩ := mockPut_500 σ E.cwd uri (σ.files (E.fileOf uri)) body
    simp only [hput, hunder, h500, errorAnswer_inj]
    rw [← hcode]
    exact ⟨fun hs => hs.1, fun hs => ⟨hs, fun p _ => by rw [hfile hs]⟩⟩
  | _ =>
    simp only [hget, hunder, implies_true, and_true]
    exact mockGet_500 σ E.cwd uri

/-- With a lock, and nothing new on the way to the file, the tables decide. -/
theorem same_locked {method : Request} (body : Bytes) {L : List Bytes} (h : lockOpen E σ uri = .ok L)
    (hread : (σ.touch L).openRead E.cwd uri = σ.openRead E.cwd uri)
    (hcreate : (σ.touch L).openCreate .write E.cwd uri = σ.openCreate .write E.cwd uri)
    (hexists : (σ.touch L).exists_ E.cwd uri = σ.exists_ E.cwd uri)
    (hfiles : ∀ p, E.cwd <+: p → (σ.touch L).files p = σ.files p) :
    Same E σ method uri body ↔ ¬ Drifts E σ method uri := by
  have hunder : underLock E σ uri = σ.touch L := by rw [underLock, h]
  have hget : serverGet E σ uri = getOn σ E.cwd uri := by
    rw [serverGet, h]
    simp only [getOn, hunder, hread]
  have hput : serverPut E σ uri body =
      putOn σ E.cwd uri ((σ.touch L).files (E.fileOf uri)) body := by
    rw [serverPut, h]
    simp only [putOn, hunder, hcreate, hexists]
  unfold Same serverOutcome mockOutcome Drifts
  cases method with
  | PUT =>
    have hcode : ∀ f g, (putOn σ E.cwd uri f body).1 = (putOn σ E.cwd uri g body).1 := by
      intro f g
      unfold putOn
      split <;> rfl
    obtain ⟨htab, hfile⟩ := put_tables σ E.cwd uri (σ.files (E.fileOf uri)) body
    simp only [hput, hunder, errorAnswer_inj]
    rw [hcode _ (σ.files (E.fileOf uri)), htab]
    apply and_iff_left
    intro p hp
    by_cases hpf : p = E.fileOf uri
    · subst hpf
      rw [Function.update_self, Function.update_self, hfiles _ hp, hfile]
    · rw [Function.update_of_ne hpf, Function.update_of_ne hpf, hfiles p hp]
  | _ =>
    simp only [hget, hunder]
    rw [get_tables]
    exact and_iff_left hfiles

/-- A PUT on the lockfile it has just made: to the C server the file was
there. -/
theorem putOn_made {τ : Tree} {cwd L : List Bytes} {f : Option Bytes} (body : Bytes)
    (hL : L = Path.resolve cwd uri) (hnode : τ.node L ≠ none) (hf : f ≠ none) :
    responseGetCode (putOn τ cwd uri f body).1 ≠ 201 ∧ (putOn τ cwd uri f body).2 ≠ none := by
  have herr : ∀ e, responseGetCode (putOpenError (errnoOf e)) ≠ 201 := by
    intro e
    cases e <;> decide
  unfold putOn
  cases hc : τ.openCreate .write cwd uri with
  | error e => exact ⟨herr e, hf⟩
  | ok p =>
    have hp : p = L := by rw [hL, ← Tree.locate_eq (Tree.openCreate_ok hc).1]
    have hex : τ.exists_ cwd uri = true := Tree.openCreate_exists hc (by rw [hp]; exact hnode)
    simp only [hex, if_true]
    exact ⟨by decide, by simp⟩

/-- To the mock it was not. -/
theorem mockPutOn_absent (cwd : List Bytes) (body : Bytes) (hf : σ.files (Path.resolve cwd uri) = none)
    (h : (mockPutOn σ cwd uri none body).2 ≠ none) : (mockPutOn σ cwd uri none body).1 = 201 := by
  have hex : σ.exists_ cwd uri = false := by
    have := exists_files σ cwd uri
    rw [hf] at this
    simpa using this.symm
  unfold mockPutOn at h ⊢
  cases hc : σ.openCreate .write cwd uri with
  | error e => rw [hc] at h; exact absurd rfl h
  | ok p => simp [hex]

/-- A lockfile made in the working directory is a difference. -/
theorem not_same_made {method : Request} (body : Bytes) {L : List Bytes} (h : lockOpen E σ uri = .ok L)
    (hL : σ.node L = none) (hd : (σ.node L.dropLast).any (·.isDir)) (hin : E.cwd <+: L) :
    ¬ Same E σ method uri body := by
  have hunder : underLock E σ uri = σ.touch L := by rw [underLock, h]
  have hnew : (σ.touch L).node L = some (.file [] true true) := by
    rw [Tree.touch_node hL hd, Function.update_self]
  have hnewf : (σ.touch L).files L = some [] := by rw [Tree.files, hnew]; rfl
  have hold : σ.files L = none := by rw [Tree.files, hL]; rfl
  intro hs
  obtain ⟨hcode, hfiles⟩ := hs
  have hat := hfiles L hin
  unfold serverOutcome mockOutcome at hcode hat
  cases method with
  | PUT =>
    by_cases hF : L = E.fileOf uri
    · have hF' : L = Path.resolve E.cwd uri := hF
      have hput : serverPut E σ uri body = putOn (σ.touch L) E.cwd uri (some []) body := by
        rw [serverPut, h]
        simp only [hunder, ← hF, hnewf]
      obtain ⟨h201, hthere⟩ := putOn_made (f := some []) body hF (by rw [hnew]; simp) (by simp)
      simp only [hunder, hput, ← hF, hold, Function.update_self, errorAnswer_inj] at hcode hat
      rw [hat] at hthere
      rw [hcode] at h201
      exact h201 (mockPutOn_absent E.cwd body (by rw [← hF']; exact hold) hthere)
    · simp only [hunder, Function.update_of_ne hF, hnewf, hold] at hat
      cases hat
  | _ =>
    simp only [hunder, hnewf, hold] at hat
    cases hat

/-- **Exactly when the outcomes agree.** -/
theorem same_iff (method : Request) (body : Bytes) (hu : UriOk uri)
    (hcwd : ∃ d, σ.node E.cwd = some d) (h : σ.Usable E.cwd (lockDir E.dev E.ino) D) :
    Same E σ method uri body ↔ InStep E σ (D ++ [lockName uri]) method uri := by
  obtain ⟨hok, herr⟩ := lockOpen_eq hu h
  by_cases hl : Lockable σ (D ++ [lockName uri]) uri
  · simp only [InStep, hl, true_and, not_true, false_and, or_false]
    have hopen := hok hl
    by_cases hnode : σ.node (D ++ [lockName uri]) = none
    · by_cases hin : E.cwd <+: D ++ [lockName uri]
      · -- made in the working directory
        obtain ⟨r, hr⟩ := h.node
        simp only [hnode, hin, not_true, imp_false, false_and, iff_false]
        exact not_same_made body hopen hnode (by rw [List.dropLast_concat, hr]; rfl) hin
      · simp only [hin, not_false_eq_true, implies_true, true_and]
        have hav : σ.Avoids (start E.cwd uri) (names uri) (D ++ [lockName uri]) :=
          avoids_lock hu fun he => hin (he ▸ List.prefix_append _ _)
        refine same_locked body hopen (Tree.openRead_touch hnode hcwd hav)
          (Tree.openCreate_touch .write hnode hcwd hav) (Tree.exists_touch hnode hcwd hav)
          fun p hp => ?_
        have hne : p ≠ D ++ [lockName uri] := fun he => hin (he ▸ hp)
        rw [Tree.files, Tree.files, Tree.touch_other hne]
    · -- already there
      simp only [hnode, false_implies, true_and]
      have htouch := Tree.touch_of_some hnode
      exact same_locked body hopen (by rw [htouch]) (by rw [htouch]) (by rw [htouch])
        fun p _ => by rw [htouch]
  · obtain ⟨e, he⟩ := herr hl
    simp only [InStep, hl, false_and, not_false_eq_true, true_and, false_or]
    exact same_unlocked body he

end

/-- **Exactly when the mock stands in for the C server.** -/
theorem faithful_iff {opts : Options} {c : Create} {d : DriverConn} (E : Env) (σ : Tree)
    (D : List Bytes) (k l : Channel) (h : Encoded opts c d) (hcwd : ∃ n, σ.node E.cwd = some n)
    (hlock : σ.Usable E.cwd (lockDir E.dev E.ino) D) :
    Faithful E σ c d k l ↔ InStep E σ (D ++ [lockName c.uri]) (requestOf c.method) c.uri := by
  rw [faithful_outcomes E σ k l h]
  exact same_iff (requestOf c.method) d.body h.uri hcwd hlock

/-! ## At work -/

/-- A server in `/srv`, its lock directory, and nothing else. -/
def dirs : List (List Bytes) :=
  [[], [ascii "tmp"], [ascii "tmp", ascii ".httpserver.locks.1.2"], [ascii "srv"]]

def bare : Tree where
  node p := if p ∈ dirs then some (.dir true true true) else none
  root := by decide
  parent := by
    intro p n hn
    have hp : p ∈ dirs := by
      by_contra hp
      rw [if_neg hp] at hn
      cases hn
    have hall : ∀ p ∈ dirs, p.dropLast ∈ dirs := by decide
    exact ⟨_, if_pos (hall p hp), rfl⟩

def srv : Env := ⟨[ascii "srv"], 1, 2⟩

theorem bare_usable : bare.Usable srv.cwd (lockDir srv.dev srv.ino)
    [ascii "tmp", ascii ".httpserver.locks.1.2"] :=
  ⟨by decide, by decide, true, by decide⟩

/-- Everything at once. -/
def straight : Channel := ⟨[], [], [], [], by decide, by decide, by decide, by decide⟩

/-- In pieces. -/
def piecewise : Channel :=
  ⟨[.got 5, .err .EINTR], [.put 3], [.got 0], [.put 0], by decide, by decide, by decide, by decide⟩

/-- A PUT of `hi`. -/
def putHi (uri : Bytes) : Create := ⟨7, ascii "PUT", uri, some (ascii "hi")⟩

theorem putHi_encoded (uri : Bytes) (hu : UriOk uri) : ∃ d, Encoded {} (putHi uri) d :=
  ⟨_, rfl, .inl rfl, .inr rfl, hu, short_noFit (show (ascii "hi").length < 6 by decide)⟩

/-- A PUT of a new file, read and written in pieces by one server and at once
by the other. -/
theorem faithful_putA : ∃ d, Encoded {} (putHi (ascii "a")) d ∧
    Faithful srv bare (putHi (ascii "a")) d straight piecewise := by
  obtain ⟨d, hd⟩ := putHi_encoded (ascii "a") (by decide)
  refine ⟨d, hd, (faithful_iff srv bare _ straight piecewise hd ⟨_, rfl⟩ bare_usable).mpr (.inl ?_)⟩
  refine ⟨⟨by decide, by decide, fun n hn => ?_⟩, fun _ => by decide, ?_⟩
  · have hnone : bare.node ([ascii "tmp", ascii ".httpserver.locks.1.2"] ++
        [lockName (putHi (ascii "a")).uri]) = none := by decide
    rw [hnone] at hn; cases hn
  · have hok : bare.openCreate .write srv.cwd (ascii "a") = .ok [ascii "srv", ascii "a"] := by decide
    show ¬ bare.openCreate .write srv.cwd (ascii "a") = .error .noEntry
    rw [hok]
    simp

/-- **Counterexample**: `PUT /missing/x` is a 403 for the C server and a 500
for the mock. -/
theorem putMissing_drifts : ∃ d, Encoded {} (putHi (ascii "missing/x")) d ∧
    (serverOutcome srv bare .PUT (ascii "missing/x") d.body).1 = errorAnswer 403 ∧
    (mockOutcome srv bare .PUT (ascii "missing/x") d.body).1 = errorAnswer 500 ∧
    ¬ Faithful srv bare (putHi (ascii "missing/x")) d straight straight := by
  obtain ⟨d, hd⟩ := putHi_encoded (ascii "missing/x") (by decide)
  have hlock : failure (lockOpen srv bare (ascii "missing/x")) = none := by decide
  have hlocked : (underLock srv bare (ascii "missing/x")).openCreate .write srv.cwd (ascii "missing/x") =
      .error .noEntry := by decide
  have hopen : bare.openCreate .write srv.cwd (ascii "missing/x") = .error .noEntry := by decide
  have hserver : (serverOutcome srv bare .PUT (ascii "missing/x") d.body).1 = errorAnswer 403 := by
    unfold serverOutcome serverPut
    cases hl : lockOpen srv bare (ascii "missing/x") with
    | error e => rw [hl] at hlock; cases hlock
    | ok L =>
      simp only [putOn, hlocked]
      rfl
  have hmock : (mockOutcome srv bare .PUT (ascii "missing/x") d.body).1 = errorAnswer 500 := by
    simp only [mockOutcome, mockPutOn, hopen]
    rfl
  refine ⟨d, hd, hserver, hmock, fun hf => ?_⟩
  have := ((faithful_outcomes srv bare straight straight hd).mp hf).1
  rw [show requestOf (putHi (ascii "missing/x")).method = .PUT from rfl,
    show (putHi (ascii "missing/x")).uri = ascii "missing/x" from rfl, hserver, hmock,
    errorAnswer_inj] at this
  revert this; decide

end HttpC.Bugs.MockDrift
