import HttpC.Bugs.GreenVerdict
import HttpC.L6Harness.Sherlock
import HttpC.L9Suite.Running

/-!
# The verdict at the end of a workload

When the driver has come to the end of a workload, `runOne` reports green
(`Running.passes`): the log parses, its lines stand in an order the events
allow, and replaying them in a fresh directory gives the bodies the driver
saw. More than the checks ask is true: of every request the driver recorded a
body and a status, and it has one line, with its method, its URI and that
status (`Settled`).

The replay goes line by line along the log. The directory it works in mirrors
(`Mirrors`) what the linearization of the server says the files are at that
line.
-/
namespace HttpC.L9
open HttpC.L1.Util HttpC.L2 HttpC.L3 HttpC.L5 HttpC.L6 HttpC.Spec
open HttpC.L7 (Channel Flat fileOf_flat)
open HttpC.Bugs.GreenVerdict (Vouched)

/-! ## A replay that goes through -/

section
variable {σ : Type} {D : Dir σ} {repoRoot : RepoRoot} {excerpt : Bytes → Bytes} {evs : List Event}
  {responses : Int64 → Option Bytes} {d d' : σ}

theorem compareBody_eq {line : Bytes} {op : L6.Op} {c : CreateEvent} {expected : Bytes} {r : Result}
    (h : responses op.rid = some expected) :
    compareBody excerpt responses line op c expected r = r := by
  simp [compareBody, h]

theorem replayLine_repeats {i : Nat} {op : L6.Op} (r : Result)
    (h : Repeats D repoRoot evs responses d op d') :
    replayLine D repoRoot excerpt evs responses i op d r = some (d', r) := by
  have hne : ascii "PUT" ≠ ascii "GET" := by decide
  cases h with
  | @get c body hc ho hm hread hres =>
    rcases hread with hread | ⟨hread, hbody⟩
    · simp only [replayLine, hc, ho, hm, if_true, hread, compareBody_eq hres]
    · subst hbody
      simp only [replayLine, hc, ho, hm, if_true, hread, compareBody_eq hres]
  | @put c bytes d' hc ho hm hread hwrite hres =>
    simp only [replayLine, hc, ho, hm, if_true, hne, if_false, hread, hwrite, Option.map_some,
      compareBody_eq hres]
  | other hc =>
    cases hf : findCreate evs op.rid with
    | none => simp only [replayLine, hf]
    | some c =>
      obtain ⟨ho, hget, hput⟩ := hc c hf
      simp only [replayLine, hf, ho, if_true, hget, hput, if_false]

theorem replayLines_replayed {i : Nat} {ops : List L6.Op} (r : Result)
    (h : Replayed D repoRoot evs responses d ops) :
    replayLines D repoRoot excerpt evs responses i ops d r = some r := by
  induction h generalizing i with
  | nil => rfl
  | cons hop _ ih =>
    rw [replayLines, replayLine_repeats r hop]
    exact ih

end

/-! ## The scratch directory of the replay -/

/-- `std.fs.Dir` operations on the plain files of a directory. -/
def scratch (cwd : List Bytes) : Dir Files where
  readFileAlloc d path max :=
    match d (Path.resolve cwd path) with
    | none => .error .fileNotFound
    | some bytes =>
      match readFileAlloc bytes max with
      | some bytes => .ok bytes
      | none => .error (.other (ascii "FileTooBig"))
  writeFile d path bytes := some (Function.update d (Path.resolve cwd path) (some bytes))
  access d path := (d (Path.resolve cwd path)).isSome

/-- The directory at `cwd'` holds the same small files as the one at `cwd`. -/
def Mirrors (cwd' cwd : List Bytes) (d f : Files) : Prop :=
  ∀ name, Flat name → d (cwd' ++ [name]) = f (cwd ++ [name]) ∧
    ∀ bytes, f (cwd ++ [name]) = some bytes → bytes.length ≤ 1 <<< 30

section
variable {cwd cwd' : List Bytes} {d f : Files} {repoRoot : RepoRoot} {evs : List Event} {name : Bytes}

theorem Mirrors.store (h : Mirrors cwd' cwd d f) {bytes : Bytes} (hb : bytes.length ≤ 1 <<< 30) :
    Mirrors cwd' cwd (Function.update d (cwd' ++ [name]) (some bytes))
      (Function.update f (cwd ++ [name]) (some bytes)) := by
  intro x hx
  by_cases hn : x = name
  · subst hn
    simp only [Function.update_self]
    refine ⟨trivial, fun b hb' => ?_⟩
    cases hb'
    exact hb
  · rw [Function.update_of_ne (by simpa using hn), Function.update_of_ne (by simpa using hn)]
    exact h x hx

theorem Mirrors.read (h : Mirrors cwd' cwd d f) (hn : Flat name) :
    (scratch cwd').readFileAlloc d name (1 <<< 30) =
      match f (cwd ++ [name]) with
      | none => .error .fileNotFound
      | some bytes => .ok bytes := by
  obtain ⟨h1, h2⟩ := h name hn
  simp only [scratch, resolve_flat cwd' hn, h1]
  cases hf : f (cwd ++ [name]) with
  | none => rfl
  | some bytes => simp only [readFileAlloc, if_pos (h2 bytes hf)]

theorem Mirrors.access (h : Mirrors cwd' cwd d f) (hn : Flat name) :
    (scratch cwd').access d name = (f (cwd ++ [name])).isSome := by
  simp only [scratch, resolve_flat cwd' hn, (h name hn).1]

/-- What can be read from the repository is loaded alike. -/
theorem Mirrors.loads (hroot : Limited repoRoot) (hflat : ∀ o ∈ loadedNames evs, Flat o)
    (h : Mirrors cwd' cwd d f) :
    Mirrors cwd' cwd (loadsIn cwd' repoRoot evs d) (loadsIn cwd repoRoot evs f) := by
  induction evs generalizing d f with
  | nil => exact h
  | cons e evs ih =>
    cases e with
    | load infile outfile =>
      have ho : Flat outfile := hflat outfile List.mem_cons_self
      have hflat' : ∀ o ∈ loadedNames evs, Flat o := fun o ho => hflat o (List.mem_cons_of_mem _ ho)
      cases hr : repoRoot infile (1 <<< 30) with
      | error e =>
        simp only [loadsIn, hr]
        exact ih hflat' h
      | ok bytes =>
        simp only [loadsIn, hr, resolve_flat _ ho]
        exact ih hflat' (h.store (hroot _ _ _ hr))
    | _ => exact ih hflat h

/-- **The replay can load what the driver loaded.** -/
theorem loads_scratch (h : Each (Placed repoRoot) [] evs) (d : Files) :
    Loads (scratch cwd') repoRoot d evs (loadsIn cwd' repoRoot evs d) := by
  have hread : ∀ infile outfile, .load infile outfile ∈ evs →
      ∃ bytes, repoRoot infile (1 <<< 30) = .ok bytes := by
    intro infile outfile he
    obtain ⟨pre, post, rfl⟩ := List.append_of_mem he
    exact (Each.at h).2.2
  clear h
  induction evs generalizing d with
  | nil => rfl
  | cons e evs ih =>
    have hrest : ∀ infile outfile, .load infile outfile ∈ evs →
      ∃ bytes, repoRoot infile (1 <<< 30) = .ok bytes := fun i o ho => hread i o (List.mem_cons_of_mem _ ho)
    cases e with
    | load infile outfile =>
      obtain ⟨bytes, hb⟩ := hread infile outfile List.mem_cons_self
      refine ⟨bytes, _, hb, rfl, ?_⟩
      simp only [loadsIn, hb]
      exact ih _ hrest
    | _ => exact ih _ hrest

end

/-! ## What the driver recorded -/

/-- The body of an answer. -/
def bodyOf : Reply → Bytes
  | .content c => c
  | r => responseGetMessage (status r) ++ ascii "\n"

theorem wire_head (r : Reply) : wire r = headOf (responseGetCode (status r))
    (responseGetMessage (status r)) (bodyOf r).length ++ bodyOf r := by
  cases r <;> rfl

theorem Recorded.decode {n : Nat} {s : Suite n} {id : Int64} {r : Reply} (h : Recorded s id (wire r)) :
    s.responses id = some (bodyOf r) ∧
      s.statuses id = some (UInt16.ofNat (responseGetCode (status r))) := by
  have hline := responseGetMessage_line (status r)
  obtain ⟨h1, h2⟩ := h
  rw [wire_head] at h1 h2
  rw [findBodyStart_block (headOf_block (responseGetCode (status r)) _ hline), Option.getD_some,
    List.drop_left] at h1
  exact ⟨h1, h2 _ (parseStatusLine_head _ (responseGetCode_lt _) hline _)⟩

/-! ## The log at the end -/

/-- What the harness reads of a line. -/
def opOf (evs : List Event) (e : Fin (creates evs).length × LogLine) : L6.Op :=
  ⟨e.2.oper, e.2.uri, UInt16.ofNat e.2.status, idAt evs e.1⟩

/-- The driver recorded an answer to `c`, and the log has one line for it, with
its method, its URI and the status recorded. -/
def Settled {n : Nat} (s : Suite n) (text : Bytes) (c : CreateEvent) : Prop :=
  ∃ body status, s.responses c.id = some body ∧ s.statuses c.id = some status ∧
    (filterDrivenOps (parseAuditLog text).1).filter (fun op => op.rid = c.id) =
      [⟨c.method, c.uri, status, c.id⟩]

/-- All connections are closed and recorded, over a run of the server. -/
structure Over (E : Env) (repoRoot : RepoRoot) (evs : List Event)
    (ch : Fin (creates evs).length → Channel) (f : Files) (s : Suite (creates evs).length) : Prop where
  reachable : (server E (requests repoRoot evs ch) (loaded E repoRoot evs)).Reachable
    { s.sys with files := f }
  done : ∀ i, (s.sys.workers i).pc = .done
  recorded : ∀ i, Recorded s (idAt evs i) (s.sys.workers i).sock.written
  order : ∀ pre i l post, s.sys.log = pre ++ (i, l) :: post →
    ∀ k, Before evs k i → k ∈ pre.map Prod.fst

section
variable {E : Env} {repoRoot : RepoRoot} {evs : List Event}
  {ch : Fin (creates evs).length → Channel} {past : List Event} {f : Files}
  {s : Suite (creates evs).length}

theorem Running.over (h : Running E repoRoot evs ch past s) (hw : Each (Placed repoRoot) [] evs)
    (ht : s.todo = []) : ∃ f, Over E repoRoot evs ch f s := by
  have hpast : evs = past := by
    have := h.split
    rwa [ht, List.append_nil] at this
  have hall : ∀ i, .wait (idAt evs i) ∈ past := fun i => by
    rw [← hpast]
    exact waited_of_created hw (List.get_mem (creates evs) i)
  obtain ⟨f, hf, -⟩ := h.server
  exact ⟨f, hf, fun i => (h.waited i (hall i)).1, fun i => (h.waited i (hall i)).2, h.order⟩

/-- A line, its answer and what the driver saw of it. -/
theorem Over.line (h : Over E repoRoot evs ch f s) (hw : Each (Placed repoRoot) [] evs)
    {pre post : List (Fin (creates evs).length × LogLine)} {i : Fin (creates evs).length} {l : LogLine}
    (he : s.sys.log = pre ++ (i, l) :: post) :
    let r := replyAfter E (jobs ch hw) (loaded E repoRoot evs) pre i
    l = ⟨((creates evs).get i).method, ((creates evs).get i).uri, responseGetCode (status r),
        decimalInt (idAt evs i).toInt⟩ ∧
      s.responses (idAt evs i) = some (bodyOf r) ∧
      s.statuses (idAt evs i) = some (UInt16.ofNat (responseGetCode (status r))) := by
  intro r
  have hlin := server_linear (jobs_distinct E hw) h.reachable
  obtain ⟨hl, hwr, -⟩ := hlin.lines pre i l post he
  obtain ⟨d, hr⟩ := job_reads ch hw i
  refine ⟨?_, ?_⟩
  · rw [hl, Job.line, hr.method, hr.uri, hr.id]
    rfl
  · have hrec := h.recorded i
    rw [show (s.sys.workers i).sock.written = wire r from hwr] at hrec
    exact hrec.decode

theorem Over.decodes (h : Over E repoRoot evs ch f s) (hw : Each (Placed repoRoot) [] evs)
    {e : Fin (creates evs).length × LogLine} (he : e ∈ s.sys.log) : Decodes e.2 (opOf evs e) := by
  obtain ⟨pre, post, hpp⟩ := List.append_of_mem he
  obtain ⟨hl, -⟩ := h.line hw hpp
  have hst : e.2.status < 2 ^ 16 := by rw [hl]; exact responseGetCode_lt _
  refine ⟨rfl, rfl, ?_, ?_⟩
  · simp only [opOf, UInt16.toNat_ofNat']
    exact Nat.mod_eq_of_lt hst
  · rw [hl]; rfl

/-- **The log parses to its lines.** -/
theorem Over.parsed (h : Over E repoRoot evs ch f s) (hw : Each (Placed repoRoot) [] evs) :
    parseAuditLog (logText (s.sys.log.map Prod.snd)) = (s.sys.log.map (opOf evs), {}) := by
  have hinert : ∀ l ∈ s.sys.log.map Prod.snd, InertLine l := by
    intro l hl
    obtain ⟨e, he, rfl⟩ := List.mem_map.mp hl
    obtain ⟨res, -, hline⟩ := log_line h.reachable (e := e) he
    rw [hline]
    exact inert_auditLine _ res
  have hops : List.Forall₂ Decodes (s.sys.log.map Prod.snd) (s.sys.log.map (opOf evs)) := by
    rw [List.forall₂_map_left_iff, List.forall₂_map_right_iff, List.forall₂_same]
    exact fun e he => h.decodes hw he
  rw [parseAuditLog, logText_lines hinert, parseLines_rows hinert hops]
  rfl

theorem Over.driven (h : Over E repoRoot evs ch f s) (hw : Each (Placed repoRoot) [] evs) :
    filterDrivenOps (s.sys.log.map (opOf evs)) = s.sys.log.map (opOf evs) := by
  refine List.filter_eq_self.mpr fun op hop => ?_
  obtain ⟨e, he, rfl⟩ := List.mem_map.mp hop
  obtain ⟨pre, post, hpp⟩ := List.append_of_mem he
  obtain ⟨hl, -⟩ := h.line hw hpp
  have hm : (opOf evs e).oper = ((creates evs).get e.1).method := by rw [opOf, hl]
  rcases (asks hw e.1).method with ⟨hg, -⟩ | ⟨hp, -⟩
  · rw [hg] at hm; simp [hm]
  · rw [hp] at hm; simp [hm]

theorem findCreate_at {pre : List Event} (post : List Event) {c : CreateEvent}
    (h : findCreate pre c.id = none) : findCreate (pre ++ .create c :: post) c.id = some c := by
  unfold findCreate at h ⊢
  rw [List.findSome?_append, h]
  simp

/-- The CREATE of connection `i`, and no other before it. -/
theorem created_at (hw : Each (Placed repoRoot) [] evs) (i : Fin (creates evs).length) :
    ∃ pre post, evs = pre ++ .create ((creates evs).get i) :: post ∧
      findCreate pre (idAt evs i) = none := by
  obtain ⟨pre, post, he⟩ := List.append_of_mem (mem_creates.mp (List.get_mem (creates evs) i))
  refine ⟨pre, post, he, (findCreate_none_iff _ _).mpr fun hc => ?_⟩
  obtain ⟨c, hc, hid⟩ := hc
  have hw' := hw
  rw [he] at hw'
  refine (Each.at hw').2.1 (List.mem_map.mpr ⟨c, ?_, hid⟩)
  simpa using mem_creates.mpr hc

/-- **The order of the lines is one the events allow.** -/
theorem Over.ordered (h : Over E repoRoot evs ch f s) (hw : Each (Placed repoRoot) [] evs) :
    (checkOrdering evs (s.sys.log.map (opOf evs))).ok = true := by
  refine (orderLines_ok 0 _ [] {}).mpr ⟨rfl, fun pre op post he => ?_⟩
  obtain ⟨pre', rest, hlog, rfl, hrest⟩ := List.map_eq_append_iff.mp he
  obtain ⟨e, post', rfl, rfl, -⟩ := List.map_eq_cons_iff.mp hrest
  obtain ⟨i, l⟩ := e
  obtain ⟨p, q, hpq, hnone⟩ := created_at hw i
  obtain ⟨snap, hsnap, hmem⟩ := happened_create q hnone
  rw [← hpq] at hsnap
  refine ⟨snap, hsnap, fun k hk => ?_⟩
  -- who was waited for is a connection
  have hwait := (hmem k).mp hk
  obtain ⟨p₁, p₂, hp⟩ := List.append_of_mem hwait
  have hw' := hw
  rw [hpq, hp, List.append_assoc, List.cons_append] at hw'
  obtain ⟨c, hc, rfl⟩ := List.mem_map.mp (Each.at hw').1
  have hc' : c ∈ creates evs := by
    rw [hpq, hp, creates_append, creates_append]
    exact List.mem_append_left _ (List.mem_append_left _ (by simpa using hc))
  obtain ⟨j, rfl⟩ := List.get_of_mem hc'
  have := h.order pre' i l post' hlog j ⟨p, q, hpq, hwait⟩
  obtain ⟨x, hx, rfl⟩ := List.mem_map.mp this
  simp only [List.nil_append, List.map_map, List.mem_map]
  exact ⟨x, hx, rfl⟩

/-- What the linearization says the files are after `log`. -/
def filesAfter (E : Env) (repoRoot : RepoRoot) (ch : Fin (creates evs).length → Channel)
    (hw : Each (Placed repoRoot) [] evs) (log : List (Fin (creates evs).length × LogLine)) : Files :=
  replayed E (jobs ch hw) (loaded E repoRoot evs) log

theorem filesAfter_snoc (hw : Each (Placed repoRoot) [] evs)
    (log : List (Fin (creates evs).length × LogLine)) (i : Fin (creates evs).length) (l : LogLine) :
    filesAfter E repoRoot ch hw (log ++ [(i, l)]) =
      ((jobs ch hw i).op E).apply (filesAfter E repoRoot ch hw log) := replayed_snoc log i l

/-- **One line of the replay**, in a directory that mirrors the files at that
line. -/
theorem Over.repeats (h : Over E repoRoot evs ch f s) (hw : Each (Placed repoRoot) [] evs)
    (hroot : Limited repoRoot) {cwd' : List Bytes} {d : Files}
    {pre post : List (Fin (creates evs).length × LogLine)} {i : Fin (creates evs).length} {l : LogLine}
    (he : s.sys.log = pre ++ (i, l) :: post)
    (hd : Mirrors cwd' E.cwd d (filesAfter E repoRoot ch hw pre)) :
    ∃ d', Repeats (scratch cwd') repoRoot evs s.responses d (opOf evs (i, l)) d' ∧
      Mirrors cwd' E.cwd d' (filesAfter E repoRoot ch hw (pre ++ [(i, l)])) := by
  obtain ⟨hl, hres, -⟩ := h.line hw he
  obtain ⟨dc, hr⟩ := job_reads ch hw i
  have hflat := (asks hw i).flat
  have hfile : fileAt E (jobs ch hw) i = E.cwd ++ [((creates evs).get i).uri] := by
    rw [fileAt, hr.uri, fileOf_flat E hflat]
  have hfind : findCreate evs (idAt evs i) = some ((creates evs).get i) := by
    obtain ⟨p, q, hpq, hnone⟩ := created_at hw i
    have := findCreate_at q hnone
    rwa [← hpq] at this
  have hoper : (opOf evs (i, l)).oper = ((creates evs).get i).method := by rw [opOf, hl]
  rw [filesAfter_snoc]
  generalize hg : filesAfter E repoRoot ch hw pre = g at hd
  have hreply : replyAfter E (jobs ch hw) (loaded E repoRoot evs) pre i =
      ((jobs ch hw i).op E).reply (g (E.cwd ++ [((creates evs).get i).uri])) := by
    rw [replyAfter, hfile, ← hg]
    rfl
  rw [hreply] at hres
  rcases (asks hw i).method with ⟨hm, -⟩ | ⟨hm, hin⟩
  · -- a GET leaves the directory as it is
    have hget : (jobs ch hw i).conn.request = .GET := by
      have := hr.method
      rw [hm] at this
      cases hc : (jobs ch hw i).conn.request <;> rw [hc] at this <;>
        first | rfl | (revert this; decide)
    rw [Job.op_get _ E hget] at hres ⊢
    refine ⟨d, .get hfind hoper hm ?_ hres, ?_⟩
    · rw [hd.read hflat]
      cases g (E.cwd ++ [((creates evs).get i).uri]) with
      | none => exact .inr ⟨rfl, rfl⟩
      | some c => exact .inl rfl
    · rw [Op.apply, Op.after, Function.update_eq_self]
      exact hd
  · have hput : (jobs ch hw i).conn.request = .PUT := by
      have := hr.method
      rw [hm] at this
      cases hc : (jobs ch hw i).conn.request <;> rw [hc] at this <;>
        first | rfl | (revert this; decide)
    obtain ⟨infile, hinfile⟩ := Option.isSome_iff_exists.mp hin
    have hbytes := hr.file infile hinfile
    have hread : repoRoot (((creates evs).get i).infile.getD []) (1 <<< 30) = .ok dc.body := by
      rw [hinfile]; exact hbytes
    have hbody : (jobs ch hw i).body = dc.body := hr.body
    rw [Job.op_put _ E hput] at hres ⊢
    refine ⟨Function.update d (cwd' ++ [((creates evs).get i).uri]) (some dc.body),
      .put hfind hoper hm hread ?_ ?_, ?_⟩
    · simp only [scratch, resolve_flat cwd' hflat]
    · rw [hd.access hflat]
      show s.responses (idAt evs i) = _
      rw [hres]
      cases g (E.cwd ++ [((creates evs).get i).uri]) <;> rfl
    · rw [Op.apply, Op.after, Op.file, hr.uri, fileOf_flat E hflat, hbody]
      exact hd.store (hroot _ _ _ hbytes)

/-- **The whole log replays.** -/
theorem Over.replays (h : Over E repoRoot evs ch f s) (hw : Each (Placed repoRoot) [] evs)
    (hroot : Limited repoRoot) {cwd' : List Bytes} {d : Files}
    (rest pre : List (Fin (creates evs).length × LogLine)) (he : s.sys.log = pre ++ rest)
    (hd : Mirrors cwd' E.cwd d (filesAfter E repoRoot ch hw pre)) :
    Replayed (scratch cwd') repoRoot evs s.responses d (rest.map (opOf evs)) := by
  induction rest generalizing pre d with
  | nil => exact .nil
  | cons e rest ih =>
    obtain ⟨d', hrep, hd'⟩ := h.repeats hw hroot he hd
    exact .cons hrep (ih (pre ++ [e]) (by rw [he]; simp) hd')

/-- **Every request is settled.** -/
theorem Over.settled (h : Over E repoRoot evs ch f s) (hw : Each (Placed repoRoot) [] evs)
    {c : CreateEvent} (hc : c ∈ creates evs) : Settled s (logText (s.sys.log.map Prod.snd)) c := by
  obtain ⟨i, rfl⟩ := List.get_of_mem hc
  obtain ⟨l, hl⟩ := jobs_logged hw h.reachable (h.done i)
  have hfilter : s.sys.log.filter (fun e => e.1 = i) = [(i, l)] := by
    have : s.sys.log.filter (fun e => e.1 = i) = (s.sys.linesOf i).map (i, ·) := by
      unfold Sys.linesOf
      induction s.sys.log with
      | nil => rfl
      | cons e log ih =>
        by_cases he : e.1 = i
        · subst he; simp [ih]
        · simp [he, ih]
    rw [this, show s.sys.linesOf i = [l] from hl]
    rfl
  obtain ⟨pre, post, hpp⟩ := List.append_of_mem
    (show (i, l) ∈ s.sys.log from (List.mem_filter.mp (hfilter ▸ List.mem_singleton_self _)).1)
  obtain ⟨hline, hbody, hstatus⟩ := h.line hw hpp
  refine ⟨_, _, hbody, hstatus, ?_⟩
  rw [h.parsed hw, h.driven hw, List.filter_map]
  have hop : opOf evs (i, l) = ⟨((creates evs).get i).method, ((creates evs).get i).uri,
      UInt16.ofNat (responseGetCode (status (replyAfter E (jobs ch hw) (loaded E repoRoot evs) pre i))),
      ((creates evs).get i).id⟩ := by rw [opOf, hline]; rfl
  rw [← hop, ← List.map_singleton, ← hfilter]
  congr 1
  refine List.filter_congr fun e _ => ?_
  exact decide_eq_decide.mpr ⟨fun hid => idAt_inj hw hid, fun hi => by rw [← hi]; rfl⟩

/-- The driver met no error and the three checks are green (`runOne`). Beyond
what is checked, every request of the workload is settled.
mirrors ztest/src/main.zig:231-268 -/
structure Passes (cwd' : List Bytes) (repoRoot : RepoRoot) (excerpt : Bytes → Bytes)
    (evs : List Event) (s : Suite (creates evs).length) : Prop where
  ok : s.failed = false
  green : Green (scratch cwd') repoRoot excerpt evs s.responses (fun _ => none)
    (logText (s.sys.log.map Prod.snd))
  settled : ∀ c ∈ creates evs, Settled s (logText (s.sys.log.map Prod.snd)) c

/-- What the checks leave open (`Bugs.GreenVerdict`) holds here. -/
theorem Passes.vouched {cwd' : List Bytes} {excerpt : Bytes → Bytes}
    (h : Passes cwd' repoRoot excerpt evs s) :
    Vouched evs s.statuses s.responses (logText (s.sys.log.map Prod.snd)) := by
  intro c hc
  obtain ⟨body, status, -, hstatus, hline⟩ := h.settled c (mem_creates.mpr hc.created)
  exact ⟨_, hline, rfl, hstatus⟩

theorem Running.passes (cwd' : List Bytes) (excerpt : Bytes → Bytes)
    (hrun : Running E repoRoot evs ch past s) (hw : Each (Placed repoRoot) [] evs)
    (hroot : Limited repoRoot) (hend : s.todo = []) : Passes cwd' repoRoot excerpt evs s := by
  obtain ⟨f, h⟩ := hrun.over hw hend
  refine ⟨hrun.ok, ⟨?_, ?_, {}, ?_, rfl⟩, fun _ hc => h.settled hw hc⟩
  · rw [h.parsed hw]
  · rw [h.parsed hw, h.driven hw]
    exact h.ordered hw
  · have hmirror : Mirrors cwd' E.cwd (loadsIn cwd' repoRoot evs fun _ => none)
        (filesAfter E repoRoot ch hw []) :=
      Mirrors.loads hroot (fun _ ho => loads_flat hw ho) fun _ _ => ⟨rfl, fun _ hb => by cases hb⟩
    rw [h.parsed hw, h.driven hw, checkReplay, seed_loads {} (loads_scratch hw _)]
    exact replayLines_replayed {} (h.replays hw hroot s.sys.log [] rfl hmirror)

end

end HttpC.L9
