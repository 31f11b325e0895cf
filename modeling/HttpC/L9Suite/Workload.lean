import HttpC.L5Concurrency.Linear
import HttpC.L7Mock.Linear
import HttpC.L9Suite.Run

/-!
# Workloads the suite can judge

`Placed` says of each event of a workload what it may come after and before,
as the workloads of the repository keep to it: a LOAD comes before every
CREATE, an UNLOAD before everything or after every WAIT, ids are fresh, a
connection is used between its CREATE and its one WAIT, and sent its request in
order: the line, the headers and the body in pieces, or all at once. A request
(`Asks`) is a GET, or a PUT of a file of the repository, of a name in the serve
directory.

Such a request is one nothing goes wrong with (`Asks.reads`), so the server's
linearization is about it; `jobs` are the requests of a workload as it wants
them.
-/
namespace HttpC.L9
open HttpC.L1.Util HttpC.L2 HttpC.L3 HttpC.L5 HttpC.L6
open HttpC.L7 (Channel Flat Encoded fileOf_flat)

/-! ## Events in their places -/

/-- `P` of every event, what came before it and what is still to come. -/
def Each (P : List Event → Event → List Event → Prop) : List Event → List Event → Prop
  | _, [] => True
  | past, e :: todo => P past e todo ∧ Each P (past ++ [e]) todo

section
variable {P : List Event → Event → List Event → Prop} {past pre post : List Event} {e : Event}

theorem Each.at (h : Each P past (pre ++ e :: post)) : P (past ++ pre) e post := by
  induction pre generalizing past with
  | nil => simpa using h.1
  | cons x pre ih =>
    have := ih h.2
    rwa [List.append_assoc, List.singleton_append] at this

theorem Each.append (h : Each P past (pre ++ post)) : Each P (past ++ pre) post := by
  induction pre generalizing past with
  | nil => simpa using h
  | cons x pre ih =>
    have := ih h.2
    rwa [List.append_assoc, List.singleton_append] at this

end

section
variable {a b : List Event}

@[simp] theorem creates_append : creates (a ++ b) = creates a ++ creates b := List.filterMap_append

@[simp] theorem creates_create (c : CreateEvent) : creates (.create c :: a) = c :: creates a := rfl

theorem mem_creates {c : CreateEvent} : c ∈ creates a ↔ .create c ∈ a := by
  unfold creates
  rw [List.mem_filterMap]
  constructor
  · intro h
    obtain ⟨e, he, hc⟩ := h
    split at hc
    · cases hc; exact he
    · cases hc
  · intro h
    exact ⟨_, h, rfl⟩

end

/-- The connection of `id` is made and not yet waited for. -/
def Opened (past : List Event) (id : Int64) : Prop :=
  id ∈ (creates past).map CreateEvent.id ∧ .wait id ∉ past

/-- The names LOADed. -/
def loadedNames (evs : List Event) : List Bytes :=
  evs.filterMap fun
    | .load _ outfile => some outfile
    | _ => none

/-- What a workload sends for `id`. -/
def sendsOf (id : Int64) (evs : List Event) : List SendEvent :=
  evs.filterMap fun
    | .sendLine k => if k = id then some .sendLine else none
    | .sendHeaders k => if k = id then some .sendHeaders else none
    | .sendBody k size => if k = id then some (.sendBody (size.map Int64.toInt)) else none
    | .sendAll k => if k = id then some .sendAll else none
    | _ => none

theorem sendsOf_append (id : Int64) (a b : List Event) :
    sendsOf id (a ++ b) = sendsOf id a ++ sendsOf id b := List.filterMap_append

/-- A request the checks know how to replay. -/
structure Asks (repoRoot : RepoRoot) (c : CreateEvent) : Prop where
  method : c.method = ascii "GET" ∧ c.infile = none ∨
    c.method = ascii "PUT" ∧ c.infile.isSome = true
  flat : Flat c.uri
  encoded : ∃ r d, createOf repoRoot c = some r ∧ Encoded {} r d

/-- What an event may come after and before. -/
def Placed (repoRoot : RepoRoot) (past : List Event) (e : Event) (todo : List Event) : Prop :=
  match e with
  | .load infile outfile =>
    creates past = [] ∧ Flat outfile ∧ ∃ bytes, repoRoot infile (1 <<< 30) = .ok bytes
  | .unload file =>
    Flat file ∧ (creates past = [] ∧ file ∉ loadedNames past ∨ ∀ id, .wait id ∉ todo)
  | .sleep _ => True
  | .create c =>
    Asks repoRoot c ∧ c.id ∉ (creates past).map CreateEvent.id ∧ .wait c.id ∈ todo
  | .recvPartial id size => Opened past id ∧ 1 ≤ size
  | .sendLine id | .sendAll id => Opened past id ∧ sendsOf id past = []
  | .sendHeaders id => Opened past id ∧ sendsOf id past = [.sendLine]
  | .sendBody id _ => Opened past id ∧ [.sendLine, .sendHeaders] <+: sendsOf id past
  | .wait id => Opened past id

/-- `readFileAlloc` keeps to its limit. -/
def Limited (repoRoot : RepoRoot) : Prop :=
  ∀ path n bytes, repoRoot path n = .ok bytes → bytes.length ≤ n

/-- The files once the LOADs are done. -/
def loadsIn (cwd : List Bytes) (repoRoot : RepoRoot) : List Event → Files → Files
  | [], files => files
  | .load infile outfile :: evs, files =>
    match repoRoot infile (1 <<< 30) with
    | .ok bytes =>
      loadsIn cwd repoRoot evs (Function.update files (Path.resolve cwd outfile) (some bytes))
    | .error _ => loadsIn cwd repoRoot evs files
  | _ :: evs, files => loadsIn cwd repoRoot evs files

section
variable {repoRoot : RepoRoot} {evs past todo : List Event}

/-- **The ids of a workload are distinct.** -/
theorem ids_nodup (h : Each (Placed repoRoot) past todo)
    (hp : ((creates past).map CreateEvent.id).Nodup) :
    ((creates (past ++ todo)).map CreateEvent.id).Nodup := by
  induction todo generalizing past with
  | nil => simpa using hp
  | cons e todo ih =>
    have hnext : ((creates (past ++ [e])).map CreateEvent.id).Nodup := by
      cases e with
      | create c =>
        rw [creates_append, List.map_append, List.nodup_append]
        refine ⟨hp, by simp [creates], fun x hx y hy => ?_⟩
        have hy' : y = c.id := by simpa [creates] using hy
        rintro rfl
        exact h.1.2.1 (hy' ▸ hx)
      | _ => simpa [creates] using hp
    have := ih h.2 hnext
    rwa [List.append_assoc, List.singleton_append] at this

/-- Who is created is waited for. -/
theorem waited_of_created (h : Each (Placed repoRoot) [] evs) {c : CreateEvent}
    (hc : c ∈ creates evs) : .wait c.id ∈ evs := by
  obtain ⟨pre, post, rfl⟩ := List.append_of_mem (mem_creates.mp hc)
  have := (Each.at h).2.2
  exact List.mem_append_right _ (List.mem_cons_of_mem _ this)

/-- Who is still to be created is still to be waited for. -/
theorem wait_of_create (h : Each (Placed repoRoot) past todo) {c : CreateEvent}
    (hc : .create c ∈ todo) : .wait c.id ∈ todo := by
  obtain ⟨pre, post, rfl⟩ := List.append_of_mem hc
  exact List.mem_append_right _ (List.mem_cons_of_mem _ (Each.at h).2.2)

/-- After the first CREATE nothing is loaded. -/
theorem loadsIn_after {cwd : List Bytes} (h : Each (Placed repoRoot) past todo)
    (hc : creates past ≠ []) (files : Files) : loadsIn cwd repoRoot todo files = files := by
  induction todo generalizing past with
  | nil => rfl
  | cons e todo ih =>
    have hrest := ih h.2 (by simp [hc])
    cases e with
    | load infile outfile => exact absurd h.1.1 hc
    | _ => exact hrest

theorem loadsIn_append {cwd : List Bytes} (files : Files) :
    loadsIn cwd repoRoot (past ++ todo) files =
      loadsIn cwd repoRoot todo (loadsIn cwd repoRoot past files) := by
  induction past generalizing files with
  | nil => rfl
  | cons e past ih =>
    cases e with
    | load infile outfile =>
      simp only [List.cons_append, loadsIn]
      split <;> exact ih _
    | _ => exact ih _

theorem mem_loadedNames {o : Bytes} : o ∈ loadedNames evs ↔ ∃ infile, .load infile o ∈ evs := by
  unfold loadedNames
  rw [List.mem_filterMap]
  constructor
  · intro h
    obtain ⟨e, he, ho⟩ := h
    split at ho
    · rename_i infile outfile
      cases ho
      exact ⟨infile, he⟩
    · cases ho
  · intro h
    obtain ⟨infile, he⟩ := h
    exact ⟨_, he, rfl⟩

theorem loads_flat (h : Each (Placed repoRoot) [] evs) {o : Bytes} (ho : o ∈ loadedNames evs) :
    Flat o := by
  obtain ⟨infile, he⟩ := mem_loadedNames.mp ho
  obtain ⟨pre, post, rfl⟩ := List.append_of_mem he
  exact (Each.at h).2.1

theorem resolve_flat (cwd : List Bytes) {name : Bytes} (h : Flat name) :
    Path.resolve cwd name = cwd ++ [name] := fileOf_flat ⟨cwd, 0, 0⟩ h

/-- What was not loaded is not there. -/
theorem loadsIn_other {cwd : List Bytes} {name : Bytes} (hn : Flat name) (h : name ∉ loadedNames past)
    (hflat : ∀ o ∈ loadedNames past, Flat o) (files : Files) :
    loadsIn cwd repoRoot past files (Path.resolve cwd name) = files (Path.resolve cwd name) := by
  induction past generalizing files with
  | nil => rfl
  | cons e past ih =>
    cases e with
    | load infile outfile =>
      have hne : outfile ≠ name := fun he => h (by rw [← he]; exact List.mem_cons_self)
      have hrest := ih (fun hm => h (List.mem_cons_of_mem _ hm))
        (fun o ho => hflat o (List.mem_cons_of_mem _ ho))
      cases hr : repoRoot infile (1 <<< 30) with
      | error e => simpa only [loadsIn, hr] using hrest _
      | ok bytes =>
        simp only [loadsIn, hr]
        rw [hrest, Function.update_of_ne]
        rw [resolve_flat cwd hn, resolve_flat cwd (hflat outfile List.mem_cons_self)]
        simpa using Ne.symm hne
    | _ => exact ih h hflat files

end

/-! ## Requests -/

section
variable {repoRoot : RepoRoot} {c : CreateEvent} {k : Channel}

/-- A CREATE keeps its fields. -/
theorem createOf_fields {r : Create} (h : createOf repoRoot c = some r) :
    r.id = c.id ∧ r.method = c.method ∧ r.uri = c.uri ∧
      ∀ infile, c.infile = some infile →
        ∃ bytes, repoRoot infile (1 <<< 30) = .ok bytes ∧ r.infile = some bytes := by
  unfold createOf at h
  cases hi : c.infile with
  | none =>
    rw [hi] at h
    cases h
    exact ⟨rfl, rfl, rfl, fun _ h => by cases h⟩
  | some infile =>
    rw [hi] at h
    simp only at h
    split at h
    · rename_i bytes hr
      cases h
      refine ⟨rfl, rfl, rfl, fun _ h => ?_⟩
      cases h
      exact ⟨bytes, hr, rfl⟩
    · cases h

/-- The connection it makes, with nothing sent yet. -/
theorem Asks.made (h : Asks repoRoot c) :
    ∃ d, connOf repoRoot c = some d ∧ d.sent = 0 ∧ d.wire = [] := by
  obtain ⟨r, d, hr, he⟩ := h.encoded
  obtain ⟨gs, -, hb⟩ := doCreate_built he.built he.host
  exact ⟨d, by rw [connOf, hr]; exact he.built, hb.fresh⟩

theorem Asks.uriOk (h : Asks repoRoot c) : UriOk c.uri := by
  obtain ⟨r, d, hr, he⟩ := h.encoded
  rw [← (createOf_fields hr).2.2.1]
  exact he.uri

/-- What the server reads of a request. -/
structure Reads (c : CreateEvent) (k : Channel) (repoRoot : RepoRoot) (d : DriverConn)
    (conn : Conn UInt8) (rest : Src UInt8) : Prop where
  made : connOf repoRoot c = some d
  sound : Sound (incomingOf repoRoot c k) conn rest
  method : requestGetStr conn.request = c.method
  uri : conn.uri = c.uri
  id : conn.requestId = decimalInt c.id.toInt
  body : leftover conn ++ rest.pending.take (remaining conn) = d.body
  file : ∀ infile, c.infile = some infile → repoRoot infile (1 <<< 30) = .ok d.body
  /-- The request line and the headers are read before anything is done. -/
  head : rest.pending.length ≤ d.body.length
  headers : d.headers ≠ []

/-- **A request of a workload is sound**, however its bytes come and go. -/
theorem Asks.reads (h : Asks repoRoot c) (k : Channel) : ∃ d conn rest, Reads c k repoRoot d conn rest := by
  obtain ⟨r, d, hr, he⟩ := h.encoded
  obtain ⟨hid, hm, hu, hfile⟩ := createOf_fields hr
  have hd : connOf repoRoot c = some d := by rw [connOf, hr]; exact he.built
  have hbody : d.body = r.infile.getD [] := (createBody_spec (doCreate_eq he.built).1).1
  obtain ⟨gs, -, hb⟩ := doCreate_built he.built he.host
  obtain ⟨conn, rest, hp, hreq, huri, hrid, hlen, hrecv⟩ := create_parses he.built he.host he.method
    he.uri k.arrives_cut fun b _ _ hb => noField_of_noFit hb he.body
  obtain ⟨-, buf, q, hread, -⟩ := connParse_none hp
  have hcut : Cut rest.script := k.arrives_cut.suffix (readUntil_ok hread).2.2
  -- the body is what is left in the buffer and the rest of the stream
  obtain ⟨t, ht, -, -, hall⟩ := connRecvFile_spec conn rest ⟨[], []⟩
  obtain ⟨-, hq, -⟩ := hall hcut (by decide)
  have hstored : leftover conn ++ rest.pending.take (remaining conn) = d.body := by
    have := (hrecv [] (by decide)).2
    rw [ht, List.nil_append, hq] at this
    rw [this, hbody]
  have hwhole : remaining conn ≤ rest.pending.length := by
    have := congrArg List.length hstored
    simp only [List.length_append, List.length_take] at this
    rw [remaining, hlen, ← hbody] at this ⊢
    omega
  have hhead : rest.pending.length ≤ d.body.length := by
    obtain ⟨hblock, hle⟩ := hb.block (requestLineOf_ok he.method he.uri)
    obtain ⟨buf', s', b, h1, h2, h3, -⟩ := readUntil_block
      (s := ⟨d.requestLine ++ d.headers ++ d.body, k.arrives⟩) hblock hle (octets_self _) k.arrives_cut
    rw [h1] at hread
    cases hread
    have := congrArg List.length h2
    rw [octets_self] at h3
    rw [h3] at this
    simp only [List.length_append] at this
    omega
  refine ⟨d, conn, rest, hd, ?_, ?_, ?_, ?_, hstored, ?_, hhead, by rw [hb.headers]; simp⟩
  · refine ⟨rfl, ?_, ?_, k.arrives_cut, k.sock_writes, k.file_reads, k.file_writes, fun _ => hwhole⟩
    · rw [incomingOf, hd]; exact hp
    · rcases he.method with hm | hm <;> rw [hm] at hreq
      · left; cases hc : conn.request <;> rw [hc] at hreq <;> first | rfl | (revert hreq; decide)
      · right; cases hc : conn.request <;> rw [hc] at hreq <;> first | rfl | (revert hreq; decide)
  · rw [hreq, hm]
  · rw [huri, hu]
  · rw [hrid, hid]
  · intro infile hi
    obtain ⟨bytes, hbytes, hri⟩ := hfile infile hi
    rw [hbytes, hbody, hri]
    rfl

end

/-- A request nothing goes wrong with, parsed. -/
def jobOf (q : Incoming) (h : ∃ c rest, Sound q c rest) : Job where
  incoming := q
  conn := (connParse .ok q.client).2.1
  rest := (connParse .ok q.client).2.2
  sound := by
    obtain ⟨c, rest, hs⟩ := h
    rw [hs.parsed]
    exact hs

section
variable {repoRoot : RepoRoot} {evs : List Event} {ch : Fin (creates evs).length → Channel}

theorem asks (h : Each (Placed repoRoot) [] evs) (i : Fin (creates evs).length) :
    Asks repoRoot ((creates evs).get i) := by
  obtain ⟨pre, post, he⟩ := List.append_of_mem (mem_creates.mp (List.get_mem (creates evs) i))
  rw [he] at h
  exact (Each.at h).1

/-- The requests of a workload. -/
def jobs (ch : Fin (creates evs).length → Channel) (h : Each (Placed repoRoot) [] evs)
    (i : Fin (creates evs).length) : Job :=
  jobOf (requests repoRoot evs ch i) (by
    obtain ⟨d, conn, rest, hr⟩ := (asks h i).reads (ch i)
    exact ⟨conn, rest, hr.sound⟩)

theorem job_reads (ch : Fin (creates evs).length → Channel) (h : Each (Placed repoRoot) [] evs)
    (i : Fin (creates evs).length) :
    ∃ d, Reads ((creates evs).get i) (ch i) repoRoot d (jobs ch h i).conn (jobs ch h i).rest := by
  obtain ⟨d, conn, rest, hr⟩ := (asks h i).reads (ch i)
  have hp := hr.sound.parsed
  refine ⟨d, ?_⟩
  have e : (jobs ch h i).conn = conn ∧ (jobs ch h i).rest = rest := by
    simp only [jobs, jobOf, requests, hp, and_self]
  rw [e.1, e.2]
  exact hr

/-- A request that is done is in the log, once. -/
theorem jobs_logged {E : Env} {files : Files} {t : Sys (creates evs).length}
    (h : Each (Placed repoRoot) [] evs)
    (hs : (server E (requests repoRoot evs ch) files).Reachable t) {i : Fin (creates evs).length}
    (hd : (t.workers i).pc = .done) : ∃ l, t.linesOf i = [l] := by
  have hs' : (server E (fun i => (jobs ch h i).incoming) files).Reachable t := hs
  exact logged_once hs' i hd

/-- Different URIs name different files. -/
theorem jobs_distinct (E : Env) (h : Each (Placed repoRoot) [] evs) : Distinct E (jobs ch h) := by
  intro i j hne
  obtain ⟨d, hi⟩ := job_reads ch h i
  obtain ⟨d', hj⟩ := job_reads ch h j
  rw [fileAt, fileAt, hi.uri, hj.uri, fileOf_flat E (asks h i).flat, fileOf_flat E (asks h j).flat]
  intro he
  rw [hi.uri, hj.uri] at hne
  exact hne (by simpa using he)

end

end HttpC.L9
