import HttpC.L6Harness.AuditLog
import HttpC.L6Harness.Receive

/-!
# The checks on the audit log

`checkOrdering` and `checkReplay` of `ztest/src/audit.zig`, and the verdict
`runOne` of `ztest/src/main.zig` makes of them. Directories are a parameter
(`Dir`): the checks see a file system only through `readFileAlloc`,
`writeFile` and `access`.

What a green verdict says is about the lines that are there: each belongs to a
CREATE, comes after the lines of every request that had finished by then
(`orderLines_ok`, `happened_create`), and repeats the method and the observed body of its
request when replayed at its place (`checkReplay_ok`).
-/
namespace HttpC.L6
open HttpC.Text

/-! ## Workloads -/

/-- `infile` is a path under the repository's root.
mirrors ztest/src/events.zig:18-24 -/
structure CreateEvent where
  id : Int64
  method : Bytes
  uri : Bytes
  infile : Option Bytes
  deriving DecidableEq, Repr

/-- mirrors ztest/src/events.zig:26-37 -/
inductive Event where
  | load (infile outfile : Bytes)
  | unload (file : Bytes)
  | sleep (seconds : Nat)
  | create (c : CreateEvent)
  | sendLine (id : Int64)
  | sendHeaders (id : Int64)
  | sendBody (id : Int64) (size : Option Int64)
  | sendAll (id : Int64)
  | recvPartial (id : Int64) (size : Nat)
  | wait (id : Int64)
  deriving DecidableEq, Repr

/-- mirrors ztest/src/events.zig:109-115 -/
def findCreate (evs : List Event) (rid : Int64) : Option CreateEvent :=
  evs.findSome? fun
    | .create c => if c.id = rid then some c else none
    | _ => none

/-- mirrors ztest/src/main.zig:282-290 -/
def filterDrivenOps (ops : List Op) : List Op :=
  ops.filter fun op => op.oper = ascii "GET" || op.oper = ascii "PUT"

/-! ## Ordering -/

/-- `seen_ids` is where `happened` is defined. A hash map's order of keys
shows only in the order of the messages.
mirrors ztest/src/audit.zig:88-98 -/
structure Order where
  happened : Int64 → Option (List Int64) := fun _ => none
  finished : List Int64 := []

/-- mirrors ztest/src/audit.zig:100-112 -/
def Order.event (o : Order) : Event → Order
  | .create c =>
    if (o.happened c.id).isSome then o
    else { o with happened := put o.happened c.id o.finished }
  | .wait id => { o with finished := o.finished.insert id }
  | _ => o

def orderOf (evs : List Event) : Order := evs.foldl Order.event {}

/-- mirrors ztest/src/audit.zig:116-126 -/
def orderLine (o : Order) (i : Nat) (op : Op) (logged : List Int64) (r : Result) :
    List Int64 × Result :=
  let line := ascii "audit log line " ++ decimal (i + 1)
  let rid := decimalInt op.rid.toInt
  match o.happened op.rid with
  | none =>
    (logged, r.fail (line ++ ascii ": request id " ++ rid ++
      ascii " was never CREATEd by this workload"))
  | some snap =>
    (logged.insert op.rid, (snap.filter (· ∉ logged)).foldl (fun r k =>
      r.fail (line ++ ascii " (rid " ++ rid ++ ascii "): request " ++ decimalInt k.toInt ++
        ascii " must have been logged first (it finished before rid " ++ rid ++
        ascii " even connected), but wasn't yet")) r)

def orderLines (o : Order) : Nat → List Op → List Int64 → Result → Result
  | _, [], _, r => r
  | i, op :: ops, logged, r =>
    orderLines o (i + 1) ops (orderLine o i op logged r).1 (orderLine o i op logged r).2

/-- mirrors ztest/src/audit.zig:82-130 -/
def checkOrdering (evs : List Event) (ops : List Op) : Result :=
  orderLines (orderOf evs) 0 ops [] {}

/-! ## Replay -/

/-- The errors of `readFileAlloc` the check tells apart; `{t}` prints the name. -/
inductive ReadError where
  | fileNotFound
  | other (name : Bytes)
  deriving DecidableEq, Repr

def ReadError.name : ReadError → Bytes
  | .fileNotFound => ascii "FileNotFound"
  | .other name => name

/-- What `std.fs.Dir` offers the checks. -/
structure Dir (σ : Type) where
  readFileAlloc : σ → Bytes → Nat → Except ReadError Bytes
  writeFile : σ → Bytes → Bytes → Option σ
  access : σ → Bytes → Bool

section Replay
variable {σ : Type} (D : Dir σ) (repoRoot : Bytes → Nat → Except ReadError Bytes)
  (excerpt : Bytes → Bytes) (evs : List Event) (responses : Int64 → Option Bytes)

/-- `none` is the error `writeFile` returns.
mirrors ztest/src/audit.zig:154-164 -/
def seed : List Event → σ → Result → Option (σ × Result)
  | [], d, r => some (d, r)
  | .load infile outfile :: evs, d, r =>
    match repoRoot infile (1 <<< 30) with
    | .error e =>
      seed evs d (r.fail (ascii "LOAD " ++ infile ++ ascii ": couldn't read from repo: " ++ e.name))
    | .ok bytes => (D.writeFile d outfile bytes).bind fun d => seed evs d r
  | _ :: evs, d, r => seed evs d r

/-- `excerpt` is `{any}` of `std.zig.fmtString`.
mirrors ztest/src/audit.zig:206-223 -/
def compareBody (line : Bytes) (op : Op) (c : CreateEvent) (expected : Bytes) (r : Result) : Result :=
  match responses op.rid with
  | none =>
    r.fail (line ++ ascii ": no recorded response body to compare against (WAIT never ran?)")
  | some actual =>
    if expected = actual then r
    else r.fail (line ++ ascii ": replay of " ++ c.method ++ ascii " " ++ c.uri ++
      ascii " expected body " ++ excerpt (expected.take 64) ++ ascii " (len " ++
      decimal expected.length ++ ascii ") but driver observed " ++ excerpt (actual.take 64) ++
      ascii " (len " ++ decimal actual.length ++ ascii ")")

/-- mirrors ztest/src/audit.zig:166-224 -/
def replayLine (i : Nat) (op : Op) (d : σ) (r : Result) : Option (σ × Result) :=
  let line := ascii "audit line " ++ decimal (i + 1) ++ ascii " (rid " ++
    decimalInt op.rid.toInt ++ ascii ")"
  match findCreate evs op.rid with
  | none => some (d, r)
  | some c =>
    let r :=
      if op.oper = c.method then r
      else r.fail (line ++ ascii ": Oper field is " ++ op.oper ++
        ascii ", expected the request method " ++ c.method)
    if c.method = ascii "GET" then
      match D.readFileAlloc d c.uri (1 <<< 30) with
      | .ok bytes => some (d, compareBody excerpt responses line op c bytes r)
      | .error .fileNotFound =>
        some (d, compareBody excerpt responses line op c (ascii "Not Found\n") r)
      | .error (.other name) =>
        some (d, r.fail (line ++ ascii ": replay GET " ++ c.uri ++ ascii " failed: " ++ name))
    else if c.method = ascii "PUT" then
      let infile := c.infile.getD []
      let expected := if D.access d c.uri then ascii "OK\n" else ascii "Created\n"
      match repoRoot infile (1 <<< 30) with
      | .error e =>
        some (d, r.fail (line ++ ascii ": PUT infile " ++ infile ++ ascii " couldn't be read: " ++
          e.name))
      | .ok bytes =>
        (D.writeFile d c.uri bytes).map fun d =>
          (d, compareBody excerpt responses line op c expected r)
    else some (d, r)

def replayLines : Nat → List Op → σ → Result → Option Result
  | _, [], _, r => some r
  | i, op :: ops, d, r =>
    (replayLine D repoRoot excerpt evs responses i op d r).bind fun p =>
      replayLines (i + 1) ops p.1 p.2

/-- `fresh` is the empty scratch directory.
mirrors ztest/src/audit.zig:139-227 -/
def checkReplay (fresh : σ) (ops : List Op) : Option Result :=
  (seed D repoRoot evs fresh {}).bind fun p =>
    replayLines D repoRoot excerpt evs responses 0 ops p.1 p.2

/-- All three checks report ok.
mirrors ztest/src/main.zig:254-265 -/
def Green (fresh : σ) (text : Bytes) : Prop :=
  (parseAuditLog text).2.ok = true ∧
    (checkOrdering evs (filterDrivenOps (parseAuditLog text).1)).ok = true ∧
    ∃ r, checkReplay D repoRoot excerpt evs responses fresh
      (filterDrivenOps (parseAuditLog text).1) = some r ∧ r.ok = true

end Replay

/-! ## What the checks establish -/

@[simp] theorem fail_ok (r : Result) (m : Bytes) : (r.fail m).ok = false := rfl

/-- Reporting something for each of `ks` leaves ok only if there are none. -/
theorem foldl_fail_ok (msg : Int64 → Bytes) (ks : List Int64) (r : Result) :
    (ks.foldl (fun r k => r.fail (msg k)) r).ok = true ↔ r.ok = true ∧ ks = [] := by
  induction ks generalizing r with
  | nil => simp
  | cons k ks ih => simp [ih]

section Ordering
variable {o : Order}

/-- `op` may stand where `logged` was logged before. -/
def Order.Allows (o : Order) (logged : List Int64) (op : Op) : Prop :=
  ∃ snap, o.happened op.rid = some snap ∧ ∀ k ∈ snap, k ∈ logged

theorem orderLine_ok (i : Nat) (op : Op) (logged : List Int64) (r : Result) :
    (orderLine o i op logged r).2.ok = true ↔ r.ok = true ∧ o.Allows logged op := by
  unfold orderLine Order.Allows
  cases o.happened op.rid with
  | none => simp
  | some snap => simp [foldl_fail_ok, List.filter_eq_nil_iff]

theorem orderLine_logged {i : Nat} {op : Op} {logged : List Int64} {r : Result}
    (h : o.Allows logged op) : (orderLine o i op logged r).1 = logged.insert op.rid := by
  obtain ⟨snap, hs, -⟩ := h
  simp [orderLine, hs]

theorem Order.Allows.congr {l l' : List Int64} {op : Op} (h : ∀ k, k ∈ l ↔ k ∈ l') :
    o.Allows l op ↔ o.Allows l' op := by
  simp only [Order.Allows, h]

/-- Line by line: each is allowed by the lines before it. -/
theorem orderLines_ok (i : Nat) (ops : List Op) (logged : List Int64) (r : Result) :
    (orderLines o i ops logged r).ok = true ↔
      r.ok = true ∧ ∀ pre op post, ops = pre ++ op :: post →
        o.Allows (logged ++ pre.map Op.rid) op := by
  induction ops generalizing i logged r with
  | nil => simp [orderLines]
  | cons op ops ih =>
    have hmem : ∀ (pre : List Op) (k : Int64), k ∈ logged.insert op.rid ++ pre.map Op.rid ↔
        k ∈ logged ++ (op :: pre).map Op.rid := by
      intro pre k
      simp only [List.mem_append, List.mem_insert_iff, List.map_cons, List.mem_cons]
      tauto
    rw [orderLines, ih, orderLine_ok]
    constructor
    · intro h
      obtain ⟨⟨hr, hop⟩, hrest⟩ := h
      refine ⟨hr, fun pre op' post he => ?_⟩
      cases pre with
      | nil =>
        obtain ⟨rfl, -⟩ := List.cons_eq_cons.mp he
        simpa using hop
      | cons x pre =>
        obtain ⟨rfl, he'⟩ := List.cons_eq_cons.mp he
        have := hrest pre op' post he'
        rw [orderLine_logged hop] at this
        exact (Order.Allows.congr (hmem pre)).mp this
    · intro h
      obtain ⟨hr, hall⟩ := h
      have hop : o.Allows logged op := by simpa using hall [] op ops rfl
      refine ⟨⟨hr, hop⟩, fun pre op' post he => ?_⟩
      rw [orderLine_logged hop]
      exact (Order.Allows.congr (hmem pre)).mpr (hall (op :: pre) op' post (by rw [he]; rfl))

/-- Once an id has a snapshot it keeps it. -/
theorem happened_event (e : Event) {id : Int64} {snap : List Int64}
    (h : o.happened id = some snap) : (o.event e).happened id = some snap := by
  cases e with
  | create c =>
    simp only [Order.event]
    split
    · exact h
    · rename_i hc
      have hne : id ≠ c.id := by
        intro hh
        subst hh
        exact hc (by rw [h]; rfl)
      simp [put, hne, h]
  | _ => exact h

theorem happened_foldl (evs : List Event) {id : Int64} {snap : List Int64}
    (h : o.happened id = some snap) : (evs.foldl Order.event o).happened id = some snap := by
  induction evs generalizing o with
  | nil => exact h
  | cons e evs ih => exact ih (happened_event e h)

/-- Before its CREATE an id has none. -/
theorem not_happened {evs : List Event} {id : Int64} (h : findCreate evs id = none)
    (h0 : o.happened id = none) : (evs.foldl Order.event o).happened id = none := by
  induction evs generalizing o with
  | nil => exact h0
  | cons e evs ih =>
    unfold findCreate at h
    rw [List.findSome?_cons] at h
    split at h
    · cases h
    · rename_i he
      apply ih h
      cases e with
      | create c =>
        have hne : c.id ≠ id := fun heq => by simp [heq] at he
        simp only [Order.event]
        split
        · exact h0
        · simp [put, Ne.symm hne, h0]
      | _ => exact h0

/-- `finished` holds the ids waited for. -/
theorem mem_finished (evs : List Event) (k : Int64) :
    k ∈ (evs.foldl Order.event o).finished ↔ k ∈ o.finished ∨ .wait k ∈ evs := by
  induction evs generalizing o with
  | nil => simp
  | cons e evs ih =>
    rw [List.foldl_cons, ih]
    have hf : k ∈ (o.event e).finished ↔ k ∈ o.finished ∨ e = .wait k := by
      cases e with
      | create c =>
        simp only [Order.event, reduceCtorEq, or_false]
        split <;> rfl
      | wait id =>
        simp only [Order.event, List.mem_insert_iff, Event.wait.injEq]
        tauto
      | _ => simp [Order.event]
    rw [hf, List.mem_cons, or_assoc, @eq_comm _ e]

/-- The snapshot of an id: what was waited for before its CREATE. -/
theorem happened_create {pre : List Event} (post : List Event) {c : CreateEvent}
    (h : findCreate pre c.id = none) :
    ∃ snap, (orderOf (pre ++ .create c :: post)).happened c.id = some snap ∧
      ∀ k, k ∈ snap ↔ .wait k ∈ pre := by
  have h0 : (pre.foldl Order.event {}).happened c.id = none := not_happened h rfl
  refine ⟨(pre.foldl Order.event {}).finished, ?_, fun k => ?_⟩
  · rw [orderOf, List.foldl_append, List.foldl_cons]
    apply happened_foldl post
    simp [Order.event, h0, put]
  · simp [mem_finished]

end Ordering

section Replay
variable {σ : Type} {D : Dir σ} {repoRoot : Bytes → Nat → Except ReadError Bytes}
  {excerpt : Bytes → Bytes} {evs : List Event} {responses : Int64 → Option Bytes}

/-- Every LOAD can be read from the repository and stored. -/
def Loads (D : Dir σ) (repoRoot : Bytes → Nat → Except ReadError Bytes) : σ → List Event → σ → Prop
  | d, [], d' => d = d'
  | d, .load infile outfile :: evs, d' => ∃ bytes d₁, repoRoot infile (1 <<< 30) = .ok bytes ∧
      D.writeFile d outfile bytes = some d₁ ∧ Loads D repoRoot d₁ evs d'
  | d, _ :: evs, d' => Loads D repoRoot d evs d'

/-- Replayed at `d`, the line repeats the method and the observed body of its
request, and leads to `d'`. -/
inductive Repeats (D : Dir σ) (repoRoot : Bytes → Nat → Except ReadError Bytes)
    (evs : List Event) (responses : Int64 → Option Bytes) (d : σ) (op : Op) : σ → Prop where
  | get {c : CreateEvent} {body : Bytes} : findCreate evs op.rid = some c →
      op.oper = c.method → c.method = ascii "GET" →
      D.readFileAlloc d c.uri (1 <<< 30) = .ok body ∨
        D.readFileAlloc d c.uri (1 <<< 30) = .error .fileNotFound ∧ body = ascii "Not Found\n" →
      responses op.rid = some body → Repeats D repoRoot evs responses d op d
  | put {c : CreateEvent} {bytes : Bytes} {d' : σ} : findCreate evs op.rid = some c →
      op.oper = c.method → c.method = ascii "PUT" →
      repoRoot (c.infile.getD []) (1 <<< 30) = .ok bytes → D.writeFile d c.uri bytes = some d' →
      responses op.rid = some (if D.access d c.uri then ascii "OK\n" else ascii "Created\n") →
      Repeats D repoRoot evs responses d op d'
  | other : (∀ c, findCreate evs op.rid = some c → op.oper = c.method ∧
      c.method ≠ ascii "GET" ∧ c.method ≠ ascii "PUT") → Repeats D repoRoot evs responses d op d

theorem seed_ok {l : List Event} {d d' : σ} {r r' : Result}
    (h : seed D repoRoot l d r = some (d', r')) (hok : r'.ok = true) :
    r.ok = true ∧ Loads D repoRoot d l d' := by
  induction l generalizing d r with
  | nil =>
    cases h
    exact ⟨hok, rfl⟩
  | cons e l ih =>
    cases e with
    | load infile outfile =>
      simp only [seed] at h
      split at h
      · have := (ih h).1
        cases this
      · rename_i bytes hread
        obtain ⟨d₁, hw, h⟩ := Option.bind_eq_some_iff.mp h
        obtain ⟨hr, hl⟩ := ih h
        exact ⟨hr, bytes, d₁, hread, hw, hl⟩
    | _ => exact ih h

theorem seed_loads {l : List Event} {d d' : σ} (r : Result) (h : Loads D repoRoot d l d') :
    seed D repoRoot l d r = some (d', r) := by
  induction l generalizing d with
  | nil => cases h; rfl
  | cons e l ih =>
    cases e with
    | load infile outfile =>
      obtain ⟨bytes, d₁, hread, hw, hl⟩ := h
      simp only [seed, hread, hw, Option.bind_some]
      exact ih hl
    | _ => exact ih h

theorem compareBody_ok {line : Bytes} {op : Op} {c : CreateEvent} {expected : Bytes} {r : Result}
    (h : (compareBody excerpt responses line op c expected r).ok = true) :
    r.ok = true ∧ responses op.rid = some expected := by
  unfold compareBody at h
  split at h
  · cases h
  · rename_i actual hres
    split at h
    · rename_i he
      subst he
      exact ⟨h, hres⟩
    · cases h

theorem replayLine_ok {i : Nat} {op : Op} {d d' : σ} {r r' : Result}
    (h : replayLine D repoRoot excerpt evs responses i op d r = some (d', r'))
    (hok : r'.ok = true) : r.ok = true ∧ Repeats D repoRoot evs responses d op d' := by
  unfold replayLine at h
  simp only at h
  cases hc : findCreate evs op.rid with
  | none =>
    rw [hc] at h
    cases h
    exact ⟨hok, .other (by simp [hc])⟩
  | some c =>
    rw [hc] at h
    simp only at h
    -- the check of the method, whatever comes after it
    have hoper : ∀ {m : Bytes}, (if op.oper = c.method then r else r.fail m).ok = true →
        op.oper = c.method ∧ r.ok = true := by
      intro m hm
      split at hm
      · rename_i he; exact ⟨he, hm⟩
      · cases hm
    split at h
    · rename_i hget
      split at h
      · rename_i bytes hread
        cases h
        obtain ⟨hr, hres⟩ := compareBody_ok hok
        obtain ⟨ho, hr⟩ := hoper hr
        exact ⟨hr, .get hc ho hget (.inl hread) hres⟩
      · rename_i hread
        cases h
        obtain ⟨hr, hres⟩ := compareBody_ok hok
        obtain ⟨ho, hr⟩ := hoper hr
        exact ⟨hr, .get hc ho hget (.inr ⟨hread, rfl⟩) hres⟩
      · cases h
        cases hok
    · rename_i hget
      split at h
      · rename_i hput
        split at h
        · cases h
          cases hok
        · rename_i bytes hread
          obtain ⟨d₁, hw, heq⟩ := Option.map_eq_some_iff.mp h
          cases heq
          obtain ⟨hr, hres⟩ := compareBody_ok hok
          obtain ⟨ho, hr⟩ := hoper hr
          exact ⟨hr, .put hc ho hput hread hw hres⟩
      · rename_i hput
        cases h
        obtain ⟨ho, hr⟩ := hoper hok
        refine ⟨hr, .other fun c' hc' => ?_⟩
        rw [hc] at hc'
        cases hc'
        exact ⟨ho, hget, hput⟩

/-- A log replayed line by line. -/
inductive Replayed (D : Dir σ) (repoRoot : Bytes → Nat → Except ReadError Bytes)
    (evs : List Event) (responses : Int64 → Option Bytes) : σ → List Op → Prop where
  | nil {d : σ} : Replayed D repoRoot evs responses d []
  | cons {d d' : σ} {op : Op} {ops : List Op} : Repeats D repoRoot evs responses d op d' →
      Replayed D repoRoot evs responses d' ops → Replayed D repoRoot evs responses d (op :: ops)

theorem replayLines_ok {i : Nat} {ops : List Op} {d : σ} {r r' : Result}
    (h : replayLines D repoRoot excerpt evs responses i ops d r = some r') (hok : r'.ok = true) :
    r.ok = true ∧ Replayed D repoRoot evs responses d ops := by
  induction ops generalizing i d r with
  | nil =>
    cases h
    exact ⟨hok, .nil⟩
  | cons op ops ih =>
    obtain ⟨⟨d', r₁⟩, hline, h⟩ := Option.bind_eq_some_iff.mp h
    obtain ⟨hr₁, hrest⟩ := ih h
    obtain ⟨hr, hop⟩ := replayLine_ok hline hr₁
    exact ⟨hr, .cons hop hrest⟩

/-- **What `checkReplay` establishes.** -/
theorem checkReplay_ok {fresh : σ} {ops : List Op} {r : Result}
    (h : checkReplay D repoRoot excerpt evs responses fresh ops = some r) (hok : r.ok = true) :
    ∃ d, Loads D repoRoot fresh evs d ∧ Replayed D repoRoot evs responses d ops := by
  obtain ⟨⟨d, r₁⟩, hseed, h⟩ := Option.bind_eq_some_iff.mp h
  obtain ⟨hr₁, hreplay⟩ := replayLines_ok h hok
  exact ⟨d, (seed_ok hseed hr₁).2, hreplay⟩

end Replay

end HttpC.L6
