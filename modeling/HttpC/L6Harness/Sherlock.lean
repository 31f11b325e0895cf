import HttpC.L6Harness.Check

/-!
# `checkOrdering` and the older `sherlock.py`

`test_scripts/sherlock.py:143-172` reads the same question from the driver's
log: CONNECT where the workload has CREATE, WAIT where it has WAIT. Its ids
are Python integers; `AssertionError` and `KeyError` are `none`.

* `checkOrdering_iff`: the log is a linear extension, position by position.
* `partiallyOrder_simulates`: both first passes keep the same tables.
* `checkOrdering_decides`: both, with the equal verdicts.
-/
namespace HttpC.L6

/-! ## Linear extensions -/

/-- A WAIT for `r` stands before the first CREATE of `id`. -/
def WaitedBefore (evs : List Event) (r id : Int64) : Prop :=
  ∃ pre c post, evs = pre ++ .create c :: post ∧ c.id = id ∧ findCreate pre id = none ∧
    .wait r ∈ pre

def Created (evs : List Event) (id : Int64) : Prop := ∃ c, .create c ∈ evs ∧ c.id = id

theorem findCreate_none_iff (evs : List Event) (id : Int64) :
    findCreate evs id = none ↔ ¬ Created evs id := by
  unfold findCreate Created
  rw [List.findSome?_eq_none_iff]
  constructor
  · intro h hc
    obtain ⟨c, hc, rfl⟩ := hc
    simpa using h _ hc
  · intro h e he
    cases e with
    | create c =>
      have hne : c.id ≠ id := fun hid => h ⟨c, he, hid⟩
      simp [hne]
    | _ => rfl

/-- The first CREATE of an id splits the workload. -/
theorem Created.first {evs : List Event} {id : Int64} (h : Created evs id) :
    ∃ pre c post, evs = pre ++ .create c :: post ∧ c.id = id ∧ findCreate pre id = none := by
  cases hf : findCreate evs id with
  | none => exact absurd h ((findCreate_none_iff evs id).mp hf)
  | some c =>
    obtain ⟨pre, e, post, rfl, he, hpre⟩ := List.findSome?_eq_some_iff.mp hf
    have hnone : findCreate pre id = none := List.findSome?_eq_none_iff.mpr hpre
    cases e with
    | create c' =>
      simp only [Option.ite_none_right_eq_some] at he
      exact ⟨pre, c', post, rfl, he.1, hnone⟩
    | _ => cases he

/-- An id has a snapshot once it is created. -/
theorem happened_none_iff (evs : List Event) (id : Int64) :
    (orderOf evs).happened id = none ↔ ¬ Created evs id := by
  constructor
  · intro h hc
    obtain ⟨pre, c, post, rfl, rfl, hnone⟩ := hc.first
    obtain ⟨snap, hsnap, -⟩ := happened_create post hnone
    rw [h] at hsnap
    cases hsnap
  · intro hc
    exact not_happened ((findCreate_none_iff evs id).mpr hc) rfl

/-- The snapshot holds the ids waited for before. -/
theorem mem_snap_iff {evs : List Event} {id : Int64} {snap : List Int64}
    (h : (orderOf evs).happened id = some snap) (r : Int64) :
    r ∈ snap ↔ WaitedBefore evs r id := by
  constructor
  · intro hr
    have hc : Created evs id := by
      by_contra hc
      rw [(happened_none_iff evs id).mpr hc] at h
      cases h
    obtain ⟨pre, c, post, rfl, rfl, hnone⟩ := hc.first
    obtain ⟨snap', hsnap', hmem⟩ := happened_create post hnone
    rw [h, Option.some.injEq] at hsnap'
    subst hsnap'
    exact ⟨pre, c, post, rfl, rfl, hnone, (hmem r).mp hr⟩
  · intro hr
    obtain ⟨pre, c, post, rfl, rfl, hnone, hw⟩ := hr
    obtain ⟨snap', hsnap', hmem⟩ := happened_create post hnone
    rw [h, Option.some.injEq] at hsnap'
    subst hsnap'
    exact (hmem r).mpr hw

/-- A line is allowed when its id was created and every id waited for before
that has been logged. -/
theorem allows_iff (evs : List Event) (logged : List Int64) (op : Op) :
    (orderOf evs).Allows logged op ↔
      Created evs op.rid ∧ ∀ r, WaitedBefore evs r op.rid → r ∈ logged := by
  unfold Order.Allows
  cases hh : (orderOf evs).happened op.rid with
  | none =>
    have hc := (happened_none_iff evs op.rid).mp hh
    simp [hc]
  | some snap =>
    have hc : Created evs op.rid := by
      by_contra hc
      rw [(happened_none_iff evs op.rid).mpr hc] at hh
      cases hh
    simp [hc, mem_snap_iff hh]

/-- Splits of a list at an entry, by its position. -/
theorem forall_split_iff {α : Type} (l : List α) (P : List α → α → Prop) :
    (∀ pre x post, l = pre ++ x :: post → P pre x) ↔ ∀ (i : Nat) x, l[i]? = some x → P (l.take i) x := by
  constructor
  · intro h i x hx
    obtain ⟨hi, rfl⟩ := List.getElem?_eq_some_iff.mp hx
    apply h _ _ (l.drop (i + 1))
    rw [← List.drop_eq_getElem_cons hi, List.take_append_drop]
  · intro h pre x post hl
    have := h pre.length x (by rw [hl]; simp)
    rwa [hl, List.take_left' rfl] at this

theorem mem_rids_take (ops : List Op) (i : Nat) (r : Int64) :
    r ∈ (ops.take i).map Op.rid ↔ ∃ j < i, ∃ op : Op, ops[j]? = some op ∧ op.rid = r := by
  rw [List.mem_map]
  constructor
  · intro h
    obtain ⟨op, hop, hr⟩ := h
    obtain ⟨j, hj⟩ := List.mem_iff_getElem?.mp hop
    rw [List.getElem?_take] at hj
    split at hj
    · rename_i hlt
      exact ⟨j, hlt, op, hj, hr⟩
    · cases hj
  · intro h
    obtain ⟨j, hlt, op, hj, hr⟩ := h
    refine ⟨op, List.mem_iff_getElem?.mpr ⟨j, ?_⟩, hr⟩
    rw [List.getElem?_take, if_pos hlt, hj]

/-- **`checkOrdering` decides the linear extensions.** -/
theorem checkOrdering_iff (evs : List Event) (ops : List Op) :
    (checkOrdering evs ops).ok = true ↔
      ∀ (i : Nat) (op : Op), ops[i]? = some op → Created evs op.rid ∧
        ∀ r, WaitedBefore evs r op.rid →
          ∃ j < i, ∃ op' : Op, ops[j]? = some op' ∧ op'.rid = r := by
  have hlines := orderLines_ok (o := orderOf evs) 0 ops [] {}
  rw [checkOrdering, hlines, forall_split_iff ops fun pre op =>
    (orderOf evs).Allows ([] ++ pre.map Op.rid) op]
  simp only [List.nil_append, allows_iff, mem_rids_take, true_and]

/-! ## `sherlock.py` -/

/-- The lines of the driver's log, with what the script reads of them.
mirrors test_scripts/sherlock.py:54-130 -/
inductive LogEvent where
  | load | unload | sleep
  | connect (rid : Int)
  | sendLine (rid : Int)
  | sendHeaders (rid : Int)
  | sendAll (rid : Int)
  | sentBody (rid : Int)
  | received (rid : Int)
  | wait (rid : Int)
  deriving DecidableEq, Repr

def LogEvent.rid : LogEvent → Int
  | .load | .unload | .sleep => 0
  | .connect rid | .sendLine rid | .sendHeaders rid | .sendAll rid | .sentBody rid
  | .received rid | .wait rid => rid

/-- `requests` and `finished`.
mirrors test_scripts/sherlock.py:144-145 -/
structure Requests where
  happened : Int → Option (List Int) := fun _ => none
  finished : List Int := []

/-- One round of the loop; `none` is the failed `assert`.
mirrors test_scripts/sherlock.py:148-154 -/
def Requests.event (s : Requests) (e : LogEvent) : Option Requests :=
  match e with
  | .load | .unload => some s
  | e =>
    match s.happened e.rid, e with
    | none, .connect rid => some { s with happened := Function.update s.happened rid (some s.finished) }
    | none, _ => none
    | some _, .wait rid => some { s with finished := s.finished.insert rid }
    | some _, _ => some s

/-- mirrors test_scripts/sherlock.py:143-156 -/
def partiallyOrder (events : List LogEvent) : Option Requests := events.foldlM Requests.event {}

/-- `none` is the `KeyError` of an id that never connected. `happened` is the
set of ids logged so far.
mirrors test_scripts/sherlock.py:162-170 -/
def validateLoop (requests : Requests) : List Int → Nat → List Int → Option Nat
  | [], status, _ => some status
  | rid :: rids, status, happened =>
    match requests.happened rid with
    | none => none
    | some expected =>
      validateLoop requests rids (if ∀ k ∈ expected, k ∈ happened then status else 1)
        (happened.insert rid)

/-- The exit status, for the ids of the lines of the audit log.
mirrors test_scripts/sherlock.py:158-172 -/
def validateOrder (rids : List Int) (requests : Requests) : Option Nat :=
  validateLoop requests rids 0 []

/-- mirrors test_scripts/sherlock.py:174-179 -/
def sherlock (events : List LogEvent) (rids : List Int) : Option Nat :=
  (partiallyOrder events).bind (validateOrder rids)

/-- The CONNECT/WAIT log of a workload. -/
def connectWaitLog (evs : List Event) : List LogEvent :=
  evs.filterMap fun
    | .create c => some (.connect c.id.toInt)
    | .wait id => some (.wait id.toInt)
    | _ => none

/-- The id an event is about. -/
def Event.requestId : Event → Option Int64
  | .load _ _ | .unload _ | .sleep _ => none
  | .create c => some c.id
  | .sendLine id | .sendHeaders id | .sendBody id _ | .sendAll id | .recvPartial id _
  | .wait id => some id

/-- Every id's first event is its CREATE. -/
def CreateFirst (evs : List Event) : Prop :=
  ∀ id e, evs.find? (·.requestId = some id) = some e → ∃ c, e = .create c

/-! ## Both first passes keep the same tables -/

theorem map_insert_toInt (l : List Int64) (a : Int64) :
    (l.insert a).map Int64.toInt = (l.map Int64.toInt).insert a.toInt := by
  have hmem : a.toInt ∈ l.map Int64.toInt ↔ a ∈ l :=
    List.mem_map_of_injective fun _ _ h => Int64.toInt_inj.mp h
  by_cases h : a ∈ l
  · rw [List.insert_of_mem h, List.insert_of_mem (hmem.mpr h)]
  · rw [List.insert_of_not_mem h, List.insert_of_not_mem (mt hmem.mp h), List.map_cons]

structure Sim (o : Order) (s : Requests) : Prop where
  happened : ∀ id : Int64, s.happened id.toInt = (o.happened id).map (·.map Int64.toInt)
  finished : s.finished = o.finished.map Int64.toInt

/-- The rest of a workload, once `o` has seen what came before. -/
def CreateFirst.From (o : Order) (evs : List Event) : Prop :=
  ∀ id e, evs.find? (·.requestId = some id) = some e → (∃ c, e = .create c) ∨
    (o.happened id).isSome

theorem CreateFirst.from_event {o : Order} {e : Event} {evs : List Event}
    (h : CreateFirst.From o (e :: evs)) : CreateFirst.From (o.event e) evs := by
  intro id e' he'
  by_cases hid : e.requestId = some id
  · right
    have hfirst : (e :: evs).find? (·.requestId = some id) = some e := by simp [hid]
    rcases h id e hfirst with ⟨c, rfl⟩ | hsome
    · obtain rfl : c.id = id := Option.some.inj hid
      simp only [Order.event]
      split
      · assumption
      · simp [put]
    · obtain ⟨snap, hsnap⟩ := Option.isSome_iff_exists.mp hsome
      rw [happened_event e hsnap]
      rfl
  · have hrest : (e :: evs).find? (·.requestId = some id) = some e' := by simpa [hid] using he'
    rcases h id e' hrest with hc | hsome
    · exact .inl hc
    · obtain ⟨snap, hsnap⟩ := Option.isSome_iff_exists.mp hsome
      right
      rw [happened_event e hsnap]
      rfl

/-- A CREATE against its CONNECT. -/
theorem Sim.create {o : Order} {s : Requests} (h : Sim o s) (c : CreateEvent) :
    ∃ s', s.event (.connect c.id.toInt) = some s' ∧ Sim (o.event (.create c)) s' := by
  have hid := h.happened c.id
  cases ho : o.happened c.id with
  | some snap =>
    rw [ho] at hid
    refine ⟨s, ?_, ?_⟩
    · simp [Requests.event, LogEvent.rid, hid]
    · simpa [Order.event, ho] using h
  | none =>
    rw [ho] at hid
    refine ⟨{ s with happened := Function.update s.happened c.id.toInt (some s.finished) }, ?_, ?_, ?_⟩
    · simp [Requests.event, LogEvent.rid, hid]
    · intro id
      simp only [Order.event, ho, Option.isSome_none, Bool.false_eq_true, if_false, put]
      by_cases he : id = c.id
      · subst he
        simp [h.finished]
      · have hne : id.toInt ≠ c.id.toInt := fun hh => he (Int64.toInt_inj.mp hh)
        rw [Function.update_of_ne hne, Function.update_of_ne he, h.happened]
    · simp [Order.event, ho, h.finished]

/-- A WAIT for an id that has connected. -/
theorem Sim.wait {o : Order} {s : Requests} (h : Sim o s) {id : Int64}
    (hid : (o.happened id).isSome) :
    ∃ s', s.event (.wait id.toInt) = some s' ∧ Sim (o.event (.wait id)) s' := by
  obtain ⟨snap, hsnap⟩ := Option.isSome_iff_exists.mp hid
  have hs := h.happened id
  rw [hsnap] at hs
  refine ⟨{ s with finished := s.finished.insert id.toInt }, ?_, h.happened, ?_⟩
  · simp [Requests.event, LogEvent.rid, hs]
  · simp [Order.event, h.finished, map_insert_toInt]

/-- **The first passes.** No `assert` fails, and the tables stay the same. -/
theorem partiallyOrder_simulates {evs : List Event} {o : Order} {s : Requests} (h : Sim o s)
    (hf : CreateFirst.From o evs) :
    ∃ s', (connectWaitLog evs).foldlM Requests.event s = some s' ∧
      Sim (evs.foldl Order.event o) s' := by
  induction evs generalizing o s with
  | nil => exact ⟨s, rfl, h⟩
  | cons e evs ih =>
    have hrest := CreateFirst.from_event hf
    rw [List.foldl_cons]
    cases e with
    | create c =>
      obtain ⟨s₁, hs₁, hsim⟩ := h.create c
      obtain ⟨s', hs', hsim'⟩ := ih hsim hrest
      refine ⟨s', ?_, hsim'⟩
      simpa [connectWaitLog, hs₁] using hs'
    | wait id =>
      have hsome : (o.happened id).isSome := by
        rcases hf id (.wait id) (by simp [Event.requestId]) with ⟨c, hc⟩ | hsome
        · cases hc
        · exact hsome
      obtain ⟨s₁, hs₁, hsim⟩ := h.wait hsome
      obtain ⟨s', hs', hsim'⟩ := ih hsim hrest
      refine ⟨s', ?_, hsim'⟩
      simpa [connectWaitLog, hs₁] using hs'
    | _ => exact ih h hrest

/-! ## Both second passes -/

/-- What each exits with. -/
def exitStatus (ok : Bool) : Nat := if ok then 0 else 1

/-- **The second passes**, from the same tables and the same ids logged. -/
theorem validateLoop_simulates {o : Order} {s : Requests} (h : Sim o s) {ops : List Op}
    (hc : ∀ op ∈ ops, (o.happened op.rid).isSome) (i : Nat) (logged : List Int64) (r : Result) :
    validateLoop s (ops.map fun op => op.rid.toInt) (exitStatus r.ok) (logged.map Int64.toInt) =
      some (exitStatus (orderLines o i ops logged r).ok) := by
  induction ops generalizing i logged r with
  | nil => rfl
  | cons op ops ih =>
    obtain ⟨hop, hc⟩ := List.forall_mem_cons.mp hc
    obtain ⟨snap, hsnap⟩ := Option.isSome_iff_exists.mp hop
    have hs : s.happened op.rid.toInt = some (snap.map Int64.toInt) := by
      rw [h.happened, hsnap, Option.map_some]
    have hmem : (∀ k ∈ snap.map Int64.toInt, k ∈ logged.map Int64.toInt) ↔ o.Allows logged op := by
      simp only [List.forall_mem_map, Order.Allows, hsnap, Option.some.injEq, exists_eq_left',
        List.mem_map_of_injective fun _ _ h => Int64.toInt_inj.mp h]
    have hlogged : (orderLine o i op logged r).1 = logged.insert op.rid := by
      simp [orderLine, hsnap]
    have hstatus : (if ∀ k ∈ snap.map Int64.toInt, k ∈ logged.map Int64.toInt
        then exitStatus r.ok else 1) = exitStatus (orderLine o i op logged r).2.ok := by
      have hok := @orderLine_ok o i op logged r
      by_cases ha : o.Allows logged op
      · rw [if_pos (hmem.mpr ha)]
        congr 1
        rw [Bool.eq_iff_iff, hok]
        simp [ha]
      · rw [if_neg (mt hmem.mp ha)]
        have : (orderLine o i op logged r).2.ok = false := by
          rw [Bool.eq_false_iff]
          intro hh
          exact ha (hok.mp hh).2
        rw [this]
        rfl
    simp only [List.map_cons, validateLoop, hs]
    rw [hstatus, ← map_insert_toInt, orderLines, ← hlogged]
    exact ih hc (i + 1) _ _

/-- **The ordering check.** It reports ok exactly on the linear extensions of
the order the workload's WAITs put on its CREATEs; and where every id's first
event is its CREATE, over the ids created, that is the verdict of
`partially_order` and `validate_order` on the CONNECT/WAIT log. -/
theorem checkOrdering_decides (evs : List Event) (ops : List Op) :
    ((checkOrdering evs ops).ok = true ↔
      ∀ (i : Nat) (op : Op), ops[i]? = some op → Created evs op.rid ∧
        ∀ r, WaitedBefore evs r op.rid →
          ∃ j < i, ∃ op' : Op, ops[j]? = some op' ∧ op'.rid = r) ∧
    (CreateFirst evs → (∀ op ∈ ops, Created evs op.rid) →
      sherlock (connectWaitLog evs) (ops.map fun op => op.rid.toInt) =
        some (exitStatus (checkOrdering evs ops).ok)) := by
  refine ⟨checkOrdering_iff evs ops, ?_⟩
  intro hfirst hops
  have h0 : Sim {} {} := ⟨fun _ => rfl, rfl⟩
  obtain ⟨s, hs, hsim⟩ := partiallyOrder_simulates h0 (fun id e he => .inl (hfirst id e he))
  have hc : ∀ op ∈ ops, ((orderOf evs).happened op.rid).isSome := by
    intro op hop
    rw [Option.isSome_iff_ne_none]
    exact fun hn => (happened_none_iff evs op.rid).mp hn (hops op hop)
  have hv := validateLoop_simulates hsim hc 0 [] {}
  rw [sherlock, partiallyOrder, hs, Option.bind_some]
  exact hv

/-- Two requests one after the other, and a log that has them the other way
round. -/
def sequential : List Event :=
  [.create ⟨0, ascii "GET", ascii "a.txt", none⟩, .wait 0,
    .create ⟨1, ascii "GET", ascii "b.txt", none⟩, .wait 1]

def backwards : List Op :=
  [⟨ascii "GET", ascii "b.txt", 200, 1⟩, ⟨ascii "GET", ascii "a.txt", 200, 0⟩]

theorem sequential_createFirst : CreateFirst sequential := by
  intro id e h
  by_cases h0 : (0 : Int64) = id
  · simp [sequential, Event.requestId, h0] at h
    exact ⟨_, h.symm⟩
  · by_cases h1 : (1 : Int64) = id
    · subst h1
      simp [sequential, Event.requestId] at h
      exact ⟨_, h.symm⟩
    · simp [sequential, Event.requestId, h0, h1] at h

theorem checkOrdering_decides_backwards :
    CreateFirst sequential ∧ (∀ op ∈ backwards, Created sequential op.rid) ∧
      (checkOrdering sequential backwards).ok = false ∧
      sherlock (connectWaitLog sequential) (backwards.map fun op => op.rid.toInt) = some 1 := by
  have hops : ∀ op ∈ backwards, Created sequential op.rid := by
    simp [backwards, Created, sequential]
  have hok : (checkOrdering sequential backwards).ok = false := by decide
  have h := (checkOrdering_decides sequential backwards).2 sequential_createFirst hops
  rw [hok] at h
  exact ⟨sequential_createFirst, hops, hok, h⟩

end HttpC.L6
