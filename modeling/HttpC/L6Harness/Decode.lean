import HttpC.L6Harness.Check
import HttpC.L6Harness.Toml

/-!
# Tables to events

`ztest/src/events.zig:41-101`. `decode` turns every table into an event, in
file order; the first problem ends it with a diagnostic. It stops with an
error, or with the safety panic of an `@intCast` out of range.

What a table says is stated apart from the code (`Carries`): a field is the
first occurrence of its key, if it has the type asked for; an optional field
without such an occurrence is at its default. `decodeTable_cases` gives the
three outcomes of a table by what the table holds.
-/
namespace HttpC.L6
open HttpC.L6.Toml

/-- With the line printed on stderr.
mirrors ztest/src/events.zig:39 -/
inductive DecodeError where
  | MissingField (diagnostic : Bytes)
  | UnknownEventType (diagnostic : Bytes)
  deriving DecidableEq, Repr

/-- How decoding ends early. -/
inductive Stop where
  | error (e : DecodeError)
  | panic
  deriving DecidableEq, Repr

/-- mirrors ztest/src/events.zig:41-46 -/
def reqStr (t : Table) (idx : Nat) (typeName key : Bytes) : Except Stop Bytes :=
  match t.getStr key with
  | some s => .ok s
  | none =>
    .error (.error (.MissingField (ascii "event " ++ decimal idx ++ ascii " (" ++ typeName ++
      ascii "): missing field '" ++ key ++ ascii "'\n")))

/-- mirrors ztest/src/events.zig:48-53 -/
def reqId (t : Table) (idx : Nat) (typeName : Bytes) : Except Stop Int64 :=
  match t.getId with
  | some id => .ok id
  | none =>
    .error (.error (.MissingField (ascii "event " ++ decimal idx ++ ascii " (" ++ typeName ++
      ascii "): missing field 'id'\n")))

/-- `@intCast` of an `i64` to `u64` or `usize`. -/
def intCast (n : Int64) : Except Stop Nat :=
  if 0 ≤ n.toInt then .ok n.toInt.toNat else .error .panic

/-- mirrors ztest/src/events.zig:63-97 -/
def decodeTable (idx : Nat) (t : Table) : Except Stop Event :=
  match t.getStr (ascii "type") with
  | none =>
    .error (.error (.MissingField (ascii "event " ++ decimal idx ++
      ascii ": missing field 'type'\n")))
  | some typeName =>
    if typeName = ascii "LOAD" then do
      let infile ← reqStr t idx typeName (ascii "infile")
      let outfile ← reqStr t idx typeName (ascii "outfile")
      .ok (.load infile outfile)
    else if typeName = ascii "UNLOAD" then do
      let file ← reqStr t idx typeName (ascii "file")
      .ok (.unload file)
    else if typeName = ascii "SLEEP" then do
      let seconds ← intCast ((t.getInt (ascii "seconds")).getD 4)
      .ok (.sleep seconds)
    else if typeName = ascii "CREATE" then do
      let id ← reqId t idx typeName
      let method := (t.getStr (ascii "method")).getD (ascii "GET")
      let uri ← reqStr t idx typeName (ascii "uri")
      .ok (.create ⟨id, method, uri, t.getStr (ascii "infile")⟩)
    else if typeName = ascii "SEND_LINE" then do
      let id ← reqId t idx typeName
      .ok (.sendLine id)
    else if typeName = ascii "SEND_HEADERS" then do
      let id ← reqId t idx typeName
      .ok (.sendHeaders id)
    else if typeName = ascii "SEND_BODY" then do
      let id ← reqId t idx typeName
      .ok (.sendBody id (t.getInt (ascii "size")))
    else if typeName = ascii "SEND_ALL" then do
      let id ← reqId t idx typeName
      .ok (.sendAll id)
    else if typeName = ascii "RECV_PARTIAL" then do
      let id ← reqId t idx typeName
      let size ← intCast ((t.getInt (ascii "size")).getD 4096)
      .ok (.recvPartial id size)
    else if typeName = ascii "WAIT" then do
      let id ← reqId t idx typeName
      .ok (.wait id)
    else
      .error (.error (.UnknownEventType (ascii "event " ++ decimal idx ++
        ascii ": unknown event type '" ++ typeName ++ ascii "'\n")))

/-- The tables from index `idx` on. -/
def decodeFrom : Nat → List Table → Except Stop (List Event)
  | _, [] => .ok []
  | idx, t :: ts => do
    let ev ← decodeTable idx t
    let evs ← decodeFrom (idx + 1) ts
    .ok (ev :: evs)

/-- mirrors ztest/src/events.zig:58-101 -/
def decode (tables : List Table) : Except Stop (List Event) := decodeFrom 0 tables

/-! ## What a table says -/

/-- The first occurrence of `key` has the value `v`. -/
def Toml.Table.First (t : Table) (key : Bytes) (v : Value) : Prop :=
  ∃ pre post, t.entries = pre ++ (key, v) :: post ∧ ∀ e ∈ pre, e.1 ≠ key

/-- An optional string, at its default `d` when absent. -/
def Toml.Table.StrOr (t : Table) (key : Bytes) (d s : Option Bytes) : Prop :=
  (∃ v, t.First key (.str v) ∧ s = some v) ∨ ((∀ v, ¬ t.First key (.str v)) ∧ s = d)

/-- An optional integer. -/
def Toml.Table.IntOr (t : Table) (key : Bytes) (d n : Option Int) : Prop :=
  (∃ v, t.First key (.int v) ∧ n = some v.toInt) ∨ ((∀ v, ¬ t.First key (.int v)) ∧ n = d)

/-- The event of a table.
mirrors ztest/src/events.zig:10-14,18-37 -/
inductive Carries (t : Table) : Event → Prop where
  | load {infile outfile : Bytes} : t.First (ascii "type") (.str (ascii "LOAD")) →
      t.First (ascii "infile") (.str infile) → t.First (ascii "outfile") (.str outfile) →
      Carries t (.load infile outfile)
  | unload {file : Bytes} : t.First (ascii "type") (.str (ascii "UNLOAD")) →
      t.First (ascii "file") (.str file) → Carries t (.unload file)
  | sleep {seconds : Nat} : t.First (ascii "type") (.str (ascii "SLEEP")) →
      t.IntOr (ascii "seconds") (some 4) (some seconds) → Carries t (.sleep seconds)
  | create {c : CreateEvent} : t.First (ascii "type") (.str (ascii "CREATE")) →
      t.First (ascii "id") (.int c.id) →
      t.StrOr (ascii "method") (some (ascii "GET")) (some c.method) →
      t.First (ascii "uri") (.str c.uri) → t.StrOr (ascii "infile") none c.infile →
      Carries t (.create c)
  | sendLine {id : Int64} : t.First (ascii "type") (.str (ascii "SEND_LINE")) →
      t.First (ascii "id") (.int id) → Carries t (.sendLine id)
  | sendHeaders {id : Int64} : t.First (ascii "type") (.str (ascii "SEND_HEADERS")) →
      t.First (ascii "id") (.int id) → Carries t (.sendHeaders id)
  | sendBody {id : Int64} {size : Option Int64} :
      t.First (ascii "type") (.str (ascii "SEND_BODY")) → t.First (ascii "id") (.int id) →
      t.IntOr (ascii "size") none (size.map Int64.toInt) → Carries t (.sendBody id size)
  | sendAll {id : Int64} : t.First (ascii "type") (.str (ascii "SEND_ALL")) →
      t.First (ascii "id") (.int id) → Carries t (.sendAll id)
  | recvPartial {id : Int64} {size : Nat} : t.First (ascii "type") (.str (ascii "RECV_PARTIAL")) →
      t.First (ascii "id") (.int id) → t.IntOr (ascii "size") (some 4096) (some size) →
      Carries t (.recvPartial id size)
  | wait {id : Int64} : t.First (ascii "type") (.str (ascii "WAIT")) →
      t.First (ascii "id") (.int id) → Carries t (.wait id)

theorem get_iff (t : Table) (key : Bytes) (v : Value) : t.get key = some v ↔ t.First key v := by
  unfold Table.get Table.First
  rw [Option.map_eq_some_iff]
  constructor
  · intro h
    obtain ⟨⟨k, w⟩, hf, rfl⟩ := h
    obtain ⟨hk, pre, post, hsplit, hpre⟩ := List.find?_eq_some_iff_append.mp hf
    obtain rfl : k = key := by simpa using hk
    exact ⟨pre, post, hsplit, fun e he => by simpa using hpre e he⟩
  · intro h
    obtain ⟨pre, post, hsplit, hpre⟩ := h
    refine ⟨(key, v), List.find?_eq_some_iff_append.mpr ⟨by simp, pre, post, hsplit, ?_⟩, rfl⟩
    intro e he
    simpa using hpre e he

theorem getStr_iff (t : Table) (key s : Bytes) : t.getStr key = some s ↔ t.First key (.str s) := by
  rw [← get_iff, Table.getStr]
  split
  · rename_i s' h
    simp [h]
  · rename_i h
    simp only [reduceCtorEq, false_iff]
    exact h s

theorem getInt_iff (t : Table) (key : Bytes) (n : Int64) :
    t.getInt key = some n ↔ t.First key (.int n) := by
  rw [← get_iff, Table.getInt]
  split
  · rename_i n' h
    simp [h]
  · rename_i h
    simp only [reduceCtorEq, false_iff]
    exact h n

theorem strOr_getStr (t : Table) (key : Bytes) (d : Option Bytes) :
    t.StrOr key d ((t.getStr key).or d) := by
  cases h : t.getStr key with
  | some s => exact .inl ⟨s, (getStr_iff t key s).mp h, rfl⟩
  | none =>
    refine .inr ⟨fun v hv => ?_, rfl⟩
    rw [(getStr_iff t key v).mpr hv] at h
    cases h

theorem intOr_getInt (t : Table) (key : Bytes) (d : Option Int64) :
    t.IntOr key (d.map Int64.toInt) (((t.getInt key).or d).map Int64.toInt) := by
  cases h : t.getInt key with
  | some n => exact .inl ⟨n, (getInt_iff t key n).mp h, rfl⟩
  | none =>
    refine .inr ⟨fun v hv => ?_, rfl⟩
    rw [(getInt_iff t key v).mpr hv] at h
    cases h

/-! ## The outcomes of a table -/

inductive Kind where
  | str | int
  deriving DecidableEq, Repr

/-- What each type of event cannot do without. -/
def requiredFields : List (Bytes × List (Bytes × Kind)) :=
  [(ascii "LOAD", [(ascii "infile", .str), (ascii "outfile", .str)]),
    (ascii "UNLOAD", [(ascii "file", .str)]),
    (ascii "SLEEP", []),
    (ascii "CREATE", [(ascii "id", .int), (ascii "uri", .str)]),
    (ascii "SEND_LINE", [(ascii "id", .int)]),
    (ascii "SEND_HEADERS", [(ascii "id", .int)]),
    (ascii "SEND_BODY", [(ascii "id", .int)]),
    (ascii "SEND_ALL", [(ascii "id", .int)]),
    (ascii "RECV_PARTIAL", [(ascii "id", .int)]),
    (ascii "WAIT", [(ascii "id", .int)])]

def Toml.Table.has (t : Table) : Bytes × Kind → Bool
  | (key, .str) => (t.getStr key).isSome
  | (key, .int) => (t.getInt key).isSome

/-- The type is known and its required fields are there. -/
def Toml.Table.complete (t : Table) : Bool :=
  match t.getStr (ascii "type") with
  | none => false
  | some typeName =>
    match requiredFields.lookup typeName with
    | none => false
    | some fields => fields.all t.has

/-- The first occurrence of `key` is a negative integer. -/
def Toml.Table.below (t : Table) (key : Bytes) : Bool :=
  match t.getInt key with
  | some n => n.toInt < 0
  | none => false

/-- The number that is cast to an unsigned type is negative. -/
def Toml.Table.negative (t : Table) : Bool :=
  (t.getStr (ascii "type") = some (ascii "SLEEP") && t.below (ascii "seconds")) ||
    (t.getStr (ascii "type") = some (ascii "RECV_PARTIAL") && t.below (ascii "size"))

inductive TableOutcome (t : Table) : Except Stop Event → Prop where
  | event {ev : Event} : t.complete = true → t.negative = false → Carries t ev → TableOutcome t (.ok ev)
  | error {e : DecodeError} : t.complete = false → TableOutcome t (.error (.error e))
  | panic : t.complete = true → t.negative = true → TableOutcome t (.error .panic)

section Outcomes
variable {t : Table} {ty : Bytes} (hty : t.getStr (ascii "type") = some ty)
include hty

theorem not_negative (hs : ty ≠ ascii "SLEEP") (hr : ty ≠ ascii "RECV_PARTIAL") :
    t.negative = false := by
  simp [Table.negative, hty, hs, hr]

theorem first_type : t.First (ascii "type") (.str ty) := (getStr_iff _ _ _).mp hty

variable {fields : List (Bytes × Kind)} (hl : requiredFields.lookup ty = some fields)
include hl

theorem complete_of : t.complete = fields.all t.has := by
  simp [Table.complete, hty, hl]

theorem incomplete {f : Bytes × Kind} (hin : f ∈ fields) (hno : t.has f = false) :
    t.complete = false := by
  rw [complete_of hty hl, List.all_eq_false]
  exact ⟨f, hin, by simp [hno]⟩

/-- A required string is there, or its absence is the outcome. -/
theorem outcome_reqStr {key : Bytes} (idx : Nat) (hin : (key, .str) ∈ fields)
    {k : Bytes → Except Stop Event} (hk : ∀ s, t.getStr key = some s → TableOutcome t (k s)) :
    TableOutcome t (reqStr t idx ty key >>= k) := by
  unfold reqStr
  cases h : t.getStr key with
  | none =>
    apply TableOutcome.error
    apply incomplete hty hl hin
    simp [Table.has, h]
  | some s => exact hk s h

/-- A required id. -/
theorem outcome_reqId (idx : Nat) (hin : (ascii "id", .int) ∈ fields)
    {k : Int64 → Except Stop Event}
    (hk : ∀ id, t.getInt (ascii "id") = some id → TableOutcome t (k id)) :
    TableOutcome t (reqId t idx ty >>= k) := by
  unfold reqId Table.getId
  cases h : t.getInt (ascii "id") with
  | none =>
    apply TableOutcome.error
    apply incomplete hty hl hin
    simp [Table.has, h]
  | some id => exact hk id h

end Outcomes

/-- The events that need nothing but an id. -/
theorem outcome_id {t : Table} {ty : Bytes} (hty : t.getStr (ascii "type") = some ty) (idx : Nat)
    (hl : requiredFields.lookup ty = some [(ascii "id", .int)])
    (hs : ty ≠ ascii "SLEEP") (hr : ty ≠ ascii "RECV_PARTIAL") (ev : Int64 → Event)
    (hev : ∀ id, t.First (ascii "id") (.int id) → Carries t (ev id)) :
    TableOutcome t (do
      let id ← reqId t idx ty
      .ok (ev id)) := by
  apply outcome_reqId hty hl idx List.mem_cons_self
  intro id hid
  apply TableOutcome.event _ (not_negative hty hs hr) (hev id ((getInt_iff _ _ _).mp hid))
  rw [complete_of hty hl]
  simp [Table.has, hid]

/-- `@intCast` of an optional field with a default that fits. -/
theorem intCast_getD (t : Table) (key : Bytes) {d : Int64} (hd : 0 ≤ d.toInt) :
    (t.below key = true ∧ intCast ((t.getInt key).getD d) = .error .panic) ∨
      (t.below key = false ∧ ∃ n : Nat, intCast ((t.getInt key).getD d) = .ok n ∧
        t.IntOr key (some d.toInt) (some n)) := by
  have hor := intOr_getInt t key (some d)
  unfold Table.below intCast
  cases h : t.getInt key with
  | none =>
    rw [h] at hor
    refine .inr ⟨rfl, d.toInt.toNat, by simp [hd], ?_⟩
    rw [Int.toNat_of_nonneg hd]
    simpa using hor
  | some n =>
    rw [h] at hor
    by_cases hn : n.toInt < 0
    · refine .inl ⟨by simpa using hn, ?_⟩
      rw [Option.getD_some, if_neg (by omega)]
    · have hn' : 0 ≤ n.toInt := by omega
      refine .inr ⟨by simpa using hn', n.toInt.toNat, by simp [hn'], ?_⟩
      rw [Int.toNat_of_nonneg hn']
      simpa using hor

theorem outcome_load {t : Table} (hty : t.getStr (ascii "type") = some (ascii "LOAD")) (idx : Nat) :
    TableOutcome t (do
      let infile ← reqStr t idx (ascii "LOAD") (ascii "infile")
      let outfile ← reqStr t idx (ascii "LOAD") (ascii "outfile")
      .ok (.load infile outfile)) := by
  apply outcome_reqStr hty rfl idx (by decide)
  intro infile hi
  apply outcome_reqStr hty rfl idx (by decide)
  intro outfile ho
  apply TableOutcome.event _ (not_negative hty (by decide) (by decide))
  · exact .load (first_type hty) ((getStr_iff _ _ _).mp hi) ((getStr_iff _ _ _).mp ho)
  · rw [complete_of hty rfl]
    simp [Table.has, hi, ho]

theorem outcome_unload {t : Table} (hty : t.getStr (ascii "type") = some (ascii "UNLOAD"))
    (idx : Nat) :
    TableOutcome t (do
      let file ← reqStr t idx (ascii "UNLOAD") (ascii "file")
      .ok (.unload file)) := by
  apply outcome_reqStr hty rfl idx (by decide)
  intro file hf
  apply TableOutcome.event _ (not_negative hty (by decide) (by decide))
  · exact .unload (first_type hty) ((getStr_iff _ _ _).mp hf)
  · rw [complete_of hty rfl]
    simp [Table.has, hf]

theorem outcome_sleep {t : Table} (hty : t.getStr (ascii "type") = some (ascii "SLEEP")) :
    TableOutcome t (do
      let seconds ← intCast ((t.getInt (ascii "seconds")).getD 4)
      .ok (.sleep seconds)) := by
  have hc : t.complete = true := complete_of hty rfl
  have hneg : t.negative = t.below (ascii "seconds") := by
    have hne : ¬ ascii "SLEEP" = ascii "RECV_PARTIAL" := by decide
    simp [Table.negative, hty, hne]
  rcases intCast_getD t (ascii "seconds") (show 0 ≤ (4 : Int64).toInt by decide) with
    ⟨hb, hp⟩ | ⟨hb, n, hn, hor⟩
  · rw [hp]
    exact .panic hc (hneg.trans hb)
  · rw [hn]
    exact .event hc (hneg.trans hb) (.sleep (first_type hty) hor)

theorem outcome_create {t : Table} (hty : t.getStr (ascii "type") = some (ascii "CREATE"))
    (idx : Nat) :
    TableOutcome t (do
      let id ← reqId t idx (ascii "CREATE")
      let method := (t.getStr (ascii "method")).getD (ascii "GET")
      let uri ← reqStr t idx (ascii "CREATE") (ascii "uri")
      .ok (.create ⟨id, method, uri, t.getStr (ascii "infile")⟩)) := by
  apply outcome_reqId hty rfl idx (by decide)
  intro id hid
  apply outcome_reqStr hty rfl idx (by decide)
  intro uri hu
  apply TableOutcome.event _ (not_negative hty (by decide) (by decide))
  · have hm := strOr_getStr t (ascii "method") (some (ascii "GET"))
    have hi := strOr_getStr t (ascii "infile") none
    rw [Option.or_none] at hi
    rw [Option.or_some] at hm
    exact .create (first_type hty) ((getInt_iff _ _ _).mp hid) hm ((getStr_iff _ _ _).mp hu) hi
  · rw [complete_of hty rfl]
    simp [Table.has, hid, hu]

theorem outcome_recvPartial {t : Table}
    (hty : t.getStr (ascii "type") = some (ascii "RECV_PARTIAL")) (idx : Nat) :
    TableOutcome t (do
      let id ← reqId t idx (ascii "RECV_PARTIAL")
      let size ← intCast ((t.getInt (ascii "size")).getD 4096)
      .ok (.recvPartial id size)) := by
  have hneg : t.negative = t.below (ascii "size") := by
    have hne : ¬ ascii "RECV_PARTIAL" = ascii "SLEEP" := by decide
    simp [Table.negative, hty, hne]
  apply outcome_reqId hty rfl idx (by decide)
  intro id hid
  have hc : t.complete = true := by
    rw [complete_of hty rfl]
    simp [Table.has, hid]
  rcases intCast_getD t (ascii "size") (show 0 ≤ (4096 : Int64).toInt by decide) with
    ⟨hb, hp⟩ | ⟨hb, n, hn, hor⟩
  · rw [hp]
    exact .panic hc (hneg.trans hb)
  · rw [hn]
    exact .event hc (hneg.trans hb)
      (.recvPartial (first_type hty) ((getInt_iff _ _ _).mp hid) hor)

/-- **The outcomes of a table.** An event when nothing is missing and no cast
goes below zero, an error when something is missing, else a panic. -/
theorem decodeTable_cases (idx : Nat) (t : Table) : TableOutcome t (decodeTable idx t) := by
  unfold decodeTable
  cases hty : t.getStr (ascii "type") with
  | none => exact .error (by simp [Table.complete, hty])
  | some ty =>
    simp only
    by_cases h1 : ty = ascii "LOAD"
    · rw [if_pos h1]
      subst h1
      exact outcome_load hty idx
    rw [if_neg h1]
    by_cases h2 : ty = ascii "UNLOAD"
    · rw [if_pos h2]
      subst h2
      exact outcome_unload hty idx
    rw [if_neg h2]
    by_cases h3 : ty = ascii "SLEEP"
    · rw [if_pos h3]
      subst h3
      exact outcome_sleep hty
    rw [if_neg h3]
    by_cases h4 : ty = ascii "CREATE"
    · rw [if_pos h4]
      subst h4
      exact outcome_create hty idx
    rw [if_neg h4]
    by_cases h5 : ty = ascii "SEND_LINE"
    · rw [if_pos h5]
      subst h5
      exact outcome_id hty idx rfl (by decide) (by decide) _ fun id hid =>
        .sendLine (first_type hty) hid
    rw [if_neg h5]
    by_cases h6 : ty = ascii "SEND_HEADERS"
    · rw [if_pos h6]
      subst h6
      exact outcome_id hty idx rfl (by decide) (by decide) _ fun id hid =>
        .sendHeaders (first_type hty) hid
    rw [if_neg h6]
    by_cases h7 : ty = ascii "SEND_BODY"
    · rw [if_pos h7]
      subst h7
      have hsize := intOr_getInt t (ascii "size") none
      rw [Option.or_none] at hsize
      exact outcome_id hty idx rfl (by decide) (by decide) _ fun id hid =>
        .sendBody (first_type hty) hid hsize
    rw [if_neg h7]
    by_cases h8 : ty = ascii "SEND_ALL"
    · rw [if_pos h8]
      subst h8
      exact outcome_id hty idx rfl (by decide) (by decide) _ fun id hid =>
        .sendAll (first_type hty) hid
    rw [if_neg h8]
    by_cases h9 : ty = ascii "RECV_PARTIAL"
    · rw [if_pos h9]
      subst h9
      exact outcome_recvPartial hty idx
    rw [if_neg h9]
    by_cases h10 : ty = ascii "WAIT"
    · rw [if_pos h10]
      subst h10
      exact outcome_id hty idx rfl (by decide) (by decide) _ fun id hid =>
        .wait (first_type hty) hid
    rw [if_neg h10]
    have hl : requiredFields.lookup ty = none := by
      rw [List.lookup_eq_none_iff]
      simp [requiredFields, h1, h2, h3, h4, h5, h6, h7, h8, h9, h10]
    exact .error (by simp [Table.complete, hty, hl])

/-! ## The whole file -/

/-- Every table whose cast goes below zero comes after one with something
missing. -/
def CastsFit (tables : List Table) : Prop :=
  ∀ pre t post, tables = pre ++ t :: post → t.complete = true → t.negative = true →
    ∃ u ∈ pre, u.complete = false

theorem castsFit_cons (t : Table) (ts : List Table) :
    CastsFit (t :: ts) ↔
      ¬ (t.complete = true ∧ t.negative = true) ∧ (t.complete = true → CastsFit ts) := by
  constructor
  · intro h
    refine ⟨?_, ?_⟩
    · intro ht
      obtain ⟨u, hu, -⟩ := h [] t ts rfl ht.1 ht.2
      cases hu
    · intro hc pre u post hts huc hun
      obtain ⟨w, hw, hwc⟩ := h (t :: pre) u post (by rw [hts]; rfl) huc hun
      rcases List.mem_cons.mp hw with rfl | hw
      · rw [hc] at hwc
        cases hwc
      · exact ⟨w, hw, hwc⟩
  · intro h pre u post hts huc hun
    obtain ⟨h1, h2⟩ := h
    cases pre with
    | nil =>
      obtain ⟨rfl, -⟩ := List.cons_eq_cons.mp hts
      exact absurd ⟨huc, hun⟩ h1
    | cons w pre =>
      obtain ⟨rfl, hrest⟩ := List.cons_eq_cons.mp hts
      cases hc : t.complete with
      | false => exact ⟨t, List.mem_cons_self, hc⟩
      | true =>
        obtain ⟨x, hx, hxc⟩ := h2 hc pre u post hrest huc hun
        exact ⟨x, List.mem_cons_of_mem _ hx, hxc⟩

/-- Decoding returned the events of the tables, or an error. -/
inductive Returned (tables : List Table) : Except Stop (List Event) → Prop where
  | events {evs : List Event} : List.Forall₂ Carries tables evs → Returned tables (.ok evs)
  | error {e : DecodeError} : Returned tables (.error (.error e))

/-- **Spec of `decode`.** -/
theorem decodeFrom_spec (idx : Nat) (tables : List Table) :
    (CastsFit tables → Returned tables (decodeFrom idx tables)) ∧
      (¬ CastsFit tables → decodeFrom idx tables = .error .panic) := by
  induction tables generalizing idx with
  | nil =>
    refine ⟨fun _ => .events .nil, fun h => absurd ?_ h⟩
    intro pre t post hts
    simp at hts
  | cons t ts ih =>
    obtain ⟨ih1, ih2⟩ := ih (idx + 1)
    rw [castsFit_cons, decodeFrom]
    have hout := decodeTable_cases idx t
    generalize decodeTable idx t = r at hout
    cases hout with
    | @event ev hc hn hcar =>
      by_cases hts : CastsFit ts
      · refine ⟨fun _ => ?_, fun h => absurd ⟨by simp [hn], fun _ => hts⟩ h⟩
        have hd := ih1 hts
        generalize decodeFrom (idx + 1) ts = r at hd
        cases hd with
        | events hf => exact .events (.cons hcar hf)
        | error => exact .error
      · refine ⟨fun h => absurd (h.2 hc) hts, fun _ => ?_⟩
        rw [ih2 hts]
        rfl
    | @error e hc => exact ⟨fun _ => .error, fun h => absurd ⟨by simp [hc], by simp [hc]⟩ h⟩
    | panic hc hn => exact ⟨fun h => absurd ⟨hc, hn⟩ h.1, fun _ => rfl⟩

end HttpC.L6
