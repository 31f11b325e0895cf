import Mathlib.Data.List.TakeWhile
import HttpC.L2Parse.Body

/-!
# The workload driver's requests, and the server's reading of them

`ztest/src/oliver.zig`. `doCreate` builds the request line, the headers and
the body of a CREATE event; `SEND_ALL`, or `SEND_LINE`, `SEND_HEADERS` and any
`SEND_BODY`s, put them on the wire. The main result is the round trip
`create_roundtrip`: however the driver sends the request and however the
server's `read()`s cut it, `conn_parse` recovers method, URI, request id and
length, and `conn_recv_file` stores the body.
-/
namespace HttpC.L6
open HttpC.L1.Util HttpC.L2 HttpC.Regex

/-! ## Building and sending a request -/

/-- mirrors ztest/src/oliver.zig:45-51 -/
structure Options where
  extraHeaders : Bytes := []
  deriving DecidableEq, Repr

/-- `infile` holds the bytes of the file it names.
mirrors ztest/src/events.zig:18-24 -/
structure Create where
  id : Int64
  method : Bytes
  uri : Bytes
  infile : Option Bytes
  deriving DecidableEq, Repr

/-- `wire` is what was written to the socket, `shut` its half-close.
mirrors ztest/src/oliver.zig:16-25 -/
structure DriverConn where
  requestLine : Bytes
  headers : Bytes
  body : Bytes
  sent : Nat := 0
  wire : Bytes := []
  shut : Bool := false
  deriving DecidableEq, Repr

/-- `readFileAlloc`, `none` for `error.FileTooBig`. -/
def readFileAlloc (file : Bytes) (maxBytes : Nat) : Option Bytes :=
  if file.length ≤ maxBytes then some file else none

/-- mirrors ztest/src/oliver.zig:119-122 -/
def createBody : Option Bytes → Option Bytes
  | some infile => readFileAlloc infile (1 <<< 30)
  | none => some []

/-- mirrors ztest/src/oliver.zig:118-143 -/
def doCreate (opts : Options) (c : Create) : Option DriverConn := do
  let body ← createBody c.infile
  let requestLine := c.method ++ ascii " /" ++ c.uri ++ ascii " HTTP/1.1\r\n"
  let headers := opts.extraHeaders
  let headers := headers ++ (ascii "Request-Id: " ++ decimalInt c.id.toInt ++ ascii "\r\n")
  let headers :=
    if 0 < body.length then
      headers ++ (ascii "Content-Length: " ++ decimal body.length ++ ascii "\r\n")
    else headers
  let headers := headers ++ ascii "\r\n"
  some { requestLine, headers, body }

/-- mirrors ztest/src/oliver.zig:149-172 -/
def sendBody (c : DriverConn) (size : Option Int) : DriverConn :=
  let total := c.body.length
  let stop := match size with
    | some sz => if 0 ≤ sz ∧ c.sent + sz.toNat < total then c.sent + sz.toNat else total
    | none => total
  let c :=
    if c.sent < stop then { c with wire := c.wire ++ (c.body.take stop).drop c.sent } else c
  let c := { c with sent := stop }
  if c.sent = total then { c with shut := true } else c

inductive SendEvent where
  | sendLine | sendHeaders | sendBody (size : Option Int) | sendAll
  deriving DecidableEq, Repr

/-- mirrors ztest/src/oliver.zig:92-107 -/
def DriverConn.run (c : DriverConn) : SendEvent → DriverConn
  | .sendLine => { c with wire := c.wire ++ c.requestLine }
  | .sendHeaders => { c with wire := c.wire ++ c.headers }
  | .sendBody size => sendBody c size
  | .sendAll => sendBody { c with wire := c.wire ++ c.requestLine ++ c.headers } none

/-- The two ways a workload sends a request to its end. -/
def Sends (c : DriverConn) (evs : List SendEvent) : Prop :=
  evs = [.sendAll] ∨
    ∃ sizes : List (Option Int), evs = .sendLine :: .sendHeaders :: sizes.map .sendBody ∧
      (evs.foldl DriverConn.run c).sent = c.body.length

/-! ## What reaches the wire -/

theorem sendBody_spec {c : DriverConn} (pre : Bytes) (size : Option Int)
    (hw : c.wire = pre ++ c.body.take c.sent) (hs : c.sent ≤ c.body.length) :
    (sendBody c size).wire = pre ++ c.body.take (sendBody c size).sent ∧
      (sendBody c size).sent ≤ c.body.length ∧ (sendBody c size).body = c.body ∧
      (size = none → (sendBody c size).sent = c.body.length) := by
  -- the end of the slice, whichever branch computes it
  have key : ∀ stop, c.sent ≤ stop → stop ≤ c.body.length →
      (if c.sent < stop then c.wire ++ (c.body.take stop).drop c.sent else c.wire) =
        pre ++ c.body.take stop := by
    intro stop h1 h2
    split
    · rw [hw, List.append_assoc]
      congr 1
      have : c.body.take c.sent = (c.body.take stop).take c.sent := by
        rw [List.take_take, Nat.min_eq_left h1]
      rw [this, List.take_append_drop]
    · rw [hw, show stop = c.sent by omega]
  unfold sendBody
  simp only
  generalize hstop : (match size with
    | some sz => if 0 ≤ sz ∧ c.sent + sz.toNat < c.body.length then c.sent + sz.toNat
      else c.body.length
    | none => c.body.length) = stop
  have hb : c.sent ≤ stop ∧ stop ≤ c.body.length := by
    subst hstop
    split
    · split <;> omega
    · omega
  have := key stop hb.1 hb.2
  have hnone : size = none → stop = c.body.length := by rintro rfl; exact hstop.symm
  split <;> split at this <;> split <;> simp_all

theorem foldl_sendBody (pre : Bytes) (sizes : List (Option Int)) (c : DriverConn)
    (hw : c.wire = pre ++ c.body.take c.sent) (hs : c.sent ≤ c.body.length) :
    ((sizes.map SendEvent.sendBody).foldl DriverConn.run c).wire =
      pre ++ c.body.take ((sizes.map SendEvent.sendBody).foldl DriverConn.run c).sent := by
  induction sizes generalizing c with
  | nil => exact hw
  | cons z zs ih =>
    obtain ⟨h1, h2, h3, -⟩ := sendBody_spec pre z hw hs
    have := ih (sendBody c z) (by rw [h3]; exact h1) (by rw [h3]; exact h2)
    rw [h3] at this
    exact this

/-- **Every way of sending puts the same bytes on the wire.** -/
theorem Sends.wire {c : DriverConn} {evs : List SendEvent} (h : Sends c evs) (h0 : c.sent = 0)
    (hw : c.wire = []) :
    (evs.foldl DriverConn.run c).wire = c.requestLine ++ c.headers ++ c.body := by
  rcases h with rfl | ⟨sizes, rfl, hend⟩
  · obtain ⟨h1, -, -, h4⟩ := sendBody_spec (c.requestLine ++ c.headers) none
      (c := { c with wire := c.wire ++ c.requestLine ++ c.headers }) (by simp [h0, hw]) (by simp [h0])
    simp only [List.foldl_cons, List.foldl_nil, DriverConn.run]
    rw [h1, h4 rfl, List.take_length]
  · simp only [List.foldl_cons, DriverConn.run] at hend ⊢
    rw [foldl_sendBody (c.requestLine ++ c.headers) sizes _ (by simp [h0, hw])
      (by simp [h0]), hend, List.take_length]

/-! ## The header block of a request -/

/-- A non-empty line without CR or LF in its text. -/
def Line (l : Bytes) : Prop := ∃ w, l = w ++ [13, 10] ∧ w ≠ [] ∧ (13 : UInt8) ∉ w ∧ (10 : UInt8) ∉ w

theorem Line.row {l : Bytes} (h : Line l) : Row l := by
  obtain ⟨w, rfl, hne, h13, h10⟩ := h
  cases w with
  | nil => exact absurd rfl hne
  | cons x w =>
    have h10' : (10 : UInt8) ∉ w ++ [13] := by
      rw [List.mem_append, not_or]
      exact ⟨fun h => h10 (List.mem_cons_of_mem _ h), by decide⟩
    refine ⟨x :: w, rfl, hne, ?_, by simpa using no_crlf (a := []) x (by simp) h10'⟩
    intro hh
    exact h13 (by rw [show x = 13 by simpa using hh]; exact List.mem_cons_self)

/-- **Lines and a blank line make a block.** -/
theorem block_lines {ls : List Bytes} (h : ∀ l ∈ ls, Line l) (hne : ls ≠ []) :
    Block (ls.flatten ++ [13, 10]) :=
  block_rows _ (fun l hl => (h l hl).row) hne

/-- The request line `doCreate` writes. -/
def requestLineOf (method uri : Bytes) : ReqLine := ⟨method, uri, [49], 46, [49]⟩

theorem requestLineOf_text (method uri : Bytes) : (requestLineOf method uri).text =
    method ++ ascii " /" ++ uri ++ ascii " HTTP/1.1\r\n" := by
  have h1 : ascii " /" = [32, 47] := by decide
  have h2 : ascii " HTTP/1.1\r\n" = [32, 72, 84, 84, 80, 47, 49, 46, 49, 13, 10] := by decide
  simp [requestLineOf, ReqLine.text, HTTP, h1, h2]

theorem requestLineOf_ok {method uri : Bytes} (hm : method = ascii "GET" ∨ method = ascii "PUT")
    (hu : UriOk uri) : (requestLineOf method uri).Ok := by
  have hdig : ∀ x ∈ ([49] : Bytes), isDigit x = true := List.all_eq_true.mp (by decide)
  have hm' : 1 ≤ method.length ∧ method.length ≤ 8 ∧ ∀ x ∈ method, isAlpha x = true := by
    rcases hm with rfl | rfl <;> exact ⟨by decide, by decide, List.all_eq_true.mp (by decide)⟩
  exact ⟨hm'.1, hm'.2.1, hm'.2.2, hu.pos, hu.le, hu.cls, Nat.le_refl 1, Nat.le_succ 1, hdig,
    Nat.le_refl 1, Nat.le_succ 1, hdig⟩

/-- Two texts that agree up to a separator in neither. -/
theorem append_sep_inj {a b s t : Bytes} {x : UInt8} (ha : x ∉ a) (hb : x ∉ b)
    (h : a ++ x :: s = b ++ x :: t) : a = b ∧ s = t := by
  induction a generalizing b with
  | nil =>
    cases b with
    | nil => simpa using h
    | cons y b =>
      rw [List.nil_append, List.cons_append, List.cons.injEq] at h
      exact absurd List.mem_cons_self (h.1 ▸ hb)
  | cons y a ih =>
    cases b with
    | nil =>
      rw [List.nil_append, List.cons_append, List.cons.injEq] at h
      exact absurd List.mem_cons_self (h.1 ▸ ha)
    | cons z b =>
      rw [List.cons_append, List.cons_append, List.cons.injEq] at h
      obtain ⟨rfl, rfl⟩ := ih (fun hm => ha (List.mem_cons_of_mem _ hm))
        (fun hm => hb (List.mem_cons_of_mem _ hm)) h.2
      exact ⟨by rw [h.1], rfl⟩

theorem isAlpha_ne_sp {x : UInt8} (h : isAlpha x = true) : x ≠ 32 := by
  rintro rfl; revert h; decide

theorem isUri_ne_sp {x : UInt8} (h : isUri x = true) : x ≠ 32 := by
  rintro rfl; revert h; decide

/-- `1.1` and the line end split in one way only. -/
theorem version_unique {major minor u t : Bytes} {dot : UInt8} (hM : 1 ≤ major.length)
    (hM' : ∀ x ∈ major, isDigit x = true) (hm : 1 ≤ minor.length)
    (hm' : ∀ x ∈ minor, isDigit x = true)
    (h : major ++ dot :: (minor ++ 13 :: 10 :: u) = 49 :: 46 :: 49 :: 13 :: 10 :: t) :
    major = [49] ∧ dot = 46 ∧ minor = [49] := by
  have h46 : isDigit 46 = false := by decide
  have h13 : isDigit 13 = false := by decide
  match major, hM with
  | [a], _ =>
    simp only [List.cons_append, List.nil_append, List.cons.injEq] at h
    obtain ⟨rfl, rfl, h⟩ := h
    match minor, hm with
    | [b], _ =>
      simp only [List.cons_append, List.nil_append, List.cons.injEq] at h
      exact ⟨rfl, rfl, by rw [h.1]⟩
    | b :: c :: _, _ =>
      simp only [List.cons_append, List.cons.injEq] at h
      obtain ⟨-, rfl, -⟩ := h
      have := hm' 13 (by simp)
      rw [h13] at this; cases this
  | a :: b :: _, _ =>
    simp only [List.cons_append, List.cons.injEq] at h
    obtain ⟨-, rfl, -⟩ := h
    have := hM' 46 (by simp)
    rw [h46] at this; cases this

/-- Method, URI and version are read off the line: no other split fits. -/
theorem requestLineOf_unique {method uri t : Bytes} {q : ReqLine} (hr : (requestLineOf method uri).Ok)
    (hq : q.Ok) (h : q.text <+: (requestLineOf method uri).text ++ t) :
    q = requestLineOf method uri := by
  obtain ⟨u, hu⟩ := h
  simp only [ReqLine.text, requestLineOf, HTTP, List.append_assoc, List.cons_append,
    List.nil_append] at hu
  obtain ⟨h1, hu⟩ := append_sep_inj (fun hm => isAlpha_ne_sp (hq.method_cls _ hm) rfl)
    (fun hm => isAlpha_ne_sp (hr.method_cls _ hm) rfl) hu
  rw [List.cons.injEq] at hu
  obtain ⟨h2, hu⟩ := append_sep_inj (fun hm => isUri_ne_sp (hq.uri_cls _ hm) rfl)
    (fun hm => isUri_ne_sp (hr.uri_cls _ hm) rfl) hu.2
  simp only [List.cons.injEq, true_and] at hu
  obtain ⟨h3, h4, h5⟩ := version_unique hq.major_pos hq.major_cls hq.minor_pos hq.minor_cls hu
  cases q
  simp only at h1 h2 h3 h4 h5
  subst h1 h2 h3 h4 h5
  rfl

theorem requestLineOf_no_nul {method uri : Bytes} (hr : (requestLineOf method uri).Ok) :
    (0 : UInt8) ∉ (requestLineOf method uri).text := by
  simp only [requestLineOf, ReqLine.text, HTTP, List.mem_append, List.mem_cons, not_or]
  exact ⟨fun h => (isAlpha_ne (hr.method_cls _ h)).2.2 rfl, by decide, by decide,
    fun h => (isUri_ne (hr.uri_cls _ h)).2.2 rfl, by decide⟩

/-- The method is compared by its first three bytes. -/
theorem requestLineOf_request {method : Bytes} (uri : Bytes)
    (hm : method = ascii "GET" ∨ method = ascii "PUT") :
    requestGetStr (requestLineOf method uri).request = method := by
  rcases hm with rfl | rfl <;> rfl

theorem lineOf_requestLine {method uri : Bytes} (t : Bytes) (hr : (requestLineOf method uri).Ok) :
    LineOf (cstr ((requestLineOf method uri).text ++ t)) (requestLineOf method uri) := by
  rw [cstr_append_of_not_mem _ (requestLineOf_no_nul hr)]
  rcases lineOf_or_noLine ((requestLineOf method uri).text ++ cstr t) with ⟨q, hq⟩ | hn
  · rwa [requestLineOf_unique hr hq.1 hq.2.1] at hq
  · exact absurd (List.prefix_append _ _) (hn _ hr)

/-! ## The header lines -/

/-- `key: value`, as both ends write it. -/
def headerField (key value : Bytes) : Field := ⟨key, 32, value⟩

def idField (id : Int64) : Field := headerField REQUEST_ID_KEY (decimalInt id.toInt)
def lengthField (n : Nat) : Field := headerField CONTENT_LENGTH_KEY (decimal n)
def hostField (host : Bytes) : Field := headerField (ascii "Host") host

theorem headerField_text (key value : Bytes) :
    (headerField key value).text = key ++ [58, 32] ++ value ++ [13, 10] := by
  simp [headerField, Field.text]

theorem headerField_ok (key : Bytes) {value : Bytes}
    (hk : 1 ≤ key.length ∧ key.length ≤ 128 ∧ key.all isKey = true)
    (hv : 1 ≤ value.length ∧ value.length ≤ 128 ∧ ∀ x ∈ value, isValue x = true) :
    (headerField key value).Ok :=
  ⟨hk.1, hk.2.1, List.all_eq_true.mp hk.2.2, rfl, hv.1, hv.2.1, hv.2.2⟩

theorem headerField_line {key value : Bytes} (h : (headerField key value).Ok) :
    Line (headerField key value).text := by
  have h13 : ∀ x : UInt8, x = 13 ∨ x = 10 → x ∉ key ++ 58 :: 32 :: value := by
    intro x hx hm
    rcases List.mem_append.mp hm with hm | hm
    · have := isKey_ne (h.key_cls x hm)
      rcases hx with rfl | rfl
      · exact this.2.1 rfl
      · exact this.2.2.1 rfl
    · rcases List.mem_cons.mp hm with rfl | hm
      · revert hx; decide
      · rcases List.mem_cons.mp hm with rfl | hm
        · revert hx; decide
        · have := isValue_ne (h.value_cls x hm)
          rcases hx with rfl | rfl
          · exact this.1 rfl
          · exact this.2.1 rfl
  exact ⟨key ++ 58 :: 32 :: value, by simp [headerField, Field.text], by simp,
    h13 13 (.inl rfl), h13 10 (.inr rfl)⟩

theorem isDigit_of_range {x : UInt8} (h : 48 ≤ x.toNat ∧ x.toNat ≤ 57) : isDigit x = true := by
  simp only [isDigit, Bool.and_eq_true, decide_eq_true_eq, UInt8.le_iff_toNat_le]
  exact h

theorem decimal_value {n : Nat} (h : n < 10 ^ 20) : 1 ≤ (decimal n).length ∧
    (decimal n).length ≤ 20 ∧ ∀ x ∈ decimal n, isValue x = true :=
  ⟨List.length_pos_of_ne_nil (decimal_ne_nil n), decimal_length_le (by decide) h,
    fun x hx => by simp [isValue, isDigit_of_range (decimal_digits hx)]⟩

theorem idField_ok (id : Int64) : (idField id).Ok := by
  have h1 := id.toInt_lt; have h2 := id.le_toInt
  obtain ⟨v1, v2, v3⟩ := decimal_value (n := id.toInt.natAbs) (by omega)
  have h45 : isValue 45 = true := by decide
  apply headerField_ok _ (by decide)
  unfold decimalInt
  split
  · exact ⟨by simp, by simp only [List.length_cons]; omega, List.forall_mem_cons.mpr ⟨h45, v3⟩⟩
  · exact ⟨v1, by omega, v3⟩

theorem lengthField_ok {n : Nat} (h : n ≤ 1 <<< 30) : (lengthField n).Ok := by
  obtain ⟨v1, v2, v3⟩ := decimal_value (n := n) (Nat.lt_of_le_of_lt h (by decide))
  exact headerField_ok _ (by decide) ⟨v1, by omega, v3⟩

/-- `strtoull` undoes `{d}` below saturation. -/
theorem strtoull_decimal {n : Nat} (h : n < 2 ^ 64) : strtoull (decimal n) = n := by
  have hdig : ∀ x ∈ decimal n, isDigit x = true := fun x hx => isDigit_of_range (decimal_digits hx)
  have hval := valueOf_decimal n
  rw [strtoull_digits (decimal_ne_nil n) hdig (by omega), hval]

/-! ## The round trip -/

/-- No extra headers, or one `Host` line. -/
def HostHeader (h : Bytes) : Prop :=
  h = [] ∨ ∃ host : Bytes, 1 ≤ host.length ∧ host.length ≤ 128 ∧ (∀ x ∈ host, isValue x = true) ∧
    h = ascii "Host: " ++ host ++ ascii "\r\n"

/-- What `doCreate` wrote: fields the server's pattern accepts, and which
values they carry. -/
structure Built (c : Create) (d : DriverConn) (fs : List Field) : Prop where
  line : d.requestLine = (requestLineOf c.method c.uri).text
  headers : d.headers = (fs.map Field.text).flatten ++ [13, 10]
  body : d.body = c.infile.getD []
  body_le : d.body.length ≤ 1 <<< 30
  fresh : d.sent = 0 ∧ d.wire = []
  few : fs.length ≤ 3
  ok : ∀ f ∈ fs, f.Ok
  lines : ∀ f ∈ fs, Line f.text
  length : lastLength fs 0 = d.body.length
  id : lastId fs (ascii "0") = decimalInt c.id.toInt

theorem host_fields {h : Bytes} (hx : HostHeader h) :
    ∃ hs : List Field, h = (hs.map Field.text).flatten ∧ hs.length ≤ 1 ∧ (∀ f ∈ hs, f.Ok) ∧
      (∀ f ∈ hs, Line f.text) ∧ ∀ f ∈ hs, f.key = ascii "Host" ∧ f.sp = 32 := by
  rcases hx with rfl | ⟨host, h1, h2, h3, rfl⟩
  · exact ⟨[], by simp⟩
  · have hk := headerField_ok (ascii "Host") (by decide) ⟨h1, h2, h3⟩
    refine ⟨[hostField host], ?_, by simp, ?_, ?_, ?_⟩
    · have e1 : ascii "Host: " = ascii "Host" ++ [58, 32] := by decide
      have e2 : ascii "\r\n" = [13, 10] := by decide
      simp [hostField, headerField_text, e1, e2]
    · intro f hf; rw [List.mem_singleton.mp hf]; exact hk
    · intro f hf; rw [List.mem_singleton.mp hf]; exact headerField_line hk
    · simp [hostField, headerField]

/-- Fields of other names leave the two values alone. -/
theorem last_host {hs : List Field} (h : ∀ f ∈ hs, f.key = ascii "Host") (a : Int) (v : Bytes) :
    lastLength hs a = a ∧ lastId hs v = v := by
  have e1 : ascii "Host" ≠ CONTENT_LENGTH_KEY := by decide
  have e2 : ascii "Host" ≠ REQUEST_ID_KEY := by decide
  induction hs with
  | nil => exact ⟨rfl, rfl⟩
  | cons f hs ih =>
    obtain ⟨hf, hhs⟩ := List.forall_mem_cons.mp h
    obtain ⟨i1, i2⟩ := ih hhs
    simp only [lastLength, lastId, List.foldl_cons, hf, e1, e2, if_false] at i1 i2 ⊢
    exact ⟨i1, i2⟩

theorem createBody_spec {infile : Option Bytes} {body : Bytes} (h : createBody infile = some body) :
    body = infile.getD [] ∧ body.length ≤ 1 <<< 30 := by
  cases infile with
  | none => cases h; exact ⟨rfl, Nat.zero_le _⟩
  | some f =>
    simp only [createBody, readFileAlloc] at h
    split at h
    · cases h; exact ⟨rfl, ‹_›⟩
    · cases h

/-- The header lines `doCreate` adds itself. -/
def createLines (id : Int64) (n : Nat) : List Field :=
  idField id :: if 0 < n then [lengthField n] else []

theorem doCreate_eq {opts : Options} {c : Create} {d : DriverConn} (hd : doCreate opts c = some d) :
    createBody c.infile = some d.body ∧ d.requestLine = (requestLineOf c.method c.uri).text ∧
      d.headers = opts.extraHeaders ++
        ((createLines c.id d.body.length).map Field.text).flatten ++ [13, 10] ∧
      d.sent = 0 ∧ d.wire = [] := by
  simp only [doCreate, Option.bind_eq_bind, Option.bind_eq_some_iff, Option.some.injEq] at hd
  obtain ⟨body, hb, rfl⟩ := hd
  have e2 : ascii "\r\n" = [13, 10] := by decide
  have et1 : ascii "Request-Id: " = REQUEST_ID_KEY ++ [58, 32] := by decide
  have et2 : ascii "Content-Length: " = CONTENT_LENGTH_KEY ++ [58, 32] := by decide
  refine ⟨hb, by rw [requestLineOf_text], ?_, rfl, rfl⟩
  by_cases hpos : 0 < body.length
  · simp [createLines, hpos, idField, lengthField, headerField_text, et1, et2, e2]
  · simp [createLines, hpos, idField, headerField_text, et1, e2]

/-- They carry the id and the length, and nothing else. -/
theorem last_createLines (id : Int64) {n : Nat} (h : n ≤ 1 <<< 30) (v : Bytes) :
    lastLength (createLines id n) 0 = n ∧ lastId (createLines id n) v = decimalInt id.toInt := by
  have ek : CONTENT_LENGTH_KEY ≠ REQUEST_ID_KEY := by decide
  by_cases hpos : 0 < n
  · have hv : ssize (strtoull (decimal n)) = n := by
      have : n < 2 ^ 63 := Nat.lt_of_le_of_lt h (by decide)
      rw [strtoull_decimal (by omega), ssize, if_pos this]
    simp [createLines, hpos, lastLength, lastId, idField, lengthField, headerField, hv, ek]
  · obtain rfl : n = 0 := by omega
    simp [createLines, lastLength, lastId, idField, headerField, ek.symm]

theorem doCreate_built {opts : Options} {c : Create} {d : DriverConn}
    (hd : doCreate opts c = some d) (hx : HostHeader opts.extraHeaders) :
    ∃ hs : List Field, (∀ f ∈ hs, f.key = ascii "Host" ∧ f.sp = 32) ∧
      Built c d (hs ++ createLines c.id d.body.length) := by
  obtain ⟨hs, hh, hl, hok, hln, hkey⟩ := host_fields hx
  obtain ⟨hb, hline, hhead, hfresh⟩ := doCreate_eq hd
  obtain ⟨hbe, hble⟩ := createBody_spec hb
  obtain ⟨l1, l2⟩ := last_host (fun f hf => (hkey f hf).1) 0 (ascii "0")
  obtain ⟨v1, v2⟩ := last_createLines c.id hble (ascii "0")
  have hfields : ∀ f ∈ createLines c.id d.body.length, f.Ok ∧ Line f.text := by
    intro f hf
    rcases List.mem_cons.mp hf with rfl | hf
    · exact ⟨idField_ok c.id, headerField_line (idField_ok c.id)⟩
    · split at hf
      · rw [List.mem_singleton.mp hf]
        exact ⟨lengthField_ok hble, headerField_line (lengthField_ok hble)⟩
      · cases hf
  refine ⟨hs, hkey, hline, ?_, hbe, hble, hfresh, ?_, ?_, ?_, ?_, ?_⟩
  · rw [hhead, hh, List.map_append, List.flatten_append]
  · have : (createLines c.id d.body.length).length ≤ 2 := by
      unfold createLines; split <;> simp
    rw [List.length_append]; omega
  · exact List.forall_mem_append.mpr ⟨hok, fun f hf => (hfields f hf).1⟩
  · exact List.forall_mem_append.mpr ⟨hln, fun f hf => (hfields f hf).2⟩
  · simp only [lastLength] at l1 v1 ⊢
    rw [List.foldl_append, l1, v1]
  · simp only [lastId] at l2 v2 ⊢
    rw [List.foldl_append, l2, v2]

theorem Built.block {c : Create} {d : DriverConn} {fs : List Field} (h : Built c d fs)
    (hr : (requestLineOf c.method c.uri).Ok) :
    Block (d.requestLine ++ d.headers) ∧ (d.requestLine ++ d.headers).length ≤ BUFFER_SIZE := by
  have hline : Line (requestLineOf c.method c.uri).text := by
    have hno : ∀ x : UInt8, x = 13 ∨ x = 10 →
        x ∉ c.method ++ 32 :: 47 :: (c.uri ++ (HTTP ++ [49, 46, 49])) := by
      intro x hx hm
      simp only [List.mem_append, List.mem_cons] at hm
      rcases hm with hm | rfl | rfl | hm | hm
      · obtain ⟨h1, h2, -⟩ := isAlpha_ne (hr.method_cls x hm)
        rcases hx with rfl | rfl
        · exact h2 rfl
        · exact h1 rfl
      · revert hx; decide
      · revert hx; decide
      · obtain ⟨h1, h2, -⟩ := isUri_ne (hr.uri_cls x hm)
        rcases hx with rfl | rfl
        · exact h2 rfl
        · exact h1 rfl
      · rcases hx with rfl | rfl <;> revert hm <;> decide
    exact ⟨_, by simp [requestLineOf, ReqLine.text], by simp, hno 13 (.inl rfl), hno 10 (.inr rfl)⟩
  have e : d.requestLine ++ d.headers =
      ((requestLineOf c.method c.uri).text :: fs.map Field.text).flatten ++ [13, 10] := by
    rw [h.line, h.headers]; simp
  have hle : ∀ gs : List Field, (∀ f ∈ gs, f.Ok) →
      (gs.map Field.text).flatten.length ≤ 260 * gs.length := by
    intro gs hg
    induction gs with
    | nil => simp
    | cons f gs ih =>
      obtain ⟨hf, hgs⟩ := List.forall_mem_cons.mp hg
      have h1 := hf.key_le; have h2 := hf.value_le; have h3 := ih hgs
      simp only [List.map_cons, List.flatten_cons, List.length_append, Field.text_length,
        List.length_cons]
      omega
  rw [e]
  refine ⟨block_lines ?_ (by simp), ?_⟩
  · intro l hl
    rcases List.mem_cons.mp hl with rfl | hl
    · exact hline
    · obtain ⟨f, hf, rfl⟩ := List.mem_map.mp hl
      exact h.lines f hf
  · have h1 := hle fs h.ok; have h2 := hr.length_le; have h3 := h.few
    simp only [List.flatten_cons, List.length_append, List.length_cons, List.length_nil, BUFFER_SIZE]
    omega

/-- Reading the whole body back: what is buffered, then the rest. -/
theorem recv_body {L b t : Bytes} {r : ReqLine} {fs : List Field} {s' : Src UInt8}
    (hlen : lastLength fs 0 = (b ++ s'.pending).length) (hc : Cut s'.script) (ht : t = r.text ++ (L ++ [13, 10]))
    (ws : List WriteEv) (hw : Writes ws) :
    (connRecvFile (accepted (t ++ b) r fs L.length) s' ⟨[], ws⟩).1 = none ∧
      (connRecvFile (accepted (t ++ b) r fs L.length) s' ⟨[], ws⟩).2.2.written =
        b ++ s'.pending := by
  obtain ⟨q, hq, -, -, hall⟩ := connRecvFile_spec (accepted (t ++ b) r fs L.length) s' ⟨[], ws⟩
  obtain ⟨h1, h2, -⟩ := hall hc hw
  have hleft : leftover (accepted (t ++ b) r fs L.length) = b := by
    rw [leftover_accepted]
    have : t.length = r.text.length + (L.length + 2) := by rw [ht]; simp
    rw [← this, List.drop_left]
  have hrem : remaining (accepted (t ++ b) r fs L.length) = s'.pending.length := by
    rw [remaining, hleft]
    simp only [accepted, hlen, List.length_append]
    omega
  refine ⟨h1, ?_⟩
  rw [hq, h2, hleft, hrem, List.take_length, List.nil_append]

/-- What the server makes of a request on the wire, as long as the buffered
part of the body holds nothing that reads as a header line. -/
theorem create_parses {opts : Options} {c : Create} {d : DriverConn} {es : List ReadEv}
    (hd : doCreate opts c = some d) (hx : HostHeader opts.extraHeaders)
    (hm : c.method = ascii "GET" ∨ c.method = ascii "PUT") (hu : UriOk c.uri) (hc : Cut es)
    (hno : ∀ b s', readUntil ⟨d.requestLine ++ d.headers ++ d.body, es⟩ BUFFER_SIZE BLANK_LINE =
        (.ok (d.requestLine ++ d.headers ++ b), s') → b <+: d.body → NoField (cstr b)) :
    ∃ conn s', connParse .ok ⟨d.requestLine ++ d.headers ++ d.body, es⟩ = (none, conn, s') ∧
      requestGetStr conn.request = c.method ∧ conn.uri = c.uri ∧
      conn.requestId = decimalInt c.id.toInt ∧ conn.contentLength = (c.infile.getD []).length ∧
      ∀ ws, Writes ws → (connRecvFile conn s' ⟨[], ws⟩).1 = none ∧
        (connRecvFile conn s' ⟨[], ws⟩).2.2.written = c.infile.getD [] := by
  obtain ⟨hs, -, hb⟩ := doCreate_built hd hx
  generalize hs ++ createLines c.id d.body.length = fs at hb
  have hr := requestLineOf_ok hm hu
  obtain ⟨hblock, hle⟩ := hb.block hr
  obtain ⟨buf, s', b, h1, h2, h3, -, -, hc'⟩ := readUntil_block
    (s := ⟨d.requestLine ++ d.headers ++ d.body, es⟩) hblock hle (octets_self _) hc
  rw [octets_self] at h3; subst h3
  simp only [List.append_assoc, List.append_cancel_left_eq] at h2
  have hnof : NoField (cstr b) := hno b s' h1 (by rw [h2]; exact List.prefix_append _ _)
  have hscan := scan_texts hb.ok
  have e : d.requestLine ++ d.headers = (requestLineOf c.method c.uri).text ++
      ((fs.map Field.text).flatten ++ [13, 10]) := by rw [hb.line, hb.headers]
  have h0 : (0 : UInt8) ∉ (requestLineOf c.method c.uri).text ++
      ((fs.map Field.text).flatten ++ [13, 10]) := by
    simp only [List.mem_append, List.mem_flatten, List.mem_map, not_or]
    refine ⟨requestLineOf_no_nul hr, ?_, by decide⟩
    intro h
    obtain ⟨l, ⟨f, hf, rfl⟩, hz⟩ := h
    exact (hb.ok f hf).no_nul hz
  have hall := scan_block (lines_texts fs) h0 hscan (.done hnof)
  rw [if_pos rfl, List.append_nil] at hall
  rw [e] at h1 ⊢
  have hl : LineOf (cstr (octets ((requestLineOf c.method c.uri).text ++
      ((fs.map Field.text).flatten ++ [13, 10]) ++ b))) (requestLineOf c.method c.uri) := by
    rw [octets_self, List.append_assoc]; exact lineOf_requestLine _ hr
  refine ⟨_, _, connParse_accept h1 hl rfl (by rw [octets_self]; exact hall), ?_, rfl, hb.id, ?_, ?_⟩
  · exact requestLineOf_request c.uri hm
  · rw [← hb.body]; exact hb.length
  · intro ws hw
    rw [← hb.body, h2]
    refine recv_body ?_ hc' rfl ws hw
    rw [hb.length, h2]

/-- Where nothing fits the pattern, neither does anything in the C string of a
first part. -/
theorem noField_of_noFit {t b : Bytes} (hb : b <+: t)
    (hno : ∀ i ps, ¬ FitsAt HEADER_FIELD.items (t.drop i) ps) : NoField (cstr b) := by
  intro j g hg ht
  refine hno j _ (fitsAt_header.mpr ⟨g, hg, ?_, rfl⟩)
  exact ht.trans ((cstr_initial b).trans hb |>.drop j)

/-- **Round trip.** Whatever events send the request to its end and however
the server reads it, as long as the buffered part of the body holds nothing
that reads as a header line, the server parses what the driver was told to
send and stores the body it sent. -/
theorem create_roundtrip (opts : Options) (c : Create) (d : DriverConn) (evs : List SendEvent)
    (es : List ReadEv) (hd : doCreate opts c = some d) (hx : HostHeader opts.extraHeaders)
    (hm : c.method = ascii "GET" ∨ c.method = ascii "PUT") (hu : UriOk c.uri) (hs : Sends d evs)
    (hc : Cut es)
    (hno : ∀ buf s', readUntil ⟨(evs.foldl DriverConn.run d).wire, es⟩ BUFFER_SIZE BLANK_LINE =
        (.ok buf, s') →
      ∀ i ps, ¬ FitsAt HEADER_FIELD.items
        ((buf.drop (d.requestLine ++ d.headers).length).drop i) ps) :
    ∃ conn s', connParse .ok ⟨(evs.foldl DriverConn.run d).wire, es⟩ = (none, conn, s') ∧
      requestGetStr conn.request = c.method ∧ conn.uri = c.uri ∧
      conn.requestId = decimalInt c.id.toInt ∧ conn.contentLength = (c.infile.getD []).length ∧
      ∀ ws, Writes ws → (connRecvFile conn s' ⟨[], ws⟩).1 = none ∧
        (connRecvFile conn s' ⟨[], ws⟩).2.2.written = c.infile.getD [] := by
  obtain ⟨gs, -, hb⟩ := doCreate_built hd hx
  rw [hs.wire hb.fresh.1 hb.fresh.2] at hno ⊢
  refine create_parses hd hx hm hu hc fun b s' h1 _ => noField_of_noFit (List.prefix_refl b) ?_
  have := hno _ s' h1
  rwa [List.drop_left] at this

/-- A body shorter than any header line is never mistaken for one. -/
theorem short_noFit {b : Bytes} (h : b.length < 6) (i : Nat) (ps : List Bytes) :
    ¬ FitsAt HEADER_FIELD.items (b.drop i) ps := by
  intro hf
  obtain ⟨g, hg, ht, -⟩ := fitsAt_header.mp hf
  exact noField_short h i g hg ht

/-- `PUT /a` with request id -7 and body `hi`. -/
def putHi : Create := ⟨-7, ascii "PUT", ascii "a", some (ascii "hi")⟩

/-- The driver sends it in four writes, the server's first `read()` takes six
bytes. -/
theorem roundtrip_putHi : ∃ d, doCreate {} putHi = some d ∧
    ∃ conn s', connParse .ok ⟨(([.sendLine, .sendHeaders, .sendBody (some 1),
        .sendBody none] : List SendEvent).foldl DriverConn.run d).wire, [.got 5]⟩ =
          (none, conn, s') ∧
      requestGetStr conn.request = ascii "PUT" ∧ conn.uri = ascii "a" ∧
      conn.requestId = ascii "-7" ∧ conn.contentLength = 2 ∧
      ∀ ws, Writes ws → (connRecvFile conn s' ⟨[], ws⟩).1 = none ∧
        (connRecvFile conn s' ⟨[], ws⟩).2.2.written = ascii "hi" := by
  obtain ⟨d, hd⟩ : ∃ d, doCreate {} putHi = some d := ⟨_, rfl⟩
  obtain ⟨gs, -, hb⟩ := doCreate_built hd (.inl rfl)
  have hid : decimalInt putHi.id.toInt = ascii "-7" := by decide
  have hs : Sends d [.sendLine, .sendHeaders, .sendBody (some 1), .sendBody none] := by
    refine .inr ⟨[some 1, none], rfl, ?_⟩
    obtain rfl : _ = d := Option.some.inj hd
    rfl
  have h := create_roundtrip {} putHi d _ [.got 5] hd (.inl rfl) (.inr rfl)
    (by decide) hs (by decide) fun buf s' hr => short_noFit (by
      have hp := (readUntil_ok hr).1
      rw [hs.wire hb.fresh.1 hb.fresh.2] at hp
      have := congrArg List.length hp
      rw [hb.body] at this
      simp only [List.length_append, List.length_drop] at this ⊢
      have h2 : (putHi.infile.getD []).length = 2 := by decide
      omega)
  rw [hid] at h
  exact ⟨d, hd, h⟩

end HttpC.L6
