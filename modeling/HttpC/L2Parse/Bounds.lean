import HttpC.Core.CBuf
import HttpC.L2Parse.Block

/-!
# The request parser in its arrays

`src/connection.c:60-285` over `struct Conn` with its arrays: `buffer[4097]`,
`uri[64]`, `request_id[129]`, and the local `value[129]` of `parse_headers`.
Every access is checked (`HttpC.CBuf`), every `return` of `process_request`
is told apart (`Exit`), and a header loop that does not end is a failure too,
so that "stays in bounds and ends" is "is not `none`".

`ConnBuf.conn` forgets the arrays. The checked parser never fails and computes
what the model of `HttpC.L2Parse.Conn` computes (`connParseBuf_spec`), for
every content of the buffer.
-/
namespace HttpC.L2
open HttpC.L1.Util HttpC.Regex

/-- mirrors src/connection.c:60-71 -/
structure ConnBuf where
  buffer : Bytes
  bytesRead : Nat
  messageStart : Nat
  inMessage : Int
  contentLength : Int
  uri : Bytes
  requestId : Bytes
  request : Request
  deriving DecidableEq, Repr

/-- The connection as the rest of the model has it. -/
def ConnBuf.conn (c : ConnBuf) : Conn UInt8 where
  buffer := c.buffer.take c.bytesRead
  bytesRead := c.bytesRead
  messageStart := c.messageStart
  inMessage := c.inMessage
  contentLength := c.contentLength
  uri := cstr c.uri
  requestId := cstr c.requestId
  request := c.request

/-- A connection fresh from `conn_new` into whose buffer `read_until` has
stored `n` bytes; `mem` is the whole array.
mirrors src/connection.c:228-237,247-262 -/
def connNewBuf (mem : Bytes) (n : Nat) : ConnBuf where
  buffer := mem
  bytesRead := n
  messageStart := 0
  inMessage := 0
  contentLength := 0
  uri := List.replicate 64 0
  requestId := ascii "0" ++ List.replicate 128 0
  request := .UNSUPPORTED

/-- Where `process_request` returned. -/
inductive Exit where
  | badPattern | noRequestLine | uriTooLong | minorTooLong | badVersion | emptyUri | accepted
  deriving DecidableEq, Repr

def Exit.response : Exit → Option Response
  | .badPattern => some .INTERNAL_SERVER_ERROR
  | .noRequestLine => some .BAD_REQUEST
  | .uriTooLong => some .BAD_REQUEST
  | .minorTooLong => some .BAD_REQUEST
  | .badVersion => some .VERSION_NOT_SUPPORTED
  | .emptyUri => some .BAD_REQUEST
  | .accepted => none

/-- `sizeof(value)` and `sizeof(conn->request_id)`. -/
def VALUE_SIZE : Nat := 129

/-- mirrors src/connection.c:144-152 -/
def storeFieldBuf (key : Bytes) (keyLen : Nat) (value : Bytes) (c : ConnBuf) : Option ConnBuf :=
  if keyLen = CONTENT_LENGTH_KEY.length ∧ strncmpEq key CONTENT_LENGTH_KEY keyLen then do
    let v ← CBuf.str value 0
    some { c with contentLength := ssize (strtoull v) }
  else if keyLen = REQUEST_ID_KEY.length ∧ strncmpEq key REQUEST_ID_KEY keyLen then do
    let v ← CBuf.str value 0
    let id ← CBuf.strncpy c.requestId v (VALUE_SIZE - 1)
    let id ← CBuf.put id (VALUE_SIZE - 1) 0
    some { c with requestId := id }
  else some c

/-- `value` is the uninitialised local array.
mirrors src/connection.c:131-155 -/
def parseHeadersLoopBuf (value : Bytes) : Nat → Nat → ConnBuf → Option (Nat × ConnBuf)
  | 0, _, _ => none
  | fuel + 1, offset, c => do
    let headers := c.messageStart + offset
    match regexec HEADER_FIELD (← CBuf.str c.buffer headers) with
    | some (m0 :: m1 :: m2 :: _) =>
      let keyLen := m1.eo - m1.so
      let valueLen := m2.eo - m2.so
      let copy ← CBuf.memcpy value c.buffer (headers + m2.so) valueLen
      let copy ← CBuf.put copy valueLen 0
      let key ← CBuf.str c.buffer (headers + m1.so)
      let c' ← storeFieldBuf key keyLen copy c
      parseHeadersLoopBuf value fuel (offset + m0.eo) c'
    | _ => some (offset, c)

/-- mirrors src/connection.c:113-160 -/
def parseHeadersBuf (rc : Regcomp) (value : Bytes) (c : ConnBuf) : Option (Exit × ConnBuf) :=
  if rc.headerField = false then some (.badPattern, c)
  else do
    let (offset, c') ← parseHeadersLoopBuf value (c.buffer.length + 1) 0 c
    some (.accepted, { c' with messageStart := c'.messageStart + (offset + 2) })

/-- mirrors src/connection.c:163-226 -/
def processRequestBuf (rc : Regcomp) (value : Bytes) (c : ConnBuf) : Option (Exit × ConnBuf) :=
  if rc.requestLine = false then some (.badPattern, c)
  else do
    match regexec REQUEST_LINE (← CBuf.str c.buffer 0) with
    | some (_ :: m1 :: m2 :: _ :: m4 :: _) =>
      let tok ← CBuf.str c.buffer m1.so
      let c := { c with request := methodOf tok }
      let uriLen := m2.eo - m2.so
      if uriLen ≥ c.uri.length then some (.uriTooLong, c)
      else do
        let uri ← CBuf.memcpy c.uri c.buffer m2.so uriLen
        let uri ← CBuf.put uri uriLen 0
        let c := { c with uri := uri }
        if m4.eo - m4.so > 1 then some (.minorTooLong, c)
        else do
          let minor ← CBuf.str c.buffer m4.so
          if strncmpEq minor (ascii "1") 1 = false then some (.badVersion, c)
          else do
            let c := { c with messageStart := m4.eo + 2 }
            -- `validate_uri`: `conn->uri[0] == '\0'`
            if (← CBuf.str c.uri 0) = [] then some (.emptyUri, c)
            else parseHeadersBuf rc value c
    | _ => some (.noRequestLine, c)

/-- `conn_parse` once `read_until` has stored `c.bytesRead > 0` bytes.
mirrors src/connection.c:272-284 -/
def connParseBuf (rc : Regcomp) (value : Bytes) (c : ConnBuf) : Option (Exit × ConnBuf) := do
  let buffer ← CBuf.put c.buffer c.bytesRead 0
  let (exit, c) ← processRequestBuf rc value { c with buffer := buffer }
  if exit = .accepted then
    some (exit, { c with inMessage := c.bytesRead - c.messageStart })
  else some (exit, c)

/-! ## The arrays between calls -/

/-- The arrays have their sizes, the bytes read are terminated. -/
structure ConnBuf.Wf (c : ConnBuf) : Prop where
  buffer : c.buffer.length = BUFFER_SIZE + 1
  read : c.bytesRead ≤ BUFFER_SIZE
  nul : c.buffer[c.bytesRead]? = some 0
  uri : c.uri.length = 64
  requestId : c.requestId.length = VALUE_SIZE
  requestIdLe : (cstr c.requestId).length ≤ VALUE_SIZE - 1

theorem ConnBuf.Wf.split {c : ConnBuf} (h : c.Wf) :
    ∃ rest, c.buffer = c.conn.buffer ++ 0 :: rest := by
  obtain ⟨hlt, hx⟩ := List.getElem?_eq_some_iff.mp h.nul
  refine ⟨c.buffer.drop (c.bytesRead + 1), ?_⟩
  rw [← hx, ← List.drop_eq_getElem_cons hlt]
  exact (List.take_append_drop _ _).symm

theorem ConnBuf.Wf.length {c : ConnBuf} (h : c.Wf) : c.conn.buffer.length = c.bytesRead := by
  have h1 := h.buffer
  have h2 := h.read
  rw [ConnBuf.conn, List.length_take]
  omega

/-- The string at an offset inside the bytes read is the model's. -/
theorem ConnBuf.Wf.str {c : ConnBuf} (h : c.Wf) {p : Nat} (hp : p ≤ c.bytesRead) :
    CBuf.str c.buffer p = some (cstr (c.conn.buffer.drop p)) := by
  obtain ⟨rest, hrest⟩ := h.split
  have hl := h.length
  have hdrop : c.buffer.drop p = c.conn.buffer.drop p ++ 0 :: rest := by
    rw [hrest, List.drop_append_of_le_length (by omega)]
  rw [CBuf.str_eq (by rw [hdrop]; simp), hdrop, CBuf.cstr_append_zero]

theorem ConnBuf.conn_initial (c : ConnBuf) (p : Nat) :
    c.conn.buffer.drop p <+: c.buffer.drop p := (List.take_prefix _ _).drop p

theorem strncmpEq_cstr (s t : Bytes) (n : Nat) : strncmpEq (cstr s) t n = strncmpEq s t n := by
  unfold strncmpEq
  rw [CBuf.cstr_cstr]

theorem regexec_cstr (p : Pat) (s : Bytes) : regexec p (cstr s) = regexec p s := by
  unfold regexec
  rw [CBuf.cstr_cstr]

theorem ConnBuf.Wf.move {c : ConnBuf} (h : c.Wf) (n : Nat) :
    ({ c with messageStart := n } : ConnBuf).Wf :=
  ⟨h.buffer, h.read, h.nul, h.uri, h.requestId, h.requestIdLe⟩

/-! ## The header loop -/

/-- What one header line keeps. -/
structure Keeps (c c' : ConnBuf) : Prop where
  wf : c'.Wf
  buffer : c'.buffer = c.buffer
  bytesRead : c'.bytesRead = c.bytesRead
  messageStart : c'.messageStart = c.messageStart
  uri : c'.uri = c.uri

theorem Keeps.refl {c : ConnBuf} (h : c.Wf) : Keeps c c := ⟨h, rfl, rfl, rfl, rfl⟩

theorem Keeps.trans {a b c : ConnBuf} (h : Keeps a b) (h' : Keeps b c) : Keeps a c :=
  ⟨h'.wf, h'.buffer.trans h.buffer, h'.bytesRead.trans h.bytesRead,
    h'.messageStart.trans h.messageStart, h'.uri.trans h.uri⟩

/-- A matched line is stored as the model stores it. The captured value fits
`value` and `request_id` because the pattern takes at most 128 octets. -/
theorem storeFieldBuf_eq {c : ConnBuf} (hc : c.Wf) {f : Field} (hf : f.Ok) (t rest : Bytes) :
    ∃ c', storeFieldBuf (cstr (f.text ++ t)) f.key.length (f.value ++ 0 :: rest) c = some c' ∧
      c'.conn = applyField c.conn f ∧ Keeps c c' := by
  have h0 : (0 : UInt8) ∉ f.value := fun h => (isValue_ne (hf.value_cls 0 h)).2.2 rfl
  have hv : CBuf.str (f.value ++ 0 :: rest) 0 = some f.value := by
    rw [CBuf.str_eq (by simp), List.drop_zero, CBuf.cstr_append_nul h0]
  unfold storeFieldBuf applyField
  simp only [strncmpEq_cstr, strncmpEq_key hf t (show (0 : UInt8) ∉ CONTENT_LENGTH_KEY by decide),
    strncmpEq_key hf t (show (0 : UInt8) ∉ REQUEST_ID_KEY by decide), hv]
  by_cases hk : f.key = CONTENT_LENGTH_KEY
  · rw [if_pos hk, if_pos hk]
    exact ⟨_, rfl, rfl, ⟨hc.buffer, hc.read, hc.nul, hc.uri, hc.requestId, hc.requestIdLe⟩,
      rfl, rfl, rfl, rfl⟩
  · rw [if_neg hk, if_neg hk]
    by_cases hr : f.key = REQUEST_ID_KEY
    · rw [if_pos hr, if_pos hr]
      have hle : f.value.length ≤ VALUE_SIZE - 1 := hf.value_le
      obtain ⟨d, hcopy, hput⟩ := CBuf.strncpy_put (n := VALUE_SIZE - 1) hc.requestId hle
      simp only [Option.bind_eq_bind, Option.bind_some, hcopy, hput]
      have hcs := CBuf.cstr_append_nul h0 (List.replicate (VALUE_SIZE - 1 - f.value.length) 0)
      refine ⟨_, rfl, ?_, ⟨hc.buffer, hc.read, hc.nul, hc.uri, ?_, ?_⟩, rfl, rfl, rfl, rfl⟩
      · simp only [ConnBuf.conn, hcs]
      · simp only [List.length_append, List.length_cons, List.length_replicate]
        unfold VALUE_SIZE at hle ⊢
        omega
      · simp only [hcs]
        exact hle
    · rw [if_neg hr, if_neg hr]
      exact ⟨c, rfl, rfl, .refl hc⟩

/-- One round over the line `f` found at `i`. -/
theorem parseHeadersLoopBuf_round {value : Bytes} (hvl : value.length = VALUE_SIZE) {c : ConnBuf}
    (hc : c.Wf) {offset i : Nat} {f : Field} (hat : c.messageStart + offset ≤ c.bytesRead)
    (hf : FirstAt (cstr (c.conn.buffer.drop (c.messageStart + offset))) i f) (fuel : Nat) :
    ∃ c', parseHeadersLoopBuf value (fuel + 1) offset c =
        parseHeadersLoopBuf value fuel (offset + (i + f.text.length)) c' ∧
      c'.conn = applyField c.conn f ∧ Keeps c c' := by
  generalize hh : c.messageStart + offset = headers at hat hf
  -- the line stands in the buffer, with the rest behind it
  have hin := hf.text.trans ((cstr_initial _).drop i)
  rw [List.drop_drop] at hin
  obtain ⟨t, ht⟩ := hin
  have hin' : f.text <+: c.buffer.drop (headers + i) :=
    .trans ⟨t, ht⟩ (ConnBuf.conn_initial c (headers + i))
  obtain ⟨t', ht'⟩ := hin'
  have hle : headers + i ≤ c.bytesRead := by
    have h1 := congrArg List.length ht
    have h2 := hf.ok.key_pos
    rw [List.length_append, Field.text_length, List.length_drop, hc.length] at h1
    omega
  have hval : c.buffer.drop (headers + (i + f.key.length + 2)) = f.value ++ 13 :: 10 :: t' := by
    rw [show headers + (i + f.key.length + 2) = headers + i + (f.key.length + 2) by omega,
      ← List.drop_drop, ← ht', Field.text_drop]
  have hroom : f.value.length < value.length := by
    have := hf.ok.value_le
    rw [hvl, VALUE_SIZE]
    omega
  obtain ⟨d, hcopy, hput⟩ := CBuf.memcpy_put hval hf.ok.value_pos hroom
  obtain ⟨c', hstore, hconn, hkeep⟩ :=
    storeFieldBuf_eq hc hf.ok t (value.drop (f.value.length + 1))
  refine ⟨c', ?_, hconn, hkeep⟩
  simp only [parseHeadersLoopBuf, hh, hc.str hat, Option.bind_eq_bind, Option.bind_some,
    regexec_cstr, regexec_header hf, Nat.add_sub_cancel_left, hcopy, hput, hc.str hle, ← ht, hstore]

/-- The checked loop follows the scan: it ends, and no copy of it fails. -/
theorem parseHeadersLoopBuf_scan {value : Bytes} (hvl : value.length = VALUE_SIZE) {T : Bytes}
    {fs : List Field} {n offset fuel : Nat} {c : ConnBuf} (hc : c.Wf)
    (hat : c.messageStart + offset ≤ c.bytesRead)
    (hT : T = cstr (c.conn.buffer.drop (c.messageStart + offset))) (h : Scan T fs n)
    (hfuel : T.length < fuel) :
    ∃ c', parseHeadersLoopBuf value fuel offset c = some (offset + n, c') ∧
      c'.conn = fs.foldl applyField c.conn ∧ Keeps c c' := by
  induction h generalizing offset fuel c with
  | done h0 =>
    cases fuel with
    | zero => omega
    | succ fuel =>
      refine ⟨c, ?_, rfl, .refl hc⟩
      rw [hT] at h0
      simp only [parseHeadersLoopBuf, hc.str hat, Option.bind_eq_bind, Option.bind_some,
        regexec_cstr, regexec_header_none h0, Nat.add_zero]
  | @next T i f fs n hfst _ ih =>
    cases fuel with
    | zero => omega
    | succ fuel =>
      have hl := hfst.text.length_le
      rw [List.length_drop, Field.text_length] at hl
      have hTl : T.length ≤ c.bytesRead - (c.messageStart + offset) := by
        rw [hT, ← hc.length, ← List.length_drop]
        exact (cstr_initial _).length_le
      rw [hT] at hfst
      obtain ⟨c₁, hround, hconn, hkeep⟩ := parseHeadersLoopBuf_round hvl hc hat hfst fuel
      have hnext : c₁.messageStart + (offset + (i + f.text.length)) ≤ c₁.bytesRead := by
        rw [hkeep.messageStart, hkeep.bytesRead, Field.text_length]
        omega
      have hrest : T.drop (i + f.text.length) =
          cstr (c₁.conn.buffer.drop (c₁.messageStart + (offset + (i + f.text.length)))) := by
        have hb : c₁.conn.buffer = c.conn.buffer := by
          rw [ConnBuf.conn, ConnBuf.conn, hkeep.buffer, hkeep.bytesRead]
        have hle : i + f.text.length ≤
            (cstr (c.conn.buffer.drop (c.messageStart + offset))).length := by
          rw [← hT, Field.text_length]
          omega
        rw [hT, ← cstr_drop hle, hb, hkeep.messageStart, List.drop_drop, Nat.add_assoc]
      have hfuel' : (T.drop (i + f.text.length)).length < fuel := by
        rw [List.length_drop, Field.text_length]
        omega
      obtain ⟨c₂, hloop, hconn₂, hkeep₂⟩ := ih hkeep.wf hnext hrest hfuel'
      refine ⟨c₂, ?_, ?_, hkeep.trans hkeep₂⟩
      · rw [hround, hloop]
        simp only [Nat.add_assoc]
      · rw [hconn₂, hconn, List.foldl_cons]

/-! ## `parse_headers` and `process_request` -/

/-- What a checked call returned, against the model's call. -/
structure Agrees (c c' : ConnBuf) (exit : Exit) (res : Option Response × Conn UInt8) : Prop where
  wf : c'.Wf
  bytesRead : c'.bytesRead = c.bytesRead
  model : (exit.response, c'.conn) = res
  uriFits : exit ≠ .uriTooLong
  uriThere : exit ≠ .emptyUri
  start : exit = .accepted → c'.messageStart ≤ c'.bytesRead + 2
  uriOk : exit ≠ .badPattern → exit ≠ .noRequestLine → UriOk (cstr c'.uri)

theorem parseHeadersBuf_agrees (rc : Regcomp) {value : Bytes} (hvl : value.length = VALUE_SIZE)
    {c : ConnBuf} (hc : c.Wf) (hat : c.messageStart ≤ c.bytesRead) (hu : UriOk (cstr c.uri)) :
    ∃ exit c', parseHeadersBuf rc value c = some (exit, c') ∧
      Agrees c c' exit (parseHeaders rc c.conn) := by
  obtain ⟨a, b⟩ := rc
  cases b with
  | false =>
    exact ⟨.badPattern, c, rfl, hc, rfl, rfl, by decide, by decide, by simp, fun h => absurd rfl h⟩
  | true =>
    obtain ⟨fs, n, hs⟩ := scan_total (cstr (c.conn.buffer.drop c.messageStart))
    have hn := hs.le_length
    have hT : (cstr (c.conn.buffer.drop c.messageStart)).length ≤
        c.bytesRead - c.messageStart := by
      rw [← hc.length, ← List.length_drop]
      exact (cstr_initial _).length_le
    have hfuel : (cstr (c.conn.buffer.drop c.messageStart)).length < c.buffer.length + 1 := by
      have h1 := hc.buffer
      have h2 := hc.read
      omega
    obtain ⟨c', hloop, hconn, hkeep⟩ := parseHeadersLoopBuf_scan hvl hc
      (show c.messageStart + 0 ≤ c.bytesRead from hat) rfl hs hfuel
    have hbuf : parseHeadersBuf ⟨a, true⟩ value c =
        some (.accepted, { c' with messageStart := c'.messageStart + (n + 2) }) := by
      simp only [parseHeadersBuf, Bool.true_eq_false, if_false, hloop, Option.bind_eq_bind,
        Option.bind_some, Nat.zero_add]
    have hmodel : parseHeaders ⟨a, true⟩ c.conn = parseHeaders .ok c.conn := rfl
    refine ⟨_, _, hbuf, ?_⟩
    constructor
    · exact hkeep.wf.move _
    · exact hkeep.bytesRead
    · have hs' : Scan (cstr ((octets c.conn.buffer).drop c.conn.messageStart)) fs n := by
        rw [octets_self]
        exact hs
      rw [hmodel, parseHeaders_scan hs', ← hconn]
      rfl
    · decide
    · decide
    · intro _
      simp only [hkeep.messageStart, hkeep.bytesRead]
      omega
    · intro _ _
      rw [hkeep.uri]
      exact hu

/-- The request line `r` read into the arrays. -/
theorem processRequestBuf_line (rc : Regcomp) (hrc : rc.requestLine = true) (value : Bytes)
    {c : ConnBuf} (hc : c.Wf) {r : ReqLine} (h : LineOf (cstr c.conn.buffer) r) :
    ∃ c₁ : ConnBuf, c₁.Wf ∧ c₁.bytesRead = c.bytesRead ∧ c₁.conn = r.store c.conn ∧
      cstr c₁.uri = r.uri ∧
      processRequestBuf rc value c =
        if 1 < r.minor.length then some (.minorTooLong, c₁)
        else if r.minor ≠ ascii "1" then some (.badVersion, c₁)
        else parseHeadersBuf rc value { c₁ with messageStart := r.text.length } := by
  have hre := regexec_line h
  have hver := h.version_iff
  obtain ⟨hr, hp, -⟩ := h
  obtain ⟨u, hu⟩ := hp.trans ((cstr_initial _).trans (ConnBuf.conn_initial c 0))
  rw [List.drop_zero] at hu
  have h0 : (0 : UInt8) ∉ r.uri := hr.uri_ok.no_nul
  have h3 := hr.uri_le
  have hlen : r.text.length ≤ c.bytesRead := by
    rw [← hc.length]
    exact (hp.trans (cstr_initial _)).length_le
  have hreq : methodOf (cstr c.conn.buffer) = r.request := by
    apply methodOf_initial
    · rw [CBuf.cstr_cstr]
      exact hp
    · rw [ReqLine.text_length]
      omega
  obtain ⟨w, hw⟩ : ∃ w, c.buffer.drop (r.method.length + 2) = r.uri ++ w :=
    ⟨_, by rw [← hu, ReqLine.text_drop_uri]⟩
  have hroom : r.uri.length < c.uri.length := by
    rw [hc.uri]
    omega
  obtain ⟨d, hcopy, hput⟩ := CBuf.memcpy_put hw hr.uri_pos hroom
  have hcs := CBuf.cstr_append_nul h0 (c.uri.drop (r.uri.length + 1))
  have e1 : r.text.length - 2 - (r.text.length - 2 - r.minor.length) = r.minor.length := by
    rw [ReqLine.text_length]
    omega
  have e2 : r.text.length - 2 + 2 = r.text.length := by
    rw [ReqLine.text_length]
    omega
  have hne : r.uri ≠ [] := List.ne_nil_of_length_pos hr.uri_pos
  have hstr : CBuf.str (r.uri ++ 0 :: c.uri.drop (r.uri.length + 1)) 0 = some r.uri := by
    rw [CBuf.str_eq (by simp), List.drop_zero, hcs]
  refine ⟨{ c with request := r.request, uri := r.uri ++ 0 :: c.uri.drop (r.uri.length + 1) },
    ⟨hc.buffer, hc.read, hc.nul, ?_, hc.requestId, hc.requestIdLe⟩, rfl, ?_, hcs, ?_⟩
  · have := hc.uri
    simp only [List.length_append, List.length_cons, List.length_drop]
    omega
  · simp only [ConnBuf.conn, hcs, ReqLine.store]
  · have hm := hc.str (show r.text.length - 2 - r.minor.length ≤ c.bytesRead by omega)
    simp only [processRequestBuf, hrc, Bool.true_eq_false, if_false, hc.str (Nat.zero_le _),
      List.drop_zero, Option.bind_eq_bind, Option.bind_some, regexec_cstr, hre, hreq,
      Nat.add_sub_cancel_left, ge_iff_le, if_neg (Nat.not_le.mpr hroom), hcopy, hput, e1,
      gt_iff_lt, hm, e2, hstr, hne, strncmpEq_cstr]
    by_cases h1 : 1 < r.minor.length
    · rw [if_pos h1, if_pos h1]
    · simp only [if_neg h1, hver h1]

theorem processRequestBuf_agrees (rc : Regcomp) {value : Bytes} (hvl : value.length = VALUE_SIZE)
    {c : ConnBuf} (hc : c.Wf) :
    ∃ exit c', processRequestBuf rc value c = some (exit, c') ∧
      Agrees c c' exit (processRequest rc c.conn) := by
  cases hrc : rc.requestLine with
  | false =>
    refine ⟨.badPattern, c, by simp [processRequestBuf, hrc], hc, rfl, ?_, by decide, by decide,
      by simp, fun h => absurd rfl h⟩
    simp [processRequest, hrc, Exit.response]
  | true =>
    rcases lineOf_or_noLine (cstr c.conn.buffer) with ⟨r, hl⟩ | hl
    · obtain ⟨c₁, hw, hread, hconn, huri, hbuf⟩ := processRequestBuf_line rc hrc value hc hl
      have hmodel := processRequest_line rc (c := c.conn) hrc (by rw [octets_self]; exact hl)
      have hu : UriOk (cstr c₁.uri) := by
        rw [huri]
        exact hl.1.uri_ok
      rw [hbuf, hmodel]
      by_cases h1 : 1 < r.minor.length
      · rw [if_pos h1, if_pos h1]
        exact ⟨_, _, rfl, hw, hread, by rw [hconn]; rfl, by decide, by decide, by simp,
          fun _ _ => hu⟩
      · rw [if_neg h1, if_neg h1]
        by_cases hm : r.minor = ascii "1"
        · rw [if_neg (not_not.mpr hm), if_neg (not_not.mpr hm), ← hconn]
          have hlen : r.text.length ≤ c₁.bytesRead := by
            rw [hread, ← hc.length]
            exact (hl.2.1.trans (cstr_initial _)).length_le
          obtain ⟨exit, c', hp, ha⟩ := parseHeadersBuf_agrees rc hvl (hw.move r.text.length) hlen hu
          exact ⟨exit, c', hp, ha.wf, ha.bytesRead.trans hread, ha.model, ha.uriFits, ha.uriThere,
            ha.start, ha.uriOk⟩
        · rw [if_pos hm, if_pos hm]
          exact ⟨_, _, rfl, hw, hread, by rw [hconn]; rfl, by decide, by decide, by simp,
            fun _ _ => hu⟩
    · refine ⟨.noRequestLine, c, ?_, hc, rfl, ?_, by decide, by decide, by simp,
        fun _ h => absurd rfl h⟩
      · simp [processRequestBuf, hrc, hc.str (Nat.zero_le _), regexec_cstr, regexec_noLine hl]
      · rw [processRequest_noLine hrc (by rw [octets_self]; exact hl)]
        rfl

/-! ## `conn_parse` -/

/-- `conn->buffer[bytes_read] = '\0'` -/
def terminated (mem : Bytes) (n : Nat) : ConnBuf := connNewBuf (mem.set n 0) n

theorem terminated_wf {mem : Bytes} {n : Nat} (hm : mem.length = BUFFER_SIZE + 1)
    (hn : n ≤ BUFFER_SIZE) : (terminated mem n).Wf := by
  have hid : (ascii "0" ++ List.replicate 128 (0 : UInt8)).length = VALUE_SIZE := by
    rw [List.length_append, List.length_replicate]
    rfl
  have hle : (cstr (ascii "0" ++ List.replicate 128 (0 : UInt8))).length ≤ VALUE_SIZE - 1 := by
    decide
  refine ⟨?_, hn, ?_, List.length_replicate, hid, hle⟩
  · simp only [terminated, connNewBuf, List.length_set, hm]
  · simp only [terminated, connNewBuf]
    rw [List.getElem?_set_self (by omega)]

theorem terminated_conn {mem : Bytes} {n : Nat} (hn : n ≤ mem.length) :
    (terminated mem n).conn = filled (mem.take n) := by
  have hu : cstr (List.replicate 64 0) = [] := by decide
  have hi : cstr (ascii "0" ++ List.replicate 128 0) = ascii "0" := by decide
  have hb : (mem.set n 0).take n = mem.take n := List.take_set_of_le (Nat.le_refl n)
  simp only [terminated, connNewBuf, ConnBuf.conn, filled, connNew, hu, hi, hb,
    List.length_take_of_le hn]

/-- **The checked parser agrees with the model.** -/
theorem connParseBuf_spec (rc : Regcomp) {value mem : Bytes} {n : Nat}
    (hvl : value.length = VALUE_SIZE) (hm : mem.length = BUFFER_SIZE + 1) (hn : n ≤ BUFFER_SIZE) :
    ∃ exit c₁, connParseBuf rc value (connNewBuf mem n) =
        some (exit, if exit = .accepted then
          { c₁ with inMessage := c₁.bytesRead - c₁.messageStart } else c₁) ∧
      Agrees (terminated mem n) c₁ exit (processRequest rc (filled (mem.take n))) := by
  obtain ⟨exit, c₁, hp, ha⟩ := processRequestBuf_agrees rc hvl (terminated_wf hm hn)
  rw [terminated_conn (by omega)] at ha
  refine ⟨exit, c₁, ?_, ha⟩
  have hput : CBuf.put mem n 0 = some (mem.set n 0) := CBuf.put_eq (by omega) 0
  have hp' : processRequestBuf rc value { connNewBuf mem n with buffer := mem.set n 0 } =
      some (exit, c₁) := hp
  simp only [connParseBuf, connNewBuf, hput, Option.bind_eq_bind, Option.bind_some]
  simp only [connNewBuf] at hp'
  rw [hp']
  simp only [Option.bind_some]
  split <;> rfl

/-- **The request parser stays in bounds and ends.** For every content of the
buffer and every count of bytes read, `value` uninitialised: no access leaves
its array and the header loop ends; the two rejections of a URI by its length
are never taken; an accepted request starts its body at most two bytes behind
the bytes read, and what `conn_recv_file` writes of the buffer was read. The
model's `conn_parse` computes the same. -/
theorem parser_in_bounds (rc : Regcomp) {value mem : Bytes} {n : Nat}
    (hvl : value.length = VALUE_SIZE) (hm : mem.length = BUFFER_SIZE + 1) (h1 : 1 ≤ n)
    (hn : n ≤ BUFFER_SIZE) :
    ∃ exit c, connParseBuf rc value (connNewBuf mem n) = some (exit, c) ∧
      exit ≠ .uriTooLong ∧ exit ≠ .emptyUri ∧
      (exit ≠ .badPattern → exit ≠ .noRequestLine →
        1 ≤ (cstr c.uri).length ∧ (cstr c.uri).length ≤ 63) ∧
      (cstr c.requestId).length ≤ 128 ∧
      (exit.response = none → c.messageStart ≤ n + 2 ∧ c.inMessage = n - c.messageStart ∧
        -2 ≤ c.inMessage ∧ (0 < c.inMessage → c.messageStart + c.inMessage.toNat ≤ n)) ∧
      ∀ s s', readUntil s BUFFER_SIZE BLANK_LINE = (.ok (mem.take n), s') →
        connParse rc s = (exit.response, c.conn, s') := by
  obtain ⟨exit, c₁, hbuf, ha⟩ := connParseBuf_spec rc hvl hm hn
  have hread : c₁.bytesRead = n := ha.bytesRead
  have hne : (mem.take n).length ≠ 0 := by
    rw [List.length_take]
    omega
  refine ⟨exit, _, hbuf, ha.uriFits, ha.uriThere, ?_, ?_, ?_, ?_⟩
  · intro hb hl
    have hu := ha.uriOk hb hl
    split
    · exact ⟨hu.pos, hu.le⟩
    · exact ⟨hu.pos, hu.le⟩
  · have hid := ha.wf.requestIdLe
    split
    · exact hid
    · exact hid
  · intro hres
    have hacc : exit = .accepted := by
      cases exit <;> first | rfl | cases hres
    have hst := ha.start hacc
    rw [if_pos hacc]
    simp only
    omega
  · intro s s' hr
    rw [connParse_ok hr hne ha.model.symm]
    cases exit <;> rfl

/-- A request line cut off before its headers, NULs behind it: the body starts
two bytes past what was read. -/
def shortLine : Bytes := ascii "GET /a HTTP/1.1\r\n"

theorem parser_in_bounds_shortLine :
    ∃ exit c, connParseBuf .ok (List.replicate 129 7)
        (connNewBuf (shortLine ++ List.replicate 4080 0) 17) = some (exit, c) ∧
      exit ≠ .uriTooLong ∧ exit ≠ .emptyUri ∧
      (exit.response = none → c.messageStart ≤ 19 ∧ -2 ≤ c.inMessage) := by
  have hvl : (List.replicate 129 (7 : UInt8)).length = VALUE_SIZE := List.length_replicate
  have hlen : (shortLine ++ List.replicate 4080 0).length = BUFFER_SIZE + 1 := by
    rw [List.length_append, List.length_replicate]
    decide
  obtain ⟨exit, c, hp, h1, h2, -, -, h3, -⟩ :=
    parser_in_bounds .ok hvl hlen (show 1 ≤ 17 by decide) (by decide)
  exact ⟨exit, c, hp, h1, h2, fun h => ⟨(h3 h).1, (h3 h).2.2.1⟩⟩

end HttpC.L2
