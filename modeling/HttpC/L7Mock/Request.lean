import HttpC.L6Harness.Driver
import HttpC.L7Mock.Mock

/-!
# What the mock makes of a request

`readHeaders` keeps reading until the blank line is there, so however a request
arrives the mock sees its block whole and some of its body behind it
(`readHeaders_block`), and takes the block apart as it was printed
(`parseTask_texts`).
-/
namespace HttpC.L7
open HttpC.L1.Util HttpC.L2 HttpC.L6 HttpC.Text

section
variable {H B : Bytes}

/-- The blank line is found exactly when the block is there. -/
theorem findBodyStart_isSome (hH : Block H) {buf : Bytes} (hp : buf <+: H ++ B) :
    (findBodyStart buf).isSome = true ↔ H.length ≤ buf.length := by
  have e : (findBodyStart buf).isSome = (indexOf BLANK_LINE buf).isSome := by
    simp [findBodyStart]
  rw [e, indexOf_isSome_iff]
  constructor
  · exact fun h => hH.length_le hp h
  · intro h
    have hpre : H <+: buf := List.prefix_of_prefix_length_le (List.prefix_append H B) hp h
    exact hH.1.isInfix.trans hpre.isInfix

/-- **The fuel is not used up**: more of it changes nothing. -/
theorem readHeadersLoop_fuel {fuel fuel' : Nat} {s : Src UInt8} (buf : Bytes)
    (hf : s.pending.length < fuel) (hf' : s.pending.length < fuel') :
    readHeadersLoop fuel s buf = readHeadersLoop fuel' s buf := by
  induction fuel generalizing fuel' s buf with
  | zero => omega
  | succ fuel ih =>
    obtain ⟨fuel', rfl⟩ := Nat.exists_eq_succ_of_ne_zero (Nat.ne_zero_of_lt hf')
    simp only [readHeadersLoop]
    split
    · rfl
    · split
      · rfl
      · rfl
      · rename_i b bs s' hr
        have hlt := retryRead_lt hr
        split
        · rfl
        · exact ih _ (by omega) (by omega)

theorem readHeadersLoop_block (hH : Block H) (hle : H.length ≤ 1 <<< 20) {fuel : Nat} {s : Src UInt8}
    {buf : Bytes} (hb : buf ++ s.pending = H ++ B) (hc : Cut s.script)
    (hfuel : s.pending.length < fuel) :
    ∃ k s', readHeadersLoop fuel s buf = some (H ++ B.take k, s') ∧ s'.pending = B.drop k ∧
      Cut s'.script := by
  induction fuel generalizing s buf with
  | zero => omega
  | succ fuel ih =>
    -- a buffer that holds the block is the block and some of the body
    have hdone : ∀ {buf : Bytes} {s : Src UInt8}, buf ++ s.pending = H ++ B → H.length ≤ buf.length →
        ∃ k, buf = H ++ B.take k ∧ s.pending = B.drop k := by
      intro buf s hb h
      obtain ⟨b, rfl⟩ : H <+: buf :=
        List.prefix_of_prefix_length_le (List.prefix_append H B) ⟨_, hb⟩ h
      rw [List.append_assoc, List.append_cancel_left_eq] at hb
      refine ⟨b.length, ?_, ?_⟩
      · rw [← hb, List.take_left]
      · rw [← hb, List.drop_left]
    unfold readHeadersLoop
    split
    · rename_i hs
      obtain ⟨k, hk, hp⟩ := hdone hb ((findBodyStart_isSome hH ⟨_, hb⟩).mp hs)
      exact ⟨k, s, by rw [hk], hp, hc⟩
    · rename_i hs
      have hlt : buf.length < H.length := by
        by_contra h
        exact hs ((findBodyStart_isSome hH ⟨_, hb⟩).mpr (by omega))
      obtain ⟨bs, s', hr, hnil⟩ := retryRead_cut s.pending hc (Nat.succ_pos 4095)
      obtain ⟨hpend, -, hsuf⟩ := retryRead_data hr
      rw [hr]
      cases bs with
      | nil =>
        -- the block has not all arrived
        have := congrArg List.length hb
        rw [hnil rfl] at this
        simp only [List.length_append, List.length_nil] at this
        omega
      | cons b bs =>
        have hb' : (buf ++ b :: bs) ++ s'.pending = H ++ B := by
          rw [List.append_assoc, ← hpend, hb]
        simp only
        split
        · rename_i hbig
          obtain ⟨k, hk, hp⟩ := hdone hb' (Nat.le_trans hle (Nat.le_of_lt hbig))
          exact ⟨k, s', by rw [hk], hp, hc.suffix hsuf⟩
        · have hless := retryRead_lt hr
          exact ih hb' (hc.suffix hsuf) (by omega)

/-- **The mock sees the block whole.** -/
theorem readHeaders_block (hH : Block H) (hle : H.length ≤ 1 <<< 20) {s : Src UInt8}
    (hp : s.pending = H ++ B) (hc : Cut s.script) :
    ∃ k s', readHeaders s = some (H ++ B.take k, s') ∧ s'.pending = B.drop k ∧ Cut s'.script :=
  readHeadersLoop_block hH hle (by simpa using hp) hc (Nat.lt_succ_self _)

end

/-- A printed request line, header lines and a blank line. -/
def printed (r : ReqLine) (fs : List Field) : Bytes :=
  r.text ++ ((fs.map Field.text).flatten ++ [13, 10])

/-- The value of the first header line of this name. -/
def firstValue (fs : List Field) (name : Bytes) : Option Bytes :=
  (fs.find? fun f => eqlIgnoreCase f.key name).map Field.value

/-- What the mock reads of them. -/
def taskOf (r : ReqLine) (fs : List Field) (b : Bytes) : Task :=
  let contentLength := ((firstValue fs (ascii "Content-Length")).bind parseUsize).getD 0
  { method := r.method
    uri := r.uri
    rid := (firstValue fs (ascii "Request-Id")).getD (ascii "0")
    contentLength
    leftover := b.take contentLength }

theorem printed_block {r : ReqLine} {fs : List Field} (hr : r.Ok) (h : ∀ f ∈ fs, Plain f) :
    Block (printed r fs) := by
  have hrows : ∀ l ∈ r.text :: fs.map Field.text, Row l := by
    refine List.forall_mem_cons.mpr ⟨hr.row, fun l hl => ?_⟩
    obtain ⟨f, hf, rfl⟩ := List.mem_map.mp hl
    exact Field.row (h f hf).key_pos (h f hf).key (h f hf).value
  have := block_rows _ hrows (by simp)
  simpa [printed] using this

/-- **The mock reads what was printed.** -/
theorem parseTask_texts {r : ReqLine} {fs : List Field} (hr : r.Ok) (h : ∀ f ∈ fs, Plain f)
    (b : Bytes) : parseTask (printed r fs ++ b) = some (taskOf r fs b) := by
  obtain ⟨w, hw, -, -, hno⟩ := hr.row
  have hrow : printed r fs ++ b = w ++ 13 :: 10 :: ((fs.map Field.text).flatten ++ [13, 10] ++ b) := by
    rw [printed, hw]; simp
  have hline : indexOf CRLF (printed r fs ++ b) = some w.length := by
    rw [hrow, indexOf_crlf_row hno]
  have hhead : ((printed r fs ++ b).take (printed r fs).length).drop (w.length + 2) =
      (fs.map Field.text).flatten ++ [13, 10] := by
    rw [List.take_left, printed, hw, ← List.drop_drop, List.append_assoc, List.drop_left]
    rfl
  have hreq : parseRequestLine (printed r fs ++ b) = some ⟨r.method, r.uri⟩ := by
    apply parseRequestLine_line hr
    rw [printed, List.append_assoc]
    exact List.prefix_append _ _
  rw [parseTask, findBodyStart_block (printed_block hr h), hreq, hline]
  simp only [hhead, List.drop_left, findHeader_texts h]
  rfl

/-- **However a printed request arrives, the mock reads it so.** -/
theorem readTask_printed {r : ReqLine} {fs : List Field} {B : Bytes} {s : Src UInt8} (hr : r.Ok)
    (h : ∀ f ∈ fs, Plain f) (hle : (printed r fs).length ≤ 1 <<< 20)
    (hp : s.pending = printed r fs ++ B) (hc : Cut s.script) :
    ∃ k s', readTask s = some (taskOf r fs (B.take k), s') ∧ s'.pending = B.drop k ∧
      Cut s'.script := by
  obtain ⟨k, s', hread, hrest, hc'⟩ := readHeaders_block (printed_block hr h) hle hp hc
  refine ⟨k, s', ?_, hrest, hc'⟩
  simp only [readTask, hread, Option.bind_some, parseTask_texts hr h, Option.map_some]

/-! ## The driver's requests -/

/-- The first values of the lines `doCreate` writes. -/
theorem firstValue_create {hs : List Field} (h : ∀ f ∈ hs, f.key = ascii "Host") (id : Int64) {n : Nat}
    (hn : n < 2 ^ 64) :
    firstValue (hs ++ createLines id n) (ascii "Request-Id") = some (decimalInt id.toInt) ∧
      ((firstValue (hs ++ createLines id n) (ascii "Content-Length")).bind parseUsize).getD 0 = n := by
  have hskip : ∀ name, eqlIgnoreCase (ascii "Host") name = false →
      firstValue (hs ++ createLines id n) name = firstValue (createLines id n) name := by
    intro name hname
    have hnone : hs.find? (fun f => eqlIgnoreCase f.key name) = none :=
      List.find?_eq_none.mpr fun f hf => by rw [h f hf, hname]; exact Bool.false_ne_true
    rw [firstValue, List.find?_append, hnone, Option.none_or, firstValue]
  have e1 : eqlIgnoreCase REQUEST_ID_KEY (ascii "Request-Id") = true := by decide
  have e2 : eqlIgnoreCase REQUEST_ID_KEY (ascii "Content-Length") = false := by decide
  have e3 : eqlIgnoreCase CONTENT_LENGTH_KEY (ascii "Content-Length") = true := by decide
  rw [hskip _ (by decide), hskip _ (by decide)]
  refine ⟨by simp [firstValue, createLines, idField, headerField, e1], ?_⟩
  by_cases hpos : 0 < n
  · simp [firstValue, createLines, idField, lengthField, headerField, e2, e3, hpos, parseUsize_decimal hn]
  · obtain rfl : n = 0 := by omega
    simp [firstValue, createLines, idField, headerField, e2]

/-- **The mock reads what the driver was told to send**, however it arrives. -/
theorem readTask_create {opts : Options} {c : Create} {d : DriverConn} {s : Src UInt8}
    (hd : doCreate opts c = some d) (hx : HostHeader opts.extraHeaders)
    (hm : c.method = ascii "GET" ∨ c.method = ascii "PUT") (hu : UriOk c.uri)
    (hp : s.pending = d.requestLine ++ d.headers ++ d.body) (hc : Cut s.script) :
    ∃ T rest, readTask s = some (T, rest) ∧ T.method = c.method ∧ T.uri = c.uri ∧
      T.rid = decimalInt c.id.toInt ∧ T.contentLength = d.body.length ∧
      T.leftover ++ rest.pending = d.body ∧ Cut rest.script := by
  obtain ⟨hs, hhost, hb⟩ := doCreate_built hd hx
  have hr := requestLineOf_ok hm hu
  have hplain : ∀ f ∈ hs ++ createLines c.id d.body.length, Plain f := by
    intro f hf
    have hok := hb.ok f hf
    refine ⟨hok.key_pos, hok.key_cls, ?_, hok.value_cls⟩
    rcases List.mem_append.mp hf with hf | hf
    · exact (hhost f hf).2
    · rcases List.mem_cons.mp hf with rfl | hf
      · rfl
      · split at hf
        · rw [List.mem_singleton.mp hf]; rfl
        · cases hf
  have hprint : d.requestLine ++ d.headers =
      printed (requestLineOf c.method c.uri) (hs ++ createLines c.id d.body.length) := by
    rw [hb.line, hb.headers]; rfl
  have hle := (hb.block hr).2
  rw [hprint] at hp hle
  obtain ⟨k, rest, hread, hrest, hc'⟩ :=
    readTask_printed hr hplain (Nat.le_trans hle (by decide)) hp hc
  have hlt : d.body.length < 2 ^ 64 := Nat.lt_of_le_of_lt hb.body_le (by decide)
  obtain ⟨hid, hlen⟩ := firstValue_create (fun f hf => (hhost f hf).1) c.id hlt
  refine ⟨_, rest, hread, rfl, rfl, ?_, hlen, ?_, hc'⟩
  · simp only [taskOf, hid, Option.getD_some]
  · simp only [taskOf, hlen, hrest]
    rw [List.take_of_length_le (by rw [List.length_take]; omega), List.take_append_drop]

end HttpC.L7
