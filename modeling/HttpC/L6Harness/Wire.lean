import HttpC.Core.Text
import HttpC.L2Parse.Block

/-!
# The harness's reading of HTTP

`ztest/src/wire.zig`, shared by the workload driver (responses) and the mock
server (requests). A header block ends where `findBodyStart` says it does
(`findBodyStart_block`), and `parseRequestLine` gives the whole method token
and URI of every request line the C server's pattern accepts
(`parseRequestLine_line`).
-/
namespace HttpC.L6
open HttpC.L2 HttpC.Text

def CRLF : Bytes := [13, 10]

/-- mirrors ztest/src/wire.zig:9-12 -/
def findBodyStart (buf : Bytes) : Option Nat := (indexOf BLANK_LINE buf).map (· + 4)

/-- mirrors ztest/src/wire.zig:14-17 -/
structure StatusLine where
  code : UInt16
  reason : Bytes
  deriving DecidableEq, Repr

/-- mirrors ztest/src/wire.zig:20-30 -/
def parseStatusLine (buf : Bytes) : Option StatusLine :=
  if ¬ ascii "HTTP/" <+: buf then none
  else
    match indexOf CRLF buf with
    | none => none
    | some lineEnd =>
      match (buf.take lineEnd).splitOn 32 with
      | _ :: codeStr :: rest =>
        (parseU16 codeStr).map fun code => ⟨code, [32].intercalate rest⟩
      | _ => none

/-- mirrors ztest/src/wire.zig:32-35 -/
structure RequestLine where
  method : Bytes
  uri : Bytes
  deriving DecidableEq, Repr

/-- mirrors ztest/src/wire.zig:38-46 -/
def parseRequestLine (buf : Bytes) : Option RequestLine :=
  match indexOf CRLF buf with
  | none => none
  | some lineEnd =>
    match (buf.take lineEnd).splitOn 32 with
    | method :: rawUri :: _ => if rawUri.head? = some 47 then some ⟨method, rawUri.drop 1⟩ else none
    | _ => none

/-- The value of one line, if its key is `name`. -/
def headerLine (name line : Bytes) : Option Bytes :=
  match indexOf [58] line with
  | none => none
  | some colon =>
    if eqlIgnoreCase (trim [32, 9] (line.take colon)) name then
      some (trim [32, 9] (line.drop (colon + 1)))
    else none

/-- mirrors ztest/src/wire.zig:51-62 -/
def findHeader (headers name : Bytes) : Option Bytes :=
  (splitSequence CRLF headers).findSome? fun line => if line = [] then none else headerLine name line

/-! ## Blocks and rows -/

/-- **The blank line of a block is the first.** -/
theorem findBodyStart_block {H : Bytes} (h : Block H) (B : Bytes) :
    findBodyStart (H ++ B) = some H.length := by
  have h4 := h.length
  obtain ⟨A, hA⟩ := h.1
  have hl : A.length = H.length - 4 := by
    have := congrArg List.length hA
    rw [List.length_append, show BLANK_LINE.length = 4 from rfl] at this; omega
  have hidx : indexOf BLANK_LINE (H ++ B) = some A.length := by
    refine indexOf_eq_of_first ?_ ?_ (by simp only [List.length_append]; omega)
    · rw [← hA, List.append_assoc, List.drop_left]
      exact List.prefix_append _ _
    · intro j hj hp
      -- an earlier one would lie inside the block
      apply h.2
      have hlen : (BLANK_LINE).length = 4 := rfl
      have hp' : BLANK_LINE <+: H.dropLast.drop j := by
        refine List.prefix_of_prefix_length_le hp ?_ ?_
        · refine List.IsPrefix.drop ?_ j
          exact (List.dropLast_prefix H).trans (List.prefix_append H B)
        · rw [List.length_drop, List.length_dropLast, hlen]; omega
      exact hp'.isInfix.trans (List.drop_suffix j _).isInfix
  rw [findBodyStart, hidx, Option.map_some]
  congr 1; omega

/-- **A row ends at the first CR LF.** -/
theorem indexOf_crlf_row {w : Bytes} (h : ¬ [13, 10] <:+: w ++ [13]) (t : Bytes) :
    indexOf CRLF (w ++ 13 :: 10 :: t) = some w.length := by
  refine indexOf_eq_of_first ?_ ?_ (by simp)
  · rw [List.drop_left]; exact ⟨t, rfl⟩
  · intro j hj hp
    apply h
    have hp' : [13, 10] <+: (w ++ [13]).drop j := by
      refine List.prefix_of_prefix_length_le hp ?_ ?_
      · exact List.IsPrefix.drop ⟨10 :: t, by simp⟩ j
      · rw [List.length_drop]; simp; omega
    exact hp'.isInfix.trans (List.drop_suffix j _).isInfix

/-! ## Header lines -/

theorem splitSequence_row {w : Bytes} (h : ¬ [13, 10] <:+: w ++ [13]) (t : Bytes) :
    splitSequence CRLF (w ++ 13 :: 10 :: t) = w :: splitSequence CRLF t := by
  rw [splitSequence_some (by decide) (indexOf_crlf_row h t), List.take_left]
  congr 2
  rw [← List.drop_drop, List.drop_left]
  rfl

/-- A header line as the driver and the servers print it. -/
structure Plain (f : Field) : Prop where
  key_pos : 1 ≤ f.key.length
  key : ∀ x ∈ f.key, isKey x = true
  sp : f.sp = 32
  value : ∀ x ∈ f.value, isValue x = true

/-- `findHeader` on one printed line. -/
theorem headerLine_text {f : Field} (h : Plain f) (name : Bytes) :
    headerLine name (f.key ++ 58 :: f.sp :: f.value) =
      if eqlIgnoreCase f.key name then some f.value else none := by
  have h58 : (58 : UInt8) ∉ f.key := fun hm => (isKey_ne (h.key _ hm)).1 rfl
  have hidx : indexOf [58] (f.key ++ 58 :: f.sp :: f.value) = some f.key.length := by
    refine indexOf_eq_of_first ?_ ?_ (by simp)
    · rw [List.drop_left]; exact ⟨_, rfl⟩
    · intro j hj hp
      rw [List.drop_append_of_le_length (by omega)] at hp
      cases hd : f.key.drop j with
      | nil => rw [List.drop_eq_nil_iff] at hd; omega
      | cons x xs =>
        rw [hd] at hp
        obtain ⟨rfl, -⟩ := List.cons_prefix_cons.mp hp
        exact h58 (List.mem_of_mem_drop (i := j) (by rw [hd]; exact List.mem_cons_self))
  have hblank : ∀ {p : UInt8 → Bool}, p 32 = false → p 9 = false → ∀ {s : Bytes},
      (∀ x ∈ s, p x = true) → ∀ x ∈ s, x ∉ [32, 9] := by
    intro p h32 h9 s hs x hx hm
    have := hs x hx
    simp only [List.mem_cons, List.not_mem_nil, or_false] at hm
    rcases hm with rfl | rfl
    · rw [h32] at this; cases this
    · rw [h9] at this; cases this
  have hkey : trim [32, 9] f.key = f.key := trim_eq_self (hblank (by decide) (by decide) h.key)
  have hval : trim [32, 9] (f.sp :: f.value) = f.value := by
    have e : trim [32, 9] (32 :: f.value) = trim [32, 9] f.value := by
      simp [trim]
    rw [h.sp, e, trim_eq_self (hblank (by decide) (by decide) h.value)]
  rw [headerLine, hidx]
  simp only [List.take_left, hkey]
  rw [← List.drop_drop, List.drop_left]
  simp only [List.drop_succ_cons, List.drop_zero, hval]

/-- **`findHeader` finds the first line of its name.** -/
theorem findHeader_texts {fs : List Field} (h : ∀ f ∈ fs, Plain f) (name : Bytes) :
    findHeader ((fs.map Field.text).flatten ++ [13, 10]) name =
      (fs.find? fun f => eqlIgnoreCase f.key name).map Field.value := by
  unfold findHeader
  induction fs with
  | nil =>
    have e : splitSequence CRLF (((([] : List Field).map Field.text).flatten) ++ [13, 10]) = [[], []] := by
      decide
    rw [e]; rfl
  | cons f fs ih =>
    obtain ⟨hf, hfs⟩ := List.forall_mem_cons.mp h
    obtain ⟨w, hw, hne, -, hno⟩ := Field.row hf.key_pos hf.key hf.value
    obtain rfl : f.key ++ 58 :: f.sp :: f.value = w := by
      apply (List.append_left_inj [13, 10]).mp
      rw [← hw]; simp [Field.text]
    have e : ((f :: fs).map Field.text).flatten ++ [13, 10] =
        (f.key ++ 58 :: f.sp :: f.value) ++ 13 :: 10 :: ((fs.map Field.text).flatten ++ [13, 10]) := by
      simp [Field.text]
    rw [e, splitSequence_row hno, List.findSome?_cons, if_neg hne, headerLine_text hf, List.find?_cons]
    split
    · rename_i v hv
      split at hv
      · rename_i hk; cases hv; simp [hk]
      · cases hv
    · rename_i hv
      split at hv
      · cases hv
      · rename_i hk
        simp only [Bool.not_eq_true] at hk
        rw [hk]
        exact ih hfs

/-! ## Requests -/

/-- **The mock reads the whole method token.** -/
theorem parseRequestLine_line {r : ReqLine} {head : Bytes} (hr : r.Ok) (h : r.text <+: head) :
    parseRequestLine head = some ⟨r.method, r.uri⟩ := by
  obtain ⟨t, rfl⟩ := h
  obtain ⟨w, hw, -, -, hno⟩ := hr.row
  have e : r.text ++ t = w ++ 13 :: 10 :: t := by rw [hw]; simp
  have hw' : w = r.method ++ 32 :: (47 :: r.uri ++ 32 ::
      ([72, 84, 84, 80, 47] ++ (r.major ++ r.dot :: r.minor))) := by
    apply (List.append_left_inj [13, 10]).mp
    rw [← hw]; simp [ReqLine.text, HTTP]
  have h1 : (32 : UInt8) ∉ r.method := fun h =>
    absurd (hr.method_cls _ h) (by decide)
  have h2 : (32 : UInt8) ∉ 47 :: r.uri := by
    rw [List.mem_cons, not_or]
    exact ⟨by decide, fun h => absurd (hr.uri_cls _ h) (by decide)⟩
  rw [parseRequestLine, e, indexOf_crlf_row hno]
  simp only [List.take_left, hw']
  rw [List.splitOn_append_cons_self_of_not_mem h1, List.splitOn_append_cons_self_of_not_mem h2]
  simp

/-! ## Responses -/

/-- The head of a response, as both servers print it. -/
def headOf (code : Nat) (reason : Bytes) (size : Nat) : Bytes :=
  ascii "HTTP/1.1 " ++ decimal code ++ ascii " " ++ reason ++
    ascii "\r\nContent-Length: " ++ decimal size ++ ascii "\r\n\r\n"

/-- The lines of a response without its status line, up to its body. -/
def headersOf (wire : Bytes) : Bytes :=
  (wire.take ((findBodyStart wire).getD wire.length)).drop ((indexOf CRLF wire).getD 0 + 2)

/-- A status line without its CR LF. -/
def statusText (code : Nat) (reason : Bytes) : Bytes :=
  ascii "HTTP/1.1" ++ 32 :: (decimal code ++ 32 :: reason)

def lengthLine (size : Nat) : Field := ⟨CONTENT_LENGTH_KEY, 32, decimal size⟩

section
variable {code size : Nat} {reason : Bytes}

theorem headOf_append (code : Nat) (reason : Bytes) (size : Nat) (body : Bytes) :
    headOf code reason size ++ body = statusText code reason ++ 13 :: 10 ::
      (([lengthLine size].map Field.text).flatten ++ [13, 10] ++ body) := by
  have e1 : ascii "HTTP/1.1 " = ascii "HTTP/1.1" ++ [32] := by decide
  have e2 : ascii "\r\nContent-Length: " = [13, 10] ++ CONTENT_LENGTH_KEY ++ [58, 32] := by decide
  have e3 : ascii "\r\n\r\n" = [13, 10, 13, 10] := by decide
  have e4 : ascii " " = [32] := by decide
  simp [headOf, statusText, lengthLine, e1, e2, e3, e4, Field.text]

theorem plain_length (size : Nat) : Plain (lengthLine size) := by
  have hkey : CONTENT_LENGTH_KEY.all isKey = true := by decide
  refine ⟨Nat.le_of_ble_eq_true rfl, List.all_eq_true.mp hkey, rfl, fun x hx => ?_⟩
  obtain ⟨h1, h2⟩ := decimal_digits hx
  have hdig : isDigit x = true := by
    simp only [isDigit, Bool.and_eq_true, decide_eq_true_eq, UInt8.le_iff_toNat_le]
    exact ⟨h1, h2⟩
  simp [isValue, hdig]

theorem not_mem_decimal {x : UInt8} (h : x.toNat < 48) (n : Nat) : x ∉ decimal n := by
  intro hm
  have := (decimal_digits hm).1
  omega

theorem statusText_no_crlf (h : (10 : UInt8) ∉ reason) :
    ¬ [13, 10] <:+: statusText code reason ++ [13] := by
  intro hi
  have hm : (10 : UInt8) ∈ statusText code reason ++ [13] := hi.subset (by simp)
  simp only [statusText, List.mem_append, List.mem_cons, List.not_mem_nil, or_false] at hm
  rcases hm with (hm | hm | hm | hm | hm) | hm
  · revert hm; decide
  · revert hm; decide
  · exact not_mem_decimal (by decide) code hm
  · revert hm; decide
  · exact h hm
  · revert hm; decide

theorem headOf_block (code size : Nat) (h : (10 : UInt8) ∉ reason) : Block (headOf code reason size) := by
  have hrow : Row (statusText code reason ++ [13, 10]) :=
    ⟨_, rfl, by simp [statusText], by simp [statusText, ascii], statusText_no_crlf h⟩
  have hp := plain_length size
  have hfield : Row (lengthLine size).text := Field.row hp.key_pos hp.key hp.value
  have := block_rows [_, _]
    (List.forall_mem_cons.mpr ⟨hrow, List.forall_mem_singleton.mpr hfield⟩) (by simp)
  rw [← List.append_nil (headOf code reason size), headOf_append]
  simpa using this

/-- **The status line reads back.** -/
theorem parseStatusLine_head (size : Nat) (hcode : code < 2 ^ 16) (h : (10 : UInt8) ∉ reason) (body : Bytes) :
    parseStatusLine (headOf code reason size ++ body) = some ⟨UInt16.ofNat code, reason⟩ := by
  have hstart : ascii "HTTP/" <+: headOf code reason size ++ body := by
    have e : ascii "HTTP/1.1" = ascii "HTTP/" ++ ascii "1.1" := by decide
    rw [headOf_append, statusText, e, List.append_assoc, List.append_assoc]
    exact List.prefix_append _ _
  have hsp : (32 : UInt8) ∉ ascii "HTTP/1.1" := by decide
  rw [parseStatusLine, if_neg (not_not.mpr hstart), headOf_append,
    indexOf_crlf_row (statusText_no_crlf h)]
  simp only [List.take_left]
  rw [statusText, List.splitOn_append_cons_self_of_not_mem hsp,
    List.splitOn_append_cons_self_of_not_mem (not_mem_decimal (by decide) code)]
  simp only [parseU16_decimal hcode, Option.map_some, List.intercalate_splitOn]

/-- **The announced length reads back.** -/
theorem contentLength_head (h : (10 : UInt8) ∉ reason) (body : Bytes) :
    findHeader (headersOf (headOf code reason size ++ body)) (ascii "Content-Length") =
      some (decimal size) := by
  have e : headersOf (headOf code reason size ++ body) =
      ([lengthLine size].map Field.text).flatten ++ [13, 10] := by
    rw [headersOf, findBodyStart_block (headOf_block code size h), Option.getD_some, List.take_left,
      headOf_append, indexOf_crlf_row (statusText_no_crlf h), Option.getD_some,
      ← List.append_nil (headOf code reason size), headOf_append, ← List.drop_drop, List.drop_left]
    simp
  rw [e, findHeader_texts (List.forall_mem_singleton.mpr (plain_length size))]
  have hk : eqlIgnoreCase (lengthLine size).key (ascii "Content-Length") = true := eqlIgnoreCase_self _
  rw [List.find?_cons, hk]
  rfl

end

end HttpC.L6
