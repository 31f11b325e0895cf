import HttpC.L2Parse.Fields

/-!
# `process_request` and `parse_headers`, said once

`ReqLine` is a request line as `REQUEST_LINE` reads it; `LineOf s r` says it
is the one `regexec` reports for `s` (the version digits leave a choice, which
POSIX settles). `processRequest_line` and `parseHeaders_scan` say what the
parser does in terms of `LineOf` and `Scan`; callers never unfold it.
-/
namespace HttpC.L2
open HttpC.Regex HttpC.L1.Util

variable {α : Type}

/-! ## The header loop follows the scan -/

/-- What a header line does to the connection. -/
def applyField (c : Conn α) (f : Field) : Conn α :=
  if f.key = CONTENT_LENGTH_KEY then { c with contentLength := ssize (strtoull f.value) }
  else if f.key = REQUEST_ID_KEY then { c with requestId := f.value }
  else c

theorem take_cstr_key {f : Field} (hf : f.Ok) (t : Bytes) :
    (cstr (f.text ++ t)).take f.key.length = f.key := by
  have h0 : (0 : UInt8) ∉ f.key := fun h => (isKey_ne (hf.key_cls 0 h)).2.2.2 rfl
  rw [Field.text, List.append_assoc, cstr_append_of_not_mem _ h0, List.take_left]

theorem strncmpEq_key {f : Field} (hf : f.Ok) (t : Bytes) {k : Bytes} (hk : (0 : UInt8) ∉ k) :
    (f.key.length = k.length ∧ strncmpEq (f.text ++ t) k f.key.length = true) ↔ f.key = k := by
  rw [strncmpEq, take_cstr_key hf, cstr_eq_self hk, beq_iff_eq]
  constructor
  · rintro ⟨h1, h2⟩; rw [h1, List.take_length] at h2; exact h2
  · rintro rfl; exact ⟨rfl, by simp⟩

theorem storeField_eq {f : Field} (hf : f.Ok) (t : Bytes) (c : Conn α) :
    storeField (f.text ++ t) f.key.length f.value c = applyField c f := by
  have h0 : (0 : UInt8) ∉ f.value := fun h => (isValue_ne (hf.value_cls 0 h)).2.2 rfl
  unfold storeField applyField
  simp only [strncmpEq_key hf t (k := CONTENT_LENGTH_KEY) (by decide),
    strncmpEq_key hf t (k := REQUEST_ID_KEY) (by decide), cstr_eq_self h0,
    List.take_of_length_le hf.value_le]

theorem cstr_drop {s : Bytes} {n : Nat} (h : n ≤ (cstr s).length) :
    cstr (s.drop n) = (cstr s).drop n := by
  induction s generalizing n with
  | nil => simp [cstr]
  | cons x s ih =>
    cases n with
    | zero => rfl
    | succ n =>
      by_cases hx : x = 0
      · subst hx; simp [cstr] at h
      · have e : cstr (x :: s) = x :: cstr s := by simp [cstr, hx]
        rw [e] at h ⊢
        simpa using ih (by simpa using h)

/-- `regexec(&re, s)` when the leftmost match of the string is `f` at `i`. -/
theorem regexec_header {s : Bytes} {i : Nat} {f : Field} (h : FirstAt (cstr s) i f) :
    regexec HEADER_FIELD s = some [⟨i, i + f.text.length⟩, ⟨i, i + f.key.length⟩,
      ⟨i + f.key.length + 2, i + f.key.length + 2 + f.value.length⟩] := by
  rw [regexec_unanchored rfl, search_header h, Option.map_some, headerField_items]
  simp [regmatches, groups, Field.text, Nat.add_assoc]

theorem regexec_header_none {s : Bytes} (h : NoField (cstr s)) :
    regexec HEADER_FIELD s = none := by
  rw [regexec_unanchored rfl, search_header_none h]; rfl

/-- The loop computes the scan; the fuel `parse_headers` starts with is
enough. -/
theorem parseHeadersLoop_scan {headers T : Bytes} {fs : List Field} {n offset fuel : Nat}
    (hT : T = (cstr headers).drop offset) (ho : offset ≤ (cstr headers).length)
    (h : Scan T fs n) (hf : T.length < fuel) (c : Conn α) :
    parseHeadersLoop headers fuel offset c = (offset + n, fs.foldl applyField c) := by
  induction h generalizing offset fuel c with
  | done h0 =>
    cases fuel with
    | zero => omega
    | succ fuel =>
      rw [hT, ← cstr_drop ho] at h0
      simp [parseHeadersLoop, regexec_header_none h0]
  | @next T i f fs n hfst _ ih =>
    cases fuel with
    | zero => omega
    | succ fuel =>
      have hl := hfst.text.length_le
      rw [List.length_drop] at hl
      have hpos := hfst.ok.key_pos
      have hTl : T.length = (cstr headers).length - offset := by rw [hT, List.length_drop]
      -- the buffer from the match on: the match, then the rest
      obtain ⟨t, ht⟩ : f.text <+: headers.drop (offset + i) := by
        apply hfst.text.trans
        rw [hT, List.drop_drop]
        exact (cstr_initial headers).drop _
      have hval : (headers.drop (offset + (i + f.key.length + 2))).take f.value.length =
          f.value := by
        rw [show offset + (i + f.key.length + 2) = offset + i + (f.key.length + 2) by omega,
          ← List.drop_drop, ← ht, Field.text_drop, List.take_left]
      have hfst' : FirstAt (cstr (headers.drop offset)) i f := by rwa [cstr_drop ho, ← hT]
      simp only [Field.text_length] at hl
      simp only [parseHeadersLoop, regexec_header hfst', Nat.add_sub_cancel_left, hval]
      rw [← ht, storeField_eq hfst.ok, ih]
      · simp only [List.foldl_cons]; congr 1; omega
      · rw [hT, List.drop_drop]
      · simp only [Field.text_length]; omega
      · simp only [List.length_drop, Field.text_length]; omega

theorem parseHeaders_scan [Octet α] {c : Conn α} {fs : List Field} {n : Nat}
    (h : Scan (cstr ((octets c.buffer).drop c.messageStart)) fs n) :
    parseHeaders .ok c =
      (none, { fs.foldl applyField c with
        messageStart := (fs.foldl applyField c).messageStart + (n + 2) }) := by
  have hl := @parseHeadersLoop_scan α ((octets c.buffer).drop c.messageStart) _ fs n 0
    (((octets c.buffer).drop c.messageStart).length + 1) rfl (Nat.zero_le _) h
    (Nat.lt_succ_of_le (cstr_initial _).length_le) c
  simp only [parseHeaders, Regcomp.ok, Bool.true_eq_false, if_false, hl, Nat.zero_add]

/-! ## Frame facts of the fold -/

theorem applyField_frame (c : Conn α) (f : Field) :
    (applyField c f).buffer = c.buffer ∧ (applyField c f).bytesRead = c.bytesRead ∧
      (applyField c f).messageStart = c.messageStart ∧ (applyField c f).uri = c.uri ∧
      (applyField c f).request = c.request := by
  unfold applyField; split
  · simp
  · split <;> simp

theorem foldl_applyField_frame (fs : List Field) (c : Conn α) :
    (fs.foldl applyField c).buffer = c.buffer ∧
      (fs.foldl applyField c).bytesRead = c.bytesRead ∧
      (fs.foldl applyField c).messageStart = c.messageStart ∧
      (fs.foldl applyField c).uri = c.uri ∧ (fs.foldl applyField c).request = c.request := by
  induction fs generalizing c with
  | nil => simp
  | cons f fs ih =>
    obtain ⟨h1, h2, h3, h4, h5⟩ := ih (applyField c f)
    obtain ⟨k1, k2, k3, k4, k5⟩ := applyField_frame c f
    exact ⟨h1.trans k1, h2.trans k2, h3.trans k3, h4.trans k4, h5.trans k5⟩

/-- The two values the headers leave, from the values before them. -/
def lastLength (fs : List Field) (n : Int) : Int :=
  fs.foldl (fun a f => if f.key = CONTENT_LENGTH_KEY then ssize (strtoull f.value) else a) n

def lastId (fs : List Field) (v : Bytes) : Bytes :=
  fs.foldl (fun a f => if f.key = REQUEST_ID_KEY then f.value else a) v

theorem foldl_applyField_values (fs : List Field) (c : Conn α) :
    (fs.foldl applyField c).contentLength = lastLength fs c.contentLength ∧
      (fs.foldl applyField c).requestId = lastId fs c.requestId := by
  induction fs generalizing c with
  | nil => exact ⟨rfl, rfl⟩
  | cons f fs ih =>
    obtain ⟨h1, h2⟩ := ih (applyField c f)
    rw [List.foldl_cons, h1, h2]
    have hne : CONTENT_LENGTH_KEY ≠ REQUEST_ID_KEY := by decide
    unfold applyField lastLength lastId
    rw [List.foldl_cons, List.foldl_cons]
    by_cases hk : f.key = CONTENT_LENGTH_KEY
    · simp [hk, hne]
    · by_cases hr : f.key = REQUEST_ID_KEY
      · simp [hr, hne.symm]
      · simp [hk, hr]

/-! ## The request line -/

/-- A request line as `REQUEST_LINE` reads it. -/
structure ReqLine where
  method : Bytes
  uri : Bytes
  major : Bytes
  dot : UInt8
  minor : Bytes
  deriving DecidableEq, Repr

/-- ` HTTP/` -/
def HTTP : Bytes := [32, 72, 84, 84, 80, 47]

def ReqLine.text (r : ReqLine) : Bytes :=
  r.method ++ 32 :: 47 :: (r.uri ++ (HTTP ++ (r.major ++ r.dot :: (r.minor ++ [13, 10]))))

structure ReqLine.Ok (r : ReqLine) : Prop where
  method_pos : 1 ≤ r.method.length
  method_le : r.method.length ≤ 8
  method_cls : ∀ x ∈ r.method, isAlpha x = true
  uri_pos : 1 ≤ r.uri.length
  uri_le : r.uri.length ≤ 63
  uri_cls : ∀ x ∈ r.uri, isUri x = true
  major_pos : 1 ≤ r.major.length
  major_le : r.major.length ≤ 2
  major_cls : ∀ x ∈ r.major, isDigit x = true
  minor_pos : 1 ≤ r.minor.length
  minor_le : r.minor.length ≤ 2
  minor_cls : ∀ x ∈ r.minor, isDigit x = true

instance (r : ReqLine) : Decidable r.Ok :=
  decidable_of_iff ((1 ≤ r.method.length ∧ r.method.length ≤ 8 ∧ r.method.all isAlpha = true) ∧
      (1 ≤ r.uri.length ∧ r.uri.length ≤ 63 ∧ r.uri.all isUri = true) ∧
      (1 ≤ r.major.length ∧ r.major.length ≤ 2 ∧ r.major.all isDigit = true) ∧
      1 ≤ r.minor.length ∧ r.minor.length ≤ 2 ∧ r.minor.all isDigit = true)
    ⟨fun ⟨⟨m1, m2, m3⟩, ⟨u1, u2, u3⟩, ⟨a1, a2, a3⟩, i1, i2, i3⟩ =>
      ⟨m1, m2, List.all_eq_true.mp m3, u1, u2, List.all_eq_true.mp u3,
       a1, a2, List.all_eq_true.mp a3, i1, i2, List.all_eq_true.mp i3⟩,
     fun h =>
      ⟨⟨h.method_pos, h.method_le, List.all_eq_true.mpr h.method_cls⟩,
       ⟨h.uri_pos, h.uri_le, List.all_eq_true.mpr h.uri_cls⟩,
       ⟨h.major_pos, h.major_le, List.all_eq_true.mpr h.major_cls⟩,
       h.minor_pos, h.minor_le, List.all_eq_true.mpr h.minor_cls⟩⟩

/-- What the request-line pattern accepts as a URI. -/
structure UriOk (uri : Bytes) : Prop where
  pos : 1 ≤ uri.length
  le : uri.length ≤ 63
  cls : ∀ x ∈ uri, isUri x = true

theorem UriOk.no_nul {uri : Bytes} (h : UriOk uri) : (0 : UInt8) ∉ uri := by
  intro hm
  have := h.cls 0 hm
  revert this; decide

instance (uri : Bytes) : Decidable (UriOk uri) :=
  decidable_of_iff (1 ≤ uri.length ∧ uri.length ≤ 63 ∧ uri.all isUri = true)
    ⟨fun ⟨h1, h2, h3⟩ => ⟨h1, h2, List.all_eq_true.mp h3⟩,
     fun h => ⟨h.pos, h.le, List.all_eq_true.mpr h.cls⟩⟩

theorem ReqLine.Ok.uri_ok {r : ReqLine} (h : r.Ok) : UriOk r.uri := ⟨h.uri_pos, h.uri_le, h.uri_cls⟩

def ReqLine.pieces (r : ReqLine) : List Bytes :=
  [r.method, [32], [47], r.uri, [32], [72], [84], [84], [80], [47], r.major, [r.dot], r.minor,
    [13], [10]]

@[simp] theorem ReqLine.text_length (r : ReqLine) : r.text.length =
    r.method.length + r.uri.length + r.major.length + r.minor.length + 11 := by
  simp [ReqLine.text, HTTP]; omega

theorem requestLine_items : REQUEST_LINE.items =
    [⟨isAlpha, 1, 8, true⟩, ⟨(· == 32), 1, 1, false⟩, ⟨(· == 47), 1, 1, false⟩,
      ⟨isUri, 1, 63, true⟩, ⟨(· == 32), 1, 1, false⟩, ⟨(· == 72), 1, 1, false⟩,
      ⟨(· == 84), 1, 1, false⟩, ⟨(· == 84), 1, 1, false⟩, ⟨(· == 80), 1, 1, false⟩,
      ⟨(· == 47), 1, 1, false⟩, ⟨isDigit, 1, 2, true⟩, ⟨isAny, 1, 1, false⟩,
      ⟨isDigit, 1, 2, true⟩, ⟨(· == 13), 1, 1, false⟩, ⟨(· == 10), 1, 1, false⟩] := rfl

theorem fitsAt_line {s : Bytes} {ps : List Bytes} :
    FitsAt REQUEST_LINE.items s ps ↔
      ∃ r : ReqLine, r.Ok ∧ r.text <+: s ∧ ps = r.pieces := by
  unfold FitsAt
  rw [requestLine_items]
  constructor
  · intro h
    obtain ⟨hf, hp⟩ := h
    simp only [List.forall₂_cons_left_iff, List.forall₂_nil_left_iff,
      forall₂_singleton_lit] at hf
    obtain ⟨m, _, ⟨hm1, hm2, hm3⟩, ⟨_, _, rfl, ⟨_, _, rfl, ⟨u, _, ⟨hu1, hu2, hu3⟩, ⟨_, _, rfl,
      ⟨_, _, rfl, ⟨_, _, rfl, ⟨_, _, rfl, ⟨_, _, rfl, ⟨_, _, rfl, ⟨a, _, ⟨ha1, ha2, ha3⟩,
      ⟨d, _, ⟨hd1, hd2, -⟩, ⟨b, _, ⟨hb1, hb2, hb3⟩, ⟨_, _, rfl, ⟨_, _, rfl, rfl, rfl⟩, rfl⟩,
      rfl⟩, rfl⟩, rfl⟩, rfl⟩, rfl⟩, rfl⟩, rfl⟩, rfl⟩, rfl⟩, rfl⟩, rfl⟩, rfl⟩, rfl⟩ := hf
    obtain ⟨c, rfl⟩ := List.length_eq_one_iff.mp (show d.length = 1 by simp at hd1 hd2; omega)
    exact ⟨⟨m, u, a, c, b⟩,
      ⟨hm1, hm2, hm3, hu1, hu2, hu3, ha1, ha2, ha3, hb1, hb2, hb3⟩,
      by simpa [ReqLine.text, HTTP] using hp, rfl⟩
  · intro h
    obtain ⟨r, hr, hp, rfl⟩ := h
    refine ⟨?_, by simpa [ReqLine.pieces, ReqLine.text, HTTP] using hp⟩
    have hl : ∀ c : UInt8, Item.Ok ⟨(· == c), 1, 1, false⟩ [c] :=
      fun c => forall₂_singleton_lit.mpr rfl
    unfold ReqLine.pieces
    exact .cons ⟨hr.method_pos, hr.method_le, hr.method_cls⟩ (.cons (hl _) (.cons (hl _)
      (.cons ⟨hr.uri_pos, hr.uri_le, hr.uri_cls⟩ (.cons (hl _) (.cons (hl _) (.cons (hl _)
      (.cons (hl _) (.cons (hl _) (.cons (hl _) (.cons ⟨hr.major_pos, hr.major_le, hr.major_cls⟩
      (.cons ⟨by simp, by simp, fun _ _ => rfl⟩
      (.cons ⟨hr.minor_pos, hr.minor_le, hr.minor_cls⟩ (.cons (hl _)
      (.cons (hl _) .nil))))))))))))))

/-- `regexec` reports the request line `r` for the string `s`. -/
def LineOf (s : Bytes) (r : ReqLine) : Prop :=
  r.Ok ∧ r.text <+: s ∧ here REQUEST_LINE.items s = some r.pieces

def NoLine (s : Bytes) : Prop := ∀ r : ReqLine, r.Ok → ¬ r.text <+: s

theorem lineOf_or_noLine (s : Bytes) : (∃ r, LineOf s r) ∨ NoLine s := by
  cases h : here REQUEST_LINE.items s with
  | none =>
    exact .inr fun r hr ht => here_eq_none_iff.mp h _ (fitsAt_line.mpr ⟨r, hr, ht, rfl⟩)
  | some ps =>
    obtain ⟨r, hr, ht, rfl⟩ := fitsAt_line.mp (here_fits h)
    exact .inl ⟨r, hr, ht, h⟩

theorem LineOf.unique {s : Bytes} {r q : ReqLine} (h : LineOf s r) (h' : LineOf s q) : r = q := by
  have := h.2.2.symm.trans h'.2.2
  simp only [ReqLine.pieces, Option.some.injEq, List.cons.injEq, and_true, true_and] at this
  obtain ⟨h1, h2, h3, h4, h5⟩ := this
  cases r; cases q; simp_all

theorem regexec_line {s : Bytes} {r : ReqLine} (h : LineOf (cstr s) r) :
    regexec REQUEST_LINE s = some [⟨0, r.text.length⟩, ⟨0, r.method.length⟩,
      ⟨r.method.length + 2, r.method.length + 2 + r.uri.length⟩,
      ⟨r.method.length + r.uri.length + 8, r.method.length + r.uri.length + 8 + r.major.length⟩,
      ⟨r.text.length - 2 - r.minor.length, r.text.length - 2⟩] := by
  rw [regexec_anchored rfl, h.2.2, Option.map_some, requestLine_items]
  simp only [regmatches, groups, ReqLine.pieces, ReqLine.text_length, List.flatten_cons,
    List.flatten_nil, List.length_append, List.length_cons, List.length_nil, if_true, if_false,
    Bool.false_eq_true, Option.some.injEq, List.cons.injEq, Regmatch.mk.injEq, true_and, and_true]
  refine ⟨?_, ?_, ⟨?_, ?_⟩, ⟨?_, ?_⟩, ?_, ?_⟩ <;> omega

theorem regexec_noLine {s : Bytes} (h : NoLine (cstr s)) : regexec REQUEST_LINE s = none := by
  have : here REQUEST_LINE.items (cstr s) = none := by
    apply here_eq_none_iff.mpr
    intro ps hp
    obtain ⟨r, hr, ht, -⟩ := fitsAt_line.mp hp
    exact h r hr ht
  rw [regexec_anchored rfl, this]; rfl

theorem ReqLine.text_drop_uri (r : ReqLine) (t : Bytes) :
    (r.text ++ t).drop (r.method.length + 2) =
      r.uri ++ (HTTP ++ (r.major ++ r.dot :: (r.minor ++ 13 :: 10 :: t))) := by
  rw [ReqLine.text, List.append_assoc, List.drop_append, List.drop_of_length_le (by omega)]
  simp

theorem ReqLine.text_drop_minor (r : ReqLine) (t : Bytes) :
    (r.text ++ t).drop (r.text.length - 2 - r.minor.length) = r.minor ++ 13 :: 10 :: t := by
  have e : r.text ++ t = (r.method ++ 32 :: 47 :: (r.uri ++ (HTTP ++ (r.major ++ [r.dot])))) ++
      (r.minor ++ 13 :: 10 :: t) := by simp [ReqLine.text]
  rw [e, List.drop_append_of_le_length (by simp [HTTP]; omega), List.drop_of_length_le
    (by simp [HTTP]; omega), List.nil_append]

/-- The method the captured token stands for. -/
def ReqLine.request (r : ReqLine) : Request := methodOf r.text

theorem methodOf_initial {s t : Bytes} (h : t <+: cstr s) (hl : 3 ≤ t.length) :
    methodOf s = methodOf t := by
  have h0 : (0 : UInt8) ∉ t := fun hm => not_mem_cstr s (h.subset hm)
  have e : (cstr s).take 3 = (cstr t).take 3 := by
    rw [cstr_eq_self h0]
    obtain ⟨u, hu⟩ := h
    rw [← hu, List.take_append_of_le_length hl]
  unfold methodOf strncmpEq
  rw [e]

/-- The connection once the request line is stored. -/
def ReqLine.store (r : ReqLine) (c : Conn α) : Conn α :=
  { c with request := r.request, uri := r.uri }

/-- The version check compares the first digit of the minor version. -/
theorem LineOf.take_minor {s : Bytes} {r : ReqLine} (h : LineOf (cstr s) r) :
    (cstr (s.drop (r.text.length - 2 - r.minor.length))).take 1 = r.minor.take 1 := by
  obtain ⟨hr, ⟨v, hv⟩, -⟩ := h
  have hpos := hr.minor_pos
  have hle : r.text.length - 2 - r.minor.length ≤ (cstr s).length := by
    rw [← hv, List.length_append]
    omega
  rw [cstr_drop hle, ← hv, ReqLine.text_drop_minor, List.take_append_of_le_length hpos]

theorem LineOf.version_iff {s : Bytes} {r : ReqLine} (h : LineOf (cstr s) r)
    (h1 : ¬ 1 < r.minor.length) :
    strncmpEq (s.drop (r.text.length - 2 - r.minor.length)) (ascii "1") 1 = false ↔
      r.minor ≠ ascii "1" := by
  have htake : r.minor.take 1 = r.minor := List.take_of_length_le (by omega)
  have hone : (cstr (ascii "1")).take 1 = ascii "1" := by decide
  rw [strncmpEq, h.take_minor, htake, hone, beq_eq_false_iff_ne]

/-- **Spec of `process_request`.** -/
theorem processRequest_line [Octet α] (rc : Regcomp) {c : Conn α} {r : ReqLine}
    (hrc : rc.requestLine = true) (h : LineOf (cstr (octets c.buffer)) r) :
    processRequest rc c =
      if 1 < r.minor.length then (some .BAD_REQUEST, r.store c)
      else if r.minor ≠ ascii "1" then (some .VERSION_NOT_SUPPORTED, r.store c)
      else parseHeaders rc { r.store c with messageStart := r.text.length } := by
  have hre := regexec_line h
  have hver := h.version_iff
  obtain ⟨hr, hp, -⟩ := h
  obtain ⟨u, hu⟩ := hp.trans (cstr_initial _)
  have h1 := hr.method_pos; have h2 := hr.uri_pos; have h3 := hr.uri_le
  have hreq : methodOf (octets c.buffer) = r.request :=
    methodOf_initial hp (by simp only [ReqLine.text_length]; omega)
  have huri : ((octets c.buffer).drop (r.method.length + 2)).take r.uri.length = r.uri := by
    rw [← hu, ReqLine.text_drop_uri, List.take_left]
  have hne : r.uri ≠ [] := fun e => by rw [e] at h2; simp at h2
  have e1 : r.text.length - 2 - (r.text.length - 2 - r.minor.length) = r.minor.length := by
    simp only [ReqLine.text_length]; omega
  have e2 : r.text.length - 2 + 2 = r.text.length := by
    simp only [ReqLine.text_length]; omega
  simp only [processRequest, hrc, Bool.true_eq_false, if_false, hre,
    List.drop_zero, hreq, Nat.add_sub_cancel_left, huri, ge_iff_le,
    if_neg (show ¬ 64 ≤ r.uri.length by omega), e1, gt_iff_lt, ReqLine.store]
  by_cases hm : 1 < r.minor.length
  · simp only [hm, if_true]
  · simp only [hm, if_false, hver hm, e2, validateUri, hne]

theorem processRequest_noLine [Octet α] {rc : Regcomp} {c : Conn α} (hrc : rc.requestLine = true)
    (h : NoLine (cstr (octets c.buffer))) : processRequest rc c = (some .BAD_REQUEST, c) := by
  simp [processRequest, hrc, regexec_noLine h]

/-! ## The parser leaves `bytes_read` alone -/

theorem storeField_bytesRead (key : Bytes) (n : Nat) (v : Bytes) (c : Conn α) :
    (storeField key n v c).bytesRead = c.bytesRead := by
  unfold storeField; split
  · rfl
  · split <;> rfl

theorem parseHeadersLoop_bytesRead (headers : Bytes) (fuel offset : Nat) (c : Conn α) :
    (parseHeadersLoop headers fuel offset c).2.bytesRead = c.bytesRead := by
  induction fuel generalizing offset c with
  | zero => rfl
  | succ fuel ih =>
    simp only [parseHeadersLoop]
    split
    · rw [ih, storeField_bytesRead]
    · rfl

theorem parseHeaders_bytesRead [Octet α] (rc : Regcomp) (c : Conn α) :
    (parseHeaders rc c).2.bytesRead = c.bytesRead := by
  unfold parseHeaders
  split
  · rfl
  · exact parseHeadersLoop_bytesRead _ _ _ _

theorem processRequest_bytesRead [Octet α] (rc : Regcomp) (c : Conn α) :
    (processRequest rc c).2.bytesRead = c.bytesRead := by
  unfold processRequest
  split
  · rfl
  · simp only
    split
    · split
      · rfl
      · split
        · rfl
        · split
          · rfl
          · split
            · rfl
            · rw [parseHeaders_bytesRead]
    · rfl

/-- **`conn_is_empty` means the client closed without sending.** -/
theorem connParse_empty_iff [Octet α] (rc : Regcomp) (s : Src α) :
    connIsEmpty (connParse rc s).2.1 = true ↔
      (retryRead BUFFER_SIZE s.pending s.script).1 = .data [] := by
  rw [← @readUntil_nil_iff α _ BUFFER_SIZE BLANK_LINE s (by decide)]
  unfold connParse connIsEmpty
  cases hr : readUntil s BUFFER_SIZE BLANK_LINE with
  | mk r s' =>
    cases r with
    | error e => simp only; split <;> simp
    | ok buf =>
      simp only [Except.ok.injEq]
      split
      · rename_i h0; simp [List.eq_nil_of_length_eq_zero h0]
      · rename_i h0
        have hne : buf ≠ [] := fun h => h0 (by rw [h]; rfl)
        have hb := processRequest_bytesRead rc
          { (connNew : Conn α) with buffer := buf, bytesRead := buf.length }
        split <;> rename_i hp <;> rw [hp] at hb <;> simp only at hb ⊢ <;>
          simp [hb, hne]

end HttpC.L2
