import HttpC.L2Parse.Parse

/-!
# `conn_parse` on a header block

`Block H`: the only blank line of `H` is its end. Whatever follows a block on
the connection, `read_until` returns it with some of what follows
(`readUntil_block`), and the request line it starts with lies inside it
(`lineOf_block`, `Block.split`): what comes behind the block can change only
what the header loop finds.
-/
namespace HttpC.L2
open HttpC.Regex HttpC.L1.Util

variable {α : Type}

/-! ## `conn_parse`, once the bytes are there -/

/-- The connection an accepted request leaves. -/
def accepted (buf : List α) (r : ReqLine) (fs : List Field) (n : Nat) : Conn α where
  buffer := buf
  bytesRead := buf.length
  messageStart := r.text.length + (n + 2)
  inMessage := buf.length - ((r.text.length + (n + 2) : Nat) : Int)
  contentLength := lastLength fs 0
  uri := r.uri
  requestId := lastId fs (ascii "0")
  request := r.request

theorem ReqLine.text_pos (r : ReqLine) : 0 < r.text.length := by
  simp only [ReqLine.text_length]; omega

/-- A request line is at most 86 bytes, far below the buffer. -/
theorem ReqLine.Ok.length_le {r : ReqLine} (hr : r.Ok) : r.text.length ≤ 86 := by
  have h1 := hr.method_le; have h2 := hr.uri_le; have h3 := hr.major_le; have h4 := hr.minor_le
  rw [ReqLine.text_length]; omega

theorem LineOf.length_pos [Octet α] {buf : List α} {r : ReqLine} (h : LineOf (cstr (octets buf)) r) :
    buf.length ≠ 0 := by
  have h1 := h.2.1.length_le
  have h2 := (cstr_initial (octets buf)).length_le
  have h3 := r.text_pos
  rw [octets_length] at h2; omega

/-- A minor version other than a single `1` is answered 400 or 505. -/
def ReqLine.versionError (r : ReqLine) : Response :=
  if 1 < r.minor.length then .BAD_REQUEST else .VERSION_NOT_SUPPORTED

/-- The fresh connection with its buffer filled. -/
def filled (buf : List α) : Conn α := { (connNew : Conn α) with buffer := buf, bytesRead := buf.length }

section
variable [Octet α] {s s' : Src α} {buf : List α}

theorem connParse_ok {rc : Regcomp} (hr : readUntil s BUFFER_SIZE BLANK_LINE = (.ok buf, s'))
    (hne : buf.length ≠ 0) {res : Option Response} {c : Conn α}
    (hp : processRequest rc (filled buf) = (res, c)) :
    connParse rc s = (res, if res = none then
      { c with inMessage := c.bytesRead - c.messageStart } else c, s') := by
  unfold filled at hp
  simp only [connParse, hr, hne, if_false, hp]
  cases res <;> rfl

theorem connParse_accept {r : ReqLine} {fs : List Field} {n : Nat}
    (hr : readUntil s BUFFER_SIZE BLANK_LINE = (.ok buf, s')) (hl : LineOf (cstr (octets buf)) r)
    (hm : r.minor = ascii "1") (hs : Scan (cstr ((octets buf).drop r.text.length)) fs n) :
    connParse .ok s = (none, accepted buf r fs n, s') := by
  have hm1 : ¬ 1 < r.minor.length := by rw [hm]; decide
  have hp := processRequest_line .ok (c := filled buf) rfl hl
  rw [if_neg hm1, if_neg (not_not.mpr hm),
    parseHeaders_scan (c := { r.store (filled buf) with messageStart := r.text.length }) hs] at hp
  rw [connParse_ok hr hl.length_pos hp]
  obtain ⟨h1, h2, h3, h4, h5⟩ := foldl_applyField_frame fs
    ({ r.store (filled buf) with messageStart := r.text.length } : Conn α)
  obtain ⟨h6, h7⟩ := foldl_applyField_values fs
    ({ r.store (filled buf) with messageStart := r.text.length } : Conn α)
  simp only [if_true, accepted, h1, h2, h3, h4, h5, h6, h7]
  rfl

theorem connParse_version {r : ReqLine}
    (hr : readUntil s BUFFER_SIZE BLANK_LINE = (.ok buf, s')) (hl : LineOf (cstr (octets buf)) r)
    (hm : r.minor ≠ ascii "1") :
    connParse .ok s = (some r.versionError, r.store (filled buf), s') := by
  have hp := processRequest_line .ok (c := filled buf) rfl hl
  rw [if_pos hm] at hp
  rw [ReqLine.versionError]
  by_cases h1 : 1 < r.minor.length
  · rw [if_pos h1] at hp ⊢
    rw [connParse_ok hr hl.length_pos hp]; rfl
  · rw [if_neg h1] at hp ⊢
    rw [connParse_ok hr hl.length_pos hp]; rfl

theorem connParse_noLine (hr : readUntil s BUFFER_SIZE BLANK_LINE = (.ok buf, s'))
    (hl : NoLine (cstr (octets buf))) :
    connParse .ok s = (some .BAD_REQUEST, filled buf, s') := by
  by_cases h0 : buf.length = 0
  · simp [connParse, hr, h0, filled]
  · rw [connParse_ok hr h0 (processRequest_noLine (c := filled buf) rfl hl)]; rfl

/-- The three outcomes of a `conn_parse` whose read succeeded. -/
theorem connParse_cases (hr : readUntil s BUFFER_SIZE BLANK_LINE = (.ok buf, s')) :
    (∃ r fs n, LineOf (cstr (octets buf)) r ∧ r.minor = ascii "1" ∧
      Scan (cstr ((octets buf).drop r.text.length)) fs n ∧
      connParse .ok s = (none, accepted buf r fs n, s')) ∨
    (∃ r, LineOf (cstr (octets buf)) r ∧ r.minor ≠ ascii "1" ∧
      connParse .ok s = (some r.versionError, r.store (filled buf), s')) ∨
    (NoLine (cstr (octets buf)) ∧ connParse .ok s = (some .BAD_REQUEST, filled buf, s')) := by
  rcases lineOf_or_noLine (cstr (octets buf)) with ⟨r, hl⟩ | hl
  · by_cases hm : r.minor = ascii "1"
    · obtain ⟨fs, n, hs⟩ := scan_total (cstr ((octets buf).drop r.text.length))
      exact .inl ⟨r, fs, n, hl, hm, hs, connParse_accept hr hl hm hs⟩
    · exact .inr (.inl ⟨r, hl, hm, connParse_version hr hl hm⟩)
  · exact .inr (.inr ⟨hl, connParse_noLine hr hl⟩)

theorem connParse_error {e : Errno} (hr : readUntil s BUFFER_SIZE BLANK_LINE = (.error e, s')) :
    (connParse .ok s).1 ≠ none := by
  simp only [connParse, hr]; split <;> simp

/-- A request is only accepted past both `regcomp`s. -/
theorem processRequest_none {rc : Regcomp} {c : Conn α} (h : (processRequest rc c).1 = none) :
    rc = .ok := by
  obtain ⟨a, b⟩ := rc
  cases a with
  | false => simp [processRequest] at h
  | true =>
    cases b with
    | true => rfl
    | false =>
      -- every other return of `process_request` is a response
      simp only [processRequest, parseHeaders, Bool.true_eq_false, if_false, if_true] at h
      split at h
      · split at h
        · cases h
        · split at h
          · cases h
          · split at h
            · cases h
            · split at h <;> cases h
      · cases h

/-- An accepted request starts with a request line of minor version 1; the
header loop ran over what follows it. -/
theorem connParse_accepted {rc : Regcomp} {c : Conn α} (h : connParse rc s = (none, c, s')) :
    rc = .ok ∧ ∃ buf r fs n, readUntil s BUFFER_SIZE BLANK_LINE = (.ok buf, s') ∧
      LineOf (cstr (octets buf)) r ∧ r.minor = ascii "1" ∧
      Scan (cstr ((octets buf).drop r.text.length)) fs n ∧ c = accepted buf r fs n := by
  have hrc : rc = .ok := by
    simp only [connParse] at h
    split at h
    · split at h <;> cases h
    · split at h
      · cases h
      · split at h
        · cases h
        · rename_i hp
          exact processRequest_none (congrArg Prod.fst hp)
  subst hrc
  refine ⟨rfl, ?_⟩
  cases hr : readUntil s BUFFER_SIZE BLANK_LINE with
  | mk e s₁ =>
    cases e with
    | error e => exact absurd (congrArg Prod.fst h) (connParse_error hr)
    | ok buf =>
      rcases connParse_cases hr with ⟨r, fs, n, hl, hm, hs, hp⟩ | ⟨r, -, -, hp⟩ | ⟨-, hp⟩
      · rw [h, Prod.mk.injEq, Prod.mk.injEq] at hp
        obtain ⟨-, rfl, rfl⟩ := hp
        exact ⟨buf, r, fs, n, rfl, hl, hm, hs, rfl⟩
      · rw [h] at hp; simp at hp
      · rw [h] at hp; simp at hp

/-- The request line gave it its method and URI. -/
theorem connParse_none {rc : Regcomp} {c : Conn α} (h : connParse rc s = (none, c, s')) :
    rc = .ok ∧ ∃ buf r, readUntil s BUFFER_SIZE BLANK_LINE = (.ok buf, s') ∧
      LineOf (cstr (octets buf)) r ∧ r.minor = ascii "1" ∧ c.request = r.request ∧
      c.uri = r.uri := by
  obtain ⟨hrc, buf, r, fs, n, hr, hl, hm, -, rfl⟩ := connParse_accepted h
  exact ⟨hrc, buf, r, hr, hl, hm, rfl, rfl⟩

end

/-- What is logged of a connection has no byte outside the two alphabets. -/
structure Tame (c : Conn α) : Prop where
  uri : ∀ x ∈ c.uri, isUri x = true
  id : ∀ x ∈ c.requestId, isValue x = true

theorem tame_filled (buf : List α) (n : Int) :
    Tame { (connNew : Conn α) with buffer := buf, bytesRead := n } := by
  have hid : (ascii "0").all isValue = true := by decide
  exact ⟨List.forall_mem_nil _, List.all_eq_true.mp hid⟩

theorem lastId_tame {fs : List Field} {v : Bytes} (h : ∀ f ∈ fs, f.Ok)
    (hv : ∀ x ∈ v, isValue x = true) : ∀ x ∈ lastId fs v, isValue x = true := by
  unfold lastId
  induction fs generalizing v with
  | nil => exact hv
  | cons f fs ih =>
    obtain ⟨hf, hfs⟩ := List.forall_mem_cons.mp h
    rw [List.foldl_cons]
    apply ih hfs
    split
    · exact hf.value_cls
    · exact hv

theorem processRequest_tame [Octet α] (rc : Regcomp) (buf : List α) :
    Tame (processRequest rc (filled buf)).2 := by
  have h0 := tame_filled buf buf.length
  have hstore : ∀ {r : ReqLine}, r.Ok → ∀ m : Nat,
      Tame { r.store (filled buf) with messageStart := m } := fun hr _ => ⟨hr.uri_cls, h0.id⟩
  cases hrc : rc.requestLine with
  | false => simp only [processRequest, hrc, if_true]; exact h0
  | true =>
    rcases lineOf_or_noLine (cstr (octets (filled buf).buffer)) with ⟨r, hl⟩ | hl
    · rw [processRequest_line _ hrc hl]
      split
      · exact hstore hl.1 0
      · split
        · exact hstore hl.1 0
        · -- past the request line only `request_id` changes
          cases hh : rc.headerField with
          | false => simp only [parseHeaders, hh, if_true]; exact hstore hl.1 _
          | true =>
            obtain rfl : rc = .ok := by cases rc; simp_all [Regcomp.ok]
            obtain ⟨fs, n, hs⟩ := scan_total (cstr ((octets (filled buf).buffer).drop r.text.length))
            rw [parseHeaders_scan (c := { r.store (filled buf) with messageStart := r.text.length }) hs]
            obtain ⟨-, -, -, h4, -⟩ := foldl_applyField_frame fs
              ({ r.store (filled buf) with messageStart := r.text.length } : Conn α)
            obtain ⟨-, h7⟩ := foldl_applyField_values fs
              ({ r.store (filled buf) with messageStart := r.text.length } : Conn α)
            refine ⟨?_, ?_⟩
            · simp only [h4]; exact hl.1.uri_cls
            · simp only [h7]; exact lastId_tame hs.ok h0.id
    · rw [processRequest_noLine hrc hl]; exact h0

/-- **However `conn_parse` leaves**, URI and request id are made of the bytes
their patterns allow. -/
theorem connParse_tame [Octet α] (rc : Regcomp) (s : Src α) : Tame (connParse rc s).2.1 := by
  unfold connParse
  cases hr : readUntil s BUFFER_SIZE BLANK_LINE with
  | mk r s' =>
    cases r with
    | error e =>
      simp only
      split <;> exact tame_filled [] (-1)
    | ok buf =>
      simp only
      split
      · exact tame_filled buf _
      · have hp := processRequest_tame rc buf
        unfold filled at hp
        split <;> rename_i heq <;> rw [heq] at hp
        · exact hp
        · exact ⟨hp.uri, hp.id⟩

/-! ## Header blocks -/

/-- The only blank line of `H` is its end. -/
def Block (H : Bytes) : Prop := BLANK_LINE <:+ H ∧ ¬ BLANK_LINE <:+: H.dropLast

instance (H : Bytes) : Decidable (Block H) := by unfold Block; exact inferInstance

theorem blankLine_eq : BLANK_LINE = [13, 10, 13, 10] := by decide

theorem Block.length {H : Bytes} (h : Block H) : 4 ≤ H.length := by
  simpa [blankLine_eq] using h.1.length_le

theorem Block.getElem {H : Bytes} (h : Block H) :
    H[H.length - 1]? = some 10 ∧ H[H.length - 2]? = some 13 ∧ H[H.length - 3]? = some 10 ∧
      H[H.length - 4]? = some 13 := by
  obtain ⟨A, rfl⟩ := h.1
  simp [blankLine_eq]

/-- Text that holds a blank line and starts like `H ++ B` holds all of `H`. -/
theorem Block.length_le {H B b : Bytes} (h : Block H) (hp : b <+: H ++ B)
    (hi : BLANK_LINE <:+: b) : H.length ≤ b.length := by
  by_contra hlt
  refine h.2 (hi.trans ?_)
  have : b <+: H.dropLast := by
    refine List.prefix_of_prefix_length_le hp
      ((List.dropLast_prefix H).trans (List.prefix_append _ _)) ?_
    rw [List.length_dropLast]; omega
  exact this.isInfix

/-- **Reading a block.** On every cut, `read_until` returns the block and at
most a buffer's worth of what follows. -/
theorem readUntil_block [Octet α] {H B : Bytes} {s : Src α} (hH : Block H)
    (hle : H.length ≤ BUFFER_SIZE) (hp : octets s.pending = H ++ B) (hc : Cut s.script) :
    ∃ buf s' b, readUntil s BUFFER_SIZE BLANK_LINE = (.ok buf, s') ∧
      s.pending = buf ++ s'.pending ∧ octets buf = H ++ b ∧ b <+: B ∧
      buf.length ≤ BUFFER_SIZE ∧ Cut s'.script := by
  obtain ⟨buf, s', h1, h2, h3, h4, h5⟩ := readUntil_cut BUFFER_SIZE BLANK_LINE hc
  have hpre : octets buf <+: H ++ B := by
    rw [← hp, h2, octets_append]; exact List.prefix_append _ _
  have hlen : H.length ≤ (octets buf).length := by
    rcases h5 with h5 | h5 | h5
    · exact hH.length_le hpre h5
    · rw [octets_length, h5]; exact hle
    · rw [h5, List.append_nil] at h2
      rw [← h2, hp]; simp
  obtain ⟨b, hb⟩ := List.prefix_of_prefix_length_le (List.prefix_append H B) hpre hlen
  refine ⟨buf, s', b, h1, h2, hb.symm, ?_, h3, h4⟩
  rw [← hb] at hpre
  exact (List.prefix_append_right_inj _).mp hpre

/-- **Cutting right after `k` bytes.** Some cut makes `read_until` stop with
exactly the block and the first `k` bytes behind it. -/
theorem readUntil_block_exact [Octet α] {H B : Bytes} (pending : List α) (hH : Block H) {k : Nat}
    (hk : k ≤ B.length) (hle : H.length + k ≤ BUFFER_SIZE) (hp : octets pending = H ++ B) :
    readUntil ⟨pending, [.got (H.length + k - 1)]⟩ BUFFER_SIZE BLANK_LINE =
      (.ok (pending.take (H.length + k)), ⟨pending.drop (H.length + k), []⟩) := by
  have h4 := hH.length
  have hlen : pending.length = H.length + B.length := by
    rw [← octets_length, hp, List.length_append]
  have e : H.length + k - 1 + 1 = H.length + k := by omega
  have := @readUntil_first α _ BUFFER_SIZE BLANK_LINE ⟨pending, [.got (H.length + k - 1)]⟩ _ _
    (by decide) rfl (by rw [e]; exact hle)
    (by rw [e, hlen]; omega) (by
      rw [e, octets_take, hp, List.take_append, List.take_of_length_le (by omega)]
      exact hH.1.isInfix.trans (List.infix_append' [] H _))
  rwa [e] at this

/-! ## The request line lies in the block -/

theorem isAlpha_ne {x : UInt8} (h : isAlpha x = true) : x ≠ 10 ∧ x ≠ 13 ∧ x ≠ 0 := by
  refine ⟨?_, ?_, ?_⟩ <;> rintro rfl <;> revert h <;> decide

theorem isUri_ne {x : UInt8} (h : isUri x = true) : x ≠ 10 ∧ x ≠ 13 ∧ x ≠ 0 := by
  refine ⟨?_, ?_, ?_⟩ <;> rintro rfl <;> revert h <;> decide

theorem isDigit_ne {x : UInt8} (h : isDigit x = true) : x ≠ 10 ∧ x ≠ 13 ∧ x ≠ 0 := by
  refine ⟨?_, ?_, ?_⟩ <;> rintro rfl <;> revert h <;> decide

/-- Position of the byte between the version numbers. -/
def ReqLine.dotIndex (r : ReqLine) : Nat :=
  r.method.length + r.uri.length + r.major.length + 8

/-- LF inside a request line is the version separator or the last byte. -/
theorem ReqLine.lf_index {r : ReqLine} (hr : r.Ok) {p : Nat} (h : r.text[p]? = some 10)
    (hp : p + 1 < r.text.length) : p = r.dotIndex := by
  by_contra hne
  have e : r.text = (r.method ++ 32 :: 47 :: (r.uri ++ (HTTP ++ r.major))) ++
      r.dot :: (r.minor ++ [13, 10]) := by simp [ReqLine.text]
  have hl : (r.method ++ 32 :: 47 :: (r.uri ++ (HTTP ++ r.major))).length = r.dotIndex := by
    simp [HTTP, ReqLine.dotIndex]; omega
  have hno : (10 : UInt8) ∉ r.method ++ 32 :: 47 :: (r.uri ++ (HTTP ++ r.major)) := by
    simp only [List.mem_append, List.mem_cons, not_or]
    exact ⟨fun h => (isAlpha_ne (hr.method_cls _ h)).1 rfl, by decide, by decide,
      fun h => (isUri_ne (hr.uri_cls _ h)).1 rfl, by decide,
      fun h => (isDigit_ne (hr.major_cls _ h)).1 rfl⟩
  rw [e] at h
  rcases Nat.lt_trichotomy p r.dotIndex with hlt | heq | hgt
  · rw [List.getElem?_append_left (by omega)] at h
    exact hno (List.mem_of_getElem? h)
  · exact hne heq
  · rw [List.getElem?_append_right (by omega), hl] at h
    obtain ⟨q, hq⟩ : ∃ q, p - r.dotIndex = q + 1 := ⟨p - r.dotIndex - 1, by omega⟩
    have hmin : q < r.minor.length + 1 := by
      rw [e, List.length_append, hl] at hp
      simp only [List.length_cons, List.length_append, List.length_nil] at hp
      omega
    rw [hq, List.getElem?_cons_succ] at h
    rcases Nat.lt_or_ge q r.minor.length with h1 | h1
    · rw [List.getElem?_append_left h1] at h
      exact (isDigit_ne (hr.minor_cls _ (List.mem_of_getElem? h))).1 rfl
    · rw [List.getElem?_append_right h1, show q - r.minor.length = 0 by omega] at h
      simp at h

theorem ReqLine.getElem_dot (r : ReqLine) {p : Nat} (hp : p = r.dotIndex + 1) (hr : r.Ok) :
    ∃ x, r.text[p]? = some x ∧ isDigit x = true := by
  have e : r.text = (r.method ++ 32 :: 47 :: (r.uri ++ (HTTP ++ r.major))) ++
      r.dot :: (r.minor ++ [13, 10]) := by simp [ReqLine.text]
  have hl : (r.method ++ 32 :: 47 :: (r.uri ++ (HTTP ++ r.major))).length = r.dotIndex := by
    simp [HTTP, ReqLine.dotIndex]; omega
  have := hr.minor_pos
  cases hm : r.minor with
  | nil => rw [hm] at this; simp at this
  | cons x xs =>
    refine ⟨x, ?_, hr.minor_cls x (by simp [hm])⟩
    rw [e, hp, List.getElem?_append_right (by omega), hl, Nat.add_sub_cancel_left, hm]
    rfl

/-- **The request line ends before the blank line's own CR LF.** -/
theorem Block.line_le {H B : Bytes} {r : ReqLine} (h : Block H) (hr : r.Ok)
    (hp : r.text <+: H ++ B) : r.text.length + 2 ≤ H.length := by
  have h4 := h.length
  obtain ⟨g1, g2, g3, g4⟩ := h.getElem
  have hget : ∀ i, i < r.text.length → i < H.length → r.text[i]? = H[i]? := by
    intro i hi hi'
    obtain ⟨t, ht⟩ := hp
    have e : (H ++ B)[i]? = H[i]? := List.getElem?_append_left hi'
    rw [← e, ← ht, List.getElem?_append_left hi]
  by_contra hlt
  -- the LF before the blank line is inside the request line: it is the separator
  have hpos : r.text.length + 2 > H.length := by omega
  rcases Nat.lt_or_ge (H.length - 2) r.text.length with hin | hout
  · have e3 : r.text[H.length - 3]? = some 10 := by rw [hget _ (by omega) (by omega), g3]
    have hd := ReqLine.lf_index hr e3 (by omega)
    obtain ⟨x, hx, hdig⟩ := r.getElem_dot (p := H.length - 2) (by omega) hr
    rw [hget _ hin (by omega), g2] at hx
    cases hx
    revert hdig; decide
  · omega

theorem fitsAt_line_block {H b : Bytes} (h : Block H) (ps : List Bytes) :
    FitsAt REQUEST_LINE.items (cstr (H ++ b)) ps ↔ FitsAt REQUEST_LINE.items (cstr H) ps := by
  by_cases h0 : (0 : UInt8) ∈ H
  · rw [cstr_append_of_mem b h0]
  · rw [cstr_append_of_not_mem b h0, cstr_eq_self h0, fitsAt_line, fitsAt_line]
    constructor
    · intro hh
      obtain ⟨r, hr, ht, rfl⟩ := hh
      refine ⟨r, hr, ?_, rfl⟩
      have := h.line_le hr ht
      exact List.prefix_of_prefix_length_le ht (List.prefix_append _ _) (by omega)
    · intro hh
      obtain ⟨r, hr, ht, rfl⟩ := hh
      exact ⟨r, hr, ht.trans (List.prefix_append _ _), rfl⟩

/-- Texts that start with the same request lines have the same one. -/
theorem lineOf_congr {s t : Bytes} (h : ∀ q : ReqLine, q.Ok → (q.text <+: s ↔ q.text <+: t))
    {r : ReqLine} : LineOf s r ↔ LineOf t r := by
  have hh : here REQUEST_LINE.items s = here REQUEST_LINE.items t := here_congr fun ps => by
    rw [fitsAt_line, fitsAt_line]
    exact exists_congr fun q => and_congr_right fun hq => by rw [h q hq]
  unfold LineOf
  rw [hh]
  exact and_congr_right fun hr => by rw [h r hr]

/-- The request line does not depend on what follows the block. -/
theorem lineOf_block {H b : Bytes} (h : Block H) {r : ReqLine} :
    LineOf (cstr (H ++ b)) r ↔ LineOf (cstr H) r := by
  have hh := here_congr (fitsAt_line_block (b := b) h)
  have hf := fitsAt_line_block (b := b) h r.pieces
  unfold LineOf
  rw [hh]
  constructor
  · intro hx
    obtain ⟨h1, -, h3⟩ := hx
    obtain ⟨q, hq, ht, he⟩ := fitsAt_line.mp (here_fits h3)
    obtain rfl : q = r := by cases q; cases r; simp_all [ReqLine.pieces]
    exact ⟨h1, ht, h3⟩
  · intro hx
    obtain ⟨h1, h2, h3⟩ := hx
    refine ⟨h1, ?_, h3⟩
    obtain ⟨q, hq, ht, he⟩ := fitsAt_line.mp (hf.mpr (fitsAt_line.mpr ⟨r, h1, h2, rfl⟩))
    obtain rfl : q = r := by cases q; cases r; simp_all [ReqLine.pieces]
    exact ht

/-- A request line lies in any buffer's worth of its text. -/
theorem lineOf_buffer {a t : Bytes} (h : BUFFER_SIZE ≤ a.length) {r : ReqLine} :
    LineOf (cstr a) r ↔ LineOf (cstr (a ++ t)) r := by
  by_cases h0 : (0 : UInt8) ∈ a
  · rw [cstr_append_of_mem t h0]
  · rw [cstr_append_of_not_mem t h0, cstr_eq_self h0]
    refine lineOf_congr fun q hq => ⟨fun hp => hp.trans (List.prefix_append _ _), fun hp => ?_⟩
    have := hq.length_le
    have : 86 ≤ BUFFER_SIZE := by decide
    exact List.prefix_of_prefix_length_le hp (List.prefix_append _ _) (by omega)

/-- **Reading a request line.** Whatever the size of its block, `read_until`
returns enough of it for the request line. -/
theorem readUntil_line [Octet α] {H B : Bytes} {s : Src α} {r : ReqLine} (hH : Block H)
    (hl : LineOf (cstr H) r) (hp : octets s.pending = H ++ B) (hc : Cut s.script) :
    ∃ buf s', readUntil s BUFFER_SIZE BLANK_LINE = (.ok buf, s') ∧ LineOf (cstr (octets buf)) r := by
  obtain ⟨buf, s', h1, h2, -, -, hstop⟩ := readUntil_cut BUFFER_SIZE BLANK_LINE hc
  refine ⟨buf, s', h1, ?_⟩
  have hpre : octets buf <+: H ++ B := by
    rw [← hp, h2, octets_append]; exact List.prefix_append _ _
  rcases Nat.lt_or_ge (octets buf).length H.length with hlt | hge
  · -- the buffer is full before the block ends
    have hfull : BUFFER_SIZE ≤ (octets buf).length := by
      rcases hstop with h | h | h
      · exact absurd (hH.length_le hpre h) (by omega)
      · rw [octets_length, h]
      · rw [h, List.append_nil] at h2
        rw [← h2, hp, List.length_append] at hlt; omega
    obtain ⟨t, ht⟩ := List.prefix_of_prefix_length_le hpre (List.prefix_append H B) (by omega)
    rw [lineOf_buffer hfull (t := t), ht]
    exact hl
  · obtain ⟨b, hb⟩ := List.prefix_of_prefix_length_le (List.prefix_append H B) hpre hge
    rw [← hb, lineOf_block hH]
    exact hl

theorem noLine_block {H b : Bytes} (h : Block H) : NoLine (cstr (H ++ b)) ↔ NoLine (cstr H) := by
  constructor
  · intro hn r hr ht
    obtain ⟨q, hq, ht', -⟩ := fitsAt_line.mp
      ((fitsAt_line_block (b := b) h _).mpr (fitsAt_line.mpr ⟨r, hr, ht, rfl⟩))
    exact hn q hq ht'
  · intro hn r hr ht
    obtain ⟨q, hq, ht', -⟩ := fitsAt_line.mp
      ((fitsAt_line_block (b := b) h _).mp (fitsAt_line.mpr ⟨r, hr, ht, rfl⟩))
    exact hn q hq ht'

/-- A block that starts with a request line is that line, whole header lines
and the blank line. -/
theorem Block.split {H : Bytes} {r : ReqLine} (h : Block H) (hl : LineOf (cstr H) r) :
    ∃ L, H = r.text ++ (L ++ [13, 10]) ∧ Lines L := by
  have hp : r.text <+: H := hl.2.1.trans (cstr_initial H)
  have hle := h.line_le (B := []) hl.1 (by simpa using hp)
  obtain ⟨t, rfl⟩ := hp
  obtain ⟨A, hA⟩ := h.1
  rw [blankLine_eq] at hA
  have ht : [13, 10] <:+ t := by
    have h1 : [13, 10] <:+ r.text ++ t := ⟨A ++ [13, 10], by rw [← hA]; simp⟩
    apply List.suffix_of_suffix_length_le h1 (List.suffix_append _ _)
    rw [List.length_append] at hle; simp; omega
  obtain ⟨L, rfl⟩ := ht
  refine ⟨L, rfl, ?_⟩
  have e : A ++ [13, 10] = r.text ++ L := by
    have : (A ++ [13, 10]) ++ [13, 10] = (r.text ++ L) ++ [13, 10] := by
      simpa [List.append_assoc] using hA
    exact List.append_cancel_right this
  have hs : [13, 10] <:+ r.text ++ L := ⟨A, e⟩
  match L with
  | [] => exact .inl rfl
  | [x] =>
    -- the last two bytes would be the LF of the request line and `x`
    have hsuf : [10, x] <:+ r.text ++ [x] :=
      ⟨r.method ++ 32 :: 47 :: (r.uri ++ (HTTP ++ (r.major ++ r.dot :: (r.minor ++ [13])))),
        by simp [ReqLine.text]⟩
    have := (List.suffix_of_suffix_length_le hs hsuf (Nat.le_refl _)).eq_of_length rfl
    simp at this
  | x :: y :: L =>
    exact .inr (List.suffix_of_suffix_length_le hs (List.suffix_append _ _) (by simp))

/-! ## The headers of a block -/

theorem noField_short {T : Bytes} (h : T.length < 6) : NoField T := by
  intro j g hg ht
  have := ht.length_le
  have h1 := hg.key_pos; have h2 := hg.value_pos
  rw [List.length_drop] at this
  simp only [Field.text_length] at this
  omega

/-- The scan of a block's header lines, its blank line and the text behind. -/
theorem scan_block {r : ReqLine} {L b : Bytes} {hs gs : List Field} {n m : Nat}
    (hL : Lines L) (h0 : (0 : UInt8) ∉ r.text ++ (L ++ [13, 10])) (h : Scan L hs n)
    (h' : Scan (cstr b) gs m) :
    Scan (cstr ((r.text ++ (L ++ [13, 10]) ++ b).drop r.text.length)) (hs ++ gs)
      (if gs = [] then n else L.length + 2 + m) := by
  have h0' : (0 : UInt8) ∉ L ++ [13, 10] := fun h => h0 (List.mem_append_right _ h)
  rw [List.append_assoc, List.drop_left, cstr_append_of_not_mem b h0']
  have hc : Lines (L ++ [13, 10]) := hL.append (.inr (List.suffix_refl _))
  have h1 := h.append hL (.done (noField_short (T := [13, 10]) (by decide)))
  rw [if_pos rfl, List.append_nil] at h1
  simpa using h1.append hc h'

/-- A NUL in the block hides everything behind it. -/
theorem cstr_block_nul {r : ReqLine} {t b : Bytes} (hl : LineOf (cstr (r.text ++ t)) r)
    (h0 : (0 : UInt8) ∈ r.text ++ t) :
    cstr ((r.text ++ t ++ b).drop r.text.length) = cstr ((r.text ++ t).drop r.text.length) := by
  have hr : (0 : UInt8) ∉ r.text := fun h => not_mem_cstr _ (hl.2.1.subset h)
  rw [List.append_assoc, List.drop_left, List.drop_left]
  exact cstr_append_of_mem b ((List.mem_append.mp h0).resolve_left hr)

/-! ## Blocks made of fields -/

/-- CR LF cannot stand across one byte between text without CR and text
without LF. -/
theorem no_crlf {a b : Bytes} (x : UInt8) (ha : (13 : UInt8) ∉ a) (hb : (10 : UInt8) ∉ b) :
    ¬ [13, 10] <:+: a ++ x :: b := by
  induction a with
  | nil =>
    intro hi
    rcases List.infix_cons_iff.mp hi with hp | hi
    · exact hb ((List.cons_prefix_cons.mp hp).2.subset List.mem_cons_self)
    · exact hb (hi.subset (by simp))
  | cons y a ih =>
    intro hi
    rcases List.infix_cons_iff.mp hi with hp | hi
    · exact ha ((List.cons_prefix_cons.mp hp).1 ▸ List.mem_cons_self)
    · exact ih (fun h => ha (List.mem_cons_of_mem _ h)) hi

/-- Text whose only CR LF is its end, and that does not start with CR. -/
def Row (l : Bytes) : Prop :=
  ∃ w, l = w ++ [13, 10] ∧ w ≠ [] ∧ w.head? ≠ some 13 ∧ ¬ [13, 10] <:+: w ++ [13]

theorem ReqLine.Ok.row {r : ReqLine} (h : r.Ok) : Row r.text := by
  have e : r.text = (r.method ++ 32 :: 47 :: (r.uri ++ (HTTP ++ r.major)) ++ r.dot :: r.minor) ++
      [13, 10] := by simp [ReqLine.text]
  have hno : (13 : UInt8) ∉ r.method ++ 32 :: 47 :: (r.uri ++ (HTTP ++ r.major)) := by
    simp only [List.mem_append, List.mem_cons, not_or]
    exact ⟨fun h' => (isAlpha_ne (h.method_cls _ h')).2.1 rfl, by decide, by decide,
      fun h' => (isUri_ne (h.uri_cls _ h')).2.1 rfl, by decide,
      fun h' => (isDigit_ne (h.major_cls _ h')).2.1 rfl⟩
  refine ⟨_, e, by simp, ?_, ?_⟩
  · intro hh
    have := h.method_pos
    cases hm : r.method with
    | nil => rw [hm] at this; simp at this
    | cons x xs =>
      rw [hm] at hh hno
      rw [show (13 : UInt8) = x by simpa using hh.symm] at hno
      simp at hno
  · rw [List.append_assoc]
    refine no_crlf (b := r.minor ++ [13]) r.dot hno ?_
    rw [List.mem_append, not_or]
    exact ⟨fun h' => (isDigit_ne (h.minor_cls _ h')).1 rfl, by decide⟩

theorem Field.row {f : Field} (hpos : 1 ≤ f.key.length) (hkey : ∀ x ∈ f.key, isKey x = true)
    (hval : ∀ x ∈ f.value, isValue x = true) : Row f.text := by
  have hno : (13 : UInt8) ∉ f.key ++ [58] := by
    rw [List.mem_append, not_or]
    exact ⟨fun h' => (isKey_ne (hkey _ h')).2.1 rfl, by decide⟩
  refine ⟨f.key ++ [58] ++ f.sp :: f.value, by simp [Field.text], by simp, ?_, ?_⟩
  · intro hh
    cases hk : f.key with
    | nil => rw [hk] at hpos; simp at hpos
    | cons x xs =>
      rw [hk] at hh hno
      rw [show (13 : UInt8) = x by simpa using hh.symm] at hno
      simp at hno
  · rw [List.append_assoc]
    refine no_crlf (b := f.value ++ [13]) f.sp hno ?_
    rw [List.mem_append, not_or]
    exact ⟨fun h' => (isValue_ne (hval _ h')).2.1 rfl, by decide⟩

theorem Field.Ok.row {f : Field} (h : f.Ok) : Row f.text :=
  Field.row h.key_pos h.key_cls h.value_cls

theorem no_blank_rows {ls : List Bytes} (h : ∀ l ∈ ls, Row l) :
    ¬ BLANK_LINE <:+: ls.flatten ++ [13] := by
  rw [blankLine_eq]
  induction ls with
  | nil => decide
  | cons l ls ih =>
    obtain ⟨hl, hls⟩ := List.forall_mem_cons.mp h
    obtain ⟨w, rfl, -, -, hno⟩ := hl
    -- what follows the row does not start with CR LF
    have hnext : ¬ [13, 10] <+: ls.flatten ++ [13] := by
      cases ls with
      | nil => decide
      | cons m ms =>
        obtain ⟨v, rfl, hv, hv13, -⟩ := hls m List.mem_cons_self
        cases v with
        | nil => exact absurd rfl hv
        | cons x v =>
          intro hp
          obtain ⟨rfl, -⟩ := List.cons_prefix_cons.mp hp
          exact hv13 rfl
    have hrest : ¬ [13, 10, 13, 10] <:+: w ++ 13 :: 10 :: (ls.flatten ++ [13]) := by
      clear h
      induction w with
      | nil =>
        intro hi
        rcases List.infix_cons_iff.mp hi with hp | hi
        · exact hnext (List.cons_prefix_cons.mp (List.cons_prefix_cons.mp hp).2).2
        · rcases List.infix_cons_iff.mp hi with hp | hi
          · have := (List.cons_prefix_cons.mp hp).1; revert this; decide
          · exact ih hls hi
      | cons x w ihw =>
        intro hi
        rcases List.infix_cons_iff.mp hi with hp | hi
        · -- the first two bytes of a blank line at the front are a CR LF of the row
          refine hno (List.IsPrefix.isInfix ?_)
          have hp' : [13, 10] <+: x :: (w ++ 13 :: 10 :: (ls.flatten ++ [13])) :=
            List.IsPrefix.trans ⟨[13, 10], rfl⟩ hp
          refine List.prefix_of_prefix_length_le hp' ?_ (by simp)
          exact ⟨10 :: (ls.flatten ++ [13]), by simp⟩
        · exact ihw (fun h' => hno (List.infix_cons_iff.mpr (.inr h'))) hi
    simpa using hrest

/-- **Rows and a blank line make a block.** -/
theorem block_rows (ls : List Bytes) (h : ∀ l ∈ ls, Row l) (hne : ls ≠ []) :
    Block (ls.flatten ++ [13, 10]) := by
  refine ⟨?_, ?_⟩
  · obtain ⟨init, l, rfl⟩ := List.eq_nil_or_concat ls |>.resolve_left hne
    obtain ⟨w, rfl, -⟩ := h l (by simp)
    exact ⟨init.flatten ++ w, by simp [blankLine_eq]⟩
  · have e : (ls.flatten ++ [13, 10]).dropLast = ls.flatten ++ [13] := by
      rw [List.dropLast_append_of_ne_nil (by simp)]; rfl
    rw [e]; exact no_blank_rows h

/-- A request line, header lines and a blank line. -/
theorem block_texts {r : ReqLine} {fs : List Field} (hr : r.Ok) (h : ∀ f ∈ fs, f.Ok) :
    Block (r.text ++ ((fs.map Field.text).flatten ++ [13, 10])) := by
  have := block_rows (r.text :: fs.map Field.text) (by
    intro l hl
    rcases List.mem_cons.mp hl with rfl | hl
    · exact hr.row
    · obtain ⟨f, hf, rfl⟩ := List.mem_map.mp hl
      exact (h f hf).row) (by simp)
  simpa using this

theorem lines_texts (fs : List Field) : Lines (fs.map Field.text).flatten := by
  induction fs with
  | nil => exact .inl rfl
  | cons f fs ih => simpa using f.lines.append ih

/-- The scan finds the written fields, one after the other. -/
theorem scan_texts {fs : List Field} (h : ∀ f ∈ fs, f.Ok) :
    Scan (fs.map Field.text).flatten fs (fs.map Field.text).flatten.length := by
  induction fs with
  | nil => exact .done (noField_short (by decide))
  | cons f fs ih =>
    obtain ⟨hf, hfs⟩ := List.forall_mem_cons.mp h
    have hfirst : FirstAt (f.text ++ (fs.map Field.text).flatten) 0 f :=
      ⟨hf, List.prefix_append _ _, fun j hj => absurd hj (Nat.not_lt_zero j)⟩
    have := Scan.next hfirst (by
      rw [Nat.zero_add, List.drop_left]; exact ih hfs)
    simpa using this

end HttpC.L2
