import HttpC.L2Parse.Block

/-!
# Body bytes are read as headers

`parse_headers` searches the whole buffer for `HEADER_FIELD`
(src/connection.c:131), and the buffer holds whatever of the body arrived with
the blank line (src/util.c:77-103 stops at the end of a `read()`, not at the
blank line). A body that looks like `Content-Length: 5` or `Request-Id: 7` is
therefore obeyed, if and only if it arrives early: src/connection.c:279-281
says those bytes belong to the body, not the headers.

`bodyBlind_iff`: what follows a block cannot be told from the parse, for any
bodies `B₁`, `B₂` and any cuts, exactly when no `Content-Length` or
`Request-Id` field found in the buffered part of either body changes the value
the block itself gives (nothing is found there when the block is refused at
its request line or holds a NUL).

Fix: search only up to the blank line.
-/
namespace HttpC.Bugs.BodyAsHeader
open HttpC.L1.Util HttpC.L2

/-- What `conn_parse` tells its caller: the verdict and the parsed fields. -/
def seen (p : Option Response × Conn UInt8 × Src UInt8) :
    Option Response × Request × Bytes × Int × Bytes :=
  (p.1, p.2.1.request, p.2.1.uri, p.2.1.contentLength, p.2.1.requestId)

/-- The parse does not depend on the body or on how the stream is cut. -/
def BodyBlind (H B₁ B₂ : Bytes) : Prop :=
  ∀ es₁ es₂, Cut es₁ → Cut es₂ →
    seen (connParse .ok ⟨H ++ B₁, es₁⟩) = seen (connParse .ok ⟨H ++ B₂, es₂⟩)

/-- The field repeats what the header lines `hs` say. -/
def Repeats (hs : List Field) (g : Field) : Prop :=
  (g.key = CONTENT_LENGTH_KEY → ssize (strtoull g.value) = lastLength hs 0) ∧
    (g.key = REQUEST_ID_KEY → g.value = lastId hs (ascii "0"))

/-- Where the header lines `L` of the block are scanned at all, every field
in the part of `B` that fits the buffer repeats what `L` says. -/
def Harmless (H B : Bytes) : Prop :=
  ∀ r L hs n gs m, LineOf (cstr H) r → r.minor = ascii "1" → (0 : UInt8) ∉ H →
    H = r.text ++ (L ++ [13, 10]) → Scan L hs n →
    Scan (cstr (B.take (BUFFER_SIZE - H.length))) gs m → ∀ g ∈ gs, Repeats hs g

/-! ## Fields that repeat change nothing -/

theorem lastLength_append (fs gs : List Field) (a : Int) :
    lastLength (fs ++ gs) a = lastLength gs (lastLength fs a) := by
  simp [lastLength]

theorem lastId_append (fs gs : List Field) (v : Bytes) :
    lastId (fs ++ gs) v = lastId gs (lastId fs v) := by
  simp [lastId]

theorem last_of_repeats {hs : List Field} :
    ∀ {gs : List Field}, (∀ g ∈ gs, Repeats hs g) →
      lastLength gs (lastLength hs 0) = lastLength hs 0 ∧
        lastId gs (lastId hs (ascii "0")) = lastId hs (ascii "0")
  | [], _ => ⟨rfl, rfl⟩
  | g :: gs, h => by
    obtain ⟨hg, hgs⟩ := List.forall_mem_cons.mp h
    obtain ⟨h1, h2⟩ := last_of_repeats hgs
    have e1 : lastLength (g :: gs) (lastLength hs 0) = lastLength gs (lastLength hs 0) := by
      simp only [lastLength, List.foldl_cons] at hg ⊢
      split
      · rename_i hk; rw [hg.1 hk]; rfl
      · rfl
    have e2 : lastId (g :: gs) (lastId hs (ascii "0")) = lastId gs (lastId hs (ascii "0")) := by
      simp only [lastId, List.foldl_cons] at hg ⊢
      split
      · rename_i hk; rw [hg.2 hk]; rfl
      · rfl
    exact ⟨e1.trans h1, e2.trans h2⟩

/-- If no initial part of `gs` changes the values, every field repeats them. -/
theorem repeats_of_last {hs gs : List Field}
    (h : ∀ gs', gs' <+: gs → lastLength gs' (lastLength hs 0) = lastLength hs 0 ∧
      lastId gs' (lastId hs (ascii "0")) = lastId hs (ascii "0")) : ∀ g ∈ gs, Repeats hs g := by
  intro g hg
  obtain ⟨pre, post, rfl⟩ := List.append_of_mem hg
  obtain ⟨h1, h2⟩ := h (pre ++ [g]) ⟨post, by simp⟩
  rw [lastLength_append, (h pre ⟨g :: post, rfl⟩).1] at h1
  rw [lastId_append, (h pre ⟨g :: post, rfl⟩).2] at h2
  refine ⟨fun hk => ?_, fun hk => ?_⟩
  · simpa [lastLength, hk] using h1
  · simpa [lastId, hk] using h2

/-! ## The parse of a block and what is buffered behind it -/

section
variable {H B b : Bytes} {s s' : Src UInt8}

theorem seen_accept {r : ReqLine} {L : Bytes} {hs gs : List Field} {n m : Nat}
    (hH : Block (r.text ++ (L ++ [13, 10]))) (hL : Lines L)
    (hr : readUntil s BUFFER_SIZE BLANK_LINE = (.ok (r.text ++ (L ++ [13, 10]) ++ b), s'))
    (hl : LineOf (cstr (r.text ++ (L ++ [13, 10]))) r) (hm : r.minor = ascii "1")
    (h0 : (0 : UInt8) ∉ r.text ++ (L ++ [13, 10])) (hs' : Scan L hs n)
    (hg : Scan (cstr b) gs m) :
    seen (connParse .ok s) =
      (none, r.request, r.uri, lastLength (hs ++ gs) 0, lastId (hs ++ gs) (ascii "0")) := by
  rw [connParse_accept hr (by rw [octets_self]; exact (lineOf_block hH).mpr hl) hm
    (by rw [octets_self]; exact scan_block hL h0 hs' hg)]
  rfl

/-- On every cut the block's request line decides which of the three
outcomes it is. -/
theorem seen_block (hH : Block H) (hle : H.length ≤ BUFFER_SIZE) {es : List ReadEv}
    (hc : Cut es) :
    ∃ b s', readUntil ⟨H ++ B, es⟩ BUFFER_SIZE BLANK_LINE = (.ok (H ++ b), s') ∧
      b <+: B.take (BUFFER_SIZE - H.length) := by
  obtain ⟨buf, s', b, h1, -, h3, h4, h5, -⟩ :=
    readUntil_block (s := ⟨H ++ B, es⟩) hH hle (octets_self _) hc
  rw [octets_self] at h3; subst h3
  refine ⟨b, s', h1, ?_⟩
  rw [List.length_append] at h5
  exact List.prefix_take_iff.mpr ⟨h4, by omega⟩

theorem harmless_blind {B₁ B₂ : Bytes} (hH : Block H) (hle : H.length ≤ BUFFER_SIZE)
    (h₁ : Harmless H B₁) (h₂ : Harmless H B₂) : BodyBlind H B₁ B₂ := by
  -- a normal form for the outcome, reached from either side
  have key : ∃ o, ∀ B, Harmless H B → ∀ es, Cut es →
      seen (connParse .ok ⟨H ++ B, es⟩) = o := by
    rcases lineOf_or_noLine (cstr H) with ⟨r, hl⟩ | hn
    · obtain ⟨L, rfl, hL⟩ := hH.split hl
      by_cases hm : r.minor = ascii "1"
      · by_cases h0 : (0 : UInt8) ∈ r.text ++ (L ++ [13, 10])
        · obtain ⟨fs, n, hs⟩ := scan_total (cstr ((r.text ++ (L ++ [13, 10])).drop r.text.length))
          refine ⟨(none, r.request, r.uri, lastLength fs 0, lastId fs (ascii "0")), ?_⟩
          intro B _ es hc
          obtain ⟨b, s', hr, -⟩ := seen_block (B := B) hH hle hc
          rw [connParse_accept hr (by rw [octets_self]; exact (lineOf_block hH).mpr hl) hm
            (by rw [octets_self, cstr_block_nul hl h0]; exact hs)]
          rfl
        · obtain ⟨hs, n, hscan⟩ := scan_total L
          refine ⟨(none, r.request, r.uri, lastLength hs 0, lastId hs (ascii "0")), ?_⟩
          intro B hB es hc
          obtain ⟨b, s', hr, hb⟩ := seen_block (B := B) hH hle hc
          obtain ⟨gs, m, hg⟩ := scan_total (cstr (B.take (BUFFER_SIZE -
            (r.text ++ (L ++ [13, 10])).length)))
          obtain ⟨gs', m', hg'⟩ := scan_total (cstr b)
          -- the fields behind the block are an initial part of those in reach
          have hcb : cstr b <+: cstr (B.take (BUFFER_SIZE -
              (r.text ++ (L ++ [13, 10])).length)) := by
            obtain ⟨t, ht⟩ := hb
            rw [← ht]
            by_cases hz : (0 : UInt8) ∈ b
            · rw [cstr_append_of_mem _ hz]
            · rw [cstr_append_of_not_mem _ hz, cstr_eq_self hz]
              exact List.prefix_append _ _
          have hpre : gs' <+: gs := by
            have := List.prefix_iff_eq_take.mp hcb
            rw [this] at hg'
            exact hg'.prefix_of_take hg
          have hrep := hB r L hs n gs m hl hm h0 rfl hscan hg
          obtain ⟨e1, e2⟩ := last_of_repeats fun g hg => hrep g (hpre.subset hg)
          rw [seen_accept hH hL hr hl hm h0 hscan hg', lastLength_append, lastId_append, e1, e2]
      · refine ⟨(some r.versionError, r.request, r.uri, 0, ascii "0"), ?_⟩
        intro B _ es hc
        obtain ⟨b, s', hr, -⟩ := seen_block (B := B) hH hle hc
        rw [connParse_version hr (by rw [octets_self]; exact (lineOf_block hH).mpr hl) hm]
        rfl
    · refine ⟨(some .BAD_REQUEST, .UNSUPPORTED, [], 0, ascii "0"), ?_⟩
      intro B _ es hc
      obtain ⟨b, s', hr, -⟩ := seen_block (B := B) hH hle hc
      rw [connParse_noLine hr (by rw [octets_self]; exact (noLine_block hH).mpr hn)]
      rfl
  obtain ⟨o, ho⟩ := key
  intro es₁ es₂ hc₁ hc₂
  rw [ho B₁ h₁ es₁ hc₁, ho B₂ h₂ es₂ hc₂]

/-- A cut right behind the block shows the block's own values. -/
theorem blind_harmless {B' : Bytes} (hH : Block H) (hle : H.length ≤ BUFFER_SIZE)
    (h : ∀ es es', Cut es → Cut es' →
      seen (connParse .ok ⟨H ++ B, es⟩) = seen (connParse .ok ⟨H ++ B', es'⟩)) :
    Harmless H B := by
  intro r L hs n gs m hl hm h0 hsplit hscan hg
  have hL : Lines L := by
    obtain ⟨L', hL', hlines⟩ := hH.split hl
    rw [hsplit] at hL'
    have := List.append_cancel_right (List.append_cancel_left hL')
    rwa [this]
  apply repeats_of_last
  intro gs' hpre
  obtain ⟨k, m', hk, hg'⟩ := hg.exists_take hpre
  have hkB : k ≤ (B.take (BUFFER_SIZE - H.length)).length :=
    hk.trans (cstr_initial _).length_le
  rw [List.length_take] at hkB
  have hb : (cstr (B.take (BUFFER_SIZE - H.length))).take k = B.take k := by
    obtain ⟨t, ht⟩ := cstr_initial (B.take (BUFFER_SIZE - H.length))
    have : (B.take (BUFFER_SIZE - H.length)).take k = B.take k := by
      rw [List.take_take, Nat.min_eq_left (by omega)]
    rw [← this]
    nth_rewrite 2 [← ht]
    rw [List.take_append_of_le_length hk]
  have h0b : (0 : UInt8) ∉ B.take k := by
    rw [← hb]; exact fun hz => not_mem_cstr _ (List.mem_of_mem_take hz)
  have hr := readUntil_block_exact (H ++ B) hH (k := k) (by omega)
    (by omega) (octets_self _)
  have hr' := readUntil_block_exact (H ++ B') hH (k := 0) (Nat.zero_le _) hle
    (octets_self _)
  rw [List.take_append, List.take_of_length_le (by omega), Nat.add_sub_cancel_left] at hr
  rw [Nat.add_zero, List.take_left, List.drop_left] at hr'
  have heq := h [.got (H.length + k - 1)] [.got (H.length - 1)]
    (fun e he => by simp only [List.mem_singleton] at he; subst he; rfl)
    (fun e he => by simp only [List.mem_singleton] at he; subst he; rfl)
  subst hsplit
  rw [seen_accept hH hL hr hl hm h0 hscan (by rw [cstr_eq_self h0b, ← hb]; exact hg'),
    seen_accept (b := []) hH hL (by rw [List.append_nil]; exact hr') hl hm h0 hscan
      (.done (noField_short (by decide)))] at heq
  simp only [Prod.mk.injEq, true_and, List.append_nil, lastLength_append, lastId_append] at heq
  exact heq

end

/-- **Exactly when the body stays out of the headers.** -/
theorem bodyBlind_iff (H B₁ B₂ : Bytes) (hH : Block H) (hle : H.length ≤ BUFFER_SIZE) :
    BodyBlind H B₁ B₂ ↔ Harmless H B₁ ∧ Harmless H B₂ := by
  constructor
  · intro h
    exact ⟨blind_harmless hH hle h,
      blind_harmless hH hle fun es es' hc hc' => (h es' es hc' hc).symm⟩
  · intro hh
    obtain ⟨h₁, h₂⟩ := hh
    exact harmless_blind hH hle h₁ h₂

/-- `PUT /a` without headers, as the block of the witnesses. -/
def putA : Bytes := ascii "PUT /a HTTP/1.1\r\n\r\n"

theorem bodyBlind_putA : Block putA ∧ putA.length ≤ BUFFER_SIZE ∧
    (BodyBlind putA [] (ascii "hello") ↔
      Harmless putA [] ∧ Harmless putA (ascii "hello")) :=
  ⟨by decide, by decide, bodyBlind_iff putA [] (ascii "hello") (by decide) (by decide)⟩

/-- **Counterexample**: the same block with an empty body and with the body
`Content-Length: 5` leaves content lengths 0 and 5. -/
theorem body_sets_content_length :
    ¬ ∀ H B₁ B₂ : Bytes, Block H → H.length ≤ BUFFER_SIZE → BodyBlind H B₁ B₂ := by
  intro h
  have := h putA [] (ascii "Content-Length: 5\r\n") (by decide) (by decide) [] []
    (by decide) (by decide)
  revert this; decide

end HttpC.Bugs.BodyAsHeader
