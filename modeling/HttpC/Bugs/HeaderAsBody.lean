import HttpC.L2Parse.Body

/-!
# Header bytes are stored as body

`parse_headers` sets `message_start` two bytes behind the last `HEADER_FIELD`
match (src/connection.c:157), "skip the blank line", wherever the blank line
is: a last header line the pattern does not match (`Foo:bar`) is stored as the
beginning of the file. And `read_until` also stops at the end of the stream
and at 4096 bytes, which `conn_parse` does not tell from a blank line
(src/connection.c:260-285): a request cut off before its blank line is
accepted.

`headerSafe_iff` is the exact condition on the client's stream. The stream is
labelled with positions, so that "comes from behind the blank line" is a
statement about the labels of what was written.

Fix: let `read_until` report where the blank line is, refuse a request
without one, and start the body there.
-/
namespace HttpC.Bugs.HeaderAsBody
open HttpC.L1.Util HttpC.L2

/-- The first blank line of `S` ends at `e`. -/
def BlankEnd (S : Bytes) (e : Nat) : Prop := e ≤ S.length ∧ Block (S.take e)

/-- Whatever way `S` is cut and whatever the writes to the file do, an
accepted request has a blank line and stores only what comes behind it. -/
def HeaderSafe (S : Bytes) : Prop :=
  ∀ es ws, Cut es → (connParse .ok ⟨S.zipIdx, es⟩).1 = none →
    ∃ e, BlankEnd S e ∧
      ∀ x ∈ (connRecvFile (connParse .ok ⟨S.zipIdx, es⟩).2.1
        (connParse .ok ⟨S.zipIdx, es⟩).2.2 ⟨[], ws⟩).2.2.written, e ≤ x.2

/-- The text ends with a header line the pattern matches. -/
def EndsInField (L : Bytes) : Prop := ∃ A, ∃ f : Field, f.Ok ∧ L = A ++ f.text

/-- The header lines `L` end where `message_start` expects it. -/
def WellEnded (L : Bytes) : Prop := L = [] ∨ ((0 : UInt8) ∉ L ∧ EndsInField L)

/-- The block crosses the buffer limit right behind a matched header line, and
no body is declared. -/
def Crosses (r : ReqLine) (S : Bytes) : Prop :=
  ∃ L t, S.take BUFFER_SIZE = r.text ++ (L ++ t) ∧ t.length ≤ 2 ∧ (0 : UInt8) ∉ L ∧
    EndsInField L ∧ ∀ fs n, Scan L fs n → lastLength fs 0 ≤ 0

/-- Either the request line is refused, or the stream has a blank line, and
the last header line in front of it is one the pattern matches. -/
def Separated (S : Bytes) : Prop :=
  ∀ r, LineOf (cstr (S.take BUFFER_SIZE)) r → r.minor = ascii "1" →
    ∃ e, BlankEnd S e ∧
      ((e ≤ BUFFER_SIZE ∧ ∃ L, S.take e = r.text ++ (L ++ [13, 10]) ∧ WellEnded L) ∨
        (BUFFER_SIZE < e ∧ Crosses r S))

/-! ## Labels -/

theorem octets_zipIdx (S : Bytes) (i : Nat) : octets (S.zipIdx i) = S := by
  simp only [octets]; exact List.zipIdx_map_fst i S

theorem label_of_mem_drop {S : Bytes} {k : Nat} {x : UInt8 × Nat} (h : x ∈ S.zipIdx.drop k) :
    k ≤ x.2 := by
  obtain ⟨i, hi, rfl⟩ := List.mem_iff_getElem.mp h
  rw [List.getElem_drop, List.getElem_zipIdx]
  simp

theorem label_head_drop {S : Bytes} {k : Nat} (h : k < S.length) :
    ∃ x t, S.zipIdx.drop k = x :: t ∧ x.2 = k := by
  have hk : k < S.zipIdx.length := by rwa [List.length_zipIdx]
  exact ⟨_, _, List.drop_eq_getElem_cons hk, by rw [List.getElem_zipIdx]; simp⟩

section
variable {S : Bytes} {buf : List (UInt8 × Nat)} {s' : Src (UInt8 × Nat)} {r : ReqLine}
  {fs : List Field} {n : Nat}

/-- Nothing stored comes from before `message_start` or the end of the
buffer. -/
theorem label_ge (hS : S.zipIdx = buf ++ s'.pending) (ws : List WriteEv) :
    ∀ x ∈ (connRecvFile (accepted buf r fs n) s' ⟨[], ws⟩).2.2.written,
      min (r.text.length + (n + 2)) buf.length ≤ x.2 := by
  intro x hx
  obtain ⟨q, hq, hpre, -⟩ := connRecvFile_spec (accepted buf r fs n) s' ⟨[], ws⟩
  rw [hq, List.nil_append] at hx
  have hmem := hpre.subset hx
  rw [leftover_accepted] at hmem
  apply label_of_mem_drop (S := S)
  rw [hS]
  rcases Nat.le_total (r.text.length + (n + 2)) buf.length with h | h
  · rwa [Nat.min_eq_left h, List.drop_append_of_le_length h]
  · rw [List.drop_of_length_le h, List.nil_append] at hmem
    rwa [Nat.min_eq_right h, List.drop_left]

/-- The byte at `message_start`, if it is buffered, is stored. -/
theorem stores_messageStart (fs : List Field) (hS : S.zipIdx = buf ++ s'.pending) (hc : Cut s'.script)
    (hlt : r.text.length + (n + 2) < buf.length) :
    ∃ x ∈ (connRecvFile (accepted buf r fs n) s' ⟨[], []⟩).2.2.written,
      x.2 = r.text.length + (n + 2) := by
  obtain ⟨q, hq, -, -, hall⟩ := connRecvFile_spec (accepted buf r fs n) s' ⟨[], []⟩
  have hlen : r.text.length + (n + 2) < S.length := by
    have := congrArg List.length hS
    simp only [List.length_zipIdx, List.length_append] at this
    omega
  obtain ⟨x, t, hx, hlab⟩ := label_head_drop hlen
  refine ⟨x, ?_, hlab⟩
  rw [hq, (hall hc (by intro e he; cases he)).2.1, leftover_accepted, List.nil_append]
  rw [hS, List.drop_append_of_le_length (by omega)] at hx
  apply List.mem_append_left _
  cases hb : buf.drop (r.text.length + (n + 2)) with
  | nil =>
    have := congrArg List.length hb
    rw [List.length_drop, List.length_nil] at this; omega
  | cons y u =>
    rw [hb, List.cons_append, List.cons.injEq] at hx
    rw [hx.1]; exact List.mem_cons_self

/-- The first byte behind the buffer is stored when the request declares a
body the buffer does not hold. -/
theorem stores_next (r : ReqLine) (fs : List Field) (n : Nat) (hS : S.zipIdx = buf ++ s'.pending) (hc : Cut s'.script)
    (hle : buf.length ≤ r.text.length + (n + 2)) (hlt : buf.length < S.length)
    (hlen : 0 < lastLength fs 0) :
    ∃ x ∈ (connRecvFile (accepted buf r fs n) s' ⟨[], []⟩).2.2.written, x.2 = buf.length := by
  obtain ⟨q, hq, -, -, hall⟩ := connRecvFile_spec (accepted buf r fs n) s' ⟨[], []⟩
  obtain ⟨x, t, hx, hlab⟩ := label_head_drop hlt
  refine ⟨x, ?_, hlab⟩
  rw [hq, (hall hc (by intro e he; cases he)).2.1, leftover_accepted, List.drop_of_length_le hle,
    List.nil_append, List.nil_append]
  rw [hS, List.drop_left] at hx
  have hrem : 0 < remaining (accepted buf r fs n) := by
    rw [remaining, leftover_accepted, List.drop_of_length_le hle]
    simpa [accepted] using hlen
  obtain ⟨m, hm⟩ : ∃ m, remaining (accepted buf r fs n) = m + 1 := ⟨_, (Nat.succ_pred_eq_of_pos hrem).symm⟩
  rw [hx, hm, List.take_succ_cons]
  exact List.mem_cons_self

end

/-! ## The first blank line -/

theorem BlankEnd.unique {S : Bytes} {e e' : Nat} (h : BlankEnd S e) (h' : BlankEnd S e') :
    e = e' := by
  have key : ∀ {a b}, BlankEnd S a → BlankEnd S b → a ≤ b := by
    intro a b ha hb
    have := ha.2.length_le (B := S.drop a) (b := S.take b)
      (by rw [List.take_append_drop]; exact List.take_prefix _ _) hb.2.1.isInfix
    have h1 := ha.1; have h2 := hb.1
    simp only [List.length_take] at this
    omega
  exact Nat.le_antisymm (key h h') (key h' h)

theorem blankEnd_of_mem {S : Bytes} {k : Nat} (h : BLANK_LINE <:+: S.take k) :
    ∃ e, e ≤ k ∧ BlankEnd S e := by
  obtain ⟨i, hi⟩ := Option.isSome_iff_exists.mp ((indexOf_isSome_iff _ _).mpr h)
  obtain ⟨h1, -, h3⟩ := indexOf_eq_some hi
  have hlen := h1.length_le
  rw [List.length_drop, List.length_take, show BLANK_LINE.length = 4 by decide] at hlen
  have hpre : BLANK_LINE <+: S.drop i := by
    rw [List.drop_take] at h1; exact h1.trans (List.take_prefix _ _)
  refine ⟨i + 4, by omega, by omega, ?_, ?_⟩
  · obtain ⟨t, ht⟩ := hpre
    refine ⟨S.take i, ?_⟩
    rw [List.take_add, ← ht]
    exact congrArg (S.take i ++ ·) (show BLANK_LINE = (BLANK_LINE ++ t).take 4 from rfl)
  · rw [List.dropLast_eq_take, List.length_take, List.take_take]
    intro hinf
    obtain ⟨j, hj⟩ := Option.isSome_iff_exists.mp ((indexOf_isSome_iff _ _).mpr hinf)
    obtain ⟨h4, -, -⟩ := indexOf_eq_some hj
    have hl4 := h4.length_le
    rw [List.length_drop, List.length_take, show BLANK_LINE.length = 4 by decide] at hl4
    apply h3 j (by omega)
    rw [List.drop_take] at h4 ⊢
    have hS : BLANK_LINE <+: S.drop j := h4.trans (List.take_prefix _ _)
    exact List.prefix_take_iff.mpr ⟨hS, by rw [show BLANK_LINE.length = 4 by decide]; omega⟩

/-- Without a blank line in its reach, `read_until` fills the buffer or runs
into the end of the stream. -/
theorem readUntil_noBlank {S : Bytes} {es : List ReadEv} (hc : Cut es)
    (hno : ∀ e, e ≤ BUFFER_SIZE → ¬ BlankEnd S e) :
    ∃ s', readUntil ⟨S.zipIdx, es⟩ BUFFER_SIZE BLANK_LINE =
        (.ok (S.zipIdx.take BUFFER_SIZE), s') ∧
      S.zipIdx = S.zipIdx.take BUFFER_SIZE ++ s'.pending ∧ Cut s'.script := by
  obtain ⟨b, s', h1, h2, h3, h4, h5⟩ :=
    readUntil_cut BUFFER_SIZE BLANK_LINE (s := ⟨S.zipIdx, es⟩) hc
  simp only at h2
  have hb : b = S.zipIdx.take b.length := by rw [h2, List.take_left]
  have hbuf : b = S.zipIdx.take BUFFER_SIZE := by
    rcases h5 with h5 | h5 | h5
    · rw [hb, octets_take, octets_zipIdx] at h5
      obtain ⟨e, he, hend⟩ := blankEnd_of_mem h5
      exact absurd hend (hno e (by omega))
    · rw [← h5]; exact hb
    · rw [h5, List.append_nil] at h2
      rw [h2, List.take_of_length_le h3]
  subst hbuf
  exact ⟨s', h1, h2, h4⟩

/-! ## Where the scan ends -/

theorem le_scan_of_wellEnded {L b : Bytes} {fs : List Field} {n : Nat} (h : WellEnded L)
    (hs : Scan (cstr (L ++ b)) fs n) : L.length ≤ n := by
  rcases h with rfl | ⟨h0, A, f, hf, rfl⟩
  · exact Nat.zero_le _
  · rw [cstr_append_of_not_mem _ h0, List.append_assoc] at hs
    have := hs.le_end hf (j := A.length) (by rw [List.drop_left]; exact List.prefix_append _ _)
    rwa [List.length_append]

/-- The text up to the end of a match ends in a field. -/
theorem endsInField_take {T : Bytes} {j : Nat} {g : Field} (hg : g.Ok) (h : g.text <+: T.drop j) :
    EndsInField (T.take (j + g.text.length)) := by
  refine ⟨T.take j, g, hg, ?_⟩
  obtain ⟨t, ht⟩ := h
  rw [List.take_add, ← ht, List.take_left]

theorem wellEnded_of_le_scan {L : Bytes} {fs : List Field} {n : Nat} (hL : Lines L)
    (hs : Scan (cstr (L ++ [13, 10])) fs n) (hn : L.length ≤ n) : WellEnded L := by
  rcases Nat.eq_zero_or_pos L.length with hz | hpos
  · exact .inl (List.eq_nil_of_length_eq_zero hz)
  have h0 : (0 : UInt8) ∉ L := by
    intro h
    rw [cstr_append_of_mem _ h] at hs
    have hlen := hs.le_length
    have := (cstr_initial L).eq_of_length (Nat.le_antisymm (cstr_initial L).length_le (by omega))
    rw [← this] at h
    exact not_mem_cstr L h
  rw [cstr_append_of_not_mem _ h0] at hs
  obtain ⟨j, g, hg, ht, he⟩ := hs.end_mem (by omega)
  have hle := hs.le_length
  have hgp := hg.key_pos; have hgv := hg.value_pos
  simp only [List.length_append, Field.text_length] at hle he
  have hj : j < L.length := by
    have : (cstr [13, 10]).length = 2 := by decide
    omega
  have hin := Field.no_straddle hL hg hj ht
  have hjl := hin.length_le
  rw [List.length_drop] at hjl
  refine .inr ⟨h0, ?_⟩
  have := endsInField_take hg hin
  rwa [List.take_of_length_le (by simp only [Field.text_length] at hjl ⊢; omega)] at this

/-- The scan of a full buffer that reaches its last two bytes. -/
theorem crosses_of_le_scan {S : Bytes} {r : ReqLine} {fs : List Field} {n : Nat}
    (hl : LineOf (cstr (S.take BUFFER_SIZE)) r)
    (hs : Scan (cstr ((S.take BUFFER_SIZE).drop r.text.length)) fs n)
    (hfull : (S.take BUFFER_SIZE).length = BUFFER_SIZE)
    (hn : BUFFER_SIZE ≤ r.text.length + (n + 2)) (hlen : lastLength fs 0 ≤ 0) : Crosses r S := by
  obtain ⟨u, hu⟩ := hl.2.1.trans (cstr_initial _)
  rw [← hu, List.drop_left] at hs
  have hul : r.text.length + u.length = BUFFER_SIZE := by
    rw [← hfull, ← hu, List.length_append]
  have hr := hl.1.length_le
  have hB : BUFFER_SIZE = 4096 := rfl
  obtain ⟨j, g, hg, ht, he⟩ := hs.end_mem (by omega)
  have hle := hs.le_length
  -- everything the scan consumed is in front of the first NUL
  have hpre : (cstr u).take n = u.take n := by
    obtain ⟨v, hv⟩ := cstr_initial u
    nth_rewrite 2 [← hv]
    rw [List.take_append_of_le_length hle]
  have h0 : (0 : UInt8) ∉ u.take n := by
    rw [← hpre]; exact fun h => not_mem_cstr u (List.mem_of_mem_take h)
  have hcu : cstr u = u.take n ++ cstr (u.drop n) := by
    rw [← cstr_append_of_not_mem _ h0, List.take_append_drop]
  have hlines : Lines (u.take n) := by
    rw [← hpre, ← he]; exact lines_take_match ht
  have hend : EndsInField (u.take n) := by
    rw [← hpre, ← he]; exact endsInField_take hg ht
  refine ⟨u.take n, u.drop n, ?_, ?_, h0, hend, fun fs' n' hs' => ?_⟩
  · rw [List.take_append_drop, hu]
  · rw [List.length_drop]; omega
  · have hshort : (cstr (u.drop n)).length < 6 := by
      have := (cstr_initial (u.drop n)).length_le
      rw [List.length_drop] at this; omega
    have := hs'.append hlines (.done (noField_short hshort))
    rw [← hcu, List.append_nil] at this
    rw [(this.unique hs).1]; exact hlen

/-- The converse: the scan of such a buffer reaches its end, and finds what
the header lines alone say. -/
theorem Crosses.scan {S : Bytes} {r : ReqLine} {fs : List Field} {n : Nat} (h : Crosses r S)
    (hs : Scan (cstr ((S.take BUFFER_SIZE).drop r.text.length)) fs n) :
    (S.take BUFFER_SIZE).length ≤ r.text.length + (n + 2) ∧ lastLength fs 0 ≤ 0 := by
  obtain ⟨L, t, hS, ht, h0, hend, hlen⟩ := h
  rw [hS, List.drop_left] at hs
  have hn := le_scan_of_wellEnded (.inr ⟨h0, hend⟩) hs
  refine ⟨by rw [hS]; simp only [List.length_append]; omega, ?_⟩
  rw [cstr_append_of_not_mem _ h0] at hs
  obtain ⟨A, f, hf, rfl⟩ := hend
  have hlines : Lines (A ++ f.text) := by
    rcases f.lines with h | h
    · simp [Field.text] at h
    · exact .inr (h.trans (List.suffix_append _ _))
  obtain ⟨gs, m, hg⟩ := scan_total (A ++ f.text)
  have hshort : (cstr t).length < 6 := by
    have := (cstr_initial t).length_le; omega
  have := hg.append hlines (.done (noField_short hshort))
  rw [List.append_nil] at this
  rw [(hs.unique this).1]
  exact hlen gs m hg

/-- Nothing buffered and nothing declared: nothing is stored. -/
theorem stores_nothing {buf : List (UInt8 × Nat)} {r : ReqLine} {fs : List Field} {n : Nat}
    (hle : buf.length ≤ r.text.length + (n + 2)) (hlen : lastLength fs 0 ≤ 0)
    (s : Src (UInt8 × Nat)) (ws : List WriteEv) :
    (connRecvFile (accepted buf r fs n) s ⟨[], ws⟩).2.2.written = [] := by
  have h0 : leftover (accepted buf r fs n) = [] := by
    rw [leftover_accepted, List.drop_of_length_le hle]
  have hrem : ¬ 0 < remaining (accepted buf r fs n) := by
    rw [remaining, h0]; simp only [accepted, List.length_nil]; omega
  simp only [connRecvFile_eq, h0, hrem, if_false]
  cases ws <;> rfl

/-! ## The condition -/

theorem take_split {S : Bytes} {e : Nat} (he : e ≤ BUFFER_SIZE) :
    ∃ b, S.take BUFFER_SIZE = S.take e ++ b :=
  ⟨(S.drop e).take (BUFFER_SIZE - e), by
    rw [← List.take_add, Nat.add_sub_cancel' he]⟩

theorem separated_safe {S : Bytes} (h : Separated S) : HeaderSafe S := by
  intro es ws hc hacc
  by_cases hblank : ∃ e, e ≤ BUFFER_SIZE ∧ BlankEnd S e
  · obtain ⟨e, he, hend⟩ := hblank
    have hHl : (S.take e).length = e := by rw [List.length_take]; have := hend.1; omega
    obtain ⟨buf, s', b, h1, h2, h3, -, -, hc'⟩ := readUntil_block (s := ⟨S.zipIdx, es⟩)
      (B := S.drop e) hend.2 (by omega) (by rw [octets_zipIdx, List.take_append_drop]) hc
    rcases connParse_cases h1 with ⟨r, fs, n, hl, hm, hs, hp⟩ | ⟨r, -, -, hp⟩ | ⟨-, hp⟩
    · obtain ⟨b', hb'⟩ := take_split (S := S) he
      have hl0 : LineOf (cstr (S.take e)) r := by
        rw [h3] at hl; exact (lineOf_block hend.2).mp hl
      obtain ⟨e', hend', hcase⟩ := h r (by rw [hb']; exact (lineOf_block hend.2).mpr hl0) hm
      obtain rfl := hend.unique hend'
      rcases hcase with ⟨-, L, hL, hw⟩ | ⟨hgt, -⟩
      · refine ⟨e, hend, fun x hx => ?_⟩
        rw [hp] at hx
        have hge := label_ge h2 ws x hx
        rw [h3, hL, List.append_assoc, List.drop_left, List.append_assoc] at hs
        have hn := le_scan_of_wellEnded hw hs
        have hbl : e ≤ buf.length := by
          rw [← octets_length, h3, List.length_append]; omega
        rw [hL] at hHl
        simp only [List.length_append, List.length_cons, List.length_nil] at hHl
        omega
      · omega
    · rw [hp] at hacc; cases hacc
    · rw [hp] at hacc; cases hacc
  · have hno : ∀ e, e ≤ BUFFER_SIZE → ¬ BlankEnd S e := fun e he hend => hblank ⟨e, he, hend⟩
    obtain ⟨s', h1, h2, hc'⟩ := readUntil_noBlank hc hno
    have hoct : octets (S.zipIdx.take BUFFER_SIZE) = S.take BUFFER_SIZE := by
      rw [octets_take, octets_zipIdx]
    rcases connParse_cases h1 with ⟨r, fs, n, hl, hm, hs, hp⟩ | ⟨r, -, -, hp⟩ | ⟨-, hp⟩
    · rw [hoct] at hl hs
      obtain ⟨e, hend, ⟨he, -⟩ | ⟨hgt, hx⟩⟩ := h r hl hm
      · exact absurd hend (hno e he)
      · refine ⟨e, hend, fun x hx' => ?_⟩
        obtain ⟨hle, hlen⟩ := hx.scan hs
        rw [hp, stores_nothing (by rw [← octets_length, hoct]; exact hle) hlen] at hx'
        cases hx'
    · rw [hp] at hacc; cases hacc
    · rw [hp] at hacc; cases hacc

theorem safe_separated {S : Bytes} (h : HeaderSafe S) : Separated S := by
  intro r hl hm
  by_cases hblank : ∃ e, e ≤ BUFFER_SIZE ∧ BlankEnd S e
  · -- a cut right behind the blank line
    obtain ⟨e, he, hend⟩ := hblank
    have hHl : (S.take e).length = e := by rw [List.length_take]; have := hend.1; omega
    obtain ⟨b', hb'⟩ := take_split (S := S) he
    rw [hb'] at hl
    have hl0 := (lineOf_block hend.2).mp hl
    obtain ⟨L, hL, hlines⟩ := hend.2.split hl0
    have h1 := readUntil_block_exact (B := S.drop e) S.zipIdx hend.2 (k := 0)
      (Nat.zero_le _) (by omega) (by rw [octets_zipIdx, List.take_append_drop])
    rw [Nat.add_zero, hHl] at h1
    have hoct : octets (S.zipIdx.take e) = S.take e := by rw [octets_take, octets_zipIdx]
    obtain ⟨fs, n, hs⟩ := scan_total (cstr ((octets (S.zipIdx.take e)).drop r.text.length))
    have hp := connParse_accept h1 (by rw [hoct]; exact hl0) hm hs
    obtain ⟨e', hend', hx⟩ := h [.got (e - 1)] [] (by intro x hx; simp at hx; subst hx; rfl)
      (by rw [hp])
    obtain rfl := hend.unique hend'
    refine ⟨e, hend, .inl ⟨he, L, hL, ?_⟩⟩
    rw [hoct, hL, List.drop_left] at hs
    apply wellEnded_of_le_scan hlines hs
    by_contra hlt
    have hel : r.text.length + (L.length + 2) = e := by
      rw [← hHl, hL]; simp
    obtain ⟨x, hxm, hlab⟩ := stores_messageStart (n := n) (r := r) fs
      (show S.zipIdx = S.zipIdx.take e ++ Src.pending ⟨S.zipIdx.drop e, []⟩ from
        (List.take_append_drop _ _).symm) (by intro x hx; cases hx)
      (by rw [List.length_take, List.length_zipIdx]; have := hend.1; omega)
    rw [hp] at hx
    have := hx x hxm
    omega
  · have hno : ∀ e, e ≤ BUFFER_SIZE → ¬ BlankEnd S e := fun e he hend => hblank ⟨e, he, hend⟩
    obtain ⟨s', h1, h2, hc'⟩ := readUntil_noBlank (S := S) (show Cut [] from by intro x hx; cases hx) hno
    have hoct : octets (S.zipIdx.take BUFFER_SIZE) = S.take BUFFER_SIZE := by
      rw [octets_take, octets_zipIdx]
    obtain ⟨fs, n, hs⟩ := scan_total (cstr ((S.take BUFFER_SIZE).drop r.text.length))
    have hp := connParse_accept h1 (by rw [hoct]; exact hl) hm (by rw [hoct]; exact hs)
    obtain ⟨e, hend, hx⟩ := h [] [] (by intro x hx; cases hx) (by rw [hp])
    have hgt : BUFFER_SIZE < e := by
      by_contra hle; exact hno e (by omega) hend
    have hfull : (S.take BUFFER_SIZE).length = BUFFER_SIZE := by
      rw [List.length_take]; have := hend.1; omega
    have hbl : (S.zipIdx.take BUFFER_SIZE).length = BUFFER_SIZE := by
      rw [← octets_length, hoct, hfull]
    rw [hp] at hx
    have hn : BUFFER_SIZE ≤ r.text.length + (n + 2) := by
      by_contra hlt
      obtain ⟨x, hxm, hlab⟩ := stores_messageStart (n := n) (r := r) fs h2 hc' (by omega)
      have := hx x hxm
      omega
    refine ⟨e, hend, .inr ⟨hgt, crosses_of_le_scan hl hs hfull hn ?_⟩⟩
    by_contra hpos
    obtain ⟨x, hxm, hlab⟩ := stores_next r fs n h2 hc' (by omega)
      (by have := hend.1; omega) (by omega)
    have := hx x hxm
    omega

/-- **Exactly when no header byte is stored.** -/
theorem headerSafe_iff (S : Bytes) : HeaderSafe S ↔ Separated S :=
  ⟨safe_separated, separated_safe⟩

/-- A complete request whose only header line the pattern does not match. -/
def putFoo : Bytes := ascii "PUT /a HTTP/1.1\r\nFoo:bar\r\n\r\n"

/-- **Counterexample**: nothing follows the blank line, and `o:bar` with both
line ends is stored. -/
theorem header_line_stored : ¬ ∀ S, HeaderSafe S := by
  intro h
  have hb : BlankEnd putFoo 28 := by unfold BlankEnd; decide
  obtain ⟨e, he, hx⟩ := h putFoo [] [] (by decide) (by decide)
  obtain rfl := hb.unique he
  have := hx (111, 19) (by decide)
  omega

end HttpC.Bugs.HeaderAsBody
