import Mathlib.Data.List.TakeWhile
import HttpC.L2Parse.Conn

/-!
# What the header loop finds

`parse_headers` searches for `HEADER_FIELD` again and again, unanchored, from
the end of the previous match (`src/connection.c:131-155`). `Scan T fs n` says
that over the text `T` it finds the fields `fs` and stops with `offset = n`.

A match holds CR LF only at its end (`Field.lf_index`), so no match straddles
the end of a line: the scan of `A ++ B`, where `A` is empty or ends in CR LF,
is the scan of `A` followed by the scan of `B` (`Scan.append`), and the final
offset is the largest end of any match at all (`Scan.le_end`, `Scan.end_mem`).
-/
namespace HttpC.L2
open HttpC.Regex

/-- One header line as `HEADER_FIELD` reads it. -/
structure Field where
  key : Bytes
  sp : UInt8
  value : Bytes
  deriving DecidableEq, Repr

def Field.text (f : Field) : Bytes := f.key ++ 58 :: f.sp :: (f.value ++ [13, 10])

/-- The text of the field is in the language of `HEADER_FIELD`. -/
structure Field.Ok (f : Field) : Prop where
  key_pos : 1 ≤ f.key.length
  key_le : f.key.length ≤ 128
  key_cls : ∀ x ∈ f.key, isKey x = true
  sp_cls : isSpace f.sp = true
  value_pos : 1 ≤ f.value.length
  value_le : f.value.length ≤ 128
  value_cls : ∀ x ∈ f.value, isValue x = true

instance (f : Field) : Decidable f.Ok :=
  decidable_of_iff (1 ≤ f.key.length ∧ f.key.length ≤ 128 ∧ f.key.all isKey = true ∧
      isSpace f.sp = true ∧ 1 ≤ f.value.length ∧ f.value.length ≤ 128 ∧ f.value.all isValue = true)
    ⟨fun ⟨h1, h2, h3, h4, h5, h6, h7⟩ =>
      ⟨h1, h2, List.all_eq_true.mp h3, h4, h5, h6, List.all_eq_true.mp h7⟩,
     fun h => ⟨h.key_pos, h.key_le, List.all_eq_true.mpr h.key_cls, h.sp_cls, h.value_pos,
      h.value_le, List.all_eq_true.mpr h.value_cls⟩⟩

@[simp] theorem Field.text_length (f : Field) :
    f.text.length = f.key.length + f.value.length + 4 := by
  simp [Field.text]; omega

theorem Field.text_drop (f : Field) (t : Bytes) :
    (f.text ++ t).drop (f.key.length + 2) = f.value ++ 13 :: 10 :: t := by
  rw [Field.text, List.append_assoc, List.drop_append, List.drop_of_length_le (by omega)]
  simp

theorem isKey_ne {x : UInt8} (h : isKey x = true) : x ≠ 58 ∧ x ≠ 13 ∧ x ≠ 10 ∧ x ≠ 0 := by
  refine ⟨?_, ?_, ?_, ?_⟩ <;> rintro rfl <;> revert h <;> decide

theorem isValue_ne {x : UInt8} (h : isValue x = true) : x ≠ 13 ∧ x ≠ 10 ∧ x ≠ 0 := by
  refine ⟨?_, ?_, ?_⟩ <;> rintro rfl <;> revert h <;> decide

theorem isSpace_ne {x : UInt8} (h : isSpace x = true) : x ≠ 0 := by
  rintro rfl; revert h; decide

theorem Field.Ok.no_nul {f : Field} (hf : f.Ok) : (0 : UInt8) ∉ f.text := by
  simp only [Field.text, List.mem_append, List.mem_cons, not_or]
  exact ⟨fun h => (isKey_ne (hf.key_cls _ h)).2.2.2 rfl, by decide,
    fun h => isSpace_ne hf.sp_cls h.symm, fun h => (isValue_ne (hf.value_cls _ h)).2.2 rfl, by decide⟩

theorem isDigit_not_space {x : UInt8} (h : isDigit x = true) : isSpace x = false := by
  cases hc : isSpace x with
  | false => rfl
  | true =>
    simp only [isDigit, isSpace, Bool.and_eq_true, Bool.or_eq_true, decide_eq_true_eq,
      beq_iff_eq, UInt8.le_iff_toNat_le] at h hc
    rcases hc with hc | rfl
    · simp at h hc; omega
    · simp at h

/-- `strtoull` of digits alone, below saturation. -/
theorem strtoull_digits {v : Bytes} (hne : v ≠ []) (hdig : ∀ x ∈ v, isDigit x = true)
    (h : valueOf v < 2 ^ 64) : strtoull v = valueOf v := by
  have htake : v.takeWhile isDigit = v := List.takeWhile_eq_self_iff.mpr hdig
  cases v with
  | nil => exact absurd rfl hne
  | cons x xs =>
    have hx := hdig x List.mem_cons_self
    have h45 : x ≠ 45 := by rintro rfl; revert hx; decide
    have h43 : x ≠ 43 := by rintro rfl; revert hx; decide
    simp only [strtoull, List.dropWhile_cons, isDigit_not_space hx, Bool.false_eq_true, if_false,
      List.head?_cons, Option.some_beq_some, beq_eq_false_iff_ne.mpr h45,
      beq_eq_false_iff_ne.mpr h43, Bool.or_false, htake]
    rw [if_neg (by omega)]

/-! ## One match -/

theorem forall₂_singleton_lit {c : UInt8} {p : Bytes} :
    Item.Ok ⟨(· == c), 1, 1, false⟩ p ↔ p = [c] := by
  constructor
  · intro h
    obtain ⟨h1, h2, h3⟩ := h
    obtain ⟨x, rfl⟩ := List.length_eq_one_iff.mp (show p.length = 1 by simp at h1 h2; omega)
    simpa using h3
  · rintro rfl; simp [Item.Ok]

theorem headerField_items : HEADER_FIELD.items =
    [⟨isKey, 1, 128, true⟩, ⟨(· == 58), 1, 1, false⟩, ⟨isSpace, 1, 1, false⟩,
      ⟨isValue, 1, 128, true⟩, ⟨(· == 13), 1, 1, false⟩, ⟨(· == 10), 1, 1, false⟩] := rfl

/-- The fits of `HEADER_FIELD` are the well-formed fields. -/
theorem fitsAt_header {s : Bytes} {ps : List Bytes} :
    FitsAt HEADER_FIELD.items s ps ↔
      ∃ f : Field, f.Ok ∧ f.text <+: s ∧ ps = [f.key, [58], [f.sp], f.value, [13], [10]] := by
  unfold FitsAt
  rw [headerField_items]
  constructor
  · intro h
    obtain ⟨hf, hp⟩ := h
    simp only [List.forall₂_cons_left_iff, List.forall₂_nil_left_iff,
      forall₂_singleton_lit] at hf
    obtain ⟨k, _, ⟨hk1, hk2, hk3⟩, ⟨_, _, rfl, ⟨q, _, ⟨hq1, hq2, hq3⟩, ⟨v, _, ⟨hv1, hv2, hv3⟩,
      ⟨_, _, rfl, ⟨_, _, rfl, rfl, rfl⟩, rfl⟩, rfl⟩, rfl⟩, rfl⟩, rfl⟩ := hf
    obtain ⟨c, rfl⟩ := List.length_eq_one_iff.mp (show q.length = 1 by simp at hq1 hq2; omega)
    exact ⟨⟨k, c, v⟩, ⟨hk1, hk2, hk3, hq3 c (by simp), hv1, hv2, hv3⟩,
      by simpa [Field.text] using hp, rfl⟩
  · intro h
    obtain ⟨f, hf, hp, rfl⟩ := h
    refine ⟨?_, by simpa [Field.text] using hp⟩
    refine .cons ⟨hf.key_pos, hf.key_le, hf.key_cls⟩ (.cons (forall₂_singleton_lit.mpr rfl)
      (.cons ⟨by simp, by simp, ?_⟩ (.cons ⟨hf.value_pos, hf.value_le, hf.value_cls⟩
        (.cons (forall₂_singleton_lit.mpr rfl)
          (.cons (forall₂_singleton_lit.mpr rfl) .nil)))))
    simpa using hf.sp_cls

/-- The text decides the field: the key ends at the first `':'`, the value at
the first CR after it. -/
theorem Field.unique {f g : Field} {s : Bytes} (hf : f.Ok) (hg : g.Ok) (h : f.text <+: s)
    (h' : g.text <+: s) : f = g := by
  have hkey : ∀ {f : Field}, f.Ok → f.text <+: s → f.key = s.takeWhile (· != 58) := by
    intro f hf hh
    obtain ⟨t, rfl⟩ := hh
    rw [Field.text, List.append_assoc, List.takeWhile_append_of_pos]
    · simp
    · intro x hx; simpa using (isKey_ne (hf.key_cls x hx)).1
  have hk : f.key = g.key := (hkey hf h).trans (hkey hg h').symm
  have hval : ∀ {f : Field}, f.Ok → f.text <+: s →
      f.value = (s.drop (f.key.length + 2)).takeWhile (· != 13) := by
    intro f hf hh
    obtain ⟨t, rfl⟩ := hh
    rw [Field.text_drop, List.takeWhile_append_of_pos]
    · simp
    · intro x hx; simpa using (isValue_ne (hf.value_cls x hx)).1
  have hv : f.value = g.value := by rw [hval hf h, hval hg h', hk]
  have hs : ∀ {f : Field}, f.text <+: s → s[f.key.length + 1]? = some f.sp := by
    rintro f ⟨t, rfl⟩; simp [Field.text]
  have hsp : f.sp = g.sp := by
    have := hs h; rw [hk, hs h'] at this; exact (Option.some.inj this).symm
  cases f; cases g; simp_all

/-- A match of `HEADER_FIELD` at this very position is `f`. -/
theorem here_header {f : Field} {s : Bytes} (hf : f.Ok) (h : f.text <+: s) :
    here HEADER_FIELD.items s = some [f.key, [58], [f.sp], f.value, [13], [10]] := by
  refine here_of_unique (fitsAt_header.mpr ⟨f, hf, h, rfl⟩) fun qs hq => ?_
  obtain ⟨g, hg, h', rfl⟩ := fitsAt_header.mp hq
  rw [Field.unique hf hg h h']

/-- The leftmost match in `T` is `f`, at offset `i`. -/
structure FirstAt (T : Bytes) (i : Nat) (f : Field) : Prop where
  ok : f.Ok
  text : f.text <+: T.drop i
  first : ∀ j < i, ∀ g : Field, g.Ok → ¬ g.text <+: T.drop j

def NoField (T : Bytes) : Prop := ∀ j, ∀ g : Field, g.Ok → ¬ g.text <+: T.drop j

theorem search_header {T : Bytes} {i : Nat} {f : Field} (h : FirstAt T i f) :
    search HEADER_FIELD.items T = some (i, [f.key, [58], [f.sp], f.value, [13], [10]]) := by
  refine search_eq_some_iff.mpr ⟨?_, here_header h.ok h.text, fun j hj => ?_⟩
  · by_contra hlt
    have := h.text.length_le
    rw [List.drop_of_length_le (by omega)] at this
    simp at this
  · apply here_eq_none_iff.mpr
    intro ps hp
    obtain ⟨g, hg, ht, -⟩ := fitsAt_header.mp hp
    exact h.first j hj g hg ht

theorem search_header_none {T : Bytes} (h : NoField T) : search HEADER_FIELD.items T = none := by
  refine search_eq_none_iff.mpr fun j _ => here_eq_none_iff.mpr fun ps hp => ?_
  obtain ⟨g, hg, ht, -⟩ := fitsAt_header.mp hp
  exact h j g hg ht

theorem firstAt_or_noField (T : Bytes) : (∃ i f, FirstAt T i f) ∨ NoField T := by
  cases hs : search HEADER_FIELD.items T with
  | none =>
    refine .inr fun j g hg ht => ?_
    have hj : j ≤ T.length := by
      by_contra hlt
      have := ht.length_le
      rw [List.drop_of_length_le (by omega)] at this
      simp at this
    have := here_eq_none_iff.mp (search_eq_none_iff.mp hs j hj)
    exact this _ (fitsAt_header.mpr ⟨g, hg, ht, rfl⟩)
  | some m =>
    obtain ⟨i, ps⟩ := m
    obtain ⟨-, h2, h3⟩ := search_eq_some_iff.mp hs
    obtain ⟨f, hf, ht, -⟩ := fitsAt_header.mp (here_fits h2)
    refine .inl ⟨i, f, hf, ht, fun j hj g hg hg' => ?_⟩
    exact here_eq_none_iff.mp (h3 j hj) _ (fitsAt_header.mpr ⟨g, hg, hg', rfl⟩)

/-! ## No match straddles a line end -/

/-- LF inside a match is its blank (after the colon) or its last byte. -/
theorem Field.lf_index {f : Field} (hf : f.Ok) {p : Nat} (h : f.text[p]? = some 10)
    (hp : p + 1 < f.text.length) : p = f.key.length + 1 := by
  by_contra hne
  simp only [Field.text_length] at hp
  rcases Nat.lt_trichotomy p f.key.length with hlt | rfl | hgt
  · rw [Field.text, List.getElem?_append_left hlt] at h
    exact (isKey_ne (hf.key_cls 10 (List.mem_of_getElem? h))).2.2.1 rfl
  · simp [Field.text] at h
  · obtain ⟨q, rfl⟩ : ∃ q, p = f.key.length + 2 + q := ⟨p - (f.key.length + 2), by omega⟩
    have e : f.text[f.key.length + 2 + q]? = (f.value ++ [13, 10])[q]? := by
      rw [Field.text, List.getElem?_append_right (by omega),
        show f.key.length + 2 + q - f.key.length = q + 1 + 1 by omega]
      rfl
    rw [e] at h
    rcases Nat.lt_or_ge q f.value.length with hq | hq
    · rw [List.getElem?_append_left hq] at h
      exact (isValue_ne (hf.value_cls 10 (List.mem_of_getElem? h))).2.1 rfl
    · rw [List.getElem?_append_right hq, show q - f.value.length = 0 by omega] at h
      simp at h

theorem Field.colon_index (f : Field) : f.text[f.key.length]? = some 58 := by
  simp [Field.text]

/-- The first byte of a match is a key character. -/
theorem Field.head {f : Field} (hf : f.Ok) : ∃ x, f.text[0]? = some x ∧ isKey x = true := by
  have := hf.key_pos
  cases hk : f.key with
  | nil => rw [hk] at this; simp at this
  | cons x xs =>
    exact ⟨x, by simp [Field.text, hk], hf.key_cls x (by simp [hk])⟩

/-- A text is whole lines. -/
def Lines (A : Bytes) : Prop := A = [] ∨ [13, 10] <:+ A

theorem Lines.getElem {A : Bytes} (h : Lines A) (hp : 0 < A.length) :
    A[A.length - 1]? = some 10 ∧ (2 ≤ A.length) ∧ A[A.length - 2]? = some 13 := by
  rcases h with rfl | ⟨B, rfl⟩
  · simp at hp
  · simp

theorem Lines.append {A B : Bytes} (hA : Lines A) (hB : Lines B) : Lines (A ++ B) := by
  rcases hB with rfl | hB
  · simpa using hA
  · exact .inr (hB.trans (List.suffix_append _ _))

theorem Field.lines (f : Field) : Lines f.text :=
  .inr ⟨f.key ++ 58 :: f.sp :: f.value, by simp [Field.text]⟩

/-- **No straddling.** A match that starts in the whole lines `A` ends in
them. -/
theorem Field.no_straddle {A B : Bytes} {f : Field} {j : Nat} (hA : Lines A) (hf : f.Ok)
    (hj : j < A.length) (h : f.text <+: (A ++ B).drop j) : f.text <+: A.drop j := by
  rw [List.drop_append_of_le_length (by omega)] at h
  have hget : ∀ i, i < f.text.length → f.text[i]? = (A.drop j ++ B)[i]? := by
    intro i hi
    obtain ⟨t, ht⟩ := h
    rw [← ht, List.getElem?_append_left hi]
  obtain ⟨hlf, h2, hcr⟩ := hA.getElem (by omega)
  rcases Nat.lt_or_ge (A.drop j).length f.text.length with hlt | hge
  · exfalso
    rw [List.length_drop] at hlt
    have e1 : f.text[A.length - 1 - j]? = some 10 := by
      rw [hget _ (by omega), List.getElem?_append_left (by rw [List.length_drop]; omega),
        List.getElem?_drop, show j + (A.length - 1 - j) = A.length - 1 by omega, hlf]
    have hp := Field.lf_index hf e1 (by omega)
    have e2 : f.text[A.length - 2 - j]? = some 13 := by
      rw [hget _ (by omega), List.getElem?_append_left (by rw [List.length_drop]; omega),
        List.getElem?_drop, show j + (A.length - 2 - j) = A.length - 2 by omega, hcr]
    rw [show A.length - 2 - j = f.key.length by omega, Field.colon_index] at e2
    cases e2
  · exact List.prefix_of_prefix_length_le h (List.prefix_append _ _) hge

/-- What is left of whole lines after a match is whole lines. -/
theorem Lines.drop_match {A : Bytes} {i : Nat} {f : Field} (hA : Lines A)
    (h : f.text <+: A.drop i) : Lines (A.drop (i + f.text.length)) := by
  obtain ⟨t, ht⟩ := h
  have hd : A.drop (i + f.text.length) = t := by
    rw [← List.drop_drop, ← ht, List.drop_left]
  rw [hd]
  rcases hA with rfl | hA
  · have := congrArg List.length ht
    simp at this
  · have hs : [13, 10] <:+ f.text ++ t := by
      rw [ht]
      apply List.suffix_of_suffix_length_le hA (List.drop_suffix _ _)
      rw [← ht]; simp; omega
    match t with
    | [] => exact .inl rfl
    | [x] =>
      -- the last two bytes would be the LF of the match and `x`
      have e : f.text ++ [x] = f.key ++ 58 :: f.sp :: (f.value ++ [13, 10, x]) := by
        simp [Field.text]
      rw [e] at hs
      have hsuf : [10, x] <:+ f.key ++ 58 :: f.sp :: (f.value ++ [13, 10, x]) :=
        ⟨f.key ++ 58 :: f.sp :: (f.value ++ [13]), by simp⟩
      have := (List.suffix_of_suffix_length_le hs hsuf (Nat.le_refl _)).eq_of_length rfl
      simp at this
    | x :: y :: r =>
      refine .inr (List.suffix_of_suffix_length_le hs (List.suffix_append _ _) (by simp))

/-! ## The whole scan -/

/-- Over `T` the loop finds `fs` and ends with `offset = n`. -/
inductive Scan : Bytes → List Field → Nat → Prop where
  | done {T : Bytes} : NoField T → Scan T [] 0
  | next {T : Bytes} {i : Nat} {f : Field} {fs : List Field} {n : Nat} :
      FirstAt T i f → Scan (T.drop (i + f.text.length)) fs n →
        Scan T (f :: fs) (i + f.text.length + n)

theorem scan_total (T : Bytes) : ∃ fs n, Scan T fs n := by
  induction hn : T.length using Nat.strong_induction_on generalizing T with
  | _ k ih =>
    subst hn
    rcases firstAt_or_noField T with ⟨i, f, h⟩ | h
    · have hl := h.text.length_le
      have := h.ok.key_pos
      rw [List.length_drop] at hl
      simp only [Field.text_length] at hl
      obtain ⟨fs, n, hs⟩ := ih (T.drop (i + f.text.length)).length
        (by simp only [List.length_drop, Field.text_length]; omega) _ rfl
      exact ⟨_, _, .next h hs⟩
    · exact ⟨_, _, .done h⟩

theorem FirstAt.unique {T : Bytes} {i j : Nat} {f g : Field} (h : FirstAt T i f)
    (h' : FirstAt T j g) : i = j ∧ f = g := by
  rcases Nat.lt_trichotomy i j with hij | rfl | hij
  · exact absurd h.text (h'.first i hij f h.ok)
  · exact ⟨rfl, Field.unique h.ok h'.ok h.text h'.text⟩
  · exact absurd h'.text (h.first j hij g h'.ok)

theorem Scan.unique {T : Bytes} {fs gs : List Field} {n m : Nat} (h : Scan T fs n)
    (h' : Scan T gs m) : fs = gs ∧ n = m := by
  induction h generalizing gs m with
  | done h0 =>
    cases h' with
    | done => exact ⟨rfl, rfl⟩
    | next hf _ => exact absurd hf.text (h0 _ _ hf.ok)
  | next hf _ ih =>
    cases h' with
    | done h0 => exact absurd hf.text (h0 _ _ hf.ok)
    | next hg hs =>
      obtain ⟨rfl, rfl⟩ := hf.unique hg
      obtain ⟨rfl, rfl⟩ := ih hs
      exact ⟨rfl, rfl⟩

theorem NoField.append {A B : Bytes} (hA : Lines A) (h : NoField A) (h' : NoField B) :
    NoField (A ++ B) := by
  intro j g hg ht
  rcases Nat.lt_or_ge j A.length with hj | hj
  · exact h j g hg (Field.no_straddle hA hg hj ht)
  · apply h' (j - A.length) g hg
    rwa [List.drop_append, List.drop_of_length_le hj, List.nil_append] at ht

theorem FirstAt.append_left {A B : Bytes} {i : Nat} {f : Field} (hA : Lines A)
    (h : FirstAt A i f) : FirstAt (A ++ B) i f := by
  have hi : i < A.length := by
    by_contra hlt
    have := h.text.length_le
    rw [List.drop_of_length_le (by omega)] at this
    simp at this
  refine ⟨h.ok, ?_, fun j hj g hg ht => ?_⟩
  · rw [List.drop_append_of_le_length (by omega)]
    exact h.text.trans (List.prefix_append _ _)
  · exact h.first j hj g hg (Field.no_straddle hA hg (by omega) ht)

theorem FirstAt.append_right {A B : Bytes} {i : Nat} {f : Field} (hA : Lines A) (hN : NoField A)
    (h : FirstAt B i f) : FirstAt (A ++ B) (A.length + i) f := by
  refine ⟨h.ok, ?_, fun j hj g hg ht => ?_⟩
  · rw [List.drop_append, List.drop_of_length_le (by omega), List.nil_append,
      show A.length + i - A.length = i by omega]
    exact h.text
  · rcases Nat.lt_or_ge j A.length with hlt | hge
    · exact hN j g hg (Field.no_straddle hA hg hlt ht)
    · apply h.first (j - A.length) (by omega) g hg
      rwa [List.drop_append, List.drop_of_length_le hge, List.nil_append] at ht

theorem drop_append_match {A B : Bytes} {i : Nat} {f : Field} (h : f.text <+: A.drop i) :
    (A ++ B).drop (i + f.text.length) = A.drop (i + f.text.length) ++ B := by
  have := h.length_le
  rw [List.length_drop] at this
  have hpos : 0 < f.text.length := by simp
  exact List.drop_append_of_le_length (by omega)

/-- **Scans compose at line ends.** -/
theorem Scan.append {A B : Bytes} {fs gs : List Field} {n m : Nat} (hA : Lines A)
    (h : Scan A fs n) (h' : Scan B gs m) :
    Scan (A ++ B) (fs ++ gs) (if gs = [] then n else A.length + m) := by
  induction h with
  | @done A h0 =>
    cases h' with
    | done hB => simpa using .done (h0.append hA hB)
    | @next _ i f gs m hf hs =>
      have hd : (A ++ B).drop (A.length + i + f.text.length) = B.drop (i + f.text.length) := by
        rw [List.drop_append, List.drop_of_length_le (by omega), List.nil_append]
        congr 1; omega
      have := Scan.next (hf.append_right hA h0) (hd ▸ hs)
      simpa [Nat.add_assoc] using this
  | @next A i f fs n hf _ ih =>
    have := Scan.next (hf.append_left (B := B) hA)
      ((drop_append_match hf.text).symm ▸ ih (hA.drop_match hf.text))
    have hl := hf.text.length_le
    rw [List.length_drop] at hl
    have hpos : 0 < f.text.length := by simp
    have e : (if gs = [] then i + f.text.length + n else A.length + m) =
        i + f.text.length +
          (if gs = [] then n else (A.drop (i + f.text.length)).length + m) := by
      split
      · rfl
      · rw [List.length_drop]; omega
    rw [e]; exact this

/-- The text up to the end of a match is whole lines. -/
theorem lines_take_match {T : Bytes} {i : Nat} {f : Field} (h : f.text <+: T.drop i) :
    Lines (T.take (i + f.text.length)) := by
  have hpos : 0 < f.text.length := by simp
  refine .inr ((f.lines.resolve_left (by intro e; simp [e] at hpos)).trans ?_)
  rw [List.take_add]
  have : (T.drop i).take f.text.length = f.text := by
    obtain ⟨t, ht⟩ := h
    rw [← ht, List.take_left]
  rw [this]; exact List.suffix_append _ _

/-- A match that starts before the end of another ends no later. -/
theorem match_le {T : Bytes} {i j : Nat} {f g : Field} (hg : g.Ok)
    (hf : f.text <+: T.drop i) (ht : g.text <+: T.drop j) (hj : j < i + f.text.length) :
    j + g.text.length ≤ i + f.text.length := by
  have hl := hf.length_le
  rw [List.length_drop] at hl
  have hpos : 0 < f.text.length := by simp
  have hlen : (T.take (i + f.text.length)).length = i + f.text.length := by
    rw [List.length_take]; omega
  rw [← List.take_append_drop (i + f.text.length) T] at ht
  have := (Field.no_straddle (lines_take_match hf) hg (by omega) ht).length_le
  rw [List.length_drop, hlen] at this
  omega

/-- Every match ends at or before the final offset. -/
theorem Scan.le_end {T : Bytes} {fs : List Field} {n : Nat} (h : Scan T fs n) {j : Nat}
    {g : Field} (hg : g.Ok) (ht : g.text <+: T.drop j) : j + g.text.length ≤ n := by
  induction h generalizing j with
  | done h0 => exact absurd ht (h0 j g hg)
  | @next T i f fs n hf _ ih =>
    rcases Nat.lt_or_ge j (i + f.text.length) with hlt | hge
    · have := match_le hg hf.text ht hlt
      omega
    · have := ih (j := j - (i + f.text.length))
        (by rwa [List.drop_drop, show i + f.text.length + (j - (i + f.text.length)) = j by omega])
      omega

/-- A positive final offset is the end of a match. -/
theorem Scan.end_mem {T : Bytes} {fs : List Field} {n : Nat} (h : Scan T fs n) (hn : 0 < n) :
    ∃ j, ∃ g : Field, g.Ok ∧ g.text <+: T.drop j ∧ j + g.text.length = n := by
  induction h with
  | done => omega
  | @next T i f fs n hf _ ih =>
    rcases Nat.eq_zero_or_pos n with rfl | hpos
    · exact ⟨i, f, hf.ok, hf.text, by omega⟩
    · obtain ⟨j, g, hg, ht, he⟩ := ih hpos
      refine ⟨i + f.text.length + j, g, hg, by rwa [List.drop_drop] at ht, by omega⟩

/-! ## Scans of a prefix -/

theorem prefix_of_take {T : Bytes} {k j : Nat} {g : Field} (h : g.text <+: (T.take k).drop j) :
    g.text <+: T.drop j := by
  rw [List.drop_take] at h
  exact h.trans (List.take_prefix _ _)

/-- The first match in a prefix is the first match. -/
theorem FirstAt.of_take {T : Bytes} {k i : Nat} {f : Field} (h : FirstAt (T.take k) i f) :
    FirstAt T i f := by
  have hf := prefix_of_take h.text
  refine ⟨h.ok, hf, fun j hj g hg ht => h.first j hj g hg ?_⟩
  have hle := match_le hg hf ht (by omega)
  have hl := h.text.length_le
  rw [List.length_drop, List.length_take] at hl
  have hpos : 0 < f.text.length := by simp
  rw [List.drop_take]
  exact List.prefix_of_prefix_length_le ht (List.take_prefix _ _)
    (by rw [List.length_take, List.length_drop]; omega)

theorem Scan.prefix_of_take {T : Bytes} {fs gs : List Field} {k n m : Nat}
    (h : Scan (T.take k) gs m) (h' : Scan T fs n) : gs <+: fs := by
  generalize hU : T.take k = U at h
  induction h generalizing T k fs n with
  | done => exact List.nil_prefix
  | @next U i f gs m hf _ ih =>
    subst hU
    cases h' with
    | done h0 => exact absurd hf.of_take.text (h0 i f hf.ok)
    | next hg hs =>
      obtain ⟨rfl, rfl⟩ := hf.of_take.unique hg
      refine List.cons_prefix_cons.mpr ⟨rfl, ih hs (k := k - (i + f.text.length)) ?_⟩
      rw [List.drop_take]

/-- Every initial part of the scan is the scan of some prefix. -/
theorem Scan.exists_take {T : Bytes} {fs gs : List Field} {n : Nat} (h : Scan T fs n)
    (hp : gs <+: fs) : ∃ k m, k ≤ T.length ∧ Scan (T.take k) gs m := by
  have hnil : Scan [] [] 0 := .done fun j g _ ht => by simpa using ht.length_le
  induction h generalizing gs with
  | done h0 =>
    rw [List.prefix_nil.mp hp]
    exact ⟨0, 0, Nat.zero_le _, by simpa using hnil⟩
  | @next T i f fs n hf _ ih =>
    cases gs with
    | nil => exact ⟨0, 0, Nat.zero_le _, by simpa using hnil⟩
    | cons g gs =>
      obtain ⟨rfl, hp'⟩ := List.cons_prefix_cons.mp hp
      obtain ⟨k, m, hk, hs⟩ := ih hp'
      have hl := hf.text.length_le
      rw [List.length_drop] at hl hk
      have hpos : 0 < g.text.length := by simp
      refine ⟨i + g.text.length + k, i + g.text.length + m, by omega,
        .next ⟨hf.ok, ?_, ?_⟩ ?_⟩
      · rw [List.drop_take]
        apply List.prefix_of_prefix_length_le hf.text (List.take_prefix _ _)
        rw [List.length_take, List.length_drop]; omega
      · exact fun j hj g hg ht => hf.first j hj g hg (HttpC.L2.prefix_of_take ht)
      · rw [List.drop_take, Nat.add_sub_cancel_left]; exact hs

theorem Scan.ok {T : Bytes} {fs : List Field} {n : Nat} (h : Scan T fs n) : ∀ f ∈ fs, f.Ok := by
  induction h with
  | done => simp
  | next hf _ ih => exact List.forall_mem_cons.mpr ⟨hf.ok, ih⟩

theorem Scan.le_length {T : Bytes} {fs : List Field} {n : Nat} (h : Scan T fs n) :
    n ≤ T.length := by
  rcases Nat.eq_zero_or_pos n with rfl | hpos
  · exact Nat.zero_le _
  · obtain ⟨j, g, -, ht, he⟩ := h.end_mem hpos
    have := ht.length_le
    rw [List.length_drop] at this
    have : 0 < g.text.length := by simp
    omega

end HttpC.L2
