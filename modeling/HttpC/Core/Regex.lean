import Mathlib.Data.List.MinMax
import Mathlib.Data.List.Sort
import Mathlib.Data.List.Forall2
import Mathlib.Data.List.Flatten
import HttpC.Core.Bytes

/-!
# POSIX `regexec` for sequences of bounded character classes

A pattern is a sequence of items `[class]{lo,hi}`, some of them captured. A
literal is a run of one-character classes. POSIX fixes which match `regexec`
reports: the leftmost start, from there the longest match, and among those
each item, from left to right, as long as possible.

`splits` enumerates every way the items fit a prefix of the subject, longest
first piece first; `here` takes the first of greatest total length, `search`
the leftmost start. `mem_splits` says the enumeration is complete,
`splits_congr` that it depends only on the set of fits.
-/
namespace HttpC.Regex

/-- One item: a class, its bounds, whether it is captured. -/
structure Item where
  cls : UInt8 → Bool
  lo : Nat
  hi : Nat
  grp : Bool

/-- The piece `p` is in the language of the item. -/
def Item.Ok (it : Item) (p : Bytes) : Prop :=
  it.lo ≤ p.length ∧ p.length ≤ it.hi ∧ ∀ x ∈ p, it.cls x = true

/-- A literal string, one item an octet. -/
def lit (s : Bytes) : List Item := s.map fun c => ⟨(· == c), 1, 1, false⟩

/-- The pieces `ps` fit the items at the start of `s`. -/
def FitsAt (its : List Item) (s : Bytes) (ps : List Bytes) : Prop :=
  List.Forall₂ Item.Ok its ps ∧ ps.flatten <+: s

/-- Length of the longest prefix in `cls`, at most `n`. -/
def runLen (cls : UInt8 → Bool) : Nat → Bytes → Nat
  | 0, _ => 0
  | _, [] => 0
  | n + 1, x :: s => if cls x then runLen cls n s + 1 else 0

/-- The lengths an item can take at the start of `s`, longest first. -/
def cands (it : Item) (s : Bytes) : List Nat :=
  (List.range' it.lo (runLen it.cls it.hi s + 1 - it.lo)).reverse

def splits : List Item → Bytes → List (List Bytes)
  | [], _ => [[]]
  | it :: its, s => (cands it s).flatMap fun n => (splits its (s.drop n)).map (s.take n :: ·)

/-- The match at this position, if any. -/
def here (its : List Item) (s : Bytes) : Option (List Bytes) :=
  (splits its s).argmax fun ps => ps.flatten.length

/-- The leftmost match: its offset and pieces. -/
def search (its : List Item) : Bytes → Option (Nat × List Bytes)
  | [] => (here its []).map (0, ·)
  | x :: s =>
    match here its (x :: s) with
    | some ps => some (0, ps)
    | none => (search its s).map fun m => (m.1 + 1, m.2)

/-- `regmatch_t`: start and end offset. -/
structure Regmatch where
  so : Nat
  eo : Nat
  deriving DecidableEq, Repr

/-- Offsets of the captured pieces, in order. -/
def groups : List Item → List Bytes → Nat → List Regmatch
  | it :: its, p :: ps, o =>
    if it.grp then ⟨o, o + p.length⟩ :: groups its ps (o + p.length)
    else groups its ps (o + p.length)
  | _, _, _ => []

structure Pat where
  anchored : Bool
  items : List Item

/-- The match array: the whole match, then the captures. -/
def regmatches (its : List Item) (m : Nat × List Bytes) : List Regmatch :=
  ⟨m.1, m.1 + m.2.flatten.length⟩ :: groups its m.2 m.1

/-- `regexec` on the C string `s`; `none` is `REG_NOMATCH`. -/
def regexec (p : Pat) (s : Bytes) : Option (List Regmatch) :=
  let m := if p.anchored then (here p.items (cstr s)).map (0, ·) else search p.items (cstr s)
  m.map (regmatches p.items)

theorem regexec_unanchored {p : Pat} (h : p.anchored = false) (s : Bytes) :
    regexec p s = (search p.items (cstr s)).map (regmatches p.items) := by
  simp [regexec, h]

theorem regexec_anchored {p : Pat} (h : p.anchored = true) (s : Bytes) :
    regexec p s = (here p.items (cstr s)).map fun ps => regmatches p.items (0, ps) := by
  simp [regexec, h, Function.comp_def]

/-! ## The enumeration is complete -/

theorem le_runLen_iff (cls : UInt8 → Bool) (hi : Nat) (s : Bytes) (n : Nat) :
    n ≤ runLen cls hi s ↔ n ≤ hi ∧ n ≤ s.length ∧ ∀ x ∈ s.take n, cls x = true := by
  induction hi generalizing s n with
  | zero => simp only [runLen]; constructor <;> intro h <;> simp_all
  | succ hi ih =>
    cases s with
    | nil => simp only [runLen]; constructor <;> intro h <;> simp_all
    | cons x s =>
      cases n with
      | zero => simp
      | succ n =>
        simp only [runLen, List.length_cons, List.take_succ_cons, List.mem_cons,
          forall_eq_or_imp]
        split
        · rename_i hx
          simp only [Nat.add_le_add_iff_right, ih, hx, true_and]
        · rename_i hx; simp [hx]

theorem mem_cands {it : Item} {s : Bytes} {n : Nat} :
    n ∈ cands it s ↔ n ≤ s.length ∧ it.Ok (s.take n) := by
  simp only [cands, List.mem_reverse, List.mem_range'_1, Item.Ok, List.length_take]
  have := le_runLen_iff it.cls it.hi s n
  constructor
  · intro h
    obtain ⟨h1, h2⟩ := h
    obtain ⟨h3, h4, h5⟩ := this.mp (by omega)
    exact ⟨h4, by omega, by omega, h5⟩
  · intro h
    obtain ⟨h1, h2, h3, h4⟩ := h
    have := this.mpr ⟨by omega, h1, h4⟩
    omega

theorem mem_splits {its : List Item} {s : Bytes} {ps : List Bytes} :
    ps ∈ splits its s ↔ FitsAt its s ps := by
  induction its generalizing s ps with
  | nil =>
    simp only [splits, List.mem_singleton, FitsAt, List.forall₂_nil_left_iff]
    constructor
    · rintro rfl; simp
    · exact fun h => h.1
  | cons it its ih =>
    simp only [splits, List.mem_flatMap, List.mem_map, mem_cands, ih, FitsAt]
    constructor
    · intro hh
      obtain ⟨n, ⟨hn, hok⟩, qs, ⟨hf, hp⟩, rfl⟩ := hh
      refine ⟨.cons hok hf, ?_⟩
      rw [List.flatten_cons]
      nth_rewrite 2 [← List.take_append_drop n s]
      exact (List.prefix_append_right_inj _).mpr hp
    · intro hh
      obtain ⟨hf, hp⟩ := hh
      cases hf with
      | @cons _ p _ qs hok hf =>
        rw [List.flatten_cons] at hp
        obtain ⟨t, rfl⟩ := hp
        refine ⟨p.length, ⟨by simp, by simpa using hok⟩, qs, ⟨hf, ?_⟩, by simp⟩
        simp

/-! ## Ordered without repetition -/

theorem cands_pairwise (it : Item) (s : Bytes) : (cands it s).Pairwise (· > ·) := by
  unfold cands
  rw [List.pairwise_reverse]
  exact List.pairwise_lt_range'

/-- Longest first piece first: `splits` is strictly decreasing. -/
theorem splits_pairwise (its : List Item) (s : Bytes) :
    (splits its s).Pairwise fun p q => q.map List.length < p.map List.length := by
  induction its generalizing s with
  | nil => simp [splits]
  | cons it its ih =>
    simp only [splits, List.pairwise_flatMap, List.pairwise_map, List.map_cons, List.mem_map]
    refine ⟨fun n _ => (ih _).imp fun h => List.cons_lt_cons_iff.mpr (.inr ⟨rfl, h⟩), ?_⟩
    refine ((cands_pairwise it s).imp_of_mem ?_)
    intro n m hn hm hlt _ hh _ hx
    obtain ⟨qs, -, rfl⟩ := hh
    obtain ⟨rs, -, rfl⟩ := hx
    have h1 := (mem_cands.mp hn).1
    have h2 := (mem_cands.mp hm).1
    simp only [List.map_cons, List.length_take]
    exact List.cons_lt_cons_iff.mpr (.inl (by omega))

/-- The enumeration depends only on the set of fits. -/
theorem splits_congr {its : List Item} {s t : Bytes}
    (h : ∀ ps, FitsAt its s ps ↔ FitsAt its t ps) : splits its s = splits its t := by
  have hnd : ∀ u, (splits its u).Nodup := fun u =>
    (splits_pairwise its u).imp fun hlt he => by subst he; exact List.lt_irrefl _ hlt
  have hperm : (splits its s).Perm (splits its t) :=
    (List.perm_ext_iff_of_nodup (hnd s) (hnd t)).mpr fun ps => by
      rw [mem_splits, mem_splits, h]
  exact hperm.eq_of_pairwise (fun _ _ _ _ h1 h2 => absurd h1 (List.lt_asymm h2))
    (splits_pairwise its s) (splits_pairwise its t)

theorem here_congr {its : List Item} {s t : Bytes}
    (h : ∀ ps, FitsAt its s ps ↔ FitsAt its t ps) : here its s = here its t := by
  unfold here; rw [splits_congr h]

/-! ## Specs of `here` and `search` -/

theorem here_fits {its : List Item} {s : Bytes} {ps : List Bytes} (h : here its s = some ps) :
    FitsAt its s ps := mem_splits.mp (List.argmax_mem h)

theorem here_eq_none_iff {its : List Item} {s : Bytes} :
    here its s = none ↔ ∀ ps, ¬ FitsAt its s ps := by
  unfold here
  rw [List.argmax_eq_none, List.eq_nil_iff_forall_not_mem]
  simp only [mem_splits]

/-- A fit that is the only one is the match. -/
theorem here_of_unique {its : List Item} {s : Bytes} {ps : List Bytes} (h : FitsAt its s ps)
    (hu : ∀ qs, FitsAt its s qs → qs = ps) : here its s = some ps := by
  cases hh : here its s with
  | none => exact absurd h (here_eq_none_iff.mp hh ps)
  | some qs => rw [hu qs (here_fits hh)]

theorem search_eq_some_iff {its : List Item} {s : Bytes} {i : Nat} {ps : List Bytes} :
    search its s = some (i, ps) ↔
      i ≤ s.length ∧ here its (s.drop i) = some ps ∧ ∀ j < i, here its (s.drop j) = none := by
  induction s generalizing i with
  | nil =>
    simp only [search, Option.map_eq_some_iff, Prod.mk.injEq, List.length_nil, List.drop_nil]
    constructor
    · rintro ⟨_, h, rfl, rfl⟩; exact ⟨Nat.le_refl _, h, fun _ hj => by omega⟩
    · rintro ⟨hi, h, -⟩; exact ⟨ps, h, by omega, rfl⟩
  | cons x s ih =>
    simp only [search]
    split
    · rename_i qs hq
      simp only [Option.some.injEq, Prod.mk.injEq]
      constructor
      · rintro ⟨rfl, rfl⟩; exact ⟨Nat.zero_le _, hq, fun _ hj => by omega⟩
      · intro hh
        obtain ⟨-, h1, h2⟩ := hh
        cases i with
        | zero => rw [List.drop_zero, hq] at h1; exact ⟨rfl, Option.some.inj h1⟩
        | succ i => have := h2 0 (by omega); rw [List.drop_zero, hq] at this; cases this
    · rename_i hq
      simp only [Option.map_eq_some_iff, Prod.exists, Prod.mk.injEq]
      constructor
      · intro hh
        obtain ⟨k, qs, h, rfl, rfl⟩ := hh
        obtain ⟨h1, h2, h3⟩ := ih.mp h
        refine ⟨by simpa using h1, by simpa using h2, fun j hj => ?_⟩
        cases j with
        | zero => exact hq
        | succ j => simpa using h3 j (by omega)
      · intro hh
        obtain ⟨h1, h2, h3⟩ := hh
        cases i with
        | zero => rw [List.drop_zero, hq] at h2; cases h2
        | succ i =>
          refine ⟨i, ps, ih.mpr ⟨by simpa using h1, by simpa using h2, fun j hj => ?_⟩, rfl, rfl⟩
          simpa using h3 (j + 1) (by omega)

theorem search_eq_none_iff {its : List Item} {s : Bytes} :
    search its s = none ↔ ∀ j ≤ s.length, here its (s.drop j) = none := by
  induction s with
  | nil => simp [search]
  | cons x s ih =>
    simp only [search]
    split
    · rename_i qs hq
      simp only [reduceCtorEq, false_iff, not_forall]
      exact ⟨0, Nat.zero_le _, by simp [hq]⟩
    · rename_i hq
      simp only [Option.map_eq_none_iff, ih]
      constructor
      · intro h j hj
        cases j with
        | zero => exact hq
        | succ j => simpa using h j (by simpa using hj)
      · intro h j hj; simpa using h (j + 1) (by simpa using hj)

end HttpC.Regex
