import Mathlib.Data.List.DropRight
import HttpC.Core.Decimal

/-!
# Text helpers of the Zig standard library

What `std.mem` and `std.fmt` do to byte slices: trimming, splitting at a
sequence, reading integers, comparing without case. `std.mem.splitScalar` is
`List.splitOn`. Errors of `parseInt` are not told apart (every caller catches
them all).
-/
namespace HttpC.Text

/-- `std.mem.trim` -/
def trim (cut s : Bytes) : Bytes :=
  ((s.dropWhile cut.contains).reverse.dropWhile cut.contains).reverse

/-- `std.mem.splitSequence`, for a delimiter that is not empty. -/
def splitSequence (d : Bytes) (s : Bytes) : List Bytes := go (s.length + 1) s
where
  go : Nat → Bytes → List Bytes
    | 0, s => [s]
    | fuel + 1, s =>
      match indexOf d s with
      | none => [s]
      | some i => s.take i :: go fuel (s.drop (i + d.length))

/-- `std.ascii.toLower` -/
def toLower (c : UInt8) : UInt8 := if 65 ≤ c ∧ c ≤ 90 then c + 32 else c

/-- `std.ascii.eqlIgnoreCase` -/
def eqlIgnoreCase (a b : Bytes) : Bool := a.map toLower == b.map toLower

def isDecimal (c : UInt8) : Bool := 48 ≤ c && c ≤ 57

/-- The digits of `parseInt`, in base 10: `_` may stand between them. -/
def parseDigits (s : Bytes) : Option Nat :=
  if s = [] ∨ s.head? = some 95 ∨ s.getLast? = some 95 then none
  else
    let ds := s.filter (· != 95)
    if ds.all isDecimal then some (valueOf ds) else none

/-- `std.fmt.parseInt(T, s, 10)` for an integer type with the values
`lo .. hi`. -/
def parseInt (lo hi : Int) (s : Bytes) : Option Int :=
  let value : Option Int := match s with
    | 43 :: t => (parseDigits t).map fun n : Nat => (n : Int)
    | 45 :: t => (parseDigits t).map fun n : Nat => -(n : Int)
    | s => (parseDigits s).map fun n : Nat => (n : Int)
  value.bind fun z => if lo ≤ z ∧ z ≤ hi then some z else none

def parseU16 (s : Bytes) : Option UInt16 :=
  (parseInt 0 (2 ^ 16 - 1) s).map fun z => UInt16.ofNat z.toNat

def parseI64 (s : Bytes) : Option Int64 := (parseInt (-2 ^ 63) (2 ^ 63 - 1) s).map Int64.ofInt

def parseUsize (s : Bytes) : Option Nat := (parseInt 0 (2 ^ 64 - 1) s).map Int.toNat

/-! ## Trimming -/

theorem dropWhile_contains {cut s : Bytes} (h : ∀ x ∈ s, x ∉ cut) : s.dropWhile cut.contains = s := by
  cases s with
  | nil => rfl
  | cons x s =>
    rw [List.dropWhile_cons_of_neg]
    simpa using h x List.mem_cons_self

/-- Nothing to trim. -/
theorem trim_eq_self {cut s : Bytes} (h : ∀ x ∈ s, x ∉ cut) : trim cut s = s := by
  unfold trim
  rw [dropWhile_contains h, dropWhile_contains (fun x hx => h x (List.mem_reverse.mp hx)),
    List.reverse_reverse]

/-- Trimming on the right stops at an octet that stays. -/
theorem rdropWhile_append {cut s : Bytes} (t : Bytes) (hlast : ∀ x ∈ s.getLast?, x ∉ cut) :
    (s ++ t).rdropWhile cut.contains = s ++ t.rdropWhile cut.contains := by
  induction t using List.reverseRecOn with
  | nil =>
    rw [List.append_nil, List.rdropWhile_nil, List.append_nil, List.rdropWhile_eq_self_iff]
    intro hs
    simpa using hlast _ (List.getLast_mem_getLast? hs)
  | append_singleton t x ih =>
    rw [← List.append_assoc]
    by_cases hx : cut.contains x = true
    · rw [List.rdropWhile_concat_pos _ _ _ hx, List.rdropWhile_concat_pos _ _ _ hx, ih]
    · rw [List.rdropWhile_concat_neg _ _ _ hx, List.rdropWhile_concat_neg _ _ _ hx,
        List.append_assoc]

/-- Trimming takes the blanks in front of `core` and those at the end of what
follows it. -/
theorem trim_around {cut pre core : Bytes} (t : Bytes) (hpre : ∀ x ∈ pre, x ∈ cut)
    (hne : core ≠ []) (hhead : ∀ x ∈ core.head?, x ∉ cut) (hlast : ∀ x ∈ core.getLast?, x ∉ cut) :
    trim cut (pre ++ (core ++ t)) = core ++ t.rdropWhile cut.contains := by
  have hdrop : (pre ++ (core ++ t)).dropWhile cut.contains = core ++ t := by
    rw [List.dropWhile_append_of_pos (by simpa using hpre)]
    obtain ⟨x, core, rfl⟩ := List.exists_cons_of_ne_nil hne
    rw [List.cons_append, List.dropWhile_cons_of_neg]
    simpa using hhead x rfl
  rw [← rdropWhile_append t hlast, trim, hdrop]
  rfl

theorem rdropWhile_blank {cut s : Bytes} (h : ∀ x ∈ s, x ∈ cut) :
    s.rdropWhile cut.contains = [] := by
  rw [List.rdropWhile_eq_nil_iff]
  simpa using h

theorem trim_blank {cut s : Bytes} (h : ∀ x ∈ s, x ∈ cut) : trim cut s = [] := by
  have hdrop : s.dropWhile cut.contains = [] := by
    rw [List.dropWhile_eq_nil_iff]
    simpa using h
  rw [trim, hdrop]
  rfl

/-- `std.mem.indexOfScalar` of an octet behind others. -/
theorem idxOf_first {s : Bytes} {x : UInt8} (t : Bytes) (h : x ∉ s) :
    (s ++ x :: t).idxOf? x = some s.length := by
  induction s with
  | nil => simp [List.idxOf?_cons]
  | cons y s ih =>
    obtain ⟨hy, hs⟩ := not_or.mp (fun hm => h (List.mem_cons.mpr hm))
    rw [List.cons_append, List.idxOf?_cons, if_neg (by simpa using Ne.symm hy), ih hs]
    rfl

/-! ## Splitting at a sequence -/

theorem splitSequence_fuel {d : Bytes} (hd : 0 < d.length) {fuel : Nat} (fuel' : Nat) {s : Bytes}
    (h : s.length < fuel) (h' : s.length < fuel') :
    splitSequence.go d fuel s = splitSequence.go d fuel' s := by
  induction fuel generalizing fuel' s with
  | zero => omega
  | succ fuel ih =>
    cases fuel' with
    | zero => omega
    | succ fuel' =>
      simp only [splitSequence.go]
      split
      · rfl
      · rename_i i hi
        have hle : i + d.length ≤ s.length := by
          have h1 := (indexOf_eq_some hi).1.length_le
          have h2 := (indexOf_eq_some hi).2.1
          rw [List.length_drop] at h1; omega
        rw [ih fuel' (by rw [List.length_drop]; omega) (by rw [List.length_drop]; omega)]

theorem splitSequence_some {d s : Bytes} {i : Nat} (hd : 0 < d.length) (h : indexOf d s = some i) :
    splitSequence d s = s.take i :: splitSequence d (s.drop (i + d.length)) := by
  have hle : i + d.length ≤ s.length := by
    have h1 := (indexOf_eq_some h).1.length_le
    have h2 := (indexOf_eq_some h).2.1
    rw [List.length_drop] at h1; omega
  have e : splitSequence d s = splitSequence.go d (s.length + 1) s := rfl
  rw [e, splitSequence.go, h]
  simp only
  rw [splitSequence_fuel hd ((s.drop (i + d.length)).length + 1)
    (by rw [List.length_drop]; omega) (Nat.lt_succ_self _)]
  rfl

theorem eqlIgnoreCase_self (a : Bytes) : eqlIgnoreCase a a = true := by simp [eqlIgnoreCase]

/-! ## Reading back what was printed -/

theorem parseDigits_decimal (n : Nat) : parseDigits (decimal n) = some n := by
  have hdig : ∀ x ∈ decimal n, isDecimal x = true ∧ x ≠ 95 := by
    intro x hx
    obtain ⟨h1, h2⟩ := decimal_digits hx
    refine ⟨?_, ?_⟩
    · simp only [isDecimal, Bool.and_eq_true, decide_eq_true_eq, UInt8.le_iff_toNat_le]
      exact ⟨h1, h2⟩
    · intro hh
      subst hh
      revert h2; decide
  have hfil : (decimal n).filter (· != 95) = decimal n := by
    rw [List.filter_eq_self]
    intro x hx
    simpa using (hdig x hx).2
  have hhead : (decimal n).head? ≠ some 95 := fun h => (hdig 95 (List.mem_of_mem_head? h)).2 rfl
  have hlast : (decimal n).getLast? ≠ some 95 := fun h => (hdig 95 (List.mem_of_getLast? h)).2 rfl
  have hall : (decimal n).all isDecimal = true := List.all_eq_true.mpr fun x hx => (hdig x hx).1
  simp only [parseDigits, decimal_ne_nil n, hhead, hlast, or_self, if_false, hfil, hall, if_true,
    valueOf_decimal]

theorem parseInt_decimal {lo hi : Int} {n : Nat} (h : lo ≤ n ∧ n ≤ hi) :
    parseInt lo hi (decimal n) = some (n : Int) := by
  have hsign : ∀ x t, decimal n = x :: t → x ≠ 43 ∧ x ≠ 45 := by
    intro x t he
    obtain ⟨h1, -⟩ := decimal_digits (n := n) (c := x) (by rw [he]; exact List.mem_cons_self)
    refine ⟨?_, ?_⟩ <;> rintro rfl <;> revert h1 <;> decide
  unfold parseInt
  split
  · rename_i he; exact absurd rfl (hsign _ _ he).1
  · rename_i he; exact absurd rfl (hsign _ _ he).2
  · rw [parseDigits_decimal]
    simp [h]

/-- **`{d}` and back.** -/
theorem parseInt_decimalInt {lo hi z : Int} (h : lo ≤ z ∧ z ≤ hi) :
    parseInt lo hi (decimalInt z) = some z := by
  unfold decimalInt
  split
  · rename_i hz
    have e : -(z.natAbs : Int) = z := by omega
    simp only [parseInt, parseDigits_decimal, Option.map_some, Option.bind_some, e, h, and_self, if_true]
  · rename_i hz
    have e : (z.natAbs : Int) = z := by omega
    rw [parseInt_decimal (by rw [e]; exact h), e]

theorem parseU16_decimal {n : Nat} (h : n < 2 ^ 16) :
    parseU16 (decimal n) = some (UInt16.ofNat n) := by
  rw [parseU16, parseInt_decimal (by omega)]; rfl

theorem parseI64_decimalInt (k : Int64) : parseI64 (decimalInt k.toInt) = some k := by
  have h1 := k.toInt_lt; have h2 := k.le_toInt
  rw [parseI64, parseInt_decimalInt (by omega), Option.map_some, Int64.ofInt_toInt]

theorem parseUsize_decimal {n : Nat} (h : n < 2 ^ 64) : parseUsize (decimal n) = some n := by
  rw [parseUsize, parseInt_decimal (by omega)]; rfl

end HttpC.Text
