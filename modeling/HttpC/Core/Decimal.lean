import Mathlib.Algebra.Group.Int.Defs
import Mathlib.Algebra.Group.Nat.Defs
import Mathlib.Data.Nat.Basic
import HttpC.Core.Bytes

/-!
# Decimal text

`%d` of a number and its value again. The digits are those of `Nat.repr`;
`valueOf` is the left-to-right accumulation every C digit loop does.
-/
namespace HttpC

/-- `%d` of an unsigned value. -/
def decimal (n : Nat) : Bytes := ascii n.repr

/-- `%d` of a signed value. -/
def decimalInt (z : Int) : Bytes := if z < 0 then 45 :: decimal z.natAbs else decimal z.natAbs

/-- The value of a digit string. -/
def valueOf (ds : Bytes) : Nat := ds.foldl (fun a c => a * 10 + (c.toNat - 48)) 0

theorem decimal_eq (n : Nat) :
    decimal n = (Nat.toDigits 10 n).map fun c => UInt8.ofNat c.toNat := by
  simp only [decimal, ascii, Nat.toList_repr]

theorem decimal_ne_nil (n : Nat) : decimal n ≠ [] := by
  simp [decimal_eq, Nat.toDigits_ne_nil]

theorem toNat_of_isDigit {c : Char} (h : c.isDigit = true) :
    48 ≤ c.toNat ∧ c.toNat ≤ 57 := by
  simp only [Char.isDigit, Bool.and_eq_true, decide_eq_true_eq] at h
  exact ⟨by have := UInt32.le_iff_toNat_le.mp h.1; simpa using this,
    by have := UInt32.le_iff_toNat_le.mp h.2; simpa using this⟩

theorem decimal_digits {n : Nat} {c : UInt8} (h : c ∈ decimal n) : 48 ≤ c.toNat ∧ c.toNat ≤ 57 := by
  rw [decimal_eq, List.mem_map] at h
  obtain ⟨d, hd, rfl⟩ := h
  obtain ⟨h1, h2⟩ := toNat_of_isDigit (Nat.isDigit_of_mem_toDigits (by decide) (by decide) hd)
  rw [UInt8.toNat_ofNat_of_lt' (by unfold UInt8.size; omega)]
  exact ⟨h1, h2⟩

theorem decimal_length_le {n k : Nat} (hk : 0 < k) (h : n < 10 ^ k) : (decimal n).length ≤ k := by
  rw [decimal_eq, List.length_map]
  exact (Nat.length_toDigits_le_iff (by decide) hk).mpr h

/-- **Round trip.** -/
theorem valueOf_decimal (n : Nat) : valueOf (decimal n) = n := by
  have key : ∀ (l : List Char) (a : Nat), (∀ c ∈ l, c.isDigit = true) →
      (l.map fun c => UInt8.ofNat c.toNat).foldl (fun a c => a * 10 + (c.toNat - 48)) a =
        Nat.ofDigitChars 10 l a := by
    intro l
    induction l with
    | nil => intro a _; rfl
    | cons c l ih =>
      intro a hl
      obtain ⟨hc, hl⟩ := List.forall_mem_cons.mp hl
      obtain ⟨h1, h2⟩ := toNat_of_isDigit hc
      rw [List.map_cons, List.foldl_cons, UInt8.toNat_ofNat_of_lt' (by unfold UInt8.size; omega), ih _ hl,
        Nat.ofDigitChars_cons, Nat.mul_comm]
      rfl
  rw [valueOf, decimal_eq, key _ _ fun c hc =>
    Nat.isDigit_of_mem_toDigits (by decide) (by decide) hc]
  exact Nat.ofDigitChars_ten_toDigits

end HttpC
