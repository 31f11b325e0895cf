import Mathlib.Data.List.Infix
import Mathlib.Data.List.Basic

/-!
# Byte strings

Octet lists, the C-string view of a buffer (`cstr`: everything before the
first NUL) and substring search (`indexOf`, the first occurrence).
-/
namespace HttpC

abbrev Bytes := List UInt8

/-- The octets of an ASCII literal. -/
def ascii (s : String) : Bytes := s.toList.map fun c => UInt8.ofNat c.toNat

/-- What a C string function sees of a buffer. -/
def cstr (s : Bytes) : Bytes := s.takeWhile (· != 0)

/-- Index of the first occurrence of `n`. -/
def indexOf (n : Bytes) : Bytes → Option Nat
  | [] => if n = [] then some 0 else none
  | x :: s => if n <+: x :: s then some 0 else (indexOf n s).map (· + 1)

theorem cstr_append_of_mem {a : Bytes} (b : Bytes) (h : (0 : UInt8) ∈ a) :
    cstr (a ++ b) = cstr a := by
  induction a with
  | nil => cases h
  | cons x a ih =>
    by_cases hx : x = 0
    · subst hx; simp [cstr]
    · have h0 : (0 : UInt8) ∈ a := by
        rcases List.mem_cons.mp h with h | h
        · exact absurd h.symm hx
        · exact h
      have := ih h0
      simp only [cstr, List.cons_append, List.takeWhile_cons] at this ⊢
      simp only [bne_iff_ne, ne_eq, hx, not_false_eq_true, ↓reduceIte, this]

theorem cstr_append_of_not_mem {a : Bytes} (b : Bytes) (h : (0 : UInt8) ∉ a) :
    cstr (a ++ b) = a ++ cstr b := by
  unfold cstr
  rw [List.takeWhile_append_of_pos]
  intro x hx
  rw [bne_iff_ne]
  rintro rfl; exact h hx

theorem cstr_eq_self {a : Bytes} (h : (0 : UInt8) ∉ a) : cstr a = a := by
  have := cstr_append_of_not_mem [] h
  simpa [cstr] using this

theorem not_mem_cstr (a : Bytes) : (0 : UInt8) ∉ cstr a := by
  intro h
  have := List.all_takeWhile (p := (· != 0)) (l := a)
  simpa using List.all_eq_true.mp this 0 h

theorem cstr_initial (a : Bytes) : cstr a <+: a := List.takeWhile_prefix _

theorem indexOf_isSome_iff (n s : Bytes) : (indexOf n s).isSome = true ↔ n <:+: s := by
  induction s with
  | nil => simp only [indexOf]; split <;> simp_all
  | cons x s ih =>
    simp only [indexOf, List.infix_cons_iff]
    split
    · simp_all
    · rename_i h; simp [h, ih]

theorem indexOf_eq_some {n s : Bytes} {i : Nat} (h : indexOf n s = some i) :
    n <+: s.drop i ∧ i ≤ s.length ∧ ∀ j < i, ¬ n <+: s.drop j := by
  induction s generalizing i with
  | nil =>
    simp only [indexOf] at h
    split at h
    · cases h; simp_all
    · cases h
  | cons x s ih =>
    simp only [indexOf] at h
    split at h
    · cases h; simp_all
    · rename_i hp
      obtain ⟨k, hk, rfl⟩ := Option.map_eq_some_iff.mp h
      obtain ⟨h1, h2, h3⟩ := ih hk
      refine ⟨by simpa using h1, by simpa using h2, fun j hj => ?_⟩
      cases j with
      | zero => simpa using hp
      | succ j => simpa using h3 j (by omega)

theorem indexOf_eq_of_first {n s : Bytes} {i : Nat} (h : n <+: s.drop i)
    (hmin : ∀ j < i, ¬ n <+: s.drop j) (hi : i ≤ s.length) : indexOf n s = some i := by
  induction s generalizing i with
  | nil =>
    obtain rfl : i = 0 := by simpa using hi
    simp only [List.drop_nil, List.prefix_nil] at h
    simp [indexOf, h]
  | cons x s ih =>
    cases i with
    | zero => simp only [List.drop_zero] at h; simp [indexOf, h]
    | succ i =>
      have h0 : ¬ n <+: x :: s := by simpa using hmin 0 (Nat.succ_pos i)
      have := ih (by simpa using h) (fun j hj => by simpa using hmin (j + 1) (by omega))
        (by simpa using hi)
      simp [indexOf, h0, this]

end HttpC
