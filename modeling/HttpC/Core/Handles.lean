import Mathlib.Logic.Function.Basic

/-!
# Handles

Small integers that somebody else hands out and takes back. `opened x` is what
the number `x` was opened for, `var k` the number that `k` holds. `close` frees
the number in the variable, whoever opened it, so that it can close a stranger's
once the two sides disagree. They never do when every number taken is free and
goes to a variable that holds none (`Exact`).
-/
namespace HttpC.Handles

structure Table (K : Type) where
  opened : Int → Option K
  var : K → Option Int

namespace Table
variable {K : Type}

def empty : Table K := ⟨fun _ => none, fun _ => none⟩

/-- Both sides say the same. -/
def Exact (T : Table K) : Prop := ∀ x k, T.opened x = some k ↔ T.var k = some x

theorem exact_empty : (empty : Table K).Exact := by
  intro x k
  simp [empty]

variable [DecidableEq K]

def take (T : Table K) (k : K) (x : Int) : Table K :=
  ⟨Function.update T.opened x (some k), Function.update T.var k (some x)⟩

def close (T : Table K) (k : K) : Table K :=
  match T.var k with
  | none => T
  | some x => ⟨Function.update T.opened x none, Function.update T.var k none⟩

variable {T : Table K} {k j : K} {x y : Int}

theorem take_var : (T.take k x).var k = some x := Function.update_self ..

theorem take_var_of_ne (h : j ≠ k) : (T.take k x).var j = T.var j := Function.update_of_ne h ..

theorem close_var : (T.close k).var k = none := by
  unfold close
  split
  · rename_i h; exact h
  · exact Function.update_self ..

theorem close_var_of_ne (h : j ≠ k) : (T.close k).var j = T.var j := by
  unfold close
  split
  · rfl
  · exact Function.update_of_ne h ..

theorem take_opened_of_ne (h : y ≠ x) : (T.take k x).opened y = T.opened y :=
  Function.update_of_ne h ..

/-- `close` opens nothing. -/
theorem close_opened (h : T.opened y = none) : (T.close k).opened y = none := by
  unfold close
  split
  · exact h
  · rename_i x _
    by_cases hy : y = x
    · subst hy; exact Function.update_self ..
    · rw [← h]; exact Function.update_of_ne hy ..

theorem Exact.take (h : T.Exact) (hk : T.var k = none) (hx : T.opened x = none) :
    (T.take k x).Exact := by
  intro y j
  by_cases hj : j = k
  · subst hj
    by_cases hy : y = x
    · subst hy; simp [Table.take]
    · rw [take_opened_of_ne hy, take_var, h, hk]
      simp [Ne.symm hy]
  · rw [take_var_of_ne hj]
    by_cases hy : y = x
    · subst hy
      have hno : T.var j ≠ some y := fun hv => by rw [(h y j).mpr hv] at hx; cases hx
      simp [Table.take, Ne.symm hj, hno]
    · rw [take_opened_of_ne hy, h]

theorem Exact.close (h : T.Exact) : (T.close k).Exact := by
  unfold Table.close
  split
  · exact h
  · rename_i x hx
    have hown := (h x k).mpr hx
    intro y j
    simp only
    by_cases hy : y = x
    · subst hy
      by_cases hj : j = k
      · subst hj; simp
      · rw [Function.update_self, Function.update_of_ne hj, ← h, hown]
        simp [Ne.symm hj]
    · by_cases hj : j = k
      · subst hj
        rw [Function.update_of_ne hy, Function.update_self, h, hx]
        simp [Ne.symm hy]
      · rw [Function.update_of_ne hy, Function.update_of_ne hj, h]

end Table

end HttpC.Handles
