import Mathlib.Data.Fintype.Basic
import Mathlib.Logic.Function.Basic

/-!
# Reader/writer locks

A lock table says which lock each agent holds, and how. `Ok` is what a correct
reader/writer lock keeps: two holders of one lock are both readers. An agent
may take a lock when it is `Free` for it.
-/
namespace HttpC.Flock

inductive Mode where
  | SH | EX
  deriving DecidableEq, Repr

variable {ι κ : Type}

def Ok (t : ι → Option (κ × Mode)) : Prop :=
  ∀ i j k m m', i ≠ j → t i = some (k, m) → t j = some (k, m') → m = .SH ∧ m' = .SH

/-- Agent `i` may take lock `k`. -/
def Free (t : ι → Option (κ × Mode)) (i : ι) (k : κ) : Mode → Prop
  | .SH => ∀ j, j ≠ i → t j ≠ some (k, .EX)
  | .EX => ∀ j, j ≠ i → t j ≠ some (k, .SH) ∧ t j ≠ some (k, .EX)

instance [Fintype ι] [DecidableEq ι] [DecidableEq κ] (t : ι → Option (κ × Mode)) (i : ι) (k : κ) :
    (m : Mode) → Decidable (Free t i k m)
  | .SH => inferInstanceAs (Decidable (∀ j, j ≠ i → t j ≠ some (k, .EX)))
  | .EX => inferInstanceAs (Decidable (∀ j, j ≠ i → t j ≠ some (k, .SH) ∧ t j ≠ some (k, .EX)))

/-- What counts is who else holds the lock, not what it is called. -/
theorem free_congr_key {κ' : Type} {t : ι → Option (κ × Mode)} {t' : ι → Option (κ' × Mode)}
    {k : κ} {k' : κ'} (h : ∀ j m, t j = some (k, m) ↔ t' j = some (k', m)) (i : ι) (m : Mode) :
    Free t i k m ↔ Free t' i k' m := by
  cases m with
  | SH => simp only [Free, ne_eq, h]
  | EX => simp only [Free, ne_eq, h]

variable [DecidableEq ι] {t : ι → Option (κ × Mode)} {i : ι} {k : κ}

theorem Ok.acquire {m : Mode} (h : Ok t) (hf : Free t i k m) :
    Ok (Function.update t i (some (k, m))) := by
  -- no other holder conflicts with the new one, on either side
  have key : ∀ j m', j ≠ i → t j = some (k, m') → m = .SH ∧ m' = .SH := by
    intro j m' hj ht
    cases m with
    | SH =>
      cases m' with
      | SH => exact ⟨rfl, rfl⟩
      | EX => exact absurd ht (hf j hj)
    | EX =>
      cases m' with
      | SH => exact absurd ht (hf j hj).1
      | EX => exact absurd ht (hf j hj).2
  intro a b k' m₁ m₂ hab ha hb
  by_cases hai : a = i
  · subst hai
    rw [Function.update_self, Option.some.injEq, Prod.mk.injEq] at ha
    rw [Function.update_of_ne (Ne.symm hab)] at hb
    obtain ⟨rfl, rfl⟩ := ha
    exact key b m₂ (Ne.symm hab) hb
  · rw [Function.update_of_ne hai] at ha
    by_cases hbi : b = i
    · subst hbi
      rw [Function.update_self, Option.some.injEq, Prod.mk.injEq] at hb
      obtain ⟨rfl, rfl⟩ := hb
      exact (key a m₁ hai ha).symm
    · rw [Function.update_of_ne hbi] at hb
      exact h a b k' m₁ m₂ hab ha hb

theorem Ok.release (h : Ok t) : Ok (Function.update t i none) := by
  intro a b k' m₁ m₂ hab ha hb
  by_cases hai : a = i
  · subst hai; simp at ha
  · by_cases hbi : b = i
    · subst hbi; simp at hb
    · rw [Function.update_of_ne hai] at ha
      rw [Function.update_of_ne hbi] at hb
      exact h a b k' m₁ m₂ hab ha hb

/-- A writer is alone. -/
theorem Ok.alone {j : ι} {m : Mode} (h : Ok t) (hi : t i = some (k, .EX)) (hj : t j = some (k, m)) :
    j = i := by
  by_contra hne
  have := (h i j k .EX m (Ne.symm hne) hi hj).1
  cases this

end HttpC.Flock
