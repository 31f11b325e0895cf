import Mathlib.Algebra.BigOperators.Group.Finset.Basic
import Mathlib.Algebra.Order.BigOperators.Group.Finset
import Mathlib.Data.Fintype.BigOperators

/-!
# Counting agents

`tally w f` adds up a weight over all agents, each in its own state. An agent
that changes state changes the tally by the difference of its two weights
(`tally_update`), which is how every counting invariant of a system of agents
is kept.
-/
namespace HttpC

variable {ι σ : Type} [Fintype ι]

def tally (w : σ → Nat) (f : ι → σ) : Nat := ∑ i, w (f i)

theorem tally_update [DecidableEq ι] (w : σ → Nat) (f : ι → σ) (i : ι) (a : σ) :
    tally w (Function.update f i a) + w (f i) = tally w f + w a := by
  have hw : ∀ j, w (Function.update f i a j) = Function.update (fun j => w (f j)) i (w a) j :=
    fun j => Function.apply_update (fun _ => w) f i a j
  have hi := Finset.sum_eq_add_sum_sdiff_singleton_of_mem (Finset.mem_univ i) fun j => w (f j)
  simp only [tally, hw, Finset.sum_update_of_mem (Finset.mem_univ i)]
  omega

theorem le_tally (w : σ → Nat) (f : ι → σ) (i : ι) : w (f i) ≤ tally w f :=
  Finset.single_le_sum (f := fun j => w (f j)) (fun _ _ => Nat.zero_le _) (Finset.mem_univ i)

theorem tally_eq_zero {w : σ → Nat} {f : ι → σ} (h : ∀ i, w (f i) = 0) : tally w f = 0 :=
  Finset.sum_eq_zero fun i _ => h i

theorem exists_of_tally_pos {w : σ → Nat} {f : ι → σ} (h : 0 < tally w f) : ∃ i, 0 < w (f i) := by
  by_contra hn
  have hz : tally w f = 0 := tally_eq_zero fun i => Nat.eq_zero_of_not_pos fun hi => hn ⟨i, hi⟩
  omega

/-- When at most one agent can weigh anything, and this one does not, nobody
does. -/
theorem tally_eq_zero_of_alone {w v : σ → Nat} {f : ι → σ} {i : ι} (hle : ∀ a, w a ≤ v a)
    (hone : tally v f ≤ 1) (hv : v (f i) = 1) (hw : w (f i) = 0) : tally w f = 0 := by
  classical
  have hi := Finset.sum_eq_add_sum_sdiff_singleton_of_mem (Finset.mem_univ i) fun j => v (f j)
  have hrest : ∑ j ∈ Finset.univ \ {i}, v (f j) = 0 := by
    unfold tally at hone
    omega
  apply tally_eq_zero
  intro j
  by_cases hj : j = i
  · rw [hj]; exact hw
  · have hj0 := Finset.sum_eq_zero_iff.mp hrest j (by simpa using hj)
    have := hle (f j)
    omega

/-- Entries of a tagged list, by tag. -/
theorem count_snd_eq_sum [BEq ι] [LawfulBEq ι] {α : Type} [BEq α] [LawfulBEq α]
    (l : List (ι × α)) (x : α) : (l.map Prod.snd).count x = ∑ i, l.count (i, x) := by
  classical
  induction l with
  | nil => simp
  | cons e l ih =>
    obtain ⟨j, y⟩ := e
    have hj : ∑ i, (if (j, y) = (i, x) then 1 else 0) = if y = x then 1 else 0 := by
      by_cases hy : y = x <;> simp [hy]
    simp only [List.map_cons, List.count_cons, beq_iff_eq, Finset.sum_add_distrib, ih, hj]

end HttpC
