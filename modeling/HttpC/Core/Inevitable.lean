import Mathlib.Order.WellFounded
import HttpC.Core.LTS

/-!
# Runs that end

`Inevitable T Q s`: whichever way the system goes on from `s`, it gets to a
state with `Q` after finitely many steps, and it is never stuck before. The
rule to prove it (`Inevitable.of_rank`) asks for an invariant, a rank in a
well-founded order that every step lowers, and a step from every state that
is not yet there. No assumption on the scheduler is made.
-/
namespace HttpC.LTS
variable {S L : Type}

inductive Inevitable (T : LTS S L) (Q : S → Prop) : S → Prop where
  | here {s : S} : Q s → Inevitable T Q s
  | later {s : S} : (∃ l s', T.step s l s') →
      (∀ l s', T.step s l s' → Inevitable T Q s') → Inevitable T Q s

/-- The steps whose label satisfies `C`. -/
def only (T : LTS S L) (C : L → Prop) : LTS S L where
  init := T.init
  step s l s' := C l ∧ T.step s l s'

variable {T : LTS S L} {P Q : S → Prop}

theorem Inevitable.of_rank {R : Type} [Preorder R] [WellFoundedLT R] (rank : S → R)
    (hkeep : ∀ s l s', P s → T.step s l s' → P s')
    (hlt : ∀ s l s', P s → T.step s l s' → rank s' < rank s)
    (hgo : ∀ s, P s → ¬ Q s → ∃ l s', T.step s l s') {s : S} (hs : P s) : Inevitable T Q s := by
  induction hr : rank s using WellFoundedLT.induction generalizing s with
  | ind r ih =>
    subst hr
    by_cases hq : Q s
    · exact .here hq
    · refine .later (hgo s hs hq) fun l s' hst => ?_
      exact ih _ (hlt s l s' hs hst) (hkeep s l s' hs hst) rfl

/-- Some run gets there. -/
theorem Inevitable.run {s : S} (h : Inevitable T Q s) : ∃ ls t, T.Run s ls t ∧ Q t := by
  induction h with
  | here hq => exact ⟨[], _, .nil _, hq⟩
  | later he _ ih =>
    obtain ⟨l, s', hst⟩ := he
    obtain ⟨ls, t, hr, hq⟩ := ih l s' hst
    exact ⟨l :: ls, t, .cons hst hr, hq⟩

theorem Inevitable.mono {Q' : S → Prop} {s : S} (h : Inevitable T Q s) (hQ : ∀ s, Q s → Q' s) :
    Inevitable T Q' s := by
  induction h with
  | here hq => exact .here (hQ _ hq)
  | later he _ ih => exact .later he ih

/-- What every step keeps holds where it gets. -/
theorem Inevitable.and {s : S} (h : Inevitable T Q s) (hkeep : ∀ s l s', P s → T.step s l s' → P s')
    (hs : P s) : Inevitable T (fun s => Q s ∧ P s) s := by
  induction h with
  | here hq => exact .here ⟨hq, hs⟩
  | later he _ ih => exact .later he fun l s' hst => ih l s' hst (hkeep _ l s' hs hst)

end HttpC.LTS
