import Mathlib.Logic.Basic

/-!
# Labelled transition systems

A system is a set of initial states and a labelled step relation. `Run` keeps
the labels, so a property of *which* steps were taken (no failing call, no
aliased name) is a property of the label list. `Inductive` is the usual
invariant rule: true initially, kept by every step, so true of every
reachable state; `Run.keeps` is the same rule relative to a condition on the
labels of one run.
-/
namespace HttpC

structure LTS (S L : Type) where
  init : S → Prop
  step : S → L → S → Prop

namespace LTS
variable {S L : Type}

/-- A finite run, first step first. -/
inductive Run (T : LTS S L) : S → List L → S → Prop where
  | nil (s : S) : Run T s [] s
  | cons {s s₁ s₂ : S} {l : L} {ls : List L} :
      T.step s l s₁ → Run T s₁ ls s₂ → Run T s (l :: ls) s₂

def Reachable (T : LTS S L) (s : S) : Prop := ∃ s₀ ls, T.init s₀ ∧ T.Run s₀ ls s

/-- The system of a partial step function. -/
def ofFn (init : S → Prop) (f : S → L → Option S) : LTS S L where
  init := init
  step s l s' := f s l = some s'

structure Inductive (T : LTS S L) (P : S → Prop) : Prop where
  init : ∀ s, T.init s → P s
  step : ∀ s l s', P s → T.step s l s' → P s'

variable {T : LTS S L}

theorem Run.append {s t u : S} {ls ms : List L} (h : T.Run s ls t) (h' : T.Run t ms u) :
    T.Run s (ls ++ ms) u := by
  induction h with
  | nil => exact h'
  | cons hs _ ih => exact .cons hs (ih h')

theorem Run.single {s t : S} {l : L} (h : T.step s l t) : T.Run s [l] t := .cons h (.nil t)

/-- A property kept by every step whose label satisfies `C` is kept by every
run all of whose labels do. -/
theorem Run.keeps {P : S → Prop} {C : L → Prop}
    (hP : ∀ s l s', C l → P s → T.step s l s' → P s') {s t : S} {ls : List L}
    (h : T.Run s ls t) (hC : ∀ l ∈ ls, C l) (hs : P s) : P t := by
  induction h with
  | nil => exact hs
  | cons hst _ ih =>
    exact ih (fun l hl => hC l (List.mem_cons_of_mem _ hl))
      (hP _ _ _ (hC _ List.mem_cons_self) hs hst)

theorem Inductive.run {P : S → Prop} (hI : T.Inductive P) {s t : S} {ls : List L}
    (h : T.Run s ls t) (hs : P s) : P t :=
  h.keeps (C := fun _ => True) (fun s l s' _ hp hst => hI.step s l s' hp hst)
    (fun _ _ => trivial) hs

theorem Inductive.reachable {P : S → Prop} (hI : T.Inductive P) (s : S) (h : T.Reachable s) :
    P s := by
  obtain ⟨s₀, ls, h0, hr⟩ := h
  exact hI.run hr (hI.init s₀ h0)

theorem Reachable.step {s t : S} {l : L} (h : T.Reachable s) (hst : T.step s l t) :
    T.Reachable t := by
  obtain ⟨s₀, ls, h0, hr⟩ := h
  exact ⟨s₀, ls ++ [l], h0, hr.append (.single hst)⟩

theorem Reachable.run {s t : S} {ls : List L} (h : T.Reachable s) (hr : T.Run s ls t) :
    T.Reachable t := by
  obtain ⟨s₀, ms, h0, hr₀⟩ := h
  exact ⟨s₀, ms ++ ls, h0, hr₀.append hr⟩

/-- With one label, a state without a step is the only one of its kind a run
can end in. -/
theorem Run.stuck_unique {init : S → Prop} {f : S → L → Option S} [Subsingleton L] {s t u : S}
    {ls ms : List L} (h : (ofFn init f).Run s ls t) (h' : (ofFn init f).Run s ms u)
    (ht : ∀ l, f t l = none) (hu : ∀ l, f u l = none) : t = u := by
  induction h generalizing ms with
  | nil s =>
    cases h' with
    | nil => rfl
    | cons hst _ =>
      have hst : f s _ = some _ := hst
      rw [ht] at hst; cases hst
  | @cons s s₁ s₂ l ls hst _ ih =>
    have hst : f s l = some s₁ := hst
    cases h' with
    | nil => rw [hu] at hst; cases hst
    | @cons _ s₁' _ l' _ hst' hr' =>
      have hst' : f s l' = some s₁' := hst'
      obtain rfl : l = l' := Subsingleton.elim _ _
      rw [hst, Option.some.injEq] at hst'
      subst hst'
      exact ih hr' ht

/-- Following the step function along a label list. -/
def exec (f : S → L → Option S) : S → List L → Option S
  | s, [] => some s
  | s, l :: ls => (f s l).bind fun s' => exec f s' ls

theorem run_of_exec {init : S → Prop} {f : S → L → Option S} :
    ∀ (ls : List L) (s t : S), exec f s ls = some t → (ofFn init f).Run s ls t
  | [], s, t, h => by
    simp only [exec, Option.some.injEq] at h; subst h; exact .nil s
  | l :: ls, s, t, h => by
    simp only [exec, Option.bind_eq_some_iff] at h
    obtain ⟨s₁, h₁, h₂⟩ := h
    exact .cons h₁ (run_of_exec ls s₁ t h₂)

end LTS

-- a constant, so that the index of a system's only thread is one term in every module
instance neZeroOne : @NeZero Nat Zero.ofOfNat0 1 := ⟨Nat.one_ne_zero⟩

end HttpC
