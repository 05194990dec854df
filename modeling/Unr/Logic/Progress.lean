import Unr.Logic.Transition

/-!
Runs that come to an end.

If every step of a kind makes a measure smaller, a run of such steps is no
longer than the measure of the state it starts in, and it can be continued
until no step of the kind is possible. What such a state looks like is then a
question about single states.
-/

namespace Unr.Logic

variable {σ α : Type} {step : σ → α → Option σ} {C : σ → α → Prop} {s t u : σ} {n : Nat}

inductive Steps (step : σ → α → Option σ) (C : σ → α → Prop) (s : σ) : Nat → σ → Prop
  | nil : Steps step C s 0 s
  | snoc {n : Nat} {t u : σ} {a : α} : Steps step C s n t → C t a → step t a = some u →
      Steps step C s (n + 1) u

def Stuck (step : σ → α → Option σ) (C : σ → α → Prop) (s : σ) : Prop :=
  ∀ a, C s a → step s a = none

theorem Run.steps (h : Run step C s t) : ∃ n, Steps step C s n t := by
  induction h with
  | nil => exact ⟨0, .nil⟩
  | snoc _ hC hs ih =>
      obtain ⟨n, hn⟩ := ih
      exact ⟨n + 1, .snoc hn hC hs⟩

theorem Run.trans (h : Run step C s t) (h' : Run step C t u) : Run step C s u := by
  induction h' with
  | nil => exact h
  | snoc _ hC hs ih => exact .snoc ih hC hs

section Measure

variable {I : σ → Prop} {μ : σ → Nat}
  (hdec : ∀ t a u, I t → C t a → step t a = some u → I u ∧ μ u < μ t)

include hdec

/-- Every step is paid for by the measure. -/
theorem Steps.measure (hinit : I s) (h : Steps step C s n t) : I t ∧ μ t + n ≤ μ s := by
  induction h with
  | nil => exact ⟨hinit, Nat.le_refl _⟩
  | snoc _ hC hs ih =>
      obtain ⟨hI, hle⟩ := ih
      obtain ⟨hI', hlt⟩ := hdec _ _ _ hI hC hs
      exact ⟨hI', by omega⟩

theorem exists_stuck (hinit : I s) : ∃ t, Run step C s t ∧ Stuck step C t := by
  induction hm : μ s using Nat.strong_induction_on generalizing s with
  | h m ih =>
      by_cases hstuck : Stuck step C s
      · exact ⟨s, .nil, hstuck⟩
      · simp only [Stuck, not_forall] at hstuck
        obtain ⟨a, hC, hsome⟩ := hstuck
        obtain ⟨t, ht⟩ := Option.ne_none_iff_exists'.mp hsome
        obtain ⟨hI, hlt⟩ := hdec s a t hinit hC ht
        obtain ⟨u, hrun, hend⟩ := ih (μ t) (hm ▸ hlt) hI rfl
        exact ⟨u, (Run.snoc .nil hC ht).trans hrun, hend⟩

end Measure

end Unr.Logic
