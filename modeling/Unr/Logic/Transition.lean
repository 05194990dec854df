import Mathlib

/-!
Runs of a deterministic step function with labelled, possibly disabled steps.

`step s a` is `none` when the label `a` is not enabled in `s`. A run may be
restricted by a condition on its steps, which sees the state before the step
and the label; the unrestricted runs are those whose condition is always true.
-/

namespace Unr.Logic

variable {σ α : Type}

/-- The states reached from `s` by steps that all satisfy `C`. -/
inductive Run (step : σ → α → Option σ) (C : σ → α → Prop) (s : σ) : σ → Prop
  | nil : Run step C s s
  | snoc {t u : σ} {a : α} : Run step C s t → C t a → step t a = some u → Run step C s u

variable {step : σ → α → Option σ} {C D : σ → α → Prop} {s t u : σ}

/-- The rule for invariants. The step may use that the state before it is
itself reached. -/
theorem Run.invariant {I : σ → Prop} (hinit : I s)
    (hstep : ∀ t a u, Run step C s t → I t → C t a → step t a = some u → I u)
    (hrun : Run step C s t) : I t := by
  induction hrun with
  | nil => exact hinit
  | snoc hrun hC hs ih => exact hstep _ _ _ hrun ih hC hs

theorem Run.mono (himp : ∀ t a, C t a → D t a) (hrun : Run step C s t) : Run step D s t := by
  induction hrun with
  | nil => exact .nil
  | snoc _ hC hs ih => exact .snoc ih (himp _ _ hC) hs

/-- The state after a list of labels, if all of them are enabled and meet the
condition. -/
def exec (step : σ → α → Option σ) (C : σ → α → Bool) (s : σ) : List α → Option σ
  | [] => some s
  | a :: as => if C s a then (step s a).bind fun t => exec step C t as else none

theorem Run.of_exec {C : σ → α → Bool} {as : List α} (h : exec step C s as = some t) :
    Run step (fun s a => C s a = true) s t := by
  have key : ∀ {as : List α} {u : σ}, Run step (fun s a => C s a = true) s u →
      exec step C u as = some t → Run step (fun s a => C s a = true) s t := by
    intro as
    induction as with
    | nil =>
        intro u hrun h
        cases h
        exact hrun
    | cons a as ih =>
        intro u hrun h
        simp only [exec, Option.ite_none_right_eq_some] at h
        obtain ⟨hC, h⟩ := h
        obtain ⟨v, hv, hrest⟩ := Option.bind_eq_some_iff.mp h
        exact ih (.snoc hrun hC hv) hrest
  exact key .nil h

/-! ### What the steps report -/

/-- The states reached from `s`, each with everything that the steps to it have
reported. -/
inductive Recorded {ε : Type} (step : σ → α → Option σ) (report : σ → α → List ε) (s : σ) :
    List ε → σ → Prop
  | nil : Recorded step report s [] s
  | snoc {es : List ε} {t u : σ} {a : α} : Recorded step report s es t → step t a = some u →
      Recorded step report s (es ++ report t a) u

section Recorded

variable {ε : Type} {report : σ → α → List ε} {es : List ε}

theorem Recorded.run (h : Recorded step report s es t) : Run step (fun _ _ => True) s t := by
  induction h with
  | nil => exact .nil
  | snoc _ hs ih => exact .snoc ih trivial hs

/-- The rule for invariants that relate the state to the record. -/
theorem Recorded.invariant {I : List ε → σ → Prop} (hinit : I [] s)
    (hstep : ∀ es t a u, Recorded step report s es t → I es t → step t a = some u →
      I (es ++ report t a) u)
    (h : Recorded step report s es t) : I es t := by
  induction h with
  | nil => exact hinit
  | snoc hrun hs ih => exact hstep _ _ _ _ hrun ih hs

def record (step : σ → α → Option σ) (report : σ → α → List ε) (s : σ) :
    List α → Option (List ε × σ)
  | [] => some ([], s)
  | a :: as => (step s a).bind fun t =>
      (record step report t as).map fun r => (report s a ++ r.1, r.2)

theorem Recorded.of_record {as : List α} (h : record step report s as = some (es, t)) :
    Recorded step report s es t := by
  have key : ∀ {as : List α} {u : σ} {es₀ es : List ε}, Recorded step report s es₀ u →
      record step report u as = some (es, t) → Recorded step report s (es₀ ++ es) t := by
    intro as
    induction as with
    | nil =>
        intro u es₀ es hrun h
        cases h
        rwa [List.append_nil]
    | cons a as ih =>
        intro u es₀ es hrun h
        obtain ⟨v, hv, hrest⟩ := Option.bind_eq_some_iff.mp h
        obtain ⟨⟨es', t'⟩, hrec, heq⟩ := Option.map_eq_some_iff.mp hrest
        cases heq
        rw [← List.append_assoc]
        exact ih (.snoc hrun hv) hrec
  exact key .nil h

end Recorded

/-! ### The reports of one party -/

section Located

variable {ε : Type}

/-- What the parties of a system report, restricted to party `q`. -/
def located (q : Nat) (es : List (Nat × ε)) : List ε :=
  es.filterMap fun x => if x.1 = q then some x.2 else none

@[simp] theorem located_append {q : Nat} {es es' : List (Nat × ε)} :
    located q (es ++ es') = located q es ++ located q es' :=
  List.filterMap_append

@[simp] theorem located_map_self {rank : Nat} (evs : List ε) :
    located rank (evs.map (rank, ·)) = evs := by
  simp [located]

theorem located_map_of_ne {rank q : Nat} (h : rank ≠ q) (evs : List ε) :
    located q (evs.map (rank, ·)) = [] := by
  simp [located, h]

end Located

end Unr.Logic
