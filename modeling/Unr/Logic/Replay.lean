import Mathlib

/-!
A receiver that handles the messages of one sender in order.

Handling a message changes the state of the receiver and produces a list of
outputs; some messages are only meaningful in some states. The sender knows
what the receiver will do with everything it has sent, however much of it is
still on its way: the laws below are how the two sides are compared.
-/

namespace Unr.Logic

/-- What handling a message does, produces and asks for. -/
structure Handler (σ μ ο : Type) where
  step : σ → μ → σ
  out : σ → μ → List ο
  ok : σ → μ → Prop

namespace Handler

variable {σ μ ο : Type} (H : Handler σ μ ο)

def final (s : σ) (ms : List μ) : σ := ms.foldl H.step s

def outputs (s : σ) : List μ → List ο
  | [] => []
  | m :: ms => H.out s m ++ outputs (H.step s m) ms

/-- Every message is meaningful in the state it finds. -/
def Valid (s : σ) : List μ → Prop
  | [] => True
  | m :: ms => H.ok s m ∧ Valid (H.step s m) ms

@[simp] theorem final_nil (s : σ) : H.final s [] = s := rfl

@[simp] theorem outputs_nil (s : σ) : H.outputs s [] = [] := rfl

theorem final_append (s : σ) (ms ns : List μ) :
    H.final s (ms ++ ns) = H.final (H.final s ms) ns := List.foldl_append

@[simp] theorem final_concat (s : σ) (ms : List μ) (m : μ) :
    H.final s (ms ++ [m]) = H.step (H.final s ms) m := by
  rw [final_append]
  rfl

theorem outputs_append (s : σ) (ms ns : List μ) :
    H.outputs s (ms ++ ns) = H.outputs s ms ++ H.outputs (H.final s ms) ns := by
  induction ms generalizing s with
  | nil => rfl
  | cons m ms ih =>
      rw [List.cons_append, outputs, outputs, ih, List.append_assoc]
      rfl

@[simp] theorem outputs_concat (s : σ) (ms : List μ) (m : μ) :
    H.outputs s (ms ++ [m]) = H.outputs s ms ++ H.out (H.final s ms) m := by
  rw [outputs_append, outputs, outputs, List.append_nil]

theorem valid_append (s : σ) (ms ns : List μ) :
    H.Valid s (ms ++ ns) ↔ H.Valid s ms ∧ H.Valid (H.final s ms) ns := by
  induction ms generalizing s with
  | nil => simp [Valid]
  | cons m ms ih =>
      rw [List.cons_append, Valid, Valid, ih, and_assoc]
      rfl

@[simp] theorem valid_concat (s : σ) (ms : List μ) (m : μ) :
    H.Valid s (ms ++ [m]) ↔ H.Valid s ms ∧ H.ok (H.final s ms) m := by
  simp [valid_append, Valid]

theorem Valid.next {s : σ} {ms : List μ} {k : Nat} {m : μ} (h : H.Valid s ms)
    (hm : ms[k]? = some m) : H.ok (H.final s (ms.take k)) m := by
  obtain ⟨hk, rfl⟩ := List.getElem?_eq_some_iff.mp hm
  have hsplit : ms = ms.take k ++ ms[k] :: ms.drop (k + 1) := by
    rw [← List.drop_eq_getElem_cons hk, List.take_append_drop]
  rw [hsplit, valid_append] at h
  exact h.2.1

end Handler

end Unr.Logic
