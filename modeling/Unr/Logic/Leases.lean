import Mathlib

/-!
Things that are handed out and given back.

What is handed out has a key, and nothing is handed out while something with
the same key is. The whole history then determines what is out, and the events
about one key are hand-outs and returns in turn.
-/

namespace Unr.Logic

inductive LeaseEvent (κ : Type)
  | take (x : κ)
  | give (x : κ)
  deriving Repr, DecidableEq

def LeaseEvent.item {κ : Type} : LeaseEvent κ → κ
  | take x | give x => x

variable {κ ι : Type} {key : κ → ι}

/-- The events that have happened and what is out after them, in any order. -/
inductive Leases (key : κ → ι) : List (LeaseEvent κ) → List κ → Prop
  | nil : Leases key [] []
  | take {es : List (LeaseEvent κ)} {held held' : List κ} {x : κ} (h : Leases key es held)
      (hfresh : key x ∉ held.map key) (hperm : (x :: held).Perm held') :
      Leases key (es ++ [.take x]) held'
  | give {es : List (LeaseEvent κ)} {held held' : List κ} {x : κ} (h : Leases key es held)
      (hperm : held.Perm (x :: held')) : Leases key (es ++ [.give x]) held'

/-- The events about one key in order: what is out under it after them, or
nothing if they are not hand-outs and returns of the same thing in turn. -/
def life [DecidableEq κ] : Option κ → List (LeaseEvent κ) → Option (Option κ)
  | out, [] => some out
  | none, .take x :: es => life (some x) es
  | some x, .give y :: es => if x = y then life none es else none
  | none, .give _ :: _ => none
  | some _, .take _ :: _ => none

theorem life_append [DecidableEq κ] (out : Option κ) (es es' : List (LeaseEvent κ)) :
    life out (es ++ es') = (life out es).bind fun out => life out es' := by
  induction es generalizing out with
  | nil => rfl
  | cons e es ih =>
      cases out with
      | none =>
          cases e with
          | take x => exact ih (some x)
          | give x => rfl
      | some x =>
          cases e with
          | take y => rfl
          | give y =>
              simp only [List.cons_append, life]
              split
              · exact ih none
              · rfl

theorem find?_key_eq_some [DecidableEq ι] {xs : List κ} (hnodup : (xs.map key).Nodup) {i : ι}
    {x : κ} : xs.find? (key · = i) = some x ↔ x ∈ xs ∧ key x = i := by
  constructor
  · intro h
    exact ⟨List.mem_of_find?_eq_some h, by simpa using List.find?_some h⟩
  · induction xs with
    | nil => exact fun h => nomatch h.1
    | cons y ys ih =>
        rw [List.map_cons, List.nodup_cons] at hnodup
        rintro ⟨hmem, hkey⟩
        rcases List.mem_cons.mp hmem with rfl | hmem
        · simp [hkey]
        · have hne : key y ≠ i := fun heq =>
            hnodup.1 (heq.trans hkey.symm ▸ List.mem_map_of_mem hmem)
          simpa [hne] using ih hnodup.2 ⟨hmem, hkey⟩

theorem find?_key_perm [DecidableEq ι] {xs ys : List κ} (hnodup : (xs.map key).Nodup)
    (hperm : xs.Perm ys) (i : ι) : xs.find? (key · = i) = ys.find? (key · = i) := by
  have hnodup' : (ys.map key).Nodup := (hperm.map key).nodup_iff.mp hnodup
  ext x
  rw [find?_key_eq_some hnodup, find?_key_eq_some hnodup', hperm.mem_iff]

namespace Leases

variable {es : List (LeaseEvent κ)} {held held' : List κ}

theorem of_perm (h : Leases key es held) (hperm : held.Perm held') : Leases key es held' := by
  cases h with
  | nil => exact hperm.nil_eq ▸ .nil
  | take h hfresh hheld => exact .take h hfresh (hheld.trans hperm)
  | give h hheld => exact .give h (hheld.trans (hperm.cons _))

theorem nodup (h : Leases key es held) : (held.map key).Nodup := by
  induction h with
  | nil => exact List.nodup_nil
  | take _ hfresh hperm ih =>
      exact (hperm.map key).nodup_iff.mp (List.nodup_cons.mpr ⟨hfresh, ih⟩)
  | give _ hperm ih => exact (List.nodup_cons.mp ((hperm.map key).nodup_iff.mp ih)).2

/-- The events about one key are hand-outs and returns in turn, and the last
one tells what is out. -/
theorem life_eq [DecidableEq κ] [DecidableEq ι] (h : Leases key es held) (i : ι) :
    life none (es.filter fun e => key e.item = i) = some (held.find? (key · = i)) := by
  induction h with
  | nil => rfl
  | @take es held held' x h hfresh hperm ih =>
      have hnodup : ((x :: held).map key).Nodup := List.nodup_cons.mpr ⟨hfresh, h.nodup⟩
      rw [List.filter_append, life_append, ih, Option.bind_some, ← find?_key_perm hnodup hperm]
      by_cases hkey : key x = i
      · have hnone : held.find? (key · = i) = none := by
          refine List.find?_eq_none.mpr fun y hy heq => hfresh ?_
          rw [hkey, ← of_decide_eq_true heq]
          exact List.mem_map_of_mem hy
        simp [hnone, LeaseEvent.item, hkey, life]
      · simp [LeaseEvent.item, hkey, life]
  | @give es held held' x h hperm ih =>
      rw [List.filter_append, life_append, ih, Option.bind_some, find?_key_perm h.nodup hperm]
      have hnodup := (hperm.map key).nodup_iff.mp h.nodup
      by_cases hkey : key x = i
      · have hnone : held'.find? (key · = i) = none := by
          refine List.find?_eq_none.mpr fun y hy heq => (List.nodup_cons.mp hnodup).1 ?_
          rw [hkey, ← of_decide_eq_true heq]
          exact List.mem_map_of_mem hy
        simp [hnone, LeaseEvent.item, hkey, life]
      · simp [LeaseEvent.item, hkey, life]

end Leases

end Unr.Logic
