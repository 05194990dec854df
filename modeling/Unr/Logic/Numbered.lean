import Mathlib

/-!
Elements of a list, numbered separately for every key.

A number says how many elements with the same key come earlier in the list.
Key and number together name an element, so they serve where a position in the
whole list would not be known to the party that has to name it.
-/

namespace Unr.Logic

variable {α κ : Type} [DecidableEq κ] {key : α → κ} {xs : List α} {x y : α} {k : Nat}

/-- How many elements have the key of `x`. -/
def countKey (key : α → κ) (xs : List α) (x : α) : Nat := xs.countP fun y => key y = key x

/-- Every element with the number of earlier ones that have its key. -/
def numbered (key : α → κ) (xs : List α) : List (α × Nat) :=
  xs.zipIdx.map fun x => (x.1, countKey key (xs.take x.2) x.1)

@[simp] theorem numbered_nil : numbered key [] = [] := rfl

@[simp] theorem numbered_map_fst : (numbered key xs).map Prod.fst = xs := by
  rw [numbered, List.map_map]
  exact List.zipIdx_map_fst 0 xs

theorem numbered_snoc : numbered key (xs ++ [x]) = numbered key xs ++ [(x, countKey key xs x)] := by
  rw [numbered, List.zipIdx_append, List.map_append]
  congr 1
  · refine List.map_congr_left fun y hy => ?_
    have hlt : y.2 ≤ xs.length := by
      have := List.snd_lt_of_mem_zipIdx hy
      omega
    rw [List.take_append_of_le_length hlt]
  · simp [countKey]

theorem numbered_isPrefix_append (xs ys : List α) :
    numbered key xs <+: numbered key (xs ++ ys) := by
  induction ys using List.reverseRecOn with
  | nil => rw [List.append_nil]
  | append_singleton ys y ih =>
      rw [← List.append_assoc, numbered_snoc]
      exact ih.trans (List.prefix_append _ _)

/-- The number of an element is its position among those with its key. -/
theorem mem_numbered :
    (x, k) ∈ numbered key xs ↔ (xs.filter fun y => key y = key x)[k]? = some x := by
  induction xs using List.reverseRecOn with
  | nil => simp
  | append_singleton xs y ih =>
      rw [numbered_snoc, List.mem_append, ih, List.filter_append, List.mem_singleton,
        Prod.mk.injEq]
      by_cases hkey : key y = key x
      · have hlen : (xs.filter fun z => key z = key x).length = countKey key xs x := by
          rw [countKey, List.countP_eq_length_filter]
        rw [List.filter_cons_of_pos (by simpa using hkey), List.filter_nil,
          List.getElem?_append]
        by_cases hlt : k < (xs.filter fun z => key z = key x).length
        · have hne : ¬ (x = y ∧ k = countKey key xs y) := by
            rintro ⟨rfl, rfl⟩
            omega
          simp only [hlt, if_true, hne, or_false]
        · have hnone : (xs.filter fun z => key z = key x)[k]? = none :=
            List.getElem?_eq_none (Nat.not_lt.mp hlt)
          simp only [hlt, if_false, hnone, reduceCtorEq, false_or]
          constructor
          · rintro ⟨rfl, rfl⟩
            simp [hlen]
          · intro hget
            obtain ⟨hone, hxy⟩ := List.getElem?_eq_some_iff.mp hget
            simp only [List.length_singleton, Nat.lt_one_iff] at hone
            simp only [hone, List.getElem_cons_zero] at hxy
            subst hxy
            exact ⟨rfl, by omega⟩
      · have hne : ¬ (x = y ∧ k = countKey key xs y) := fun h => hkey (h.1 ▸ rfl)
        rw [List.filter_cons_of_neg (by simpa using hkey), List.filter_nil, List.append_nil]
        simp only [hne, or_false]

theorem numbered_eq (hx : (x, k) ∈ numbered key xs) (hy : (y, k) ∈ numbered key xs)
    (hkey : key x = key y) : x = y := by
  rw [mem_numbered] at hx hy
  rw [hkey, hy] at hx
  exact (Option.some.inj hx).symm

theorem numbered_nodup : ((numbered key xs).map fun x => (key x.1, x.2)).Nodup := by
  induction xs using List.reverseRecOn with
  | nil => exact List.nodup_nil
  | append_singleton xs y ih =>
      rw [numbered_snoc, List.map_append, List.nodup_append]
      refine ⟨ih, List.nodup_singleton _, ?_⟩
      intro a ha b hb
      obtain ⟨⟨x, k⟩, hx, rfl⟩ := List.mem_map.mp ha
      rw [List.map_singleton, List.mem_singleton] at hb
      subst hb
      rintro heq
      obtain ⟨hkey, rfl⟩ := Prod.mk.inj heq
      have hlt := (List.getElem?_eq_some_iff.mp (mem_numbered.mp hx)).1
      rw [← List.countP_eq_length_filter, hkey] at hlt
      exact Nat.lt_irrefl _ hlt

end Unr.Logic
