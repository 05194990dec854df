import Mathlib

/-!
Removing entries of an array by filling their places from its end.

The first `tail` entries of the array are in use and some of them, the holes,
are to be removed. As long as there are holes, the last entry in use either is
a hole itself and is dropped, or is moved into a hole. Neither changes which
entries are kept.
-/

namespace Unr.Logic

variable {α : Type}

def entriesAt (xs : List α) (places : List Nat) : List α := places.filterMap (xs[·]?)

/-- The entries in use that are not in a hole. -/
def remaining (xs : List α) (tail : Nat) (holes : List Nat) : List α :=
  entriesAt xs ((List.range tail).filter (· ∉ holes))

@[simp] theorem entriesAt_append (xs : List α) (ps qs : List Nat) :
    entriesAt xs (ps ++ qs) = entriesAt xs ps ++ entriesAt xs qs :=
  List.filterMap_append

theorem entriesAt_perm (xs : List α) {ps qs : List Nat} (h : ps.Perm qs) :
    (entriesAt xs ps).Perm (entriesAt xs qs) :=
  h.filterMap _

theorem entriesAt_congr {xs ys : List α} {ps : List Nat} (h : ∀ p ∈ ps, xs[p]? = ys[p]?) :
    entriesAt xs ps = entriesAt ys ps :=
  List.filterMap_congr h

theorem length_entriesAt {xs : List α} {ps : List Nat} (h : ∀ p ∈ ps, p < xs.length) :
    (entriesAt xs ps).length = ps.length := by
  induction ps with
  | nil => rfl
  | cons p ps ih =>
      have hp := List.getElem?_eq_getElem (h p (by simp))
      have ih := ih fun q hq => h q (by simp [hq])
      simp only [entriesAt, List.filterMap_cons, hp, List.length_cons] at ih ⊢
      rw [ih]

theorem entriesAt_range (xs : List α) (tail : Nat) :
    entriesAt xs (List.range tail) = xs.take tail := by
  induction tail with
  | zero => rfl
  | succ tail ih =>
      rw [List.range_succ, entriesAt_append, ih, List.take_add_one]
      rfl

theorem remaining_nil (xs : List α) (tail : Nat) : remaining xs tail [] = xs.take tail := by
  rw [remaining, ← entriesAt_range]
  congr 1
  exact List.filter_eq_self.mpr fun _ _ => by simp

/-- A hole at the end is dropped. -/
theorem remaining_drop {xs : List α} {tail : Nat} {holes : List Nat} :
    remaining xs (tail + 1) (holes ++ [tail]) = remaining xs tail holes := by
  rw [remaining, remaining, List.range_succ, List.filter_append]
  have hlast : [tail].filter (· ∉ holes ++ [tail]) = [] := by simp
  have hfront : (List.range tail).filter (· ∉ holes ++ [tail]) =
      (List.range tail).filter (· ∉ holes) := by
    refine List.filter_congr fun p hp => ?_
    have hne : p ≠ tail := Nat.ne_of_lt (List.mem_range.mp hp)
    simp [hne]
  rw [hlast, hfront, List.append_nil]

/-- The last entry is moved into a hole. -/
theorem remaining_fill {xs : List α} {tail hole : Nat} {holes : List Nat} {x : α}
    (hlast : xs[tail]? = some x) (hhole : hole < tail) (hnew : hole ∉ holes)
    (hholes : tail ∉ holes) :
    (remaining (xs.set hole x) tail holes).Perm (remaining xs (tail + 1) (hole :: holes)) := by
  have htail : tail < xs.length := (List.getElem?_eq_some_iff.mp hlast).1
  have hset : (xs.set hole x)[hole]? = some x :=
    List.getElem?_set_self (Nat.lt_trans hhole htail)
  have hplaces : ((List.range tail).filter (· ∉ holes)).Perm
      (hole :: (List.range tail).filter (· ∉ hole :: holes)) := by
    have hmem : hole ∈ (List.range tail).filter (· ∉ holes) := by simp [hhole, hnew]
    have hnodup : ((List.range tail).filter (· ∉ holes)).Nodup := List.nodup_range.filter _
    refine (List.perm_cons_erase hmem).trans ?_
    rw [hnodup.erase_eq_filter, List.filter_filter]
    refine List.Perm.cons _ (List.Perm.of_eq (List.filter_congr fun p _ => ?_))
    by_cases hp : p = hole <;> simp [hp]
  have hsame : entriesAt (xs.set hole x) ((List.range tail).filter (· ∉ hole :: holes)) =
      entriesAt xs ((List.range tail).filter (· ∉ hole :: holes)) := by
    refine entriesAt_congr fun p hp => ?_
    have hne : p ≠ hole := fun heq => by simp [heq] at hp
    exact List.getElem?_set_ne (Ne.symm hne)
  have hend : [tail].filter (· ∉ hole :: holes) = [tail] := by
    simp [hholes, Nat.ne_of_gt hhole]
  calc
    (remaining (xs.set hole x) tail holes).Perm
        (entriesAt (xs.set hole x) (hole :: (List.range tail).filter (· ∉ hole :: holes))) :=
      entriesAt_perm _ hplaces
    _ = x :: entriesAt xs ((List.range tail).filter (· ∉ hole :: holes)) := by
      rw [← hsame]
      simp only [entriesAt, List.filterMap_cons, hset]
    _ |>.Perm (entriesAt xs ((List.range tail).filter (· ∉ hole :: holes)) ++ [x]) :=
      (List.perm_append_singleton _ _).symm
    _ = remaining xs (tail + 1) (hole :: holes) := by
      rw [remaining, List.range_succ, List.filter_append, hend, entriesAt_append]
      simp only [entriesAt, List.filterMap_cons, List.filterMap_nil, hlast]

theorem remaining_skip {xs : List α} {tail tail' : Nat} {holes : List Nat} (hle : tail ≤ tail')
    (hskipped : ∀ p, tail ≤ p → p < tail' → p ∈ holes) :
    remaining xs tail' holes = remaining xs tail holes := by
  obtain ⟨k, rfl⟩ := Nat.exists_eq_add_of_le hle
  induction k with
  | zero => rfl
  | succ k ih =>
      have hlast := hskipped (tail + k) (by omega) (by omega)
      have ih := ih (by omega) fun p hlow hhigh => hskipped p hlow (by omega)
      rw [← ih, ← Nat.add_assoc, remaining, List.range_succ, List.filter_append, remaining]
      simp [hlast]

theorem remaining_keep {xs : List α} {tail : Nat} {holes : List Nat} {x : α}
    (hx : xs[tail]? = some x) (htail : tail ∉ holes) :
    remaining xs (tail + 1) holes = remaining xs tail holes ++ [x] := by
  rw [remaining, List.range_succ, List.filter_append, entriesAt_append, remaining]
  simp [entriesAt, htail, hx]

theorem remaining_subset {xs : List α} {tail : Nat} {holes : List Nat} :
    remaining xs tail holes ⊆ xs.take tail := by
  intro x hx
  obtain ⟨p, hp, hx⟩ := List.mem_filterMap.mp hx
  rw [← entriesAt_range]
  exact List.mem_filterMap.mpr ⟨p, List.mem_of_mem_filter hp, hx⟩

/-- What is in use is what is in the holes and what is kept. -/
theorem take_perm_remaining {xs : List α} {tail : Nat} {holes : List Nat} (hnodup : holes.Nodup)
    (hholes : ∀ hole ∈ holes, hole < tail) :
    (xs.take tail).Perm (entriesAt xs holes ++ remaining xs tail holes) := by
  rw [← entriesAt_range, remaining, ← entriesAt_append]
  refine entriesAt_perm _ ((List.perm_ext_iff_of_nodup List.nodup_range ?_).mpr fun p => ?_)
  · refine List.nodup_append.mpr ⟨hnodup, List.nodup_range.filter _, fun p hp q hq heq => ?_⟩
    subst heq
    simp [hp] at hq
  · by_cases hp : p ∈ holes
    · simp [hp, hholes p hp]
    · simp [hp]

theorem length_remaining {xs : List α} {tail : Nat} {holes : List Nat} (hnodup : holes.Nodup)
    (hholes : ∀ hole ∈ holes, hole < tail) (htail : tail ≤ xs.length) :
    (remaining xs tail holes).length + holes.length = tail := by
  have hall : (entriesAt xs holes).length = holes.length :=
    length_entriesAt fun hole hhole => Nat.lt_of_lt_of_le (hholes hole hhole) htail
  have hsplit : (xs.take tail).Perm _ := take_perm_remaining hnodup hholes
  have hlen := hsplit.length_eq
  rw [List.length_take, List.length_append, hall] at hlen
  omega

/-! ### Two arrays that are changed together -/

theorem zip_set {β : Type} (xs : List α) (ys : List β) (i : Nat) (x : α) (y : β) :
    (xs.set i x).zip (ys.set i y) = (xs.zip ys).set i (x, y) := by
  induction xs generalizing ys i with
  | nil => simp
  | cons a xs ih =>
      cases ys with
      | nil => simp
      | cons b ys =>
          cases i with
          | zero => rfl
          | succ i => simp [ih]

theorem entriesAt_map {β : Type} (f : α → β) (xs : List α) (ps : List Nat) :
    entriesAt (xs.map f) ps = (entriesAt xs ps).map f := by
  simp only [entriesAt, List.map_filterMap, List.getElem?_map]

end Unr.Logic
