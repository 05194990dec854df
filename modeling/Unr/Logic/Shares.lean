import Mathlib

/-!
A range cut into consecutive shares.

A list of sizes cuts `[0, total)` into consecutive pieces; the displacement of
a piece is the sum of the sizes before it. Every point of the range lies in
exactly one piece, and the empty pieces contain none.
-/

namespace Unr.Logic

/-- Where the `j`-th share starts: the sum of the shares before it. -/
def displacement (shares : List ℕ) (j : ℕ) : ℕ := (shares.take j).sum

@[simp] theorem displacement_zero (shares : List ℕ) : displacement shares 0 = 0 := by
  simp [displacement]

theorem displacement_succ {shares : List ℕ} {j : ℕ} (h : j < shares.length) :
    displacement shares (j + 1) = displacement shares j + shares[j] := by
  rw [displacement, displacement, List.sum_take_succ _ _ h]

theorem displacement_length (shares : List ℕ) :
    displacement shares shares.length = shares.sum := by
  simp [displacement]

theorem displacement_mono (shares : List ℕ) {i j : ℕ} (h : i ≤ j) :
    displacement shares i ≤ displacement shares j := by
  obtain ⟨d, rfl⟩ := Nat.exists_eq_add_of_le h
  rw [displacement, displacement, List.take_add, List.sum_append]
  exact Nat.le_add_right _ _

theorem displacement_le_sum (shares : List ℕ) (j : ℕ) :
    displacement shares j ≤ shares.sum := by
  rcases le_total j shares.length with h | h
  · rw [← displacement_length]
    exact displacement_mono shares h
  · rw [displacement, List.take_of_length_le h]

theorem displacement_append_left {shares shares' : List ℕ} {j : ℕ} (h : j ≤ shares.length) :
    displacement (shares ++ shares') j = displacement shares j := by
  rw [displacement, displacement, List.take_append_of_le_length h]

theorem displacement_append_length (shares shares' : List ℕ) :
    displacement (shares ++ shares') shares.length = shares.sum := by
  rw [displacement_append_left le_rfl, displacement_length]

theorem displacement_of_forall {shares : List ℕ} {n j : ℕ} (h : ∀ x ∈ shares, x = n)
    (hj : j ≤ shares.length) : displacement shares j = j * n := by
  rw [displacement, List.eq_replicate_iff.mpr ⟨rfl, h⟩, List.take_replicate, List.sum_replicate,
    min_eq_left hj, Nat.nsmul_eq_mul]

theorem displacement_map_mul (shares : List ℕ) (n j : ℕ) :
    displacement (shares.map (· * n)) j = displacement shares j * n := by
  rw [displacement, displacement, ← List.map_take, List.sum_map_mul_right, List.map_id']

theorem displacement_cons_succ (x : ℕ) (shares : List ℕ) (j : ℕ) :
    displacement (x :: shares) (j + 1) = x + displacement shares j := by
  rw [displacement, displacement, List.take_succ_cons, List.sum_cons]

/-- Lists that are put one behind the other cut the result into their lengths. -/
theorem getElem?_flatten {α : Type} {xss : List (List α)} {i j : ℕ} (hi : i < xss.length)
    (hj : j < xss[i].length) :
    xss.flatten[displacement (xss.map List.length) i + j]? = some xss[i][j] := by
  have hdrop : xss.flatten.drop (displacement (xss.map List.length) i) = (xss.drop i).flatten :=
    List.drop_sum_flatten ..
  rw [← List.getElem?_drop, hdrop, List.drop_eq_getElem_cons hi, List.flatten_cons,
    List.getElem?_append_left hj, List.getElem?_eq_getElem hj]

theorem displacement_add_le_sum {shares : List ℕ} {j : ℕ} (h : j < shares.length) :
    displacement shares j + shares[j] ≤ shares.sum := by
  rw [← displacement_succ h]
  exact displacement_le_sum shares (j + 1)

theorem sum_modify {shares : List ℕ} {c x : ℕ} {f : ℕ → ℕ} (h : c < shares.length)
    (hf : f shares[c] = shares[c] + x) : (shares.modify c f).sum = shares.sum + x := by
  induction shares generalizing c with
  | nil => simp at h
  | cons a shares ih =>
      cases c with
      | zero =>
          simp only [List.getElem_cons_zero] at hf
          simp [hf]
          omega
      | succ c =>
          simp only [List.getElem_cons_succ, List.length_cons] at hf h
          simp [ih (by omega) hf]
          omega

/-- The point `x` lies in the `j`-th share. -/
def InShare (shares : List ℕ) (x j : ℕ) : Prop :=
  displacement shares j ≤ x ∧ x < displacement shares j + shares.getD j 0

theorem InShare.lt_length {shares : List ℕ} {x j : ℕ} (h : InShare shares x j) :
    j < shares.length := by
  by_contra hge
  have hzero : shares.getD j 0 = 0 := by simp [List.getD, List.getElem?_eq_none (not_lt.mp hge)]
  have := h.2
  have := h.1
  omega

theorem InShare.unique {shares : List ℕ} {x i j : ℕ} (hi : InShare shares x i)
    (hj : InShare shares x j) : i = j := by
  have key : ∀ {i j : ℕ}, InShare shares x i → InShare shares x j → ¬ i < j := by
    intro i j hi hj hlt
    have hlen := hi.lt_length
    have hmono := displacement_mono shares (Nat.succ_le_of_lt hlt)
    rw [Nat.succ_eq_add_one, displacement_succ hlen] at hmono
    have h1 := hi.2
    have h2 := hj.1
    simp only [List.getD, List.getElem?_eq_getElem hlen, Option.getD_some] at h1
    omega
  rcases lt_trichotomy i j with h | h | h
  · exact absurd h (key hi hj)
  · exact h
  · exact absurd h (key hj hi)

/-- Shares leave no gap. -/
theorem exists_inShare {shares : List ℕ} {x : ℕ} (hx : x < shares.sum) :
    ∃ j, InShare shares x j := by
  have hfind : ∃ j, x < displacement shares (j + 1) := by
    cases hlen : shares.length with
    | zero =>
        rw [List.length_eq_zero_iff] at hlen
        simp [hlen] at hx
    | succ n => exact ⟨n, by rw [← hlen, displacement_length]; exact hx⟩
  classical
  refine ⟨Nat.find hfind, ?_⟩
  have hspec := Nat.find_spec hfind
  have hlow : displacement shares (Nat.find hfind) ≤ x := by
    cases hf : Nat.find hfind with
    | zero => simp
    | succ m =>
        have hmin := Nat.find_min hfind (m := m) (by omega)
        exact not_lt.mp hmin
  have hlen : Nat.find hfind < shares.length := by
    by_contra hge
    have hsame : displacement shares (Nat.find hfind + 1) =
        displacement shares (Nat.find hfind) := by
      rw [displacement, displacement, List.take_of_length_le (by omega),
        List.take_of_length_le (by omega)]
    omega
  rw [displacement_succ hlen] at hspec
  exact ⟨hlow, by simpa [List.getD, List.getElem?_eq_getElem hlen] using hspec⟩

theorem existsUnique_inShare {shares : List ℕ} {x : ℕ} (hx : x < shares.sum) :
    ∃! j, InShare shares x j := by
  obtain ⟨j, hj⟩ := exists_inShare hx
  exact ⟨j, hj, fun i hi => hi.unique hj⟩

end Unr.Logic
