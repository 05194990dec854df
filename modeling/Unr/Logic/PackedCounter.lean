import Mathlib

/-!
Two counts packed in one machine word.

A word of `w` bits holds a low count below bit `h` and a high count from bit
`h` upwards. Both are changed by ordinary two's complement additions on the
whole word, so a count that goes below zero borrows from the other half. The
library keeps the two counts as integers, `lo` and `hi`, and says what can be
read back from the word: as long as the low count stays in `[0, 2 ^ h)` the
word determines the low count exactly and the high count modulo
`2 ^ (w - h)`.
-/

namespace Unr.Logic

/-- The word that two's complement arithmetic leaves for the counts `lo`
(below bit `h`) and `hi` (from bit `h` upwards). -/
def packed (w h : ℕ) (lo hi : ℤ) : BitVec w := BitVec.ofInt w (lo + 2 ^ h * hi)

/-- Adding two packed words adds the counts separately, whatever borrows
happen on the way. -/
theorem packed_add (w h : ℕ) (lo hi lo' hi' : ℤ) :
    packed w h lo hi + packed w h lo' hi' = packed w h (lo + lo') (hi + hi') := by
  rw [packed, packed, packed, ← BitVec.ofInt_add]
  congr 1
  ring

theorem packed_borrow (w h : ℕ) (lo hi : ℤ) :
    packed w h lo hi = packed w h (lo + 2 ^ h) (hi - 1) := by
  rw [packed, packed]
  congr 1
  ring

section Reading

variable {w h : ℕ} {lo : ℤ} (hw : h ≤ w) (hlo : 0 ≤ lo) (hlo' : lo < 2 ^ h) (hi : ℤ)

include hw in
theorem two_pow_split : (2 : ℤ) ^ w = 2 ^ h * 2 ^ (w - h) := by
  rw [← pow_add, Nat.add_sub_cancel' hw]

include hw hlo hlo' in
/-- The unsigned value of a packed word: the low count, and the high count
reduced modulo the room it has. -/
theorem packed_toNat :
    ((packed w h lo hi).toNat : ℤ) = lo + 2 ^ h * (hi % 2 ^ (w - h)) := by
  have hM : (0 : ℤ) < 2 ^ h := by positivity
  have hK : (0 : ℤ) < 2 ^ (w - h) := by positivity
  have hr0 : 0 ≤ hi % 2 ^ (w - h) := Int.emod_nonneg _ hK.ne'
  have hr1 : hi % 2 ^ (w - h) + 1 ≤ 2 ^ (w - h) := Int.emod_lt_of_pos _ hK
  have hsplit : lo + 2 ^ h * hi =
      (lo + 2 ^ h * (hi % 2 ^ (w - h))) + 2 ^ w * (hi / 2 ^ (w - h)) := by
    have hdiv := Int.emod_add_mul_ediv hi (2 ^ (w - h))
    calc lo + 2 ^ h * hi
        = lo + 2 ^ h * (hi % 2 ^ (w - h) + 2 ^ (w - h) * (hi / 2 ^ (w - h))) := by rw [hdiv]
      _ = (lo + 2 ^ h * (hi % 2 ^ (w - h))) + 2 ^ w * (hi / 2 ^ (w - h)) := by
          rw [two_pow_split hw]; ring
  have hlow : 0 ≤ lo + 2 ^ h * (hi % 2 ^ (w - h)) :=
    add_nonneg hlo (mul_nonneg hM.le hr0)
  have hhigh : lo + 2 ^ h * (hi % 2 ^ (w - h)) < 2 ^ w := by
    have hmul := mul_le_mul_of_nonneg_left hr1 hM.le
    rw [← two_pow_split hw, mul_add, mul_one] at hmul
    linarith
  have htoNat : ((packed w h lo hi).toNat : ℤ) = (lo + 2 ^ h * hi) % 2 ^ w := by
    rw [packed, BitVec.toNat_ofInt]
    have hpos : (0 : ℤ) ≤ (lo + 2 ^ h * hi) % ((2 ^ w : ℕ) : ℤ) :=
      Int.emod_nonneg _ (by positivity)
    rw [Int.toNat_of_nonneg hpos]
    push_cast
    rfl
  rw [htoNat, hsplit, Int.add_mul_emod_self_left, Int.emod_eq_of_lt hlow hhigh]

include hw hlo hlo' in
theorem packed_eq_zero_iff :
    packed w h lo hi = 0#w ↔ lo = 0 ∧ (2 : ℤ) ^ (w - h) ∣ hi := by
  have hval := packed_toNat hw hlo hlo' hi
  have hM : (0 : ℤ) < 2 ^ h := by positivity
  have hr0 : 0 ≤ hi % 2 ^ (w - h) := Int.emod_nonneg _ (by positivity)
  have hmul : 0 ≤ 2 ^ h * (hi % 2 ^ (w - h)) := mul_nonneg hM.le hr0
  constructor
  · intro hzero
    rw [hzero] at hval
    have hsum : lo + 2 ^ h * (hi % 2 ^ (w - h)) = 0 := by simpa using hval.symm
    have hlo0 : lo = 0 := by omega
    have hhi0 : 2 ^ h * (hi % 2 ^ (w - h)) = 0 := by omega
    refine ⟨hlo0, Int.dvd_of_emod_eq_zero ?_⟩
    exact (mul_eq_zero.mp hhi0).resolve_left hM.ne'
  · rintro ⟨rfl, hdvd⟩
    apply BitVec.eq_of_toNat_eq
    rw [Int.emod_eq_zero_of_dvd hdvd] at hval
    simpa using hval

include hw hlo in
theorem packed_toNat_lt_iff {m : ℕ} (hm : m ≤ h) (hlom : lo < 2 ^ m) :
    (packed w h lo hi).toNat < 2 ^ m ↔ (2 : ℤ) ^ (w - h) ∣ hi := by
  have hle : (2 : ℤ) ^ m ≤ 2 ^ h := pow_le_pow_right₀ (by norm_num) hm
  have hval := packed_toNat hw hlo (hlom.trans_le hle) hi
  have hcast : (packed w h lo hi).toNat < 2 ^ m ↔
      ((packed w h lo hi).toNat : ℤ) < 2 ^ m := by
    rw [← @Nat.cast_lt ℤ]
    push_cast
    rfl
  rw [hcast, hval]
  have hr0 : 0 ≤ hi % 2 ^ (w - h) := Int.emod_nonneg _ (by positivity)
  constructor
  · intro hlt
    apply Int.dvd_of_emod_eq_zero
    by_contra hne
    have hone : 1 ≤ hi % 2 ^ (w - h) := by omega
    have hmul : (2 : ℤ) ^ h * 1 ≤ 2 ^ h * (hi % 2 ^ (w - h)) :=
      mul_le_mul_of_nonneg_left hone (by positivity)
    linarith
  · intro hdvd
    rw [Int.emod_eq_zero_of_dvd hdvd]
    simpa using hlom

include hw in
/-- A low count that is negative, but not by too much, keeps the word at or
above `2 ^ m`, whatever the high count is. -/
theorem le_packed_toNat_of_neg {lo : ℤ} (hneg : lo < 0) {m : ℕ} (hm : (2 : ℤ) ^ m ≤ lo + 2 ^ h)
    (hi : ℤ) : 2 ^ m ≤ (packed w h lo hi).toNat := by
  have hpow : (0 : ℤ) < 2 ^ m := by positivity
  have hval := packed_toNat hw (by linarith) (by linarith : lo + 2 ^ h < 2 ^ h) (hi - 1)
  rw [← packed_borrow] at hval
  have hr0 : 0 ≤ (hi - 1) % 2 ^ (w - h) := Int.emod_nonneg _ (by positivity)
  have hmul : 0 ≤ 2 ^ h * ((hi - 1) % 2 ^ (w - h)) := mul_nonneg (by positivity) hr0
  have hge : ((2 ^ m : ℕ) : ℤ) ≤ ((packed w h lo hi).toNat : ℤ) := by
    push_cast
    linarith
  exact_mod_cast hge

include hlo hlo' in
/-- The signed value of the word is non-negative exactly when the high count,
reduced modulo its room, is in the lower half of that room. -/
theorem packed_toInt_nonneg_iff (hlt : h < w) :
    0 ≤ (packed w h lo hi).toInt ↔ 2 * (hi % 2 ^ (w - h)) < 2 ^ (w - h) := by
  have hval := packed_toNat hlt.le hlo hlo' hi
  have hM : (0 : ℤ) < 2 ^ h := by positivity
  have hcast : 0 ≤ (packed w h lo hi).toInt ↔
      2 * ((packed w h lo hi).toNat : ℤ) < 2 ^ w := by
    rw [BitVec.toInt_pos_iff, ← @Nat.cast_lt ℤ]
    push_cast
    rfl
  rw [hcast, hval, two_pow_split hlt.le]
  obtain ⟨k, hk⟩ : ∃ k, w - h = k + 1 := ⟨w - h - 1, by omega⟩
  rw [hk, pow_succ]
  constructor
  · intro hlt2
    have hle : 2 ^ h * (2 * (hi % (2 ^ k * 2))) < 2 ^ h * (2 ^ k * 2) := by linarith
    exact lt_of_mul_lt_mul_left hle hM.le
  · intro hlt2
    have hstep : hi % (2 ^ k * 2) + 1 ≤ 2 ^ k := by omega
    have hmul := mul_le_mul_of_nonneg_left hstep hM.le
    rw [mul_add, mul_one] at hmul
    linarith

end Reading

end Unr.Logic
