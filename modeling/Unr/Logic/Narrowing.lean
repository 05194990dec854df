import Mathlib

/-!
Narrowing conversions of natural numbers to machine integers.

A narrowing conversion never makes a number larger, so the total of a list
survives it exactly when every entry does. Two conversions are given, to an
unsigned and to a signed integer of `w` bits.
-/

namespace Unr.Logic

/-- A conversion that never makes a number larger. -/
def Narrowing (f : ℕ → ℤ) : Prop := ∀ x, f x ≤ x

theorem Narrowing.sum_le {f : ℕ → ℤ} (hf : Narrowing f) (xs : List ℕ) :
    (xs.map f).sum ≤ xs.sum := by
  induction xs with
  | nil => simp
  | cons x xs ih =>
      have hx := hf x
      simp only [List.map_cons, List.sum_cons, Nat.cast_add]
      omega

/-- A total is preserved exactly when every entry is. -/
theorem Narrowing.sum_eq_iff {f : ℕ → ℤ} (hf : Narrowing f) (xs : List ℕ) :
    (xs.map f).sum = xs.sum ↔ ∀ x ∈ xs, f x = x := by
  induction xs with
  | nil => simp
  | cons x xs ih =>
      have hx := hf x
      have hxs := hf.sum_le xs
      simp only [List.map_cons, List.sum_cons, Nat.cast_add, List.forall_mem_cons, ← ih]
      omega

def asUnsigned (w : ℕ) (x : ℕ) : ℤ := (BitVec.ofNat w x).toNat

def asSigned (w : ℕ) (x : ℕ) : ℤ := (BitVec.ofNat w x).toInt

theorem narrowing_asUnsigned (w : ℕ) : Narrowing (asUnsigned w) := by
  intro x
  have hle := Nat.mod_le x (2 ^ w)
  rw [asUnsigned, BitVec.toNat_ofNat]
  exact_mod_cast hle

theorem asUnsigned_eq_iff {w x : ℕ} : asUnsigned w x = x ↔ x < 2 ^ w := by
  rw [asUnsigned, BitVec.toNat_ofNat, Nat.cast_inj]
  constructor
  · intro hsame
    rw [← hsame]
    exact Nat.mod_lt _ (Nat.two_pow_pos w)
  · exact Nat.mod_eq_of_lt

theorem narrowing_asSigned (w : ℕ) : Narrowing (asSigned w) := by
  intro x
  have hle := Nat.mod_le x (2 ^ w)
  rw [asSigned, BitVec.toInt_eq_toNat_cond, BitVec.toNat_ofNat]
  split <;> omega

theorem asSigned_eq_iff {w x : ℕ} : asSigned (w + 1) x = x ↔ x < 2 ^ w := by
  have hpow : 2 ^ (w + 1) = 2 * 2 ^ w := by ring
  have hpos := Nat.two_pow_pos w
  rw [asSigned, BitVec.toInt_eq_toNat_cond, BitVec.toNat_ofNat]
  constructor
  · intro hsame
    have hle := Nat.mod_lt x (Nat.two_pow_pos (w + 1))
    split at hsame <;> omega
  · intro hlt
    rw [Nat.mod_eq_of_lt (by omega), if_pos (by omega)]

end Unr.Logic
