import Unr.Uru.Flag

/-!
Signals: creation, the non-blocking check and the reset of `unr_sig.c`, as
functions of the flag a signal refers to.
-/

namespace Unr.Core

open Unr.Uru

/-- `1<<31` as the compiler evaluates it next to a 64-bit operand: the `int`
`INT_MIN`, sign-extended. -/
def shl31 : BitVec 64 := (1#32 <<< 31).signExtend 64

/-- The flag `unr_sig_create` initialises for a 64-bit `num_event`. In the
range check `1<<31` is converted to `uint64_t`; the counter keeps all 64 bits
of `num_event`, the field `num_event` only the lower 32. -/
def unrSigCreate (num_event : BitVec 64) : Prog UruFlag := do
  uruAssert (0#64 < num_event)
  uruAssert (num_event < shl31)
  return { counter := num_event, queue := none,
           num_event := num_event.setWidth 32, idx := -1 }

def unrSigCheck (flag : UruFlag) : Prog UruStatus := do
  if flag.counter &&& shl31 ≠ 0#64 then
    throw (.exit .eventOverflow)
  uruAssert (flag.counter &&& shl31 = 0#64)
  if flag.counter = 0#64 then
    return .signalTriggered
  else
    return .signalWaiting

def unrSigReset (flag : UruFlag) : Prog UruFlag := do
  uruAssert (flag.counter = 0#64)
  return { flag with counter := flag.num_event.setWidth 64 }

/-! ### Reading the mask and the three calls

The mask keeps the bits from 31 upwards, so it is disjoint from a counter
exactly when the counter, read without sign, is below `2 ^ 31`. -/

theorem shl31_getLsbD : ∀ i < 64, shl31.getLsbD i = decide (31 ≤ i) := by decide

theorem and_shl31_eq_zero_iff (c : BitVec 64) :
    c &&& shl31 = 0#64 ↔ c.toNat < 2 ^ 31 := by
  constructor
  · intro hand
    apply Nat.lt_pow_two_of_testBit
    intro i hi
    by_cases h64 : i < 64
    · have hbit : (c &&& shl31).getLsbD i = false := by rw [hand]; simp
      rw [BitVec.getLsbD_and, shl31_getLsbD i h64] at hbit
      simpa [hi, BitVec.testBit_toNat] using hbit
    · rw [BitVec.testBit_toNat]
      exact BitVec.getLsbD_of_ge c i (by omega)
  · intro hlt
    apply BitVec.eq_of_getLsbD_eq
    intro i hi
    rw [BitVec.getLsbD_and, shl31_getLsbD i hi]
    by_cases h31 : 31 ≤ i
    · have hbit : c.toNat.testBit i = false :=
        Nat.testBit_lt_two_pow (Nat.lt_of_lt_of_le hlt (Nat.pow_le_pow_right (by omega) h31))
      rw [BitVec.testBit_toNat] at hbit
      simp [hbit]
    · simp [h31]

/-- The check leaves the process running exactly when no bit from 31 upwards
is set. -/
theorem unrSigCheck_of_lt {flag : UruFlag} (hlt : flag.counter.toNat < 2 ^ 31) :
    unrSigCheck flag =
      .ok (if flag.counter = 0#64 then .signalTriggered else .signalWaiting) := by
  have hmask : flag.counter &&& shl31 = 0#64 := (and_shl31_eq_zero_iff flag.counter).mpr hlt
  by_cases hzero : flag.counter = 0#64 <;>
    simp [unrSigCheck, hmask, hzero] <;> rfl

theorem unrSigCheck_of_ge {flag : UruFlag} (hge : 2 ^ 31 ≤ flag.counter.toNat) :
    unrSigCheck flag = .error (.exit .eventOverflow) := by
  have hmask : ¬ flag.counter &&& shl31 = 0#64 := by
    rw [and_shl31_eq_zero_iff]
    omega
  simp only [unrSigCheck, ne_eq, hmask, not_false_eq_true, if_true]
  rfl

/-- For an event count below `2 ^ 32` the conversions of `unr_sig_create`
lose nothing. -/
theorem unrSigCreate_of_lt {N : Nat} (hpos : 0 < N) (hlt : N < 2 ^ 32) :
    unrSigCreate (BitVec.ofNat 64 N) = .ok
      { counter := BitVec.ofNat 64 N, queue := none,
        num_event := BitVec.ofNat 32 N, idx := -1 } := by
  have h0 : 0#64 < BitVec.ofNat 64 N := by
    rw [BitVec.lt_def]; simp; omega
  have h1 : BitVec.ofNat 64 N < shl31 := by
    rw [BitVec.lt_def]
    have : shl31.toNat = 2 ^ 64 - 2 ^ 31 := by decide
    simp [this]; omega
  have hw : (BitVec.ofNat 64 N).setWidth 32 = BitVec.ofNat 32 N := by
    apply BitVec.eq_of_toNat_eq
    simp
  simp only [unrSigCreate, uruAssert_bind, h0, h1, hw, if_true]
  rfl

@[simp] theorem unrSigReset_eq_ok_iff (flag flag' : UruFlag) :
    unrSigReset flag = .ok flag' ↔ flag.counter = 0#64 ∧
      flag' = { flag with counter := flag.num_event.setWidth 64 } := by
  simp only [unrSigReset, bind_eq_ok, uruAssert_eq_ok, pure_eq_ok]
  constructor
  · rintro ⟨-, hzero, rfl⟩
    exact ⟨hzero, rfl⟩
  · rintro ⟨hzero, rfl⟩
    exact ⟨(), hzero, rfl⟩

end Unr.Core
