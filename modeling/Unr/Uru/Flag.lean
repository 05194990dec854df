import Unr.Uru.Types

/-!
`uru_flag_t`, the counter behind every signal, and the way a completed
operation changes it.
-/

namespace Unr.Uru

/-- `uru_flag_t`. The queue of the signal pool the flag belongs to is named
by a number; `none` is the null pointer. -/
structure UruFlag where
  counter : BitVec 64
  queue : Option Nat
  num_event : BitVec 32
  idx : Int
  deriving Repr, DecidableEq

def UruFlag.add (flag : UruFlag) (flag_add : BitVec 64) : UruFlag :=
  { flag with counter := flag.counter + flag_add }

@[simp] theorem UruFlag.add_counter (flag : UruFlag) (d : BitVec 64) :
    (flag.add d).counter = flag.counter + d := rfl

@[simp] theorem UruFlag.add_queue (flag : UruFlag) (d : BitVec 64) :
    (flag.add d).queue = flag.queue := rfl

@[simp] theorem UruFlag.add_num_event (flag : UruFlag) (d : BitVec 64) :
    (flag.add d).num_event = flag.num_event := rfl

@[simp] theorem UruFlag.add_idx (flag : UruFlag) (d : BitVec 64) :
    (flag.add d).idx = flag.idx := rfl

/-- What the daemon of the MPI channel does to the flag of a completed
operation: the addition, the assertion that the counter is not negative, and
the index it pushes into the queue of the pool when the counter reaches
zero. -/
def UruFlag.progress (flag : UruFlag) (flag_add : BitVec 64) :
    Prog (UruFlag × Option (Nat × Int)) := do
  let flag := flag.add flag_add
  uruAssert (0 ≤ flag.counter.toInt)
  return (flag, if flag.counter = 0#64 then flag.queue.map (·, flag.idx) else none)

/-- What is left of it in a build without assertions. -/
def UruFlag.complete (flag : UruFlag) (flag_add : BitVec 64) : UruFlag × Option (Nat × Int) :=
  let flag := flag.add flag_add
  (flag, if flag.counter = 0#64 then flag.queue.map (·, flag.idx) else none)

theorem UruFlag.progress_eq_ok {flag : UruFlag} {flag_add : BitVec 64}
    {result : UruFlag × Option (Nat × Int)} :
    flag.progress flag_add = .ok result ↔
      0 ≤ (flag.add flag_add).counter.toInt ∧ result = flag.complete flag_add := by
  simp only [UruFlag.progress, bind_eq_ok, uruAssert_eq_ok, pure_eq_ok]
  constructor
  · rintro ⟨-, hassert, rfl⟩
    exact ⟨hassert, rfl⟩
  · rintro ⟨hassert, rfl⟩
    exact ⟨(), hassert, rfl⟩

end Unr.Uru
