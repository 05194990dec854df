import Unr.Uru.Types
import Unr.Logic.RingBuffer

/-!
`uru_queue_t`, the queue of triggered signals.

The lock makes a push and a pop atomic. A pop that finds the queue empty before
it takes the lock leaves the queue as it is.
-/

namespace Unr.Uru

open Unr.Logic

structure UruQueue where
  size : Nat
  head : Nat
  tail : Nat
  buff : List (Option Int)
  deriving Repr, DecidableEq

/-- `uru_queue_init`. The size is an `int32_t`. -/
def uruQueueInit (queue_size : Nat) : Prog UruQueue := do
  if 2 ^ 31 ≤ queue_size + 1 then
    throw .undefined
  return {
    size := queue_size + 1
    head := 0
    tail := 0
    buff := List.replicate (queue_size + 1) none }

def uruQueuePush (queue : UruQueue) (data : Int) : Prog UruQueue := do
  uruAssert (queue.head ≠ (queue.tail + 1) % queue.size)
  if ¬ queue.tail < queue.buff.length then
    throw .undefined
  return { queue with
    buff := queue.buff.set queue.tail (some data)
    tail := (queue.tail + 1) % queue.size }

def uruQueuePop (queue : UruQueue) : Prog (Int × UruQueue) :=
  if queue.head = queue.tail then .ok (-1, queue)
  else
    match queue.buff[queue.head]? with
    | some (some data) => .ok (data, { queue with head := (queue.head + 1) % queue.size })
    | _ => .error .undefined

def UruQueue.contents (queue : UruQueue) : List (Option Int) :=
  (List.range ((queue.tail + queue.size - queue.head) % queue.size)).map fun k =>
    (queue.buff[(queue.head + k) % queue.size]?).join

/-- The queue contains `xs`, the oldest entry first. -/
def UruQueue.Holds (queue : UruQueue) (xs : List Int) : Prop :=
  Ring queue.size queue.head queue.tail queue.buff xs

/-! ### The three functions on lists -/

variable {queue : UruQueue} {xs : List Int}

theorem UruQueue.Holds.contents (h : queue.Holds xs) : queue.contents = xs.map some :=
  h.contents_eq

theorem holds_of_uruQueueInit {queue_size : Nat} (h : uruQueueInit queue_size = .ok queue) :
    queue.Holds [] ∧ queue.size = queue_size + 1 := by
  simp only [uruQueueInit, throw_if_eq_ok, pure_eq_ok] at h
  obtain ⟨-, rfl⟩ := h
  exact ⟨Ring.empty (Nat.succ_pos _), rfl⟩

/-- As long as there are two free cells a push appends its entry. -/
theorem UruQueue.Holds.push_ok (h : queue.Holds xs) (hroom : xs.length + 1 < queue.size)
    (data : Int) :
    ∃ queue', uruQueuePush queue data = .ok queue' ∧ queue'.Holds (xs ++ [data]) ∧
      queue'.size = queue.size := by
  have hfull : queue.head ≠ (queue.tail + 1) % queue.size :=
    fun heq => hroom.ne (h.full_iff.mp heq)
  have hcell : ¬ ¬ queue.tail < queue.buff.length := by
    rw [not_not, h.buff_length]
    exact h.tail_lt
  refine ⟨{ queue with
    buff := queue.buff.set queue.tail (some data)
    tail := (queue.tail + 1) % queue.size }, ?_, h.push hroom, rfl⟩
  simp only [uruQueuePush, uruAssert_bind, hfull, hcell, if_true, if_false, ne_eq,
    not_false_eq_true]
  rfl

theorem UruQueue.Holds.of_push (h : queue.Holds xs) {data : Int} {queue' : UruQueue}
    (hpush : uruQueuePush queue data = .ok queue') :
    queue'.Holds (xs ++ [data]) ∧ queue'.size = queue.size := by
  have hfull : queue.head ≠ (queue.tail + 1) % queue.size := by
    obtain ⟨_, hassert, -⟩ := bind_eq_ok.mp hpush
    exact uruAssert_eq_ok.mp hassert
  have hroom : xs.length + 1 < queue.size :=
    Nat.lt_of_le_of_ne (Ring.room h) fun heq => hfull (h.full_iff.mpr heq)
  obtain ⟨queue'', hpush', hholds⟩ := h.push_ok hroom data
  cases hpush.symm.trans hpush'
  exact hholds

theorem UruQueue.Holds.pop_nil (h : queue.Holds []) : uruQueuePop queue = .ok (-1, queue) :=
  if_pos (h.head_eq_tail_iff.mpr rfl)

theorem UruQueue.Holds.pop_cons {x : Int} (h : queue.Holds (x :: xs)) :
    ∃ queue', uruQueuePop queue = .ok (x, queue') ∧ queue'.Holds xs ∧
      queue'.size = queue.size := by
  have hne : queue.head ≠ queue.tail := fun heq => by simpa using h.head_eq_tail_iff.mp heq
  obtain ⟨hfirst, hrest⟩ := h.pop
  refine ⟨{ queue with head := (queue.head + 1) % queue.size }, ?_, hrest, rfl⟩
  rw [uruQueuePop, if_neg hne, hfirst]

end Unr.Uru
