import Unr.Uru.Queue

/-!
`uru_queue_t` over whole runs.

The queue is a bounded first-in first-out queue whose size is the argument of
`uru_queue_init`. One cell more is allocated than there are values, so the
argument has to leave room for it in an `int32_t`.
-/

namespace Unr.Uru

open Unr.Logic

def UruQueue.run (queue : UruQueue) : List (FifoOp Int) → List Int × Prog UruQueue
  | [] => ([], .ok queue)
  | .push data :: ops =>
      match uruQueuePush queue data with
      | .ok queue' => queue'.run ops
      | .error stop => ([], .error stop)
  | .pop :: ops =>
      match uruQueuePop queue with
      | .ok (data, queue') => (data :: (queue'.run ops).1, (queue'.run ops).2)
      | .error stop => ([], .error stop)

/-- What `uru_queue_pop` stores for the result of a pop. -/
def popData : Option Int → Int
  | some data => data
  | none => -1

structure UruQueue.Serves (queue : UruQueue) (n : Nat) (xs : List Int) : Prop where
  /-- The values are those between head and tail. -/
  contents : queue.contents = xs.map some
  head_le : queue.head ≤ n
  tail_le : queue.tail ≤ n
  /-- The assertion fires on a full queue only. -/
  full : ∀ data, uruQueuePush queue data = .error (.exit .assertExit) ↔ xs.length = n
  /-- -1 is returned, and nothing changes, for an empty queue only. -/
  empty : uruQueuePop queue = .ok (-1, queue) ↔ xs = []
  /-- Otherwise the oldest value is returned. -/
  oldest : ∀ x rest, xs = x :: rest → ∃ queue', uruQueuePop queue = .ok (x, queue')

/-- A queue of size `n` behaves as a bounded queue in every run. -/
def RefinesFifo (n : Nat) : Prop :=
  ∃ queue, uruQueueInit n = .ok queue ∧
    ∀ ops : List (FifoOp Int), (∀ data, FifoOp.push data ∈ ops → 0 ≤ data) →
      (queue.run ops).1 = ((BoundedFifo.empty : BoundedFifo Int n).run ops).1.map popData ∧
      match (queue.run ops).2, ((BoundedFifo.empty : BoundedFifo Int n).run ops).2 with
      | .ok queue', some fifo => queue'.Serves n fifo.values
      | .error stop, none => stop = .exit .assertExit
      | _, _ => False

variable {queue : UruQueue} {n : Nat}

theorem UruQueue.Holds.serves {xs : List Int} (h : queue.Holds xs) (hsize : queue.size = n + 1) :
    queue.Serves n xs where
  contents := h.contents
  head_le := by
    have := Ring.head_lt h
    omega
  tail_le := by
    have := Ring.tail_lt h
    omega
  full := by
    intro data
    have hroom := Ring.room h
    rcases Nat.lt_or_ge (xs.length + 1) queue.size with hlt | hge
    · obtain ⟨queue', hpush, -⟩ := h.push_ok hlt data
      rw [hpush]
      refine ⟨?_, fun hlen => absurd hlen (by omega)⟩
      rintro ⟨⟩
    · have hfull : queue.head = (queue.tail + 1) % queue.size := h.full_iff.mpr (by omega)
      refine ⟨fun _ => by omega, fun _ => ?_⟩
      rw [uruQueuePush, uruAssert_bind, if_neg (not_not.mpr hfull)]
  empty := by
    constructor
    · intro hpop
      cases xs with
      | nil => rfl
      | cons x rest =>
          obtain ⟨queue', hpop', hholds, -⟩ := h.pop_cons
          cases hpop.symm.trans hpop'
          -- the queue would contain its own rest
          have hlen := congrArg List.length (h.contents.symm.trans hholds.contents)
          simp at hlen
    · rintro rfl
      exact h.pop_nil
  oldest := by
    rintro x rest rfl
    obtain ⟨queue', hpop, -⟩ := h.pop_cons
    exact ⟨queue', hpop⟩

theorem UruQueue.Holds.run {fifo : BoundedFifo Int n} (h : queue.Holds fifo.values)
    (hsize : queue.size = n + 1) (ops : List (FifoOp Int)) :
    (queue.run ops).1 = (fifo.run ops).1.map popData ∧
      match (queue.run ops).2, (fifo.run ops).2 with
      | .ok queue', some fifo' => queue'.Serves n fifo'.values
      | .error stop, none => stop = .exit .assertExit
      | _, _ => False := by
  induction ops generalizing queue fifo with
  | nil => exact ⟨rfl, h.serves hsize⟩
  | cons op ops ih =>
      cases op with
      | push data =>
          rcases Nat.lt_or_ge fifo.values.length n with hroom | hfull
          · obtain ⟨queue', hpush, hholds, hsize'⟩ := h.push_ok (by omega) data
            obtain ⟨fifo', hfifo, hvalues⟩ := BoundedFifo.push_of_lt hroom data
            rw [UruQueue.run, BoundedFifo.run, hpush, hfifo]
            exact ih (hvalues ▸ hholds) (hsize'.trans hsize)
          · have hlen := Nat.le_antisymm fifo.length_le hfull
            have hpush := ((h.serves hsize).full data).mpr hlen
            rw [UruQueue.run, BoundedFifo.run, hpush, BoundedFifo.push_of_full hlen]
            exact ⟨rfl, rfl⟩
      | pop =>
          obtain ⟨values, hlen⟩ := fifo
          cases values with
          | nil =>
              obtain ⟨hout, hend⟩ := ih h hsize
              rw [UruQueue.run, BoundedFifo.run, h.pop_nil]
              exact ⟨congrArg (List.cons (-1)) hout, hend⟩
          | cons x xs =>
              obtain ⟨queue', hpop, hholds, hsize'⟩ := h.pop_cons
              rw [UruQueue.run, BoundedFifo.run, hpop]
              have hrest : queue'.Holds (⟨xs, Nat.le_of_succ_le hlen⟩ : BoundedFifo Int n).values :=
                hholds
              obtain ⟨hout, hend⟩ := ih hrest (hsize'.trans hsize)
              exact ⟨congrArg (List.cons x) hout, hend⟩

/-- A queue whose size and one more cell are counted in an `int32_t` is a
bounded queue. -/
theorem queue_refines_fifo (n : Nat) (hn : n + 1 < 2 ^ 31) : RefinesFifo n := by
  obtain ⟨queue, hinit⟩ : ∃ queue, uruQueueInit n = .ok queue := by
    rw [uruQueueInit, if_neg (by omega)]
    exact ⟨_, rfl⟩
  obtain ⟨hholds, hsize⟩ := holds_of_uruQueueInit hinit
  -- from the empty queue on, the two stay in step
  have hempty : queue.Holds (BoundedFifo.empty : BoundedFifo Int n).values := hholds
  exact ⟨queue, hinit, fun ops _ => hempty.run hsize ops⟩

theorem queue_refines_fifo_four : RefinesFifo 4 := queue_refines_fifo 4 (by decide)

theorem uruQueueInit_of_ge {queue_size : Nat} (h : 2 ^ 31 ≤ queue_size + 1) :
    uruQueueInit queue_size = .error .undefined := by
  rw [uruQueueInit, if_pos h]
  rfl

/-- The largest `int32_t` is such a size. -/
theorem largest_size_overflows : ¬ RefinesFifo (2 ^ 31 - 1) := by
  rintro ⟨queue, hinit, -⟩
  rw [uruQueueInit_of_ge (by decide)] at hinit
  cases hinit

end Unr.Uru
