import Mathlib

/-!
Queues in a circular buffer.

The buffer has one cell more than the queue can have entries, so an equal head
and tail mean an empty queue. A cell is `none` until it is written. What a
queue contains is a list, its oldest entry first; the rules say how the two
pointers and the cells change with it. What a queue is for is said by the
bounded queue, which has no buffer.
-/

namespace Unr.Logic

variable {α : Type}

/-- The buffer `buff` of `size` cells, with the given head and tail, contains
`xs`. -/
structure Ring (size head tail : Nat) (buff : List (Option α)) (xs : List α) : Prop where
  head_lt : head < size
  tail : tail = (head + xs.length) % size
  room : xs.length < size
  buff_length : buff.length = size
  entry : ∀ k, (hk : k < xs.length) → buff[(head + k) % size]? = some (some xs[k])

namespace Ring

variable {size head tail : Nat} {buff : List (Option α)} {xs : List α} {x : α}

theorem empty {size : Nat} (hsize : 0 < size) :
    Ring size 0 0 (List.replicate size (none : Option α)) [] where
  head_lt := hsize
  tail := by rw [List.length_nil, Nat.add_zero, Nat.zero_mod]
  room := hsize
  buff_length := List.length_replicate
  entry := fun _ hk => absurd hk (Nat.not_lt_zero _)

theorem size_pos (h : Ring size head tail buff xs) : 0 < size := Nat.zero_lt_of_lt h.head_lt

theorem tail_lt (h : Ring size head tail buff xs) : tail < size := by
  rw [h.tail]
  exact Nat.mod_lt _ h.size_pos

theorem cell_ne (head : Nat) {k l : Nat} (hk : k < size) (hl : l < size) (hne : k ≠ l) :
    (head + k) % size ≠ (head + l) % size := by
  intro heq
  have hmod := Nat.ModEq.add_left_cancel' head (show head + k ≡ head + l [MOD size] from heq)
  rw [Nat.ModEq, Nat.mod_eq_of_lt hk, Nat.mod_eq_of_lt hl] at hmod
  exact hne hmod

theorem head_eq_tail_iff (h : Ring size head tail buff xs) : head = tail ↔ xs = [] := by
  constructor
  · intro heq
    by_contra hne
    have hpos := List.length_pos_iff.mpr hne
    refine cell_ne head h.size_pos h.room hpos.ne ?_
    rw [Nat.add_zero, Nat.mod_eq_of_lt h.head_lt, ← h.tail]
    exact heq
  · rintro rfl
    rw [h.tail, List.length_nil, Nat.add_zero, Nat.mod_eq_of_lt h.head_lt]

/-- The tail runs into the head exactly if one cell is left. -/
theorem full_iff (h : Ring size head tail buff xs) :
    head = (tail + 1) % size ↔ xs.length + 1 = size := by
  have hnext : (tail + 1) % size = (head + (xs.length + 1)) % size := by
    rw [h.tail, Nat.mod_add_mod, Nat.add_assoc]
  rw [hnext]
  constructor
  · intro heq
    by_contra hne
    have hroom : xs.length + 1 < size := by
      have := h.room
      omega
    refine cell_ne head h.size_pos hroom (Nat.succ_ne_zero _).symm ?_
    rw [Nat.add_zero, Nat.mod_eq_of_lt h.head_lt]
    exact heq
  · intro heq
    rw [heq, Nat.add_mod_right, Nat.mod_eq_of_lt h.head_lt]

theorem push (h : Ring size head tail buff xs) (hroom : xs.length + 1 < size) :
    Ring size head ((tail + 1) % size) (buff.set tail (some x)) (xs ++ [x]) where
  head_lt := h.head_lt
  tail := by
    rw [h.tail, Nat.mod_add_mod, List.length_append, List.length_singleton, Nat.add_assoc]
  room := by simpa using hroom
  buff_length := by rw [List.length_set, h.buff_length]
  entry := by
    intro k hk
    rw [List.length_append, List.length_singleton] at hk
    by_cases hlast : k = xs.length
    · subst hlast
      rw [← h.tail, List.getElem?_set_self (by rw [h.buff_length]; exact h.tail_lt)]
      simp
    · have hlt : k < xs.length := by omega
      have hne : tail ≠ (head + k) % size := by
        rw [h.tail]
        exact (cell_ne head (by omega) h.room hlast).symm
      rw [List.getElem?_set_ne hne, h.entry k hlt, List.getElem_append_left hlt]

theorem pop (h : Ring size head tail buff (x :: xs)) :
    buff[head]? = some (some x) ∧ Ring size ((head + 1) % size) tail buff xs := by
  constructor
  · have hfirst := h.entry 0 (Nat.zero_lt_succ _)
    rwa [Nat.add_zero, Nat.mod_eq_of_lt h.head_lt] at hfirst
  · refine ⟨Nat.mod_lt _ h.size_pos, ?_, ?_, h.buff_length, fun k hk => ?_⟩
    · rw [h.tail, Nat.mod_add_mod, List.length_cons, Nat.add_assoc, Nat.add_comm 1]
    · have := h.room
      rw [List.length_cons] at this
      omega
    · have hnext := h.entry (k + 1) (Nat.succ_lt_succ hk)
      rw [List.getElem_cons_succ] at hnext
      rw [Nat.mod_add_mod, Nat.add_assoc, Nat.add_comm 1]
      exact hnext

theorem contents_eq (h : Ring size head tail buff xs) :
    ((List.range ((tail + size - head) % size)).map fun k =>
      (buff[(head + k) % size]?).join) = xs.map some := by
  have hlength : (tail + size - head) % size = xs.length := by
    have hroom := h.room
    have hhead := h.head_lt
    rw [h.tail]
    rcases Nat.lt_or_ge (head + xs.length) size with hlt | hge
    · rw [Nat.mod_eq_of_lt hlt, show head + xs.length + size - head = xs.length + size by omega,
        Nat.add_mod_right, Nat.mod_eq_of_lt hroom]
    · have hwrap : (head + xs.length) % size = head + xs.length - size := by
        rw [Nat.mod_eq_sub_mod hge, Nat.mod_eq_of_lt (by omega)]
      rw [hwrap, show head + xs.length - size + size - head = xs.length by omega,
        Nat.mod_eq_of_lt hroom]
  rw [hlength]
  apply List.ext_getElem (by simp)
  intro k h₁ h₂
  have hk : k < xs.length := by simpa using h₁
  simp [h.entry k hk]

end Ring

/-! ### The bounded queue -/

/-- A first-in first-out queue of at most `n` values, the oldest one first. -/
structure BoundedFifo (α : Type) (n : Nat) where
  values : List α
  length_le : values.length ≤ n

inductive FifoOp (α : Type)
  | push (x : α)
  | pop
  deriving Repr, DecidableEq

namespace BoundedFifo

variable {n : Nat}

def empty : BoundedFifo α n := ⟨[], Nat.zero_le n⟩

/-- A full queue does not take another value. -/
def push (q : BoundedFifo α n) (x : α) : Option (BoundedFifo α n) :=
  if hroom : q.values.length < n then
    some ⟨q.values ++ [x], by rw [List.length_append, List.length_singleton]; omega⟩
  else none

def pop : BoundedFifo α n → Option (α × BoundedFifo α n)
  | ⟨[], _⟩ => none
  | ⟨x :: xs, hlen⟩ => some (x, ⟨xs, Nat.le_of_succ_le hlen⟩)

/-- What the pops of a run return, and the queue after it. There is none if a
push has found the queue full. -/
def run (q : BoundedFifo α n) : List (FifoOp α) → List (Option α) × Option (BoundedFifo α n)
  | [] => ([], some q)
  | .push x :: ops =>
      match q.push x with
      | some q' => q'.run ops
      | none => ([], none)
  | .pop :: ops =>
      match q.pop with
      | some (x, q') => ((some x :: (q'.run ops).1), (q'.run ops).2)
      | none => (none :: (q.run ops).1, (q.run ops).2)

theorem push_of_lt {q : BoundedFifo α n} (hroom : q.values.length < n) (x : α) :
    ∃ q', q.push x = some q' ∧ q'.values = q.values ++ [x] := ⟨_, dif_pos hroom, rfl⟩

theorem push_of_full {q : BoundedFifo α n} (hfull : q.values.length = n) (x : α) :
    q.push x = none := dif_neg (by omega)

end BoundedFifo

end Unr.Logic
