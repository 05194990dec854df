import Unr.Uru.Flag

/-!
The operations, batches and control messages of the MPI channel, and the pool
of recycled integers behind its tags and batch ids.

Some records carry a field marked as ghost. The program has no such field; it
names the plan, the start and the position that an operation or a message
belongs to, so that two operations can be compared.
-/

namespace Unr.Mpi

open Unr.Uru

inductive OpType
  | opSend | opRecv
  deriving Repr, DecidableEq

def OpType.flip : OpType → OpType
  | .opSend => .opRecv
  | .opRecv => .opSend

/-- The bits of `flag`. -/
def freeOp : BitVec 8 := 1
def keepOp : BitVec 8 := 2
def freeAddr : BitVec 8 := 4
def keepAddr : BitVec 8 := 8
def freeReq : BitVec 8 := 16
def keepReq : BitVec 8 := 32
def freeTag : BitVec 8 := 64
def keepTag : BitVec 8 := 128

/-- `flag & bit`, as a condition. -/
def hasBit (flag bit : BitVec 8) : Bool := flag &&& bit ≠ 0

/-- `uri_mpi_op_t`. The request of an operation is not a number here: it is
identified by what the operation belongs to. -/
structure MpiOp where
  addr : Nat
  size : Nat
  flag_p : Option Nat
  flag_add : BitVec 64
  rank : Nat
  tag : Nat
  flag : BitVec 8
  op_type : OpType
  /-- Ghost: the plan, numbered by its creator. -/
  plan : Nat
  /-- Ghost: the write of the plan. -/
  index : Nat
  deriving Repr, DecidableEq

/-- A write: one start of one entry of one plan. A plan that is used once is
started as it is created, with start number 0. -/
structure WriteId where
  initiator : Nat
  plan : Nat
  start : Nat
  index : Nat
  deriving Repr, DecidableEq

/-- The batch that one target keeps for a plan. -/
structure OpBatch where
  /-- Ghost: the plan. -/
  plan : Nat
  ops : List MpiOp
  deriving Repr, DecidableEq

inductive CtrlMsg
  | createOpBatch (batch_id : Nat) (batch : OpBatch)
  /-- The plan is ghost. -/
  | destroyOpBatch (batch_id plan : Nat)
  /-- The plan and the start are ghost. -/
  | startOpBatch (batch_id plan start : Nat)
  | executeOpBatch (batch : OpBatch)
  deriving Repr, DecidableEq

/-! ### The pool of integers -/

/-- `uri_mpi_int_pool_t`. The first entry of the list is the top of the
stack. -/
structure IntPool where
  max : Nat
  recycle_stack : List Nat
  deriving Repr, DecidableEq

def IntPool.init : IntPool := { max := 1, recycle_stack := [] }

/-- The bound of both assertions of `uri_mpi_int_pool_get`. -/
def poolLimit (size : Nat) : Nat := 2100000000 / size

def IntPool.get (size rank : Nat) (pool : IntPool) : Prog (Nat × IntPool) :=
  match pool.recycle_stack with
  | ret :: stack => do
      uruAssert (ret < poolLimit size)
      return (ret * size + rank, { pool with recycle_stack := stack })
  | [] => do
      let ret := pool.max
      uruAssert (pool.max + 1 < poolLimit size)
      uruAssert (ret < poolLimit size)
      return (ret * size + rank, { pool with max := pool.max + 1 })

def IntPool.put (size rank : Nat) (pool : IntPool) (num : Nat) : Prog IntPool := do
  uruAssert (num % size = rank)
  return { pool with recycle_stack := (num - rank) / size :: pool.recycle_stack }

/-- The numbers in use and the numbers on the stack are all different, carry
the rank of their owner and have been handed out before. -/
structure IntPool.Ok (size rank : Nat) (pool : IntPool) (held : List Nat) : Prop where
  nodup : (held ++ pool.recycle_stack.map (· * size + rank)).Nodup
  range : ∀ num ∈ held ++ pool.recycle_stack.map (· * size + rank),
    ∃ k < pool.max, num = k * size + rank

namespace IntPool

variable {size rank : Nat} {pool pool' : IntPool} {held held' : List Nat} {num : Nat}

theorem ok_init : IntPool.init.Ok size rank [] := ⟨by simp [init], by simp [init]⟩

theorem Ok.perm (h : pool.Ok size rank held) (hperm : held.Perm held') :
    pool.Ok size rank held' where
  nodup := (hperm.append_right _).nodup_iff.mp h.nodup
  range := fun num hnum => h.range num ((hperm.append_right _).mem_iff.mpr hnum)

theorem Ok.held_nodup (h : pool.Ok size rank held) : held.Nodup :=
  (List.nodup_append.mp h.nodup).1

theorem Ok.mod_eq (h : pool.Ok size rank held) (hrank : rank < size) (hnum : num ∈ held) :
    num % size = rank := by
  obtain ⟨k, -, rfl⟩ := h.range num (List.mem_append_left _ hnum)
  exact Nat.mul_add_mod_of_lt hrank

theorem Ok.get (h : pool.Ok size rank held) (hsize : 0 < size)
    (hget : pool.get size rank = .ok (num, pool')) :
    pool'.Ok size rank (num :: held) := by
  obtain ⟨max, stack⟩ := pool
  cases stack with
  | cons ret stack =>
      simp only [IntPool.get, bind_eq_ok, pure_eq_ok, Prod.mk.injEq] at hget
      obtain ⟨-, -, rfl, rfl⟩ := hget
      have hperm : (held ++ (ret :: stack).map (· * size + rank)).Perm
          ((ret * size + rank) :: held ++ stack.map (· * size + rank)) := by
        rw [List.map_cons]
        exact List.perm_middle
      exact ⟨hperm.nodup_iff.mp h.nodup, fun num hnum => h.range num (hperm.mem_iff.mpr hnum)⟩
  | nil =>
      simp only [IntPool.get, bind_eq_ok, pure_eq_ok, Prod.mk.injEq] at hget
      obtain ⟨-, -, -, -, rfl, rfl⟩ := hget
      have hrange := h.range
      have hnodup := h.nodup
      simp only [List.map_nil, List.append_nil] at hrange hnodup
      refine ⟨?_, ?_⟩
      · simp only [List.map_nil, List.append_nil, List.nodup_cons]
        refine ⟨fun hmem => ?_, hnodup⟩
        obtain ⟨k, hk, heq⟩ := hrange _ hmem
        have hmax : max = k := Nat.eq_of_mul_eq_mul_right hsize (Nat.add_right_cancel heq)
        exact absurd hmax (Nat.ne_of_gt hk)
      · intro num hnum
        simp only [List.map_nil, List.append_nil, List.mem_cons] at hnum
        rcases hnum with rfl | hnum
        · exact ⟨max, Nat.lt_succ_self max, rfl⟩
        · obtain ⟨k, hk, rfl⟩ := hrange num hnum
          exact ⟨k, Nat.lt_succ_of_lt hk, rfl⟩

theorem Ok.put (h : pool.Ok size rank (num :: held)) (hsize : 0 < size)
    (hput : pool.put size rank num = .ok pool') : pool'.Ok size rank held := by
  simp only [IntPool.put, bind_eq_ok, pure_eq_ok] at hput
  obtain ⟨-, -, rfl⟩ := hput
  obtain ⟨k, hk, hnum⟩ := h.range num (by simp)
  have hdiv : (num - rank) / size = k := by
    rw [hnum, Nat.add_sub_cancel, Nat.mul_div_cancel _ hsize]
  have hperm : (num :: held ++ pool.recycle_stack.map (· * size + rank)).Perm
      (held ++ (k :: pool.recycle_stack).map (· * size + rank)) := by
    rw [List.map_cons, ← hnum]
    exact List.perm_middle.symm
  rw [hdiv]
  exact ⟨hperm.nodup_iff.mp h.nodup, fun num hnum => h.range num (hperm.mem_iff.mpr hnum)⟩

end IntPool

end Unr.Mpi
