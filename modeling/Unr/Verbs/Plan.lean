import Unr.Mpi.Channel

/-!
`uri_verbs_rdma_plan_create`: a list of writes becomes a list of work
requests.

The entries of the arrays are those of the MPI channel; both channels are
called through `uri_rdma_plan_create`. What a work request says about flags is
carried in three places: the two halves of `wr_id`, which come back with the
completion of the request at its sender, and the immediate data, which comes
with the completion at the receiver.
-/

namespace Unr.Verbs

open Unr.Uru
open Unr.Mpi (MemInfo Write)

/-- `uru_flag_pool_t`, as one process sees it. A flag pointer is counted in
flags, so that the difference of two pointers is a difference of numbers. -/
structure FlagPool where
  size : Nat
  rmt_base : List Nat
  deriving Repr, DecidableEq

/-- `uri_verbs_event_fill`. The result is `flag_p32`. -/
def uriVerbsEventFill (mpi_size : Nat) (flag_pool : FlagPool) (dst_rank flag_p : Nat)
    (add_num : BitVec 64) : Prog (BitVec 32) := do
  uruAssert (add_num = -1#64)
  uruAssert (dst_rank < mpi_size)
  let base ← fetch flag_pool.rmt_base dst_rank
  uruAssert (base ≤ flag_p ∧ flag_p < base + flag_pool.size)
  return BitVec.ofNat 32 (flag_p - base)

inductive IbvWrOpcode
  | rdmaWrite | rdmaWriteWithImm | rdmaRead
  deriving Repr, DecidableEq

structure WrId where
  rmt_imm_protocol : BitVec 32
  imm_protocol : BitVec 32
  deriving Repr, DecidableEq

structure IbvSge where
  addr : Nat
  length : BitVec 32
  lkey : BitVec 32
  deriving Repr, DecidableEq

/-- `struct ibv_send_wr`, with the bits of `send_flags`. -/
structure IbvSendWr where
  wr_id : WrId
  sg_list : Option IbvSge
  opcode : IbvWrOpcode
  inline : Bool
  signaled : Bool
  imm_data : BitVec 32
  remote_addr : Nat
  rkey : BitVec 32
  deriving Repr, DecidableEq

/-- `wr[i]` and `dst_rank[i]` of `uri_verbs_plan_t`. -/
structure PlanWr where
  wr : IbvSendWr
  dst_rank : Nat
  deriving Repr, DecidableEq

def verbsMaxInlineData : Nat := 96

section

variable (mpi_size : Nat) (flag_pool : FlagPool) (lkey rkey : MemInfo → BitVec 32)

def opcodeOf : UruTransfer → Prog IbvWrOpcode
  | .dmaPut => .ok .rdmaWrite
  | .dmaGet => .ok .rdmaRead
  | .unknown => .error (.exit .verbsErrorExit)

def setSendEvent (w : Write) (wr : IbvSendWr) : Prog IbvSendWr :=
  let wr := { wr with signaled := true }
  match w.loc_flag_p with
  | some flag_p => do
      let event ← uriVerbsEventFill mpi_size flag_pool w.loc_mem.rank flag_p w.loc_flag_add
      return { wr with wr_id := { wr.wr_id with imm_protocol := event } }
  | none => .ok wr

def setRecvEvent (w : Write) (wr : IbvSendWr) : Prog IbvSendWr :=
  match w.rmt_flag_p with
  | some flag_p => do
      let event ← uriVerbsEventFill mpi_size flag_pool w.rmt_mem.rank flag_p w.rmt_flag_add
      return if wr.opcode = .rdmaWrite then
        { wr with opcode := .rdmaWriteWithImm, imm_data := event }
      else
        { wr with signaled := true, wr_id := { wr.wr_id with rmt_imm_protocol := event } }
  | none => .ok wr

/-- A turn of the loop over the writes. The keys are those behind the two
memory handles. The block is taken to lie in its region, so that no address wraps. -/
def planWr (w : Write) : Prog PlanWr := do
  let opcode ← opcodeOf w.dma_type
  let wr ← setSendEvent mpi_size flag_pool w {
    wr_id := ⟨0, 0⟩
    sg_list := some ⟨w.loc_mem.addr + w.loc_offset, BitVec.ofNat 32 w.dma_size, lkey w.loc_mem⟩
    opcode := opcode
    inline := decide (w.dma_size ≤ verbsMaxInlineData ∧ opcode = .rdmaWrite)
    signaled := false
    imm_data := 0
    remote_addr := w.rmt_mem.addr + w.rmt_offset
    rkey := rkey w.rmt_mem }
  let wr ← setRecvEvent mpi_size flag_pool w wr
  return { wr := wr, dst_rank := w.rmt_mem.rank }

/-- `uri_verbs_rdma_plan_create`, up to the start of a plan that is used
once. -/
def uriVerbsRdmaPlanCreate (writes : List Write) : Prog (List PlanWr) :=
  writes.mapM (planWr mpi_size flag_pool lkey rkey)

end

/-! ### What the two functions accept -/

variable {mpi_size : Nat} {flag_pool : FlagPool} {lkey rkey : MemInfo → BitVec 32}

theorem uriVerbsEventFill_eq_ok {dst_rank flag_p : Nat} {add_num : BitVec 64}
    {event : BitVec 32} :
    uriVerbsEventFill mpi_size flag_pool dst_rank flag_p add_num = .ok event ↔
      add_num = -1#64 ∧ dst_rank < mpi_size ∧ ∃ base, flag_pool.rmt_base[dst_rank]? = some base ∧
        (base ≤ flag_p ∧ flag_p < base + flag_pool.size) ∧
        event = BitVec.ofNat 32 (flag_p - base) := by
  simp only [uriVerbsEventFill, bind_eq_ok, uruAssert_eq_ok, fetch_eq_ok, pure_eq_ok]
  constructor
  · rintro ⟨-, hadd, -, hrank, base, hbase, -, hflag, rfl⟩
    exact ⟨hadd, hrank, base, hbase, hflag, rfl⟩
  · rintro ⟨hadd, hrank, base, hbase, hflag, rfl⟩
    exact ⟨(), hadd, (), hrank, base, hbase, (), hflag, rfl⟩

def FlagPool.Holds (flag_pool : FlagPool) (mpi_size dst_rank flag_p : Nat) : Prop :=
  dst_rank < mpi_size ∧ ∃ base, flag_pool.rmt_base[dst_rank]? = some base ∧
    base ≤ flag_p ∧ flag_p < base + flag_pool.size

/-- The event of a flag of the pool can be filled in exactly if it subtracts
one. -/
theorem uriVerbsEventFill_iff {dst_rank flag_p : Nat} {add_num : BitVec 64}
    (hflag : flag_pool.Holds mpi_size dst_rank flag_p) :
    (∃ event, uriVerbsEventFill mpi_size flag_pool dst_rank flag_p add_num = .ok event) ↔
      add_num = -1#64 := by
  obtain ⟨hrank, base, hbase, hrange⟩ := hflag
  constructor
  · rintro ⟨event, hevent⟩
    exact (uriVerbsEventFill_eq_ok.mp hevent).1
  · intro hadd
    exact ⟨_, uriVerbsEventFill_eq_ok.mpr ⟨hadd, hrank, base, hbase, hrange, rfl⟩⟩

/-- A flag that `uru_flag_pool_alloc` has handed out to a rank. Flag 0 of the
pool is reserved. -/
def FlagPool.Allocated (flag_pool : FlagPool) (mpi_size dst_rank flag_p : Nat) : Prop :=
  dst_rank < mpi_size ∧ ∃ base, flag_pool.rmt_base[dst_rank]? = some base ∧
    base < flag_p ∧ flag_p < base + flag_pool.size

theorem FlagPool.Allocated.holds {dst_rank flag_p : Nat}
    (h : flag_pool.Allocated mpi_size dst_rank flag_p) :
    flag_pool.Holds mpi_size dst_rank flag_p := by
  obtain ⟨hrank, base, hbase, hlow, hhigh⟩ := h
  exact ⟨hrank, base, hbase, Nat.le_of_lt hlow, hhigh⟩

/-- The flag that an event names in the pool of a rank; 0 names none. -/
def FlagPool.named (flag_pool : FlagPool) (dst_rank : Nat) (event : BitVec 32) : Option Nat :=
  if event = 0 then none
  else (flag_pool.rmt_base[dst_rank]?).map (· + event.toNat)

/-- An event names the flag it was made for. The pool has at most `2 ^ 32`
flags. -/
theorem FlagPool.named_of_fill (hsize : flag_pool.size ≤ 2 ^ 32) {dst_rank flag_p : Nat}
    {add_num : BitVec 64} {event : BitVec 32}
    (halloc : flag_pool.Allocated mpi_size dst_rank flag_p)
    (hfill : uriVerbsEventFill mpi_size flag_pool dst_rank flag_p add_num = .ok event) :
    flag_pool.named dst_rank event = some flag_p := by
  obtain ⟨-, base, hbase, hlow, hhigh⟩ := halloc
  obtain ⟨-, -, base', hbase', -, rfl⟩ := uriVerbsEventFill_eq_ok.mp hfill
  cases hbase.symm.trans hbase'
  have hval : (BitVec.ofNat 32 (flag_p - base)).toNat = flag_p - base := by
    rw [BitVec.toNat_ofNat]
    exact Nat.mod_eq_of_lt (by omega)
  have hne : ¬ BitVec.ofNat 32 (flag_p - base) = 0 := by
    intro hzero
    rw [hzero] at hval
    have hval' : 0 = flag_p - base := hval
    omega
  rw [named, if_neg hne, hbase, Option.map_some, hval]
  congr 1
  omega

/-! ### The work request of a write -/

def IbvSendWr.locEvent (wr : IbvSendWr) : BitVec 32 := wr.wr_id.imm_protocol

/-- The event of the receiver: the immediate data of a put, or those of the
notification that follows a get. -/
def IbvSendWr.rmtEvent (wr : IbvSendWr) : BitVec 32 :=
  match wr.opcode with
  | .rdmaWrite => 0
  | .rdmaWriteWithImm => wr.imm_data
  | .rdmaRead => wr.wr_id.rmt_imm_protocol

/-- `flag_p32` of an event that may be absent. -/
def EventOf (mpi_size : Nat) (flag_pool : FlagPool) (dst_rank : Nat) (flag_p : Option Nat)
    (add_num : BitVec 64) (event : BitVec 32) : Prop :=
  match flag_p with
  | some flag_p => uriVerbsEventFill mpi_size flag_pool dst_rank flag_p add_num = .ok event
  | none => event = 0

/-- What the work request of a write looks like: where the two events are
carried depends on the direction. -/
structure WrOf (mpi_size : Nat) (flag_pool : FlagPool) (lkey rkey : MemInfo → BitVec 32)
    (w : Write) (pr : PlanWr) : Prop where
  dst_rank : pr.dst_rank = w.rmt_mem.rank
  signaled : pr.wr.signaled = true
  sg_list : pr.wr.sg_list =
    some ⟨w.loc_mem.addr + w.loc_offset, BitVec.ofNat 32 w.dma_size, lkey w.loc_mem⟩
  remote : pr.wr.remote_addr = w.rmt_mem.addr + w.rmt_offset ∧ pr.wr.rkey = rkey w.rmt_mem
  loc_event : EventOf mpi_size flag_pool w.loc_mem.rank w.loc_flag_p w.loc_flag_add
    pr.wr.wr_id.imm_protocol
  put : w.dma_type = .dmaPut → pr.wr.wr_id.rmt_imm_protocol = 0 ∧
    pr.wr.opcode = (if w.rmt_flag_p.isSome then .rdmaWriteWithImm else .rdmaWrite) ∧
    EventOf mpi_size flag_pool w.rmt_mem.rank w.rmt_flag_p w.rmt_flag_add pr.wr.imm_data
  get : w.dma_type = .dmaGet → pr.wr.opcode = .rdmaRead ∧
    EventOf mpi_size flag_pool w.rmt_mem.rank w.rmt_flag_p w.rmt_flag_add
      pr.wr.wr_id.rmt_imm_protocol
  known : w.dma_type ≠ .unknown

theorem wrOf_planWr {w : Write} {pr : PlanWr}
    (h : planWr mpi_size flag_pool lkey rkey w = .ok pr) :
    WrOf mpi_size flag_pool lkey rkey w pr := by
  obtain ⟨opcode, hopcode, h⟩ := bind_eq_ok.mp h
  obtain ⟨wr, hsend, h⟩ := bind_eq_ok.mp h
  obtain ⟨wr', hrecv, h⟩ := bind_eq_ok.mp h
  cases h
  -- the send event
  have hwr : wr.signaled = true ∧ wr.opcode = opcode ∧ wr.wr_id.rmt_imm_protocol = 0 ∧
      wr.sg_list =
        some ⟨w.loc_mem.addr + w.loc_offset, BitVec.ofNat 32 w.dma_size, lkey w.loc_mem⟩ ∧
      wr.remote_addr = w.rmt_mem.addr + w.rmt_offset ∧ wr.rkey = rkey w.rmt_mem ∧
      wr.imm_data = 0 ∧ EventOf mpi_size flag_pool w.loc_mem.rank w.loc_flag_p w.loc_flag_add
        wr.wr_id.imm_protocol := by
    unfold setSendEvent at hsend
    unfold EventOf
    cases hloc : w.loc_flag_p with
    | none =>
        rw [hloc] at hsend
        cases hsend
        exact ⟨rfl, rfl, rfl, rfl, rfl, rfl, rfl, rfl⟩
    | some flag_p =>
        rw [hloc] at hsend
        obtain ⟨event, hevent, hsend⟩ := bind_eq_ok.mp hsend
        cases hsend
        exact ⟨rfl, rfl, rfl, rfl, rfl, rfl, rfl, hevent⟩
  obtain ⟨hsignaled, rfl, hrmt_imm, hsg, haddr, hrkey, himm, hloc⟩ := hwr
  -- the receive event
  unfold setRecvEvent at hrecv
  cases hrmt : w.rmt_flag_p with
  | none =>
      rw [hrmt] at hrecv
      cases hrecv
      refine ⟨rfl, hsignaled, hsg, ⟨haddr, hrkey⟩, hloc, fun hput => ?_, fun hget => ?_, ?_⟩
      · rw [hput] at hopcode
        exact ⟨hrmt_imm, by simpa [hrmt] using (Except.ok.inj hopcode).symm,
          by rw [hrmt]; exact himm⟩
      · rw [hget] at hopcode
        exact ⟨(Except.ok.inj hopcode).symm, by rw [hrmt]; exact hrmt_imm⟩
      · intro hunknown
        rw [hunknown] at hopcode
        cases hopcode
  | some flag_p =>
      rw [hrmt] at hrecv
      obtain ⟨event, hevent, hrecv⟩ := bind_eq_ok.mp hrecv
      cases hrecv
      cases htype : w.dma_type with
      | unknown =>
          rw [htype] at hopcode
          cases hopcode
      | dmaPut =>
          rw [htype] at hopcode
          have hwrite : wr.opcode = .rdmaWrite := (Except.ok.inj hopcode).symm
          simp only [hwrite, if_true]
          exact ⟨rfl, hsignaled, hsg, ⟨haddr, hrkey⟩, hloc,
            fun _ => ⟨hrmt_imm, by simp [hrmt], by rw [hrmt]; exact hevent⟩,
            fun hget => (nomatch htype.symm.trans hget), fun h => (nomatch htype.symm.trans h)⟩
      | dmaGet =>
          rw [htype] at hopcode
          have hread : wr.opcode = .rdmaRead := (Except.ok.inj hopcode).symm
          have hnot : ¬ wr.opcode = .rdmaWrite := by rw [hread]; decide
          simp only [hnot, if_false]
          exact ⟨rfl, rfl, hsg, ⟨haddr, hrkey⟩, hloc,
            fun hput => (nomatch htype.symm.trans hput),
            fun _ => ⟨hread, by rw [hrmt]; exact hevent⟩,
            fun h => (nomatch htype.symm.trans h)⟩

/-- The checks of the channel pass exactly if the direction is known and every
event subtracts one, provided that the flags are flags of the pool. -/
theorem planWr_iff {w : Write} (htype : w.dma_type ≠ .unknown)
    (hloc : ∀ flag_p, w.loc_flag_p = some flag_p →
      flag_pool.Holds mpi_size w.loc_mem.rank flag_p)
    (hrmt : ∀ flag_p, w.rmt_flag_p = some flag_p →
      flag_pool.Holds mpi_size w.rmt_mem.rank flag_p) :
    (∃ pr, planWr mpi_size flag_pool lkey rkey w = .ok pr) ↔
      (w.loc_flag_p.isSome → w.loc_flag_add = -1#64) ∧
        (w.rmt_flag_p.isSome → w.rmt_flag_add = -1#64) := by
  -- an event can be filled in exactly if its flag, if any, is decremented by one
  have hfill : ∀ {dst_rank add_num} {flag_p : Option Nat},
      (∀ f, flag_p = some f → flag_pool.Holds mpi_size dst_rank f) →
      ((∃ event, EventOf mpi_size flag_pool dst_rank flag_p add_num event) ↔
        (flag_p.isSome → add_num = -1#64)) := by
    intro dst_rank add_num flag_p hholds
    cases flag_p with
    | none => simp [EventOf]
    | some f => simpa [EventOf] using uriVerbsEventFill_iff (hholds f rfl)
  rw [← hfill hloc, ← hfill hrmt]
  constructor
  · rintro ⟨pr, hpr⟩
    have hwr := wrOf_planWr hpr
    refine ⟨⟨_, hwr.loc_event⟩, ?_⟩
    cases hcase : w.dma_type with
    | unknown => exact absurd hcase htype
    | dmaPut => exact ⟨_, (hwr.put hcase).2.2⟩
    | dmaGet => exact ⟨_, (hwr.get hcase).2⟩
  · rintro ⟨⟨locEvent, hlocEvent⟩, rmtEvent, hrmtEvent⟩
    obtain ⟨opcode, hopcode⟩ : ∃ opcode, opcodeOf w.dma_type = .ok opcode := by
      cases hcase : w.dma_type with
      | unknown => exact absurd hcase htype
      | dmaPut => exact ⟨_, rfl⟩
      | dmaGet => exact ⟨_, rfl⟩
    have hsend : ∀ wr, ∃ wr', setSendEvent mpi_size flag_pool w wr = .ok wr' := by
      intro wr
      unfold setSendEvent
      unfold EventOf at hlocEvent
      cases hflag : w.loc_flag_p with
      | none => exact ⟨_, rfl⟩
      | some f =>
          rw [hflag] at hlocEvent
          exact ⟨_, bind_eq_ok.mpr ⟨locEvent, hlocEvent, rfl⟩⟩
    have hrecv : ∀ wr, ∃ wr', setRecvEvent mpi_size flag_pool w wr = .ok wr' := by
      intro wr
      unfold setRecvEvent
      unfold EventOf at hrmtEvent
      cases hflag : w.rmt_flag_p with
      | none => exact ⟨_, rfl⟩
      | some f =>
          rw [hflag] at hrmtEvent
          exact ⟨_, bind_eq_ok.mpr ⟨rmtEvent, hrmtEvent, rfl⟩⟩
    obtain ⟨wr, hwr⟩ := hsend _
    obtain ⟨wr', hwr'⟩ := hrecv wr
    exact ⟨_, bind_eq_ok.mpr ⟨opcode, hopcode,
      bind_eq_ok.mpr ⟨wr, hwr, bind_eq_ok.mpr ⟨wr', hwr', rfl⟩⟩⟩⟩

end Unr.Verbs
