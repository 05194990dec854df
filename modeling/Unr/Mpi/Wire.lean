import Unr.Mpi.Channel
import Unr.Logic.Record

/-!
Control messages as bytes.

The sender builds a message in memory it has just allocated, whose contents are
arbitrary, and stores the fields one by one. The receiver has one buffer for
the messages of all processes. It grows the buffer when a message is longer,
clears it, receives the message into it, and reads the fields. What it reads is
what the sender meant, except that a message of `2 ^ 30` bytes that needs a
longer buffer makes the new length overflow.
-/

namespace Unr.Mpi

open Unr.Uru Unr.Logic

/-! ### Layout

`MPI_Request` is an `int` in some implementations of MPI and a pointer in
others; `req_len` is its size. -/

/-- The members of `uri_mpi_op_t`, but for `mpi_req`. -/
def MpiOp.addrField : Field := ⟨0, 8⟩
def MpiOp.sizeField : Field := ⟨8, 8⟩
def MpiOp.flagPField : Field := ⟨16, 8⟩
def MpiOp.flagAddField : Field := ⟨24, 8⟩
def MpiOp.rankField : Field := ⟨32, 4⟩
def MpiOp.tagField : Field := ⟨36, 4⟩
def MpiOp.flagField (req_len : Nat) : Field := ⟨40 + req_len, 4⟩
def MpiOp.opTypeField (req_len : Nat) : Field := ⟨44 + req_len, 4⟩

def sizeofMpiOp : Nat := 56

/-- The members of `uri_mpi_op_batch_t`, and its size. -/
def numOpField : Field := ⟨0, 4⟩
def batchIdField : Field := ⟨4, 4⟩
def sizeofOpBatch : Nat := 8

/-- The members of `uri_mpi_ctrl_msg_t`, and its size. -/
def typeField : Field := ⟨0, 4⟩
def dataBatchIdField : Field := ⟨8, 4⟩
def sizeofCtrlMsg : Nat := 16

/-- The values of `type`. -/
def createOpBatchType : Nat := 2
def destroyOpBatchType : Nat := 3
def startOpBatchType : Nat := 4
def executeOpBatchType : Nat := 5

def OpType.number : OpType → Nat
  | .opSend => 2
  | .opRecv => 4

def minusOne : Nat := 2 ^ 32 - 1

/-! ### The sender -/

/-- The fields in the order in which `uri_mpi_rdma_plan_create` sets them. -/
def MpiOp.fields (req_len : Nat) (op : MpiOp) : List (Field × Nat) :=
  [(addrField, op.addr), (sizeField, op.size), (flagPField, op.flag_p.getD 0),
    (flagAddField, op.flag_add.toNat), (rankField, op.rank),
    (opTypeField req_len, op.op_type.number), (tagField, op.tag),
    (flagField req_len, op.flag.toNat)]

/-- An element of `recv_op_arr`, which is cleared when it is allocated. -/
def MpiOp.bytes (req_len : Nat) (op : MpiOp) : List (BitVec 8) :=
  storeAll (op.fields req_len) (List.replicate sizeofMpiOp 0)

/-- `recv_batch[i]`, in the memory `heap`. -/
def recvBatchBytes (req_len batch_id : Nat) (group : List MpiOp) (heap : List (BitVec 8)) :
    List (BitVec 8) :=
  storeField batchIdField batch_id
    (splice (storeField numOpField group.length heap) sizeofOpBatch
      (group.map (·.bytes req_len)).flatten)

/-- The message of a turn of the loop over the receivers, in the memory
`heap'`. -/
def announceBytes (req_len rank type batch_id : Nat) (group : List MpiOp)
    (heap heap' : List (BitVec 8)) : List (BitVec 8) :=
  let ctrl_msg := storeField typeField type (storeField dataBatchIdField batch_id heap')
  let ctrl_msg := splice ctrl_msg sizeofCtrlMsg (recvBatchBytes req_len batch_id group heap)
  (List.range group.length).foldl
    (changeRecord (sizeofCtrlMsg + sizeofOpBatch) sizeofMpiOp (storeField MpiOp.rankField rank))
    ctrl_msg

/-- The message of `uri_mpi_rdma_plan_start` or `uri_mpi_rdma_plan_destroy`, in
the memory `heap`. -/
def plainBytes (type batch_id : Nat) (heap : List (BitVec 8)) : List (BitVec 8) :=
  storeField dataBatchIdField batch_id (storeField typeField type heap)

structure MpiOp.Fits (op : MpiOp) : Prop where
  addr : op.addr < 2 ^ 64
  size : op.size < 2 ^ 64
  /-- A flag is not at the null pointer. -/
  flag_p : ∀ f ∈ op.flag_p, f ≠ 0 ∧ f < 2 ^ 64
  tag : op.tag < 2 ^ 31

/-- The bytes that process `rank` may send for a message. -/
inductive Sends (req_len rank : Nat) : CtrlMsg → List (BitVec 8) → Prop
  | create {batch_id plan : Nat} {group : List MpiOp} {heap heap' : List (BitVec 8)}
      (hfits : ∀ op ∈ group, op.Fits) (hrank : rank < 2 ^ 31) (hid : batch_id < 2 ^ 31)
      (hlen : group.length < 2 ^ 31)
      (hheap : heap.length = sizeofOpBatch + sizeofMpiOp * group.length)
      (hheap' : heap'.length = sizeofCtrlMsg + sizeofOpBatch + sizeofMpiOp * group.length) :
      Sends req_len rank (.createOpBatch batch_id ⟨plan, addressed rank group⟩)
        (announceBytes req_len rank createOpBatchType batch_id group heap heap')
  | execute {plan : Nat} {group : List MpiOp} {heap heap' : List (BitVec 8)}
      (hfits : ∀ op ∈ group, op.Fits) (hrank : rank < 2 ^ 31)
      (hlen : group.length < 2 ^ 31)
      (hheap : heap.length = sizeofOpBatch + sizeofMpiOp * group.length)
      (hheap' : heap'.length = sizeofCtrlMsg + sizeofOpBatch + sizeofMpiOp * group.length) :
      Sends req_len rank (.executeOpBatch ⟨plan, addressed rank group⟩)
        (announceBytes req_len rank executeOpBatchType minusOne group heap heap')
  | start {batch_id plan start : Nat} {heap : List (BitVec 8)} (hid : batch_id < 2 ^ 31)
      (hheap : heap.length = sizeofCtrlMsg) :
      Sends req_len rank (.startOpBatch batch_id plan start)
        (plainBytes startOpBatchType batch_id heap)
  | destroy {batch_id plan : Nat} {heap : List (BitVec 8)} (hid : batch_id < 2 ^ 31)
      (hheap : heap.length = sizeofCtrlMsg) :
      Sends req_len rank (.destroyOpBatch batch_id plan)
        (plainBytes destroyOpBatchType batch_id heap)

/-! ### The receiver -/

structure OpRecord where
  addr : Nat
  size : Nat
  flag_p : Option Nat
  flag_add : BitVec 64
  rank : Nat
  tag : Nat
  flag : BitVec 32
  op_type : OpType
  deriving Repr, DecidableEq

inductive RecvMsg
  | createOpBatch (batch_id : Nat) (ops : List OpRecord)
  | destroyOpBatch (batch_id : Nat)
  | startOpBatch (batch_id : Nat)
  | executeOpBatch (ops : List OpRecord)
  deriving Repr, DecidableEq

def readOpType (op_type : Nat) : Prog OpType :=
  if op_type &&& OpType.opRecv.number ≠ 0 then .ok .opRecv
  else if op_type &&& OpType.opSend.number ≠ 0 then .ok .opSend
  else .error (.exit .mpiChannelErrorExit)

def readOp (req_len : Nat) (obj : List (BitVec 8)) : Prog OpRecord := do
  let op_type ← readOpType (loadField (MpiOp.opTypeField req_len) obj)
  let flag_p := loadField MpiOp.flagPField obj
  return {
    addr := loadField MpiOp.addrField obj
    size := loadField MpiOp.sizeField obj
    flag_p := if flag_p = 0 then none else some flag_p
    flag_add := BitVec.ofNat 64 (loadField MpiOp.flagAddField obj)
    rank := loadField MpiOp.rankField obj
    tag := loadField MpiOp.tagField obj
    flag := BitVec.ofNat 32 (loadField (MpiOp.flagField req_len) obj)
    op_type := op_type }

def readOps (req_len : Nat) (buf : List (BitVec 8)) : Prog (List OpRecord) :=
  (List.range (loadField ⟨sizeofCtrlMsg + numOpField.off, numOpField.len⟩ buf)).mapM fun j =>
    readOp req_len (slice buf (sizeofCtrlMsg + sizeofOpBatch + j * sizeofMpiOp) sizeofMpiOp)

/-- What `uri_mpi_process_ctrl_msg` reads of the message in the buffer. -/
def readMsg (req_len : Nat) (buf : List (BitVec 8)) : Prog RecvMsg :=
  let type := loadField typeField buf
  let batch_id := loadField dataBatchIdField buf
  if type = createOpBatchType then do
    let ops ← readOps req_len buf
    return .createOpBatch batch_id ops
  else if type = destroyOpBatchType then .ok (.destroyOpBatch batch_id)
  else if type = startOpBatchType then .ok (.startOpBatch batch_id)
  else if type = executeOpBatchType then do
    let ops ← readOps req_len buf
    return .executeOpBatch ops
  else .error (.exit .assertExit)

/-- `ctrl_msg_buf` after a message has been received. `msg_size * 2` is an
`int`. -/
def receive (ctrl_msg_buf msg : List (BitVec 8)) : Prog (List (BitVec 8)) :=
  if ctrl_msg_buf.length < msg.length then
    if msg.length * 2 < 2 ^ 31 then .ok (splice (List.replicate (msg.length * 2) 0) 0 msg)
    else .error .undefined
  else .ok (splice (List.replicate ctrl_msg_buf.length 0) 0 msg)

/-- The loop of the daemon over the messages that have arrived. -/
def receiveAll (req_len : Nat) : List (BitVec 8) → List (List (BitVec 8)) →
    Prog (List RecvMsg × List (BitVec 8))
  | ctrl_msg_buf, [] => .ok ([], ctrl_msg_buf)
  | ctrl_msg_buf, msg :: msgs => do
      let ctrl_msg_buf ← receive ctrl_msg_buf msg
      let read ← readMsg req_len ctrl_msg_buf
      let (reads, ctrl_msg_buf) ← receiveAll req_len ctrl_msg_buf msgs
      return (read :: reads, ctrl_msg_buf)

/-! ### What is read -/

def MpiOp.record (op : MpiOp) : OpRecord where
  addr := op.addr
  size := op.size
  flag_p := op.flag_p
  flag_add := op.flag_add
  rank := op.rank
  tag := op.tag
  flag := op.flag.setWidth 32
  op_type := op.op_type

def CtrlMsg.read : CtrlMsg → RecvMsg
  | .createOpBatch batch_id batch => .createOpBatch batch_id (batch.ops.map (·.record))
  | .destroyOpBatch batch_id _ => .destroyOpBatch batch_id
  | .startOpBatch batch_id _ _ => .startOpBatch batch_id
  | .executeOpBatch batch => .executeOpBatch (batch.ops.map (·.record))

/-- Each message fits into the buffer, which holds `capacity` bytes, or is short
enough that the buffer can grow. -/
def Roomy : Nat → List Nat → Prop
  | _, [] => True
  | capacity, msg_size :: sizes =>
      (msg_size ≤ capacity ∨ msg_size < 2 ^ 30) ∧
        Roomy (if capacity < msg_size then msg_size * 2 else capacity) sizes

/-! ### Operations -/

section Ops

variable {req_len rank : Nat} {op : MpiOp}

theorem MpiOp.fields_in (hreq : req_len ≤ 8) :
    ∀ f ∈ op.fields req_len,
    f.1.off + f.1.len ≤ (List.replicate sizeofMpiOp (0 : BitVec 8)).length := by
  simp only [fields, List.length_replicate, List.forall_mem_cons, List.not_mem_nil, false_implies,
    implies_true, and_true, addrField, sizeField, flagPField, flagAddField, rankField, tagField,
    flagField, opTypeField, sizeofMpiOp]
  omega

@[simp] theorem MpiOp.length_bytes (hreq : req_len ≤ 8) :
    (op.bytes req_len).length = sizeofMpiOp := by
  rw [MpiOp.bytes, length_storeAll (fields_in hreq), List.length_replicate]

theorem MpiOp.load_bytes (hreq : req_len ≤ 8) {f : Field} {x : Nat}
    (hmem : (f, x) ∈ op.fields req_len) (hx : x < 256 ^ f.len) :
    loadField f (op.bytes req_len) = x := by
  refine load_storeAll (fields_in hreq) ?_ hmem hx
  simp only [fields, List.map_cons, List.map_nil, List.pairwise_cons, List.forall_mem_cons,
    List.not_mem_nil, false_implies, implies_true, and_true, List.Pairwise.nil, Field.apart,
    addrField, sizeField, flagPField, flagAddField, rankField, tagField, flagField, opTypeField]
  omega

theorem readOp_bytes (hreq : req_len ≤ 8) (hrank : rank < 2 ^ 31) (hfits : op.Fits) :
    readOp req_len (storeField MpiOp.rankField rank (op.bytes req_len)) =
      .ok { op with rank := rank }.record := by
  have hin : MpiOp.rankField.off + MpiOp.rankField.len ≤ (op.bytes req_len).length := by
    rw [MpiOp.length_bytes hreq]
    decide
  have hload : ∀ {f : Field} {x : Nat}, MpiOp.rankField.apart f → (f, x) ∈ op.fields req_len →
      x < 256 ^ f.len →
      loadField f (storeField MpiOp.rankField rank (op.bytes req_len)) = x := by
    intro f x hapart hmem hx
    rw [load_storeField_apart hin hapart, MpiOp.load_bytes hreq hmem hx]
  have hflag : op.flag_p.getD 0 < 256 ^ 8 := by
    match hf : op.flag_p with
    | none => decide
    | some f => exact (hfits.flag_p f hf).2
  have hnumber : op.op_type.number < 256 ^ 4 := by
    cases op.op_type <;> decide
  have hread : readOpType op.op_type.number = .ok op.op_type := by
    cases op.op_type <;> rfl
  have hnull : (if op.flag_p.getD 0 = 0 then none else some (op.flag_p.getD 0)) = op.flag_p := by
    match hf : op.flag_p with
    | none => rfl
    | some f => exact if_neg (hfits.flag_p f hf).1
  have haddr := @hload MpiOp.addrField op.addr (by decide) (by simp [MpiOp.fields]) hfits.addr
  have hsize := @hload MpiOp.sizeField op.size (by decide) (by simp [MpiOp.fields]) hfits.size
  have hflagP := @hload MpiOp.flagPField _ (by decide) (by simp [MpiOp.fields]) hflag
  have hadd := @hload MpiOp.flagAddField _ (by decide) (by simp [MpiOp.fields]) op.flag_add.isLt
  have htag := @hload MpiOp.tagField op.tag (by decide) (by simp [MpiOp.fields])
    (lt_trans hfits.tag (by decide))
  have hbits := @hload (MpiOp.flagField req_len) _ (.inl (Nat.le_add_right_of_le (by decide)))
    (by simp [MpiOp.fields]) (lt_trans op.flag.isLt (by decide : 2 ^ 8 < 256 ^ 4))
  have htype := @hload (MpiOp.opTypeField req_len) _ (.inl (Nat.le_add_right_of_le (by decide)))
    (by simp [MpiOp.fields]) hnumber
  have hrank' := load_storeField hin (lt_trans hrank (by decide) : rank < 256 ^ 4)
  simp only [readOp, haddr, hsize, hflagP, hadd, htag, hbits, htype, hrank', hread, hnull, ok_bind]
  simp only [BitVec.ofNat_toNat, BitVec.setWidth_eq]
  rfl

end Ops

/-! ### Messages -/

section Messages

variable {req_len rank type batch_id : Nat} {group : List MpiOp}
  {heap heap' buf msg : List (BitVec 8)}

theorem length_groupBytes (hreq : req_len ≤ 8) :
    (group.map (·.bytes req_len)).flatten.length = group.length * sizeofMpiOp := by
  have hall : ∀ xs ∈ group.map (·.bytes req_len), xs.length = sizeofMpiOp := by
    intro xs hxs
    obtain ⟨op, -, rfl⟩ := List.mem_map.mp hxs
    exact MpiOp.length_bytes hreq
  rw [length_flatten_of_forall hall, List.length_map]

theorem recvBatchBytes_spec (hreq : req_len ≤ 8) (hlen : group.length < 2 ^ 32)
    (hheap : heap.length = sizeofOpBatch + sizeofMpiOp * group.length) :
    (recvBatchBytes req_len batch_id group heap).length = heap.length ∧
      loadField numOpField (recvBatchBytes req_len batch_id group heap) = group.length ∧
      ∀ j (hj : j < group.length),
        slice (recvBatchBytes req_len batch_id group heap) (sizeofOpBatch + j * sizeofMpiOp)
          sizeofMpiOp = group[j].bytes req_len := by
  have hflat := @length_groupBytes req_len group hreq
  have hnum : numOpField.off + numOpField.len ≤ heap.length := by
    rw [hheap]
    exact Nat.le_add_right_of_le (by decide)
  have hstored : (storeField numOpField group.length heap).length = heap.length :=
    length_storeField hnum
  have hin : sizeofOpBatch + (group.map (·.bytes req_len)).flatten.length ≤
      (storeField numOpField group.length heap).length := by
    rw [hstored, hheap, hflat, Nat.mul_comm]
  have hspliced := length_splice hin
  have hid : batchIdField.off + batchIdField.len ≤
      (splice (storeField numOpField group.length heap) sizeofOpBatch
        (group.map (·.bytes req_len)).flatten).length := by
    rw [hspliced, hstored, hheap]
    exact Nat.le_add_right_of_le (by decide)
  refine ⟨(length_storeField hid).trans (hspliced.trans hstored), ?_, fun j hj => ?_⟩
  · rw [recvBatchBytes, load_storeField_apart hid (by decide), loadField,
      slice_splice_of_disjoint hin (.inl (by decide))]
    exact load_storeField hnum hlen
  · have hle : j * sizeofMpiOp + sizeofMpiOp ≤ group.length * sizeofMpiOp := by
      rw [← Nat.succ_mul]
      exact Nat.mul_le_mul_right _ hj
    rw [recvBatchBytes, slice_storeField hid (.inr (Nat.le_add_right_of_le (by decide))),
      slice_of_slice (slice_splice_self hin) (by rw [hflat]; exact hle), slice_flatten _ (by simpa)]
    · simp
    · intro xs hxs
      obtain ⟨op, -, rfl⟩ := List.mem_map.mp hxs
      exact MpiOp.length_bytes hreq

theorem announceBytes_spec (hreq : req_len ≤ 8) (htype : type < 2 ^ 32) (hid : batch_id < 2 ^ 32)
    (hlen : group.length < 2 ^ 32)
    (hheap : heap.length = sizeofOpBatch + sizeofMpiOp * group.length)
    (hheap' : heap'.length = sizeofCtrlMsg + sizeofOpBatch + sizeofMpiOp * group.length)
    (hmsg : msg = announceBytes req_len rank type batch_id group heap heap') :
    msg.length = heap'.length ∧ loadField typeField msg = type ∧
      loadField dataBatchIdField msg = batch_id ∧
      loadField ⟨sizeofCtrlMsg + numOpField.off, numOpField.len⟩ msg = group.length ∧
      ∀ j (hj : j < group.length),
        slice msg (sizeofCtrlMsg + sizeofOpBatch + j * sizeofMpiOp) sizeofMpiOp =
          storeField MpiOp.rankField rank (group[j].bytes req_len) := by
  obtain ⟨hbatch, hnum, hops⟩ := @recvBatchBytes_spec req_len batch_id group heap hreq hlen hheap
  -- the fields of the message itself
  have hid' : dataBatchIdField.off + dataBatchIdField.len ≤ heap'.length := by
    rw [hheap', Nat.add_assoc]
    exact Nat.le_add_right_of_le (by decide)
  have htype' : typeField.off + typeField.len ≤
      (storeField dataBatchIdField batch_id heap').length := by
    rw [length_storeField hid', hheap', Nat.add_assoc]
    exact Nat.le_add_right_of_le (by decide)
  have hlen₀ : (storeField typeField type (storeField dataBatchIdField batch_id heap')).length =
      heap'.length := (length_storeField htype').trans (length_storeField hid')
  have hload : loadField typeField
        (storeField typeField type (storeField dataBatchIdField batch_id heap')) = type ∧
      loadField dataBatchIdField
        (storeField typeField type (storeField dataBatchIdField batch_id heap')) = batch_id := by
    refine ⟨load_storeField htype' htype, ?_⟩
    rw [load_storeField_apart htype' (by decide), load_storeField hid' hid]
  unfold announceBytes at hmsg
  simp only at hmsg
  generalize storeField typeField type (storeField dataBatchIdField batch_id heap') = msg₀ at *
  -- the batch behind it
  generalize recvBatchBytes req_len batch_id group heap = batch at *
  have hin : sizeofCtrlMsg + batch.length ≤ msg₀.length := by omega
  have hlen₁ := length_splice hin
  have hkeep : ∀ xs : List (BitVec 8), xs.length = sizeofMpiOp →
      (storeField MpiOp.rankField rank xs).length = sizeofMpiOp := fun xs hxs =>
    (length_storeField (by rw [hxs]; decide)).trans hxs
  have hloop := @changeRecords _ (sizeofCtrlMsg + sizeofOpBatch) sizeofMpiOp group.length
    (storeField MpiOp.rankField rank) (splice msg₀ sizeofCtrlMsg batch) hkeep
    (by rw [hlen₁, Nat.mul_comm]; omega)
  rw [← hmsg] at hloop
  obtain ⟨hlen₂, hrecords, hrest⟩ := hloop
  refine ⟨by omega, ?_, ?_, ?_, fun j hj => ?_⟩
  · rw [loadField, hrest _ _ (.inl (by decide)), slice_splice_of_disjoint hin (.inl (by decide))]
    exact hload.1
  · rw [loadField, hrest _ _ (.inl (by decide)), slice_splice_of_disjoint hin (.inl (by decide))]
    exact hload.2
  · rw [loadField, hrest _ _ (.inl (by decide))]
    exact (loadField_splice hin
      (by rw [hbatch, hheap]; exact Nat.le_add_right_of_le (by decide))).trans
      hnum
  · have hle : j * sizeofMpiOp + sizeofMpiOp ≤ sizeofMpiOp * group.length := by
      rw [← Nat.succ_mul, Nat.mul_comm]
      exact Nat.mul_le_mul_left _ hj
    rw [hrecords j hj, Nat.add_assoc, slice_of_slice (slice_splice_self hin) (by omega), hops j hj]

theorem receive_spec (h : receive buf msg = .ok heap) :
    msg.length ≤ heap.length ∧ (∀ o n, o + n ≤ msg.length → slice heap o n = slice msg o n) := by
  have hcopy : ∀ {cap : Nat}, msg.length ≤ cap →
      heap = splice (List.replicate cap 0) 0 msg →
      msg.length ≤ heap.length ∧ (∀ o n, o + n ≤ msg.length → slice heap o n = slice msg o n) := by
    rintro cap hcap rfl
    have hin : 0 + msg.length ≤ (List.replicate cap (0 : BitVec 8)).length := by
      rwa [Nat.zero_add, List.length_replicate]
    refine ⟨by rw [length_splice hin, List.length_replicate]; exact hcap, fun o n hon => ?_⟩
    have hpart := slice_of_slice (slice_splice_self hin) hon
    rwa [Nat.zero_add] at hpart
  unfold receive at h
  split at h
  · split at h
    · exact hcopy (by omega) (Except.ok.inj h).symm
    · cases h
  · exact hcopy (by omega) (Except.ok.inj h).symm

theorem readOps_received (hreq : req_len ≤ 8) (hrank : rank < 2 ^ 31)
    (hfits : ∀ op ∈ group, op.Fits)
    (hnum : loadField ⟨sizeofCtrlMsg + numOpField.off, numOpField.len⟩ buf = group.length)
    (hops : ∀ j (hj : j < group.length),
      slice buf (sizeofCtrlMsg + sizeofOpBatch + j * sizeofMpiOp) sizeofMpiOp =
        storeField MpiOp.rankField rank (group[j].bytes req_len)) :
    readOps req_len buf = .ok ((addressed rank group).map (·.record)) := by
  have hlen : group.length = ((addressed rank group).map MpiOp.record).length := by
    simp [addressed]
  rw [readOps, hnum, hlen]
  refine mapM_range_ok fun j hj => ?_
  rw [← hlen] at hj
  rw [hops j hj, readOp_bytes hreq hrank (hfits _ (List.getElem_mem hj))]
  simp [addressed]

theorem readMsg_received {m : CtrlMsg} (hreq : req_len ≤ 8) (hsends : Sends req_len rank m msg)
    (hfront : ∀ o n, o + n ≤ msg.length → slice buf o n = slice msg o n) :
    readMsg req_len buf = .ok m.read := by
  have hload : ∀ f : Field, f.off + f.len ≤ msg.length → loadField f buf = loadField f msg :=
    fun f hf => congrArg ofLeBytes (hfront _ _ hf)
  -- a message about a batch
  have hannounce : ∀ {type batch_id : Nat} {group : List MpiOp} {heap heap' : List (BitVec 8)},
      type < 2 ^ 32 → batch_id < 2 ^ 32 → rank < 2 ^ 31 → group.length < 2 ^ 31 →
      (∀ op ∈ group, op.Fits) →
      heap.length = sizeofOpBatch + sizeofMpiOp * group.length →
      heap'.length = sizeofCtrlMsg + sizeofOpBatch + sizeofMpiOp * group.length →
      msg = announceBytes req_len rank type batch_id group heap heap' →
      loadField typeField buf = type ∧ loadField dataBatchIdField buf = batch_id ∧
        readOps req_len buf = .ok ((addressed rank group).map (·.record)) := by
    intro type batch_id group heap heap' htype hid hrank hlen hfits hheap hheap' hmsg
    obtain ⟨hsize, hty, hbid, hnum, hops⟩ := announceBytes_spec hreq htype hid
      (lt_trans hlen (by decide)) hheap hheap' hmsg
    have hle : ∀ n, n ≤ sizeofCtrlMsg + sizeofOpBatch → n ≤ msg.length := by
      intro n hn
      rw [hsize, hheap']
      exact Nat.le_add_right_of_le hn
    refine ⟨(hload _ (hle _ (by decide))).trans hty, (hload _ (hle _ (by decide))).trans hbid, ?_⟩
    refine readOps_received hreq hrank hfits ((hload _ (hle _ (by decide))).trans hnum)
      fun j hj => ?_
    have hrec : j * sizeofMpiOp + sizeofMpiOp ≤ sizeofMpiOp * group.length := by
      rw [← Nat.succ_mul, Nat.mul_comm]
      exact Nat.mul_le_mul_left _ hj
    rw [hfront _ _ (by omega), hops j hj]
  -- a message without one
  have hplain : ∀ {type batch_id : Nat} {heap : List (BitVec 8)}, type < 2 ^ 32 →
      batch_id < 2 ^ 32 → heap.length = sizeofCtrlMsg → msg = plainBytes type batch_id heap →
      loadField typeField buf = type ∧ loadField dataBatchIdField buf = batch_id := by
    intro type batch_id heap htype hid hheap hmsg
    have hin : typeField.off + typeField.len ≤ heap.length := by
      rw [hheap]
      decide
    have hlen := @length_storeField typeField type heap hin
    have hin' : dataBatchIdField.off + dataBatchIdField.len ≤
        (storeField typeField type heap).length := by
      rw [hlen, hheap]
      decide
    have hsize : msg.length = sizeofCtrlMsg := by
      rw [hmsg, plainBytes, length_storeField hin', hlen, hheap]
    refine ⟨(hload _ (hsize ▸ by decide)).trans ?_, (hload _ (hsize ▸ by decide)).trans ?_⟩
    · rw [hmsg, plainBytes, load_storeField_apart hin' (by decide), load_storeField hin htype]
    · rw [hmsg, plainBytes, load_storeField hin' hid]
  cases hsends with
  | create hfits hrank hid hlen hheap hheap' =>
      obtain ⟨hty, hbid, hops⟩ := hannounce (by decide) (lt_trans hid (by decide)) hrank hlen hfits
        hheap hheap' rfl
      simp only [readMsg, hty, hbid, hops, ok_bind, if_true]
      rfl
  | execute hfits hrank hlen hheap hheap' =>
      obtain ⟨hty, -, hops⟩ := hannounce (by decide) (by decide) hrank hlen hfits hheap hheap' rfl
      simp only [readMsg, hty, hops, ok_bind]
      rfl
  | start hid hheap =>
      obtain ⟨hty, hbid⟩ := hplain (by decide) (lt_trans hid (by decide)) hheap rfl
      simp only [readMsg, hty, hbid]
      rfl
  | destroy hid hheap =>
      obtain ⟨hty, hbid⟩ := hplain (by decide) (lt_trans hid (by decide)) hheap rfl
      simp only [readMsg, hty, hbid]
      rfl

theorem receive_cases (buf msg : List (BitVec 8)) :
    ((msg.length ≤ buf.length ∨ msg.length < 2 ^ 30) ∧ ∃ buf', receive buf msg = .ok buf' ∧
        buf'.length = if buf.length < msg.length then msg.length * 2 else buf.length) ∨
      (¬ (msg.length ≤ buf.length ∨ msg.length < 2 ^ 30) ∧
        receive buf msg = .error .undefined) := by
  have hcopy : ∀ {cap : Nat}, msg.length ≤ cap →
      (splice (List.replicate cap (0 : BitVec 8)) 0 msg).length = cap := by
    intro cap hcap
    rw [length_splice (by rwa [Nat.zero_add, List.length_replicate]), List.length_replicate]
  unfold receive
  split
  · split
    · exact .inl ⟨.inr (by omega), _, rfl, hcopy (by omega)⟩
    · exact .inr ⟨by omega, rfl⟩
  · exact .inl ⟨.inl (by omega), _, rfl, hcopy (by omega)⟩

theorem roomy_of_short {sizes : List Nat} (h : ∀ n ∈ sizes, n < 2 ^ 30) (capacity : Nat) :
    Roomy capacity sizes := by
  induction sizes generalizing capacity with
  | nil => trivial
  | cons n sizes ih =>
      exact ⟨.inr (h n (by simp)), ih (fun m hm => h m (by simp [hm])) _⟩

theorem receiveAll_cons {m : CtrlMsg} (hreq : req_len ≤ 8) (hsends : Sends req_len rank m msg)
    {msgs : List (List (BitVec 8))} {buf' : List (BitVec 8)} (h : receive buf msg = .ok buf') :
    receiveAll req_len buf (msg :: msgs) =
      receiveAll req_len buf' msgs >>= fun r => .ok (m.read :: r.1, r.2) := by
  rw [receiveAll, h, ok_bind, readMsg_received hreq hsends (receive_spec h).2, ok_bind]
  rfl

end Messages

/-- Whatever the messages of all processes are, whatever the memory held that
they were built in, and whatever the buffer holds: the loop of the daemon reads
every message as it was meant, and it gets through all of them exactly if none
of `2 ^ 30` bytes or more needs a longer buffer. -/
theorem messages_received {req_len : Nat} (hreq : req_len ≤ 8)
    {sent : List (Nat × CtrlMsg × List (BitVec 8))}
    (hsends : ∀ x ∈ sent, Sends req_len x.1 x.2.1 x.2.2) (ctrl_msg_buf : List (BitVec 8)) :
    (∀ reads buf, receiveAll req_len ctrl_msg_buf (sent.map (·.2.2)) = .ok (reads, buf) →
      reads = sent.map (·.2.1.read)) ∧
    ((∃ r, receiveAll req_len ctrl_msg_buf (sent.map (·.2.2)) = .ok r) ↔
      Roomy ctrl_msg_buf.length (sent.map (·.2.2.length))) ∧
    ((∀ x ∈ sent, x.2.2.length < 2 ^ 30) →
      Roomy ctrl_msg_buf.length (sent.map (·.2.2.length))) := by
  refine ⟨?_, ?_, fun hshort => roomy_of_short ?_ _⟩
  · induction sent generalizing ctrl_msg_buf with
    | nil =>
        rintro reads buf ⟨⟩
        rfl
    | cons x sent ih =>
        intro reads buf hall
        rw [List.map_cons] at hall
        rcases receive_cases ctrl_msg_buf x.2.2 with ⟨-, buf', hbuf', -⟩ | ⟨-, hstop⟩
        · rw [receiveAll_cons hreq (hsends x (by simp)) hbuf'] at hall
          obtain ⟨⟨reads', buf⟩, hrest, hread⟩ := bind_eq_ok.mp hall
          cases hread
          rw [List.map_cons, ih (fun y hy => hsends y (by simp [hy])) buf' reads' _ hrest]
        · rw [receiveAll, hstop] at hall
          cases hall
  · induction sent generalizing ctrl_msg_buf with
    | nil => exact ⟨fun _ => trivial, fun _ => ⟨_, rfl⟩⟩
    | cons x sent ih =>
        rw [List.map_cons, List.map_cons, Roomy]
        rcases receive_cases ctrl_msg_buf x.2.2 with ⟨hroom, buf', hbuf', hlen⟩ | ⟨hroom, hstop⟩
        · have hrest := ih (fun y hy => hsends y (by simp [hy])) buf'
          rw [receiveAll_cons hreq (hsends x (by simp)) hbuf', ← hlen, ← hrest]
          refine ⟨fun ⟨_, h⟩ => ?_, fun ⟨_, r, hr⟩ => ⟨_, bind_eq_ok.mpr ⟨r, hr, rfl⟩⟩⟩
          obtain ⟨r, hr, -⟩ := bind_eq_ok.mp h
          exact ⟨hroom, r, hr⟩
        · rw [receiveAll, hstop]
          exact ⟨fun ⟨_, h⟩ => (by cases h), fun h => absurd h.1 hroom⟩
  · intro n hn
    obtain ⟨x, hx, rfl⟩ := List.mem_map.mp hn
    exact hshort x hx

/-- A put of 8 bytes, as it is announced to its target. -/
def announcedOp : MpiOp where
  addr := 4096
  size := 8
  flag_p := some 64
  flag_add := -1
  rank := 1
  tag := 7
  flag := keepOp ||| keepReq
  op_type := .opRecv
  plan := 0
  index := 0

/-- The messages of process 5 that register a batch with one operation and
start it, built in memory full of ones. -/
def registerSent : List (Nat × CtrlMsg × List (BitVec 8)) :=
  [(5, .createOpBatch 9 ⟨0, addressed 5 [announcedOp]⟩,
      announceBytes 4 5 createOpBatchType 9 [announcedOp] (List.replicate 64 255)
        (List.replicate 80 255)),
    (5, .startOpBatch 9 0 1, plainBytes startOpBatchType 9 (List.replicate 16 255))]

/-- The receiver has no buffer yet. -/
theorem messages_received_register : ∃ buf,
    receiveAll 4 [] (registerSent.map (·.2.2)) =
      .ok ([.createOpBatch 9 [{ announcedOp with rank := 5 }.record], .startOpBatch 9], buf) := by
  have hfits : announcedOp.Fits := by
    refine ⟨by decide, by decide, fun f hf => ?_, by decide⟩
    cases hf
    decide
  have hsends : ∀ x ∈ registerSent, Sends 4 x.1 x.2.1 x.2.2 := by
    simp only [registerSent, List.forall_mem_cons, List.not_mem_nil, false_implies, implies_true,
      and_true]
    refine ⟨.create ?_ (by decide) (by decide) (by decide) (by decide) (by decide),
      .start (by decide) (by decide)⟩
    exact fun op hop => List.mem_singleton.mp hop ▸ hfits
  obtain ⟨hreads, hends, hshort⟩ := messages_received (by decide) hsends []
  obtain ⟨⟨reads, buf⟩, hr⟩ := hends.mpr (hshort (by decide +kernel))
  have hread := hreads reads buf hr
  subst hread
  exact ⟨buf, hr⟩

end Unr.Mpi
