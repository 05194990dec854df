import Unr.Mpi.Types

/-!
The MPI channel of a number of processes, one step at a time.

Every process has a user thread, which creates, starts and destroys plans one
call after the other, and a daemon, which alternates between handling control
messages and testing requests. A step is one turn of a loop of either: one
entry of the array of writes, one control message, one posted operation, one
completed operation. The two threads of a process and the processes among each
other may take their steps in any order.

The control messages from one process to another form one sequence; how many
of them have been received is kept with the receiver, so that a step changes
one process only. The sends and receives that a process has posted on
`data_comm` are kept in the order of posting: MPI matches the `k`-th send from
a process to another with a given tag with the `k`-th receive posted for it.
-/

namespace Unr.Mpi

open Unr.Uru

/-! ### What a process holds -/

/-- A send or a receive posted on `data_comm`. -/
structure Post where
  op_type : OpType
  rank : Nat
  tag : Nat
  /-- Ghost: whether it belongs to a plan of this process. -/
  own : Bool
  /-- Ghost: the write it transfers. -/
  write : WriteId
  deriving Repr, DecidableEq

/-- Where an entry of the request queue comes from: a control message, a plan
of this process, or a batch received from another one. -/
inductive Side
  | ctrl | own | peer
  deriving Repr, DecidableEq

structure Entry where
  op : MpiOp
  side : Side
  /-- Ghost: the write it transfers. -/
  write : WriteId
  /-- How many operations of the same type, process and tag were posted before
  it. -/
  pos : Nat
  deriving Repr, DecidableEq

/-- A persistent request: that of a `send_op` of a plan, or that of an
operation in the batch of a target. -/
structure Req where
  own : Bool
  initiator : Nat
  plan : Nat
  index : Nat
  deriving Repr, DecidableEq

/-- The request of an entry, if it is persistent. -/
def Entry.req (e : Entry) : Option Req :=
  if hasBit e.op.flag keepReq then
    some ⟨e.side == .own, e.write.initiator, e.write.plan, e.write.index⟩
  else none

/-- `mpi_plan_p->recv_batch[i]`. -/
structure RecvBatch where
  batch_id : Nat
  ops : List MpiOp
  deriving Repr, DecidableEq

/-- `((uri_mpi_op_t*)(recv_batch + 1))->rank`. -/
def RecvBatch.dst_rank (b : RecvBatch) : Nat :=
  match b.ops with
  | op :: _ => op.rank
  | [] => 0

/-- `uri_mpi_plan_t`. -/
structure Plan where
  /-- Ghost: the number of the plan. -/
  plan : Nat
  send_batch : List MpiOp
  recv_batch : List RecvBatch
  deriving Repr, DecidableEq

/-- What `uri_mem_get_info` tells of a memory handle. -/
structure MemInfo where
  addr : Nat
  size : Nat
  rank : Nat
  deriving Repr, DecidableEq

/-- One entry of the arrays given to `uri_mpi_rdma_plan_create`. -/
structure Write where
  dma_type : UruTransfer
  loc_mem : MemInfo
  loc_offset : Nat
  loc_flag_p : Option Nat
  loc_flag_add : BitVec 64
  dma_size : Nat
  rmt_mem : MemInfo
  rmt_offset : Nat
  rmt_flag_p : Option Nat
  rmt_flag_add : BitVec 64
  deriving Repr, DecidableEq

inductive UserPhase
  | idle
  /-- `uri_mpi_rdma_plan_create`, in the loop over the writes; `tag` is what
  the pool has returned for the first of the remaining ones. -/
  | creating (once_now : Bool) (plan : Nat) (rest : List Write) (tag : Option Nat)
      (send_ops recv_ops : List MpiOp) (mpi_op : List Entry)
  /-- `uri_mpi_rdma_plan_create`, in the loop over the receivers. -/
  | announcing (once_now : Bool) (plan : Nat) (send_ops : List MpiOp)
      (groups : List (List MpiOp)) (recv_batch : List RecvBatch) (mpi_op : List Entry)
  /-- `uri_mpi_rdma_plan_start`, before the remaining batches and operations. -/
  | starting (plan : Plan) (start : Nat) (batches : List RecvBatch) (ops : List MpiOp)
      (mpi_op : List Entry)
  /-- `uri_mpi_rdma_plan_destroy`, before the remaining operations and
  batches. -/
  | destroying (plan : Plan) (ops : List MpiOp) (batches : List RecvBatch)
      (mpi_op : List Entry)
  /-- `unr_finalize` is past its barriers. -/
  | finalizing
  /-- `uri_mpi_channel_close`, in `MPI_Allreduce`. -/
  | reducing (self_arr_tail : Nat)
  /-- `uri_mpi_channel_close`, in `uri_mpi_channel_daemon`. -/
  | calling (max_arr_tail : Nat) (tested : Bool)
  | closed
  deriving Repr, DecidableEq

inductive DaemonPhase
  /-- Between two iterations, or before the next probe for a message. -/
  | drain
  /-- Handling a message from `src` that starts operations. -/
  | posting (src : Nat) (start : Option Nat) (rest : List MpiOp) (mpi_op : List Entry)
  /-- Before the effects of the remaining completed operations. -/
  | effects (rest : List Entry)
  deriving Repr, DecidableEq

structure Proc where
  mpi_tag : Nat → IntPool
  batch_id : Nat → IntPool
  /-- The table of each source; its length is `recv_batch_size`. -/
  recv_batch : Nat → List (Option OpBatch)
  /-- The control messages sent to each process. -/
  ctrl_sent : Nat → List CtrlMsg
  /-- How many control messages of each process have been received. -/
  ctrl_received : Nat → Nat
  /-- What has been posted on `data_comm`, in order. -/
  log : List Post
  queue : List Entry
  /-- The persistent requests that are started and not yet completed. -/
  active : List Req
  plans : List Plan
  next_plan : Nat
  next_start : Nat
  flags : Nat → UruFlag
  /-- What the daemon has pushed to signal pools. -/
  pushed : List (Nat × Int)
  user : UserPhase
  daemon : DaemonPhase
  /-- The reason why the process has stopped. -/
  halted : Option Stop

def Proc.init (flags : Nat → UruFlag) : Proc where
  mpi_tag := fun _ => .init
  batch_id := fun _ => .init
  recv_batch := fun _ => []
  ctrl_sent := fun _ => []
  ctrl_received := fun _ => 0
  log := []
  queue := []
  active := []
  plans := []
  next_plan := 0
  next_start := 1
  flags := flags
  pushed := []
  user := .idle
  daemon := .drain
  halted := none

namespace Proc

def posted (proc : Proc) (op_type : OpType) (rank tag : Nat) : Nat :=
  proc.log.countP fun x => x.op_type = op_type ∧ x.rank = rank ∧ x.tag = tag

/-- `MPI_Isend`, `MPI_Irecv` or `MPI_Start` on `data_comm`. -/
def post (proc : Proc) (op : MpiOp) (own : Bool) (write : WriteId) : Proc :=
  { proc with log := proc.log ++ [⟨op.op_type, op.rank, op.tag, own, write⟩] }

def entry (proc : Proc) (op : MpiOp) (side : Side) (write : WriteId) : Entry :=
  ⟨op, side, write, proc.posted op.op_type op.rank op.tag⟩

/-- `MPI_Start` on a persistent request. -/
def activate (proc : Proc) (e : Entry) : Proc :=
  { proc with active := e.req.toList ++ proc.active }

/-- `MPI_Isend` on `ctrl_comm`. -/
def send (proc : Proc) (dst : Nat) (msg : CtrlMsg) : Proc :=
  { proc with
    ctrl_sent := Function.update proc.ctrl_sent dst (proc.ctrl_sent dst ++ [msg]) }

/-- `uri_mpi_req_que_app`. -/
def append (proc : Proc) (mpi_op : List Entry) : Proc :=
  { proc with queue := proc.queue ++ mpi_op }

def orHalt (proc : Proc) (result : Prog Proc) : Proc :=
  match result with
  | .ok proc' => proc'
  | .error stop => { proc with halted := some stop }

end Proc

def ctrlEntry (dst_rank : Nat) : Entry where
  op := { addr := 0, size := 0, flag_p := none, flag_add := 0, rank := dst_rank, tag := 0,
          flag := freeOp ||| freeAddr, op_type := .opSend, plan := 0, index := 0 }
  side := .ctrl
  write := ⟨0, 0, 0, 0⟩
  pos := 0

/-! ### Creating a plan -/

/-- The assertions of `uri_mpi_rdma_plan_create` on one write. -/
def Write.check (size rank : Nat) (w : Write) : Prog Unit := do
  uruAssert (w.loc_mem.rank = rank)
  uruAssert (wrap64 (w.loc_offset + w.dma_size) ≤ w.loc_mem.size)
  uruAssert (wrap64 (w.rmt_offset + w.dma_size) ≤ w.rmt_mem.size)
  if w.dma_type ≠ .dmaPut ∧ w.dma_type ≠ .dmaGet then
    throw (.exit .mpiChannelErrorExit)
  -- the pools are indexed by the rank of the remote region
  if ¬ w.rmt_mem.rank < size then
    throw .undefined

def Write.opType (w : Write) : OpType :=
  if w.dma_type = .dmaPut then .opSend else .opRecv

/-- `send_op`. The block is taken to lie in its region, so that no address wraps;
the same goes for `recv_op`. -/
def Write.sendOp (w : Write) (flag : BitVec 8) (plan index tag : Nat) : MpiOp where
  addr := w.loc_mem.addr + w.loc_offset
  size := w.dma_size
  flag_p := w.loc_flag_p
  flag_add := w.loc_flag_add
  rank := w.rmt_mem.rank
  tag := tag
  flag := flag
  op_type := w.opType
  plan := plan
  index := index

def Write.recvOp (w : Write) (flag : BitVec 8) (plan index tag : Nat) : MpiOp where
  addr := w.rmt_mem.addr + w.rmt_offset
  size := w.dma_size
  flag_p := w.rmt_flag_p
  flag_add := w.rmt_flag_add
  rank := w.rmt_mem.rank
  tag := tag
  flag := flag
  op_type := w.opType.flip
  plan := plan
  index := index

/-- A turn of the loop over the writes, up to the tag. -/
def Proc.drawTag (size rank : Nat) (proc : Proc) (once_now : Bool) (plan : Nat) (w : Write)
    (rest : List Write) (send_ops recv_ops : List MpiOp) (mpi_op : List Entry) : Prog Proc := do
  w.check size rank
  let (tag, pool) ← (proc.mpi_tag w.rmt_mem.rank).get size rank
  return { proc with
    mpi_tag := Function.update proc.mpi_tag w.rmt_mem.rank pool
    user := .creating once_now plan (w :: rest) (some tag) send_ops recv_ops mpi_op }

/-- The rest of the turn: the operation is posted, or its request set up. -/
def Proc.createWrite (rank : Nat) (proc : Proc) (once_now : Bool) (plan : Nat) (w : Write)
    (rest : List Write) (tag : Nat) (send_ops recv_ops : List MpiOp) (mpi_op : List Entry) :
    Proc :=
  let index := send_ops.length
  if once_now then
    let op := w.sendOp (freeOp ||| freeTag) plan index tag
    let id : WriteId := ⟨rank, plan, 0, index⟩
    { proc.post op true id with
      user := .creating once_now plan rest none (send_ops ++ [w.sendOp 0 plan index tag])
        (recv_ops ++ [w.recvOp freeOp plan index tag]) (mpi_op ++ [proc.entry op .own id]) }
  else
    { proc with
      user := .creating once_now plan rest none
        (send_ops ++ [w.sendOp (keepOp ||| keepReq) plan index tag])
        (recv_ops ++ [w.recvOp (keepOp ||| keepReq) plan index tag]) mpi_op }

/-- The receivers of a sorted array: its maximal runs of one rank. -/
def receivers : List MpiOp → List (List MpiOp)
  | [] => []
  | op :: ops =>
      match receivers ops with
      | (op' :: g) :: groups =>
          if op'.rank = op.rank then (op :: op' :: g) :: groups
          else [op] :: (op' :: g) :: groups
      | groups => [op] :: groups

/-- The operations of a group as the receiver gets them. -/
def addressed (rank : Nat) (ops : List MpiOp) : List MpiOp :=
  ops.map fun op => { op with rank := rank }

/-- A turn of the loop over the receivers. -/
def Proc.announce (size rank : Nat) (proc : Proc) (once_now : Bool) (plan : Nat)
    (send_ops : List MpiOp) (dst_rank : Nat) (group : List MpiOp) (groups : List (List MpiOp))
    (recv_batch : List RecvBatch) (mpi_op : List Entry) : Prog Proc :=
  let batch : OpBatch := ⟨plan, addressed rank group⟩
  if once_now then
    .ok { proc.send dst_rank (.executeOpBatch batch) with
      user := .announcing once_now plan send_ops groups recv_batch
        (mpi_op ++ [ctrlEntry dst_rank]) }
  else do
    let (batch_id, pool) ← (proc.batch_id dst_rank).get size rank
    return { proc.send dst_rank (.createOpBatch batch_id batch) with
      batch_id := Function.update proc.batch_id dst_rank pool
      user := .announcing once_now plan send_ops groups
        (recv_batch ++ [⟨batch_id, group⟩]) (mpi_op ++ [ctrlEntry dst_rank]) }

/-- The end of `uri_mpi_rdma_plan_create`. -/
def Proc.finishCreate (proc : Proc) (once_now : Bool) (plan : Nat) (send_ops : List MpiOp)
    (recv_batch : List RecvBatch) (mpi_op : List Entry) : Proc :=
  { proc.append mpi_op with
    plans := if once_now then proc.plans else ⟨plan, send_ops, recv_batch⟩ :: proc.plans
    user := .idle }

/-! ### Starting and destroying a plan -/

/-- `uri_mpi_rdma_plan_start`: a control message for a batch. -/
def Proc.startBatch (proc : Proc) (plan : Plan) (start : Nat) (b : RecvBatch)
    (batches : List RecvBatch) (ops : List MpiOp) (mpi_op : List Entry) : Proc :=
  { proc.send b.dst_rank (.startOpBatch b.batch_id plan.plan start) with
    user := .starting plan start batches ops (mpi_op ++ [ctrlEntry b.dst_rank]) }

/-- `uri_mpi_rdma_plan_start`: `MPI_Start` on a `send_op`. -/
def Proc.startOp (rank : Nat) (proc : Proc) (plan : Plan) (start : Nat) (op : MpiOp)
    (ops : List MpiOp) (mpi_op : List Entry) : Proc :=
  let id : WriteId := ⟨rank, op.plan, start, op.index⟩
  let e := proc.entry op .own id
  { (proc.post op true id).activate e with
    user := .starting plan start [] ops (mpi_op ++ [e]) }

/-- `uri_mpi_rdma_plan_destroy`: the tag of a `send_op` is returned. -/
def Proc.destroyOp (size rank : Nat) (proc : Proc) (plan : Plan) (op : MpiOp)
    (ops : List MpiOp) (batches : List RecvBatch) (mpi_op : List Entry) : Prog Proc := do
  let pool ← (proc.mpi_tag op.rank).put size rank op.tag
  return { proc with
    mpi_tag := Function.update proc.mpi_tag op.rank pool
    user := .destroying plan ops batches mpi_op }

/-- `uri_mpi_rdma_plan_destroy`: a control message for a batch, and its id is
returned. -/
def Proc.destroyBatch (size rank : Nat) (proc : Proc) (plan : Plan) (b : RecvBatch)
    (batches : List RecvBatch) (mpi_op : List Entry) : Prog Proc := do
  let pool ← (proc.batch_id b.dst_rank).put size rank b.batch_id
  return { proc.send b.dst_rank (.destroyOpBatch b.batch_id plan.plan) with
    batch_id := Function.update proc.batch_id b.dst_rank pool
    user := .destroying plan [] batches (mpi_op ++ [ctrlEntry b.dst_rank]) }

/-- The end of `uri_mpi_rdma_plan_start` and `uri_mpi_rdma_plan_destroy`. -/
def Proc.finishCall (proc : Proc) (mpi_op : List Entry) : Proc :=
  { proc.append mpi_op with user := .idle }

/-- The test at the end of the loop of `uri_mpi_channel_close`. -/
def Proc.closeLoop (proc : Proc) (max_arr_tail : Nat) : Proc :=
  { proc with
    user := if max_arr_tail = 0 then .closed else .reducing proc.queue.length }

/-- The next step of the user thread inside a call. -/
def Proc.userStep (size rank : Nat) (proc : Proc) : Option Proc :=
  match proc.user with
  | .creating once_now plan (w :: rest) none send_ops recv_ops mpi_op =>
      some (proc.orHalt
        (proc.drawTag size rank once_now plan w rest send_ops recv_ops mpi_op))
  | .creating once_now plan (w :: rest) (some tag) send_ops recv_ops mpi_op =>
      some (proc.createWrite rank once_now plan w rest tag send_ops recv_ops mpi_op)
  | .announcing once_now plan send_ops ((op :: ops) :: groups) recv_batch mpi_op =>
      some (proc.orHalt
        (proc.announce size rank once_now plan send_ops op.rank (op :: ops) groups recv_batch
          mpi_op))
  | .announcing once_now plan send_ops [] recv_batch mpi_op =>
      some (proc.finishCreate once_now plan send_ops recv_batch mpi_op)
  | .starting plan start (b :: batches) ops mpi_op =>
      some (proc.startBatch plan start b batches ops mpi_op)
  | .starting plan start [] (op :: ops) mpi_op =>
      some (proc.startOp rank plan start op ops mpi_op)
  | .starting _ _ [] [] mpi_op => some (proc.finishCall mpi_op)
  | .destroying plan (op :: ops) batches mpi_op =>
      some (proc.orHalt (proc.destroyOp size rank plan op ops batches mpi_op))
  | .destroying plan [] (b :: batches) mpi_op =>
      some (proc.orHalt (proc.destroyBatch size rank plan b batches mpi_op))
  | .destroying _ [] [] mpi_op => some (proc.finishCall mpi_op)
  | .calling max_arr_tail true =>
      if proc.daemon = .drain then some (proc.closeLoop max_arr_tail) else none
  | _ => none

/-! ### The daemon -/

/-- The slot for a new batch. `batch_id * 2 + 16` is computed in an `int`, and
the part added to the table is filled with null pointers. -/
def growTable (table : List (Option OpBatch)) (batch_id : Nat) :
    Prog (List (Option OpBatch)) :=
  if batch_id + 1 > table.length then
    if batch_id * 2 + 16 < 2 ^ 31 then
      .ok (table ++ List.replicate (batch_id * 2 + 16 - table.length) none)
    else
      .error .undefined
  else
    .ok table

def Proc.processCtrlMsg (proc : Proc) (src_rank : Nat) (msg : CtrlMsg) : Prog Proc :=
  match msg with
  | .createOpBatch batch_id batch => do
      let table ← growTable (proc.recv_batch src_rank) batch_id
      let slot ← fetch table batch_id
      uruAssert (slot = none)
      return { proc with
        recv_batch := Function.update proc.recv_batch src_rank
          (table.set batch_id (some batch)) }
  | .destroyOpBatch batch_id _ => do
      let slot ← fetch (proc.recv_batch src_rank) batch_id
      match slot with
      | some _ =>
          return { proc with
            recv_batch := Function.update proc.recv_batch src_rank
              ((proc.recv_batch src_rank).set batch_id none) }
      | none => throw .undefined
  | .startOpBatch batch_id _ start => do
      uruAssert (batch_id < (proc.recv_batch src_rank).length)
      let slot ← fetch (proc.recv_batch src_rank) batch_id
      match slot with
      | some batch => return { proc with daemon := .posting src_rank (some start) batch.ops [] }
      | none => throw (.exit .assertExit)
  | .executeOpBatch batch =>
      .ok { proc with daemon := .posting src_rank none batch.ops [] }

/-- A message from `src_rank` is received and handled. -/
def Proc.recvCtrl (proc : Proc) (src_rank : Nat) (msg : CtrlMsg) : Proc :=
  let proc := { proc with
    ctrl_received :=
      Function.update proc.ctrl_received src_rank (proc.ctrl_received src_rank + 1) }
  proc.orHalt (proc.processCtrlMsg src_rank msg)

/-- An operation of the batch is posted: at once in an `execute_op_batch`
message, by `MPI_Start` otherwise. -/
def Proc.postOp (proc : Proc) (src : Nat) (start : Option Nat) (op : MpiOp)
    (rest : List MpiOp) (mpi_op : List Entry) : Proc :=
  let id : WriteId := ⟨src, op.plan, start.getD 0, op.index⟩
  let e := proc.entry op .peer id
  let proc := { proc.post op false id with daemon := .posting src start rest (mpi_op ++ [e]) }
  match start with
  | some _ => proc.activate e
  | none => proc.orHalt do
      uruAssert (hasBit op.flag freeTag = false)
      return proc

/-- What the daemon does to the flag of a completed operation. The list `pushed`
goes on where `uru_queue_push` exits with a full queue, so that the runs here
are those of the source and some more. -/
def Proc.progressFlag (proc : Proc) (op : MpiOp) : Prog Proc :=
  match op.flag_p with
  | none => .ok proc
  | some f => do
      let (flag, push) ← (proc.flags f).progress op.flag_add
      return { proc with
        flags := Function.update proc.flags f flag
        pushed := proc.pushed ++ push.toList }

def Proc.progressOp (size rank : Nat) (proc : Proc) (op : MpiOp) (rest : List Entry) :
    Prog Proc := do
  let proc ← proc.progressFlag op
  uruAssert (hasBit op.flag freeAddr → hasBit op.flag keepAddr = false)
  uruAssert (hasBit op.flag freeReq → hasBit op.flag keepReq = false)
  uruAssert (hasBit op.flag freeTag → hasBit op.flag keepTag = false)
  uruAssert (hasBit op.flag freeOp → hasBit op.flag keepOp = false)
  let proc := { proc with daemon := .effects rest }
  if hasBit op.flag freeTag then
    let pool ← (proc.mpi_tag op.rank).put size rank op.tag
    return { proc with mpi_tag := Function.update proc.mpi_tag op.rank pool }
  else
    return proc

/-- The entries at the positions where the mask is `b`. -/
def pick {α : Type} (b : Bool) : List Bool → List α → List α
  | m :: ms, x :: xs => if m = b then x :: pick b ms xs else pick b ms xs
  | _, _ => []

/-- `MPI_Testsome` has reported the entries of the mask: they leave the queue,
and their effects are next. -/
def Proc.testSome (proc : Proc) (done : List Bool) : Proc :=
  let reported := pick true done proc.queue
  { proc with
    queue := pick false done proc.queue
    active := proc.active.filter fun r => r ∉ reported.filterMap Entry.req
    daemon := .effects reported
    user := match proc.user with
      | .calling max_arr_tail _ => .calling max_arr_tail true
      | user => user }

def Proc.daemonStep (size rank : Nat) (proc : Proc) : Option Proc :=
  match proc.daemon with
  | .drain => none
  | .posting src start (op :: rest) mpi_op =>
      some (proc.postOp src start op rest mpi_op)
  | .posting _ _ [] mpi_op => some { proc.append mpi_op with daemon := .drain }
  | .effects (e :: rest) => some (proc.orHalt (proc.progressOp size rank e.op rest))
  | .effects [] => some { proc with daemon := .drain }

/-- Whether `uri_mpi_channel_daemon` is running: as the daemon thread, or
called from `uri_mpi_channel_close` and not past the test. -/
def Proc.polls (proc : Proc) : Bool :=
  match proc.user with
  | .reducing _ | .calling _ true | .closed => false
  | _ => true

/-! ### All processes -/

structure World where
  size : Nat
  procs : Nat → Proc

/-- The choices a process makes, and the steps it takes without one. -/
inductive ProcAct
  | beginCreate (once_now : Bool) (writes : List Write)
  /-- `qsort` has returned with this array. -/
  | sortOps (sorted : List MpiOp)
  | beginStart (plan : Nat)
  | beginDestroy (plan : Nat)
  | beginClose
  | userStep
  | recvCtrl (src_rank : Nat)
  | testSome (done : List Bool)
  | daemonStep
  deriving Repr, DecidableEq

/-- A step of one process, or the completion of a collective call. -/
inductive Act
  | proc (rank : Nat) (a : ProcAct)
  /-- The barriers of `unr_finalize`. -/
  | barrier
  | allreduce
  deriving Repr, DecidableEq

/-- Whether the operation of an entry of process `rank` can have completed: a
send at any time, a receive once there is a message for it. -/
def World.complete (w : World) (rank : Nat) (e : Entry) : Bool :=
  match e.op.op_type with
  | .opSend => true
  | .opRecv => e.pos < (w.procs e.op.rank).posted .opSend rank e.op.tag

def World.procStep (w : World) (rank : Nat) : ProcAct → Option Proc
  | .beginCreate once_now writes =>
      let proc := w.procs rank
      if proc.user = .idle ∧ writes ≠ [] then
        some { proc with
          next_plan := proc.next_plan + 1
          user := .creating once_now proc.next_plan writes none [] [] [] }
      else none
  | .sortOps sorted =>
      let proc := w.procs rank
      match proc.user with
      | .creating once_now plan [] none send_ops recv_ops mpi_op =>
          if sorted.Perm recv_ops ∧ sorted.Pairwise (·.rank ≤ ·.rank) then
            some { proc with
              user := .announcing once_now plan send_ops (receivers sorted) [] mpi_op }
          else none
      | _ => none
  | .beginStart plan =>
      let proc := w.procs rank
      match proc.user, proc.plans.find? (·.plan == plan) with
      | .idle, some p =>
          some { proc with
            next_start := proc.next_start + 1
            user := .starting p proc.next_start p.recv_batch p.send_batch [] }
      | _, _ => none
  | .beginDestroy plan =>
      let proc := w.procs rank
      match proc.user, proc.plans.find? (·.plan == plan) with
      | .idle, some p =>
          some { proc with
            plans := proc.plans.erase p
            user := .destroying p p.send_batch p.recv_batch [] }
      | _, _ => none
  | .beginClose =>
      -- `unr_finalize` waits for the end of the daemon thread
      let proc := w.procs rank
      if proc.user = .finalizing ∧ proc.daemon = .drain then
        some { proc with user := .reducing proc.queue.length }
      else none
  | .userStep => (w.procs rank).userStep w.size rank
  | .recvCtrl src_rank =>
      let proc := w.procs rank
      if proc.daemon = .drain ∧ proc.polls ∧ src_rank < w.size then
        ((w.procs src_rank).ctrl_sent rank)[proc.ctrl_received src_rank]?.map
          fun msg => proc.recvCtrl src_rank msg
      else none
  | .testSome done =>
      let proc := w.procs rank
      if proc.daemon = .drain ∧ proc.polls ∧ done.length = proc.queue.length ∧
          ∀ e ∈ pick true done proc.queue, w.complete rank e then
        some (proc.testSome done)
      else none
  | .daemonStep => (w.procs rank).daemonStep w.size rank

def UserPhase.contribution : UserPhase → Option Nat
  | .reducing self_arr_tail => some self_arr_tail
  | _ => none

def World.maxArrTail (w : World) : Nat :=
  (List.range w.size).foldl
    (fun m p => max m ((w.procs p).user.contribution.getD 0)) 0

def World.setUser (w : World) (user : UserPhase) : World :=
  { w with procs := fun p => if p < w.size then { w.procs p with user := user } else w.procs p }

def World.step (w : World) : Act → Option World
  | .proc rank a =>
      if rank < w.size ∧ (w.procs rank).halted = none then
        (w.procStep rank a).map fun proc =>
          { w with procs := Function.update w.procs rank proc }
      else none
  | .barrier =>
      if ∀ p < w.size, (w.procs p).user = .idle ∧ (w.procs p).halted = none then
        some (w.setUser .finalizing)
      else none
  | .allreduce =>
      if ∀ p < w.size, (w.procs p).user.contribution.isSome ∧ (w.procs p).halted = none then
        some (w.setUser (.calling w.maxArrTail false))
      else none

def World.init (size : Nat) (flags : Nat → Nat → UruFlag) : World where
  size := size
  procs := fun p => .init (flags p)

end Unr.Mpi
