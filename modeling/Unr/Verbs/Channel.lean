import Unr.Uru.Flag
import Unr.Verbs.Plan

/-!
The verbs channel of a number of processes, one step at a time.

The threads of a process create, start and destroy plans; `send_lock` admits
one start at a time, so that a process has one place at which requests are
posted. Its daemon polls the completion queue and handles one completion after
the other. The NICs carry out the posted requests and report completions. Any
of them may take the next step.

A request is first in the send queue of its queue pair, then executed with its
completion still under way, then a completion in the queue of its sender. A
request with immediate data takes one receive from the shared receive queue of
the target and puts a completion there. The queue pair of a process is named by
the rank it leads to, so that `qp2rank` has nothing to look up.

Fields marked as ghost say which write a request belongs to and what has
happened to it so far. The program has no such fields.
-/

namespace Unr.Verbs

open Unr.Uru
open Unr.Mpi (MemInfo Write)

def verbsOutstandingSendRequests : Int := 256

/-- `init_flag_pool`. The first argument is what `atoi` returns for
`URU_NUM_FLAGS`, if it is set; the second is what `MPI_Allgather` collects. -/
def initFlagPool (env : Option (BitVec 64)) (rmt_base : List Nat) : Prog FlagPool :=
  match env with
  | some num_flags => do
      uruAssert (0 < num_flags.toNat ∧ num_flags.toNat ≤ 2 ^ 32)
      return { size := num_flags.toNat, rmt_base := rmt_base }
  | none => .ok { size := 65536, rmt_base := rmt_base }

/-- The pool has the collected arrays, and its indices are 32-bit numbers. -/
theorem initFlagPool_eq_ok {env : Option (BitVec 64)} {rmt_base : List Nat} {flag_pool : FlagPool}
    (h : initFlagPool env rmt_base = .ok flag_pool) :
    flag_pool.size ≤ 2 ^ 32 ∧ flag_pool.rmt_base = rmt_base := by
  cases env with
  | none =>
      cases h
      exact ⟨Nat.le_of_lt (by decide : 65536 < 2 ^ 32), rfl⟩
  | some num_flags =>
      obtain ⟨_, hassert, h⟩ := bind_eq_ok.mp h
      cases h
      exact ⟨(uruAssert_eq_ok.mp hassert).2, rfl⟩

/-! ### Requests and completions -/

/-- A posted request of a write. The numbers of a process are all different. -/
structure Job where
  initiator : Nat
  number : Nat
  pr : PlanWr
  write : Write
  deriving Repr, DecidableEq

structure Wqe where
  src : Nat
  dst : Nat
  wr : IbvSendWr
  /-- Ghost: the write. -/
  job : Job
  /-- Ghost: whether it is the notification that follows a get. -/
  note : Bool
  deriving Repr, DecidableEq

inductive IbvWcOpcode
  | rdmaWrite | rdmaRead | recvRdmaWithImm | other
  deriving Repr, DecidableEq

structure IbvWc where
  /-- `status == IBV_WC_SUCCESS`. -/
  success : Bool
  opcode : IbvWcOpcode
  /-- `qp2rank[qp_num]`. -/
  dst_rank : Nat
  wr_id : WrId
  imm_data : BitVec 32
  /-- Ghost: the write. -/
  job : Job
  /-- Ghost: whether it completes the notification that follows a get. -/
  note : Bool
  deriving Repr, DecidableEq

def Wqe.sendWc (wqe : Wqe) (success : Bool) : IbvWc where
  success := success
  opcode := if wqe.wr.opcode = .rdmaRead then .rdmaRead else .rdmaWrite
  dst_rank := wqe.dst
  wr_id := wqe.wr.wr_id
  imm_data := 0
  job := wqe.job
  note := wqe.note

def Wqe.recvWc (wqe : Wqe) : IbvWc where
  success := true
  opcode := .recvRdmaWithImm
  dst_rank := wqe.src
  wr_id := ⟨0, 0⟩
  imm_data := wqe.wr.imm_data
  job := wqe.job
  note := wqe.note

/-- The request that `uri_verbs_send_rmt_complete` posts. -/
def rmtCompleteWr (rmt_imm_protocol : BitVec 32) : IbvSendWr where
  wr_id := ⟨0, 0⟩
  sg_list := none
  opcode := .rdmaWriteWithImm
  inline := false
  signaled := true
  imm_data := rmt_imm_protocol
  remote_addr := 0
  rkey := 0

/-! ### A process -/

structure IbvDeviceAttr where
  max_cqe : Nat
  max_srq_wr : Nat
  deriving Repr, DecidableEq

/-- `wr[i]` and `dst_rank[i]` of a plan. -/
structure PlanEntry where
  pr : PlanWr
  /-- Ghost: the write it was made for. -/
  write : Write
  deriving Repr, DecidableEq

structure VerbsPlan where
  /-- Ghost: the number of the plan. -/
  plan : Nat
  wr : List PlanEntry
  deriving Repr, DecidableEq

/-- Where a turn of the loop of `uri_verbs_rdma_plan_start` is. -/
inductive StartPoint
  /-- At the assertion before the wait. -/
  | enter
  /-- At the condition of the wait. -/
  | test
  /-- At the assertion inside the wait. -/
  | wait
  /-- At `ibv_post_send`. -/
  | post
  /-- At the update of `req_submit`. -/
  | submit
  deriving Repr, DecidableEq

inductive StartPhase
  | idle
  | writing (point : StartPoint) (plan : Nat) (entry : PlanEntry) (rest : List PlanEntry)
  deriving Repr, DecidableEq

def StartPhase.next (plan : Nat) : List PlanEntry → StartPhase
  | [] => .idle
  | entry :: rest => .writing .enter plan entry rest

inductive DaemonPhase
  /-- Before `ibv_poll_cq`. -/
  | idle
  /-- In the loop over the completions, before the remaining ones; `num_wr`
  receives are to be posted again. -/
  | handling (rest : List IbvWc) (num_wr : Nat)
  /-- In `uri_verbs_send_rmt_complete`, at `ibv_post_send`. The job is
  ghost. -/
  | notifying (dst_rank : Nat) (rmt_imm_protocol : BitVec 32) (job : Job) (rest : List IbvWc)
      (num_wr : Nat)
  deriving Repr, DecidableEq

structure Proc where
  dev_attr : IbvDeviceAttr
  plans : List VerbsPlan
  /-- Ghost: the number of the next plan. -/
  next_plan : Nat
  /-- Ghost: the number of the next job. -/
  next_job : Nat
  start : StartPhase
  /-- What each counter has been raised to. The program keeps the low 64
  bits. -/
  req_submit : Nat → Nat
  req_finish : Nat → Nat
  /-- `shared_cq`. -/
  shared_cq : List IbvWc
  /-- The number of receives in `srq`. -/
  srq : Nat
  daemon : DaemonPhase
  flags : Nat → UruFlag
  /-- What the daemon has pushed to signal pools. -/
  pushed : List (Nat × Int)
  /-- The reason why the process has stopped. -/
  halted : Option Stop

def Proc.init (dev_attr : IbvDeviceAttr) (flags : Nat → UruFlag) : Proc where
  dev_attr := dev_attr
  plans := []
  next_plan := 0
  next_job := 0
  start := .idle
  req_submit := fun _ => 0
  req_finish := fun _ => 0
  shared_cq := []
  srq := dev_attr.max_srq_wr
  daemon := .idle
  flags := flags
  pushed := []
  halted := none

/-- A counter as the program reads it through `volatile int64_t*`. -/
def int64 (n : Nat) : BitVec 64 := BitVec.ofNat 64 n

/-- The difference of two counters is exact, however far they have been
raised. -/
theorem int64_sub (finish : Nat) {k : Nat} (hk : k ≤ 512) :
    (int64 (finish + k) - int64 finish).toInt = k := by
  have hsub : int64 (finish + k) - int64 finish = BitVec.ofNat 64 k := by
    unfold int64
    rw [BitVec.ofNat_add, BitVec.add_comm, BitVec.add_sub_cancel]
  rw [hsub, BitVec.toInt_eq_toNat_of_lt] <;> rw [BitVec.toNat_ofNat] <;> omega

theorem int64_toInt {n : Nat} (hn : n < 2 ^ 63) : (int64 n).toInt = n := by
  unfold int64
  rw [BitVec.toInt_eq_toNat_of_lt] <;> rw [BitVec.toNat_ofNat] <;> omega

namespace Proc

def submitGeFinish (proc : Proc) (dst_rank : Nat) : Prop :=
  (int64 (proc.req_finish dst_rank)).toInt ≤ (int64 (proc.req_submit dst_rank)).toInt

instance (proc : Proc) (dst_rank : Nat) : Decidable (proc.submitGeFinish dst_rank) :=
  inferInstanceAs (Decidable (_ ≤ _))

def queueFull (proc : Proc) (dst_rank : Nat) : Prop :=
  (int64 (proc.req_submit dst_rank) - int64 (proc.req_finish dst_rank)).toInt >
    verbsOutstandingSendRequests - 1

instance (proc : Proc) (dst_rank : Nat) : Decidable (proc.queueFull dst_rank) :=
  inferInstanceAs (Decidable (_ > _))

def halt (proc : Proc) (stop : Stop) : Proc := { proc with halted := some stop }

def orHalt (proc : Proc) (result : Prog Proc) : Proc :=
  match result with
  | .ok proc' => proc'
  | .error stop => proc.halt stop

/-- The plan is kept until it is destroyed. A plan that is used once is
started and destroyed by the same call. -/
def addPlan (proc : Proc) (writes : List Write) (wr : List PlanWr) : Proc :=
  { proc with
    plans := proc.plans ++ [⟨proc.next_plan, List.zipWith PlanEntry.mk wr writes⟩]
    next_plan := proc.next_plan + 1 }

def starting (proc : Proc) (plan : Nat) : Bool :=
  match proc.start with
  | .idle => false
  | .writing _ plan' _ _ => plan' == plan

/-- `uri_verbs_event_progress`. The list `pushed` goes on where `uru_queue_push` exits with a
full queue, so that there are more runs here than in the source. -/
def eventProgress (flag_pool : FlagPool) (rank : Nat) (proc : Proc) (event : BitVec 32) :
    Prog Proc :=
  if event = 0 then .ok proc
  else do
    let base ← fetch flag_pool.rmt_base rank
    let flag_p := base + event.toNat
    let flag := (proc.flags flag_p).add (-1#64)
    return { proc with
      flags := Function.update proc.flags flag_p flag
      pushed := proc.pushed ++
        if flag.counter = 0 then (flag.queue.map (·, flag.idx)).toList else [] }

def finish (proc : Proc) (dst_rank : Nat) : Proc :=
  { proc with
    req_finish := Function.update proc.req_finish dst_rank (proc.req_finish dst_rank + 1) }

/-- A turn of the loop over the completions, up to the request that
`uri_verbs_send_rmt_complete` may post. -/
def handle (flag_pool : FlagPool) (rank : Nat) (proc : Proc) (wc : IbvWc) (rest : List IbvWc)
    (num_wr : Nat) : Prog Proc :=
  if wc.success then
    match wc.opcode with
    | .rdmaWrite => do
        let proc ← (proc.finish wc.dst_rank).eventProgress flag_pool rank wc.wr_id.imm_protocol
        return { proc with daemon := .handling rest num_wr }
    | .recvRdmaWithImm => do
        let proc ← proc.eventProgress flag_pool rank wc.imm_data
        return { proc with daemon := .handling rest (num_wr + 1) }
    | .rdmaRead => do
        let proc ← (proc.finish wc.dst_rank).eventProgress flag_pool rank wc.wr_id.imm_protocol
        return { proc with
          daemon :=
            if wc.wr_id.rmt_imm_protocol = 0 then .handling rest num_wr
            else .notifying wc.dst_rank wc.wr_id.rmt_imm_protocol wc.job rest num_wr }
    | .other => throw (.exit .errorExit)
  else throw (.exit .errorExit)

/-- How much a request adds to `req_submit`. -/
def slots (wr : IbvSendWr) : Nat :=
  if wr.opcode = .rdmaRead ∧ wr.wr_id.rmt_imm_protocol ≠ 0 then 2 else 1

/-- The update of `req_submit`, and the next turn of the loop. -/
def submit (proc : Proc) (plan : Nat) (entry : PlanEntry) (rest : List PlanEntry) : Proc :=
  { proc with
    req_submit := Function.update proc.req_submit entry.pr.dst_rank
      (proc.req_submit entry.pr.dst_rank + slots entry.pr.wr)
    start := .next plan rest }

end Proc

/-! ### The system -/

/-- Which completion a call of `uri_verbs_event_progress` belongs to. -/
inductive Source
  /-- That of the request of a write, at its sender. -/
  | sent
  /-- That of a notification, at its sender. -/
  | notified
  /-- That of a receive. -/
  | received
  deriving Repr, DecidableEq

structure Progress where
  rank : Nat
  event : BitVec 32
  source : Source
  job : Job
  deriving Repr, DecidableEq

def IbvWc.progress (wc : IbvWc) (rank : Nat) : Progress where
  rank := rank
  event := if wc.opcode = .recvRdmaWithImm then wc.imm_data else wc.wr_id.imm_protocol
  source :=
    if wc.opcode = .recvRdmaWithImm then .received else if wc.note then .notified else .sent
  job := wc.job

structure World where
  size : Nat
  flag_pool : FlagPool
  lkey : MemInfo → BitVec 32
  rkey : MemInfo → BitVec 32
  procs : Nat → Proc
  /-- The posted requests that have not been executed. -/
  sq : List Wqe
  /-- The executed requests whose completion is still under way. -/
  acked : List Wqe
  /-- The queue pairs, by sender and receiver, that are in the error state. -/
  broken : List (Nat × Nat)
  /-- Ghost: the jobs that have been posted. -/
  started : List Job
  /-- Ghost: the jobs whose data have been transferred. -/
  placed : List Job
  /-- Ghost: the calls of `uri_verbs_event_progress`. -/
  progress : List Progress

def World.init (size : Nat) (flag_pool : FlagPool) (lkey rkey : MemInfo → BitVec 32)
    (dev_attr : Nat → IbvDeviceAttr) (flags : Nat → Nat → UruFlag) : World where
  size := size
  flag_pool := flag_pool
  lkey := lkey
  rkey := rkey
  procs := fun p => .init (dev_attr p) (flags p)
  sq := []
  acked := []
  broken := []
  started := []
  placed := []
  progress := []

inductive ProcAct
  | create (writes : List Write)
  | destroy (plan : Nat)
  | start (plan : Nat)
  /-- The choice says whether the wait has lasted too long. -/
  | startStep (timeout : Bool)
  /-- `ibv_poll_cq` returns `num_complete`. -/
  | poll (num_complete : Nat)
  | daemonStep
  deriving Repr, DecidableEq

/-- A step of a process, or of the NICs. -/
inductive Act
  | proc (rank : Nat) (a : ProcAct)
  /-- The `i`-th of the posted requests is executed. -/
  | execute (i : Nat)
  /-- The completion of the `i`-th of the executed requests arrives. -/
  | complete (i : Nat)
  deriving Repr, DecidableEq

namespace World

def setProc (w : World) (rank : Nat) (proc : Proc) : World :=
  { w with procs := Function.update w.procs rank proc }

def newJob (w : World) (rank : Nat) (entry : PlanEntry) : Job :=
  ⟨rank, (w.procs rank).next_job, entry.pr, entry.write⟩

/-- `ibv_post_send` in `uri_verbs_rdma_plan_start`. -/
def postWrite (w : World) (rank plan : Nat) (entry : PlanEntry) (rest : List PlanEntry) : World :=
  let proc := w.procs rank
  let job := w.newJob rank entry
  { w.setProc rank { proc with
      next_job := proc.next_job + 1, start := .writing .submit plan entry rest } with
    sq := w.sq ++ [⟨rank, entry.pr.dst_rank, entry.pr.wr, job, false⟩]
    started := w.started ++ [job] }

def startStep (w : World) (rank : Nat) (timeout : Bool) : Option World :=
  let proc := w.procs rank
  match proc.start with
  | .idle => none
  | .writing point plan entry rest =>
      let goto := fun point =>
        some (w.setProc rank { proc with start := .writing point plan entry rest })
      let halt := fun stop => some (w.setProc rank (proc.halt stop))
      match point with
      | .enter =>
          -- the counters are arrays of `size` entries
          if ¬ entry.pr.dst_rank < w.size then halt .undefined
          else if proc.submitGeFinish entry.pr.dst_rank then goto .test
          else halt (.exit .assertExit)
      | .test => if proc.queueFull entry.pr.dst_rank then goto .wait else goto .post
      | .wait =>
          if ¬ proc.submitGeFinish entry.pr.dst_rank then halt (.exit .assertExit)
          else if timeout then halt (.exit .errorExit)
          else goto .test
      | .post => if entry.pr.dst_rank < w.size
          then some (w.postWrite rank plan entry rest) else none
      | .submit => some (w.setProc rank (proc.submit plan entry rest))

def handled (w : World) (rank : Nat) (wc : IbvWc) (proc : Proc) : World :=
  { w.setProc rank proc with progress := w.progress ++ [wc.progress rank] }

def handle (w : World) (rank : Nat) (wc : IbvWc) (rest : List IbvWc) (num_wr : Nat) : World :=
  match (w.procs rank).handle w.flag_pool rank wc rest num_wr with
  | .ok proc => w.handled rank wc proc
  | .error stop => w.setProc rank ((w.procs rank).halt stop)

/-- `ibv_post_send` in `uri_verbs_send_rmt_complete`. -/
def postNote (w : World) (rank dst_rank : Nat) (rmt_imm_protocol : BitVec 32) (job : Job)
    (rest : List IbvWc) (num_wr : Nat) : World :=
  { w.setProc rank { w.procs rank with daemon := .handling rest num_wr } with
    sq := w.sq ++ [⟨rank, dst_rank, rmtCompleteWr rmt_imm_protocol, job, true⟩] }

def daemonStep (w : World) (rank : Nat) : Option World :=
  let proc := w.procs rank
  match proc.daemon with
  | .idle => none
  | .handling [] num_wr =>
      some (w.setProc rank { proc with srq := proc.srq + num_wr, daemon := .idle })
  | .handling (wc :: rest) num_wr => some (w.handle rank wc rest num_wr)
  | .notifying dst_rank rmt_imm_protocol job rest num_wr =>
      some (w.postNote rank dst_rank rmt_imm_protocol job rest num_wr)

def procStep (w : World) (rank : Nat) : ProcAct → Option World
  | .create writes =>
      let proc := w.procs rank
      let result := uriVerbsRdmaPlanCreate w.size w.flag_pool w.lkey w.rkey writes
      some (w.setProc rank (proc.orHalt (result.map (proc.addPlan writes))))
  | .destroy plan =>
      let proc := w.procs rank
      if proc.starting plan then none
      else some (w.setProc rank { proc with plans := proc.plans.filter (·.plan != plan) })
  | .start plan =>
      let proc := w.procs rank
      match proc.start, proc.plans.find? (·.plan == plan) with
      | .idle, some p => some (w.setProc rank { proc with start := .next plan p.wr })
      | _, _ => none
  | .startStep timeout => w.startStep rank timeout
  | .poll num_complete =>
      let proc := w.procs rank
      if proc.daemon = .idle ∧ num_complete ≤ proc.dev_attr.max_cqe ∧
          num_complete ≤ proc.shared_cq.length then
        some (w.setProc rank { proc with
          shared_cq := proc.shared_cq.drop num_complete
          daemon := .handling (proc.shared_cq.take num_complete) 0 })
      else none
  | .daemonStep => w.daemonStep rank

def pushWc (w : World) (rank : Nat) (wc : IbvWc) : World :=
  w.setProc rank { w.procs rank with shared_cq := (w.procs rank).shared_cq ++ [wc] }

/-- A request with immediate data finds no posted receive. -/
def misses (w : World) (wqe : Wqe) : Prop :=
  wqe.wr.opcode = .rdmaWriteWithImm ∧ (w.procs wqe.dst).srq = 0

instance (w : World) (wqe : Wqe) : Decidable (w.misses wqe) :=
  inferInstanceAs (Decidable (_ ∧ _))

/-- A posted request is executed. As `rnr_retry` is 0, a request that misses
fails at once and takes its queue pair to the error state, in which all later
ones fail as well. -/
def execute (w : World) (i : Nat) (wqe : Wqe) : World :=
  let w := { w with sq := w.sq.eraseIdx i }
  if (wqe.src, wqe.dst) ∈ w.broken ∨ w.misses wqe then
    { w.pushWc wqe.src (wqe.sendWc false) with broken := (wqe.src, wqe.dst) :: w.broken }
  else
    let w := { w with
      acked := w.acked ++ [wqe]
      placed := if wqe.note then w.placed else w.placed ++ [wqe.job] }
    if wqe.wr.opcode = .rdmaWriteWithImm then
      let proc := w.procs wqe.dst
      w.setProc wqe.dst { proc with
        srq := proc.srq - 1, shared_cq := proc.shared_cq ++ [wqe.recvWc] }
    else w

def complete (w : World) (i : Nat) (wqe : Wqe) : World :=
  let w := { w with acked := w.acked.eraseIdx i }
  if wqe.wr.signaled then w.pushWc wqe.src (wqe.sendWc true) else w

def step (w : World) : Act → Option World
  | .proc rank a =>
      if rank < w.size ∧ (w.procs rank).halted = none then w.procStep rank a else none
  | .execute i => w.sq[i]?.map (w.execute i)
  | .complete i => w.acked[i]?.map (w.complete i)

end World

end Unr.Verbs
