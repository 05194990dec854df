import Unr.Logic.Loop
import Unr.Mpi.Grouping

/-!
`uri_mpi_rdma_plan_create` as one call: the operations of the process itself,
the batches that it keeps, and the control messages that it builds.

What the pool of a process returns for the tag of a write and for the id of a
batch is given, as is what `qsort` makes of the array. A batch that is kept and the copy of it in a
message differ in one thing: in the copy the rank of every operation is that
of the initiator, in the kept one it is that of the receiver, which is where
`uri_mpi_rdma_plan_start` and `uri_mpi_rdma_plan_destroy` find it.
-/

namespace Unr.Mpi

open Unr.Uru Unr.Logic

/-! ### The call -/

structure UriMpiOpBatch where
  num_op : Nat
  batch_id : Int
  ops : List MpiOp
  deriving Repr, DecidableEq

inductive CtrlType
  | createOpBatch | destroyOpBatch | startOpBatch | executeOpBatch
  deriving Repr, DecidableEq

/-- The operation that sends a control message, with the message that its
address leads to. -/
structure CtrlSend where
  rank : Nat
  size : Nat
  type : CtrlType
  batch_id : Int
  /-- What follows the header. -/
  batch : Option UriMpiOpBatch
  deriving Repr, DecidableEq

def sizeofUriMpiCtrlMsg : Nat := 16

def sizeofUriMpiOpBatch : Nat := 8

/-- What the call leaves behind: the operations of the process itself, the
batches that it keeps, and the messages. -/
structure PlanCreated where
  send_batch : List MpiOp
  recv_batch : List UriMpiOpBatch
  mpi_op : List CtrlSend
  deriving Repr, DecidableEq

section Create

variable (size rank : Nat) (once_now : Bool) (plan : Nat) (tags : Nat → Nat → Nat)

def planSendOp (x : Write × Nat) : MpiOp :=
  x.1.sendOp (if once_now then 0 else keepOp ||| keepReq) plan x.2 (tags x.1.rmt_mem.rank x.2)

def planRecvOp (x : Write × Nat) : MpiOp :=
  x.1.recvOp (if once_now then freeOp else keepOp ||| keepReq) plan x.2
    (tags x.1.rmt_mem.rank x.2)

/-- A turn of the loop over the writes, without the request. -/
def createTurn (x : Write × Nat) : Prog (MpiOp × MpiOp) := do
  x.1.check size rank
  let send_op := planSendOp once_now plan tags x
  let recv_op := planRecvOp once_now plan tags x
  uruAssert (hasBit recv_op.flag freeTag = false)
  return (send_op, recv_op)

/-- The body of the loop over the receivers, for the group from `st` to
`en`. -/
def announceGroup (sizeofUriMpiOp : Nat) (ids : Nat → Nat → Nat) (recv_op_arr : List MpiOp)
    (i st en : Nat) : Prog (UriMpiOpBatch × CtrlSend) := do
  let num_op := en - st
  let dst_rank ← (·.rank) <$> fetch recv_op_arr st
  if ¬ st + num_op ≤ recv_op_arr.length then
    throw .undefined
  let batch : UriMpiOpBatch := {
    num_op := num_op
    batch_id := if once_now then -1 else ids dst_rank i
    ops := slice recv_op_arr st num_op }
  let ctrl_send : CtrlSend := {
    rank := dst_rank
    size := sizeofUriMpiCtrlMsg + sizeofUriMpiOpBatch + sizeofUriMpiOp * num_op
    type := if once_now then .executeOpBatch else .createOpBatch
    batch_id := batch.batch_id
    batch := some { batch with ops := addressed rank batch.ops } }
  return (batch, ctrl_send)

/-- The two loops over the sorted array. -/
def announceAll (sizeofUriMpiOp : Nat) (ids : Nat → Nat → Nat) (recv_op_arr : List MpiOp) :
    Prog (List (UriMpiOpBatch × CtrlSend)) := do
  let num_receiver ← countReceivers recv_op_arr
  groupLoop recv_op_arr (announceGroup rank once_now sizeofUriMpiOp ids recv_op_arr)
    num_receiver 0 0 1

/-- `uri_mpi_rdma_plan_create`. The loop counters are of type `int`, so that
there are fewer than `2 ^ 31` writes. -/
def uriMpiRdmaPlanCreate (sizeofUriMpiOp : Nat) (ids : Nat → Nat → Nat)
    (qsort : List MpiOp → List MpiOp) (writes : List Write) : Prog PlanCreated := do
  let ops ← writes.zipIdx.mapM (createTurn size rank once_now plan tags)
  let groups ← announceAll rank once_now sizeofUriMpiOp ids (qsort (ops.map Prod.snd))
  return {
    send_batch := ops.map Prod.fst
    recv_batch := groups.map Prod.fst
    mpi_op := groups.map Prod.snd }

end Create

/-- A control message of `uri_mpi_rdma_plan_start` or
`uri_mpi_rdma_plan_destroy`: it goes where the first operation of the batch
goes. -/
def batchMessage (type : CtrlType) (recv_batch : UriMpiOpBatch) : Prog CtrlSend := do
  let op ← fetch recv_batch.ops 0
  return {
    rank := op.rank
    size := sizeofUriMpiCtrlMsg
    type := type
    batch_id := recv_batch.batch_id
    batch := none }

def PlanCreated.start (p : PlanCreated) : Prog (List CtrlSend) :=
  p.recv_batch.mapM (batchMessage .startOpBatch)

def PlanCreated.destroy (p : PlanCreated) : Prog (List CtrlSend) :=
  p.recv_batch.mapM (batchMessage .destroyOpBatch)

/-! ### The operations -/

section Ops

variable {size rank plan : Nat} {once_now : Bool} {tags : Nat → Nat → Nat} {writes : List Write}

/-- The mirror image of the write at a position, as the receiver gets it. -/
def mirror (rank : Nat) (once_now : Bool) (plan : Nat) (tags : Nat → Nat → Nat) (x : Write × Nat) :
    MpiOp :=
  { planRecvOp once_now plan tags x with rank := rank }

/-- An operation of the initiator and one of a receiver are the two sides of a
write. -/
structure Mirrors (rank : Nat) (w : Write) (send_op recv_op : MpiOp) : Prop where
  tag : recv_op.tag = send_op.tag
  size : recv_op.size = send_op.size ∧ send_op.size = w.dma_size
  index : recv_op.index = send_op.index
  op_type : recv_op.op_type = send_op.op_type.flip ∧ send_op.op_type = w.opType
  /-- Each side has its own region, flag and increment. -/
  own : send_op.addr = w.loc_mem.addr + w.loc_offset ∧ send_op.flag_p = w.loc_flag_p ∧
    send_op.flag_add = w.loc_flag_add
  peer : recv_op.addr = w.rmt_mem.addr + w.rmt_offset ∧ recv_op.flag_p = w.rmt_flag_p ∧
    recv_op.flag_add = w.rmt_flag_add
  /-- Each side has the rank of the other one. -/
  rank : send_op.rank = w.rmt_mem.rank ∧ recv_op.rank = rank

theorem mirrors_mirror (x : Write × Nat) :
    Mirrors rank x.1 (planSendOp once_now plan tags x) (mirror rank once_now plan tags x) :=
  ⟨rfl, ⟨rfl, rfl⟩, rfl, ⟨rfl, rfl⟩, ⟨rfl, rfl, rfl⟩, ⟨rfl, rfl, rfl⟩, rfl, rfl⟩

theorem createTurn_eq_ok {x : Write × Nat} {y : MpiOp × MpiOp} :
    createTurn size rank once_now plan tags x = .ok y ↔ x.1.check size rank = .ok () ∧
      y = (planSendOp once_now plan tags x, planRecvOp once_now plan tags x) := by
  have hflag : hasBit (planRecvOp once_now plan tags x).flag freeTag = false := by
    cases once_now
    · exact (by decide : hasBit (keepOp ||| keepReq) freeTag = false)
    · exact (by decide : hasBit freeOp freeTag = false)
  rw [createTurn]
  cases x.1.check size rank with
  | error stop => simp [error_bind]
  | ok u =>
      rw [ok_bind, uruAssert_bind, if_pos hflag, pure_eq_ok]
      exact ⟨fun h => ⟨rfl, h.symm⟩, fun h => h.2.symm⟩

theorem createOps_eq_ok {ops : List (MpiOp × MpiOp)} :
    writes.zipIdx.mapM (createTurn size rank once_now plan tags) = .ok ops ↔
      (∀ w ∈ writes, w.check size rank = .ok ()) ∧
        ops = writes.zipIdx.map fun x =>
          (planSendOp once_now plan tags x, planRecvOp once_now plan tags x) := by
  rw [mapM_eq_ok_iff fun x _ y hy => (createTurn_eq_ok.mp hy).2]
  refine and_congr_left fun _ => ?_
  constructor
  · intro hall w hw
    obtain ⟨i, hi, rfl⟩ := List.mem_iff_getElem.mp hw
    obtain ⟨y, hy⟩ := hall (writes[i], i) (List.mk_mem_zipIdx_iff_getElem?.mpr (by simp [hi]))
    exact (createTurn_eq_ok.mp hy).1
  · exact fun hall x hx =>
      ⟨_, createTurn_eq_ok.mpr ⟨hall x.1 (List.fst_mem_of_mem_zipIdx hx), rfl⟩⟩

end Ops

/-! ### The groups -/

section Groups

variable {rank sizeofUriMpiOp : Nat} {once_now : Bool} {ids : Nat → Nat → Nat}

def keptBatch (once_now : Bool) (ids : Nat → Nat → Nat) (i : Nat) (g : List MpiOp) :
    UriMpiOpBatch where
  num_op := g.length
  batch_id := if once_now then -1 else ids (groupRank g) i
  ops := g

def groupMessage (rank sizeofUriMpiOp : Nat) (once_now : Bool) (ids : Nat → Nat → Nat) (i : Nat)
    (g : List MpiOp) : CtrlSend where
  rank := groupRank g
  size := sizeofUriMpiCtrlMsg + sizeofUriMpiOpBatch + sizeofUriMpiOp * g.length
  type := if once_now then .executeOpBatch else .createOpBatch
  batch_id := (keptBatch once_now ids i g).batch_id
  batch := some { keptBatch once_now ids i g with ops := addressed rank g }

theorem Uniform.groupRank_eq {g : List MpiOp} (h : Uniform g) :
    ∀ op ∈ g, op.rank = groupRank g := by
  obtain ⟨op, rest, rfl, hsame⟩ := h
  intro op' hop'
  rcases List.mem_cons.mp hop' with rfl | hop'
  · rfl
  · exact hsame op' hop'

theorem announceGroup_eq {arr pre g post : List MpiOp} (harr : arr = pre ++ g ++ post)
    (huniform : Uniform g) (i : Nat) :
    announceGroup rank once_now sizeofUriMpiOp ids arr i pre.length (pre.length + g.length) =
      .ok (keptBatch once_now ids i g, groupMessage rank sizeofUriMpiOp once_now ids i g) := by
  obtain ⟨op, rest, rfl, -⟩ := huniform
  have hfetch : fetch arr pre.length = .ok op := by
    rw [fetch_eq_ok, harr, List.append_assoc, List.getElem?_append_right (Nat.le_refl _),
      Nat.sub_self]
    rfl
  have hinside : pre.length + (op :: rest).length ≤ arr.length := by
    rw [harr]
    simp only [List.length_append]
    omega
  have hslice : slice arr pre.length (op :: rest).length = op :: rest := by
    rw [slice, harr, List.append_assoc, List.drop_left, List.take_left]
  simp only [announceGroup, Nat.add_sub_cancel_left, hfetch, hinside, not_true_eq_false, hslice]
  rfl

/-- In a sorted array a group has all operations for its process. -/
theorem filter_flatten_groups {groups : List (List MpiOp)} (huniform : ∀ g ∈ groups, Uniform g)
    (hranks : (groups.map groupRank).Pairwise (· < ·)) {g : List MpiOp} (hg : g ∈ groups) :
    groups.flatten.filter (fun op => op.rank = groupRank g) = g := by
  induction groups with
  | nil => exact nomatch hg
  | cons g' groups ih =>
      obtain ⟨hlt, hranks⟩ := List.pairwise_cons.mp hranks
      have hsame := (huniform g' (by simp)).groupRank_eq
      rw [List.flatten_cons, List.filter_append]
      rcases List.mem_cons.mp hg with rfl | hg
      · have hall : g.filter (fun op => op.rank = groupRank g) = g :=
          List.filter_eq_self.mpr fun op hop => by simpa using hsame op hop
        have hnone : groups.flatten.filter (fun op => op.rank = groupRank g) = [] := by
          refine List.filter_eq_nil_iff.mpr fun op hop => ?_
          obtain ⟨g', hg', hop⟩ := List.mem_flatten.mp hop
          have hrank := (huniform g' (by simp [hg'])).groupRank_eq op hop
          have hlt' := hlt _ (List.mem_map.mpr ⟨g', hg', rfl⟩)
          simp only [decide_eq_true_eq]
          omega
        rw [hall, hnone, List.append_nil]
      · have hnone : g'.filter (fun op => op.rank = groupRank g) = [] := by
          refine List.filter_eq_nil_iff.mpr fun op hop => ?_
          have hrank := hsame op hop
          have hlt' := hlt _ (List.mem_map.mpr ⟨g, hg, rfl⟩)
          simp only [decide_eq_true_eq]
          omega
        rw [hnone, List.nil_append, ih (fun g hg => huniform g (by simp [hg])) hranks hg]

end Groups

/-! ### The plan -/

section Plan

variable {size rank plan sizeofUriMpiOp : Nat} {once_now : Bool} {tags ids : Nat → Nat → Nat}
  {qsort : List MpiOp → List MpiOp} {writes : List Write}

def sortedOps (qsort : List MpiOp → List MpiOp) (once_now : Bool) (plan : Nat)
    (tags : Nat → Nat → Nat) (writes : List Write) : List MpiOp :=
  qsort (writes.zipIdx.map (planRecvOp once_now plan tags))

/-- The loops over a sorted array make one batch and one message of every
group. -/
theorem announceAll_eq {arr : List MpiOp} (hne : arr ≠ [])
    (hsorted : arr.Pairwise (·.rank ≤ ·.rank)) :
    announceAll rank once_now sizeofUriMpiOp ids arr = .ok ((receivers arr).zipIdx.map fun x =>
      (keptBatch once_now ids x.2 x.1, groupMessage rank sizeofUriMpiOp once_now ids x.2 x.1)) := by
  rw [announceAll, countReceivers_eq hne, ok_bind]
  exact groupLoop_eq (receivers arr) (receivers_uniform arr) (receivers_sorted hsorted).1
    (fun i pre g post hpre hg => announceGroup_eq hpre (receivers_uniform arr g hg) i)
    (show arr = [] ++ (receivers arr).flatten from (receivers_flatten arr).symm) 0

theorem sortedOps_sorted (once_now : Bool) (plan : Nat) (tags : Nat → Nat → Nat)
    (writes : List Write) (hsort : ∀ arr, SortedBy arr (qsort arr)) :
    SortedBy (writes.zipIdx.map (planRecvOp once_now plan tags))
      (sortedOps qsort once_now plan tags writes) := hsort _

theorem sortedOps_ne_nil (hne : writes ≠ []) (hsort : ∀ arr, SortedBy arr (qsort arr)) :
    sortedOps qsort once_now plan tags writes ≠ [] := by
  intro hnil
  have hlen := (sortedOps_sorted once_now plan tags writes hsort).1.length_eq
  rw [hnil, List.length_map, List.length_zipIdx] at hlen
  exact hne (List.length_eq_zero_iff.mp hlen.symm)

def createdPlan (rank sizeofUriMpiOp plan : Nat) (once_now : Bool) (tags ids : Nat → Nat → Nat)
    (qsort : List MpiOp → List MpiOp) (writes : List Write) : PlanCreated where
  send_batch := writes.zipIdx.map (planSendOp once_now plan tags)
  recv_batch := (receivers (sortedOps qsort once_now plan tags writes)).zipIdx.map
    fun x => keptBatch once_now ids x.2 x.1
  mpi_op := (receivers (sortedOps qsort once_now plan tags writes)).zipIdx.map
    fun x => groupMessage rank sizeofUriMpiOp once_now ids x.2 x.1

/-- The call returns if every write is accepted, and only then. -/
theorem uriMpiRdmaPlanCreate_eq_ok (hne : writes ≠ []) (hsort : ∀ arr, SortedBy arr (qsort arr))
    {p : PlanCreated} :
    uriMpiRdmaPlanCreate size rank once_now plan tags sizeofUriMpiOp ids qsort writes = .ok p ↔
      (∀ w ∈ writes, w.check size rank = .ok ()) ∧
        p = createdPlan rank sizeofUriMpiOp plan once_now tags ids qsort writes := by
  have hall : announceAll rank once_now sizeofUriMpiOp ids
      (sortedOps qsort once_now plan tags writes) = .ok _ :=
    announceAll_eq (sortedOps_ne_nil hne hsort)
      (sortedOps_sorted once_now plan tags writes hsort).pairwise
  have hrest : (announceAll rank once_now sizeofUriMpiOp ids (qsort ((writes.zipIdx.map fun x =>
      (planSendOp once_now plan tags x, planRecvOp once_now plan tags x)).map Prod.snd)) >>=
      fun groups => (pure ⟨(writes.zipIdx.map fun x => (planSendOp once_now plan tags x,
        planRecvOp once_now plan tags x)).map Prod.fst, groups.map Prod.fst,
        groups.map Prod.snd⟩ : Prog PlanCreated)) =
      .ok (createdPlan rank sizeofUriMpiOp plan once_now tags ids qsort writes) := by
    simp only [List.map_map]
    change (announceAll _ _ _ _ (sortedOps qsort once_now plan tags writes) >>= _) = _
    rw [hall, ok_bind, List.map_map, List.map_map]
    rfl
  rw [uriMpiRdmaPlanCreate, bind_eq_ok]
  constructor
  · rintro ⟨ops, hops, hrun⟩
    obtain ⟨hcheck, rfl⟩ := createOps_eq_ok.mp hops
    exact ⟨hcheck, (Except.ok.inj (hrest.symm.trans hrun)).symm⟩
  · rintro ⟨hcheck, rfl⟩
    exact ⟨_, createOps_eq_ok.mpr ⟨hcheck, rfl⟩, hrest⟩

/-- The group of a process has the mirror images of the writes to it. -/
theorem addressed_perm (rank : Nat) (hsort : ∀ arr, SortedBy arr (qsort arr)) {g : List MpiOp}
    (hg : g ∈ receivers (sortedOps qsort once_now plan tags writes)) :
    (addressed rank g).Perm ((writes.zipIdx.filter fun x => x.1.rmt_mem.rank = groupRank g).map
      (mirror rank once_now plan tags)) := by
  have hsorted := sortedOps_sorted once_now plan tags writes hsort
  have hfilter := filter_flatten_groups (receivers_uniform _)
    (receivers_sorted hsorted.pairwise).1 hg
  have hperm := hsorted.1.filter fun op => op.rank = groupRank g
  rw [receivers_flatten] at hfilter
  rw [hfilter, List.filter_map] at hperm
  have hmap := hperm.map fun op => { op with rank := rank }
  rwa [List.map_map] at hmap

theorem mem_groupRank (hsort : ∀ arr, SortedBy arr (qsort arr)) {j : Nat} :
    j ∈ (receivers (sortedOps qsort once_now plan tags writes)).map groupRank ↔
      ∃ w ∈ writes, w.rmt_mem.rank = j := by
  have hsorted := sortedOps_sorted once_now plan tags writes hsort
  have hperm := hsorted.1
  rw [List.mem_map]
  constructor
  · rintro ⟨g, hg, rfl⟩
    obtain ⟨op, hop, hrank⟩ := (receivers_sorted hsorted.pairwise).2 g hg
    obtain ⟨x, hx, rfl⟩ := List.mem_map.mp (hperm.mem_iff.mp hop)
    exact ⟨x.1, List.fst_mem_of_mem_zipIdx hx, hrank.symm⟩
  · rintro ⟨w, hw, rfl⟩
    obtain ⟨i, hi, rfl⟩ := List.mem_iff_getElem.mp hw
    have hmem : planRecvOp once_now plan tags (writes[i], i) ∈
        (receivers (sortedOps qsort once_now plan tags writes)).flatten := by
      rw [receivers_flatten, hperm.mem_iff]
      exact List.mem_map.mpr ⟨_, List.mk_mem_zipIdx_iff_getElem?.mpr (by simp [hi]), rfl⟩
    obtain ⟨g, hg, hop⟩ := List.mem_flatten.mp hmem
    exact ⟨g, hg, ((receivers_uniform _ g hg).groupRank_eq _ hop).symm⟩

/-- What holds of the messages and the batches of a plan. -/
structure PlanMirrored (rank sizeofUriMpiOp plan : Nat) (once_now : Bool)
    (tags ids : Nat → Nat → Nat) (writes : List Write) (p : PlanCreated) : Prop where
  /-- Every receiver gets one message. -/
  ranks_nodup : (p.mpi_op.map CtrlSend.rank).Nodup
  ranks : ∀ j, j ∈ p.mpi_op.map CtrlSend.rank ↔ ∃ w ∈ writes, w.rmt_mem.rank = j
  /-- It has the mirror images of the writes to the receiver, and no others. -/
  batch : ∀ m ∈ p.mpi_op, ∃ b, m.batch = some b ∧
    b.ops.Perm ((writes.zipIdx.filter fun x => x.1.rmt_mem.rank = m.rank).map
      (mirror rank once_now plan tags)) ∧
    b.num_op = writes.countP (fun w => w.rmt_mem.rank = m.rank) ∧
    m.size = sizeofUriMpiCtrlMsg + sizeofUriMpiOpBatch + sizeofUriMpiOp * b.num_op
  /-- All of them together are the mirror images of all writes. -/
  ops : (p.mpi_op.flatMap fun m => m.batch.elim [] UriMpiOpBatch.ops).Perm
    (writes.zipIdx.map (mirror rank once_now plan tags))
  pairs : ∀ (i : Nat) (hi : i < writes.length), ∃ send_op, p.send_batch[i]? = some send_op ∧
    Mirrors rank writes[i] send_op (mirror rank once_now plan tags (writes[i], i))
  /-- The batch that is kept keeps the rank of the receiver. -/
  kept : p.recv_batch.length = p.mpi_op.length ∧ ∀ (i : Nat) (b : UriMpiOpBatch) (m : CtrlSend),
    p.recv_batch[i]? = some b → p.mpi_op[i]? = some m →
      (∀ op ∈ b.ops, op.rank = m.rank) ∧ m.batch = some { b with ops := addressed rank b.ops } ∧
      m.batch_id = b.batch_id ∧ (once_now = false → m.batch_id = ids m.rank i)
  /-- So the later messages go to the same process, with the id it has been
  told. -/
  start : p.start = .ok (p.mpi_op.map fun m =>
    ⟨m.rank, sizeofUriMpiCtrlMsg, .startOpBatch, m.batch_id, none⟩)
  destroy : p.destroy = .ok (p.mpi_op.map fun m =>
    ⟨m.rank, sizeofUriMpiCtrlMsg, .destroyOpBatch, m.batch_id, none⟩)

theorem batchMessage_eq (type : CtrlType) {g : List MpiOp} (huniform : Uniform g) (i : Nat) :
    batchMessage type (keptBatch once_now ids i g) =
      .ok ⟨groupRank g, sizeofUriMpiCtrlMsg, type,
        (keptBatch once_now ids i g).batch_id, none⟩ := by
  obtain ⟨op, rest, rfl, -⟩ := huniform
  rfl

theorem batchMessages_eq (type : CtrlType) :
    (createdPlan rank sizeofUriMpiOp plan once_now tags ids qsort writes).recv_batch.mapM
        (batchMessage type) =
      .ok ((createdPlan rank sizeofUriMpiOp plan once_now tags ids qsort writes).mpi_op.map fun m =>
        ⟨m.rank, sizeofUriMpiCtrlMsg, type, m.batch_id, none⟩) := by
  rw [createdPlan, List.mapM_map, List.map_map]
  refine mapM_ok fun x hx => ?_
  exact batchMessage_eq type (receivers_uniform _ _ (List.fst_mem_of_mem_zipIdx hx)) x.2

theorem createdPlan_mirrored (hsort : ∀ arr, SortedBy arr (qsort arr)) :
    PlanMirrored rank sizeofUriMpiOp plan once_now tags ids writes
      (createdPlan rank sizeofUriMpiOp plan once_now tags ids qsort writes) := by
  have hsorted := sortedOps_sorted once_now plan tags writes hsort
  -- one message for each group of the sorted array, in its order
  have hranks : (createdPlan rank sizeofUriMpiOp plan once_now tags ids qsort writes).mpi_op.map
      CtrlSend.rank =
      (receivers (sortedOps qsort once_now plan tags writes)).map groupRank := by
    conv_rhs => rw [← List.zipIdx_map_fst 0 (receivers _), List.map_map]
    rw [createdPlan, List.map_map]
    rfl
  constructor
  case ranks_nodup =>
    rw [hranks]
    exact (receivers_sorted hsorted.pairwise).1.imp Nat.ne_of_lt
  case ranks =>
    intro j
    rw [hranks]
    exact mem_groupRank hsort
  case batch =>
    intro m hm
    obtain ⟨x, hx, rfl⟩ := List.mem_map.mp hm
    have hperm := addressed_perm rank hsort (List.fst_mem_of_mem_zipIdx hx)
    refine ⟨_, rfl, hperm, ?_, rfl⟩
    have hlen := hperm.length_eq
    rw [addressed, List.length_map, List.length_map, ← List.countP_eq_length_filter] at hlen
    rw [← List.zipIdx_map_fst 0 writes, List.countP_map]
    exact hlen
  case ops =>
    -- the groups make up the sorted array
    have hflat :
        (createdPlan rank sizeofUriMpiOp plan once_now tags ids qsort writes).mpi_op.flatMap
        (fun m => m.batch.elim [] UriMpiOpBatch.ops) =
        addressed rank (sortedOps qsort once_now plan tags writes) := by
      rw [createdPlan, List.flatMap_map]
      conv_rhs => rw [← receivers_flatten (sortedOps qsort once_now plan tags writes), addressed,
        List.map_flatten, ← List.zipIdx_map_fst 0 (receivers _), List.map_map]
      rfl
    rw [hflat]
    have hmap := hsorted.1.map fun op => { op with rank := rank }
    rwa [List.map_map] at hmap
  case pairs =>
    intro i hi
    refine ⟨planSendOp once_now plan tags (writes[i], i), ?_, mirrors_mirror (writes[i], i)⟩
    simp [createdPlan, hi]
  case kept =>
    refine ⟨by simp [createdPlan], fun i b m hb hm => ?_⟩
    rw [createdPlan, List.getElem?_map, List.getElem?_zipIdx] at hb hm
    obtain ⟨x, hx, rfl⟩ := Option.map_eq_some_iff.mp hb
    obtain ⟨g, hg, rfl⟩ := Option.map_eq_some_iff.mp hx
    rw [hg] at hm
    cases hm
    refine ⟨(receivers_uniform _ g (List.mem_of_getElem? hg)).groupRank_eq, rfl, rfl, ?_⟩
    intro honce
    simp [groupMessage, keptBatch, honce]
  case start => exact batchMessages_eq .startOpBatch
  case destroy => exact batchMessages_eq .destroyOpBatch

/-- For every list of writes: the call returns if they are accepted, with all
its accesses inside the arrays, and what it returns mirrors the writes. -/
theorem plan_mirrored (hne : writes ≠ []) (hsort : ∀ arr, SortedBy arr (qsort arr)) :
    ((∀ w ∈ writes, w.check size rank = .ok ()) → ∃ p,
      uriMpiRdmaPlanCreate size rank once_now plan tags sizeofUriMpiOp ids qsort writes = .ok p) ∧
    ∀ p, uriMpiRdmaPlanCreate size rank once_now plan tags sizeofUriMpiOp ids qsort writes = .ok p →
      PlanMirrored rank sizeofUriMpiOp plan once_now tags ids writes p := by
  refine ⟨fun hcheck => ⟨_, (uriMpiRdmaPlanCreate_eq_ok hne hsort).mpr ⟨hcheck, rfl⟩⟩,
    fun p hp => ?_⟩
  obtain ⟨-, rfl⟩ := (uriMpiRdmaPlanCreate_eq_ok hne hsort).mp hp
  exact createdPlan_mirrored hsort

end Plan

/-! ### The turns of a running call

In a run of the channel the call takes one step for every turn of a loop, with
the steps of the daemon and of the other processes in between. -/

section Turns

variable {size rank plan : Nat} {once_now : Bool} {proc proc' : Proc} {mpi_op : List Entry}

def CtrlSend.msg (plan start : Nat) (m : CtrlSend) : CtrlMsg :=
  match m.type with
  | .executeOpBatch => .executeOpBatch ⟨plan, m.batch.elim [] UriMpiOpBatch.ops⟩
  | .createOpBatch => .createOpBatch m.batch_id.toNat ⟨plan, m.batch.elim [] UriMpiOpBatch.ops⟩
  | .startOpBatch => .startOpBatch m.batch_id.toNat plan start
  | .destroyOpBatch => .destroyOpBatch m.batch_id.toNat plan

/-- The turn for a group sends the message of the group, and keeps its batch. -/
theorem announce_sends {send_ops group : List MpiOp} {groups : List (List MpiOp)}
    {recv_batch : List RecvBatch} (sizeofUriMpiOp i start : Nat)
    (h : proc.announce size rank once_now plan send_ops (groupRank group) group groups recv_batch
      mpi_op = .ok proc') :
    ∃ id, let m := groupMessage rank sizeofUriMpiOp once_now (fun _ _ => id) i group
      proc'.ctrl_sent = (proc.send m.rank (m.msg plan start)).ctrl_sent ∧
        proc'.user = .announcing once_now plan send_ops groups
          (if once_now then recv_batch else recv_batch ++ [⟨id, group⟩])
          (mpi_op ++ [ctrlEntry m.rank]) := by
  cases once_now with
  | true =>
      cases h
      exact ⟨0, rfl, rfl⟩
  | false =>
      obtain ⟨⟨id, pool⟩, -, h⟩ := bind_eq_ok.mp h
      cases h
      exact ⟨id, rfl, rfl⟩

theorem startBatch_sends {p : Plan} {start : Nat} {b : RecvBatch} {batches : List RecvBatch}
    {ops : List MpiOp} (huniform : Uniform b.ops) :
    ∃ m, batchMessage .startOpBatch ⟨b.ops.length, b.batch_id, b.ops⟩ = .ok m ∧
      (proc.startBatch p start b batches ops mpi_op).ctrl_sent =
        (proc.send m.rank (m.msg p.plan start)).ctrl_sent := by
  obtain ⟨id, ops⟩ := b
  obtain ⟨op, rest, rfl, -⟩ := huniform
  exact ⟨_, rfl, rfl⟩

theorem destroyBatch_sends {p : Plan} {start : Nat} {b : RecvBatch} {batches : List RecvBatch}
    (huniform : Uniform b.ops)
    (h : proc.destroyBatch size rank p b batches mpi_op = .ok proc') :
    ∃ m, batchMessage .destroyOpBatch ⟨b.ops.length, b.batch_id, b.ops⟩ = .ok m ∧
      proc'.ctrl_sent = (proc.send m.rank (m.msg p.plan start)).ctrl_sent := by
  obtain ⟨pool, -, h⟩ := bind_eq_ok.mp h
  cases h
  obtain ⟨id, ops⟩ := b
  obtain ⟨op, rest, rfl, -⟩ := huniform
  exact ⟨_, rfl, rfl⟩

/-- The turn for a write makes the two operations of the write. -/
theorem createWrite_ops {w : Write} {rest : List Write} {tag : Nat}
    {send_ops recv_ops : List MpiOp} :
    ∃ mpi_op', (proc.createWrite rank once_now plan w rest tag send_ops recv_ops mpi_op).user =
      .creating once_now plan rest none
        (send_ops ++ [planSendOp once_now plan (fun _ _ => tag) (w, send_ops.length)])
        (recv_ops ++ [planRecvOp once_now plan (fun _ _ => tag) (w, send_ops.length)]) mpi_op' := by
  cases once_now
  · exact ⟨_, rfl⟩
  · exact ⟨_, rfl⟩

end Turns

/-! ### An example -/

/-- Three writes to two processes, one of them the initiator itself. -/
def threeWrites : List Write :=
  [⟨.dmaPut, ⟨64, 16, 0⟩, 0, some 1, -1, 8, ⟨128, 16, 1⟩, 8, none, 0⟩,
    ⟨.dmaGet, ⟨64, 16, 0⟩, 8, none, 0, 8, ⟨64, 16, 0⟩, 0, some 2, -1⟩,
    ⟨.dmaGet, ⟨64, 16, 0⟩, 0, none, 0, 16, ⟨128, 16, 1⟩, 0, none, 0⟩]

def sortByRank (arr : List MpiOp) : List MpiOp :=
  arr.insertionSort fun op1 op2 => op1.rank ≤ op2.rank

theorem sortedBy_sortByRank (arr : List MpiOp) : SortedBy arr (sortByRank arr) := by
  have _ : IsTrans MpiOp fun op1 op2 => op1.rank ≤ op2.rank := ⟨fun _ _ _ => Nat.le_trans⟩
  have _ : Std.Total fun op1 op2 : MpiOp => op1.rank ≤ op2.rank :=
    ⟨fun op1 op2 => Nat.le_total op1.rank op2.rank⟩
  refine ⟨List.perm_insertionSort _ arr, (List.pairwise_insertionSort _ arr).imp fun hle => ?_⟩
  unfold uriMpiOpCmp
  omega

theorem plan_mirrored_threeWrites : ∃ p,
    uriMpiRdmaPlanCreate 2 0 false 5 (fun _ i => 2 * i) 56 (fun _ i => i) sortByRank threeWrites =
      .ok p ∧
    PlanMirrored 0 56 5 false (fun _ i => 2 * i) (fun _ i => i) threeWrites p ∧
    p.mpi_op.map (fun m => (m.rank, m.size, m.batch_id)) = [(0, 80, 0), (1, 136, 1)] := by
  have hne : threeWrites ≠ [] := by decide
  have hall := @plan_mirrored 2 0 5 56 false (fun _ i => 2 * i) (fun _ i => i) sortByRank
    threeWrites hne sortedBy_sortByRank
  obtain ⟨p, hp⟩ := hall.1 (by decide)
  refine ⟨p, hp, hall.2 p hp, ?_⟩
  rw [((uriMpiRdmaPlanCreate_eq_ok hne sortedBy_sortByRank).mp hp).2]
  rfl

end Unr.Mpi
