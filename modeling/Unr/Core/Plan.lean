import Unr.Core.Split

/-!
`unr_rdma_plan_create`: a list of sends becomes one list of sub-writes for
every channel of the process.

The arrays of the caller are functions on `Fin num_sends`; a null pointer is
`none`. The arrays that the function allocates for itself are lists, and an
access outside one of them, or to an entry that was never written, is
undefined.
-/

namespace Unr.Core

open Unr.Uru

structure UruMpi where
  rank : Int
  size : Nat
  same_node : List Bool
  same_node_length : same_node.length = size

/-- `unr_blk_t`. A flag pointer is the number of the flag it points to. -/
structure UnrBlk where
  dst_rank : Int
  mem_idx : Int
  offset : Nat
  size : Nat
  send_flag_p : Option Nat
  recv_flag_p : Option Nat
  deriving Repr, DecidableEq

structure UnrSig where
  dst_rank : Int
  flag_p : Option Nat
  deriving Repr, DecidableEq

def unrNoSignalDstRank : Int := -2

/-- `dma_type_arr`: one of the two reserved pointers, or an array. -/
inductive DmaTypeArr (n : Nat)
  | dmaPutAll
  | dmaGetAll
  | each (types : Fin n → UruTransfer)

/-- `unr_plan_create_para_t`, the arguments of a plan that describe its
sends. -/
structure PlanPara where
  once_now : Bool
  num_sends : Nat
  loc_blk_arr : Fin num_sends → UnrBlk
  loc_sig_arr : Option (Fin num_sends → UnrSig)
  loc_offset_arr : Option (Fin num_sends → Nat)
  size_arr : Option (Fin num_sends → Nat)
  rmt_blk_arr : Fin num_sends → UnrBlk
  rmt_sig_arr : Option (Fin num_sends → UnrSig)
  rmt_offset_arr : Option (Fin num_sends → Nat)
  dma_type_arr : DmaTypeArr num_sends

/-- `uri_mem_h`: the place of a channel's handle behind a descriptor. -/
structure UriMem where
  unr_mem : UnrMem
  offset : Nat
  deriving Repr, DecidableEq

/-- One entry of the arrays that describe the sub-writes of a channel. -/
structure SubWrite where
  part_dma_type : UruTransfer
  loc_uri_mem : UriMem
  loc_uri_offset : Nat
  loc_flag_p : Option Nat
  loc_flag_add : BitVec 64
  part_size : Nat
  rmt_uri_mem : UriMem
  rmt_uri_offset : Nat
  rmt_flag_p : Option Nat
  rmt_flag_add : BitVec 64
  deriving Repr, DecidableEq

/-- One call of `uri_rdma_plan_create`. -/
structure UriPlanCreate where
  id : Nat
  uri_channel : Nat
  once_now : Bool
  wrts : List SubWrite
  deriving Repr, DecidableEq

/-- What the call leaves behind `unr_plan_pp`: a plan of status 1 with its
parameters, or one of status 2. -/
inductive UnrPlan
  | delayed (para : PlanPara)
  | created (uri_plans : List UriPlanCreate)

namespace PlanPara

/-- `size_arr[i]` once a missing array has been filled in. -/
def size (a : PlanPara) (i : Fin a.num_sends) : Nat :=
  match a.size_arr with
  | some sizes => sizes i
  | none => (a.loc_blk_arr i).size

/-- `dma_type_arr[i]` once a reserved pointer has been expanded. -/
def dma_type (a : PlanPara) (i : Fin a.num_sends) : UruTransfer :=
  match a.dma_type_arr with
  | .dmaPutAll => .dmaPut
  | .dmaGetAll => .dmaGet
  | .each types => types i

/-- Where send `i` starts in a block: the offset of the block, plus the entry
of the offset array if there is one. -/
def start (blk : UnrBlk) (offset_arr : Option (Fin n → Nat)) (i : Fin n) : Nat :=
  match offset_arr with
  | some offsets => wrap64 (blk.offset + offsets i)
  | none => blk.offset

end PlanPara

/-- The flag one side of a send updates: that of its signal, unless it has
none, or else the one registered with the block for the direction. -/
def flagOf (sig_arr : Option (Fin n → UnrSig)) (i : Fin n) (dst_rank : Int)
    (blk_flag_p : Option Nat) : Prog (Option Nat) :=
  match sig_arr with
  | some sigs =>
      if (sigs i).dst_rank ≠ unrNoSignalDstRank then do
        uruAssert ((sigs i).dst_rank = dst_rank)
        return (sigs i).flag_p
      else .ok blk_flag_p
  | none => .ok blk_flag_p

/-- The columns of `unr_channels` for a rank on the same node, or not. -/
def UnrChannels.group (ch : UnrChannels) (same_node : Bool) : ChannelGroup :=
  if same_node then ch.intra else ch.inter

/-- `num_uri_plan`, a `uint8_t`. -/
def UnrChannels.numUriPlan (ch : UnrChannels) : Nat := (ch.inter.num + ch.intra.num) % 256

/-- The index of a channel of a group among all the channels of a plan. -/
def UnrChannels.planId (ch : UnrChannels) (same_node : Bool) (j : Nat) : Nat :=
  if same_node then j + ch.inter.num else j

def UnrChannels.planChannel (ch : UnrChannels) (id : Nat) : Nat :=
  if id < ch.inter.num then ch.inter.channels.getD id 0
  else ch.intra.channels.getD (id - ch.inter.num) 0

/-- The variables that live across the sends. A slot is `none` until it is
written. -/
structure PlanState where
  div_plan_wrt_size : List Nat
  div_plan_wrt_offset : List Nat
  next_inter_channel_id : Nat
  next_intra_channel_id : Nat
  uri_plan_num_wrts : List Nat
  slots : List (List (Option SubWrite))
  deriving Repr, DecidableEq

def PlanState.nextChannelId (s : PlanState) (same_node : Bool) : Nat :=
  if same_node then s.next_intra_channel_id else s.next_inter_channel_id

def PlanState.setNextChannelId (s : PlanState) (same_node : Bool) (cursor : Nat) : PlanState :=
  if same_node then { s with next_intra_channel_id := cursor }
  else { s with next_inter_channel_id := cursor }

/-- The entry `k = uri_plan_num_wrts[id]++` of column `id` is written. -/
def PlanState.push (s : PlanState) (id : Nat) (w : SubWrite) : Prog PlanState := do
  let k ← fetch s.uri_plan_num_wrts id
  let column ← fetch s.slots id
  if ¬ k < column.length then
    throw .undefined
  return { s with
    uri_plan_num_wrts := s.uri_plan_num_wrts.set id (k + 1)
    slots := s.slots.set id (column.set k (some w)) }

section

variable (mpi : UruMpi) (ch : UnrChannels) (a : PlanPara)

/-- The turn of the last inner loop for channel `j` of the group of send
`i`. -/
def planPart (same_node : Bool) (loc_unr_mem rmt_unr_mem : UnrMem)
    (sig_add_arr : List (BitVec 64)) (i : Fin a.num_sends) (s : PlanState) (j : Nat) :
    Prog PlanState := do
  let share := s.div_plan_wrt_size.getD j 0
  if share = 0 then
    return s
  let uri_mem_offset ← fetch (ch.group same_node).uri_mem_h_offset j
  let displacement := s.div_plan_wrt_offset.getD j 0
  let loc := a.loc_blk_arr i
  let rmt := a.rmt_blk_arr i
  let put := a.dma_type i = .dmaPut
  let loc_flag_p ← flagOf a.loc_sig_arr i mpi.rank
    (if put then loc.send_flag_p else loc.recv_flag_p)
  let rmt_flag_p ← flagOf a.rmt_sig_arr i rmt.dst_rank
    (if put then rmt.recv_flag_p else rmt.send_flag_p)
  s.push (ch.planId same_node j) {
    part_dma_type := a.dma_type i
    loc_uri_mem := ⟨loc_unr_mem, uri_mem_offset⟩
    loc_uri_offset := wrap64 (PlanPara.start loc a.loc_offset_arr i + displacement)
    loc_flag_p := loc_flag_p
    loc_flag_add := sig_add_arr.getD j 0
    part_size := share
    rmt_uri_mem := ⟨rmt_unr_mem, uri_mem_offset⟩
    rmt_uri_offset := wrap64 (PlanPara.start rmt a.rmt_offset_arr i + displacement)
    rmt_flag_p := rmt_flag_p
    rmt_flag_add := sig_add_arr.getD j 0 }

/-- The turn of the outer loop for send `i`. -/
def planSend (s : PlanState) (i : Fin a.num_sends) : Prog PlanState := do
  if a.size i = 0 then
    return s
  let loc := a.loc_blk_arr i
  let rmt := a.rmt_blk_arr i
  uruAssert (loc.dst_rank = mpi.rank)
  uruAssert (rmt.dst_rank < mpi.size)
  uruAssert (loc.mem_idx < ch.loc_mem_arr.length)
  let rmt_mem_arr ← fetchAt ch.rmt_mem_arr rmt.dst_rank
  if rmt.mem_idx ≥ rmt_mem_arr.length then
    throw (.exit .errorExit)
  let same_node ← fetchAt mpi.same_node rmt.dst_rank
  let g := ch.group same_node
  let (div_plan_wrt_size, cursor) ←
    divPlanWrtSize g (a.size i) (s.nextChannelId same_node) s.div_plan_wrt_size
  let s := { s.setNextChannelId same_node cursor with
    div_plan_wrt_size := div_plan_wrt_size
    div_plan_wrt_offset := divPlanWrtOffset g.num div_plan_wrt_size s.div_plan_wrt_offset }
  let sig_add_arr := sigAddArr ch.numUriPlan g.num div_plan_wrt_size
  let loc_unr_mem ← fetchAt ch.loc_mem_arr loc.mem_idx
  let rmt_unr_mem ← fetchAt rmt_mem_arr rmt.mem_idx
  (List.range g.num).foldlM
    (planPart mpi ch a same_node loc_unr_mem rmt_unr_mem sig_add_arr i) s

def planStart : PlanState where
  div_plan_wrt_size := List.replicate ch.numUriPlan 0
  div_plan_wrt_offset := List.replicate ch.numUriPlan 0
  next_inter_channel_id := 0
  next_intra_channel_id := 0
  uri_plan_num_wrts := List.replicate ch.numUriPlan 0
  slots := List.replicate ch.numUriPlan (List.replicate a.num_sends none)

def readSlot (column : List (Option SubWrite)) (k : Nat) : Prog SubWrite :=
  match column[k]? with
  | some (some w) => .ok w
  | _ => .error .undefined

/-- The arguments of `uri_rdma_plan_create` for channel `id` of the plan: the
first `uri_plan_num_wrts[id]` entries of its column. -/
def planHand (s : PlanState) (id : Nat) : Prog UriPlanCreate := do
  let column ← fetch s.slots id
  let num_wrts ← fetch s.uri_plan_num_wrts id
  let wrts ← (List.range num_wrts).mapM (readSlot column)
  return { id := id, uri_channel := ch.planChannel id, once_now := a.once_now, wrts := wrts }

/-- `unr_rdma_plan_create` from `status = 2` to the last call of
`uri_rdma_plan_create`. The loops over the sends count with an `int`. -/
def planNow : Prog (List UriPlanCreate) := do
  uruAssert (0 < a.num_sends)
  if 2 ^ 31 ≤ a.num_sends then
    throw .undefined
  if a.size_arr.isNone then
    uruAssert (∀ i, (a.loc_blk_arr i).size = (a.rmt_blk_arr i).size)
  let s ← (List.finRange a.num_sends).foldlM (planSend mpi ch a) (planStart ch a)
  let used := (List.range ch.numUriPlan).filter fun id => s.uri_plan_num_wrts.getD id 0 ≠ 0
  used.mapM (planHand ch a s)

/-- Whether the remote descriptors of all sends are known. -/
def memSynced : Prog Bool :=
  (List.finRange a.num_sends).foldlM
    (fun synced i =>
      if synced then do
        let rmt_mem_arr ← fetchAt ch.rmt_mem_arr (a.rmt_blk_arr i).dst_rank
        return (a.rmt_blk_arr i).mem_idx < rmt_mem_arr.length
      else .ok false) true

/-- `unr_rdma_plan_create`. With `create_later` the sends are those saved in
the plan. With `once_now` the source reads the field `para` of the plan after it
has freed the plan; the function ends here when the sends are handed over. -/
def unrRdmaPlanCreate (create_later : Option PlanPara) : Prog UnrPlan :=
  match create_later with
  | some para => do
      let uri_plans ← planNow mpi ch para
      return .created uri_plans
  | none => do
      let mem_synced ← memSynced ch a
      if mem_synced then
        let uri_plans ← planNow mpi ch a
        return .created uri_plans
      else
        if a.once_now then
          throw (.exit .errorExit)
        uruAssert (0 < a.num_sends)
        return .delayed a

end

end Unr.Core
