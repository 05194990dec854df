import Unr.Mpi.Commands

/-!
What a process keeps true of the plans it has created itself.

All of it can be read off the process alone, because the messages it has sent
are part of its state. The tags of every transfer that may still return one
are different, so are the ids of its batches; replaying its messages gives
exactly the batches it counts as registered; and for every process, tag and
direction the writes it has posted itself come in the same order as the writes
its messages announce.
-/

namespace Unr.Mpi

open Unr.Uru Unr.Logic

/-- An operation that does not return its tag. -/
def MpiOp.TagFree (op : MpiOp) : Prop := hasBit op.flag freeTag = false

def releasing (es : List Entry) : List (Nat × Nat) :=
  (es.filter fun e => hasBit e.op.flag freeTag).map fun e => e.op.pair

@[simp] theorem releasing_nil : releasing [] = [] := rfl

@[simp] theorem releasing_append (es es' : List Entry) :
    releasing (es ++ es') = releasing es ++ releasing es' := by
  simp [releasing]

theorem releasing_eq_nil {es : List Entry} (h : ∀ e ∈ es, e.op.TagFree) : releasing es = [] := by
  have hnone : es.filter (fun e => hasBit e.op.flag freeTag) = [] :=
    List.filter_eq_nil_iff.mpr fun e he => by
      rw [show hasBit e.op.flag freeTag = false from h e he]
      decide
  rw [releasing, hnone, List.map_nil]

@[simp] theorem releasing_ctrlEntry (dst_rank : Nat) : releasing [ctrlEntry dst_rank] = [] :=
  releasing_eq_nil fun e he => by
    rw [List.mem_singleton.mp he]
    exact show hasBit (freeOp ||| freeAddr) freeTag = false by decide

/-! ### Numbers drawn from the pools of the targets -/

/-- The pools of a process, with the pairs of a target and a number in use. -/
def PoolsOk (size rank : Nat) (pools : Nat → IntPool) (held : List (Nat × Nat)) : Prop :=
  ∀ j, (pools j).Ok size rank (tagsTo j held)

section Pools

variable {size rank dst num : Nat} {pools : Nat → IntPool} {pool : IntPool}
  {held held' : List (Nat × Nat)}

theorem PoolsOk.perm (h : PoolsOk size rank pools held) (hperm : held.Perm held') :
    PoolsOk size rank pools held' :=
  fun j => (h j).perm (tagsTo_perm hperm)

theorem PoolsOk.get (h : PoolsOk size rank pools held) (hsize : 0 < size)
    (hget : (pools dst).get size rank = .ok (num, pool)) :
    PoolsOk size rank (Function.update pools dst pool) ((dst, num) :: held) := by
  intro j
  by_cases hj : j = dst
  · subst hj
    rw [Function.update_self, tagsTo_cons, if_pos rfl]
    exact (h j).get hsize hget
  · rw [Function.update_of_ne hj, tagsTo_cons, if_neg (Ne.symm hj)]
    exact h j

theorem PoolsOk.put (h : PoolsOk size rank pools ((dst, num) :: held)) (hsize : 0 < size)
    (hput : (pools dst).put size rank num = .ok pool) :
    PoolsOk size rank (Function.update pools dst pool) held := by
  intro j
  have hj := h j
  rw [tagsTo_cons] at hj
  by_cases hdst : j = dst
  · subst hdst
    rw [if_pos rfl] at hj
    rw [Function.update_self]
    exact hj.put hsize hput
  · rw [if_neg (Ne.symm hdst)] at hj
    rwa [Function.update_of_ne hdst]

theorem PoolsOk.mod_eq (h : PoolsOk size rank pools held) (hrank : rank < size)
    (hmem : (dst, num) ∈ held) : num % size = rank :=
  (h dst).mod_eq hrank (List.mem_filterMap.mpr ⟨_, hmem, if_pos rfl⟩)

theorem PoolsOk.nodup (h : PoolsOk size rank pools held) (j : Nat) : (tagsTo j held).Nodup :=
  (h j).held_nodup

end Pools

def drawnPair (rest : List Write) (tag : Option Nat) : List (Nat × Nat) :=
  match rest, tag with
  | w :: _, some tag => [(w.rmt_mem.rank, tag)]
  | _, _ => []

@[simp] theorem drawnPair_none (rest : List Write) : drawnPair rest none = [] := by
  cases rest <;> rfl

namespace UserPhase

def tagPairs : UserPhase → List (Nat × Nat)
  | creating once_now _ rest tag send_ops _ mpi_op =>
      drawnPair rest tag ++
        if once_now then releasing mpi_op else send_ops.map MpiOp.pair
  | announcing once_now _ send_ops _ _ mpi_op =>
      if once_now then releasing mpi_op else send_ops.map MpiOp.pair
  | destroying _ ops _ _ => ops.map MpiOp.pair
  | _ => []

/-- The writes a running call has announced and not yet posted itself. -/
def pendingOwn (rank j t : Nat) (ty : OpType) : UserPhase → List WriteId
  | starting _ start _ ops _ => selected rank start j t ty (ops.map MpiOp.key)
  | _ => []

/-- The writes a running call has still to announce. -/
def pendingPeer (rank j t : Nat) (ty : OpType) : UserPhase → List WriteId
  | creating true _ _ _ _ recv_ops _ =>
      selected rank 0 j t ty.flip (recv_ops.map MpiOp.key)
  | announcing true _ _ groups _ _ =>
      selected rank 0 j t ty.flip (groups.flatten.map MpiOp.key)
  | starting _ start batches _ _ =>
      selected rank start j t ty.flip ((batches.flatMap (·.ops)).map MpiOp.key)
  | _ => []

end UserPhase

def DaemonPhase.entries : DaemonPhase → List Entry
  | drain => []
  | posting _ _ _ mpi_op => mpi_op
  | effects rest => rest

def DaemonPhase.ops : DaemonPhase → List MpiOp
  | posting _ _ rest _ => rest
  | _ => []

def Proc.heldPairs (proc : Proc) : List (Nat × Nat) :=
  proc.user.tagPairs ++ proc.plans.flatMap (fun p => p.send_batch.map MpiOp.pair) ++
    releasing proc.queue ++ releasing proc.daemon.entries

/-- The batches that a running call has created or has still to destroy, each
with the number of its plan. -/
def UserPhase.batches : UserPhase → List (Nat × RecvBatch)
  | announcing _ plan _ _ recv_batch _ => recv_batch.map (plan, ·)
  | destroying p _ batches _ => batches.map (p.plan, ·)
  | _ => []

def Proc.batches (proc : Proc) : List (Nat × RecvBatch) :=
  proc.user.batches ++ proc.plans.flatMap fun p => p.recv_batch.map (p.plan, ·)

def idPair (x : Nat × RecvBatch) : Nat × Nat := (x.2.dst_rank, x.2.batch_id)

def kept (rank : Nat) (x : Nat × RecvBatch) : OpBatch := ⟨x.1, addressed rank x.2.ops⟩

/-- Table `V` of process `j` holds exactly the batches of `xs` for it. -/
def ViewOk (rank j : Nat) (V : BatchMap) (xs : List (Nat × RecvBatch)) : Prop :=
  ∀ id batch, V id = some batch ↔ ∃ x ∈ xs, idPair x = (j, id) ∧ kept rank x = batch

def CtrlMsg.batch : CtrlMsg → Option OpBatch
  | createOpBatch _ batch | executeOpBatch batch => some batch
  | _ => none

structure MpiOp.From (size rank plan : Nat) (op : MpiOp) : Prop where
  tagFree : op.TagFree
  rank_eq : op.rank = rank
  tag_mod : op.tag % size = rank
  plan_eq : op.plan = plan

def OpBatch.From (size rank : Nat) (batch : OpBatch) : Prop :=
  ∀ op ∈ batch.ops, op.From size rank batch.plan

/-! ### The phases of a call -/

structure MpiOp.OfPlan (size rank plan : Nat) (op : MpiOp) : Prop where
  plan_eq : op.plan = plan
  tag_mod : op.tag % size = rank

/-- A finished plan: the operations of the two sides are the same writes. -/
structure Plan.Ok (size rank : Nat) (p : Plan) : Prop where
  balanced : ∀ start j t ty, selected rank start j t ty (p.send_batch.map MpiOp.key) =
    selected rank start j t ty.flip ((p.recv_batch.flatMap (·.ops)).map MpiOp.key)
  uniform : ∀ b ∈ p.recv_batch, Uniform b.ops
  own_ops : ∀ op ∈ p.send_batch, op.OfPlan size rank p.plan ∧ op.TagFree
  peer_ops : ∀ op ∈ p.recv_batch.flatMap (·.ops), op.OfPlan size rank p.plan ∧ op.TagFree
  own_nodup : (p.send_batch.map (·.index)).Nodup
  peer_nodup : ((p.recv_batch.flatMap (·.ops)).map (·.index)).Nodup

/-- While the writes are collected, the operations for the receivers mirror
those of the process itself. -/
structure CreatingOk (size rank : Nat) (once_now : Bool) (plan : Nat)
    (send_ops recv_ops : List MpiOp) (mpi_op : List Entry) : Prop where
  mirror : recv_ops.map MpiOp.key = (send_ops.map MpiOp.key).map Key.flip
  tagFree : ∀ op ∈ recv_ops, op.TagFree
  ofPlan : ∀ op ∈ send_ops, op.OfPlan size rank plan
  index : send_ops.map (·.index) = List.range send_ops.length
  once : once_now = true → mpi_op.map (fun e => e.op.key) = send_ops.map MpiOp.key ∧
    ∀ e ∈ mpi_op, hasBit e.op.flag freeTag = true
  keep : once_now = false → mpi_op = [] ∧ ∀ op ∈ send_ops, op.TagFree

/-- While the receivers are told, the batches made so far and the groups still
to come are the operations collected before. -/
structure AnnouncingOk (size rank : Nat) (once_now : Bool) (plan : Nat) (send_ops : List MpiOp)
    (groups : List (List MpiOp)) (recv_batch : List RecvBatch) (mpi_op : List Entry) :
    Prop where
  groups_uniform : ∀ g ∈ groups, Uniform g
  batches_uniform : ∀ b ∈ recv_batch, Uniform b.ops
  peer_ops : ∀ op ∈ recv_batch.flatMap (·.ops) ++ groups.flatten,
    op.OfPlan size rank plan ∧ op.TagFree
  peer_nodup : ((recv_batch.flatMap (·.ops) ++ groups.flatten).map (·.index)).Nodup
  own_ops : ∀ op ∈ send_ops, op.OfPlan size rank plan
  own_nodup : (send_ops.map (·.index)).Nodup
  once : once_now = true → recv_batch = []
  keep : once_now = false → releasing mpi_op = [] ∧ (∀ op ∈ send_ops, op.TagFree) ∧
    ∀ start j t ty, selected rank start j t ty (send_ops.map MpiOp.key) =
      selected rank start j t ty.flip
        ((recv_batch.flatMap (·.ops) ++ groups.flatten).map MpiOp.key)

def UserPhase.Ok (size rank : Nat) (plans : List Plan) : UserPhase → Prop
  | creating once_now plan _ _ send_ops recv_ops mpi_op =>
      CreatingOk size rank once_now plan send_ops recv_ops mpi_op
  | announcing once_now plan send_ops groups recv_batch mpi_op =>
      AnnouncingOk size rank once_now plan send_ops groups recv_batch mpi_op
  | starting p _ batches ops mpi_op =>
      p ∈ plans ∧ batches <:+ p.recv_batch ∧ ops <:+ p.send_batch ∧ releasing mpi_op = []
  | destroying p ops batches mpi_op =>
      p.Ok size rank ∧ batches <:+ p.recv_batch ∧ ops <:+ p.send_batch ∧ releasing mpi_op = []
  | _ => True

/-- The invariant of a process about its own plans. -/
structure Proc.Ini (size rank : Nat) (proc : Proc) : Prop where
  /-- Tags in use are different and carry the rank. -/
  tags : PoolsOk size rank proc.mpi_tag proc.heldPairs
  /-- So are the ids of batches. -/
  ids : PoolsOk size rank proc.batch_id (proc.batches.map idPair)
  /-- A receiver that has caught up has the batches that exist. -/
  view : ∀ j, ViewOk rank j ((batchHandler rank).final emptyMap (proc.ctrl_sent j)) proc.batches
  /-- Every message is meant for the table it will find. -/
  valid : ∀ j, (batchHandler rank).Valid emptyMap (proc.ctrl_sent j)
  /-- Own and announced writes come in the same order. -/
  aligned : ∀ j t ty,
    ownWrites j t ty proc.log ++ proc.user.pendingOwn rank j t ty =
      announcedWrites t ty ((batchHandler rank).outputs emptyMap (proc.ctrl_sent j)) ++
        proc.user.pendingPeer rank j t ty
  sent : ∀ j, ∀ msg ∈ proc.ctrl_sent j, ∀ batch ∈ msg.batch, batch.From size rank
  own : ∀ x ∈ proc.log, x.own = true → x.write.initiator = rank ∧ x.tag % size = rank
  plans : ∀ p ∈ proc.plans, p.Ok size rank
  user : proc.user.Ok size rank proc.plans

end Unr.Mpi
