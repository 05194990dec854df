import Unr.Mpi.OpData
import Unr.Mpi.PlanMessages

/-!
The transfers that a plan of `uri_mpi_rdma_plan_create` stands for.

For every write there are two operations, one that the initiator keeps and one
that it sends to the target. One of them sends the data and one receives them;
which is which has been decided by the initiator. A transfer is written down
here as the end of the sender and the end of the receiver, so that it cannot be
seen any more who has asked for it.
-/

namespace Unr.Mpi

open Unr.Uru Unr.Logic

/-- One end of a transfer: the process that posts an operation, and what the
operation transfers. -/
structure TransferEnd where
  process : Nat
  op : OpData
  deriving Repr, DecidableEq

/-- The end of the sender and that of the receiver. -/
def inOrder (own_end peer_end : TransferEnd) : TransferEnd × TransferEnd :=
  if own_end.op.op_type = .opSend then (own_end, peer_end) else (peer_end, own_end)

namespace PlanCreated

/-- The operations in the messages, with the process that each is sent to. -/
def targetOps (p : PlanCreated) : List (Nat × MpiOp) :=
  p.mpi_op.flatMap fun m => (m.batch.elim [] UriMpiOpBatch.ops).map (m.rank, ·)

/-- The transfers of a plan of process `rank`: every operation that the process
keeps, with those that belong to the same write. -/
def transfers (rank : Nat) (p : PlanCreated) : List (TransferEnd × TransferEnd) :=
  p.send_batch.flatMap fun send_op =>
    (p.targetOps.filter fun x => x.2.index = send_op.index).map fun x =>
      inOrder ⟨rank, send_op.data⟩ ⟨x.1, x.2.data⟩

end PlanCreated

def Write.transfer (rank : Nat) (w : Write) : TransferEnd × TransferEnd :=
  inOrder ⟨rank, w.ownData⟩ ⟨w.rmt_mem.rank, w.peerData rank⟩

/-! ### One transfer for every write -/

theorem filter_eq_singleton {α β : Type} [DecidableEq β] {f : α → β} {xs : List α}
    (hnodup : (xs.map f).Nodup) {x : α} (hx : x ∈ xs) : (xs.filter fun y => f y = f x) = [x] := by
  induction xs with
  | nil => exact nomatch hx
  | cons y ys ih =>
      obtain ⟨hnot, hnodup⟩ := List.nodup_cons.mp hnodup
      rcases List.mem_cons.mp hx with rfl | hx
      · have hrest : (ys.filter fun y => f y = f x) = [] := by
          refine List.filter_eq_nil_iff.mpr fun y hy => ?_
          have hne : f y ≠ f x := fun heq => hnot (heq ▸ List.mem_map_of_mem hy)
          simpa using hne
        rw [List.filter_cons_of_pos (by simp), hrest]
      · have hne : f y ≠ f x := fun heq => hnot (heq ▸ List.mem_map_of_mem hx)
        rw [List.filter_cons_of_neg (by simpa using hne), ih hnodup hx]

section

variable {rank sizeofUriMpiOp plan : Nat} {once_now : Bool} {tags ids : Nat → Nat → Nat}
  {qsort : List MpiOp → List MpiOp} {writes : List Write}

/-- Every mirror image is sent to the process of its write. -/
theorem targetOps_perm (hsort : ∀ arr, SortedBy arr (qsort arr)) :
    (createdPlan rank sizeofUriMpiOp plan once_now tags ids qsort writes).targetOps.Perm
      (writes.zipIdx.map fun x => (x.1.rmt_mem.rank, mirror rank once_now plan tags x)) := by
  have hsorted := sortedOps_sorted once_now plan tags writes hsort
  have hgroup : ∀ g ∈ receivers (sortedOps qsort once_now plan tags writes),
      (addressed rank g).map (groupRank g, ·) =
        g.map fun op => (op.rank, { op with rank := rank }) := by
    intro g hg
    rw [addressed, List.map_map]
    refine List.map_congr_left fun op hop => ?_
    rw [(receivers_uniform _ g hg).groupRank_eq op hop]
    rfl
  have hflat : (createdPlan rank sizeofUriMpiOp plan once_now tags ids qsort writes).targetOps =
      (sortedOps qsort once_now plan tags writes).map fun op =>
        (op.rank, { op with rank := rank }) := by
    have hgroups : (receivers (sortedOps qsort once_now plan tags writes)).map
        (fun g => (addressed rank g).map (groupRank g, ·)) = _ := List.map_congr_left hgroup
    rw [PlanCreated.targetOps, createdPlan, List.flatMap_map]
    conv_rhs => rw [← receivers_flatten (sortedOps qsort once_now plan tags writes),
      List.map_flatten, ← hgroups, ← List.zipIdx_map_fst 0 (receivers _), List.map_map]
    rfl
  rw [hflat]
  have hmap := hsorted.1.map fun op => (op.rank, { op with rank := rank })
  rwa [List.map_map] at hmap

/-- The transfers of a plan are those its writes ask for. -/
theorem transfers_createdPlan (hsort : ∀ arr, SortedBy arr (qsort arr)) :
    (createdPlan rank sizeofUriMpiOp plan once_now tags ids qsort writes).transfers rank =
      writes.map (Write.transfer rank) := by
  have hnodup : (writes.zipIdx.map Prod.snd).Nodup := by
    rw [List.zipIdx_map_snd]
    exact List.nodup_range'
  have hone : ∀ x ∈ writes.zipIdx,
      ((createdPlan rank sizeofUriMpiOp plan once_now tags ids qsort writes).targetOps.filter
        fun y => y.2.index = x.2).map (fun y =>
          inOrder ⟨rank, (planSendOp once_now plan tags x).data⟩ ⟨y.1, y.2.data⟩) =
        [x.1.transfer rank] := by
    intro x hx
    have hperm := (@targetOps_perm rank sizeofUriMpiOp plan once_now tags ids qsort writes
      hsort).filter fun y => y.2.index = x.2
    rw [List.filter_map] at hperm
    have hindex : writes.zipIdx.filter
        ((fun y : Nat × MpiOp => decide (y.2.index = x.2)) ∘
          fun y => (y.1.rmt_mem.rank, mirror rank once_now plan tags y)) = [x] :=
      filter_eq_singleton hnodup hx
    rw [hindex] at hperm
    rw [List.perm_singleton.mp hperm]
    rfl
  calc (createdPlan rank sizeofUriMpiOp plan once_now tags ids qsort writes).transfers rank
      = writes.zipIdx.flatMap fun x => [x.1.transfer rank] := by
        rw [PlanCreated.transfers]
        conv_lhs => rw [createdPlan, List.flatMap_map]
        exact List.flatMap_congr hone
    _ = writes.map (Write.transfer rank) := by
        rw [← List.map_eq_flatMap]
        conv_rhs => rw [← List.zipIdx_map_fst 0 writes, List.map_map]
        rfl

end

/-! ### What the targets post -/

theorem filter_flatMap_key {α κ β : Type} [DecidableEq κ] (key : α → κ) (f : α → List β)
    {xs : List α} (hnodup : (xs.map key).Nodup) {x : α} (hx : x ∈ xs) :
    ((xs.flatMap fun y => (f y).map (key y, ·)).filter fun z => z.1 = key x).map Prod.snd =
      f x := by
  have hsplit : ((xs.flatMap fun y => (f y).map (key y, ·)).filter fun z => z.1 = key x) =
      (xs.filter fun y => key y = key x).flatMap fun y => (f y).map (key y, ·) := by
    clear hnodup hx
    induction xs with
    | nil => rfl
    | cons y ys ih =>
        rw [List.flatMap_cons, List.filter_append, ih, List.filter_map]
        by_cases heq : key y = key x
        · rw [List.filter_cons_of_pos (by simpa using heq), List.flatMap_cons]
          exact congrArg (· ++ _)
            (congrArg _ (List.filter_eq_self.mpr fun _ _ => by simpa using heq))
        · rw [List.filter_cons_of_neg (by simpa using heq)]
          have hnone : (f y).filter ((fun z : κ × β => decide (z.1 = key x)) ∘ (key y, ·)) = [] :=
            List.filter_eq_nil_iff.mpr fun _ _ => by simpa using heq
          rw [hnone, List.map_nil, List.nil_append]
  rw [hsplit, filter_eq_singleton hnodup hx, List.flatMap_singleton, List.map_map]
  exact List.map_id _

def Proc.daemonSteps (size rank : Nat) : Nat → Proc → Option Proc
  | 0, proc => some proc
  | n + 1, proc => (proc.daemonStep size rank).bind (daemonSteps size rank n)

/-- A message of process `src` makes the daemon post `ops`, one after the other,
and enter them in the queue. -/
def Proc.Posts (size rank src : Nat) (proc : Proc) (msg : CtrlMsg) (ops : List MpiOp) : Prop :=
  ∃ handled posted entries, proc.processCtrlMsg src msg = .ok handled ∧
    handled.daemonSteps size rank (ops.length + 1) = some posted ∧ posted.daemon = .drain ∧
    posted.queue = proc.queue ++ entries ∧ entries.map (·.op) = ops

theorem Proc.daemonSteps_posting (size rank : Nat) {src : Nat} {start : Option Nat}
    {ops : List MpiOp} (htags : ∀ op ∈ ops, hasBit op.flag freeTag = false)
    {mpi_op : List Entry} (proc : Proc)
    (hdaemon : proc.daemon = .posting src start ops mpi_op) :
    ∃ posted entries, proc.daemonSteps size rank (ops.length + 1) = some posted ∧
      posted.daemon = .drain ∧ posted.queue = proc.queue ++ (mpi_op ++ entries) ∧
      entries.map (·.op) = ops := by
  induction ops generalizing proc mpi_op with
  | nil =>
      refine ⟨{ proc.append mpi_op with daemon := .drain }, [], ?_, rfl, ?_, rfl⟩
      · simp only [List.length_nil, Proc.daemonSteps, Proc.daemonStep, hdaemon, Option.bind_some]
      · rw [List.append_nil]
        rfl
  | cons op ops ih =>
      obtain ⟨e, hop, hposted, hqueue⟩ : ∃ e : Entry, e.op = op ∧
          (proc.postOp src start op ops mpi_op).daemon = .posting src start ops (mpi_op ++ [e]) ∧
          (proc.postOp src start op ops mpi_op).queue = proc.queue := by
        refine ⟨proc.entry op .peer ⟨src, op.plan, start.getD 0, op.index⟩, rfl, ?_⟩
        unfold Proc.postOp
        cases start with
        | some start => exact ⟨rfl, rfl⟩
        | none =>
            have hok : uruAssert (hasBit op.flag freeTag = false) = .ok () :=
              uruAssert_eq_ok.mpr (htags op (List.mem_cons_self ..))
            rw [hok]
            exact ⟨rfl, rfl⟩
      obtain ⟨posted, entries, hsteps, hdrain, hfinal, hops⟩ :=
        ih (fun op' hop' => htags op' (List.mem_cons_of_mem _ hop')) _ hposted
      refine ⟨posted, e :: entries, ?_, hdrain, ?_, by rw [List.map_cons, hop, hops]⟩
      · rw [List.length_cons, Proc.daemonSteps]
        simp only [Proc.daemonStep, hdaemon, Option.bind_some]
        exact hsteps
      · rw [hfinal, hqueue, List.append_assoc, List.singleton_append]

/-- A batch is posted at once, or when it is started. -/
theorem Proc.posts_batch (size rank src plan : Nat) {ops : List MpiOp}
    (htags : ∀ op ∈ ops, hasBit op.flag freeTag = false) (proc : Proc) :
    proc.Posts size rank src (.executeOpBatch ⟨plan, ops⟩) ops ∧
      ∀ id start stored, proc.processCtrlMsg src (.createOpBatch id ⟨plan, ops⟩) = .ok stored →
        stored.Posts size rank src (.startOpBatch id plan start) ops := by
  constructor
  · obtain ⟨posted, entries, hsteps, hdrain, hqueue, hops⟩ :=
      Proc.daemonSteps_posting size rank htags
        { proc with daemon := .posting src none ops [] } rfl
    exact ⟨_, posted, entries, rfl, hsteps, hdrain, hqueue, hops⟩
  · intro id start stored hstored
    simp only [Proc.processCtrlMsg, bind_eq_ok, fetch_eq_ok, pure_eq_ok] at hstored
    obtain ⟨table, -, slot, hslot, -, -, rfl⟩ := hstored
    have hid := (List.getElem?_eq_some_iff.mp hslot).1
    set stored : Proc := { proc with
      recv_batch := Function.update proc.recv_batch src (table.set id (some ⟨plan, ops⟩)) }
    have hbatch : stored.recv_batch src = table.set id (some ⟨plan, ops⟩) := Function.update_self ..
    have hfetch : fetch (stored.recv_batch src) id = .ok (some ⟨plan, ops⟩) := by
      rw [hbatch, fetch_eq_ok, List.getElem?_set_self hid]
    have hlength : id < (stored.recv_batch src).length := by
      rw [hbatch, List.length_set]
      exact hid
    obtain ⟨posted, entries, hsteps, hdrain, hqueue, hops⟩ :=
      Proc.daemonSteps_posting size rank htags
        { stored with daemon := .posting src (some start) ops [] } rfl
    refine ⟨_, posted, entries, ?_, hsteps, hdrain, hqueue, hops⟩
    rw [Proc.processCtrlMsg, uruAssert_bind, if_pos hlength, hfetch]
    rfl

section

variable {size rank sizeofUriMpiOp plan : Nat} {once_now : Bool} {tags ids : Nat → Nat → Nat}
  {qsort : List MpiOp → List MpiOp} {writes : List Write}

/-- The target of a message posts the operations of the plan that are for it:
when it gets the message, if the plan is used once, and otherwise with each
start after it has stored the batch. -/
theorem targetOps_posted (hsort : ∀ arr, SortedBy arr (qsort arr)) {p : PlanCreated}
    (hp : p = createdPlan rank sizeofUriMpiOp plan once_now tags ids qsort writes)
    {m : CtrlSend} (hm : m ∈ p.mpi_op) (target : Proc) :
    let ops := (p.targetOps.filter fun x => x.1 = m.rank).map Prod.snd
    (once_now = true → ∀ start, target.Posts size m.rank rank (m.msg plan start) ops) ∧
      (once_now = false → ∀ start stored,
        target.processCtrlMsg rank (m.msg plan start) = .ok stored →
        stored.Posts size m.rank rank (.startOpBatch m.batch_id.toNat plan start) ops) := by
  intro ops
  have hmirrored : PlanMirrored rank sizeofUriMpiOp plan once_now tags ids writes p :=
    hp ▸ createdPlan_mirrored hsort
  obtain ⟨b, hb, hperm, -⟩ := hmirrored.batch m hm
  have hops : ops = b.ops := by
    have hkey := filter_flatMap_key CtrlSend.rank
      (fun m : CtrlSend => m.batch.elim [] UriMpiOpBatch.ops) hmirrored.ranks_nodup hm
    rw [hb] at hkey
    exact hkey
  have htags : ∀ op ∈ b.ops, hasBit op.flag freeTag = false := by
    intro op hop
    obtain ⟨x, -, rfl⟩ := List.mem_map.mp (hperm.mem_iff.mp hop)
    cases once_now
    · exact (by decide : hasBit (keepOp ||| keepReq) freeTag = false)
    · exact (by decide : hasBit freeOp freeTag = false)
  -- the type of the message is that of the call
  have htype : m.type = if once_now then .executeOpBatch else .createOpBatch := by
    rw [hp] at hm
    obtain ⟨x, -, rfl⟩ := List.mem_map.mp hm
    rfl
  obtain ⟨hexecute, hstart⟩ :=
    Proc.posts_batch size m.rank rank plan htags target
  rw [hops]
  constructor
  · rintro rfl start
    have hmsg : m.msg plan start = .executeOpBatch ⟨plan, b.ops⟩ := by
      rw [CtrlSend.msg, htype, hb]
      rfl
    rw [hmsg]
    exact hexecute
  · rintro rfl start stored hstored
    have hmsg : m.msg plan start = .createOpBatch m.batch_id.toNat ⟨plan, b.ops⟩ := by
      rw [CtrlSend.msg, htype, hb]
      rfl
    rw [hmsg] at hstored
    exact hstart _ start stored hstored

end

/-! ### Writes from the other side -/

def Write.dual (w : Write) : Write where
  dma_type := w.dma_type.flip
  loc_mem := w.rmt_mem
  loc_offset := w.rmt_offset
  loc_flag_p := w.rmt_flag_p
  loc_flag_add := w.rmt_flag_add
  dma_size := w.dma_size
  rmt_mem := w.loc_mem
  rmt_offset := w.loc_offset
  rmt_flag_p := w.loc_flag_p
  rmt_flag_add := w.loc_flag_add

section

variable {size p q : Nat} {w : Write}

theorem Write.check_dual (hloc : w.loc_mem.rank = p) (hrmt : w.rmt_mem.rank = q) (hp : p < size)
    (hq : q < size) (htype : w.dma_type ≠ .unknown) :
    w.dual.check size q = w.check size p := by
  have hknown : ¬ (w.dma_type ≠ .dmaPut ∧ w.dma_type ≠ .dmaGet) := by
    cases hcase : w.dma_type <;> simp_all
  have hknown' : ¬ (w.dual.dma_type ≠ .dmaPut ∧ w.dual.dma_type ≠ .dmaGet) := by
    rw [Write.dual]
    cases hcase : w.dma_type <;> simp_all [UruTransfer.flip]
  subst hloc hrmt
  have hfirst : w.dual.loc_mem.rank = w.rmt_mem.rank := rfl
  have hlast : w.dual.rmt_mem.rank < size := hp
  simp only [Write.check, uruAssert_bind, if_pos hfirst, if_neg hknown, if_neg hknown',
    not_true_eq_false, hq, hlast, if_false, if_true]
  change (if wrap64 (w.rmt_offset + w.dma_size) ≤ w.rmt_mem.size then
      if wrap64 (w.loc_offset + w.dma_size) ≤ w.loc_mem.size then pure () else _ else _) =
    (if wrap64 (w.loc_offset + w.dma_size) ≤ w.loc_mem.size then
      if wrap64 (w.rmt_offset + w.dma_size) ≤ w.rmt_mem.size then pure () else _ else _)
  split <;> split <;> rfl

theorem Write.transfer_dual (hloc : w.loc_mem.rank = p) (hrmt : w.rmt_mem.rank = q)
    (htype : w.dma_type ≠ .unknown) : w.dual.transfer q = w.transfer p := by
  obtain ⟨dma_type, loc_mem, loc_offset, loc_flag_p, loc_flag_add, dma_size, rmt_mem, rmt_offset,
    rmt_flag_p, rmt_flag_add⟩ := w
  subst hloc hrmt
  cases dma_type with
  | unknown => exact absurd rfl htype
  | dmaPut | dmaGet => rfl

/-- What stops a plan is a write that is not accepted. -/
theorem createOps_checks {rank plan : Nat} {once_now : Bool} {tags : Nat → Nat → Nat}
    (xs : List (Write × Nat)) :
    List.map (fun _ => ()) <$> xs.mapM (createTurn size rank once_now plan tags) =
      xs.mapM fun x => x.1.check size rank := by
  refine (mapM_hom fun x _ => ?_).symm
  cases hcheck : x.1.check size rank with
  | ok u =>
      rw [createTurn_eq_ok.mpr ⟨hcheck, rfl⟩]
      rfl
  | error e =>
      rw [createTurn, hcheck]
      rfl

/-- Plans for the writes and for their mirror images, each made by the process
whose side is the local one, are plans for the same transfers. If one of them
is not accepted neither is the other. -/
theorem uriMpiRdmaPlanCreate_dual {once_now : Bool} {plan plan' sizeofUriMpiOp : Nat}
    {tags tags' ids ids' : Nat → Nat → Nat} {qsort qsort' : List MpiOp → List MpiOp}
    (hsort : ∀ arr, SortedBy arr (qsort arr)) (hsort' : ∀ arr, SortedBy arr (qsort' arr))
    {writes : List Write} (hne : writes ≠ []) (hp : p < size) (hq : q < size)
    (hranks : ∀ w ∈ writes, w.loc_mem.rank = p ∧ w.rmt_mem.rank = q ∧ w.dma_type ≠ .unknown) :
    PlanCreated.transfers q <$> uriMpiRdmaPlanCreate size q once_now plan' tags' sizeofUriMpiOp
        ids' qsort' (writes.map Write.dual) =
      PlanCreated.transfers p <$> uriMpiRdmaPlanCreate size p once_now plan tags sizeofUriMpiOp
        ids qsort writes := by
  -- a write is accepted on the one side exactly if its dual is on the other
  have hchecks : List.map (fun _ => ()) <$> (writes.map Write.dual).zipIdx.mapM
        (createTurn size q once_now plan' tags') =
      List.map (fun _ => ()) <$> writes.zipIdx.mapM (createTurn size p once_now plan tags) := by
    rw [createOps_checks, createOps_checks, List.zipIdx_map, List.mapM_map]
    refine mapM_congr fun x hx => ?_
    obtain ⟨hloc, hrmt, htype⟩ := hranks x.1 (List.fst_mem_of_mem_zipIdx hx)
    exact Write.check_dual hloc hrmt hp hq htype
  cases hrun : writes.zipIdx.mapM (createTurn size p once_now plan tags) with
  | error e =>
      cases hrun' : (writes.map Write.dual).zipIdx.mapM (createTurn size q once_now plan' tags')
        with
      | ok ops =>
          rw [hrun, hrun'] at hchecks
          exact nomatch hchecks
      | error e' =>
          rw [hrun, hrun'] at hchecks
          cases hchecks
          rw [uriMpiRdmaPlanCreate, uriMpiRdmaPlanCreate, hrun, hrun']
          rfl
  | ok ops =>
      have hok := (createOps_eq_ok.mp hrun).1
      have hok' : ∀ w ∈ writes.map Write.dual, w.check size q = .ok () := by
        intro w hw
        obtain ⟨w, hmem, rfl⟩ := List.mem_map.mp hw
        obtain ⟨hloc, hrmt, htype⟩ := hranks w hmem
        rw [Write.check_dual hloc hrmt hp hq htype, hok w hmem]
      have hne' : writes.map Write.dual ≠ [] := by simpa using hne
      rw [(uriMpiRdmaPlanCreate_eq_ok hne hsort).mpr ⟨hok, rfl⟩,
        (uriMpiRdmaPlanCreate_eq_ok hne' hsort').mpr ⟨hok', rfl⟩]
      change Except.ok _ = Except.ok _
      rw [transfers_createdPlan hsort, transfers_createdPlan hsort', List.map_map]
      refine congrArg Except.ok (List.map_congr_left fun w hw => ?_)
      obtain ⟨hloc, hrmt, htype⟩ := hranks w hw
      exact Write.transfer_dual hloc hrmt htype

end

end Unr.Mpi
