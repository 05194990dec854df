import Unr.Uri.Duality

/-!
One transfer, asked for by either side.

Block `A` of one process has the data, block `B` of another one is to get it.
The two requests, a put by the owner of `A` and a get by the owner of `B`,
make the same operations. So the memory and the counters that they leave
behind are the same, in whatever order the operations are completed.
-/

namespace Unr.Uri

open Unr.Uru Unr.Core Unr.Logic
open Unr.Mpi (MpiOp Write PlanCreated OpData TransferEnd)

/-! ### Requests -/

/-- What is to be moved: from `src`, the block of the sender, to `dst`. The
arguments that a call may leave out are `none`. -/
structure Request where
  once_now : Bool
  src : UnrBlk
  src_sig : Option UnrSig
  src_offset : Option Nat
  dst : UnrBlk
  dst_sig : Option UnrSig
  dst_offset : Option Nat
  size : Option Nat

namespace Request

variable (r : Request)

def put : PlanPara where
  once_now := r.once_now
  num_sends := 1
  loc_blk_arr := fun _ => r.src
  loc_sig_arr := r.src_sig.map fun sig _ => sig
  loc_offset_arr := r.src_offset.map fun offset _ => offset
  size_arr := r.size.map fun size _ => size
  rmt_blk_arr := fun _ => r.dst
  rmt_sig_arr := r.dst_sig.map fun sig _ => sig
  rmt_offset_arr := r.dst_offset.map fun offset _ => offset
  dma_type_arr := .each fun _ => .dmaPut

def get : PlanPara where
  once_now := r.once_now
  num_sends := 1
  loc_blk_arr := fun _ => r.dst
  loc_sig_arr := r.dst_sig.map fun sig _ => sig
  loc_offset_arr := r.dst_offset.map fun offset _ => offset
  size_arr := r.size.map fun size _ => size
  rmt_blk_arr := fun _ => r.src
  rmt_sig_arr := r.src_sig.map fun sig _ => sig
  rmt_offset_arr := r.src_offset.map fun offset _ => offset
  dma_type_arr := .each fun _ => .dmaGet

theorem put_dual : r.put.dual = r.get := rfl

def bytes : Nat := r.size.getD r.src.size

/-- The explicit signal of a side, or else the one that is registered with its
block. -/
def flagFor (sig : Option UnrSig) (blk_flag_p : Option Nat) : Option Nat :=
  match sig with
  | some sig => if sig.dst_rank ≠ unrNoSignalDstRank then sig.flag_p else blk_flag_p
  | none => blk_flag_p

def srcFlag : Option Nat := flagFor r.src_sig r.src.send_flag_p

def dstFlag : Option Nat := flagFor r.dst_sig r.dst.recv_flag_p

def startIn (blk : UnrBlk) (offset : Option Nat) : Nat :=
  match offset with
  | some offset => wrap64 (blk.offset + offset)
  | none => blk.offset

/-- The transfer of the bytes from `disp` on, as the two operations. -/
def partOf (p q : Nat) (memA memB : UnrMem) (disp size : Nat) (flag_add : BitVec 64) :
    TransferEnd × TransferEnd :=
  (⟨p, ⟨.opSend, memA.addr + wrap64 (startIn r.src r.src_offset + disp), size, q, r.srcFlag,
      flag_add⟩⟩,
    ⟨q, ⟨.opRecv, memB.addr + wrap64 (startIn r.dst r.dst_offset + disp), size, p, r.dstFlag,
      flag_add⟩⟩)

/-- The two ranges do not meet. -/
def Apart (p q : Nat) (memA memB : UnrMem) : Prop :=
  p ≠ q ∨ ∀ u v : BitVec 64, u.toNat < r.bytes → v.toNat < r.bytes →
    BitVec.ofNat 64 (memA.addr + startIn r.src r.src_offset) + u ≠
      BitVec.ofNat 64 (memB.addr + startIn r.dst r.dst_offset) + v

end Request

/-! ### Effects -/

/-- What the transport does for a pair of operations. Every process has its own
address space, and MPI is told the number of bytes as an `int`. -/
def transferCopy (x : TransferEnd × TransferEnd) : Copy (Nat × BitVec 64) where
  dst := fun k => decide (k.1 = x.2.process ∧
    (k.2 - BitVec.ofNat 64 x.2.op.addr).toNat < (asSigned 32 x.1.op.size).toNat)
  src := fun k => (x.1.process, BitVec.ofNat 64 x.1.op.addr + (k.2 - BitVec.ofNat 64 x.2.op.addr))

def memoryAfter (xs : List (TransferEnd × TransferEnd)) (mem : Nat × BitVec 64 → BitVec 8) :
    Nat × BitVec 64 → BitVec 8 :=
  (xs.map transferCopy).foldl Copy.run mem

/-- The flags of all processes after an operation has been completed, as long
as the daemon's assertion on the sign of the counter holds. -/
def completeEnd (flags : Nat → Nat → UruFlag) (e : TransferEnd) : Nat → Nat → UruFlag :=
  fun rank flag_p =>
    if rank = e.process ∧ e.op.flag_p = some flag_p then (flags rank flag_p).add e.op.flag_add
    else flags rank flag_p

def endsOf (xs : List (TransferEnd × TransferEnd)) : List TransferEnd :=
  xs.flatMap fun x => [x.1, x.2]

/-- Updates of counters can be made in any order. -/
theorem completeEnd_comm (flags : Nat → Nat → UruFlag) (e e' : TransferEnd) :
    completeEnd (completeEnd flags e) e' = completeEnd (completeEnd flags e') e := by
  have hadd : ∀ flag : UruFlag, (flag.add e.op.flag_add).add e'.op.flag_add =
      (flag.add e'.op.flag_add).add e.op.flag_add := by
    intro flag
    simp only [UruFlag.add, BitVec.add_assoc, BitVec.add_comm e.op.flag_add]
  funext rank flag_p
  simp only [completeEnd]
  by_cases h : rank = e.process ∧ e.op.flag_p = some flag_p
  · by_cases h' : rank = e'.process ∧ e'.op.flag_p = some flag_p
    · rw [if_pos h, if_pos h, if_pos h', if_pos h', hadd]
    · rw [if_pos h, if_pos h, if_neg h', if_neg h']
  · rw [if_neg h, if_neg h]

theorem completeEnds_perm {es es' : List TransferEnd} (h : es.Perm es')
    (flags : Nat → Nat → UruFlag) : es.foldl completeEnd flags = es'.foldl completeEnd flags :=
  h.foldl_eq' (fun e _ e' _ flags => completeEnd_comm flags e e') flags

/-! ### The parts of one request -/

section

variable {r : Request} {p q : Nat} {memA memB : UnrMem} {share : List Nat}
  {flag_add : BitVec 64}

def Request.parts (r : Request) (p q : Nat) (memA memB : UnrMem) (share : List Nat)
    (sig_add : Nat → BitVec 64) : List (TransferEnd × TransferEnd) :=
  ((List.range share.length).filter fun j => share.getD j 0 ≠ 0).map fun j =>
    r.partOf p q memA memB (displacement share j) (share.getD j 0) (sig_add j)

theorem ofNat_add_wrap64 (addr start disp : Nat) :
    BitVec.ofNat 64 (addr + wrap64 (start + disp)) =
      BitVec.ofNat 64 (addr + start) + BitVec.ofNat 64 disp := by
  apply BitVec.eq_of_toNat_eq
  simp only [wrap64, BitVec.toNat_ofNat, BitVec.toNat_add]
  omega

theorem transferCopy_partOf (hbytes : r.bytes < 2 ^ 64) {disp size : Nat}
    (hend : disp + size ≤ r.bytes) (k : Nat × BitVec 64) :
    let c := transferCopy (r.partOf p q memA memB disp size flag_add)
    let off := k.2 - BitVec.ofNat 64 (memB.addr + Request.startIn r.dst r.dst_offset)
    c.src k = (p, BitVec.ofNat 64 (memA.addr + Request.startIn r.src r.src_offset) + off) ∧
      (c.dst k = true ↔ k.1 = q ∧ disp ≤ off.toNat ∧
        off.toNat < disp + (asSigned 32 size).toNat) := by
  intro c off
  have hcount : (asSigned 32 size).toNat ≤ size := by
    have := narrowing_asSigned 32 size
    omega
  have hback : k.2 - BitVec.ofNat 64
      (memB.addr + wrap64 (Request.startIn r.dst r.dst_offset + disp)) =
      off - BitVec.ofNat 64 disp := by
    rw [ofNat_add_wrap64, ← sub_sub]
  refine ⟨?_, ?_⟩
  · change (p, BitVec.ofNat 64 (memA.addr + wrap64 (Request.startIn r.src r.src_offset + disp)) +
      (k.2 - BitVec.ofNat 64 (memB.addr + wrap64 (Request.startIn r.dst r.dst_offset + disp)))) = _
    rw [hback, ofNat_add_wrap64, add_add_sub_cancel]
  · change decide (k.1 = q ∧ (k.2 - BitVec.ofNat 64 (memB.addr +
      wrap64 (Request.startIn r.dst r.dst_offset + disp))).toNat < (asSigned 32 size).toNat) =
      true ↔ _
    rw [hback, decide_eq_true_iff]
    refine and_congr_right fun _ => ?_
    have hoff := off.isLt
    rw [BitVec.toNat_sub, BitVec.toNat_ofNat, Nat.mod_eq_of_lt (by omega : disp < 2 ^ 64)]
    omega

variable {sig_add : Nat → BitVec 64} {xs : List (TransferEnd × TransferEnd)}

theorem mem_parts {x : TransferEnd × TransferEnd} :
    x ∈ r.parts p q memA memB share sig_add ↔ ∃ j < share.length, share.getD j 0 ≠ 0 ∧
      x = r.partOf p q memA memB (displacement share j) (share.getD j 0) (sig_add j) := by
  simp only [Request.parts, List.mem_map, List.mem_filter, List.mem_range, decide_eq_true_eq,
    ne_eq]
  exact ⟨fun ⟨j, ⟨hj, hne⟩, hx⟩ => ⟨j, hj, hne, hx.symm⟩,
    fun ⟨j, hj, hne, hx⟩ => ⟨j, ⟨hj, hne⟩, hx.symm⟩⟩

theorem copy_of_mem_parts (hsum : share.sum = r.bytes) (hbytes : r.bytes < 2 ^ 64)
    {x : TransferEnd × TransferEnd} (hx : x ∈ r.parts p q memA memB share sig_add)
    (k : Nat × BitVec 64) :
    let off := k.2 - BitVec.ofNat 64 (memB.addr + Request.startIn r.dst r.dst_offset)
    (transferCopy x).src k =
        (p, BitVec.ofNat 64 (memA.addr + Request.startIn r.src r.src_offset) + off) ∧
      ((transferCopy x).dst k = true → k.1 = q ∧ off.toNat < r.bytes) := by
  intro off
  obtain ⟨j, hj, -, rfl⟩ := mem_parts.mp hx
  have hend := displacement_add_le_sum hj
  have hget : share.getD j 0 = share[j] := List.getD_eq_getElem _ _ hj
  rw [hsum, ← hget] at hend
  obtain ⟨hsrc, hdst⟩ := @transferCopy_partOf r p q memA memB (sig_add j) hbytes _ _ hend k
  refine ⟨hsrc, fun h => ?_⟩
  have hcount : (asSigned 32 (share.getD j 0)).toNat ≤ share.getD j 0 := by
    have := narrowing_asSigned 32 (share.getD j 0)
    omega
  obtain ⟨hq, -, hlt⟩ := hdst.mp h
  exact ⟨hq, Nat.lt_of_lt_of_le hlt (by omega)⟩

/-- The copies of the parts do not get in each other's way. -/
theorem consistent_parts (hsum : share.sum = r.bytes) (hbytes : r.bytes < 2 ^ 64)
    (hapart : r.Apart p q memA memB) (hparts : ∀ x ∈ xs, x ∈ r.parts p q memA memB share sig_add) :
    Consistent (xs.map transferCopy) where
  same_source c hc d hd k _ _ := by
    obtain ⟨x, hx, rfl⟩ := List.mem_map.mp hc
    obtain ⟨y, hy, rfl⟩ := List.mem_map.mp hd
    rw [(copy_of_mem_parts hsum hbytes (hparts x hx) k).1,
      (copy_of_mem_parts hsum hbytes (hparts y hy) k).1]
  source_kept c hc d hd k hdst := by
    obtain ⟨x, hx, rfl⟩ := List.mem_map.mp hc
    obtain ⟨y, hy, rfl⟩ := List.mem_map.mp hd
    obtain ⟨hsrc, hin⟩ := copy_of_mem_parts hsum hbytes (hparts x hx) k
    have hlt := (hin hdst).2
    rw [hsrc, Bool.eq_false_iff]
    intro hwritten
    obtain ⟨hpq, hback⟩ := (copy_of_mem_parts hsum hbytes (hparts y hy) _).2 hwritten
    rcases hapart with hne | hdisjoint
    · exact hne hpq
    · exact hdisjoint _ _ hlt hback (add_sub_cancel _ _).symm

/-- Once all parts have been transferred the range of the receiver has the
bytes of the sender, and nothing else has changed. -/
theorem memoryAfter_parts (hsum : share.sum = r.bytes) (hbytes : r.bytes < 2 ^ 64)
    (hapart : r.Apart p q memA memB) (hsmall : ∀ n ∈ share, n < 2 ^ 31)
    (hparts : ∀ x, x ∈ xs ↔ x ∈ r.parts p q memA memB share sig_add)
    (mem : Nat × BitVec 64 → BitVec 8) (k : Nat × BitVec 64) :
    let off := k.2 - BitVec.ofNat 64 (memB.addr + Request.startIn r.dst r.dst_offset)
    memoryAfter xs mem k = if k.1 = q ∧ off.toNat < r.bytes then
      mem (p, BitVec.ofNat 64 (memA.addr + Request.startIn r.src r.src_offset) + off)
      else mem k := by
  intro off
  have hconsistent := consistent_parts hsum hbytes hapart fun x hx => (hparts x).mp hx
  by_cases hin : k.1 = q ∧ off.toNat < r.bytes
  · obtain ⟨j, hlow, hhigh⟩ := exists_inShare (by rw [hsum]; exact hin.2)
    have hj := InShare.lt_length ⟨hlow, hhigh⟩
    have hend := displacement_add_le_sum hj
    have hget : share.getD j 0 = share[j] := List.getD_eq_getElem _ _ hj
    rw [hsum, ← hget] at hend
    have hcount : asSigned 32 (share.getD j 0) = share.getD j 0 :=
      asSigned_eq_iff.mpr (by rw [hget]; exact hsmall _ (List.getElem_mem hj))
    have hmem : r.partOf p q memA memB (displacement share j) (share.getD j 0) (sig_add j) ∈ xs :=
      (hparts _).mpr (mem_parts.mpr ⟨j, hj, by omega, rfl⟩)
    obtain ⟨hsrc, hdst⟩ := @transferCopy_partOf r p q memA memB (sig_add j) hbytes _ _ hend k
    rw [if_pos hin, memoryAfter]
    have hwritten := hdst.mpr ⟨hin.1, hlow, by rw [hcount, Int.toNat_natCast]; exact hhigh⟩
    have hcopy := List.mem_map_of_mem (f := transferCopy) hmem
    refine foldl_copy_of_mem ⟨_, hcopy, hwritten⟩ (fun c hc hdst' => ?_) fun c hc => ?_
    · rw [hconsistent.same_source c hc _ hcopy k hdst' hwritten, hsrc]
    · rw [← hsrc]
      exact hconsistent.source_kept _ hcopy c hc k hwritten
  · rw [if_neg hin, memoryAfter]
    refine foldl_copy_of_not_mem fun c hc => ?_
    obtain ⟨x, hx, rfl⟩ := List.mem_map.mp hc
    rw [Bool.eq_false_iff]
    exact fun hdst => hin ((copy_of_mem_parts hsum hbytes ((hparts x).mp hx) k).2 hdst)

end

/-! ### Both requests -/

def allTransfers (rank : Nat) (plans : List (Nat × PlanCreated)) :
    List (TransferEnd × TransferEnd) :=
  (channelTransfers rank plans).flatMap Prod.snd

/-- What two plans have in common, one for the put of the sender `p` and one for
the get of the receiver `q`. -/
structure SameTransfer (r : Request) (p q : Nat) (memA memB : UnrMem) (g : ChannelGroup)
    (num_uri_plan : Nat) (puts gets : List (Nat × PlanCreated)) : Prop where
  /-- Channel by channel they are the same pairs of operations. -/
  pairs : channelTransfers q gets = channelTransfers p puts
  /-- The pairs are the shares of the request, the first operation at the
  sender and the second one at the receiver. -/
  parts : ∃ share, SharesOf g r.bytes share ∧ ∀ x, x ∈ allTransfers p puts ↔
    x ∈ r.parts p q memA memB share fun j => (sigAddArr num_uri_plan g.num share).getD j 0
  /-- The counters after both plans are the same, whatever the order. -/
  counters : ∀ order order' : List TransferEnd, order.Perm (endsOf (allTransfers p puts)) →
    order'.Perm (endsOf (allTransfers q gets)) → ∀ flags,
      order.foldl completeEnd flags = order'.foldl completeEnd flags
  /-- So is the memory, unless a part overwrites what another one has yet to
  read. -/
  memory : r.Apart p q memA memB → ∀ order order', order.Perm (allTransfers p puts) →
    order'.Perm (allTransfers q gets) → ∀ mem, memoryAfter order mem = memoryAfter order' mem
  /-- The bytes of the sender are then at the receiver, as long as MPI has been
  told their true number. -/
  delivered : r.Apart p q memA memB → (∀ x ∈ allTransfers p puts, x.1.op.size < 2 ^ 31) →
    ∀ order, order.Perm (allTransfers p puts) → ∀ mem k,
      let off := k.2 - BitVec.ofNat 64 (memB.addr + Request.startIn r.dst r.dst_offset)
      memoryAfter order mem k = if k.1 = q ∧ off.toNat < r.bytes then
        mem (p, BitVec.ofNat 64 (memA.addr + Request.startIn r.src r.src_offset) + off) else mem k

section

variable {t : ChannelTable} {mpi mpi' : UruMpi} {ch ch' : UnrChannels} {same_node : Bool}
  {r : Request} {memA memB : UnrMem}

theorem Request.facing (hlinked : Linked mpi mpi' ch ch' same_node)
    (hsrc : r.src.Known mpi.rank ch ch' memA) (hdst : r.dst.Known mpi'.rank ch' ch memB) :
    Facing mpi mpi' ch ch' same_node r.put :=
  ⟨hlinked, fun _ => ⟨memA, hsrc⟩, fun _ => ⟨memB, hdst⟩, fun _ => nofun⟩

theorem Request.put_size (i : Fin r.put.num_sends) : r.put.size i = r.bytes := by
  obtain ⟨_, _, _, _, _, _, _, size⟩ := r
  cases size <;> rfl

theorem Request.chosenFlag_eq (sig : Option UnrSig) (blk_flag_p : Option Nat) (i : Fin 1) :
    chosenFlag (sig.map fun sig _ => sig) i blk_flag_p = flagFor sig blk_flag_p := by
  cases sig <;> rfl

theorem Request.start_eq (blk : UnrBlk) (offset : Option Nat) (i : Fin 1) :
    PlanPara.start blk (offset.map fun offset _ => offset) i = startIn blk offset := by
  cases offset <;> rfl

theorem Request.put_sameNode (hlinked : Linked mpi mpi' ch ch' same_node)
    (hdst : r.dst.Known mpi'.rank ch' ch memB) (i : Fin r.put.num_sends) :
    r.put.sameNode mpi i = same_node := by
  change mpi.same_node.getD r.dst.dst_rank.toNat false = same_node
  rw [hdst.dst_rank]
  exact fetchAt_getD hlinked.together

theorem Request.transfer_partWrite (hlinked : Linked mpi mpi' ch ch' same_node)
    (hsrc : r.src.Known mpi.rank ch ch' memA) (hdst : r.dst.Known mpi'.rank ch' ch memB)
    (share : List Nat) (i : Fin r.put.num_sends) (j : Nat) :
    (subWriteEntry (partWrite mpi ch r.put share i j)).transfer mpi.rank.toNat =
      r.partOf mpi.rank.toNat mpi'.rank.toNat memA memB (displacement share j) (share.getD j 0)
        ((sigAddArr ch.numUriPlan (ch.group same_node).num share).getD j 0) := by
  have hlocMem : r.put.locMem ch i = memA := locMem_known (a := r.put) (i := i) hsrc
  have hrmtMem : r.put.rmtMem ch i = memB := rmtMem_known (a := r.put) (i := i) hdst
  have hrank : memB.rank = mpi'.rank.toNat := by rw [← hdst.mem_rank, Int.toNat_natCast]
  have hentry : subWriteEntry (partWrite mpi ch r.put share i j) =
      { dma_type := .dmaPut
        loc_mem := ⟨memA.addr, memA.size, memA.rank⟩
        loc_offset := wrap64 (startIn r.src r.src_offset + displacement share j)
        loc_flag_p := r.srcFlag
        loc_flag_add := (sigAddArr ch.numUriPlan (ch.group same_node).num share).getD j 0
        dma_size := share.getD j 0
        rmt_mem := ⟨memB.addr, memB.size, memB.rank⟩
        rmt_offset := wrap64 (startIn r.dst r.dst_offset + displacement share j)
        rmt_flag_p := r.dstFlag
        rmt_flag_add := (sigAddArr ch.numUriPlan (ch.group same_node).num share).getD j 0 } := by
    simp only [subWriteEntry, partWrite, hlocMem, hrmtMem, put_sameNode hlinked hdst]
    rw [← start_eq r.src r.src_offset i, ← start_eq r.dst r.dst_offset i, srcFlag, dstFlag,
      ← chosenFlag_eq r.src_sig _ i, ← chosenFlag_eq r.dst_sig _ i]
    rfl
  rw [hentry]
  simp only [Write.transfer, Mpi.inOrder, Write.ownData, Write.peerData, Write.opType, if_true,
    hrank]
  rfl

theorem mem_allTransfers {b_inter b_intra : Nat} (hacc : ch.Accepted b_inter b_intra)
    (hlinked : Linked mpi mpi' ch ch' same_node) (hsrc : r.src.Known mpi.rank ch ch' memA)
    (hdst : r.dst.Known mpi'.rank ch' ch memB) {uri_plans : List UriPlanCreate}
    {shares : Fin r.put.num_sends → List Nat}
    (hdecomposes : Decomposes mpi ch r.put shares uri_plans)
    (hlength : (shares ⟨0, Nat.one_pos⟩).length = (ch.group same_node).num)
    {plans : List (Nat × PlanCreated)}
    (hplans : channelTransfers mpi.rank.toNat plans = uri_plans.map fun p =>
      (p.uri_channel, p.wrts.map fun w => (subWriteEntry w).transfer mpi.rank.toNat))
    (x : TransferEnd × TransferEnd) :
    x ∈ allTransfers mpi.rank.toNat plans ↔
      x ∈ r.parts mpi.rank.toNat mpi'.rank.toNat memA memB (shares ⟨0, Nat.one_pos⟩)
        fun j => (sigAddArr ch.numUriPlan (ch.group same_node).num
          (shares ⟨0, Nat.one_pos⟩)).getD j 0 := by
  have hsame := Request.put_sameNode hlinked hdst
  rw [allTransfers, hplans, List.flatMap_map, List.mem_flatMap, mem_parts]
  constructor
  · rintro ⟨p, hp, hx⟩
    obtain ⟨w, hw, rfl⟩ := List.mem_map.mp hx
    obtain ⟨i, j, hj, hne, rfl, -⟩ := part_of_handed hdecomposes hp hw
    obtain rfl : i = ⟨0, Nat.one_pos⟩ := Fin.ext (Nat.lt_one_iff.mp i.isLt)
    rw [hsame] at hj
    exact ⟨j, by rw [hlength]; exact hj, hne,
      Request.transfer_partWrite hlinked hsrc hdst _ _ j⟩
  · rintro ⟨j, hj, hne, rfl⟩
    have hj' : j < (ch.group (r.put.sameNode mpi ⟨0, Nat.one_pos⟩)).num := by
      rw [hsame, ← hlength]
      exact hj
    obtain ⟨p, hp, hw, -⟩ := handed_of_part hacc hdecomposes hj' hne
    exact ⟨p, hp, List.mem_map.mpr ⟨_, hw, Request.transfer_partWrite hlinked hsrc hdst _ _ j⟩⟩

/-- What follows from the transfers being the same. -/
theorem sameTransfer_of_parts {p q num_uri_plan : Nat} {g : ChannelGroup}
    {puts gets : List (Nat × PlanCreated)} (hbytes : r.bytes < 2 ^ 64)
    (hpairs : channelTransfers q gets = channelTransfers p puts) {share : List Nat}
    (hshare : SharesOf g r.bytes share)
    (hparts : ∀ x, x ∈ allTransfers p puts ↔
      x ∈ r.parts p q memA memB share fun j => (sigAddArr num_uri_plan g.num share).getD j 0) :
    SameTransfer r p q memA memB g num_uri_plan puts gets := by
  have hall : allTransfers q gets = allTransfers p puts := by
    rw [allTransfers, allTransfers, hpairs]
  constructor
  case pairs => exact hpairs
  case parts => exact ⟨share, hshare, hparts⟩
  case counters =>
    intro order order' horder horder' flags
    rw [hall] at horder'
    exact completeEnds_perm (horder.trans horder'.symm) flags
  case memory =>
    intro hapart order order' horder horder' mem
    rw [hall] at horder'
    have hconsistent := consistent_parts hshare.total hbytes hapart
      fun x hx => (hparts x).mp (horder.mem_iff.mp hx)
    exact hconsistent.foldl_perm ((horder.trans horder'.symm).map transferCopy)
  case delivered =>
    intro hapart hsmall order horder mem k
    have hsmall' : ∀ n ∈ share, n < 2 ^ 31 := by
      intro n hn
      obtain ⟨j, hj, rfl⟩ := List.getElem_of_mem hn
      have hget : share.getD j 0 = share[j] := List.getD_eq_getElem _ _ hj
      by_cases hzero : share[j] = 0
      · rw [hzero]
        decide
      · rw [← hget]
        exact hsmall _ ((hparts _).mpr (mem_parts.mpr ⟨j, hj, by rwa [hget], rfl⟩))
    exact memoryAfter_parts hshare.total hbytes hapart hsmall'
      (fun x => horder.mem_iff.trans (hparts x)) mem k

/-- For every two blocks that both processes know of, every choice of signals,
offsets and size, and whatever the pools return: the put of the one process is
accepted exactly if the get of the other one is, and both make the same
transfers. -/
theorem put_get_same {inter_channels intra_channels : List Nat} {ch₀ : UnrChannels}
    (hinit : unrInit t inter_channels intra_channels = .ok ch₀)
    {loc_mem_arr loc_mem_arr' : List UnrMem} {rmt_mem_arr rmt_mem_arr' : List (List UnrMem)} :
    let ch := { ch₀ with loc_mem_arr := loc_mem_arr, rmt_mem_arr := rmt_mem_arr }
    let ch' := { ch₀ with loc_mem_arr := loc_mem_arr', rmt_mem_arr := rmt_mem_arr' }
    rmt_mem_arr.length = mpi.size → Linked mpi mpi' ch ch' same_node →
    r.src.Known mpi.rank ch ch' memA → r.dst.Known mpi'.rank ch' ch memB → r.bytes < 2 ^ 64 →
    ∀ sizeofUriMpiOp supply supply',
      (∃ stop, mpiPlanCreate mpi ch sizeofUriMpiOp supply r.put = .error stop ∧
        mpiPlanCreate mpi' ch' sizeofUriMpiOp supply' r.get = .error stop) ∨
      ∃ puts gets, mpiPlanCreate mpi ch sizeofUriMpiOp supply r.put = .ok puts ∧
        mpiPlanCreate mpi' ch' sizeofUriMpiOp supply' r.get = .ok gets ∧
        SameTransfer r mpi.rank.toNat mpi'.rank.toNat memA memB (ch₀.group same_node)
          ch₀.numUriPlan puts gets := by
  intro ch ch' hranks hlinked hsrc hdst hbytes sizeofUriMpiOp supply supply'
  obtain ⟨b_inter, b_intra, hinter, hintra, hnum⟩ := unrInit_accepted hinit
  have hacc : ch.Accepted b_inter b_intra := ⟨hinter, hintra, hnum⟩
  have hlaid : Laid t ch := (laid_of_unrInit hinit).withMem _ _
  have hfacing := Request.facing hlinked hsrc hdst
  have hsizes : ∀ i, r.put.size i < 2 ^ 64 := fun i => by rwa [Request.put_size]
  -- the get is the put with its sides exchanged
  have hdual : channelTransfers mpi'.rank.toNat <$>
        mpiPlanCreate mpi' ch' sizeofUriMpiOp supply' r.get =
      channelTransfers mpi.rank.toNat <$> mpiPlanCreate mpi ch sizeofUriMpiOp supply r.put := by
    rw [← r.put_dual]
    exact mpiPlanCreate_dual hacc hlaid hranks hsizes hfacing
  -- so both stop at the same error, or both are accepted
  cases hput : mpiPlanCreate mpi ch sizeofUriMpiOp supply r.put with
  | error stop =>
      cases hget : mpiPlanCreate mpi' ch' sizeofUriMpiOp supply' r.get with
      | error stop' =>
          rw [hput, hget] at hdual
          cases hdual
          exact .inl ⟨stop, rfl, rfl⟩
      | ok gets =>
          rw [hput, hget] at hdual
          cases hdual
  | ok puts =>
      cases hget : mpiPlanCreate mpi' ch' sizeofUriMpiOp supply' r.get with
      | error stop =>
          rw [hput, hget] at hdual
          cases hdual
      | ok gets =>
          rw [hput, hget] at hdual
          have hpairs : channelTransfers mpi'.rank.toNat gets =
              channelTransfers mpi.rank.toNat puts :=
            Except.ok.inj hdual
          refine .inr ⟨puts, gets, rfl, rfl, ?_⟩
          cases hnow : planNow mpi ch r.put with
          | error stop =>
              rw [mpiPlanCreate, unrRdmaPlanCreate_facing hfacing, hnow] at hput
              cases hput
          | ok uri_plans =>
              obtain ⟨shares, hdecomposes, hshares⟩ := decomposes_of_planNow hacc hranks hsizes hnow
              have hshare := hshares ⟨0, Nat.one_pos⟩
              rw [Request.put_size, Request.put_sameNode hlinked hdst] at hshare
              exact sameTransfer_of_parts hbytes hpairs hshare
                (mem_allTransfers hacc hlinked hsrc hdst hdecomposes hshare.length
                  (channelTransfers_eq hlaid hfacing hnow hdecomposes hput))

end

/-! ### Ten thousand bytes over two channels -/

def rankOne : UruMpi where
  rank := 1
  size := 2
  same_node := [false, true]
  same_node_length := rfl

/-- From rank 0 to rank 1, with an explicit signal at the receiver. -/
def tenThousand : Request where
  once_now := false
  src := ⟨0, 0, 128, 16000, some 1, none⟩
  src_sig := some ⟨unrNoSignalDstRank, none⟩
  src_offset := none
  dst := ⟨1, 0, 0, 16000, none, some 2⟩
  dst_sig := some ⟨1, some 3⟩
  dst_offset := some 64
  size := some 10000

def countingSupply (first : Nat) : MpiSupply where
  plan := first
  tags := fun _ index => first + index
  ids := fun _ i => first + i
  qsort := Mpi.sortByRank
  sorted := Mpi.sortedBy_sortByRank

theorem put_get_same_tenThousand :
    ∃ ch₀ puts gets, unrInit twoDevices [0, 1] [0, 1] = .ok ch₀ ∧
      mpiPlanCreate rankZero
        { ch₀ with loc_mem_arr := [region 0], rmt_mem_arr := [[region 0], [region 1]] } 56
        (fun _ => countingSupply 2) tenThousand.put = .ok puts ∧
      mpiPlanCreate rankOne
        { ch₀ with loc_mem_arr := [region 1], rmt_mem_arr := [[region 0], [region 1]] } 56
        (fun _ => countingSupply 7) tenThousand.get = .ok gets ∧
      SameTransfer tenThousand 0 1 (region 0) (region 1)
      (ch₀.group false) ch₀.numUriPlan puts gets ∧
      (allTransfers 0 puts).map (fun x => (x.1.op.flag_p, x.2.op.flag_p)) =
        [(some 1, some 3), (some 1, some 3)] := by
  have hinit : unrInit twoDevices [0, 1] [0, 1] = .ok _ := rfl
  have hsame := @put_get_same twoDevices rankZero rankOne false tenThousand (region 0) (region 1)
    _ _ _ hinit [region 0] [region 1] [[region 0], [region 1]] [[region 0], [region 1]] rfl
    ⟨rfl, by decide, by decide, rfl, rfl, rfl, rfl⟩ ⟨rfl, rfl, rfl, rfl⟩ ⟨rfl, rfl, rfl, rfl⟩
    (by decide) 56 (fun _ => countingSupply 2) (fun _ => countingSupply 7)
  rcases hsame with ⟨stop, hput, -⟩ | ⟨puts, gets, hput, hget, hsame⟩
  · exact nomatch hput
  · refine ⟨_, puts, gets, hinit, hput, hget, hsame, ?_⟩
    cases hput
    rfl

end Unr.Uri
