import Unr.Core.Plan
import Unr.Core.ShareShape
import Unr.Logic.Loop

/-!
The sub-writes of a plan, described without the arrays they are collected in.

The four loops of `unr_rdma_plan_create` work on scratch arrays that one send
leaves to the next. The description below has no such state: it is given by
the shares of every send, and says of each channel which sub-write a send puts
there, if any. The function computes exactly such a description.
-/

namespace Unr.Core

open Unr.Uru Unr.Logic

section

variable (mpi : UruMpi) (ch : UnrChannels) (a : PlanPara)

def PlanPara.sameNode (i : Fin a.num_sends) : Bool :=
  mpi.same_node.getD (a.rmt_blk_arr i).dst_rank.toNat false

def PlanPara.locMem (i : Fin a.num_sends) : UnrMem :=
  ch.loc_mem_arr.getD (a.loc_blk_arr i).mem_idx.toNat ⟨0, 0, 0, 0⟩

def PlanPara.rmtMem (i : Fin a.num_sends) : UnrMem :=
  (ch.rmt_mem_arr.getD (a.rmt_blk_arr i).dst_rank.toNat []).getD
    (a.rmt_blk_arr i).mem_idx.toNat ⟨0, 0, 0, 0⟩

/-- The flag `flagOf` chooses when its assertion holds. -/
def chosenFlag {n : Nat} (sig_arr : Option (Fin n → UnrSig)) (i : Fin n)
    (blk_flag_p : Option Nat) : Option Nat :=
  match sig_arr with
  | some sigs => if (sigs i).dst_rank ≠ unrNoSignalDstRank then (sigs i).flag_p else blk_flag_p
  | none => blk_flag_p

def UnrChannels.channelIndex (same_node : Bool) (id : Nat) : Option Nat :=
  if same_node then
    if ch.inter.num ≤ id ∧ id < ch.inter.num + ch.intra.num then some (id - ch.inter.num)
    else none
  else if id < ch.inter.num then some id else none

/-- The sub-write of send `i` that carries the share of channel `j` of its
group: both sides move by the same displacement, and the handles are those of
the regions of the send for that channel. -/
def partWrite (shares : List Nat) (i : Fin a.num_sends) (j : Nat) : SubWrite :=
  let g := ch.group (a.sameNode mpi i)
  let loc := a.loc_blk_arr i
  let rmt := a.rmt_blk_arr i
  let put := a.dma_type i = .dmaPut
  { part_dma_type := a.dma_type i
    loc_uri_mem := ⟨a.locMem ch i, g.uri_mem_h_offset.getD j 0⟩
    loc_uri_offset := wrap64 (PlanPara.start loc a.loc_offset_arr i + displacement shares j)
    loc_flag_p := chosenFlag a.loc_sig_arr i (if put then loc.send_flag_p else loc.recv_flag_p)
    loc_flag_add := (sigAddArr ch.numUriPlan g.num shares).getD j 0
    part_size := shares.getD j 0
    rmt_uri_mem := ⟨a.rmtMem ch i, g.uri_mem_h_offset.getD j 0⟩
    rmt_uri_offset := wrap64 (PlanPara.start rmt a.rmt_offset_arr i + displacement shares j)
    rmt_flag_p := chosenFlag a.rmt_sig_arr i (if put then rmt.recv_flag_p else rmt.send_flag_p)
    rmt_flag_add := (sigAddArr ch.numUriPlan g.num shares).getD j 0 }

/-- The sub-write that send `i` puts on channel `id` of the plan: one if the
channel belongs to the selected group and has a share, none otherwise. -/
def subWriteOn (shares : Fin a.num_sends → List Nat) (id : Nat) (i : Fin a.num_sends) :
    Option SubWrite :=
  match ch.channelIndex (a.sameNode mpi i) id with
  | some j => if (shares i).getD j 0 = 0 then none else some (partWrite mpi ch a (shares i) i j)
  | none => none

/-- The calls of `uri_rdma_plan_create` are the exact decomposition of the
sends into the given shares. -/
structure Decomposes (shares : Fin a.num_sends → List Nat) (uri_plans : List UriPlanCreate) :
    Prop where
  /-- A send has one share for every channel of the selected group. -/
  length : ∀ i, (shares i).length = (ch.group (a.sameNode mpi i)).num
  /-- The shares add up to the size, so an empty send has only empty shares. -/
  total : ∀ i, (shares i).sum = a.size i
  /-- Every byte of a send lies in exactly one share. -/
  partition : ∀ i x, x < a.size i → ∃! j, InShare (shares i) x j
  /-- Channel `id` is handed the sub-writes the sends put on it, in order. -/
  handed : ∀ id < ch.numUriPlan, (uri_plans.filter (·.id == id)).flatMap (·.wrts) =
    (List.finRange a.num_sends).filterMap (subWriteOn mpi ch a shares id)
  /-- There is at most one call for a channel, and it is a channel of the plan. -/
  ids : (uri_plans.map (·.id)).Pairwise (· < ·) ∧ ∀ p ∈ uri_plans, p.id < ch.numUriPlan
  /-- The call goes to the channel its index stands for. -/
  channel : ∀ p ∈ uri_plans, p.uri_channel = ch.planChannel p.id ∧ p.once_now = a.once_now
  /-- The entries used are the first ones of arrays of length `num_sends`. -/
  slots : ∀ p ∈ uri_plans, 0 < p.wrts.length ∧ p.wrts.length ≤ a.num_sends

/-- The checks a call makes on its sends, and the ranges of the indices it
uses without a check. -/
structure PlanPara.Passes : Prop where
  num_pos : 0 < a.num_sends
  num_lt : a.num_sends < 2 ^ 31
  /-- Without an array of sizes the blocks of a send agree. -/
  blk_size : a.size_arr = none → ∀ i, (a.loc_blk_arr i).size = (a.rmt_blk_arr i).size
  /-- Sizes are `size_t`. -/
  size_lt : ∀ i, a.size i < 2 ^ 64
  loc_rank : ∀ i, a.size i ≠ 0 → (a.loc_blk_arr i).dst_rank = mpi.rank
  rmt_rank : ∀ i, a.size i ≠ 0 →
    0 ≤ (a.rmt_blk_arr i).dst_rank ∧ (a.rmt_blk_arr i).dst_rank < mpi.size
  loc_mem : ∀ i, a.size i ≠ 0 →
    0 ≤ (a.loc_blk_arr i).mem_idx ∧ (a.loc_blk_arr i).mem_idx < ch.loc_mem_arr.length
  rmt_mem : ∀ i, a.size i ≠ 0 → 0 ≤ (a.rmt_blk_arr i).mem_idx ∧
    (a.rmt_blk_arr i).mem_idx <
      (ch.rmt_mem_arr.getD (a.rmt_blk_arr i).dst_rank.toNat []).length
  /-- A local signal belongs to this process, a remote one to the rank of the
  remote block. -/
  loc_sig : ∀ sigs, a.loc_sig_arr = some sigs → ∀ i, a.size i ≠ 0 →
    (sigs i).dst_rank ≠ unrNoSignalDstRank → (sigs i).dst_rank = mpi.rank
  rmt_sig : ∀ sigs, a.rmt_sig_arr = some sigs → ∀ i, a.size i ≠ 0 →
    (sigs i).dst_rank ≠ unrNoSignalDstRank → (sigs i).dst_rank = (a.rmt_blk_arr i).dst_rank

end

/-! ### Channels and their indices -/

theorem channelIndex_eq_some {ch : UnrChannels} {same_node : Bool} {id j : Nat} :
    ch.channelIndex same_node id = some j ↔
      ch.planId same_node j = id ∧ j < (ch.group same_node).num := by
  cases same_node
  · simp only [UnrChannels.channelIndex, UnrChannels.planId, UnrChannels.group,
      Bool.false_eq_true, if_false]
    by_cases h : id < ch.inter.num <;> simp [h] <;> omega
  · simp only [UnrChannels.channelIndex, UnrChannels.planId, UnrChannels.group, if_true]
    by_cases h : ch.inter.num ≤ id ∧ id < ch.inter.num + ch.intra.num <;> simp [h] <;> omega

theorem planChannel_of_channelIndex {ch : UnrChannels} {same_node : Bool} {id j : Nat}
    (h : ch.channelIndex same_node id = some j) :
    ch.planChannel id = (ch.group same_node).channels.getD j 0 := by
  obtain ⟨rfl, hj⟩ := channelIndex_eq_some.mp h
  cases same_node
  · simp only [UnrChannels.planId, UnrChannels.group, Bool.false_eq_true, if_false] at hj ⊢
    simp [UnrChannels.planChannel, hj]
  · simp [UnrChannels.planId, UnrChannels.group, UnrChannels.planChannel]

section

variable {mpi : UruMpi} {ch : UnrChannels} {a : PlanPara} {b_inter b_intra : Nat}

theorem UnrChannels.Accepted.group_accepted (hch : ch.Accepted b_inter b_intra)
    (same_node : Bool) :
    (ch.group same_node).Accepted (if same_node then b_intra else b_inter) := by
  cases same_node
  · exact hch.inter
  · exact hch.intra

theorem UnrChannels.Accepted.numUriPlan_eq (hch : ch.Accepted b_inter b_intra) :
    ch.numUriPlan = ch.inter.num + ch.intra.num :=
  Nat.mod_eq_of_lt hch.num_lt

theorem UnrChannels.Accepted.planId_lt (hch : ch.Accepted b_inter b_intra) {same_node : Bool}
    {j : Nat} (hj : j < (ch.group same_node).num) : ch.planId same_node j < ch.numUriPlan := by
  rw [hch.numUriPlan_eq]
  cases same_node <;> simp [UnrChannels.planId, UnrChannels.group] at hj ⊢ <;> omega

theorem UnrChannels.Accepted.group_le (hch : ch.Accepted b_inter b_intra) (same_node : Bool) :
    (ch.group same_node).num ≤ ch.numUriPlan := by
  rw [hch.numUriPlan_eq]
  cases same_node <;> simp [UnrChannels.group]

theorem subWriteOn_eq_none {shares : Fin a.num_sends → List Nat} {i : Fin a.num_sends}
    (hsum : (shares i).sum = 0) (id : Nat) : subWriteOn mpi ch a shares id i = none := by
  unfold subWriteOn
  split
  · rename_i j _
    have hzero : (shares i).getD j 0 = 0 := by
      by_cases hj : j < (shares i).length
      · have hle := List.le_sum_of_mem (List.getElem_mem hj)
        rw [List.getD, List.getElem?_eq_getElem hj, Option.getD_some]
        omega
      · rw [List.getD, List.getElem?_eq_none (not_lt.mp hj), Option.getD_none]
    rw [if_pos hzero]
  · rfl

/-! ### The columns

The state of the loops is described by the sub-writes written to every column
so far. -/

/-- What every turn of the loops preserves, `wrote id` being the sub-writes in
column `id`. -/
structure PlanInv (ch : UnrChannels) (n : Nat) (wrote : Nat → List SubWrite) (s : PlanState) :
    Prop where
  size_length : s.div_plan_wrt_size.length = ch.numUriPlan
  offset_length : s.div_plan_wrt_offset.length = ch.numUriPlan
  /-- The entry that is never written is still zero. -/
  offset_zero : s.div_plan_wrt_offset.getD 0 0 = 0
  cursor : ∀ same_node, s.nextChannelId same_node < (ch.group same_node).num
  /-- The counter of a column is the number of its entries. -/
  num_wrts : ∀ id < ch.numUriPlan, s.uri_plan_num_wrts[id]? = some (wrote id).length
  /-- The written entries come first, the others are untouched. -/
  column : ∀ id < ch.numUriPlan, s.slots[id]? =
    some ((wrote id).map some ++ List.replicate (n - (wrote id).length) none)

theorem planInv_start (hch : ch.Accepted b_inter b_intra) :
    PlanInv ch a.num_sends (fun _ => []) (planStart ch a) where
  size_length := by simp [planStart]
  offset_length := by simp [planStart]
  offset_zero := by simp only [planStart, List.getD, List.getElem?_replicate]; split <;> rfl
  cursor := by
    intro same_node
    cases same_node
    · exact hch.inter.num_pos
    · exact hch.intra.num_pos
  num_wrts := by
    intro id hid
    simp [planStart, hid]
  column := by
    intro id hid
    simp [planStart, hid]

theorem PlanInv.push {n : Nat} {wrote : Nat → List SubWrite} {s : PlanState}
    (h : PlanInv ch n wrote s) {id : Nat} (hid : id < ch.numUriPlan) (w : SubWrite)
    (hroom : (wrote id).length < n) :
    ∃ s', s.push id w = .ok s' ∧
      PlanInv ch n (Function.update wrote id (wrote id ++ [w])) s' ∧
      s'.div_plan_wrt_size = s.div_plan_wrt_size ∧
      s'.div_plan_wrt_offset = s.div_plan_wrt_offset := by
  have hcount := fetch_eq_ok.mpr (h.num_wrts id hid)
  have hcolumn := fetch_eq_ok.mpr (h.column id hid)
  have hlt : ¬¬ (wrote id).length < ((wrote id).map some ++
      List.replicate (n - (wrote id).length) (none : Option SubWrite)).length := by
    simp; omega
  -- the first free slot of the column is the one behind what was written
  have hset : ((wrote id).map some ++ List.replicate (n - (wrote id).length) none).set
      (wrote id).length (some w) = (wrote id ++ [w]).map some ++
        List.replicate (n - (wrote id ++ [w]).length) none := by
    obtain ⟨k, hk⟩ : ∃ k, n - (wrote id).length = k + 1 := ⟨n - (wrote id).length - 1, by omega⟩
    rw [List.set_append_right _ _ (by simp), hk]
    simp only [List.length_map, Nat.sub_self, List.replicate_succ, List.set_cons_zero,
      List.map_append, List.map_cons, List.map_nil, List.append_assoc, List.singleton_append,
      List.length_append, List.length_singleton]
    congr 3
    omega
  refine ⟨{ s with
      uri_plan_num_wrts := s.uri_plan_num_wrts.set id ((wrote id).length + 1)
      slots := s.slots.set id ((wrote id ++ [w]).map some ++
        List.replicate (n - (wrote id ++ [w]).length) none) },
    ?_, ⟨h.size_length, h.offset_length, h.offset_zero, h.cursor, ?_, ?_⟩, rfl, rfl⟩
  · simp only [PlanState.push, hcount, hcolumn, ok_bind, hlt, if_false, hset]
    rfl
  · intro id' hid'
    by_cases hsame : id' = id
    · subst hsame
      have hlen := (List.getElem?_eq_some_iff.mp (h.num_wrts id' hid)).1
      rw [Function.update_self, List.getElem?_set_self hlen, List.length_append,
        List.length_singleton]
    · rw [Function.update_of_ne hsame, List.getElem?_set_ne (Ne.symm hsame)]
      exact h.num_wrts id' hid'
  · intro id' hid'
    by_cases hsame : id' = id
    · subst hsame
      have hlen := (List.getElem?_eq_some_iff.mp (h.column id' hid)).1
      rw [Function.update_self, List.getElem?_set_self hlen]
    · rw [Function.update_of_ne hsame, List.getElem?_set_ne (Ne.symm hsame)]
      exact h.column id' hid'

/-! ### One send -/

theorem flagOf_ok {n : Nat} {sig_arr : Option (Fin n → UnrSig)} {i : Fin n} {dst_rank : Int}
    {blk_flag_p : Option Nat}
    (hsig : ∀ sigs, sig_arr = some sigs → (sigs i).dst_rank ≠ unrNoSignalDstRank →
      (sigs i).dst_rank = dst_rank) :
    flagOf sig_arr i dst_rank blk_flag_p = .ok (chosenFlag sig_arr i blk_flag_p) := by
  cases sig_arr with
  | none => rfl
  | some sigs =>
      by_cases hno : (sigs i).dst_rank = unrNoSignalDstRank
      · simp [flagOf, chosenFlag, hno]
      · have hrank := hsig sigs rfl hno
        simp only [flagOf, chosenFlag]
        rw [if_pos hno, if_pos hno, uruAssert_bind, if_pos hrank]
        rfl

/-- Only the entries of the group matter for the amounts. -/
theorem sigAddArr_take {len n : Nat} {div : List Nat} :
    sigAddArr len n (div.take n) = sigAddArr len n div := by
  have hnz : nonZeros n (div.take n) = nonZeros n div := by
    simp [nonZeros, List.take_take]
  have hfirst : firstPart n (div.take n) = firstPart n div := by
    simp [firstPart, List.take_take]
  unfold sigAddArr
  apply List.map_congr_left
  intro j _
  rw [hnz, hfirst]
  by_cases hj : n ≤ j
  · simp [hj]
  · have hget : (div.take n).getD j 0 = div.getD j 0 := by
      simp [List.getD, not_le.mp hj]
    rw [hget]

/-- A group's part of `planPart`: the share of channel `j` becomes the entry
described by `partWrite`. -/
theorem planPart_eq {s : PlanState} {i : Fin a.num_sends} {j : Nat} {div : List Nat}
    (hpass : a.Passes mpi ch) (hch : ch.Accepted b_inter b_intra)
    (hsize : a.size i ≠ 0) (hj : j < (ch.group (a.sameNode mpi i)).num)
    (hdiv : s.div_plan_wrt_size = div)
    (hoff : s.div_plan_wrt_offset.getD j 0 =
      displacement (div.take (ch.group (a.sameNode mpi i)).num) j) :
    planPart mpi ch a (a.sameNode mpi i) (a.locMem ch i) (a.rmtMem ch i)
        (sigAddArr ch.numUriPlan (ch.group (a.sameNode mpi i)).num div) i s j =
      if div.getD j 0 = 0 then .ok s
      else s.push (ch.planId (a.sameNode mpi i) j)
        (partWrite mpi ch a (div.take (ch.group (a.sameNode mpi i)).num) i j) := by
  have hoffset : fetch (ch.group (a.sameNode mpi i)).uri_mem_h_offset j =
      .ok ((ch.group (a.sameNode mpi i)).uri_mem_h_offset.getD j 0) := by
    have hlen := (hch.group_accepted (a.sameNode mpi i)).offset_length
    rw [fetch_of_lt (by omega), List.getD, List.getElem?_eq_getElem (by omega), Option.getD_some]
  have hget : (div.take (ch.group (a.sameNode mpi i)).num).getD j 0 = div.getD j 0 := by
    simp [List.getD, hj]
  by_cases hzero : div.getD j 0 = 0
  · rw [if_pos hzero]
    simp only [planPart, hdiv, hzero, if_true]
    rfl
  · rw [if_neg hzero]
    simp only [planPart, hdiv, hzero, if_false, hoffset, hoff, ok_bind,
      flagOf_ok fun sigs h => hpass.loc_sig sigs h i hsize,
      flagOf_ok fun sigs h => hpass.rmt_sig sigs h i hsize, partWrite, sigAddArr_take, hget]

/-- What a send adds to column `id` by the turns before `m` of its last loop. -/
def addedBefore (mpi : UruMpi) (ch : UnrChannels) (a : PlanPara) (shares : List Nat)
    (i : Fin a.num_sends) (m id : Nat) : List SubWrite :=
  match ch.channelIndex (a.sameNode mpi i) id with
  | some j => if j < m ∧ shares.getD j 0 ≠ 0 then [partWrite mpi ch a shares i j] else []
  | none => []

theorem addedBefore_succ {shares : List Nat} {i : Fin a.num_sends} {m : Nat}
    (hm : m < (ch.group (a.sameNode mpi i)).num) (id : Nat) :
    addedBefore mpi ch a shares i (m + 1) id = addedBefore mpi ch a shares i m id ++
      if id = ch.planId (a.sameNode mpi i) m ∧ shares.getD m 0 ≠ 0 then
        [partWrite mpi ch a shares i m]
      else [] := by
  unfold addedBefore
  cases hindex : ch.channelIndex (a.sameNode mpi i) id with
  | none =>
      have hne : id ≠ ch.planId (a.sameNode mpi i) m := by
        rintro rfl
        rw [channelIndex_eq_some.mpr ⟨rfl, hm⟩] at hindex
        cases hindex
      simp [hne]
  | some j =>
      obtain ⟨hid, -⟩ := channelIndex_eq_some.mp hindex
      by_cases hjm : j = m
      · subst hjm
        simp [hid]
      · have hne : id ≠ ch.planId (a.sameNode mpi i) m := by
          rintro rfl
          rw [channelIndex_eq_some.mpr ⟨rfl, hm⟩] at hindex
          exact hjm (Option.some.inj hindex).symm
        have hlt : j < m + 1 ↔ j < m := by omega
        simp [hne, hlt]

/-- All turns together add the one sub-write the send puts on the channel. -/
theorem addedBefore_num (shares : Fin a.num_sends → List Nat) (i : Fin a.num_sends) (id : Nat) :
    addedBefore mpi ch a (shares i) i (ch.group (a.sameNode mpi i)).num id =
      (subWriteOn mpi ch a shares id i).toList := by
  unfold addedBefore subWriteOn
  cases hindex : ch.channelIndex (a.sameNode mpi i) id with
  | none => rfl
  | some j =>
      obtain ⟨-, hj⟩ := channelIndex_eq_some.mp hindex
      dsimp only
      by_cases hzero : (shares i).getD j 0 = 0
      · rw [if_neg fun h => h.2 hzero, if_pos hzero]
        rfl
      · rw [if_pos ⟨hj, hzero⟩, if_neg hzero]
        rfl

theorem planParts_ok {n : Nat} {wrote : Nat → List SubWrite} {s : PlanState}
    {i : Fin a.num_sends} {div : List Nat} (hpass : a.Passes mpi ch)
    (hch : ch.Accepted b_inter b_intra) (hsize : a.size i ≠ 0) (hinv : PlanInv ch n wrote s)
    (hdiv : s.div_plan_wrt_size = div)
    (hoff : ∀ j < (ch.group (a.sameNode mpi i)).num, s.div_plan_wrt_offset.getD j 0 =
      displacement (div.take (ch.group (a.sameNode mpi i)).num) j)
    (hroom : ∀ id, (wrote id).length < n) :
    ∃ s', (List.range (ch.group (a.sameNode mpi i)).num).foldlM
        (planPart mpi ch a (a.sameNode mpi i) (a.locMem ch i) (a.rmtMem ch i)
          (sigAddArr ch.numUriPlan (ch.group (a.sameNode mpi i)).num div) i) s = .ok s' ∧
      PlanInv ch n (fun id => wrote id ++ addedBefore mpi ch a
        (div.take (ch.group (a.sameNode mpi i)).num) i
        (ch.group (a.sameNode mpi i)).num id) s' := by
  set num := (ch.group (a.sameNode mpi i)).num with hnum
  -- a turn leaves the two scratch arrays alone
  let P (m : Nat) (t : PlanState) : Prop :=
    PlanInv ch n (fun id => wrote id ++ addedBefore mpi ch a (div.take num) i m id) t ∧
      t.div_plan_wrt_size = s.div_plan_wrt_size ∧ t.div_plan_wrt_offset = s.div_plan_wrt_offset
  have hstart : P 0 s := by
    refine ⟨?_, rfl, rfl⟩
    have hnone : ∀ id, addedBefore mpi ch a (div.take num) i 0 id = [] := by
      intro id
      unfold addedBefore
      split <;> simp
    simpa only [hnone, List.append_nil] using hinv
  have hstep : ∀ m t, m < num → P m t → ∃ t', planPart mpi ch a (a.sameNode mpi i)
      (a.locMem ch i) (a.rmtMem ch i) (sigAddArr ch.numUriPlan num div) i t m = .ok t' ∧
      P (m + 1) t' := by
    rintro m t hm ⟨hcols, hsz, hof⟩
    rw [planPart_eq hpass hch hsize hm (hsz.trans hdiv) (by rw [hof]; exact hoff m hm)]
    have hget : (div.take num).getD m 0 = div.getD m 0 := by simp [List.getD, hm]
    -- a channel without a share is skipped
    by_cases hzero : div.getD m 0 = 0
    · refine ⟨t, if_pos hzero, ?_, hsz, hof⟩
      have hsame : ∀ id, addedBefore mpi ch a (div.take num) i (m + 1) id =
          addedBefore mpi ch a (div.take num) i m id := by
        intro id
        rw [addedBefore_succ hm, hget, if_neg fun h => h.2 hzero, List.append_nil]
      simpa only [hsame] using hcols
    · rw [if_neg hzero]
      -- each channel has its turn once
      have hempty : addedBefore mpi ch a (div.take num) i m
          (ch.planId (a.sameNode mpi i) m) = [] := by
        unfold addedBefore
        rw [channelIndex_eq_some.mpr ⟨rfl, hm⟩]
        simp
      obtain ⟨t', hpush, hcols', hsz', hof'⟩ := hcols.push (hch.planId_lt hm)
        (partWrite mpi ch a (div.take num) i m)
        (by simpa only [hempty, List.append_nil] using hroom (ch.planId (a.sameNode mpi i) m))
      refine ⟨t', hpush, ?_, hsz'.trans hsz, hof'.trans hof⟩
      convert hcols' using 1
      funext id
      rw [addedBefore_succ hm, hget]
      by_cases hid : id = ch.planId (a.sameNode mpi i) m
      · subst hid
        rw [if_pos ⟨rfl, hzero⟩, Function.update_self, List.append_assoc]
      · rw [if_neg fun h => hid h.1, Function.update_of_ne hid, List.append_nil]
  obtain ⟨s', hrun, hcols, -, -⟩ := foldlM_range_ok hstep hstart
  exact ⟨s', hrun, hcols⟩

theorem getElem?_eq_getD {α : Type} {xs : List α} {k : Nat} {d : α} (h : k < xs.length) :
    xs[k]? = some (xs.getD k d) := by
  rw [List.getD, List.getElem?_eq_getElem h, Option.getD_some]

theorem planSend_zero {s : PlanState} {i : Fin a.num_sends} (hsize : a.size i = 0) :
    planSend mpi ch a s i = .ok s := by
  simp only [planSend, hsize, if_true]
  rfl

/-- A send that passes its checks: the shares the division leaves in the
scratch array describe what is written. -/
theorem planSend_ok {n : Nat} {wrote : Nat → List SubWrite} {s : PlanState}
    {i : Fin a.num_sends} (hpass : a.Passes mpi ch) (hch : ch.Accepted b_inter b_intra)
    (hranks : ch.rmt_mem_arr.length = mpi.size) (hsize : a.size i ≠ 0)
    (hinv : PlanInv ch n wrote s) (hroom : ∀ id, (wrote id).length < n) :
    ∃ shares s', SharesOf (ch.group (a.sameNode mpi i)) (a.size i) shares ∧
      planSend mpi ch a s i = .ok s' ∧
      PlanInv ch n (fun id => wrote id ++ addedBefore mpi ch a shares i
        (ch.group (a.sameNode mpi i)).num id) s' := by
  obtain ⟨hrank, hrank'⟩ := hpass.rmt_rank i hsize
  obtain ⟨hloc, hloc'⟩ := hpass.loc_mem i hsize
  obtain ⟨hrmt, hrmt'⟩ := hpass.rmt_mem i hsize
  have hgroup := hch.group_accepted (a.sameNode mpi i)
  have hsame : fetchAt mpi.same_node (a.rmt_blk_arr i).dst_rank = .ok (a.sameNode mpi i) := by
    have hlen := mpi.same_node_length
    rw [fetchAt, if_neg (by omega), fetch_eq_ok]
    exact getElem?_eq_getD (by omega)
  have hmems : fetchAt ch.rmt_mem_arr (a.rmt_blk_arr i).dst_rank =
      .ok (ch.rmt_mem_arr.getD (a.rmt_blk_arr i).dst_rank.toNat []) := by
    rw [fetchAt, if_neg (by omega), fetch_eq_ok]
    exact getElem?_eq_getD (by omega)
  have hlocMem : fetchAt ch.loc_mem_arr (a.loc_blk_arr i).mem_idx = .ok (a.locMem ch i) := by
    rw [fetchAt, if_neg (by omega), fetch_eq_ok]
    exact getElem?_eq_getD (by omega)
  have hrmtMem : fetchAt (ch.rmt_mem_arr.getD (a.rmt_blk_arr i).dst_rank.toNat [])
      (a.rmt_blk_arr i).mem_idx = .ok (a.rmtMem ch i) := by
    rw [fetchAt, if_neg (by omega), fetch_eq_ok]
    exact getElem?_eq_getD (by omega)
  obtain ⟨div, cursor, hdiv, hsplit, hcursor⟩ := divPlanWrtSize_spec hgroup (hpass.size_lt i)
    (hinv.cursor (a.sameNode mpi i)) (by rw [hinv.size_length]; exact hch.group_le _)
  have hdivlen : div.length = ch.numUriPlan := hsplit.length.trans hinv.size_length
  obtain ⟨hofflen, hoffzero, hoff⟩ := divPlanWrtOffset_spec hinv.offset_zero
    (by rw [hinv.offset_length]; exact hch.group_le (a.sameNode mpi i)) hsplit.room
    (by rw [hsplit.sum]; exact hpass.size_lt i)
  -- the state in which the last inner loop starts
  have hmid : PlanInv ch n wrote { s.setNextChannelId (a.sameNode mpi i) cursor with
      div_plan_wrt_size := div
      div_plan_wrt_offset := divPlanWrtOffset (ch.group (a.sameNode mpi i)).num div
        s.div_plan_wrt_offset } := by
    refine ⟨hdivlen, hofflen.trans hinv.offset_length, hoffzero, ?_, ?_, ?_⟩
    · intro b
      have hb := hinv.cursor b
      cases hs : a.sameNode mpi i <;> rw [hs] at hcursor <;> cases b <;>
        simp [PlanState.nextChannelId, PlanState.setNextChannelId] at hb ⊢ <;> assumption
    · intro id hid
      have hcount := hinv.num_wrts id hid
      cases hs : a.sameNode mpi i <;> exact hcount
    · intro id hid
      have hcolumn := hinv.column id hid
      cases hs : a.sameNode mpi i <;> exact hcolumn
  obtain ⟨s', hparts, hcols⟩ := planParts_ok hpass hch hsize hmid rfl hoff hroom
  refine ⟨div.take (ch.group (a.sameNode mpi i)).num, s', ?_, ?_, hcols⟩
  · exact sharesOf_divPlanWrtSize hgroup (hpass.size_lt i) (hinv.cursor _) hdiv hsplit
  · simp only [planSend, if_neg hsize, uruAssert_bind, if_pos (hpass.loc_rank i hsize),
      if_pos hrank', if_pos hloc', hmems, ok_bind, if_neg (not_le.mpr hrmt'), hsame, hdiv,
      hlocMem, hrmtMem]
    exact hparts

/-! ### All sends -/

structure SendsInv (mpi : UruMpi) (ch : UnrChannels) (a : PlanPara)
    (shares : Fin a.num_sends → List Nat) (visited : List (Fin a.num_sends)) (s : PlanState) :
    Prop where
  share : ∀ i ∈ visited, SharesOf (ch.group (a.sameNode mpi i)) (a.size i) (shares i)
  columns : PlanInv ch a.num_sends
    (fun id => visited.filterMap (subWriteOn mpi ch a shares id)) s

theorem filterMap_update {shares : Fin a.num_sends → List Nat} {visited : List (Fin a.num_sends)}
    {i : Fin a.num_sends} (hi : i ∉ visited) (share : List Nat) (id : Nat) :
    visited.filterMap (subWriteOn mpi ch a (Function.update shares i share) id) =
      visited.filterMap (subWriteOn mpi ch a shares id) := by
  apply List.filterMap_congr
  intro k hk
  have hne : k ≠ i := fun h => hi (h ▸ hk)
  unfold subWriteOn
  rw [Function.update_of_ne hne]

theorem planSends_ok (hpass : a.Passes mpi ch) (hch : ch.Accepted b_inter b_intra)
    (hranks : ch.rmt_mem_arr.length = mpi.size) :
    ∃ s, (List.finRange a.num_sends).foldlM (planSend mpi ch a) (planStart ch a) = .ok s ∧
      ∃ shares, SendsInv mpi ch a shares (List.finRange a.num_sends) s := by
  have hstart : ∃ shares, SendsInv mpi ch a shares [] (planStart ch a) :=
    ⟨fun _ => [], by simp, planInv_start hch⟩
  refine foldlM_ok (P := fun visited s => ∃ shares, SendsInv mpi ch a shares visited s)
    ?_ hstart
  rintro visited i rest s hall ⟨shares, hinv⟩
  have hnodup : (visited ++ i :: rest).Nodup := hall ▸ List.nodup_finRange a.num_sends
  have hnew : i ∉ visited := fun h =>
    (List.nodup_append.mp hnodup).2.2 i h i (by simp) rfl
  have hlen : (visited ++ i :: rest).length = a.num_sends := by
    rw [← hall, List.length_finRange]
  -- a send writes at most once to a column, so every column has room left
  have hroom : ∀ id, (visited.filterMap (subWriteOn mpi ch a shares id)).length < a.num_sends := by
    intro id
    have hle := List.length_filterMap_le (subWriteOn mpi ch a shares id) visited
    simp only [List.length_append, List.length_cons] at hlen
    omega
  obtain ⟨share, s', hshare, hrun, hcols⟩ : ∃ share s',
      SharesOf (ch.group (a.sameNode mpi i)) (a.size i) share ∧
      planSend mpi ch a s i = .ok s' ∧
      PlanInv ch a.num_sends (fun id => visited.filterMap (subWriteOn mpi ch a shares id) ++
        addedBefore mpi ch a share i (ch.group (a.sameNode mpi i)).num id) s' := by
    -- a send of size zero is described by empty shares
    by_cases hsize : a.size i = 0
    · refine ⟨List.replicate (ch.group (a.sameNode mpi i)).num 0, s, ?_,
        planSend_zero hsize, ?_⟩
      · rw [hsize]
        exact sharesOf_zero (hch.group_accepted _)
      have hnone : ∀ id, addedBefore mpi ch a
          (List.replicate (ch.group (a.sameNode mpi i)).num 0) i
          (ch.group (a.sameNode mpi i)).num id = [] := by
        intro id
        have hsum : ((fun _ => List.replicate (ch.group (a.sameNode mpi i)).num 0 :
          Fin a.num_sends → List Nat) i).sum = 0 := by simp
        rw [addedBefore_num fun _ => List.replicate _ 0, subWriteOn_eq_none hsum]
        rfl
      simpa only [hnone, List.append_nil] using hinv.columns
    · exact planSend_ok hpass hch hranks hsize hinv.columns hroom
  refine ⟨s', hrun, Function.update shares i share, ?_, ?_⟩
  · intro k hk
    by_cases hki : k = i
    · subst hki
      rwa [Function.update_self]
    · rw [Function.update_of_ne hki]
      exact hinv.share k (by simpa [hki] using hk)
  · convert hcols using 1
    funext id
    have hadded : addedBefore mpi ch a (Function.update shares i share i) i
        (ch.group (a.sameNode mpi i)).num id = _ :=
      addedBefore_num (Function.update shares i share) i id
    rw [Function.update_self] at hadded
    rw [List.filterMap_append, filterMap_update hnew, hadded]
    cases hwrite : subWriteOn mpi ch a (Function.update shares i share) id i <;>
      simp [hwrite]

/-! ### Handing the columns over -/

theorem planHand_ok {n : Nat} {wrote : Nat → List SubWrite} {s : PlanState}
    (hinv : PlanInv ch n wrote s) {id : Nat} (hid : id < ch.numUriPlan) :
    planHand ch a s id = .ok
      { id := id, uri_channel := ch.planChannel id, once_now := a.once_now,
        wrts := wrote id } := by
  have hread : (List.range (wrote id).length).mapM (readSlot ((wrote id).map some ++
      List.replicate (n - (wrote id).length) none)) = .ok (wrote id) := by
    rw [mapM_ok (g := fun k => (wrote id).getD k ⟨.unknown, ⟨⟨0, 0, 0, 0⟩, 0⟩, 0, none, 0, 0,
      ⟨⟨0, 0, 0, 0⟩, 0⟩, 0, none, 0⟩)]
    · congr 1
      apply List.ext_getElem (by simp)
      intro k h₁ h₂
      simp [List.getD, h₂]
    · intro k hk
      have hlt := List.mem_range.mp hk
      rw [readSlot, List.getElem?_append_left (by simpa using hlt)]
      simp [List.getD, hlt]
  simp only [planHand, fetch_eq_ok.mpr (hinv.column id hid),
    fetch_eq_ok.mpr (hinv.num_wrts id hid), ok_bind, hread]
  rfl

/-- Collecting by channel gives back the column, empty or not. -/
theorem flatMap_filter_hand {used : List Nat} (hand : Nat → UriPlanCreate)
    (hnodup : used.Nodup) (hhand : ∀ id, (hand id).id = id) {id : Nat}
    (hempty : id ∉ used → (hand id).wrts = []) :
    ((used.map hand).filter (·.id == id)).flatMap (·.wrts) = (hand id).wrts := by
  have hfilter : (used.map hand).filter (·.id == id) =
      (List.replicate (used.count id) id).map hand := by
    rw [List.filter_map, ← List.filter_beq]
    congr 2
    funext k
    simp [hhand]
  rw [hfilter]
  by_cases hmem : id ∈ used
  · rw [List.count_eq_one_of_mem hnodup hmem]
    simp
  · rw [List.count_eq_zero_of_not_mem hmem, hempty hmem]
    rfl

/-- Sends that pass the checks are decomposed exactly, whatever the state the
scratch arrays pass through. -/
theorem planNow_ok (hpass : a.Passes mpi ch) (hch : ch.Accepted b_inter b_intra)
    (hranks : ch.rmt_mem_arr.length = mpi.size) :
    ∃ shares uri_plans, planNow mpi ch a = .ok uri_plans ∧
      Decomposes mpi ch a shares uri_plans ∧
      ∀ i, SharesOf (ch.group (a.sameNode mpi i)) (a.size i) (shares i) := by
  obtain ⟨s, hrun, shares, hinv⟩ := planSends_ok hpass hch hranks
  set wrote : Nat → List SubWrite := fun id =>
    (List.finRange a.num_sends).filterMap (subWriteOn mpi ch a shares id) with hwrote
  set used := (List.range ch.numUriPlan).filter
    fun id => s.uri_plan_num_wrts.getD id 0 ≠ 0 with hused
  let hand : Nat → UriPlanCreate := fun id =>
    { id := id, uri_channel := ch.planChannel id, once_now := a.once_now, wrts := wrote id }
  have hcount : ∀ id < ch.numUriPlan, s.uri_plan_num_wrts.getD id 0 = (wrote id).length := by
    intro id hid
    rw [List.getD, hinv.columns.num_wrts id hid, Option.getD_some]
  -- the columns handed over are those that are not empty
  have hmem : ∀ id, id ∈ used ↔ id < ch.numUriPlan ∧ wrote id ≠ [] := by
    intro id
    rw [hused, List.mem_filter, List.mem_range]
    refine and_congr_right fun hid => ?_
    rw [hcount id hid]
    simp
  have hmap : used.mapM (planHand ch a s) = .ok (used.map hand) :=
    mapM_ok fun id hid => planHand_ok hinv.columns ((hmem id).mp hid).1
  have hshare : ∀ i, SharesOf (ch.group (a.sameNode mpi i)) (a.size i) (shares i) :=
    fun i => hinv.share i (List.mem_finRange i)
  refine ⟨shares, used.map hand, ?_, ?_, hshare⟩
  · have hlt := hpass.num_lt
    simp only [planNow, uruAssert_bind, if_pos hpass.num_pos, if_neg (not_le.mpr hlt)]
    rw [hrun]
    simp only [ok_bind]
    rw [← hused, hmap]
    by_cases hnone : a.size_arr.isNone
    · rw [if_pos hnone, if_pos (hpass.blk_size (Option.isNone_iff_eq_none.mp hnone))]
    · rw [if_neg hnone]
  · refine ⟨fun i => (hshare i).length, fun i => (hshare i).total, ?_, ?_, ?_, ?_, ?_⟩
    · intro i x hx
      exact existsUnique_inShare (by rwa [(hshare i).total])
    · intro id hid
      refine flatMap_filter_hand hand (List.nodup_range.filter _) (fun _ => rfl) ?_
      intro hunused
      by_contra hne
      exact hunused ((hmem id).mpr ⟨hid, hne⟩)
    · have hids : (used.map hand).map (·.id) = used := by
        rw [List.map_map]
        exact List.map_id used
      refine ⟨by rw [hids]; exact List.pairwise_lt_range.filter _, ?_⟩
      rintro p hp
      obtain ⟨id, hid, rfl⟩ := List.mem_map.mp hp
      exact ((hmem id).mp hid).1
    · rintro p hp
      obtain ⟨id, -, rfl⟩ := List.mem_map.mp hp
      exact ⟨rfl, rfl⟩
    · rintro p hp
      obtain ⟨id, hid, rfl⟩ := List.mem_map.mp hp
      refine ⟨List.length_pos_iff.mpr ((hmem id).mp hid).2, ?_⟩
      have hle := List.length_filterMap_le (subWriteOn mpi ch a shares id)
        (List.finRange a.num_sends)
      rwa [List.length_finRange] at hle

/-- The sub-write that send `i` puts on a channel belongs to the group of the
remote rank, and takes its handles from the place of that very channel. -/
theorem subWriteOn_channel {shares : Fin a.num_sends → List Nat} {id : Nat}
    {i : Fin a.num_sends} {w : SubWrite} (hw : subWriteOn mpi ch a shares id i = some w) :
    ∃ j < (ch.group (a.sameNode mpi i)).num,
      ch.planChannel id = (ch.group (a.sameNode mpi i)).channels.getD j 0 ∧
      w = partWrite mpi ch a (shares i) i j := by
  unfold subWriteOn at hw
  cases hindex : ch.channelIndex (a.sameNode mpi i) id with
  | none =>
      rw [hindex] at hw
      cases hw
  | some j =>
      rw [hindex] at hw
      dsimp only at hw
      split at hw
      · cases hw
      · exact ⟨j, (channelIndex_eq_some.mp hindex).2, planChannel_of_channelIndex hindex,
          (Option.some.inj hw).symm⟩

end

/-- A plan of sends that pass the checks, on any configuration `unr_init` has
accepted: called at once or through a plan that was saved for later,
`unr_rdma_plan_create` hands over the exact decomposition of the sends. -/
theorem plan_exact {t : ChannelTable} {inter_channels intra_channels : List Nat}
    {ch₀ : UnrChannels} (hinit : unrInit t inter_channels intra_channels = .ok ch₀)
    (loc_mem_arr : List UnrMem) (rmt_mem_arr : List (List UnrMem)) (mpi : UruMpi)
    (hranks : rmt_mem_arr.length = mpi.size) (a : PlanPara)
    (hpass : a.Passes mpi
      { ch₀ with loc_mem_arr := loc_mem_arr, rmt_mem_arr := rmt_mem_arr }) :
    let ch := { ch₀ with loc_mem_arr := loc_mem_arr, rmt_mem_arr := rmt_mem_arr }
    ∃ shares uri_plans, Decomposes mpi ch a shares uri_plans ∧
      (∀ i id w, subWriteOn mpi ch a shares id i = some w →
        ∃ j < (ch.group (a.sameNode mpi i)).num,
          ch.planChannel id = (ch.group (a.sameNode mpi i)).channels.getD j 0 ∧
          w = partWrite mpi ch a (shares i) i j) ∧
      (∀ i id, a.size i = 0 → subWriteOn mpi ch a shares id i = none) ∧
      (∀ a₀, unrRdmaPlanCreate mpi ch a₀ (some a) = .ok (.created uri_plans)) ∧
      (memSynced ch a = .ok true →
        unrRdmaPlanCreate mpi ch a none = .ok (.created uri_plans)) := by
  intro ch
  obtain ⟨b_inter, b_intra, hinter, hintra, hnum⟩ := unrInit_accepted hinit
  have hch : ch.Accepted b_inter b_intra := ⟨hinter, hintra, hnum⟩
  have hchecks : a.Passes mpi ch := hpass
  obtain ⟨shares, uri_plans, hrun, hdecomposes, -⟩ := planNow_ok hchecks hch hranks
  refine ⟨shares, uri_plans, hdecomposes, fun i id w => subWriteOn_channel, ?_, ?_, ?_⟩
  · intro i id hsize
    exact subWriteOn_eq_none (by rw [hdecomposes.total i, hsize]) id
  · intro a₀
    simp only [unrRdmaPlanCreate, hrun, ok_bind]
    rfl
  · intro hsynced
    simp only [unrRdmaPlanCreate, hsynced, hrun, ok_bind, if_true]
    rfl

/-! ### A plan over two channels -/

def twoDevices : ChannelTable where
  arr := [⟨.mpi, 4096, 0⟩, ⟨.mpi, 4096, 0⟩]
  length_le := by decide
  blocksize_lt := by decide

def rankZero : UruMpi where
  rank := 0
  size := 2
  same_node := [true, false]
  same_node_length := rfl

def region (rank : Nat) : UnrMem := { addr := 65536, size := 16384, rank := rank, idx := 0 }

/-- A put of 10000 bytes to the other node, an empty send, and one to the
process itself. -/
def threeSends : PlanPara where
  once_now := false
  num_sends := 3
  loc_blk_arr := fun _ => ⟨0, 0, 128, 16000, some 1, none⟩
  loc_sig_arr := none
  loc_offset_arr := none
  size_arr := some ![10000, 0, 5000]
  rmt_blk_arr := ![⟨1, 0, 0, 16000, none, some 2⟩, ⟨1, 0, 0, 16000, none, none⟩,
    ⟨0, 0, 0, 16000, none, some 3⟩]
  rmt_sig_arr := none
  rmt_offset_arr := some ![64, 0, 0]
  dma_type_arr := .dmaPutAll

def channelsWith (rmt_mem_arr : List UnrMem) : UnrChannels where
  avail_channels := [0, 1]
  inter := ⟨[0, 1], [24, 24], [4096, 4096], 8192⟩
  intra := ⟨[0, 1], [24, 24], [4096, 4096], 8192⟩
  intra_channel_reuse := [some 0, some 1]
  unr_mem_t_size := 24
  loc_mem_arr := [region 0]
  rmt_mem_arr := [[region 0], rmt_mem_arr]

theorem plan_exact_threeSends :
    ∃ ch₀ uri_plans, unrInit twoDevices [0, 1] [0, 1] = .ok ch₀ ∧
      unrRdmaPlanCreate rankZero
        { ch₀ with loc_mem_arr := [region 0], rmt_mem_arr := [[region 0], [region 1]] }
        threeSends none = .ok (.created uri_plans) := by
  obtain ⟨ch₀, hinit⟩ : ∃ ch₀, unrInit twoDevices [0, 1] [0, 1] = .ok ch₀ := ⟨_, rfl⟩
  obtain ⟨shares, uri_plans, -, -, -, -, hrun⟩ := plan_exact hinit [region 0]
    [[region 0], [region 1]] rankZero rfl threeSends
    { num_pos := by decide
      num_lt := by decide
      blk_size := by intro h; cases h
      size_lt := by decide
      loc_rank := by decide
      rmt_rank := by decide
      loc_mem := by dsimp only; decide
      rmt_mem := by dsimp only; decide
      loc_sig := by intro sigs h; cases h
      rmt_sig := by intro sigs h; cases h }
  exact ⟨ch₀, uri_plans, hinit, hrun rfl⟩

end Unr.Core
