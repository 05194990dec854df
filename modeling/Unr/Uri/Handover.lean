import Unr.Core.PlanChecks
import Unr.Verbs.Plan

/-!
From the sub-writes of `unr_rdma_plan_create` to the writes a channel gets.

A sub-write names a region by the place of the channel's handle behind the
descriptor. `uri_mem_get_info` steps back from there by the offset the channel
was opened with. What follows says that this leads to the descriptor for every
channel of an accepted configuration, whichever of the two lists it is in, and
what the two kinds of channels check when they are handed a write.
-/

namespace Unr.Uri

open Unr.Uru Unr.Core Unr.Logic
open Unr.Mpi (MemInfo Write)

/-- `channel_p->mem_h_offset`: a channel is opened once, as an inter-node
channel if it is one. -/
def memHOffset (ch : UnrChannels) (c : Nat) : Nat :=
  match ch.inter.channels.findIdx? (· == c) with
  | some j => ch.inter.uri_mem_h_offset.getD j 0
  | none =>
      match ch.intra.channels.findIdx? (· == c) with
      | some j => ch.intra.uri_mem_h_offset.getD j 0
      | none => 0

/-- `uri_mem_get_info`. Away from the descriptor it reads other memory. -/
def uriMemGetInfo (mem_h_offset : Nat) (mem : UriMem) : Prog MemInfo :=
  if mem.offset = mem_h_offset then
    .ok ⟨mem.unr_mem.addr, mem.unr_mem.size, mem.unr_mem.rank⟩
  else .error .undefined

/-- What a channel with the given offset finds in entry `w` of its arrays. -/
def entryOf (mem_h_offset : Nat) (w : SubWrite) : Prog Write := do
  let loc_mem ← uriMemGetInfo mem_h_offset w.loc_uri_mem
  let rmt_mem ← uriMemGetInfo mem_h_offset w.rmt_uri_mem
  return {
    dma_type := w.part_dma_type
    loc_mem := loc_mem
    loc_offset := w.loc_uri_offset
    loc_flag_p := w.loc_flag_p
    loc_flag_add := w.loc_flag_add
    dma_size := w.part_size
    rmt_mem := rmt_mem
    rmt_offset := w.rmt_uri_offset
    rmt_flag_p := w.rmt_flag_p
    rmt_flag_add := w.rmt_flag_add }

def channelCheck (mpi_size rank : Nat) (flag_pool : Verbs.FlagPool)
    (lkey rkey : MemInfo → BitVec 32) (type : ChannelType) (w : Write) : Prog Unit :=
  match type with
  | .mpi => w.check mpi_size rank
  | .verbs => do
      let _ ← Verbs.planWr mpi_size flag_pool lkey rkey w
      return ()

section

variable (t : ChannelTable) (mpi : UruMpi) (ch : UnrChannels) (flag_pool : Verbs.FlagPool)
  (lkey rkey : MemInfo → BitVec 32)

def handChecks (p : UriPlanCreate) : Prog Unit :=
  p.wrts.forM fun w => do
    let e ← entryOf (memHOffset ch p.uri_channel) w
    channelCheck mpi.size mpi.rank.toNat flag_pool lkey rkey (t.attr p.uri_channel).type e

/-- The creation of a plan through both layers, up to the effects of the
channels. -/
def planCreate (a : PlanPara) : Prog (List UriPlanCreate) := do
  let uri_plans ← planNow mpi ch a
  uri_plans.forM (handChecks t mpi ch flag_pool lkey rkey)
  return uri_plans

end

theorem forM_eq_ok {α : Type} {xs : List α} {f : α → Prog Unit} :
    xs.forM f = .ok () ↔ ∀ x ∈ xs, f x = .ok () := by
  induction xs with
  | nil => simp [List.forM]
  | cons x xs ih =>
      rw [show (x :: xs).forM f = f x >>= fun _ => xs.forM f from rfl, bind_eq_ok]
      constructor
      · rintro ⟨⟨⟩, hx, hxs⟩ y hy
        rcases List.mem_cons.mp hy with rfl | hy
        · exact hx
        · exact ih.mp hxs y hy
      · intro hall
        exact ⟨(), hall x (by simp), ih.mpr fun y hy => hall y (by simp [hy])⟩

/-! ### The two lists of channels -/

theorem findIdx?_getD {xs : List Nat} (hnodup : xs.Nodup) {j : Nat} (hj : j < xs.length) :
    xs.findIdx? (· == xs.getD j 0) = some j := by
  have hget : xs.getD j 0 = xs[j] := List.getD_eq_getElem _ _ hj
  rw [hget, List.findIdx?_eq_some_iff_getElem]
  refine ⟨hj, by simp, fun k hk => ?_⟩
  have hne : xs[k] ≠ xs[j] := fun heq => hk.ne ((List.Nodup.getElem_inj_iff hnodup).mp heq)
  simpa using hne

theorem layoutOffsets_reused {t : ChannelTable} {inter_offset : List Nat}
    {cs : List (Nat × Option Nat)} {n k c j : Nat} (hk : cs[k]? = some (c, some j)) :
    (layoutOffsets t inter_offset cs n).1.getD k 0 = inter_offset.getD j 0 := by
  induction cs generalizing n k with
  | nil => simp at hk
  | cons x rest ih =>
      cases k with
      | zero =>
          cases Option.some.inj hk
          rfl
      | succ k =>
          rw [List.getElem?_cons_succ] at hk
          obtain ⟨c', _ | j'⟩ := x
          · exact ih hk
          · exact ih hk

structure Laid (t : ChannelTable) (ch : UnrChannels) : Prop where
  inter_nodup : ch.inter.channels.Nodup
  intra_nodup : ch.intra.channels.Nodup
  reused : ∀ j < ch.intra.num, ∀ k,
    ch.inter.channels.findIdx? (· == ch.intra.channels.getD j 0) = some k →
    ch.intra.uri_mem_h_offset.getD j 0 = ch.inter.uri_mem_h_offset.getD k 0
  /-- The channels of a list have one type. -/
  type : ∀ same_node, ∀ j < (ch.group same_node).num,
    (t.attr ((ch.group same_node).channels.getD j 0)).type =
      (t.attr ((ch.group same_node).channels.headD 0)).type

/-- The checks on one list that concern the types. -/
theorem checkGroup_type {t : ChannelTable} {channels offsets : List Nat} {g : ChannelGroup}
    (hg : checkGroup t channels offsets = .ok g) :
    g.channels = channels ∧ g.uri_mem_h_offset = offsets ∧ ∀ j < g.num,
      (t.attr (g.channels.getD j 0)).type = (t.attr (g.channels.headD 0)).type := by
  simp only [checkGroup, bind_eq_ok, uruAssert_eq_ok, pure_eq_ok] at hg
  obtain ⟨-, -, -, -, -, htype, rfl⟩ := hg
  refine ⟨rfl, rfl, fun j hj => ?_⟩
  dsimp only [ChannelGroup.num] at hj ⊢
  cases channels with
  | nil => cases hj
  | cons c cs =>
      cases j with
      | zero => rfl
      | succ j =>
          have hlt : j < cs.length := by simpa using hj
          have hmem : (c :: cs).getD (j + 1) 0 ∈ (c :: cs).tail := by
            simp [List.getD, hlt]
          exact htype _ hmem

theorem laid_of_unrInit {t : ChannelTable} {inter_channels intra_channels : List Nat}
    {ch : UnrChannels} (h : unrInit t inter_channels intra_channels = .ok ch) : Laid t ch := by
  simp only [unrInit, bind_eq_ok, uruAssert_eq_ok, pure_eq_ok] at h
  obtain ⟨-, -, -, -, -, -, -, -, -, hnodup, -, hnodup', inter, hinter, intra, hintra, rfl⟩ := h
  obtain ⟨hch, hoff, htype⟩ := checkGroup_type hinter
  obtain ⟨hch', hoff', htype'⟩ := checkGroup_type hintra
  refine ⟨by rwa [hch], by rwa [hch'], fun j hj k hk => ?_, fun same_node => ?_⟩
  · dsimp only at hk ⊢
    rw [hoff, hoff']
    rw [ChannelGroup.num, hch'] at hj
    rw [hch, hch'] at hk
    refine layoutOffsets_reused (c := intra_channels.getD j 0) ?_
    rw [List.getElem?_zip_eq_some]
    refine ⟨by simp [List.getD, hj], ?_⟩
    rw [List.getElem?_map, List.getElem?_eq_getElem hj, Option.map_some]
    rw [List.getD, List.getElem?_eq_getElem hj, Option.getD_some] at hk
    rw [hk]
  · cases same_node
    · exact htype
    · exact htype'

/-- Only the two lists matter, not the regions registered since. -/
theorem Laid.withMem {t : ChannelTable} {ch : UnrChannels} (h : Laid t ch)
    (loc_mem_arr : List UnrMem) (rmt_mem_arr : List (List UnrMem)) :
    Laid t { ch with loc_mem_arr := loc_mem_arr, rmt_mem_arr := rmt_mem_arr } :=
  ⟨h.inter_nodup, h.intra_nodup, h.reused, h.type⟩

theorem Laid.memHOffset_eq {t : ChannelTable} {ch : UnrChannels} (h : Laid t ch)
    {same_node : Bool} {j : Nat} (hj : j < (ch.group same_node).num) :
    memHOffset ch ((ch.group same_node).channels.getD j 0) =
      (ch.group same_node).uri_mem_h_offset.getD j 0 := by
  unfold memHOffset
  cases same_node with
  | false =>
      have hj' : j < ch.inter.channels.length := hj
      simp only [UnrChannels.group, Bool.false_eq_true, if_false, findIdx?_getD h.inter_nodup hj']
  | true =>
      have hj' : j < ch.intra.channels.length := hj
      simp only [UnrChannels.group, if_true]
      cases hreuse : ch.inter.channels.findIdx? (· == ch.intra.channels.getD j 0) with
      | some k => exact (h.reused j hj' k hreuse).symm
      | none => simp only [findIdx?_getD h.intra_nodup hj']

/-! ### What a channel finds in a part -/

def partEntry (mpi : UruMpi) (ch : UnrChannels) (a : PlanPara) (share : List Nat)
    (i : Fin a.num_sends) (j : Nat) : Write :=
  let w := partWrite mpi ch a share i j
  { dma_type := w.part_dma_type
    loc_mem := ⟨(a.locMem ch i).addr, (a.locMem ch i).size, (a.locMem ch i).rank⟩
    loc_offset := w.loc_uri_offset
    loc_flag_p := w.loc_flag_p
    loc_flag_add := w.loc_flag_add
    dma_size := w.part_size
    rmt_mem := ⟨(a.rmtMem ch i).addr, (a.rmtMem ch i).size, (a.rmtMem ch i).rank⟩
    rmt_offset := w.rmt_uri_offset
    rmt_flag_p := w.rmt_flag_p
    rmt_flag_add := w.rmt_flag_add }

theorem Laid.entryOf_part {t : ChannelTable} {ch : UnrChannels} (h : Laid t ch) {mpi : UruMpi}
    {a : PlanPara} {share : List Nat} {i : Fin a.num_sends} {j : Nat}
    (hj : j < (ch.group (a.sameNode mpi i)).num) :
    entryOf (memHOffset ch ((ch.group (a.sameNode mpi i)).channels.getD j 0))
      (partWrite mpi ch a share i j) = .ok (partEntry mpi ch a share i j) := by
  rw [h.memHOffset_eq hj]
  simp only [entryOf, uriMemGetInfo, partWrite, if_true, ok_bind]
  rfl

/-! ### Where the parts are -/

theorem part_of_handed {mpi : UruMpi} {ch : UnrChannels} {a : PlanPara}
    {shares : Fin a.num_sends → List Nat} {uri_plans : List UriPlanCreate}
    (h : Decomposes mpi ch a shares uri_plans) {p : UriPlanCreate} (hp : p ∈ uri_plans)
    {w : SubWrite} (hw : w ∈ p.wrts) :
    ∃ i, ∃ j < (ch.group (a.sameNode mpi i)).num, (shares i).getD j 0 ≠ 0 ∧
      w = partWrite mpi ch a (shares i) i j ∧
      p.uri_channel = (ch.group (a.sameNode mpi i)).channels.getD j 0 := by
  have hmem : w ∈ (List.finRange a.num_sends).filterMap (subWriteOn mpi ch a shares p.id) := by
    rw [← h.handed p.id (h.ids.2 p hp), List.mem_flatMap]
    exact ⟨p, List.mem_filter.mpr ⟨hp, by simp⟩, hw⟩
  obtain ⟨i, -, hi⟩ := List.mem_filterMap.mp hmem
  unfold subWriteOn at hi
  cases hindex : ch.channelIndex (a.sameNode mpi i) p.id with
  | none =>
      rw [hindex] at hi
      cases hi
  | some j =>
      rw [hindex] at hi
      dsimp only at hi
      split at hi
      · cases hi
      · rename_i hshare
        refine ⟨i, j, (channelIndex_eq_some.mp hindex).2, hshare, (Option.some.inj hi).symm, ?_⟩
        rw [(h.channel p hp).1, planChannel_of_channelIndex hindex]

theorem handed_of_part {mpi : UruMpi} {ch : UnrChannels} {a : PlanPara} {b_inter b_intra : Nat}
    (hch : ch.Accepted b_inter b_intra)
    {shares : Fin a.num_sends → List Nat} {uri_plans : List UriPlanCreate}
    (h : Decomposes mpi ch a shares uri_plans) {i : Fin a.num_sends} {j : Nat}
    (hj : j < (ch.group (a.sameNode mpi i)).num) (hshare : (shares i).getD j 0 ≠ 0) :
    ∃ p ∈ uri_plans, partWrite mpi ch a (shares i) i j ∈ p.wrts ∧
      p.uri_channel = (ch.group (a.sameNode mpi i)).channels.getD j 0 := by
  have hindex : ch.channelIndex (a.sameNode mpi i) (ch.planId (a.sameNode mpi i) j) = some j :=
    channelIndex_eq_some.mpr ⟨rfl, hj⟩
  have hwrite : subWriteOn mpi ch a shares (ch.planId (a.sameNode mpi i) j) i =
      some (partWrite mpi ch a (shares i) i j) := by
    rw [subWriteOn, hindex]
    exact if_neg hshare
  have hmem : partWrite mpi ch a (shares i) i j ∈ (List.finRange a.num_sends).filterMap
      (subWriteOn mpi ch a shares (ch.planId (a.sameNode mpi i) j)) :=
    List.mem_filterMap.mpr ⟨i, List.mem_finRange i, hwrite⟩
  rw [← h.handed _ (hch.planId_lt hj), List.mem_flatMap] at hmem
  obtain ⟨p, hp, hw⟩ := hmem
  obtain ⟨hp, hid⟩ := List.mem_filter.mp hp
  refine ⟨p, hp, hw, ?_⟩
  rw [(h.channel p hp).1, beq_iff_eq.mp hid, planChannel_of_channelIndex hindex]

end Unr.Uri
