import Unr.Core.PlanDual
import Unr.Logic.Copies
import Unr.Mpi.Transfers
import Unr.Uri.Counts

/-!
A put and a get of the same bytes.

The process that has the data may put it, or the process that wants it may get
it. The direction is decided three times on the way: by the layer that chooses
a flag for each side, by the channel of the initiator that chooses the type of
both operations, and by the target, which posts what it is told. What follows
says that the decisions agree, so that the two calls make the same pairs of
operations, whatever their tags and batches are.
-/

namespace Unr.Uri

open Unr.Uru Unr.Core Unr.Logic
open Unr.Mpi (MpiOp Write SortedBy PlanCreated OpData TransferEnd uriMpiRdmaPlanCreate)

/-! ### Plans on MPI channels -/

/-- What a channel is given from elsewhere while it creates a plan: the
numbers its pools return, and the order `qsort` leaves the array in. -/
structure MpiSupply where
  plan : Nat
  tags : Nat → Nat → Nat
  ids : Nat → Nat → Nat
  qsort : List MpiOp → List MpiOp
  sorted : ∀ arr, SortedBy arr (qsort arr)

/-- `uri_rdma_plan_create` on an MPI channel. -/
def mpiHand (mpi : UruMpi) (ch : UnrChannels) (sizeofUriMpiOp : Nat) (supply : Nat → MpiSupply)
    (p : UriPlanCreate) : Prog (Nat × PlanCreated) := do
  let writes ← p.wrts.mapM (entryOf (memHOffset ch p.uri_channel))
  let s := supply p.uri_channel
  let created ← uriMpiRdmaPlanCreate mpi.size mpi.rank.toNat p.once_now s.plan s.tags
    sizeofUriMpiOp s.ids s.qsort writes
  return (p.uri_channel, created)

/-- `unr_rdma_plan_create` down to the MPI channels. A plan that is put off
makes no operations. -/
def mpiPlanCreate (mpi : UruMpi) (ch : UnrChannels) (sizeofUriMpiOp : Nat)
    (supply : Nat → MpiSupply) (a : PlanPara) : Prog (List (Nat × PlanCreated)) := do
  match ← unrRdmaPlanCreate mpi ch a none with
  | .delayed _ => return []
  | .created uri_plans => uri_plans.mapM (mpiHand mpi ch sizeofUriMpiOp supply)

def channelTransfers (rank : Nat) (plans : List (Nat × PlanCreated)) :
    List (Nat × List (TransferEnd × TransferEnd)) :=
  plans.map fun x => (x.1, x.2.transfers rank)

/-! ### The same transfers -/

theorem memHOffset_linked {mpi mpi' : UruMpi} {ch ch' : UnrChannels} {same_node : Bool}
    (h : Linked mpi mpi' ch ch' same_node) (c : Nat) : memHOffset ch' c = memHOffset ch c := by
  rw [memHOffset, memHOffset, h.inter, h.intra]

theorem entryOf_dual (mem_h_offset : Nat) (w : SubWrite) :
    entryOf mem_h_offset w.dual = Write.dual <$> entryOf mem_h_offset w := by
  simp only [entryOf, uriMemGetInfo, SubWrite.dual]
  by_cases hloc : w.loc_uri_mem.offset = mem_h_offset <;>
    by_cases hrmt : w.rmt_uri_mem.offset = mem_h_offset <;> simp only [hloc, hrmt] <;> rfl

section

variable {t : ChannelTable} {mpi mpi' : UruMpi} {ch ch' : UnrChannels} {same_node : Bool}
  {a : PlanPara} {b_inter b_intra sizeofUriMpiOp : Nat} {supply supply' : Nat → MpiSupply}

/-- What `uri_mem_get_info` finds for a sub-write of the channel. -/
def subWriteEntry (w : SubWrite) : Write where
  dma_type := w.part_dma_type
  loc_mem := ⟨w.loc_uri_mem.unr_mem.addr, w.loc_uri_mem.unr_mem.size, w.loc_uri_mem.unr_mem.rank⟩
  loc_offset := w.loc_uri_offset
  loc_flag_p := w.loc_flag_p
  loc_flag_add := w.loc_flag_add
  dma_size := w.part_size
  rmt_mem := ⟨w.rmt_uri_mem.unr_mem.addr, w.rmt_uri_mem.unr_mem.size, w.rmt_uri_mem.unr_mem.rank⟩
  rmt_offset := w.rmt_uri_offset
  rmt_flag_p := w.rmt_flag_p
  rmt_flag_add := w.rmt_flag_add

theorem entries_of_handed (hlaid : Laid t ch) {shares : Fin a.num_sends → List Nat}
    {uri_plans : List UriPlanCreate} (h : Decomposes mpi ch a shares uri_plans)
    {p : UriPlanCreate} (hp : p ∈ uri_plans) :
    p.wrts.mapM (entryOf (memHOffset ch p.uri_channel)) = .ok (p.wrts.map subWriteEntry) := by
  refine mapM_ok fun w hw => ?_
  obtain ⟨i, j, hj, -, rfl, hchannel⟩ := part_of_handed h hp hw
  rw [hchannel, hlaid.entryOf_part hj]
  rfl

theorem fetchAt_getD {α : Type} {xs : List α} {i : Int} {x d : α} (h : fetchAt xs i = .ok x) :
    xs.getD i.toNat d = x := by
  rw [List.getD, (fetchAt_eq_ok.mp h).2, Option.getD_some]

theorem locMem_known {i : Fin a.num_sends} {owner : Int} {mem : UnrMem}
    (h : (a.loc_blk_arr i).Known owner ch ch' mem) : a.locMem ch i = mem :=
  fetchAt_getD h.loc_mem

theorem rmtMem_known {i : Fin a.num_sends} {owner : Int} {mem : UnrMem}
    (h : (a.rmt_blk_arr i).Known owner ch' ch mem) : a.rmtMem ch i = mem := by
  obtain ⟨mems, hmems, hmem⟩ := bind_eq_ok.mp h.rmt_mem
  rw [PlanPara.rmtMem, fetchAt_getD hmems, fetchAt_getD hmem]

theorem entry_ranks (h : Facing mpi mpi' ch ch' same_node a) {shares : Fin a.num_sends → List Nat}
    {uri_plans : List UriPlanCreate} (hdecomposes : Decomposes mpi ch a shares uri_plans)
    {p : UriPlanCreate} (hp : p ∈ uri_plans) :
    ∀ w ∈ p.wrts.map subWriteEntry, w.loc_mem.rank = mpi.rank.toNat ∧
      w.rmt_mem.rank = mpi'.rank.toNat ∧ w.dma_type ≠ .unknown := by
  intro e he
  obtain ⟨w, hw, rfl⟩ := List.mem_map.mp he
  obtain ⟨i, j, -, -, rfl, -⟩ := part_of_handed hdecomposes hp hw
  obtain ⟨loc_mem, hloc⟩ := h.loc i
  obtain ⟨rmt_mem, hrmt⟩ := h.rmt i
  refine ⟨?_, ?_, h.dma_type i⟩
  · change (a.locMem ch i).rank = _
    rw [locMem_known hloc, ← hloc.mem_rank, Int.toNat_natCast]
  · change (a.rmtMem ch i).rank = _
    rw [rmtMem_known hrmt, ← hrmt.mem_rank, Int.toNat_natCast]

theorem rank_toNat_lt (h : Linked mpi mpi' ch ch' same_node) : mpi.rank.toNat < mpi.size := by
  have hpos := (fetchAt_eq_ok.mp h.together').1
  have hlt := h.rank_lt
  omega

theorem mpiHand_dual (hlaid : Laid t ch) (h : Facing mpi mpi' ch ch' same_node a)
    {shares : Fin a.num_sends → List Nat} {uri_plans : List UriPlanCreate}
    (hdecomposes : Decomposes mpi ch a shares uri_plans) {p : UriPlanCreate} (hp : p ∈ uri_plans) :
    (fun x => (x.1, x.2.transfers mpi'.rank.toNat)) <$>
        mpiHand mpi' ch' sizeofUriMpiOp supply' p.dual =
      (fun x => (x.1, x.2.transfers mpi.rank.toNat)) <$>
        mpiHand mpi ch sizeofUriMpiOp supply p := by
  have hne : p.wrts.map subWriteEntry ≠ [] := by
    have hpos := (hdecomposes.slots p hp).1
    rw [← List.length_pos_iff, List.length_map]
    exact hpos
  have hrank' : mpi'.rank.toNat < mpi.size := by
    rw [← h.linked.size]
    exact rank_toNat_lt h.linked.symm
  have hentries : p.dual.wrts.mapM (entryOf (memHOffset ch' p.dual.uri_channel)) =
      .ok ((p.wrts.map subWriteEntry).map Write.dual) := by
    change (p.wrts.map SubWrite.dual).mapM (entryOf (memHOffset ch' p.uri_channel)) = _
    have hmirror : p.wrts.mapM (entryOf (memHOffset ch p.uri_channel) ∘ SubWrite.dual) =
        List.map Write.dual <$> p.wrts.mapM (entryOf (memHOffset ch p.uri_channel)) :=
      mapM_hom fun w _ => entryOf_dual _ w
    rw [memHOffset_linked h.linked, List.mapM_map, hmirror, entries_of_handed hlaid hdecomposes hp]
    rfl
  have hout : ∀ (rank : Nat) (x : Prog PlanCreated),
      (fun x => (x.1, x.2.transfers rank)) <$>
          (x >>= fun created => pure (p.uri_channel, created) : Prog (Nat × PlanCreated)) =
        (p.uri_channel, ·) <$> PlanCreated.transfers rank <$> x := by
    intro rank x
    cases x <;> rfl
  rw [mpiHand, mpiHand, hentries, entries_of_handed hlaid hdecomposes hp, ok_bind, ok_bind,
    h.linked.size]
  refine (hout _ _).trans (Eq.trans ?_ (hout _ _).symm)
  exact congrArg ((p.uri_channel, ·) <$> ·) (Mpi.uriMpiRdmaPlanCreate_dual
    (supply p.uri_channel).sorted (supply' p.uri_channel).sorted hne (rank_toNat_lt h.linked)
    hrank' (entry_ranks h hdecomposes hp))

theorem map_mapM {α β γ : Type} (f : α → Prog β) (g : β → γ) (xs : List α) :
    List.map g <$> xs.mapM f = xs.mapM fun x => g <$> f x :=
  (mapM_hom fun _ _ => rfl).symm

/-- A plan made by one side and the mirror image of it made by the other one
are plans for the same transfers, channel by channel. -/
theorem mpiPlanCreate_dual (hacc : ch.Accepted b_inter b_intra) (hlaid : Laid t ch)
    (hranks : ch.rmt_mem_arr.length = mpi.size) (hsizes : ∀ i, a.size i < 2 ^ 64)
    (h : Facing mpi mpi' ch ch' same_node a) :
    channelTransfers mpi'.rank.toNat <$> mpiPlanCreate mpi' ch' sizeofUriMpiOp supply' a.dual =
      channelTransfers mpi.rank.toNat <$> mpiPlanCreate mpi ch sizeofUriMpiOp supply a := by
  rw [mpiPlanCreate, mpiPlanCreate, unrRdmaPlanCreate_facing h, unrRdmaPlanCreate_facing h.dual,
    planNow_dual h]
  cases hnow : planNow mpi ch a with
  | error e => rfl
  | ok uri_plans =>
      obtain ⟨shares, hdecomposes, -⟩ := decomposes_of_planNow hacc hranks hsizes hnow
      change List.map _ <$> (uri_plans.map UriPlanCreate.dual).mapM _ =
        List.map _ <$> uri_plans.mapM (mpiHand mpi ch sizeofUriMpiOp supply)
      rw [map_mapM, map_mapM, List.mapM_map]
      exact mapM_congr fun p hp => mpiHand_dual hlaid h hdecomposes hp

/-- The transfers of a plan are those of the sub-writes that
`unr_rdma_plan_create` has handed to the channels. -/
theorem channelTransfers_eq (hlaid : Laid t ch) (h : Facing mpi mpi' ch ch' same_node a)
    {uri_plans : List UriPlanCreate} (hnow : planNow mpi ch a = .ok uri_plans)
    {shares : Fin a.num_sends → List Nat} (hdecomposes : Decomposes mpi ch a shares uri_plans)
    {plans : List (Nat × PlanCreated)}
    (hcreate : mpiPlanCreate mpi ch sizeofUriMpiOp supply a = .ok plans) :
    channelTransfers mpi.rank.toNat plans = uri_plans.map fun p =>
      (p.uri_channel, p.wrts.map fun w => (subWriteEntry w).transfer mpi.rank.toNat) := by
  rw [mpiPlanCreate, unrRdmaPlanCreate_facing h, hnow] at hcreate
  have hrun : uri_plans.mapM (mpiHand mpi ch sizeofUriMpiOp supply) = .ok plans := hcreate
  have hout : uri_plans.mapM (fun p => (fun x => (x.1, x.2.transfers mpi.rank.toNat)) <$>
      mpiHand mpi ch sizeofUriMpiOp supply p) = .ok (channelTransfers mpi.rank.toNat plans) := by
    rw [← map_mapM, hrun]
    rfl
  refine eq_map_of_mapM (fun p hp y hy => ?_) hout
  have hne : p.wrts.map subWriteEntry ≠ [] := by
    have hpos := (hdecomposes.slots p hp).1
    rw [← List.length_pos_iff, List.length_map]
    exact hpos
  rw [mpiHand, entries_of_handed hlaid hdecomposes hp, ok_bind] at hy
  dsimp only at hy
  cases hplan : uriMpiRdmaPlanCreate mpi.size mpi.rank.toNat p.once_now (supply p.uri_channel).plan
      (supply p.uri_channel).tags sizeofUriMpiOp (supply p.uri_channel).ids
      (supply p.uri_channel).qsort (p.wrts.map subWriteEntry) with
  | error e =>
      rw [hplan] at hy
      exact nomatch hy
  | ok created =>
      obtain ⟨-, rfl⟩ :=
        (Mpi.uriMpiRdmaPlanCreate_eq_ok hne (supply p.uri_channel).sorted).mp hplan
      rw [hplan] at hy
      cases hy
      dsimp only
      rw [Mpi.transfers_createdPlan (supply p.uri_channel).sorted, List.map_map]
      rfl

end

end Unr.Uri
