import Unr.Logic.Narrowing
import Unr.Uri.Handover

/-!
The byte counts the transports are given.

Sizes are `size_t` in every layer of the library. MPI takes a count of type
`int`, on the initiator and on the target, and a scatter/gather entry of verbs
has a length of type `uint32_t`. Both conversions are implicit. The counts of
the parts of a send add up to the send exactly if the largest share fits.
-/

namespace Unr.Uri

open Unr.Uru Unr.Core Unr.Logic
open Unr.Mpi (MemInfo MpiOp Write addressed)

/-- The count `MPI_Isend`, `MPI_Irecv`, `MPI_Send_init` and `MPI_Recv_init`
get for an operation. -/
def mpiCount (op : MpiOp) : ℤ := asSigned 32 op.size

/-- The length a work request carries. -/
def sgeLength (pr : Verbs.PlanWr) : ℤ :=
  match pr.wr.sg_list with
  | some sge => sge.length.toNat
  | none => 0

/-- Counts that say what is to be transferred. -/
structure CountsExact (counts : List ℤ) (size : Nat) : Prop where
  nonneg : ∀ c ∈ counts, 0 ≤ c
  sum : counts.sum = size

/-- The parts of send `i` as their channels see them. -/
def sendEntries (mpi : UruMpi) (ch : UnrChannels) (a : PlanPara) (share : List Nat)
    (i : Fin a.num_sends) : List Write :=
  ((List.range (ch.group (a.sameNode mpi i)).num).filter fun j => share.getD j 0 ≠ 0).map
    (partEntry mpi ch a share i)

/-! ### Shares and counts -/

/-- Converted counts are exact exactly if the conversion changes none. -/
theorem countsExact_iff {f : ℕ → ℤ} (hf : Narrowing f) (sizes : List Nat) :
    CountsExact (sizes.map f) sizes.sum ↔ ∀ x ∈ sizes, f x = x := by
  constructor
  · rintro ⟨-, hsum⟩
    exact (hf.sum_eq_iff sizes).mp hsum
  · intro hall
    refine ⟨fun c hc => ?_, (hf.sum_eq_iff sizes).mpr hall⟩
    obtain ⟨x, hx, rfl⟩ := List.mem_map.mp hc
    rw [hall x hx]
    exact Int.natCast_nonneg x

theorem SharesOf.all_lt_iff {g : ChannelGroup} {b size : Nat} {share : List Nat}
    (hg : g.Accepted b) (h : SharesOf g size share) {bound : Nat} :
    (∀ j < g.num, share.getD j 0 < bound) ↔ largestShare g.num g.blocksize size < bound := by
  obtain ⟨c, hc, hshares⟩ := h.dealt
  constructor
  · intro hall
    obtain ⟨j, hj, hlargest⟩ :=
      exists_largestShare hg.num_pos (by rw [hg.blocksize_eq]; exact hg.blk_pos) hshares
    rw [← hlargest]
    exact hall j hj
  · intro hlt j hj
    exact Nat.lt_of_le_of_lt (share_le_largestShare hc hshares hj) hlt

section

variable {mpi : UruMpi} {ch : UnrChannels} {a : PlanPara} {i : Fin a.num_sends}
  {share : List Nat}

theorem sendEntries_size (share : List Nat) :
    (sendEntries mpi ch a share i).map (·.dma_size) =
      ((List.range (ch.group (a.sameNode mpi i)).num).filter fun j => share.getD j 0 ≠ 0).map
        fun j => share.getD j 0 := by
  rw [sendEntries, List.map_map]
  rfl

theorem sum_filter_ne_zero (xs : List Nat) (f : Nat → Nat) :
    ((xs.filter fun j => f j ≠ 0).map f).sum = (xs.map f).sum := by
  induction xs with
  | nil => rfl
  | cons x xs ih =>
      by_cases hx : f x = 0
      · simp [hx, ← ih]
      · simp [hx, ← ih]

theorem sendEntries_sum
    (hshare : SharesOf (ch.group (a.sameNode mpi i)) (a.size i) share) :
    ((sendEntries mpi ch a share i).map (·.dma_size)).sum = a.size i := by
  have hrange : (List.range (ch.group (a.sameNode mpi i)).num).map (fun j => share.getD j 0) =
      share := by
    apply List.ext_getElem (by simp [hshare.length])
    intro j h₁ h₂
    simp [List.getD, h₂]
  rw [sendEntries_size, sum_filter_ne_zero, hrange, hshare.total]

/-- The converted sizes of the parts of a send are exact exactly if its
largest share can be converted. -/
theorem partCounts_iff {b : Nat} (hg : (ch.group (a.sameNode mpi i)).Accepted b)
    (hshare : SharesOf (ch.group (a.sameNode mpi i)) (a.size i) share) {f : ℕ → ℤ}
    (hf : Narrowing f) {bound : Nat} (hpos : 0 < bound) (hfit : ∀ x, f x = x ↔ x < bound) :
    CountsExact (((sendEntries mpi ch a share i).map (·.dma_size)).map f) (a.size i) ↔
      largestShare (ch.group (a.sameNode mpi i)).num (ch.group (a.sameNode mpi i)).blocksize
        (a.size i) < bound := by
  have hexact := countsExact_iff hf ((sendEntries mpi ch a share i).map (·.dma_size))
  rw [sendEntries_sum hshare] at hexact
  rw [hexact, ← SharesOf.all_lt_iff hg hshare, sendEntries_size]
  constructor
  · intro hall j hj
    by_cases hzero : share.getD j 0 = 0
    · rwa [hzero]
    · refine (hfit _).mp (hall _ (List.mem_map.mpr ⟨j, ?_, rfl⟩))
      exact List.mem_filter.mpr ⟨List.mem_range.mpr hj, by simpa using hzero⟩
  · intro hall x hx
    obtain ⟨j, hj, rfl⟩ := List.mem_map.mp hx
    exact (hfit _).mpr (hall j (List.mem_range.mp (List.mem_filter.mp hj).1))

end

theorem map_of_mapM_ok {α β : Type} {f : α → Prog β} {g : β → ℤ} {k : α → ℤ} {xs : List α}
    {ys : List β} (hrun : xs.mapM f = .ok ys) (hstep : ∀ x y, f x = .ok y → g y = k x) :
    ys.map g = xs.map k := by
  induction xs generalizing ys with
  | nil =>
      cases hrun
      rfl
  | cons x xs ih =>
      rw [List.mapM_cons] at hrun
      obtain ⟨y, hy, hrun⟩ := bind_eq_ok.mp hrun
      obtain ⟨ys', hys, hrun⟩ := bind_eq_ok.mp hrun
      cases hrun
      rw [List.map_cons, List.map_cons, hstep x y hy, ih hys]

theorem planWr_sgeLength {mpi_size : Nat} {flag_pool : Verbs.FlagPool}
    {lkey rkey : MemInfo → BitVec 32} {w : Write} {pr : Verbs.PlanWr}
    (h : Verbs.planWr mpi_size flag_pool lkey rkey w = .ok pr) :
    sgeLength pr = asUnsigned 32 w.dma_size := by
  rw [sgeLength, (Verbs.wrOf_planWr h).sg_list]
  rfl

/-! ### Plans -/

/-- The counts of the operations of a plan, on the initiator, on the target,
and in the work requests of verbs channels. -/
theorem counts_exact_iff {t : ChannelTable} {inter_channels intra_channels : List Nat}
    {ch₀ : UnrChannels} (hinit : unrInit t inter_channels intra_channels = .ok ch₀)
    (loc_mem_arr : List UnrMem) (rmt_mem_arr : List (List UnrMem)) (mpi : UruMpi)
    (hranks : rmt_mem_arr.length = mpi.size) (a : PlanPara) (hsizes : ∀ i, a.size i < 2 ^ 64)
    {uri_plans : List UriPlanCreate}
    (hnow : planNow mpi { ch₀ with loc_mem_arr := loc_mem_arr, rmt_mem_arr := rmt_mem_arr } a =
      .ok uri_plans) :
    let ch := { ch₀ with loc_mem_arr := loc_mem_arr, rmt_mem_arr := rmt_mem_arr }
    ∃ shares, Decomposes mpi ch a shares uri_plans ∧ ∀ i,
      let g := ch.group (a.sameNode mpi i)
      let entries := sendEntries mpi ch a (shares i) i
      (∀ flag plan index tag,
        (CountsExact ((entries.map (·.sendOp flag plan index tag)).map mpiCount) (a.size i) ↔
          largestShare g.num g.blocksize (a.size i) < 2 ^ 31) ∧
        (CountsExact ((addressed mpi.rank.toNat
            (entries.map (·.recvOp flag plan index tag))).map mpiCount) (a.size i) ↔
          largestShare g.num g.blocksize (a.size i) < 2 ^ 31)) ∧
      ∀ flag_pool lkey rkey prs,
        entries.mapM (Verbs.planWr mpi.size flag_pool lkey rkey) = .ok prs →
        (CountsExact (prs.map sgeLength) (a.size i) ↔
          largestShare g.num g.blocksize (a.size i) < 2 ^ 32) := by
  intro ch
  obtain ⟨b_inter, b_intra, hinter, hintra, hnum⟩ := unrInit_accepted hinit
  have hch : ch.Accepted b_inter b_intra := ⟨hinter, hintra, hnum⟩
  obtain ⟨shares, hdecomposes, hshares⟩ := decomposes_of_planNow hch hranks hsizes hnow
  refine ⟨shares, hdecomposes, fun i => ⟨fun flag plan index tag => ⟨?_, ?_⟩, ?_⟩⟩
  · rw [← partCounts_iff (hch.group_accepted _) (hshares i) (narrowing_asSigned 32) (by decide)
      fun x => asSigned_eq_iff, List.map_map, List.map_map]
    rfl
  · rw [← partCounts_iff (hch.group_accepted _) (hshares i) (narrowing_asSigned 32) (by decide)
      fun x => asSigned_eq_iff, addressed, List.map_map, List.map_map, List.map_map]
    rfl
  · intro flag_pool lkey rkey prs hprs
    rw [← partCounts_iff (hch.group_accepted _) (hshares i) (narrowing_asUnsigned 32) (by decide)
      fun x => asUnsigned_eq_iff]
    have hlengths : prs.map sgeLength = ((sendEntries mpi ch a (shares i) i).map
        (·.dma_size)).map (asUnsigned 32) := by
      rw [List.map_map]
      exact map_of_mapM_ok hprs fun w pr hw => planWr_sgeLength hw
    rw [hlengths]

/-! ### A send of four gigabytes -/

theorem counts_exact_iff_threeSends :
    ∃ ch₀ uri_plans shares, unrInit twoDevices [0, 1] [0, 1] = .ok ch₀ ∧
      Decomposes rankZero
        { ch₀ with loc_mem_arr := [region 0], rmt_mem_arr := [[region 0], [region 1]] }
        threeSends shares uri_plans ∧ ∀ i,
      CountsExact (((sendEntries rankZero
        { ch₀ with loc_mem_arr := [region 0], rmt_mem_arr := [[region 0], [region 1]] }
        threeSends (shares i) i).map (·.sendOp 0 0 0 0)).map mpiCount) (threeSends.size i) := by
  have hinit : unrInit twoDevices [0, 1] [0, 1] = .ok _ := rfl
  have hnow : planNow rankZero (channelsWith [region 1]) threeSends = .ok _ := rfl
  obtain ⟨shares, hdecomposes, hcounts⟩ := counts_exact_iff hinit [region 0]
    [[region 0], [region 1]] rankZero rfl threeSends (by decide) hnow
  refine ⟨_, _, shares, hinit, hdecomposes, fun i => ((hcounts i).1 0 0 0 0).1.mpr ?_⟩
  revert i
  decide

def largeRegion (rank : Nat) : UnrMem :=
  { addr := 65536, size := 2 ^ 33, rank := rank, idx := 0 }

def largePut : PlanPara where
  once_now := false
  num_sends := 1
  loc_blk_arr := fun _ => ⟨0, 0, 0, 2 ^ 32, none, none⟩
  loc_sig_arr := none
  loc_offset_arr := none
  size_arr := none
  rmt_blk_arr := fun _ => ⟨1, 0, 0, 2 ^ 32, none, none⟩
  rmt_sig_arr := none
  rmt_offset_arr := none
  dma_type_arr := .dmaPutAll

/-- It passes all checks, and every transport is told to move nothing. -/
theorem large_put_moves_nothing :
    ∃ ch₀ p w e pr, unrInit twoDevices [0] [0] = .ok ch₀ ∧
      planCreate twoDevices rankZero { ch₀ with
          loc_mem_arr := [largeRegion 0], rmt_mem_arr := [[largeRegion 0], [largeRegion 1]] }
        ⟨0, []⟩ (fun _ => 0) (fun _ => 0) largePut = .ok [p] ∧
      p.wrts = [w] ∧ entryOf (memHOffset ch₀ p.uri_channel) w = .ok e ∧
      Verbs.planWr 2 ⟨0, []⟩ (fun _ => 0) (fun _ => 0) e = .ok pr ∧ e.dma_size = 2 ^ 32 ∧
      ¬ CountsExact [mpiCount (e.sendOp 0 0 0 0)] (2 ^ 32) ∧
      ¬ CountsExact ((addressed 0 [e.recvOp 0 0 0 0]).map mpiCount) (2 ^ 32) ∧
      ¬ CountsExact [sgeLength pr] (2 ^ 32) := by
  refine ⟨_, _, _, _, _, rfl, rfl, rfl, rfl, rfl, rfl, fun h => ?_, fun h => ?_, fun h => ?_⟩
  · exact absurd h.sum (by decide)
  · exact absurd h.sum (by decide)
  · exact absurd h.sum (by decide)

end Unr.Uri
