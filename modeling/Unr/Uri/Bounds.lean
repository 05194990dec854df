import Unr.Uri.Handover

/-!
The addresses given to MPI and the bounds of the registered regions.

The channel checks the end of each sub-write, `offset + size`, against the
size of the region, in 64-bit arithmetic. A sub-write that begins at the end
of the address space and runs over it passes this check, whatever the region.
-/

namespace Unr.Uri

open Unr.Uru Unr.Core Unr.Logic
open Unr.Mpi (MemInfo MpiOp Write)

/-- The bytes an operation transfers lie in the region. The address is a
pointer, so it is computed modulo `2 ^ 64`. -/
def Inside (mem : MemInfo) (op : MpiOp) : Prop :=
  mem.addr ≤ wrap64 op.addr ∧ wrap64 op.addr + op.size ≤ mem.addr + mem.size

/-- So do the bytes of the operations on both sides of a write. -/
def OpsInside (w : Write) : Prop :=
  ∀ flag plan index tag, Inside w.loc_mem (w.sendOp flag plan index tag) ∧
    Inside w.rmt_mem (w.recvOp flag plan index tag)

structure ValidRegion (mem : UnrMem) : Prop where
  size_lt : mem.size < 2 ^ 64
  end_le : mem.addr + mem.size ≤ 2 ^ 64

structure SizeT (a : PlanPara) : Prop where
  size : ∀ i, a.size i < 2 ^ 64
  loc_offset : ∀ i, (a.loc_blk_arr i).offset < 2 ^ 64
  rmt_offset : ∀ i, (a.rmt_blk_arr i).offset < 2 ^ 64

/-! ### One sub-write -/

/-- A range that passes the check lies in the region exactly if its end does
not wrap. -/
theorem inside_iff {base mem_size offset size : Nat} (hmem : mem_size < 2 ^ 64)
    (hend : base + mem_size ≤ 2 ^ 64) (hoffset : offset < 2 ^ 64) (hpos : 0 < size)
    (hcheck : wrap64 (offset + size) ≤ mem_size) :
    base ≤ wrap64 (base + offset) ∧ wrap64 (base + offset) + size ≤ base + mem_size ↔
      offset + size < 2 ^ 64 := by
  constructor
  · rintro ⟨hlow, hhigh⟩
    by_contra hwrap
    by_cases hover : base + offset < 2 ^ 64
    · rw [wrap64_of_lt hover] at hhigh
      omega
    · have haddr : wrap64 (base + offset) = base + offset - 2 ^ 64 := by
        unfold wrap64
        omega
      omega
  · intro hfit
    rw [wrap64_of_lt hfit] at hcheck
    rw [wrap64_of_lt (by omega)]
    omega

/-! ### All sub-writes of a send -/

/-- No part of a send wraps exactly if the send itself does not. -/
theorem parts_fit_iff {start size : Nat} {share : List Nat} (hstart : start < 2 ^ 64)
    (hsum : share.sum = size) :
    (∀ j < share.length, share.getD j 0 ≠ 0 →
      wrap64 (start + displacement share j) + share.getD j 0 < 2 ^ 64) ↔
      size = 0 ∨ start + size < 2 ^ 64 := by
  constructor
  · intro hparts
    by_contra hwrap
    obtain ⟨hsize, hover⟩ := not_or.mp hwrap
    -- the part with the last byte of the address space
    obtain ⟨j, hlow, hhigh⟩ := exists_inShare
      (by omega : 2 ^ 64 - 1 - start < share.sum)
    have hj := InShare.lt_length ⟨hlow, hhigh⟩
    have hpart := hparts j hj (by omega)
    rw [wrap64_of_lt (by omega)] at hpart
    omega
  · rintro hfit j hj hshare
    have hget : share.getD j 0 = share[j] := List.getD_eq_getElem _ _ hj
    have hle := displacement_add_le_sum hj
    rw [hget] at hshare ⊢
    rw [wrap64_of_lt (by omega)]
    omega

theorem start_lt {blk : UnrBlk} {n : Nat} {offset_arr : Option (Fin n → Nat)} {i : Fin n}
    (hblk : blk.offset < 2 ^ 64) : PlanPara.start blk offset_arr i < 2 ^ 64 := by
  cases offset_arr with
  | none => exact hblk
  | some offsets => exact Nat.mod_lt _ (by decide)

theorem check_eq_ok {size rank : Nat} {w : Write} (h : w.check size rank = .ok ()) :
    wrap64 (w.loc_offset + w.dma_size) ≤ w.loc_mem.size ∧
      wrap64 (w.rmt_offset + w.dma_size) ≤ w.rmt_mem.size := by
  simp only [Write.check, bind_eq_ok, uruAssert_eq_ok] at h
  obtain ⟨_, -, _, hloc, _, hrmt, -⟩ := h
  exact ⟨hloc, hrmt⟩

section

variable {mpi : UruMpi} {ch : UnrChannels} {a : PlanPara} {i : Fin a.num_sends} {j : Nat}
  {share : List Nat}

theorem partEntry_inside_iff (hloc : ValidRegion (a.locMem ch i))
    (hrmt : ValidRegion (a.rmtMem ch i)) (hshare : share.getD j 0 ≠ 0) {size rank : Nat}
    (hcheck : (partEntry mpi ch a share i j).check size rank = .ok ()) :
    OpsInside (partEntry mpi ch a share i j) ↔
      wrap64 (PlanPara.start (a.loc_blk_arr i) a.loc_offset_arr i + displacement share j) +
          share.getD j 0 < 2 ^ 64 ∧
        wrap64 (PlanPara.start (a.rmt_blk_arr i) a.rmt_offset_arr i + displacement share j) +
          share.getD j 0 < 2 ^ 64 := by
  obtain ⟨hlocEnd, hrmtEnd⟩ := check_eq_ok hcheck
  have hpos : 0 < share.getD j 0 := Nat.pos_of_ne_zero hshare
  have hlocIff := inside_iff hloc.size_lt hloc.end_le (Nat.mod_lt _ (by decide)) hpos hlocEnd
  have hrmtIff := inside_iff hrmt.size_lt hrmt.end_le (Nat.mod_lt _ (by decide)) hpos hrmtEnd
  exact Iff.trans ⟨fun h => h 0 0 0 0, fun h _ _ _ _ => h⟩ (and_congr hlocIff hrmtIff)

end

/-! ### Plans on MPI channels -/

theorem getD_mem {α : Type} {xs : List α} {i : Nat} (h : i < xs.length) (d : α) :
    xs.getD i d ∈ xs := by
  rw [List.getD, List.getElem?_eq_getElem h, Option.getD_some]
  exact List.getElem_mem h

theorem validRegions {mpi : UruMpi} {ch : UnrChannels} {a : PlanPara}
    (hpass : a.Passes mpi ch) (hranks : ch.rmt_mem_arr.length = mpi.size)
    (hloc : ∀ mem ∈ ch.loc_mem_arr, ValidRegion mem)
    (hrmt : ∀ mems ∈ ch.rmt_mem_arr, ∀ mem ∈ mems, ValidRegion mem) {i : Fin a.num_sends}
    (hsize : a.size i ≠ 0) : ValidRegion (a.locMem ch i) ∧ ValidRegion (a.rmtMem ch i) := by
  obtain ⟨hlocNonneg, hlocLt⟩ := hpass.loc_mem i hsize
  obtain ⟨hrankNonneg, hrankLt⟩ := hpass.rmt_rank i hsize
  obtain ⟨hrmtNonneg, hrmtLt⟩ := hpass.rmt_mem i hsize
  exact ⟨hloc _ (getD_mem (by omega) _), hrmt _ (getD_mem (by omega) _) _ (getD_mem (by omega) _)⟩

/-- On MPI channels, the operations of a plan that has been created stay
inside the registered regions exactly if no send wraps around the end of the
address space, on either side. -/
theorem ranges_inside_iff {t : ChannelTable} {inter_channels intra_channels : List Nat}
    {ch₀ : UnrChannels} (hinit : unrInit t inter_channels intra_channels = .ok ch₀)
    (hmpi : ∀ same_node, ∀ c ∈ (ch₀.group same_node).channels, (t.attr c).type = .mpi)
    {loc_mem_arr : List UnrMem} {rmt_mem_arr : List (List UnrMem)} {mpi : UruMpi}
    (hranks : rmt_mem_arr.length = mpi.size)
    (hloc : ∀ mem ∈ loc_mem_arr, ValidRegion mem)
    (hrmt : ∀ mems ∈ rmt_mem_arr, ∀ mem ∈ mems, ValidRegion mem)
    {flag_pool : Verbs.FlagPool} {lkey rkey : MemInfo → BitVec 32} {a : PlanPara}
    (hsizes : SizeT a) {uri_plans : List UriPlanCreate}
    (hcreate : planCreate t mpi { ch₀ with loc_mem_arr := loc_mem_arr, rmt_mem_arr := rmt_mem_arr }
      flag_pool lkey rkey a = .ok uri_plans) :
    (∀ p ∈ uri_plans, ∀ w ∈ p.wrts, ∀ e, entryOf (memHOffset ch₀ p.uri_channel) w = .ok e →
      OpsInside e) ↔
      ∀ i, a.size i ≠ 0 →
        PlanPara.start (a.loc_blk_arr i) a.loc_offset_arr i + a.size i < 2 ^ 64 ∧
        PlanPara.start (a.rmt_blk_arr i) a.rmt_offset_arr i + a.size i < 2 ^ 64 := by
  set ch := { ch₀ with loc_mem_arr := loc_mem_arr, rmt_mem_arr := rmt_mem_arr } with hch
  obtain ⟨b_inter, b_intra, hinter, hintra, hnum⟩ := unrInit_accepted hinit
  have hacc : ch.Accepted b_inter b_intra := ⟨hinter, hintra, hnum⟩
  have hlaid : Laid t ch := (laid_of_unrInit hinit).withMem _ _
  simp only [planCreate, bind_eq_ok, pure_eq_ok] at hcreate
  obtain ⟨uri_plans', hnow, ⟨⟩, hchecks, rfl⟩ := hcreate
  have hpass := passes_of_planNow hsizes.size hnow
  obtain ⟨shares, hdecomposes, hshares⟩ := decomposes_of_planNow hacc hranks hsizes.size hnow
  -- a part that is handed over is part of a send that is not empty
  have hnonempty : ∀ i, ∀ j < (ch.group (a.sameNode mpi i)).num, (shares i).getD j 0 ≠ 0 →
      a.size i ≠ 0 := by
    intro i j hj hshare hzero
    have hj' : j < (shares i).length := by rw [(hshares i).length]; exact hj
    have hle := List.le_sum_of_mem (List.getElem_mem hj')
    rw [(hshares i).total, hzero] at hle
    exact hshare (by simpa [List.getD, hj'] using hle)
  -- a part is inside exactly if it does not wrap, on either side
  have hpart : ∀ i, ∀ j < (ch.group (a.sameNode mpi i)).num, (shares i).getD j 0 ≠ 0 →
      (OpsInside (partEntry mpi ch a (shares i) i j) ↔
        wrap64 (PlanPara.start (a.loc_blk_arr i) a.loc_offset_arr i +
            displacement (shares i) j) + (shares i).getD j 0 < 2 ^ 64 ∧
          wrap64 (PlanPara.start (a.rmt_blk_arr i) a.rmt_offset_arr i +
            displacement (shares i) j) + (shares i).getD j 0 < 2 ^ 64) := by
    intro i j hj hshare
    obtain ⟨p, hp, hw, hchannel⟩ := handed_of_part hacc hdecomposes hj hshare
    have hcheck := forM_eq_ok.mp (forM_eq_ok.mp hchecks p hp) _ hw
    rw [hchannel, hlaid.entryOf_part hj, ok_bind, hmpi _ _ (getD_mem hj _)] at hcheck
    obtain ⟨hvalidLoc, hvalidRmt⟩ :=
      validRegions hpass hranks hloc hrmt (hnonempty i j hj hshare)
    exact partEntry_inside_iff hvalidLoc hvalidRmt hshare hcheck
  -- no part of a side wraps exactly if the send does not
  have hfit : ∀ i {start : Nat}, start < 2 ^ 64 → ((∀ j < (ch.group (a.sameNode mpi i)).num,
      (shares i).getD j 0 ≠ 0 →
        wrap64 (start + displacement (shares i) j) + (shares i).getD j 0 < 2 ^ 64) ↔
      a.size i = 0 ∨ start + a.size i < 2 ^ 64) := by
    intro i start hstart
    rw [← (hshares i).length]
    exact parts_fit_iff hstart (hshares i).total
  constructor
  · intro hall i hsize
    have hinside : ∀ j (hj : j < (ch.group (a.sameNode mpi i)).num),
        (shares i).getD j 0 ≠ 0 → OpsInside (partEntry mpi ch a (shares i) i j) := by
      intro j hj hshare
      obtain ⟨p, hp, hw, hchannel⟩ := handed_of_part hacc hdecomposes hj hshare
      exact hall p hp _ hw _ (by rw [hchannel]; exact hlaid.entryOf_part hj)
    constructor
    · exact ((hfit i (start_lt (hsizes.loc_offset i))).mp fun j hj hshare =>
        ((hpart i j hj hshare).mp (hinside j hj hshare)).1).resolve_left hsize
    · exact ((hfit i (start_lt (hsizes.rmt_offset i))).mp fun j hj hshare =>
        ((hpart i j hj hshare).mp (hinside j hj hshare)).2).resolve_left hsize
  · intro hall p hp w hw e he
    obtain ⟨i, j, hj, hshare, rfl, hchannel⟩ := part_of_handed hdecomposes hp hw
    have hentry : entryOf _ (partWrite mpi ch a (shares i) i j) = .ok _ := hlaid.entryOf_part hj
    rw [hchannel] at he
    cases hentry.symm.trans he
    have hsize := hnonempty i j hj hshare
    refine (hpart i j hj hshare).mpr ⟨?_, ?_⟩
    · exact (hfit i (start_lt (hsizes.loc_offset i))).mpr (.inr (hall i hsize).1) j hj hshare
    · exact (hfit i (start_lt (hsizes.rmt_offset i))).mpr (.inr (hall i hsize).2) j hj hshare

/-! ### A send that wraps -/

def noFlags : Verbs.FlagPool := { size := 0, rmt_base := [] }

theorem ranges_inside_iff_threeSends :
    ∃ ch₀ uri_plans, unrInit twoDevices [0, 1] [0, 1] = .ok ch₀ ∧
      planCreate twoDevices rankZero
        { ch₀ with loc_mem_arr := [region 0], rmt_mem_arr := [[region 0], [region 1]] }
        noFlags (fun _ => 0) (fun _ => 0) threeSends = .ok uri_plans ∧
      ∀ p ∈ uri_plans, ∀ w ∈ p.wrts, ∀ e, entryOf (memHOffset ch₀ p.uri_channel) w = .ok e →
        OpsInside e := by
  have hregion : ∀ rank, ValidRegion (region rank) := fun rank =>
    { size_lt := by change 16384 < 2 ^ 64; decide
      end_le := by change 65536 + 16384 ≤ 2 ^ 64; decide }
  have hinit : unrInit twoDevices [0, 1] [0, 1] = .ok _ := rfl
  have hcreate : planCreate twoDevices rankZero (channelsWith [region 1]) noFlags (fun _ => 0)
      (fun _ => 0) threeSends = .ok _ := rfl
  refine ⟨_, _, hinit, hcreate, ?_⟩
  refine (ranges_inside_iff hinit ?_ rfl ?_ ?_ ⟨?_, ?_, ?_⟩ hcreate).mpr ?_
  · intro same_node c hc
    cases same_node <;> revert c <;> decide
  · simpa using hregion 0
  · simpa using And.intro (hregion 0) (hregion 1)
  · decide
  · decide
  · decide
  · decide

/-- A put of two bytes from the last byte of the address space on, seen from
the start of the local region. -/
def wrappingPut : PlanPara where
  once_now := false
  num_sends := 1
  loc_blk_arr := fun _ => ⟨0, 0, 0, 16384, none, none⟩
  loc_sig_arr := none
  loc_offset_arr := some fun _ => 2 ^ 64 - 1
  size_arr := some fun _ => 2
  rmt_blk_arr := fun _ => ⟨1, 0, 0, 16384, none, none⟩
  rmt_sig_arr := none
  rmt_offset_arr := none
  dma_type_arr := .dmaPutAll

/-- Its end is computed as the first byte of the region, so the put is
accepted; it reads the byte before the region. -/
theorem wrapping_put_accepted :
    ∃ ch₀ p w e, unrInit twoDevices [0, 1] [0, 1] = .ok ch₀ ∧
      planCreate twoDevices rankZero
        { ch₀ with loc_mem_arr := [region 0], rmt_mem_arr := [[region 0], [region 1]] }
        noFlags (fun _ => 0) (fun _ => 0) wrappingPut = .ok [p] ∧
      p.wrts = [w] ∧ entryOf (memHOffset ch₀ p.uri_channel) w = .ok e ∧
      wrap64 (e.sendOp 0 0 0 0).addr = 65535 ∧ e.loc_mem.addr = 65536 ∧ ¬ OpsInside e := by
  refine ⟨_, _, _, _, rfl, rfl, rfl, rfl, rfl, rfl, fun hinside => ?_⟩
  have hlow : 65536 ≤ 65535 := (hinside 0 0 0 0).1.1
  exact absurd hlow (by decide)

end Unr.Uri
