import Unr.Core.PlanExact

/-!
The checks behind a plan that has been created.

`Passes` collects the checks of `unr_rdma_plan_create` in one place; a call
that passes them all succeeds. Conversely a call that has returned has made
each of them, so a property of created plans may assume `Passes`.
-/

namespace Unr.Core

open Unr.Uru Unr.Logic

variable {mpi : UruMpi} {ch : UnrChannels} {a : PlanPara}

theorem flagOf_rank {n : Nat} {sig_arr : Option (Fin n → UnrSig)} {i : Fin n} {dst_rank : Int}
    {blk_flag_p flag_p : Option Nat} (h : flagOf sig_arr i dst_rank blk_flag_p = .ok flag_p)
    {sigs : Fin n → UnrSig} (hsigs : sig_arr = some sigs)
    (hsig : (sigs i).dst_rank ≠ unrNoSignalDstRank) : (sigs i).dst_rank = dst_rank := by
  subst hsigs
  simp only [flagOf, if_pos hsig, bind_eq_ok, uruAssert_eq_ok] at h
  obtain ⟨_, hrank, -⟩ := h
  exact hrank

theorem PlanState.push_div {s s' : PlanState} {id : Nat} {w : SubWrite}
    (h : s.push id w = .ok s') : s'.div_plan_wrt_size = s.div_plan_wrt_size := by
  simp only [PlanState.push, bind_eq_ok, throw_if_eq_ok, pure_eq_ok] at h
  obtain ⟨k, -, column, -, -, rfl⟩ := h
  rfl

theorem planPart_div {same_node : Bool} {loc_unr_mem rmt_unr_mem : UnrMem}
    {sig_add_arr : List (BitVec 64)} {i : Fin a.num_sends} {s s' : PlanState} {j : Nat}
    (h : planPart mpi ch a same_node loc_unr_mem rmt_unr_mem sig_add_arr i s j = .ok s') :
    s'.div_plan_wrt_size = s.div_plan_wrt_size := by
  unfold planPart at h
  dsimp only at h
  split at h
  · cases h
    rfl
  · simp only [bind_eq_ok] at h
    obtain ⟨_, _, _, _, _, _, hpush⟩ := h
    exact PlanState.push_div hpush

/-- The checks made for one send that is not empty. -/
structure PlanPara.SendPasses (mpi : UruMpi) (ch : UnrChannels) (a : PlanPara)
    (i : Fin a.num_sends) : Prop where
  loc_rank : (a.loc_blk_arr i).dst_rank = mpi.rank
  rmt_rank : 0 ≤ (a.rmt_blk_arr i).dst_rank ∧ (a.rmt_blk_arr i).dst_rank < mpi.size
  loc_mem : 0 ≤ (a.loc_blk_arr i).mem_idx ∧ (a.loc_blk_arr i).mem_idx < ch.loc_mem_arr.length
  rmt_mem : 0 ≤ (a.rmt_blk_arr i).mem_idx ∧ (a.rmt_blk_arr i).mem_idx <
    (ch.rmt_mem_arr.getD (a.rmt_blk_arr i).dst_rank.toNat []).length
  loc_sig : ∀ sigs, a.loc_sig_arr = some sigs →
    (sigs i).dst_rank ≠ unrNoSignalDstRank → (sigs i).dst_rank = mpi.rank
  rmt_sig : ∀ sigs, a.rmt_sig_arr = some sigs →
    (sigs i).dst_rank ≠ unrNoSignalDstRank → (sigs i).dst_rank = (a.rmt_blk_arr i).dst_rank

/-- A division that has returned has a share that is not empty. -/
theorem exists_share_of_divPlanWrtSize {g : ChannelGroup} {size cursor : Nat}
    {scratch div : List Nat} {cursor' : Nat} (hsize : size ≠ 0)
    (h : divPlanWrtSize g size cursor scratch = .ok (div, cursor')) :
    ∃ j < g.num, div.getD j 0 ≠ 0 := by
  simp only [divPlanWrtSize, throw_if_eq_ok] at h
  obtain ⟨-, h⟩ := h
  obtain ⟨s, _, h⟩ := bind_eq_ok.mp h
  obtain ⟨_, hsum, h⟩ := bind_eq_ok.mp h
  cases h
  rw [uruAssert_eq_ok] at hsum
  by_contra hnone
  have hzero : ∀ x ∈ s.div_plan_wrt_size.take g.num, x = 0 := by
    intro x hx
    obtain ⟨j, hj, rfl⟩ := List.getElem_of_mem hx
    have hlt : j < g.num ∧ j < s.div_plan_wrt_size.length := by
      rw [List.length_take] at hj
      omega
    by_contra hne
    refine hnone ⟨j, hlt.1, ?_⟩
    simpa [List.getD, List.getElem?_eq_getElem hlt.2] using hne
  have hfold : (s.div_plan_wrt_size.take g.num).foldl (fun sum x => wrap64 (sum + x)) 0 = 0 := by
    rw [List.eq_replicate_iff.mpr ⟨rfl, hzero⟩]
    induction (s.div_plan_wrt_size.take g.num).length with
    | zero => rfl
    | succ n ih => exact ih
  exact hsize (hsum.symm.trans hfold)

theorem sendPasses_of_planSend {s s' : PlanState} {i : Fin a.num_sends} (hsize : a.size i ≠ 0)
    (h : planSend mpi ch a s i = .ok s') : a.SendPasses mpi ch i := by
  simp only [planSend, if_neg hsize, bind_eq_ok, uruAssert_eq_ok, throw_if_eq_ok,
    fetchAt_eq_ok] at h
  obtain ⟨_, hloc, _, hrmt, _, hlocMem, rmt_mem_arr, ⟨hrank, hmems⟩, hrmtMem, same_node, -,
    ⟨div, cursor⟩, hdiv, loc_unr_mem, ⟨hlocIdx, -⟩, rmt_unr_mem, ⟨hrmtIdx, -⟩, hparts⟩ := h
  obtain ⟨j, hj, hshare⟩ := exists_share_of_divPlanWrtSize hsize hdiv
  obtain ⟨before, after, hbefore, hpart⟩ := foldlM_turn
    (P := fun s => s.div_plan_wrt_size = div) (fun _ _ _ hP hstep => (planPart_div hstep).trans hP)
    rfl hparts (List.mem_range.mpr hj)
  have harr : ch.rmt_mem_arr.getD (a.rmt_blk_arr i).dst_rank.toNat [] = rmt_mem_arr := by
    rw [List.getD, hmems, Option.getD_some]
  unfold planPart at hpart
  dsimp only at hpart
  rw [hbefore, if_neg hshare] at hpart
  simp only [bind_eq_ok] at hpart
  obtain ⟨_, _, loc_flag_p, hlocFlag, rmt_flag_p, hrmtFlag, -⟩ := hpart
  refine ⟨hloc, ⟨hrank, hrmt⟩, ⟨hlocIdx, hlocMem⟩, ⟨hrmtIdx, ?_⟩, ?_, ?_⟩
  · rw [harr]
    omega
  · exact fun sigs hsigs hsig => flagOf_rank hlocFlag hsigs hsig
  · exact fun sigs hsigs hsig => flagOf_rank hrmtFlag hsigs hsig

theorem sendPasses_of_planNow {uri_plans : List UriPlanCreate}
    (h : planNow mpi ch a = .ok uri_plans) (i : Fin a.num_sends) (hsize : a.size i ≠ 0) :
    a.SendPasses mpi ch i := by
  simp only [planNow, bind_eq_ok, uruAssert_eq_ok, throw_if_eq_ok] at h
  obtain ⟨_, -, -, h⟩ := h
  have hloop : ∃ s, (List.finRange a.num_sends).foldlM (planSend mpi ch a) (planStart ch a) =
      .ok s := by
    split at h
    · obtain ⟨_, _, s, hrun, -⟩ := by simpa only [bind_eq_ok] using h
      exact ⟨s, hrun⟩
    · obtain ⟨s, hrun, -⟩ := by simpa only [bind_eq_ok] using h
      exact ⟨s, hrun⟩
  obtain ⟨s, hrun⟩ := hloop
  obtain ⟨before, after, -, hturn⟩ := foldlM_turn (P := fun _ => True)
    (fun _ _ _ _ _ => trivial) trivial hrun (List.mem_finRange i)
  exact sendPasses_of_planSend hsize hturn

theorem passes_of_planNow (hsizes : ∀ i, a.size i < 2 ^ 64) {uri_plans : List UriPlanCreate}
    (h : planNow mpi ch a = .ok uri_plans) : a.Passes mpi ch := by
  have hsend := sendPasses_of_planNow h
  simp only [planNow, bind_eq_ok, uruAssert_eq_ok, throw_if_eq_ok] at h
  obtain ⟨_, hpos, hlt, h⟩ := h
  exact {
    num_pos := hpos
    num_lt := by omega
    blk_size := by
      intro hnone
      rw [hnone] at h
      simp only [Option.isNone_none, if_true, bind_eq_ok, uruAssert_eq_ok] at h
      exact h.choose_spec.1
    size_lt := hsizes
    loc_rank := fun i hsize => (hsend i hsize).loc_rank
    rmt_rank := fun i hsize => (hsend i hsize).rmt_rank
    loc_mem := fun i hsize => (hsend i hsize).loc_mem
    rmt_mem := fun i hsize => (hsend i hsize).rmt_mem
    loc_sig := fun sigs hsigs i hsize => (hsend i hsize).loc_sig sigs hsigs
    rmt_sig := fun sigs hsigs i hsize => (hsend i hsize).rmt_sig sigs hsigs }

theorem decomposes_of_planNow {b_inter b_intra : Nat} (hch : ch.Accepted b_inter b_intra)
    (hranks : ch.rmt_mem_arr.length = mpi.size) (hsizes : ∀ i, a.size i < 2 ^ 64)
    {uri_plans : List UriPlanCreate} (h : planNow mpi ch a = .ok uri_plans) :
    ∃ shares, Decomposes mpi ch a shares uri_plans ∧
      ∀ i, SharesOf (ch.group (a.sameNode mpi i)) (a.size i) (shares i) := by
  obtain ⟨shares, uri_plans', hrun, hdecomposes, hshares⟩ :=
    planNow_ok (passes_of_planNow hsizes h) hch hranks
  cases h.symm.trans hrun
  exact ⟨shares, hdecomposes, hshares⟩

end Unr.Core
