import Unr.Core.PlanChecks
import Unr.Core.MemDirectory

/-!
A plan and its mirror image.

A transfer can be asked for by the process that has the data, as a put, or by
the process that wants it, as a get. The arguments of the one call are those of
the other with the two sides exchanged. The library makes its choices from what
is local and what is remote at several places; the theorem of this module is
that exchanging the sides of the arguments exchanges the sides of everything
`unr_rdma_plan_create` hands to the channels, and changes nothing else.
-/

namespace Unr.Core

open Unr.Uru Unr.Logic

/-! ### Mirror images -/

def DmaTypeArr.dual {n : Nat} : DmaTypeArr n → DmaTypeArr n
  | .dmaPutAll => .dmaGetAll
  | .dmaGetAll => .dmaPutAll
  | .each types => .each fun i => (types i).flip

def PlanPara.dual (a : PlanPara) : PlanPara where
  once_now := a.once_now
  num_sends := a.num_sends
  loc_blk_arr := a.rmt_blk_arr
  loc_sig_arr := a.rmt_sig_arr
  loc_offset_arr := a.rmt_offset_arr
  size_arr := a.size_arr
  rmt_blk_arr := a.loc_blk_arr
  rmt_sig_arr := a.loc_sig_arr
  rmt_offset_arr := a.loc_offset_arr
  dma_type_arr := a.dma_type_arr.dual

def SubWrite.dual (w : SubWrite) : SubWrite where
  part_dma_type := w.part_dma_type.flip
  loc_uri_mem := w.rmt_uri_mem
  loc_uri_offset := w.rmt_uri_offset
  loc_flag_p := w.rmt_flag_p
  loc_flag_add := w.rmt_flag_add
  part_size := w.part_size
  rmt_uri_mem := w.loc_uri_mem
  rmt_uri_offset := w.loc_uri_offset
  rmt_flag_p := w.loc_flag_p
  rmt_flag_add := w.loc_flag_add

def UriPlanCreate.dual (p : UriPlanCreate) : UriPlanCreate :=
  { p with wrts := p.wrts.map SubWrite.dual }

def PlanState.dual (s : PlanState) : PlanState :=
  { s with slots := s.slots.map (List.map (Option.map SubWrite.dual)) }

@[simp] theorem PlanPara.dual_dma_type (a : PlanPara) (i : Fin a.num_sends) :
    a.dual.dma_type i = (a.dma_type i).flip := by
  obtain ⟨once_now, num_sends, loc_blk_arr, loc_sig_arr, loc_offset_arr, size_arr, rmt_blk_arr,
    rmt_sig_arr, rmt_offset_arr, dma_type_arr⟩ := a
  cases dma_type_arr <;> rfl

@[simp] theorem PlanState.dual_nextChannelId (s : PlanState) (same_node : Bool) :
    s.dual.nextChannelId same_node = s.nextChannelId same_node := by
  cases same_node <;> rfl

/-- With an array of sizes both sides take them from there. Without one each
takes that of its own block. -/
theorem PlanPara.dual_size (a : PlanPara) (i : Fin a.num_sends)
    (h : a.size_arr = none → (a.loc_blk_arr i).size = (a.rmt_blk_arr i).size) :
    a.dual.size i = a.size i := by
  obtain ⟨once_now, num_sends, loc_blk_arr, loc_sig_arr, loc_offset_arr, size_arr, rmt_blk_arr,
    rmt_sig_arr, rmt_offset_arr, dma_type_arr⟩ := a
  cases size_arr with
  | none => exact (h rfl).symm
  | some sizes => rfl

/-! ### The two processes -/

/-- Two processes with the same channels that agree on whether they share a
node. -/
structure Linked (mpi mpi' : UruMpi) (ch ch' : UnrChannels) (same_node : Bool) : Prop where
  size : mpi'.size = mpi.size
  rank_lt : mpi.rank < mpi.size
  rank_lt' : mpi'.rank < mpi'.size
  inter : ch'.inter = ch.inter
  intra : ch'.intra = ch.intra
  together : fetchAt mpi.same_node mpi'.rank = .ok same_node
  together' : fetchAt mpi'.same_node mpi.rank = .ok same_node

/-- A block in a region that its owner has registered and the other process
has been told of. -/
structure UnrBlk.Known (owner : Int) (own other : UnrChannels) (blk : UnrBlk) (mem : UnrMem) :
    Prop where
  dst_rank : blk.dst_rank = owner
  loc_mem : fetchAt own.loc_mem_arr blk.mem_idx = .ok mem
  rmt_mem : (do let mems ← fetchAt other.rmt_mem_arr blk.dst_rank
                fetchAt mems blk.mem_idx) = .ok mem
  mem_rank : (mem.rank : Int) = owner

section

variable {mpi mpi' : UruMpi} {ch ch' : UnrChannels} {same_node : Bool}

theorem Linked.symm (h : Linked mpi mpi' ch ch' same_node) : Linked mpi' mpi ch' ch same_node :=
  ⟨h.size.symm, h.rank_lt', h.rank_lt, h.inter.symm, h.intra.symm, h.together', h.together⟩

theorem Linked.group (h : Linked mpi mpi' ch ch' same_node) (sn : Bool) :
    ch'.group sn = ch.group sn := by
  cases sn
  · exact h.inter
  · exact h.intra

theorem Linked.numUriPlan (h : Linked mpi mpi' ch ch' same_node) :
    ch'.numUriPlan = ch.numUriPlan := by
  rw [UnrChannels.numUriPlan, UnrChannels.numUriPlan, h.inter, h.intra]

theorem Linked.planId (h : Linked mpi mpi' ch ch' same_node) (sn : Bool) (j : Nat) :
    ch'.planId sn j = ch.planId sn j := by
  rw [UnrChannels.planId, UnrChannels.planId, h.inter]

theorem Linked.planChannel (h : Linked mpi mpi' ch ch' same_node) (id : Nat) :
    ch'.planChannel id = ch.planChannel id := by
  rw [UnrChannels.planChannel, UnrChannels.planChannel, h.inter, h.intra]

end

/-! ### One send -/

theorem fetch_map {α β : Type} (f : α → β) (xs : List α) (i : Nat) :
    fetch (xs.map f) i = f <$> fetch xs i := by
  simp only [fetch, List.getElem?_map]
  cases xs[i]? <;> rfl

theorem PlanState.push_dual (s : PlanState) (id : Nat) (w : SubWrite) :
    s.dual.push id w.dual = dual <$> s.push id w := by
  have hcolumn : fetch s.dual.slots id = List.map (Option.map SubWrite.dual) <$> fetch s.slots id :=
    fetch_map _ _ _
  simp only [push, hcolumn]
  change (fetch s.uri_plan_num_wrts id >>= _) = _
  cases fetch s.uri_plan_num_wrts id with
  | error e => rfl
  | ok k =>
      cases fetch s.slots id with
      | error e => rfl
      | ok column =>
          change (if ¬ k < (column.map (Option.map SubWrite.dual)).length then _ else _) =
            dual <$> (if ¬ k < column.length then _ else _)
          rw [List.length_map]
          by_cases hk : k < column.length
          · rw [if_neg (not_not_intro hk), if_neg (not_not_intro hk)]
            change Except.ok _ = Except.ok _
            simp only [dual, List.map_set, Option.map_some]
          · rw [if_pos hk, if_pos hk]
            rfl

/-- The choice of a flag stops in one way only, so two choices can be made in
either order. -/
theorem flagOf_comm {n n' : Nat} {sig_arr : Option (Fin n → UnrSig)} {i : Fin n}
    {sig_arr' : Option (Fin n' → UnrSig)} {i' : Fin n'} {dst_rank dst_rank' : Int}
    {flag_p flag_p' : Option Nat} {β : Type} (f : Option Nat → Option Nat → Prog β) :
    (do let x ← flagOf sig_arr i dst_rank flag_p
        let y ← flagOf sig_arr' i' dst_rank' flag_p'
        f x y) =
      (do let y ← flagOf sig_arr' i' dst_rank' flag_p'
          let x ← flagOf sig_arr i dst_rank flag_p
          f x y) := by
  have hstop : ∀ {m : Nat} (sigs : Option (Fin m → UnrSig)) (k : Fin m) (r : Int) (p : Option Nat),
      flagOf sigs k r p = .error (.exit .assertExit) ∨ ∃ x, flagOf sigs k r p = .ok x := by
    intro m sigs k r p
    cases sigs with
    | none => exact .inr ⟨_, rfl⟩
    | some sigs =>
        simp only [flagOf]
        split
        · rw [uruAssert_bind]
          split
          · exact .inr ⟨_, rfl⟩
          · exact .inl rfl
        · exact .inr ⟨_, rfl⟩
  rcases hstop sig_arr i dst_rank flag_p with h | ⟨x, h⟩ <;>
    rcases hstop sig_arr' i' dst_rank' flag_p' with h' | ⟨y, h'⟩ <;> simp only [h, h'] <;> rfl

section

variable {mpi mpi' : UruMpi} {ch ch' : UnrChannels} {same_node : Bool} {a : PlanPara}
  {i : Fin a.num_sends}

theorem planPart_dual (h : Linked mpi mpi' ch ch' same_node) (htype : a.dma_type i ≠ .unknown)
    (hloc : (a.loc_blk_arr i).dst_rank = mpi.rank) (hrmt : (a.rmt_blk_arr i).dst_rank = mpi'.rank)
    (loc_unr_mem rmt_unr_mem : UnrMem) (sig_add_arr : List (BitVec 64)) (s : PlanState) (j : Nat) :
    planPart mpi' ch' a.dual same_node rmt_unr_mem loc_unr_mem sig_add_arr i s.dual j =
      PlanState.dual <$> planPart mpi ch a same_node loc_unr_mem rmt_unr_mem sig_add_arr i s j := by
  have hput := UruTransfer.flip_eq_dmaPut htype
  have hdiv : s.dual.div_plan_wrt_size = s.div_plan_wrt_size := rfl
  have hoffset : s.dual.div_plan_wrt_offset = s.div_plan_wrt_offset := rfl
  simp only [planPart, h.group, h.planId, PlanPara.dual_dma_type, hput, hdiv, hoffset, ite_not]
  by_cases hshare : s.div_plan_wrt_size.getD j 0 = 0
  · rw [if_pos hshare, if_pos hshare]
    rfl
  · rw [if_neg hshare, if_neg hshare]
    cases fetch (ch.group same_node).uri_mem_h_offset j with
    | error e => rfl
    | ok uri_mem_offset =>
        rw [ok_bind, ok_bind, flagOf_comm]
        have hdual : (a.dual.rmt_blk_arr i).dst_rank = mpi.rank := hloc
        rw [hdual, hrmt]
        change (flagOf a.rmt_sig_arr i mpi'.rank (if a.dma_type i = .dmaPut then
            (a.rmt_blk_arr i).recv_flag_p else (a.rmt_blk_arr i).send_flag_p) >>= fun y =>
          flagOf a.loc_sig_arr i mpi.rank (if a.dma_type i = .dmaPut then
            (a.loc_blk_arr i).send_flag_p else (a.loc_blk_arr i).recv_flag_p) >>= fun x => _) = _
        cases flagOf a.rmt_sig_arr i mpi'.rank (if a.dma_type i = .dmaPut then
            (a.rmt_blk_arr i).recv_flag_p else (a.rmt_blk_arr i).send_flag_p) with
        | error e => rfl
        | ok rmt_flag_p =>
            cases flagOf a.loc_sig_arr i mpi.rank (if a.dma_type i = .dmaPut then
                (a.loc_blk_arr i).send_flag_p else (a.loc_blk_arr i).recv_flag_p) with
            | error e => rfl
            | ok loc_flag_p =>
                rw [ok_bind, ok_bind, ok_bind, ok_bind, ← PlanState.push_dual]
                rfl

/-- The checks on the blocks of a send pass on both sides, and both sides find
the same two regions. -/
theorem planSend_known (h : Linked mpi mpi' ch ch' same_node) {loc_unr_mem rmt_unr_mem : UnrMem}
    (hloc : (a.loc_blk_arr i).Known mpi.rank ch ch' loc_unr_mem)
    (hrmt : (a.rmt_blk_arr i).Known mpi'.rank ch' ch rmt_unr_mem) (hsize : a.size i ≠ 0)
    (s : PlanState) :
    planSend mpi ch a s i = (do
      let g := ch.group same_node
      let (div, cursor) ←
        divPlanWrtSize g (a.size i) (s.nextChannelId same_node) s.div_plan_wrt_size
      (List.range g.num).foldlM
        (planPart mpi ch a same_node loc_unr_mem rmt_unr_mem (sigAddArr ch.numUriPlan g.num div) i)
        { s.setNextChannelId same_node cursor with
          div_plan_wrt_size := div
          div_plan_wrt_offset := divPlanWrtOffset g.num div s.div_plan_wrt_offset }) := by
  obtain ⟨mems, hmems, hmem⟩ := bind_eq_ok.mp hrmt.rmt_mem
  have hrank : (a.rmt_blk_arr i).dst_rank < mpi.size := by
    rw [hrmt.dst_rank, ← h.size]
    exact h.rank_lt'
  have hlocIdx : (a.loc_blk_arr i).mem_idx < ch.loc_mem_arr.length := by
    obtain ⟨hpos, hget⟩ := fetchAt_eq_ok.mp hloc.loc_mem
    have := (List.getElem?_eq_some_iff.mp hget).1
    omega
  have hrmtIdx : ¬ (a.rmt_blk_arr i).mem_idx ≥ mems.length := by
    obtain ⟨hpos, hget⟩ := fetchAt_eq_ok.mp hmem
    have := (List.getElem?_eq_some_iff.mp hget).1
    omega
  have htogether : fetchAt mpi.same_node (a.rmt_blk_arr i).dst_rank = .ok same_node := by
    rw [hrmt.dst_rank]
    exact h.together
  simp only [planSend, if_neg hsize, uruAssert_bind, if_pos hloc.dst_rank, if_pos hrank,
    if_pos hlocIdx, hmems, ok_bind, if_neg hrmtIdx, htogether, hloc.loc_mem, hmem]

/-- The two processes of a plan, and what they know of its blocks. -/
structure Facing (mpi mpi' : UruMpi) (ch ch' : UnrChannels) (same_node : Bool) (a : PlanPara) :
    Prop where
  linked : Linked mpi mpi' ch ch' same_node
  loc : ∀ i, ∃ mem, (a.loc_blk_arr i).Known mpi.rank ch ch' mem
  rmt : ∀ i, ∃ mem, (a.rmt_blk_arr i).Known mpi'.rank ch' ch mem
  dma_type : ∀ i, a.dma_type i ≠ .unknown

theorem planSend_dual (h : Facing mpi mpi' ch ch' same_node a) (hsize : a.dual.size i = a.size i)
    (s : PlanState) :
    planSend mpi' ch' a.dual s.dual i = PlanState.dual <$> planSend mpi ch a s i := by
  obtain ⟨loc_unr_mem, hloc⟩ := h.loc i
  obtain ⟨rmt_unr_mem, hrmt⟩ := h.rmt i
  by_cases hzero : a.size i = 0
  · rw [planSend_zero hzero, planSend_zero (hsize.trans hzero)]
    rfl
  · have hzero' : a.dual.size i ≠ 0 := by rwa [hsize]
    have hdiv : s.dual.div_plan_wrt_size = s.div_plan_wrt_size := rfl
    have hdual := planSend_known (a := a.dual) h.linked.symm hrmt hloc hzero' s.dual
    simp only [hsize, h.linked.group, h.linked.numUriPlan, PlanState.dual_nextChannelId, hdiv]
      at hdual
    rw [hdual, planSend_known h.linked hloc hrmt hzero s]
    dsimp only
    cases divPlanWrtSize (ch.group same_node) (a.size i) (s.nextChannelId same_node)
        s.div_plan_wrt_size with
    | error e => rfl
    | ok r =>
        refine Eq.trans ?_ (foldlM_hom (fun s j _ => planPart_dual h.linked (h.dma_type i)
          hloc.dst_rank hrmt.dst_rank loc_unr_mem rmt_unr_mem _ s j) _)
        cases same_node <;> rfl

end

/-! ### The plan -/

section

variable {mpi mpi' : UruMpi} {ch ch' : UnrChannels} {same_node : Bool} {a : PlanPara}

theorem planHand_dual (h : Linked mpi mpi' ch ch' same_node) (s : PlanState) (id : Nat) :
    planHand ch' a.dual s.dual id = UriPlanCreate.dual <$> planHand ch a s id := by
  have hcolumn : fetch s.dual.slots id = List.map (Option.map SubWrite.dual) <$> fetch s.slots id :=
    fetch_map _ _ _
  have hread : ∀ (column : List (Option SubWrite)) (k : Nat),
      readSlot (column.map (Option.map SubWrite.dual)) k = SubWrite.dual <$> readSlot column k := by
    intro column k
    simp only [readSlot, List.getElem?_map]
    rcases column[k]? with _ | _ | w <;> rfl
  simp only [planHand, hcolumn, h.planChannel]
  cases fetch s.slots id with
  | error e => rfl
  | ok column =>
      change (fetch s.uri_plan_num_wrts id >>= _) = UriPlanCreate.dual <$>
        (fetch s.uri_plan_num_wrts id >>= _)
      cases fetch s.uri_plan_num_wrts id with
      | error e => rfl
      | ok num_wrts =>
          rw [ok_bind, ok_bind, mapM_hom fun k _ => hread column k]
          cases (List.range num_wrts).mapM (readSlot column) with
          | error e => rfl
          | ok wrts => rfl

theorem planStart_dual (h : Linked mpi mpi' ch ch' same_node) :
    planStart ch' a.dual = (planStart ch a).dual := by
  simp only [planStart, h.numUriPlan, PlanState.dual, List.map_replicate, Option.map_none]
  rfl

theorem planLoops_dual (h : Facing mpi mpi' ch ch' same_node a)
    (hsize : ∀ i, a.dual.size i = a.size i) :
    (do let s ← (List.finRange a.dual.num_sends).foldlM (planSend mpi' ch' a.dual)
          (planStart ch' a.dual)
        let used := (List.range ch'.numUriPlan).filter fun id => s.uri_plan_num_wrts.getD id 0 ≠ 0
        used.mapM (planHand ch' a.dual s)) =
      List.map UriPlanCreate.dual <$> (do
        let s ← (List.finRange a.num_sends).foldlM (planSend mpi ch a) (planStart ch a)
        let used := (List.range ch.numUriPlan).filter fun id => s.uri_plan_num_wrts.getD id 0 ≠ 0
        used.mapM (planHand ch a s)) := by
  have hsends : (List.finRange a.dual.num_sends).foldlM (planSend mpi' ch' a.dual)
      (planStart ch' a.dual) =
      PlanState.dual <$>
        (List.finRange a.num_sends).foldlM (planSend mpi ch a) (planStart ch a) := by
    rw [planStart_dual h.linked]
    exact foldlM_hom (fun s i _ => planSend_dual h (hsize i) s) _
  rw [hsends, h.linked.numUriPlan]
  cases (List.finRange a.num_sends).foldlM (planSend mpi ch a) (planStart ch a) with
  | error e => rfl
  | ok s => exact mapM_hom fun id _ => planHand_dual h.linked s id

/-- Sends of the other side, with the sides exchanged, make the mirror images
of the calls of `uri_rdma_plan_create`; and they stop where these do. -/
theorem planNow_dual (h : Facing mpi mpi' ch ch' same_node a) :
    planNow mpi' ch' a.dual = List.map UriPlanCreate.dual <$> planNow mpi ch a := by
  have hloops := planLoops_dual h
  have hnum : a.dual.num_sends = a.num_sends := rfl
  have harr : a.dual.size_arr.isNone = a.size_arr.isNone := rfl
  have hblk : (∀ i, (a.dual.loc_blk_arr i).size = (a.dual.rmt_blk_arr i).size) ↔
      ∀ i, (a.loc_blk_arr i).size = (a.rmt_blk_arr i).size :=
    ⟨fun hall i => (hall i).symm, fun hall i => (hall i).symm⟩
  simp only [planNow, uruAssert_bind, hnum, harr]
  by_cases hpos : 0 < a.num_sends
  · by_cases hlarge : 2 ^ 31 ≤ a.num_sends
    · simp only [if_pos hpos, if_pos hlarge]
      rfl
    · simp only [if_pos hpos, if_neg hlarge]
      cases hsizes : a.size_arr with
      | some sizes =>
          exact hloops fun i => a.dual_size i fun hnone =>
            (Option.some_ne_none sizes (hsizes.symm.trans hnone)).elim
      | none =>
          by_cases hagree : ∀ i, (a.loc_blk_arr i).size = (a.rmt_blk_arr i).size
          · simp only [if_pos (hblk.mpr hagree), if_pos hagree]
            exact hloops fun i => a.dual_size i fun _ => hagree i
          · simp only [if_neg (hblk.not.mpr hagree), if_neg hagree]
            rfl
  · simp only [if_neg hpos]
    rfl

theorem Facing.dual (h : Facing mpi mpi' ch ch' same_node a) :
    Facing mpi' mpi ch' ch same_node a.dual where
  linked := h.linked.symm
  loc := h.rmt
  rmt := h.loc
  dma_type i := by
    have htype := h.dma_type i
    intro hunknown
    have hflip : (a.dma_type i).flip = .unknown := (a.dual_dma_type i).symm.trans hunknown
    cases hcase : a.dma_type i with
    | unknown => exact htype hcase
    | dmaPut | dmaGet =>
        rw [hcase] at hflip
        exact nomatch hflip

theorem memSynced_facing (h : Facing mpi mpi' ch ch' same_node a) : memSynced ch a = .ok true := by
  have hloop : ∃ synced, memSynced ch a = .ok synced ∧ synced = true := by
    refine foldlM_ok (P := fun _ synced => synced = true) (fun _ i _ synced _ hsynced => ?_) rfl
    obtain ⟨mem, hknown⟩ := h.rmt i
    obtain ⟨mems, hmems, hmem⟩ := bind_eq_ok.mp hknown.rmt_mem
    have hlt : (a.rmt_blk_arr i).mem_idx < mems.length := by
      obtain ⟨hpos, hget⟩ := fetchAt_eq_ok.mp hmem
      have := (List.getElem?_eq_some_iff.mp hget).1
      omega
    refine ⟨true, ?_, rfl⟩
    rw [if_pos hsynced, hmems, ok_bind, decide_eq_true hlt]
    rfl
  obtain ⟨synced, hrun, rfl⟩ := hloop
  exact hrun

theorem unrRdmaPlanCreate_facing (h : Facing mpi mpi' ch ch' same_node a) :
    unrRdmaPlanCreate mpi ch a none = UnrPlan.created <$> planNow mpi ch a := by
  rw [unrRdmaPlanCreate, memSynced_facing h, ok_bind, if_pos rfl]
  rfl

end

/-! ### Registered regions -/

section

variable {t : MemRegTable} {chs : Nat → UriChannelT} {ch : UnrChannels} {n : Nat}
  {es : List MemEvent} {w : MemWorld}

/-- After a synchronisation every process knows of the blocks in the regions
registered before. -/
theorem MemWorld.DirectoryAgreement.known (h : w.DirectoryAgreement t chs ch n es) {p r j : Nat}
    (hp : p < n) (hr : r < n) (hj : j < (regions r (untilSync es)).length)
    {mem_h : List (BitVec 8)} (hmem : (w.procs r).loc_mem_arr[j]? = some (some mem_h))
    {offset size : Nat} {send_sig_h recv_sig_h : UnrSig} {blk : UnrBlk}
    (hblk : unrBlkReg r mem_h offset size send_sig_h recv_sig_h = .ok blk) :
    blk.Known r ((w.procs r).channels ch) ((w.procs p).channels ch)
      ⟨(regions r (untilSync es))[j].1.toNat, (regions r (untilSync es))[j].2.toNat, r, j⟩ := by
  have hrank := (unrBlkReg_ok hblk).1
  have hown := h.blocks r hr r hr j hj mem_h hmem offset size send_sig_h recv_sig_h blk hblk
  have hinitial := regions_untilSync_prefix r es
  -- the index in the block is that of the region
  have hidx : blk.mem_idx = j := by
    obtain ⟨mems, hmems, hget⟩ := bind_eq_ok.mp hown
    rw [h.remote_mems r hr, hrank, fetchAt_natCast, fetch_eq_ok, List.getElem?_map,
      List.getElem?_range hr] at hmems
    cases hmems
    obtain ⟨hpos, hget⟩ := fetchAt_eq_ok.mp hget
    have hlt := (List.getElem?_eq_some_iff.mp hget).1
    rw [length_unrMems] at hlt
    rw [getElem?_unrMems hlt, Option.some.injEq, UnrMem.mk.injEq] at hget
    omega
  refine ⟨hrank, ?_, h.blocks p hp r hr j hj mem_h hmem offset size send_sig_h recv_sig_h blk hblk,
    rfl⟩
  obtain ⟨more, hmore⟩ := hinitial
  have hj' : j < (regions r es).length := by
    rw [← hmore, List.length_append]
    omega
  have hsame : (regions r es)[j] = (regions r (untilSync es))[j] := by
    simp only [← hmore, List.getElem_append_left hj]
  rw [h.local_mems r hr, hidx, fetchAt_natCast, fetch_eq_ok, getElem?_unrMems hj', hsame]

/-- The block has been made by process `r` in a region that it registered before
the last synchronisation. -/
def MemWorld.Registered (w : MemWorld) (es : List MemEvent) (r : Nat) (blk : UnrBlk) : Prop :=
  ∃ j mem_h offset size send_sig_h recv_sig_h, j < (regions r (untilSync es)).length ∧
    (w.procs r).loc_mem_arr[j]? = some (some mem_h) ∧
    unrBlkReg r mem_h offset size send_sig_h recv_sig_h = .ok blk

/-- Between such blocks a plan is never put off. -/
theorem MemWorld.DirectoryAgreement.created_at_once (h : w.DirectoryAgreement t chs ch n es)
    {p r : Nat} (hp : p < n) (hr : r < n) {mpi mpi' : UruMpi} {same_node : Bool} {a : PlanPara}
    (hlinked : Linked mpi mpi' ((w.procs p).channels ch) ((w.procs r).channels ch) same_node)
    (hrank : mpi.rank = p) (hrank' : mpi'.rank = r)
    (hloc : ∀ i, w.Registered es p (a.loc_blk_arr i))
    (hrmt : ∀ i, w.Registered es r (a.rmt_blk_arr i)) (htypes : ∀ i, a.dma_type i ≠ .unknown) :
    unrRdmaPlanCreate mpi ((w.procs p).channels ch) a none =
      UnrPlan.created <$> planNow mpi ((w.procs p).channels ch) a := by
  refine unrRdmaPlanCreate_facing ⟨hlinked, fun i => ?_, fun i => ?_, htypes⟩
  · obtain ⟨j, mem_h, _, _, _, _, hj, hmem, hblk⟩ := hloc i
    rw [hrank]
    exact ⟨_, h.known hr hp hj hmem hblk⟩
  · obtain ⟨j, mem_h, _, _, _, _, hj, hmem, hblk⟩ := hrmt i
    rw [hrank']
    exact ⟨_, h.known hp hr hj hmem hblk⟩

end

end Unr.Core
