import Unr.Core.SignalRuns
import Unr.Uri.Bounds
import Unr.Uri.Counts

/-!
What the parts of a send do to its two flags.

An MPI channel carries the addend of a part and adds it when the part is
complete. A verbs channel cannot carry it: it insists on -1 when the plan is
created, and subtracts one for every part. The two agree as long as the send
is not divided.
-/

namespace Unr.Uri

open Unr.Uru Unr.Core Unr.Logic
open Unr.Mpi (MemInfo Write)

def groupType (t : ChannelTable) (g : ChannelGroup) : ChannelType :=
  (t.attr (g.channels.headD 0)).type

section

variable (mpi_size : Nat) (flag_pool : Verbs.FlagPool) (lkey rkey : MemInfo → BitVec 32)
  (type : ChannelType)

/-- The flag that a completed part updates at the initiator, and the number it
adds to the counter. -/
def locUpdate (e : Write) : Option (Nat × BitVec 64) :=
  match type with
  | .mpi =>
      let op := e.sendOp 0 0 0 0
      op.flag_p.map (·, op.flag_add)
  | .verbs =>
      match Verbs.planWr mpi_size flag_pool lkey rkey e with
      | .ok pr => (flag_pool.named e.loc_mem.rank pr.wr.locEvent).map (·, -1#64)
      | .error _ => none

/-- The same at the target. -/
def rmtUpdate (e : Write) : Option (Nat × BitVec 64) :=
  match type with
  | .mpi =>
      let op := e.recvOp 0 0 0 0
      op.flag_p.map (·, op.flag_add)
  | .verbs =>
      match Verbs.planWr mpi_size flag_pool lkey rkey e with
      | .ok pr => (flag_pool.named e.rmt_mem.rank pr.wr.rmtEvent).map (·, -1#64)
      | .error _ => none

/-- The counter of a flag after some updates. -/
def countAfter (flag_p : Nat) (counter : BitVec 64) (updates : List (Option (Nat × BitVec 64))) :
    BitVec 64 :=
  updates.foldl
    (fun counter update =>
      match update with
      | some (p, flag_add) => if p = flag_p then counter + flag_add else counter
      | none => counter) counter

/-- All parts together take one message off each of the two flags. -/
structure SignalledOnce (entries : List Write) (loc_flag_p rmt_flag_p : Option Nat) : Prop where
  loc : ∀ flag_p, loc_flag_p = some flag_p → ∀ counter, countAfter flag_p counter
    (entries.map (locUpdate mpi_size flag_pool lkey rkey type)) = counter - 1
  rmt : ∀ flag_p, rmt_flag_p = some flag_p → ∀ counter, countAfter flag_p counter
    (entries.map (rmtUpdate mpi_size flag_pool lkey rkey type)) = counter - 1

end

section

variable (type : ChannelType) (mpi : UruMpi) (ch : UnrChannels) (flag_pool : Verbs.FlagPool)
  (a : PlanPara) (i : Fin a.num_sends)

def locFlag : Option Nat :=
  chosenFlag a.loc_sig_arr i (if a.dma_type i = .dmaPut then (a.loc_blk_arr i).send_flag_p
    else (a.loc_blk_arr i).recv_flag_p)

def rmtFlag : Option Nat :=
  chosenFlag a.rmt_sig_arr i (if a.dma_type i = .dmaPut then (a.rmt_blk_arr i).recv_flag_p
    else (a.rmt_blk_arr i).send_flag_p)

/-- A put or get between two registered regions that stays inside them. With
verbs channels the flags are from the pool. -/
structure ValidSend : Prop where
  dma_type : a.dma_type i ≠ .unknown
  loc_rank : (a.locMem ch i).rank = mpi.rank.toNat
  rmt_rank : (a.rmtMem ch i).rank < mpi.size
  loc_region : ValidRegion (a.locMem ch i)
  rmt_region : ValidRegion (a.rmtMem ch i)
  loc_end : PlanPara.start (a.loc_blk_arr i) a.loc_offset_arr i + a.size i ≤
    (a.locMem ch i).size
  rmt_end : PlanPara.start (a.rmt_blk_arr i) a.rmt_offset_arr i + a.size i ≤
    (a.rmtMem ch i).size
  loc_flag : type = .verbs → ∀ flag_p, locFlag a i = some flag_p →
    flag_pool.Allocated mpi.size (a.locMem ch i).rank flag_p
  rmt_flag : type = .verbs → ∀ flag_p, rmtFlag a i = some flag_p →
    flag_pool.Allocated mpi.size (a.rmtMem ch i).rank flag_p

def Signalled : Prop := (locFlag a i).isSome ∨ (rmtFlag a i).isSome

end

/-! ### Counting the updates -/

/-- If every part updates the flag, all addends reach the counter. -/
theorem countAfter_of_all {f : Write → Option (Nat × BitVec 64)} {add : Write → BitVec 64}
    {flag_p : Nat} {entries : List Write}
    (hall : ∀ e ∈ entries, f e = some (flag_p, add e)) (counter : BitVec 64) :
    countAfter flag_p counter (entries.map f) =
      (entries.map add).foldl (· + ·) counter := by
  induction entries generalizing counter with
  | nil => rfl
  | cons e es ih =>
      have hrest := ih (fun e' he' => hall e' (by simp [he'])) (counter + add e)
      rw [List.map_cons, List.map_cons, List.foldl_cons, ← hrest, countAfter, List.foldl_cons,
        hall e (by simp)]
      simp only [if_true]
      rfl

/-- The addends of the parts of a send sum up to -1. -/
theorem foldl_sig_add (s : Send) (counter : BitVec 64) :
    (s.parts.map Part.sig_add).foldl (· + ·) counter = counter - 1 := by
  have hfold : ∀ (ps : List Part) (flag : UruFlag),
      (applyParts flag ps).counter = (ps.map Part.sig_add).foldl (· + ·) flag.counter := by
    intro ps
    induction ps with
    | nil => exact fun _ => rfl
    | cons p ps ih => exact fun flag => ih (flag.add p.sig_add)
  have hcounter : counter = packed 64 32 counter.toNat 0 := by
    rw [packed, mul_zero, add_zero, BitVec.ofInt_natCast, BitVec.ofNat_toNat, BitVec.setWidth_eq]
  have hmem : ∀ p ∈ s.parts, p ∈ p.send.parts := fun p hp => by
    rwa [send_eq_of_mem_parts hp]
  have hstart : (⟨counter, none, 0, 0⟩ : UruFlag).counter = packed 64 32 counter.toNat 0 := hcounter
  have hrun := applyParts_counter hstart hmem
  rw [hfold, s.messages_parts, s.outstanding_parts] at hrun
  rw [hrun, sub_eq_add_neg, packed, add_zero, mul_zero, add_zero, BitVec.ofInt_add,
    BitVec.ofInt_natCast, BitVec.ofNat_toNat, BitVec.setWidth_eq, BitVec.sub_eq_add_neg]
  rfl

section

variable {mpi : UruMpi} {ch : UnrChannels} {a : PlanPara} {i : Fin a.num_sends}
  {share : List Nat}

/-- The same addend goes to both sides. -/
theorem sendEntries_flag_add :
    (sendEntries mpi ch a share i).map (·.rmt_flag_add) =
      (sendEntries mpi ch a share i).map (·.loc_flag_add) := by
  rw [sendEntries, List.map_map, List.map_map]
  rfl

theorem sendEntries_sig_add (hnum : (ch.group (a.sameNode mpi i)).num ≤ ch.numUriPlan)
    {s : Send} (hgroup : s.group = ch.group (a.sameNode mpi i))
    (hdiv : s.div_plan_wrt_size.take (ch.group (a.sameNode mpi i)).num = share) :
    (sendEntries mpi ch a share i).map (·.loc_flag_add) = s.parts.map Part.sig_add := by
  have hget : ∀ j < (ch.group (a.sameNode mpi i)).num,
      share.getD j 0 = s.div_plan_wrt_size.getD j 0 := by
    intro j hj
    rw [← hdiv]
    simp [List.getD, hj]
  have hfilter : (List.range (ch.group (a.sameNode mpi i)).num).filter
      (fun j => share.getD j 0 ≠ 0) =
      (List.range s.group.num).filter fun j => s.div_plan_wrt_size.getD j 0 ≠ 0 := by
    rw [hgroup]
    refine List.filter_congr fun j hj => ?_
    rw [hget j (List.mem_range.mp hj)]
  rw [sendEntries, Send.parts, List.map_map, List.map_map, hfilter]
  refine List.map_congr_left fun j hj => ?_
  obtain ⟨hlt, hne⟩ := List.mem_filter.mp hj
  rw [List.mem_range] at hlt
  have hne' : s.div_plan_wrt_size.getD j 0 ≠ 0 := by simpa using hne
  show (sigAddArr ch.numUriPlan (ch.group (a.sameNode mpi i)).num share).getD j 0 =
    (sigAddArr s.scratch.length s.group.num s.div_plan_wrt_size).getD j 0
  rw [← hdiv, sigAddArr_take, ← hgroup, sigAddArr_getD _ s.sum_pos hlt s.room hne',
    sigAddArr_getD _ s.sum_pos hlt (by rw [hgroup]; exact hnum) hne']

/-- Every addend is -1 exactly if the send is not divided. -/
theorem flag_adds_iff {b : Nat} (hg : (ch.group (a.sameNode mpi i)).Accepted b)
    (hnum : (ch.group (a.sameNode mpi i)).num ≤ ch.numUriPlan)
    (hshare : SharesOf (ch.group (a.sameNode mpi i)) (a.size i) share) (hsize : a.size i ≠ 0) :
    (∀ e ∈ sendEntries mpi ch a share i, e.loc_flag_add = -1#64) ↔
      (ch.group (a.sameNode mpi i)).num = 1 ∨
        a.size i < 2 * (ch.group (a.sameNode mpi i)).blocksize := by
  obtain ⟨c, hc, hdealt⟩ := hshare.dealt
  have hone := nonZeros_eq_one_iff hg.num_pos (by rw [hg.blocksize_eq]; exact hg.blk_pos) hc hdealt
    hshare.length.ge (Nat.pos_of_ne_zero hsize)
  obtain ⟨s, hgroup, hdiv⟩ := hshare.send hsize
  have hnonZeros : nonZeros (ch.group (a.sameNode mpi i)).num share = s.non_zeros := by
    rw [← hdiv, Send.non_zeros, hgroup, nonZeros, nonZeros, List.take_take, Nat.min_self]
  have hadds : (∀ e ∈ sendEntries mpi ch a share i, e.loc_flag_add = -1#64) ↔
      ∀ p ∈ s.parts, p.sig_add = -1#64 := by
    rw [← List.forall_mem_map (f := Write.loc_flag_add) (P := (· = -1#64)),
      sendEntries_sig_add hnum hgroup hdiv, List.forall_mem_map]
  rw [hadds, ← hone, hnonZeros]
  constructor
  · intro hall
    -- a part that is not the first adds something else
    have hfirst : ∀ p ∈ s.parts, p.isFirst := by
      intro p hp
      by_contra hnot
      have hadd := hall p hp
      rw [Part.sig_add_eq hp, Part.messages, Part.outstanding, if_neg hnot, if_neg hnot] at hadd
      exact absurd hadd (by decide)
    have hcount := s.countP_isFirst
    rwa [List.countP_eq_length.mpr hfirst, s.parts_length] at hcount
  · intro hsingle p hp
    have hlength := s.parts_length
    rw [hsingle, ← s.countP_isFirst] at hlength
    have hfirst := List.countP_eq_length.mp hlength.symm p hp
    rw [Part.sig_add_eq hp, Part.messages, Part.outstanding, if_pos hfirst, if_pos hfirst,
      send_eq_of_mem_parts hp, hsingle]
    decide

end

/-! ### The checks of the channels -/

section

variable {type : ChannelType} {mpi_size rank : Nat} {flag_pool : Verbs.FlagPool}
  {lkey rkey : MemInfo → BitVec 32} {e : Write} {flag_p : Nat}

theorem channelCheck_verbs :
    channelCheck mpi_size rank flag_pool lkey rkey .verbs e = .ok () ↔
      ∃ pr, Verbs.planWr mpi_size flag_pool lkey rkey e = .ok pr := by
  simp only [channelCheck, bind_eq_ok]
  constructor
  · rintro ⟨pr, hpr, -⟩
    exact ⟨pr, hpr⟩
  · rintro ⟨pr, hpr⟩
    exact ⟨pr, hpr, rfl⟩

theorem locUpdate_eq (hsize : flag_pool.size ≤ 2 ^ 32) (hflag : e.loc_flag_p = some flag_p)
    (halloc : type = .verbs → flag_pool.Allocated mpi_size e.loc_mem.rank flag_p)
    (hcheck : channelCheck mpi_size rank flag_pool lkey rkey type e = .ok ()) :
    locUpdate mpi_size flag_pool lkey rkey type e = some (flag_p, e.loc_flag_add) := by
  cases type with
  | mpi => simp only [locUpdate, Write.sendOp, hflag, Option.map_some]
  | verbs =>
      obtain ⟨pr, hpr⟩ := channelCheck_verbs.mp hcheck
      have hevent := (Verbs.wrOf_planWr hpr).loc_event
      rw [hflag] at hevent
      have hnamed := Verbs.FlagPool.named_of_fill hsize (halloc rfl) hevent
      rw [(Verbs.uriVerbsEventFill_eq_ok.mp hevent).1]
      simp only [locUpdate, hpr, Verbs.IbvSendWr.locEvent, hnamed, Option.map_some]

theorem rmtUpdate_eq (hsize : flag_pool.size ≤ 2 ^ 32) (hflag : e.rmt_flag_p = some flag_p)
    (halloc : type = .verbs → flag_pool.Allocated mpi_size e.rmt_mem.rank flag_p)
    (hcheck : channelCheck mpi_size rank flag_pool lkey rkey type e = .ok ()) :
    rmtUpdate mpi_size flag_pool lkey rkey type e = some (flag_p, e.rmt_flag_add) := by
  cases type with
  | mpi => simp only [rmtUpdate, Write.recvOp, hflag, Option.map_some]
  | verbs =>
      obtain ⟨pr, hpr⟩ := channelCheck_verbs.mp hcheck
      have hwr := Verbs.wrOf_planWr hpr
      have hevent :
          Verbs.uriVerbsEventFill mpi_size flag_pool e.rmt_mem.rank flag_p e.rmt_flag_add =
          .ok pr.wr.rmtEvent := by
        unfold Verbs.IbvSendWr.rmtEvent
        cases htype : e.dma_type with
        | unknown => exact absurd htype hwr.known
        | dmaPut =>
            obtain ⟨-, hopcode, hevent⟩ := hwr.put htype
            rw [hflag] at hopcode hevent
            rw [hopcode]
            exact hevent
        | dmaGet =>
            obtain ⟨hopcode, hevent⟩ := hwr.get htype
            rw [hflag] at hevent
            rw [hopcode]
            exact hevent
      have hnamed := Verbs.FlagPool.named_of_fill hsize (halloc rfl) hevent
      rw [(Verbs.uriVerbsEventFill_eq_ok.mp hevent).1]
      simp only [rmtUpdate, hpr, hnamed, Option.map_some]

end

section

variable {type : ChannelType} {mpi : UruMpi} {ch : UnrChannels} {flag_pool : Verbs.FlagPool}
  {lkey rkey : MemInfo → BitVec 32} {a : PlanPara} {i : Fin a.num_sends} {share : List Nat}

/-- A part of a valid send passes the checks of its channel, unless that is a
verbs channel that is asked for another addend than -1. -/
theorem channelCheck_part (hvalid : ValidSend type mpi ch flag_pool a i)
    (hshare : SharesOf (ch.group (a.sameNode mpi i)) (a.size i) share) {j : Nat}
    (hj : j < (ch.group (a.sameNode mpi i)).num) :
    channelCheck mpi.size mpi.rank.toNat flag_pool lkey rkey type
        (partEntry mpi ch a share i j) = .ok () ↔
      (Signalled a i → type = .mpi ∨ (partEntry mpi ch a share i j).loc_flag_add = -1#64) := by
  cases type with
  | mpi =>
      have hj' : j < share.length := by rw [hshare.length]; exact hj
      have hdisp := displacement_add_le_sum hj'
      rw [hshare.total] at hdisp
      have hget : share.getD j 0 = share[j] := List.getD_eq_getElem _ _ hj'
      have hend : ∀ {start mem_size : Nat}, mem_size < 2 ^ 64 → start + a.size i ≤ mem_size →
          wrap64 (wrap64 (start + displacement share j) + share.getD j 0) ≤ mem_size := by
        intro start mem_size hmem hle
        have hstart : wrap64 (start + displacement share j) = start + displacement share j :=
          wrap64_of_lt (by omega)
        rw [hstart, wrap64_of_lt (by omega)]
        omega
      have hknown : ¬ (a.dma_type i ≠ .dmaPut ∧ a.dma_type i ≠ .dmaGet) := by
        have htype := hvalid.dma_type
        cases hcase : a.dma_type i <;> simp_all
      have hcheck : (partEntry mpi ch a share i j).check mpi.size mpi.rank.toNat = .ok () := by
        simp only [Write.check, bind_eq_ok, uruAssert_eq_ok, throw_if_eq_ok]
        exact ⟨(), hvalid.loc_rank, (), hend hvalid.loc_region.size_lt hvalid.loc_end, (),
          hend hvalid.rmt_region.size_lt hvalid.rmt_end, hknown,
          if_neg (not_not.mpr hvalid.rmt_rank)⟩
      exact ⟨fun _ _ => .inl rfl, fun _ => hcheck⟩
  | verbs =>
      rw [channelCheck_verbs, Verbs.planWr_iff hvalid.dma_type
        (fun flag_p hflag => (hvalid.loc_flag rfl flag_p hflag).holds)
        (fun flag_p hflag => (hvalid.rmt_flag rfl flag_p hflag).holds)]
      constructor
      · rintro ⟨hloc, hrmt⟩ (hsig | hsig)
        · exact .inr (hloc hsig)
        · exact .inr (hrmt hsig)
      · intro hall
        exact ⟨fun hsig => (hall (.inl hsig)).resolve_left (by decide),
          fun hsig => (hall (.inr hsig)).resolve_left (by decide)⟩

/-- All parts of a valid send pass exactly if the transport can signal it. -/
theorem channelCheck_send {b : Nat} (hg : (ch.group (a.sameNode mpi i)).Accepted b)
    (hnum : (ch.group (a.sameNode mpi i)).num ≤ ch.numUriPlan)
    (hvalid : ValidSend type mpi ch flag_pool a i)
    (hshare : SharesOf (ch.group (a.sameNode mpi i)) (a.size i) share) (hsize : a.size i ≠ 0) :
    (∀ e ∈ sendEntries mpi ch a share i,
      channelCheck mpi.size mpi.rank.toNat flag_pool lkey rkey type e = .ok ()) ↔
      (Signalled a i → type = .mpi ∨ (ch.group (a.sameNode mpi i)).num = 1 ∨
        a.size i < 2 * (ch.group (a.sameNode mpi i)).blocksize) := by
  rw [← flag_adds_iff hg hnum hshare hsize]
  have hpart : ∀ e ∈ sendEntries mpi ch a share i,
      (channelCheck mpi.size mpi.rank.toNat flag_pool lkey rkey type e = .ok () ↔
        (Signalled a i → type = .mpi ∨ e.loc_flag_add = -1#64)) := by
    intro e he
    obtain ⟨j, hj, rfl⟩ := List.mem_map.mp he
    exact channelCheck_part hvalid hshare (List.mem_range.mp (List.mem_filter.mp hj).1)
  constructor
  · intro hall hsig
    by_cases htype : type = .mpi
    · exact .inl htype
    · exact .inr fun e he => ((hpart e he).mp (hall e he) hsig).resolve_left htype
  · intro hall e he
    refine (hpart e he).mpr fun hsig => ?_
    rcases hall hsig with htype | hadds
    · exact .inl htype
    · exact .inr (hadds e he)

theorem signalledOnce_of_checks (hpool : flag_pool.size ≤ 2 ^ 32)
    (hnum : (ch.group (a.sameNode mpi i)).num ≤ ch.numUriPlan)
    (hvalid : ValidSend type mpi ch flag_pool a i)
    (hshare : SharesOf (ch.group (a.sameNode mpi i)) (a.size i) share) (hsize : a.size i ≠ 0)
    (hchecks : ∀ e ∈ sendEntries mpi ch a share i,
      channelCheck mpi.size mpi.rank.toNat flag_pool lkey rkey type e = .ok ()) :
    SignalledOnce mpi.size flag_pool lkey rkey type (sendEntries mpi ch a share i)
      (locFlag a i) (rmtFlag a i) := by
  obtain ⟨s, hgroup, hdiv⟩ := hshare.send hsize
  have hadds := sendEntries_sig_add hnum hgroup hdiv
  constructor
  · intro flag_p hflag counter
    have hupdate : ∀ e ∈ sendEntries mpi ch a share i,
        locUpdate mpi.size flag_pool lkey rkey type e = some (flag_p, e.loc_flag_add) := by
      intro e he
      have hcheck := hchecks e he
      obtain ⟨j, -, rfl⟩ := List.mem_map.mp he
      exact locUpdate_eq hpool hflag (fun htype => hvalid.loc_flag htype flag_p hflag) hcheck
    rw [countAfter_of_all hupdate, hadds, foldl_sig_add]
  · intro flag_p hflag counter
    have hupdate : ∀ e ∈ sendEntries mpi ch a share i,
        rmtUpdate mpi.size flag_pool lkey rkey type e = some (flag_p, e.rmt_flag_add) := by
      intro e he
      have hcheck := hchecks e he
      obtain ⟨j, -, rfl⟩ := List.mem_map.mp he
      exact rmtUpdate_eq hpool hflag (fun htype => hvalid.rmt_flag htype flag_p hflag) hcheck
    rw [countAfter_of_all hupdate, sendEntries_flag_add, hadds, foldl_sig_add]

end

/-! ### Plans -/

/-- The creation of a plan through both layers succeeds exactly if every part
of every send passes the checks of its channel. -/
theorem planCreate_eq_ok_iff {t : ChannelTable} {mpi : UruMpi} {ch : UnrChannels}
    {flag_pool : Verbs.FlagPool} {lkey rkey : MemInfo → BitVec 32} {a : PlanPara}
    {b_inter b_intra : Nat} (hacc : ch.Accepted b_inter b_intra) (hlaid : Laid t ch)
    {uri_plans : List UriPlanCreate} (hnow : planNow mpi ch a = .ok uri_plans)
    {shares : Fin a.num_sends → List Nat} (hdecomposes : Decomposes mpi ch a shares uri_plans) :
    planCreate t mpi ch flag_pool lkey rkey a = .ok uri_plans ↔
      ∀ i, ∀ e ∈ sendEntries mpi ch a (shares i) i,
        channelCheck mpi.size mpi.rank.toNat flag_pool lkey rkey
          (groupType t (ch.group (a.sameNode mpi i))) e = .ok () := by
  have hrun : planCreate t mpi ch flag_pool lkey rkey a = .ok uri_plans ↔
      uri_plans.forM (handChecks t mpi ch flag_pool lkey rkey) = .ok () := by
    rw [planCreate, hnow, ok_bind, bind_eq_ok]
    constructor
    · rintro ⟨_, h, -⟩
      exact h
    · intro h
      exact ⟨(), h, rfl⟩
  have hpart : ∀ i, ∀ j < (ch.group (a.sameNode mpi i)).num,
      (do
        let e ← entryOf (memHOffset ch ((ch.group (a.sameNode mpi i)).channels.getD j 0))
          (partWrite mpi ch a (shares i) i j)
        channelCheck mpi.size mpi.rank.toNat flag_pool lkey rkey
          (t.attr ((ch.group (a.sameNode mpi i)).channels.getD j 0)).type e) =
      channelCheck mpi.size mpi.rank.toNat flag_pool lkey rkey
        (groupType t (ch.group (a.sameNode mpi i))) (partEntry mpi ch a (shares i) i j) := by
    intro i j hj
    rw [hlaid.entryOf_part hj, ok_bind, hlaid.type _ _ hj]
    rfl
  rw [hrun, forM_eq_ok]
  constructor
  · intro hall i e he
    obtain ⟨j, hj, rfl⟩ := List.mem_map.mp he
    obtain ⟨hlt, hshare⟩ := List.mem_filter.mp hj
    rw [List.mem_range] at hlt
    obtain ⟨p, hp, hw, hchannel⟩ := handed_of_part hacc hdecomposes hlt (by simpa using hshare)
    have hcheck := forM_eq_ok.mp (hall p hp) _ hw
    rw [hchannel] at hcheck
    rw [← hpart i j hlt]
    exact hcheck
  · intro hall p hp
    refine forM_eq_ok.mpr fun w hw => ?_
    obtain ⟨i, j, hj, hshare, rfl, hchannel⟩ := part_of_handed hdecomposes hp hw
    rw [hchannel, hpart i j hj]
    refine hall i _ (List.mem_map.mpr ⟨j, ?_, rfl⟩)
    exact List.mem_filter.mpr ⟨List.mem_range.mpr hj, by simpa using hshare⟩

theorem group_num_le {ch : UnrChannels} {b_inter b_intra : Nat}
    (hacc : ch.Accepted b_inter b_intra) (same_node : Bool) :
    (ch.group same_node).num ≤ ch.numUriPlan := by
  have hlt := hacc.num_lt
  rw [UnrChannels.numUriPlan, Nat.mod_eq_of_lt hlt]
  cases same_node
  · exact Nat.le_add_right _ _
  · exact Nat.le_add_left _ _

/-- A plan of valid sends is accepted by its channels, and every send signals
once, exactly if no send with a signal is divided between verbs channels. -/
theorem signalled_once_iff {t : ChannelTable} {inter_channels intra_channels : List Nat}
    {ch₀ : UnrChannels} (hinit : unrInit t inter_channels intra_channels = .ok ch₀)
    (loc_mem_arr : List UnrMem) (rmt_mem_arr : List (List UnrMem)) {mpi : UruMpi}
    (hranks : rmt_mem_arr.length = mpi.size) {flag_pool : Verbs.FlagPool}
    (hpool : flag_pool.size ≤ 2 ^ 32) (lkey rkey : MemInfo → BitVec 32) {a : PlanPara}
    (hsizes : ∀ i, a.size i < 2 ^ 64) {uri_plans : List UriPlanCreate}
    (hnow : planNow mpi { ch₀ with loc_mem_arr := loc_mem_arr, rmt_mem_arr := rmt_mem_arr } a =
      .ok uri_plans)
    (hvalid : ∀ i, a.size i ≠ 0 → ValidSend (groupType t (ch₀.group (a.sameNode mpi i))) mpi
      { ch₀ with loc_mem_arr := loc_mem_arr, rmt_mem_arr := rmt_mem_arr } flag_pool a i) :
    let ch := { ch₀ with loc_mem_arr := loc_mem_arr, rmt_mem_arr := rmt_mem_arr }
    ∃ shares, Decomposes mpi ch a shares uri_plans ∧
      ((planCreate t mpi ch flag_pool lkey rkey a = .ok uri_plans ∧
        ∀ i, a.size i ≠ 0 → SignalledOnce mpi.size flag_pool lkey rkey
          (groupType t (ch.group (a.sameNode mpi i))) (sendEntries mpi ch a (shares i) i)
          (locFlag a i) (rmtFlag a i)) ↔
      ∀ i, a.size i ≠ 0 → Signalled a i →
        groupType t (ch.group (a.sameNode mpi i)) = .mpi ∨
          (ch.group (a.sameNode mpi i)).num = 1 ∨
          a.size i < 2 * (ch.group (a.sameNode mpi i)).blocksize) := by
  intro ch
  obtain ⟨b_inter, b_intra, hinter, hintra, hnum⟩ := unrInit_accepted hinit
  have hacc : ch.Accepted b_inter b_intra := ⟨hinter, hintra, hnum⟩
  have hlaid : Laid t ch := (laid_of_unrInit hinit).withMem _ _
  obtain ⟨shares, hdecomposes, hshares⟩ := decomposes_of_planNow hacc hranks hsizes hnow
  -- the checks of all parts of a send amount to the condition on the send
  have hsend : ∀ i, a.size i ≠ 0 → ((∀ e ∈ sendEntries mpi ch a (shares i) i,
      channelCheck mpi.size mpi.rank.toNat flag_pool lkey rkey
        (groupType t (ch.group (a.sameNode mpi i))) e = .ok ()) ↔ _) := fun i hsize =>
    channelCheck_send (hacc.group_accepted _) (group_num_le hacc _) (hvalid i hsize) (hshares i)
      hsize
  refine ⟨shares, hdecomposes, ?_⟩
  rw [planCreate_eq_ok_iff hacc hlaid hnow hdecomposes]
  constructor
  · rintro ⟨hchecks, -⟩ i hsize
    exact (hsend i hsize).mp (hchecks i)
  · intro hall
    have hchecks : ∀ i, ∀ e ∈ sendEntries mpi ch a (shares i) i,
        channelCheck mpi.size mpi.rank.toNat flag_pool lkey rkey
          (groupType t (ch.group (a.sameNode mpi i))) e = .ok () := by
      intro i
      by_cases hsize : a.size i = 0
      · -- an empty send has no parts
        intro e he
        obtain ⟨j, hj, -⟩ := List.mem_map.mp he
        obtain ⟨hlt, hshare⟩ := List.mem_filter.mp hj
        have hj' : j < (shares i).length := by
          rw [(hshares i).length]
          exact List.mem_range.mp hlt
        have hle := List.le_sum_of_mem (List.getElem_mem hj')
        rw [(hshares i).total, hsize] at hle
        exact absurd (by simpa using hle) (by simpa [List.getD, hj'] using hshare)
      · exact (hsend i hsize).mpr (hall i hsize)
    refine ⟨hchecks, fun i hsize => ?_⟩
    exact signalledOnce_of_checks hpool (group_num_le hacc _) (hvalid i hsize) (hshares i) hsize
      (hchecks i)

/-! ### A put over two verbs channels -/

theorem threeSends_valid (i : Fin 3) :
    ValidSend .mpi rankZero (channelsWith [region 1]) noFlags threeSends i where
  dma_type := by change UruTransfer.dmaPut ≠ .unknown; decide
  loc_rank := rfl
  rmt_rank := by revert i; decide
  loc_region := ⟨by change 16384 < 2 ^ 64; decide, by change 65536 + 16384 ≤ 2 ^ 64; decide⟩
  rmt_region := by
    have hregion : ∀ rank, ValidRegion (region rank) := fun rank =>
      ⟨by change 16384 < 2 ^ 64; decide, by change 65536 + 16384 ≤ 2 ^ 64; decide⟩
    match i with
    | 0 => exact hregion 1
    | 1 => exact hregion 1
    | 2 => exact hregion 0
  loc_end := by revert i; decide
  rmt_end := by revert i; decide
  loc_flag := fun h => nomatch h
  rmt_flag := fun h => nomatch h

theorem signalled_once_iff_threeSends :
    ∃ ch₀ uri_plans shares, unrInit twoDevices [0, 1] [0, 1] = .ok ch₀ ∧
      planCreate twoDevices rankZero
        { ch₀ with loc_mem_arr := [region 0], rmt_mem_arr := [[region 0], [region 1]] }
        noFlags (fun _ => 0) (fun _ => 0) threeSends = .ok uri_plans ∧
      SignalledOnce 2 noFlags (fun _ => 0) (fun _ => 0) .mpi
        (sendEntries rankZero
          { ch₀ with loc_mem_arr := [region 0], rmt_mem_arr := [[region 0], [region 1]] }
          threeSends shares (0 : Fin 3)) (some 1) (some 2) := by
  have hinit : unrInit twoDevices [0, 1] [0, 1] = .ok _ := rfl
  have hnow : planNow rankZero (channelsWith [region 1]) threeSends = .ok _ := rfl
  have hmpi : ∀ same_node, groupType twoDevices ((channelsWith [region 1]).group same_node) =
      .mpi := by
    intro same_node
    cases same_node <;> rfl
  obtain ⟨shares, -, honce⟩ := signalled_once_iff hinit [region 0] [[region 0], [region 1]] rfl
    (by decide : noFlags.size ≤ 2 ^ 32) (fun _ => 0) (fun _ => 0) (by decide) hnow
    fun i _ => (hmpi _).symm ▸ threeSends_valid i
  obtain ⟨hcreate, hsignalled⟩ := honce.mpr fun i _ _ => .inl (hmpi _)
  exact ⟨_, _, shares (0 : Fin 3), hinit, hcreate, hsignalled (0 : Fin 3) (by decide)⟩

/-- Two verbs channels, as `URI_VERBS_DEVICE_NUM` can ask for. -/
def twoVerbs : ChannelTable where
  arr := [⟨.verbs, 4096, 16⟩, ⟨.verbs, 4096, 16⟩]
  length_le := by decide
  blocksize_lt := by decide

def signalledPut : PlanPara where
  once_now := false
  num_sends := 1
  loc_blk_arr := fun _ => ⟨0, 0, 0, 8192, some 1001, none⟩
  loc_sig_arr := none
  loc_offset_arr := none
  size_arr := none
  rmt_blk_arr := fun _ => ⟨1, 0, 0, 8192, none, none⟩
  rmt_sig_arr := none
  rmt_offset_arr := none
  dma_type_arr := .dmaPutAll

/-- The layer above divides it into two parts, and the channels refuse both
addends. -/
theorem divided_put_rejected :
    ∃ ch₀ uri_plans, unrInit twoVerbs [0, 1] [0, 1] = .ok ch₀ ∧
      planNow rankZero
        { ch₀ with loc_mem_arr := [region 0], rmt_mem_arr := [[region 0], [region 1]] }
        signalledPut = .ok uri_plans ∧
      ValidSend .verbs rankZero
        { ch₀ with loc_mem_arr := [region 0], rmt_mem_arr := [[region 0], [region 1]] }
        ⟨65536, [1000, 1000]⟩ signalledPut (0 : Fin 1) ∧
      Signalled signalledPut (0 : Fin 1) ∧
      planCreate twoVerbs rankZero
        { ch₀ with loc_mem_arr := [region 0], rmt_mem_arr := [[region 0], [region 1]] }
        ⟨65536, [1000, 1000]⟩ (fun _ => 0) (fun _ => 0) signalledPut =
        .error (.exit .assertExit) := by
  have hregion : ∀ rank, ValidRegion (region rank) := fun rank =>
    ⟨by change 16384 < 2 ^ 64; decide, by change 65536 + 16384 ≤ 2 ^ 64; decide⟩
  refine ⟨_, _, rfl, rfl, ?_, .inl rfl, rfl⟩
  exact {
    dma_type := by decide
    loc_rank := rfl
    rmt_rank := by decide
    loc_region := hregion 0
    rmt_region := hregion 1
    loc_end := by decide
    rmt_end := by decide
    loc_flag := by
      intro _ flag_p hflag
      cases hflag
      exact ⟨by decide, 1000, rfl, by decide, by decide⟩
    rmt_flag := by
      intro _ flag_p hflag
      cases hflag }

end Unr.Uri
