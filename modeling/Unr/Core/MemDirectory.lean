import Unr.Core.MemSync

/-!
The directories of all processes agree with what each process has registered.

The invariant of a run has two halves. The array of a process holds the
descriptors of everything it has registered; the directory of every process
lists, for every process, the descriptors of what that process had registered
at the last synchronisation. A registration touches the first half only, and a
synchronisation rebuilds the second half from the first.
-/

namespace Unr.Core

open Unr.Uru Unr.Logic

/-! ### The descriptors of a process -/

def unrMems (r : Nat) (regs : List (BitVec 64 × BitVec 64)) : List UnrMem :=
  regs.zipIdx.map fun x => ⟨x.1.1.toNat, x.1.2.toNat, r, x.2⟩

section

variable (t : MemRegTable) (chs : Nat → UriChannelT) (ch : UnrChannels)

def descriptorOf (m : UnrMem) : List (BitVec 8) := ((unrMemObject t chs m ch).toOption).getD []

def descriptors (r : Nat) (regs : List (BitVec 64 × BitVec 64)) : List (List (BitVec 8)) :=
  (unrMems r regs).map (descriptorOf t chs ch)

end

section Descriptors

variable {t : MemRegTable} {chs : Nat → UriChannelT} {ch : UnrChannels} {r : Nat}
  {regs : List (BitVec 64 × BitVec 64)}

@[simp] theorem length_unrMems : (unrMems r regs).length = regs.length := by simp [unrMems]

@[simp] theorem length_descriptors : (descriptors t chs ch r regs).length = regs.length := by
  simp [descriptors]

theorem unrMems_concat (x : BitVec 64 × BitVec 64) :
    unrMems r (regs ++ [x]) = unrMems r regs ++ [⟨x.1.toNat, x.2.toNat, r, regs.length⟩] := by
  simp [unrMems, List.zipIdx_append]

theorem getElem?_unrMems {j : Nat} (hj : j < regs.length) :
    (unrMems r regs)[j]? = some ⟨regs[j].1.toNat, regs[j].2.toNat, r, j⟩ := by
  simp [unrMems, hj]

theorem fits_of_mem_unrMems {m : UnrMem} (hr : r < 2 ^ 31) (hregs : regs.length ≤ 2 ^ 31)
    (hm : m ∈ unrMems r regs) : m.Fits := by
  obtain ⟨⟨⟨addr, size⟩, j⟩, hx, rfl⟩ := List.mem_map.mp hm
  obtain ⟨-, hj, -⟩ := List.mem_zipIdx hx
  have haddr := addr.isLt
  have hsize := size.isLt
  constructor <;> dsimp only <;> omega

theorem unrMemObject_eq (hready : ChannelsReady t.toChannelTable ch chs) (m : UnrMem) :
    unrMemObject t chs m ch = .ok (descriptorOf t chs ch m) ∧
      Descriptor t chs m ch ch.avail_channels (descriptorOf t chs ch m) := by
  obtain ⟨obj, hrun, hobj⟩ := unrMemObject_ok hready m
  have heq : descriptorOf t chs ch m = obj := by
    rw [descriptorOf, hrun]
    rfl
  exact ⟨heq ▸ hrun, heq ▸ hobj⟩

theorem length_of_mem_descriptors (hready : ChannelsReady t.toChannelTable ch chs) :
    ∀ obj ∈ descriptors t chs ch r regs, obj.length = ch.unr_mem_t_size := by
  intro obj hobj
  obtain ⟨m, -, rfl⟩ := List.mem_map.mp hobj
  exact (unrMemObject_eq hready m).2.length

/-- The fields can be read wherever a copy of the descriptor is. -/
theorem loadUnrMem_of_copy (hready : ChannelsReady t.toChannelTable ch chs) {m : UnrMem}
    (hfits : m.Fits) {buf : List (BitVec 8)} {off : Nat}
    (hcopy : slice buf off ch.unr_mem_t_size = descriptorOf t chs ch m) :
    loadUnrMem buf off = m := by
  obtain ⟨-, hobj⟩ := unrMemObject_eq hready m
  have hall : slice buf off (descriptorOf t chs ch m).length = descriptorOf t chs ch m := by
    rw [hobj.length, hcopy]
  refine loadUnrMem_of_bytes hfits ?_
  have hfields := slice_of_slice (o := 0) (n := sizeofUnrMem) hall (by
    rw [hobj.length, Nat.zero_add]
    exact hready.size_le)
  rw [Nat.add_zero] at hfields
  rw [hfields, hobj.fields]

theorem loadUnrMem_descriptorOf (hready : ChannelsReady t.toChannelTable ch chs) {m : UnrMem}
    (hfits : m.Fits) : loadUnrMem (descriptorOf t chs ch m) 0 = m := by
  have hobj := (unrMemObject_eq hready m).2
  refine loadUnrMem_of_copy hready hfits ?_
  rw [← hobj.length, slice_all]

end Descriptors

/-! ### A registration -/

section Reg

variable {t : MemRegTable} {chs : Nat → UriChannelT} {ch : UnrChannels} {p p' : MemProc}

theorem MemProc.Holds.grow {extent : Nat} {objs : List (List (BitVec 8))} (h : p.Holds extent objs)
    {arr : List (Option (List (BitVec 8)))} (hgrow : p.growLocMem = .ok arr) :
    arr.length = (objs.length + 1 + 127) / 128 * 128 ∧
      ∀ (j : Nat) (hj : j < objs.length), arr[j]? = some (some objs[j]) := by
  have hcap := h.capacity
  rw [MemProc.growLocMem, h.len] at hgrow
  by_cases hfull : objs.length % 128 = 0
  · rw [if_pos hfull, intAdd] at hgrow
    split at hgrow
    · have hlen : p.loc_mem_arr.length = objs.length := by omega
      rw [ok_bind, pure_eq_ok, uruRealloc, ← hlen, List.take_length] at hgrow
      subst hgrow
      constructor
      · rw [List.length_append, List.length_replicate]
        omega
      · intro j hj
        rw [List.getElem?_append_left (by omega), h.entry j hj]
    · cases hgrow
  · rw [if_neg hfull] at hgrow
    cases hgrow
    exact ⟨by omega, h.entry⟩

theorem MemProc.Holds.reg (hready : ChannelsReady t.toChannelTable ch chs) {r : Nat}
    {regs : List (BitVec 64 × BitVec 64)}
    (h : p.Holds ch.unr_mem_t_size (descriptors t chs ch r regs)) {addr size : BitVec 64}
    (hreg : unrMemReg t chs ch r p addr size = .ok p') :
    p'.Holds ch.unr_mem_t_size (descriptors t chs ch r (regs ++ [(addr, size)])) ∧
      regs.length + 1 < 2 ^ 31 ∧ p'.rmt_mem_arr_len = p.rmt_mem_arr_len ∧
      p'.recv_buf = p.recv_buf ∧ p'.rmt_mem_arr = p.rmt_mem_arr := by
  have hlen : p.loc_mem_arr_len = regs.length := by rw [h.len, length_descriptors]
  simp only [unrMemReg, bind_eq_ok, uruAssert_eq_ok, intAdd_eq_ok, store_eq_ok, hlen, pure_eq_ok,
    (unrMemObject_eq hready _).1, Except.ok.injEq] at hreg
  obtain ⟨-, -, arr, hgrow, _, ⟨hlt, rfl⟩, obj, rfl, _, ⟨hroom, rfl⟩, rfl⟩ := hreg
  rw [Nat.add_sub_cancel] at *
  obtain ⟨hcap, hentry⟩ := h.grow hgrow
  rw [length_descriptors] at hcap
  have hconcat : descriptors t chs ch r (regs ++ [(addr, size)]) = descriptors t chs ch r regs ++
      [descriptorOf t chs ch ⟨addr.toNat, size.toNat, r, regs.length⟩] := by
    rw [descriptors, unrMems_concat, List.map_append]
    rfl
  refine ⟨⟨by simp, by simpa using hcap, ?_, length_of_mem_descriptors hready⟩, hlt, rfl, rfl, rfl⟩
  intro j hj
  have hj' : j < regs.length + 1 := by simpa using hj
  simp only [hconcat]
  rcases Nat.lt_succ_iff_lt_or_eq.mp hj' with hbefore | rfl
  · rw [List.getElem?_set_ne (by omega), hentry j (by simpa using hbefore),
      List.getElem_append_left]
  · rw [List.getElem?_set_self hroom, List.getElem_append_right (by simp)]
    simp

/-- As long as the counter does not overflow, the call returns; the store into
the array is then within what has been allocated. -/
theorem MemProc.Holds.reg_returns (hready : ChannelsReady t.toChannelTable ch chs) {r : Nat}
    {regs : List (BitVec 64 × BitVec 64)}
    (h : p.Holds ch.unr_mem_t_size (descriptors t chs ch r regs)) {addr size : BitVec 64}
    (hsize : 0 < size.toNat) (hlen : regs.length + 128 < 2 ^ 31) :
    ∃ p', unrMemReg t chs ch r p addr size = .ok p' := by
  have hcount : p.loc_mem_arr_len = regs.length := by rw [h.len, length_descriptors]
  obtain ⟨arr, hgrow⟩ : ∃ arr, p.growLocMem = .ok arr := by
    rw [MemProc.growLocMem, hcount, intAdd, if_pos hlen]
    split <;> exact ⟨_, rfl⟩
  obtain ⟨hroom, -⟩ := h.grow hgrow
  rw [length_descriptors] at hroom
  have hstore : regs.length + 1 - 1 < arr.length := by omega
  rw [unrMemReg, uruAssert_bind, if_pos hsize, hgrow, ok_bind, hcount, intAdd,
    if_pos (by omega), ok_bind, (unrMemObject_eq hready _).1, ok_bind, store_of_lt hstore, ok_bind]
  exact ⟨_, rfl⟩

end Reg

/-! ### A synchronisation -/

section Sync

variable {extent : Nat} {w w' : MemWorld} {objs : Nat → List (List (BitVec 8))}
  {send_junk recv_junk : Nat → Nat → BitVec 8}

def allObjs (n : Nat) (objs : Nat → List (List (BitVec 8))) : List (List (List (BitVec 8))) :=
  (List.range n).map objs

theorem length_le_of_allObjs {n r : Nat} (hr : r < n) :
    (objs r).length ≤ (allObjs n objs).flatten.length := by
  have hmem : objs r ∈ allObjs n objs := List.mem_map.mpr ⟨r, List.mem_range.mpr hr, rfl⟩
  exact (List.sublist_flatten_of_mem hmem).length_le

theorem MemWorld.counts_eq (hholds : ∀ r, (w.procs r).Holds extent (objs r)) :
    w.counts = (allObjs w.size objs).map List.length := by
  rw [MemWorld.counts, allObjs, List.map_map]
  exact List.map_congr_left fun r _ => (hholds r).len

theorem size_of_mem_allObjs (hholds : ∀ r, (w.procs r).Holds extent (objs r)) :
    ∀ os ∈ allObjs w.size objs, ∀ obj ∈ os, obj.length = extent := by
  intro os hos
  obtain ⟨r, -, rfl⟩ := List.mem_map.mp hos
  exact (hholds r).size

theorem blocks_eq (hholds : ∀ r, (w.procs r).Holds extent (objs r)) :
    ∀ r ∈ List.range w.size, ∀ block,
      (w.procs r).sendBuf extent (send_junk r) = .ok block → block = (objs r).flatten := by
  intro r _ block hblock
  rw [(hholds r).sendBuf_eq] at hblock
  split at hblock
  · exact (Except.ok.inj hblock).symm
  · cases hblock

/-- Every process keeps its own regions, and is given a directory of all. -/
theorem MemWorld.sync_ok (hholds : ∀ r, (w.procs r).Holds extent (objs r))
    (hsync : w.sync extent send_junk recv_junk = .ok w') :
    w'.size = w.size ∧ (∀ r, (w'.procs r).Holds extent (objs r)) ∧
      ∀ p < w.size, (w'.procs p).Directory extent (allObjs w.size objs) := by
  have hsize := size_of_mem_allObjs hholds
  obtain ⟨blocks, hblocks, hsync⟩ := bind_eq_ok.mp hsync
  obtain ⟨procs, hprocs, hsync⟩ := bind_eq_ok.mp hsync
  cases hsync
  have hblocks : blocks = (allObjs w.size objs).map List.flatten := by
    rw [eq_map_of_mapM (blocks_eq hholds) hblocks, allObjs, List.map_map]
    rfl
  -- what a process makes of the blocks
  have hreceive : ∀ p ∈ List.range w.size, ∀ q, (w.procs p).receive extent w.counts blocks
      (recv_junk p) = .ok q → q = (w.procs p).withDirectory extent (allObjs w.size objs) := by
    intro p hp q hq
    have hne : allObjs w.size objs ≠ [] :=
      List.ne_nil_of_mem (List.mem_map.mpr ⟨p, hp, rfl⟩)
    rw [MemWorld.counts_eq hholds, hblocks, MemProc.receive_eq hne hsize] at hq
    split at hq
    · exact (Except.ok.inj hq).symm
    · cases hq
  have hprocs := eq_map_of_mapM hreceive hprocs
  subst hprocs
  refine ⟨rfl, fun r => ?_, fun p hp => ?_⟩
  · have hr := hholds r
    by_cases hlt : r < w.size
    · simp only [List.getD, List.getElem?_map, List.getElem?_range hlt, Option.map_some,
        Option.getD_some]
      exact ⟨hr.len, hr.capacity, hr.entry, hr.size⟩
    · simpa [List.getD, List.getElem?_eq_none, hlt] using hr
  · simp only [List.getD, List.getElem?_map, List.getElem?_range hp, Option.map_some,
      Option.getD_some]
    exact ⟨rfl, rfl, rmtPointers_eq _ _⟩

theorem MemWorld.sync_returns (hholds : ∀ r, (w.procs r).Holds extent (objs r))
    (htotal : (allObjs w.size objs).flatten.length < 2 ^ 31)
    (hfits : (allObjs w.size objs).flatten.length * extent < 2 ^ 64) :
    ∃ w', w.sync extent send_junk recv_junk = .ok w' := by
  have hblocks : ∀ r ∈ List.range w.size,
      (w.procs r).sendBuf extent (send_junk r) = .ok (objs r).flatten := by
    intro r hr
    have hle : (objs r).length ≤ (allObjs w.size objs).flatten.length :=
      length_le_of_allObjs (List.mem_range.mp hr)
    rw [(hholds r).sendBuf_eq,
      if_pos (Nat.lt_of_le_of_lt (Nat.mul_le_mul_right extent hle) hfits)]
  have hmap : (List.range w.size).map (fun r => (objs r).flatten) =
      (allObjs w.size objs).map List.flatten := by
    rw [allObjs, List.map_map]
    rfl
  rw [MemWorld.sync, mapM_ok hblocks, ok_bind, MemWorld.counts_eq hholds, hmap]
  have hreceive : ∀ p ∈ List.range w.size, (w.procs p).receive extent
      ((allObjs w.size objs).map List.length) ((allObjs w.size objs).map List.flatten)
      (recv_junk p) = .ok ((w.procs p).withDirectory extent (allObjs w.size objs)) := by
    intro p hp
    have hne : allObjs w.size objs ≠ [] :=
      List.ne_nil_of_mem (List.mem_map.mpr ⟨p, hp, rfl⟩)
    rw [MemProc.receive_eq hne (size_of_mem_allObjs hholds), if_pos ⟨htotal, hfits⟩]
  rw [mapM_ok hreceive]
  exact ⟨_, rfl⟩

end Sync

/-! ### Runs -/

theorem toOption_eq_some {α : Type} {x : Prog α} {a : α} : x.toOption = some a ↔ x = .ok a := by
  cases x <;> simp [Except.toOption]

section Runs

variable {t : MemRegTable} {chs : Nat → UriChannelT} {ch : UnrChannels} {n : Nat}
  {es : List MemEvent} {w w' : MemWorld}

/-- What holds after the calls `es`. -/
structure MemWorld.Agrees (t : MemRegTable) (chs : Nat → UriChannelT) (ch : UnrChannels) (n : Nat)
    (es : List MemEvent) (w : MemWorld) : Prop where
  size : w.size = n
  holds : ∀ r, (w.procs r).Holds ch.unr_mem_t_size (descriptors t chs ch r (regions r es))
  /-- The counters are of type `int`. -/
  len_lt : ∀ r, (regions r es).length < 2 ^ 31
  /-- The directories are those of the last synchronisation. -/
  directory : ∀ p < n, (w.procs p).Directory ch.unr_mem_t_size
    (allObjs n fun r => descriptors t chs ch r (regions r (untilSync es)))

theorem regions_concat (r : Nat) (e : MemEvent) :
    regions r (es ++ [e]) = regions r es ++ regions r [e] := List.filterMap_append

theorem untilSync_reg (rank : Nat) (addr size : BitVec 64) :
    untilSync (es ++ [.reg rank addr size]) = untilSync es :=
  List.rdropWhile_concat_pos _ _ _ (by simp)

theorem untilSync_sync : untilSync (es ++ [.sync]) = es ++ [.sync] :=
  List.rdropWhile_concat_neg _ _ _ (by simp)

theorem regions_sync (r : Nat) : regions r (es ++ [.sync]) = regions r es := by
  rw [regions_concat]
  exact List.append_nil _

theorem regions_reg_self {rank : Nat} {addr size : BitVec 64} :
    regions rank (es ++ [.reg rank addr size]) = regions rank es ++ [(addr, size)] := by
  simp [regions]

theorem regions_reg_ne {rank r : Nat} {addr size : BitVec 64} (hne : rank ≠ r) :
    regions r (es ++ [.reg rank addr size]) = regions r es := by
  simp [regions, hne]

theorem MemWorld.agrees_init : (MemWorld.init n).Agrees t chs ch n [] := by
  have hempty : ∀ r, descriptors t chs ch r (regions r []) = [] := fun _ => rfl
  have hall : allObjs n (fun r => descriptors t chs ch r (regions r (untilSync []))) =
      List.replicate n [] := by
    rw [allObjs]
    simp only [untilSync, List.rdropWhile_nil, hempty, List.map_const', List.length_range]
  refine ⟨rfl, fun r => ?_, fun r => (by decide : 0 < 2 ^ 31), fun p _ => ?_⟩
  · rw [hempty]
    exact ⟨rfl, rfl, fun j hj => absurd hj (Nat.not_lt_zero _), fun obj hobj => nomatch hobj⟩
  · rw [hall]
    refine ⟨by simp [MemWorld.init, MemProc.init], by simp [MemWorld.init, MemProc.init], ?_⟩
    apply List.ext_getElem
    · simp [MemWorld.init, MemProc.init]
    · intro i hi hi'
      simp [MemWorld.init, MemProc.init]

theorem MemWorld.Agrees.step (hready : ChannelsReady t.toChannelTable ch chs)
    (h : w.Agrees t chs ch n es) {a : MemAct} (hstep : w.step t chs ch a = some w') :
    w'.Agrees t chs ch n (es ++ w.events a) := by
  cases a with
  | reg rank addr size =>
      rw [MemWorld.step, Option.ite_none_right_eq_some, Option.map_eq_some_iff] at hstep
      obtain ⟨-, p, hreg, rfl⟩ := hstep
      have hreg := toOption_eq_some.mp hreg
      obtain ⟨hholds, hlen, hcounts, hbuf, hptrs⟩ := (h.holds rank).reg hready hreg
      refine ⟨h.size, fun r => ?_, fun r => ?_, fun q hq => ?_⟩
      · by_cases hr : r = rank
        · subst hr
          simpa [MemWorld.events, regions_reg_self] using hholds
        · simpa [MemWorld.events, regions_reg_ne (Ne.symm hr), hr] using h.holds r
      · by_cases hr : r = rank
        · subst hr
          simpa [MemWorld.events, regions_reg_self] using hlen
        · simpa [MemWorld.events, regions_reg_ne (Ne.symm hr)] using h.len_lt r
      · rw [MemWorld.events, untilSync_reg]
        have hdir := h.directory q hq
        by_cases hq' : q = rank
        · subst hq'
          simp only [Function.update_self]
          exact ⟨by rw [hcounts, hdir.counts], by rw [hbuf, hdir.buf], by rw [hptrs, hdir.ptrs]⟩
        · simpa [hq'] using hdir
  | sync send_junk recv_junk =>
      have hsync := toOption_eq_some.mp hstep
      obtain ⟨hsize, hholds, hdir⟩ := MemWorld.sync_ok h.holds hsync
      rw [h.size] at hsize hdir
      rw [MemWorld.events]
      refine ⟨hsize, fun r => ?_, fun r => ?_, fun p hp => ?_⟩
      · rw [regions_sync]
        exact hholds r
      · rw [regions_sync]
        exact h.len_lt r
      · simp only [untilSync_sync, regions_sync]
        exact hdir p hp

theorem MemWorld.agrees_run (hready : ChannelsReady t.toChannelTable ch chs)
    (h : Recorded (MemWorld.step t chs ch) MemWorld.events (MemWorld.init n) es w) :
    w.Agrees t chs ch n es :=
  h.invariant MemWorld.agrees_init fun _ _ _ _ _ hagrees hstep => hagrees.step hready hstep

end Runs

/-! ### Blocks -/

def blkFlag (rank : Nat) (sig_h : UnrSig) : Prog (Option Nat) :=
  if sig_h.dst_rank ≠ unrNoSignalDstRank then do
    uruAssert ((rank : Int) = sig_h.dst_rank)
    return sig_h.flag_p
  else .ok none

def unrBlkReg (rank : Nat) (mem_h : List (BitVec 8)) (offset size : Nat)
    (send_sig_h recv_sig_h : UnrSig) : Prog UnrBlk := do
  uruAssert (0 < size)
  let send_flag_p ← blkFlag rank send_sig_h
  let recv_flag_p ← blkFlag rank recv_sig_h
  return {
    dst_rank := rank
    mem_idx := (loadUnrMem mem_h 0).idx
    offset := offset
    size := size
    send_flag_p := send_flag_p
    recv_flag_p := recv_flag_p }

/-- `unr_channels` with the two arrays of descriptors as the planning functions
read them. -/
def MemProc.channels (ch : UnrChannels) (p : MemProc) : UnrChannels :=
  { ch with
    loc_mem_arr := (p.loc_mem_arr.take p.loc_mem_arr_len).filterMap fun entry =>
      entry.map (loadUnrMem · 0)
    rmt_mem_arr := p.rmt_mem_arr.map fun ptrs => ptrs.map (loadUnrMem p.recv_buf ·) }

/-- A block carries the process and the index of its region. -/
theorem unrBlkReg_ok {rank : Nat} {mem_h : List (BitVec 8)} {offset size : Nat}
    {send_sig_h recv_sig_h : UnrSig} {blk : UnrBlk}
    (h : unrBlkReg rank mem_h offset size send_sig_h recv_sig_h = .ok blk) :
    blk.dst_rank = rank ∧ blk.mem_idx = (loadUnrMem mem_h 0).idx := by
  simp only [unrBlkReg, bind_eq_ok, pure_eq_ok] at h
  obtain ⟨-, -, -, -, -, -, rfl⟩ := h
  exact ⟨rfl, rfl⟩

section Blocks

variable {t : MemRegTable} {chs : Nat → UriChannelT} {ch : UnrChannels} {n : Nat}
  {es : List MemEvent} {w : MemWorld}

theorem MemProc.Holds.loc_mem_arr_eq (hready : ChannelsReady t.toChannelTable ch chs)
    {p : MemProc} {r : Nat} {regs : List (BitVec 64 × BitVec 64)} (hr : r < 2 ^ 31)
    (hregs : regs.length < 2 ^ 31)
    (h : p.Holds ch.unr_mem_t_size (descriptors t chs ch r regs)) :
    (p.channels ch).loc_mem_arr = unrMems r regs := by
  have htake : p.loc_mem_arr.take p.loc_mem_arr_len = (descriptors t chs ch r regs).map some := by
    apply List.ext_getElem?
    intro j
    by_cases hj : j < (descriptors t chs ch r regs).length
    · rw [h.len, List.getElem?_take_of_lt hj, h.entry j hj, List.getElem?_map,
        List.getElem?_eq_getElem hj, Option.map_some]
    · rw [h.len, List.getElem?_eq_none (by rw [List.length_take]; omega),
        List.getElem?_eq_none (by rw [List.length_map]; omega)]
  have hload : ∀ m ∈ unrMems r regs, loadUnrMem (descriptorOf t chs ch m) 0 = m :=
    fun m hm => loadUnrMem_descriptorOf hready (fits_of_mem_unrMems hr hregs.le hm)
  simp only [MemProc.channels, htake, List.filterMap_map, Function.comp_def, Option.map_some,
    List.filterMap_eq_map', descriptors, List.map_map]
  rw [List.map_congr_left hload, List.map_id']

theorem MemProc.Directory.rmt_mem_arr_eq (hready : ChannelsReady t.toChannelTable ch chs)
    {p : MemProc} {regs : Nat → List (BitVec 64 × BitVec 64)} (hn : n ≤ 2 ^ 31)
    (hregs : ∀ r, (regs r).length < 2 ^ 31)
    (h : p.Directory ch.unr_mem_t_size (allObjs n fun r => descriptors t chs ch r (regs r))) :
    (p.channels ch).rmt_mem_arr = (List.range n).map fun r => unrMems r (regs r) := by
  have hsize : ∀ objs ∈ allObjs n (fun r => descriptors t chs ch r (regs r)), ∀ obj ∈ objs,
      obj.length = ch.unr_mem_t_size := by
    intro objs hobjs
    obtain ⟨r, -, rfl⟩ := List.mem_map.mp hobjs
    exact length_of_mem_descriptors hready
  have hlen : p.rmt_mem_arr.length = n := by
    rw [h.ptrs]
    simp [allObjs]
  apply List.ext_getElem
  · simp [MemProc.channels, hlen]
  · intro r hr hr'
    have hr : r < n := by simpa using hr'
    obtain ⟨-, ptrs, hptrs, hcount, hat⟩ := h.lookup hsize (r := r) (by simpa [allObjs] using hr)
    simp only [allObjs, List.getElem_map, List.getElem_range, length_descriptors] at hcount hat
    have hget : p.rmt_mem_arr[r] = ptrs :=
      Option.some.inj ((List.getElem?_eq_getElem (by omega)).symm.trans hptrs)
    simp only [MemProc.channels, List.getElem_map, List.getElem_range, hget]
    -- every pointer leads to a copy of a descriptor
    apply List.ext_getElem
    · rw [List.length_map, length_unrMems, hcount]
    · intro j hj hj'
      have hj : j < (regs r).length := by simpa using hj'
      obtain ⟨ptr, hptr, hcopy⟩ := hat j hj
      obtain ⟨hlt, hptr⟩ := List.getElem?_eq_some_iff.mp hptr
      rw [List.getElem_map, hptr]
      refine loadUnrMem_of_copy hready
        (fits_of_mem_unrMems (by omega) (hregs r).le (List.getElem_mem hj')) ?_
      rw [hcopy]
      simp [descriptors]

end Blocks

/-! ### Agreement -/

section Agreement

variable (t : MemRegTable) (chs : Nat → UriChannelT) (ch : UnrChannels) (n : Nat)
  (es : List MemEvent) (w : MemWorld)

def descriptorAt (r : Nat) (regs : List (BitVec 64 × BitVec 64)) (j : Nat) : List (BitVec 8) :=
  descriptorOf t chs ch ⟨(regs.getD j (0, 0)).1.toNat, (regs.getD j (0, 0)).2.toNat, r, j⟩

/-- What the processes agree about after the calls `es`. Every process has seen
the regions up to the last synchronisation. -/
structure MemWorld.DirectoryAgreement : Prop where
  /-- The regions of a process are at the index they were given. -/
  local_len : ∀ r < n, (w.procs r).loc_mem_arr_len = (regions r es).length
  local_room : ∀ r < n, (w.procs r).loc_mem_arr_len ≤ (w.procs r).loc_mem_arr.length
  local_entry : ∀ r < n, ∀ j < (regions r es).length,
    (w.procs r).loc_mem_arr[j]? = some (some (descriptorAt t chs ch r (regions r es) j))
  local_mems : ∀ r < n, ((w.procs r).channels ch).loc_mem_arr = unrMems r (regions r es)
  /-- `unr_mem_reg` returns as long as its counter does not overflow; all its
  stores are then within what is allocated. -/
  reg_returns : ∀ r < n, (regions r es).length + 128 < 2 ^ 31 → ∀ addr size : BitVec 64,
    0 < size.toNat → ∃ w', w.step t chs ch (.reg r addr size) = some w'
  /-- The counts are those of the last synchronisation. -/
  counts : ∀ p < n, ∀ r < n,
    (w.procs p).rmt_mem_arr_len[r]? = some (regions r (untilSync es)).length
  /-- Behind every pointer there is a copy of the descriptor. -/
  copies : ∀ p < n, ∀ r < n, ∃ ptrs, (w.procs p).rmt_mem_arr[r]? = some ptrs ∧
    ptrs.length = (regions r (untilSync es)).length ∧
    ∀ j < (regions r (untilSync es)).length, ∃ ptr, ptrs[j]? = some ptr ∧
      some (some (slice (w.procs p).recv_buf ptr ch.unr_mem_t_size)) = (w.procs r).loc_mem_arr[j]?
  /-- Its fields name the process and the index. -/
  remote_mems : ∀ p < n, ((w.procs p).channels ch).rmt_mem_arr =
    (List.range n).map fun r => unrMems r (regions r (untilSync es))
  /-- `unr_mem_reg_sync` returns as long as all descriptors fit. -/
  sync_returns : ((List.range n).map fun r => (regions r es).length).sum < 2 ^ 31 →
    ((List.range n).map fun r => (regions r es).length).sum * ch.unr_mem_t_size < 2 ^ 64 →
    ∀ send_junk recv_junk, ∃ w', w.step t chs ch (.sync send_junk recv_junk) = some w'
  /-- A block leads every process to the region it was registered in. -/
  blocks : ∀ p < n, ∀ r < n, ∀ j (hj : j < (regions r (untilSync es)).length),
    ∀ mem_h, (w.procs r).loc_mem_arr[j]? = some (some mem_h) →
    ∀ offset size send_sig_h recv_sig_h blk,
      unrBlkReg r mem_h offset size send_sig_h recv_sig_h = .ok blk →
      (do let mems ← fetchAt ((w.procs p).channels ch).rmt_mem_arr blk.dst_rank
          fetchAt mems blk.mem_idx) =
        .ok ⟨(regions r (untilSync es))[j].1.toNat, (regions r (untilSync es))[j].2.toNat, r, j⟩

end Agreement

section Final

variable {t : MemRegTable} {chs : Nat → UriChannelT} {ch : UnrChannels} {n : Nat}
  {es : List MemEvent} {w : MemWorld}

theorem getElem?_descriptors {r j : Nat} {regs : List (BitVec 64 × BitVec 64)}
    (hj : j < regs.length) :
    (descriptors t chs ch r regs)[j]? = some (descriptorAt t chs ch r regs j) := by
  rw [descriptors, List.getElem?_map, getElem?_unrMems hj]
  simp [descriptorAt, List.getD, hj]

/-- What has been synchronised is the first part of what has been registered. -/
theorem regions_untilSync_prefix (r : Nat) (es : List MemEvent) :
    regions r (untilSync es) <+: regions r es :=
  (List.rdropWhile_prefix ..).filterMap _

theorem descriptorAt_of_prefix {r j : Nat} {regs regs' : List (BitVec 64 × BitVec 64)}
    (h : regs <+: regs') (hj : j < regs.length) :
    descriptorAt t chs ch r regs j = descriptorAt t chs ch r regs' j := by
  obtain ⟨more, rfl⟩ := h
  simp [descriptorAt, List.getD, List.getElem?_append_left hj]

theorem fetchAt_natCast {α : Type} (xs : List α) (i : Nat) : fetchAt xs (i : Int) = fetch xs i := by
  rw [fetchAt, if_neg (by omega), Int.toNat_natCast]

/-- In every run, whatever the processes register between the synchronisations:
the directories of all processes list the regions of all processes as of the
last synchronisation, and the index of a region never changes. -/
theorem directory_agrees {inter_channels intra_channels : List Nat}
    (hinit : unrInitOpen t.toChannelTable registered inter_channels intra_channels = .ok (ch, chs))
    (hn : n < 2 ^ 31)
    (h : Recorded (MemWorld.step t chs ch) MemWorld.events (MemWorld.init n) es w) :
    w.DirectoryAgreement t chs ch n es := by
  have hready := (unrInitOpen_ready hinit).1
  have hagrees := MemWorld.agrees_run hready h
  have hinitial := fun r => regions_untilSync_prefix r es
  have hlen : ∀ r, (regions r (untilSync es)).length < 2 ^ 31 := fun r =>
    Nat.lt_of_le_of_lt (hinitial r).length_le (hagrees.len_lt r)
  -- an entry holds the descriptor its region was registered with
  have hentry : ∀ r, ∀ j < (regions r es).length,
      (w.procs r).loc_mem_arr[j]? = some (some (descriptorAt t chs ch r (regions r es) j)) := by
    intro r j hj
    have hj' : j < (descriptors t chs ch r (regions r es)).length := by simpa using hj
    have hat : (descriptors t chs ch r (regions r es))[j]? = _ := getElem?_descriptors hj
    rw [(hagrees.holds r).entry j hj', ← hat, List.getElem?_eq_getElem hj']
  -- the tables are decoded from the regions of the last synchronisation
  have hremote : ∀ p < n, ((w.procs p).channels ch).rmt_mem_arr =
      (List.range n).map fun r => unrMems r (regions r (untilSync es)) := fun p hp =>
    (hagrees.directory p hp).rmt_mem_arr_eq hready hn.le hlen
  have hsize : ∀ objs ∈ allObjs n (fun r => descriptors t chs ch r (regions r (untilSync es))),
      ∀ obj ∈ objs, obj.length = ch.unr_mem_t_size := by
    intro objs hobjs
    obtain ⟨r, -, rfl⟩ := List.mem_map.mp hobjs
    exact length_of_mem_descriptors hready
  constructor
  case local_len => exact fun r _ => by rw [(hagrees.holds r).len, length_descriptors]
  case local_room =>
    intro r _
    rw [(hagrees.holds r).len, (hagrees.holds r).capacity]
    omega
  case local_entry => exact fun r _ => hentry r
  case local_mems =>
    exact fun r hr => (hagrees.holds r).loc_mem_arr_eq hready (by omega) (hagrees.len_lt r)
  case reg_returns =>
    intro r hr hlen addr size hsize
    obtain ⟨p', hp'⟩ := (hagrees.holds r).reg_returns hready hsize hlen
    rw [MemWorld.step, if_pos (by rwa [hagrees.size]), toOption_eq_some.mpr hp']
    exact ⟨_, rfl⟩
  case counts =>
    intro p hp r hr
    have hlookup := (hagrees.directory p hp).lookup hsize (r := r) (by simpa [allObjs] using hr)
    simpa [allObjs] using hlookup.1
  -- what was registered at the last synchronisation is a prefix of what is registered now
  case copies =>
    intro p hp r hr
    obtain ⟨-, ptrs, hptrs, hcount, hat⟩ :=
      (hagrees.directory p hp).lookup hsize (r := r) (by simpa [allObjs] using hr)
    simp only [allObjs, List.getElem_map, List.getElem_range, length_descriptors] at hcount hat
    refine ⟨ptrs, hptrs, hcount, fun j hj => ?_⟩
    obtain ⟨ptr, hptr, hcopy⟩ := hat j hj
    have hobj : (descriptors t chs ch r (regions r (untilSync es)))[j]? = _ :=
      getElem?_descriptors hj
    rw [List.getElem?_eq_getElem (by simpa using hj), Option.some.injEq] at hobj
    exact ⟨ptr, hptr, by rw [hcopy, hobj, descriptorAt_of_prefix (hinitial r) hj,
      hentry r j (Nat.lt_of_lt_of_le hj (hinitial r).length_le)]⟩
  case remote_mems => exact hremote
  case sync_returns =>
    intro htotal hfits send_junk recv_junk
    have hsum : (allObjs w.size fun r => descriptors t chs ch r (regions r es)).flatten.length =
        ((List.range n).map fun r => (regions r es).length).sum := by
      rw [List.length_flatten, allObjs, List.map_map, hagrees.size]
      simp [Function.comp_def]
    obtain ⟨w', hw'⟩ : ∃ w', w.sync ch.unr_mem_t_size send_junk recv_junk = .ok w' :=
      MemWorld.sync_returns hagrees.holds (by rwa [hsum]) (by rwa [hsum])
    exact ⟨w', toOption_eq_some.mpr hw'⟩
  -- the index in a block is the place of its region in the table
  case blocks =>
    intro p hp r hr j hj mem_h hmem offset size send_sig_h recv_sig_h blk hblk
    obtain ⟨hrank, hidx⟩ := unrBlkReg_ok hblk
    have hj' := Nat.lt_of_lt_of_le hj (hinitial r).length_le
    have hmem : mem_h = descriptorAt t chs ch r (regions r es) j :=
      (Option.some.inj (Option.some.inj ((hentry r j hj').symm.trans hmem))).symm
    have hfits := fits_of_mem_unrMems (m := ⟨_, _, r, j⟩) (by omega) (hlen r).le
      (List.mem_of_getElem? (getElem?_unrMems hj))
    have hload : (loadUnrMem mem_h 0).idx = j := by
      rw [hmem, ← descriptorAt_of_prefix (hinitial r) hj, descriptorAt, List.getD,
        List.getElem?_eq_getElem hj, Option.getD_some, loadUnrMem_descriptorOf hready hfits]
    have hmems : fetch ((List.range n).map fun r => unrMems r (regions r (untilSync es))) r =
        .ok (unrMems r (regions r (untilSync es))) := by
      rw [fetch_eq_ok, List.getElem?_map, List.getElem?_range hr, Option.map_some]
    rw [hremote p hp, hrank, hidx, hload, fetchAt_natCast, hmems, ok_bind, fetchAt_natCast,
      fetch_eq_ok, getElem?_unrMems hj]

/-- Two processes, two synchronisations, and a region that the second one has
not seen. -/
theorem directory_agrees_twoSyncs : ∃ ch chs es w,
    unrInitOpen threeHandles.toChannelTable registered [0, 1] [2, 1] = .ok (ch, chs) ∧
      Recorded (MemWorld.step threeHandles chs ch) MemWorld.events (MemWorld.init 2) es w ∧
      w.DirectoryAgreement threeHandles chs ch 2 es ∧
      (∀ p < 2, (w.procs p).rmt_mem_arr_len[1]? = some 2) ∧ (w.procs 1).loc_mem_arr_len = 3 := by
  obtain ⟨⟨ch, chs⟩, hinit⟩ : ∃ r,
      unrInitOpen threeHandles.toChannelTable registered [0, 1] [2, 1] = .ok r := ⟨_, rfl⟩
  have hsize : ch.unr_mem_t_size = 52 := by
    cases hinit
    rfl
  let run := Recorded (MemWorld.step threeHandles chs ch) MemWorld.events (MemWorld.init 2)
  have hagree : ∀ {es w}, run es w → w.DirectoryAgreement threeHandles chs ch 2 es :=
    fun h => directory_agrees hinit (by decide) h
  have h₀ : run [] (MemWorld.init 2) := .nil
  obtain ⟨w₁, hw₁⟩ := (hagree h₀).reg_returns 1 (by decide) (by decide) 64 8 (by decide)
  have h₁ : run [.reg 1 64 8] w₁ := h₀.snoc hw₁
  obtain ⟨w₂, hw₂⟩ := (hagree h₁).sync_returns (by decide) (by rw [hsize]; decide)
    (fun _ _ => 0) (fun _ _ => 0)
  have h₂ : run [.reg 1 64 8, .sync] w₂ := h₁.snoc hw₂
  obtain ⟨w₃, hw₃⟩ := (hagree h₂).reg_returns 1 (by decide) (by decide) 128 16 (by decide)
  have h₃ : run [.reg 1 64 8, .sync, .reg 1 128 16] w₃ := h₂.snoc hw₃
  obtain ⟨w₄, hw₄⟩ := (hagree h₃).sync_returns (by decide) (by rw [hsize]; decide)
    (fun _ _ => 1) (fun _ _ => 2)
  have h₄ : run [.reg 1 64 8, .sync, .reg 1 128 16, .sync] w₄ := h₃.snoc hw₄
  obtain ⟨w₅, hw₅⟩ := (hagree h₄).reg_returns 1 (by decide) (by decide) 256 4 (by decide)
  have h₅ : run [.reg 1 64 8, .sync, .reg 1 128 16, .sync, .reg 1 256 4] w₅ := h₄.snoc hw₅
  exact ⟨ch, chs, _, w₅, hinit, h₅, hagree h₅, fun p hp => (hagree h₅).counts p hp 1 (by decide),
    (hagree h₅).local_len 1 (by decide)⟩

end Final

end Unr.Core
