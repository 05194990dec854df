import Unr.Core.MemReg
import Unr.Core.Plan
import Unr.Logic.Transition

/-!
The directory of registered regions that every process keeps.

A process registers regions whenever it likes. `unr_mem_reg_sync` is collective:
every process packs its descriptors into one block, the blocks of all processes
are put one behind the other in a buffer of every process, and pointers into
this buffer replace those of the synchronisation before. A position in the
buffer is therefore a number of descriptors: those of the processes with a
lower rank, and those of the same process with a lower index.
-/

namespace Unr.Core

open Unr.Uru Unr.Logic

/-! ### The state of a process -/

/-- The registered regions of a process: fields of `unr_channels_t` and the
static buffer of `unr_mem_reg_sync`. -/
structure MemProc where
  loc_mem_arr_len : Nat
  /-- As long as it is allocated. An entry that is set is a descriptor. -/
  loc_mem_arr : List (Option (List (BitVec 8)))
  rmt_mem_arr_len : List Nat
  recv_buf : List (BitVec 8)
  /-- Positions in `recv_buf`. -/
  rmt_mem_arr : List (List Nat)

def MemProc.init (size : Nat) : MemProc where
  loc_mem_arr_len := 0
  loc_mem_arr := []
  rmt_mem_arr_len := List.replicate size 0
  recv_buf := []
  rmt_mem_arr := List.replicate size []

def intAdd (a b : Nat) : Prog Nat := if a + b < 2 ^ 31 then .ok (a + b) else .error .undefined

@[simp] theorem intAdd_eq_ok {a b c : Nat} :
    intAdd a b = .ok c ↔ a + b < 2 ^ 31 ∧ a + b = c := by
  unfold intAdd
  split <;> simp_all

/-- The size of an array of `count` elements. If it did not fit in a `size_t`,
the array would be too short for what is then written to it. -/
def sizeMul (count extent : Nat) : Prog Nat :=
  if count * extent < 2 ^ 64 then .ok (count * extent) else .error .undefined

/-- `uru_realloc` of an array of pointers: what is added is zero. -/
def uruRealloc {α : Type} (old : List (Option α)) (old_len new_len : Nat) : List (Option α) :=
  old.take old_len ++ List.replicate (new_len - old_len) none

/-- `uru_malloc`: the contents are whatever is there. -/
def uruMalloc (junk : Nat → BitVec 8) (size : Nat) : List (BitVec 8) := (List.range size).map junk

/-- `memcpy(dst + off, src, n)`. -/
def memcpy {β : Type} (dst : List β) (off : Nat) (src : List β) (n : Nat) : Prog (List β) :=
  if off + n ≤ dst.length ∧ n ≤ src.length then .ok (splice dst off (src.take n))
  else .error .undefined

/-! ### Registering a region -/

section

variable (t : MemRegTable) (chs : Nat → UriChannelT) (ch : UnrChannels)

def MemProc.growLocMem (p : MemProc) : Prog (List (Option (List (BitVec 8)))) :=
  if p.loc_mem_arr_len % 128 = 0 then do
    let new_size ← intAdd p.loc_mem_arr_len 128
    return uruRealloc p.loc_mem_arr p.loc_mem_arr_len new_size
  else .ok p.loc_mem_arr

def unrMemReg (rank : Nat) (p : MemProc) (addr size : BitVec 64) : Prog MemProc := do
  uruAssert (0 < size.toNat)
  let loc_mem_arr ← p.growLocMem
  let loc_mem_arr_len ← intAdd p.loc_mem_arr_len 1
  let obj ← unrMemObject t chs ⟨addr.toNat, size.toNat, rank, loc_mem_arr_len - 1⟩ ch
  let loc_mem_arr ← store loc_mem_arr (loc_mem_arr_len - 1) (some obj)
  return { p with loc_mem_arr_len := loc_mem_arr_len, loc_mem_arr := loc_mem_arr }

end

/-! ### The collective call -/

def MemProc.sendBuf (p : MemProc) (unr_mem_t_size : Nat) (junk : Nat → BitVec 8) :
    Prog (List (BitVec 8)) := do
  let size ← sizeMul p.loc_mem_arr_len unr_mem_t_size
  (List.range p.loc_mem_arr_len).foldlM (fun send_buf i => do
    let entry ← fetch p.loc_mem_arr i
    match entry with
    | some obj => memcpy send_buf (i * unr_mem_t_size) obj unr_mem_t_size
    | none => throw .undefined) (uruMalloc junk size)

/-- The loop that fills `displs`, from the entry before the given counts on. -/
def displsFrom (displ : Nat) : List Nat → Prog (List Nat)
  | [] => .ok []
  | [_] => .ok [displ]
  | count :: counts => do
      let next ← intAdd displ count
      let displs ← displsFrom next counts
      return displ :: displs

def gatherLayout (rmt_mem_arr_len : List Nat) : Prog (List Nat × Nat) := do
  let displs ← displsFrom 0 rmt_mem_arr_len
  let total_count ← intAdd (displs.getLastD 0) (rmt_mem_arr_len.getLastD 0)
  return (displs, total_count)

/-- `MPI_Allgatherv`: the block of process `r` is put at `displs[r]`. -/
def allgatherv (extent : Nat) (blocks : List (List (BitVec 8))) (displs : List Nat)
    (recv_buf : List (BitVec 8)) : Prog (List (BitVec 8)) :=
  (List.range blocks.length).foldlM (fun recv_buf r => do
    let block ← fetch blocks r
    let displ ← fetch displs r
    memcpy recv_buf (displ * extent) block block.length) recv_buf

def rmtPointers (extent : Nat) (rmt_mem_arr_len displs : List Nat) : List (List Nat) :=
  (rmt_mem_arr_len.zip displs).map fun x => (List.range x.1).map fun j => (x.2 + j) * extent

/-- `unr_mem_reg_sync` on one process, which is sent the counts and the blocks
of all. -/
def MemProc.receive (p : MemProc) (unr_mem_t_size : Nat) (counts : List Nat)
    (blocks : List (List (BitVec 8))) (junk : Nat → BitVec 8) : Prog MemProc := do
  let (displs, total_count) ← gatherLayout counts
  let size ← sizeMul total_count unr_mem_t_size
  let recv_buf ← allgatherv unr_mem_t_size blocks displs (uruMalloc junk size)
  return { p with
    rmt_mem_arr_len := counts
    recv_buf := recv_buf
    rmt_mem_arr := rmtPointers unr_mem_t_size counts displs }

structure MemWorld where
  size : Nat
  procs : Nat → MemProc

def MemWorld.counts (w : MemWorld) : List Nat :=
  (List.range w.size).map fun r => (w.procs r).loc_mem_arr_len

def MemWorld.sync (unr_mem_t_size : Nat) (w : MemWorld)
    (send_junk recv_junk : Nat → Nat → BitVec 8) :
    Prog MemWorld := do
  let blocks ← (List.range w.size).mapM fun r =>
    (w.procs r).sendBuf unr_mem_t_size (send_junk r)
  let procs ← (List.range w.size).mapM fun p =>
    (w.procs p).receive unr_mem_t_size w.counts blocks (recv_junk p)
  return { w with procs := fun p => procs.getD p (w.procs p) }

/-- A call that returns. -/
inductive MemAct
  | reg (rank : Nat) (addr size : BitVec 64)
  | sync (send_junk recv_junk : Nat → Nat → BitVec 8)

def MemWorld.step (t : MemRegTable) (chs : Nat → UriChannelT) (ch : UnrChannels) (w : MemWorld) :
    MemAct → Option MemWorld
  | .reg rank addr size =>
      if rank < w.size then
        (unrMemReg t chs ch rank (w.procs rank) addr size).toOption.map fun p =>
          { w with procs := Function.update w.procs rank p }
      else none
  | .sync send_junk recv_junk => (w.sync ch.unr_mem_t_size send_junk recv_junk).toOption

def MemWorld.init (size : Nat) : MemWorld where
  size := size
  procs := fun _ => .init size

/-! ### What the calls have been -/

inductive MemEvent
  | reg (rank : Nat) (addr size : BitVec 64)
  | sync
  deriving Repr, DecidableEq

def MemWorld.events (_ : MemWorld) : MemAct → List MemEvent
  | .reg rank addr size => [.reg rank addr size]
  | .sync _ _ => [.sync]

def regions (r : Nat) (es : List MemEvent) : List (BitVec 64 × BitVec 64) :=
  es.filterMap fun
    | .reg rank addr size => if rank = r then some (addr, size) else none
    | .sync => none

def untilSync (es : List MemEvent) : List MemEvent := es.rdropWhile (· ≠ .sync)

/-! ### Filling a buffer -/

theorem memcpy_ok {β : Type} {dst src pre : List β} {off n : Nat} (hpre : dst.take off = pre)
    (hoff : off + n ≤ dst.length) (hn : n ≤ src.length) :
    ∃ dst', memcpy dst off src n = .ok dst' ∧ dst'.length = dst.length ∧
      dst'.take (off + n) = pre ++ src.take n := by
  have hlen : (src.take n).length = n := by
    rw [List.length_take]
    omega
  refine ⟨splice dst off (src.take n), if_pos ⟨hoff, hn⟩, length_splice (by omega), ?_⟩
  have htake : (dst.take off ++ src.take n).length = off + n := by
    rw [List.length_append, List.length_take, hlen]
    omega
  rw [splice, ← htake, List.take_left, hpre]

theorem fill_ok {β : Type} (blocks : List (List β)) {turn : List β → Nat → Prog (List β)}
    (hturn : ∀ (i : Nat) (hi : i < blocks.length) (buf : List β), turn buf i =
      memcpy buf (displacement (blocks.map List.length) i) blocks[i] blocks[i].length)
    {buf : List β} (hbuf : buf.length = blocks.flatten.length) :
    (List.range blocks.length).foldlM turn buf = .ok blocks.flatten := by
  have hstep : ∀ i acc, i < blocks.length → acc.length = blocks.flatten.length ∧
      acc.take (displacement (blocks.map List.length) i) = (blocks.take i).flatten →
      ∃ acc', turn acc i = .ok acc' ∧ acc'.length = blocks.flatten.length ∧
        acc'.take (displacement (blocks.map List.length) (i + 1)) =
          (blocks.take (i + 1)).flatten := by
    intro i acc hi ⟨hacc, htake⟩
    have hi' : i < (blocks.map List.length).length := by simpa using hi
    have hnext := displacement_succ hi'
    have hend := displacement_le_sum (blocks.map List.length) (i + 1)
    rw [List.getElem_map] at hnext
    rw [← List.length_flatten] at hend
    obtain ⟨acc', hrun, hlen', htake'⟩ :=
      memcpy_ok htake (by omega) (Nat.le_refl blocks[i].length)
    refine ⟨acc', by rw [hturn i hi, hrun], by rw [hlen', hacc], ?_⟩
    rw [hnext, htake', List.take_length, List.take_succ_eq_append_getElem hi, List.flatten_append,
      List.flatten_singleton]
  obtain ⟨acc, hrun, hacc, htake⟩ := foldlM_range_ok hstep ⟨hbuf, by simp⟩
  have hall : displacement (blocks.map List.length) blocks.length = acc.length := by
    rw [hacc, List.length_flatten, ← displacement_length, List.length_map]
  rw [hall, List.take_length, List.take_length] at htake
  rw [hrun, htake]

/-! ### Displacements -/

theorem displsFrom_eq {displ : Nat} {counts : List Nat} (hdispl : displ < 2 ^ 31) :
    displsFrom displ counts = if displ + counts.dropLast.sum < 2 ^ 31 then
      .ok ((List.range counts.length).map fun i => displ + displacement counts i)
    else .error .undefined := by
  induction counts generalizing displ with
  | nil =>
      rw [if_pos (by simpa using hdispl)]
      rfl
  | cons count counts ih =>
      cases counts with
      | nil =>
          rw [if_pos (by simpa using hdispl)]
          simp [displsFrom]
      | cons count' counts =>
          have hmap : (List.range (count :: count' :: counts).length).map
              (fun i => displ + displacement (count :: count' :: counts) i) =
              displ :: (List.range (count' :: counts).length).map
                fun i => displ + count + displacement (count' :: counts) i := by
            rw [List.length_cons, List.range_succ_eq_map, List.map_cons, List.map_map,
              displacement_zero]
            congr 1
            refine List.map_congr_left fun i _ => ?_
            rw [Function.comp_apply, Nat.succ_eq_add_one, displacement_cons_succ, Nat.add_assoc]
          change (intAdd displ count >>= fun next => displsFrom next (count' :: counts) >>=
            fun displs => pure (displ :: displs)) = _
          rw [intAdd, List.dropLast_cons_cons, List.sum_cons, hmap]
          by_cases hnext : displ + count < 2 ^ 31
          · rw [if_pos hnext, ok_bind, ih hnext, ← Nat.add_assoc]
            split <;> rfl
          · rw [if_neg hnext, error_bind, if_neg (by omega)]

theorem gatherLayout_eq {counts : List Nat} (hne : counts ≠ []) :
    gatherLayout counts = if counts.sum < 2 ^ 31 then
      .ok ((List.range counts.length).map (displacement counts), counts.sum)
    else .error .undefined := by
  obtain ⟨counts, count, rfl⟩ := (List.eq_nil_or_concat counts).resolve_left hne
  rw [List.concat_eq_append] at *
  have hlast : ((List.range (counts ++ [count]).length).map fun i =>
      0 + displacement (counts ++ [count]) i).getLastD 0 = counts.sum := by
    rw [List.length_append, List.length_singleton, List.range_succ, List.map_append,
      List.map_singleton, List.getLastD_concat, Nat.zero_add, displacement_append_length]
  have hsum : (counts ++ [count]).sum = counts.sum + count := by simp
  rw [gatherLayout, displsFrom_eq (by decide), List.dropLast_concat, Nat.zero_add, hsum]
  by_cases htotal : counts.sum + count < 2 ^ 31
  · rw [if_pos (by omega), ok_bind, hlast, List.getLastD_concat, intAdd, if_pos htotal,
      if_pos htotal, ok_bind]
    simp only [Nat.zero_add]
    rfl
  · rw [if_neg htotal]
    split
    · rw [ok_bind, hlast, List.getLastD_concat, intAdd, if_neg htotal, error_bind]
    · rfl

/-! ### What a process holds -/

structure MemProc.Holds (extent : Nat) (objs : List (List (BitVec 8))) (p : MemProc) : Prop where
  len : p.loc_mem_arr_len = objs.length
  /-- The array has grown in steps of 128. -/
  capacity : p.loc_mem_arr.length = (objs.length + 127) / 128 * 128
  entry : ∀ (j : Nat) (hj : j < objs.length), p.loc_mem_arr[j]? = some (some objs[j])
  size : ∀ obj ∈ objs, obj.length = extent

/-- The directory of a process lists, for each process, the given
descriptors. -/
structure MemProc.Directory (extent : Nat) (all : List (List (List (BitVec 8)))) (p : MemProc) :
    Prop where
  counts : p.rmt_mem_arr_len = all.map List.length
  buf : p.recv_buf = all.flatten.flatten
  ptrs : p.rmt_mem_arr = all.zipIdx.map fun x => (List.range x.1.length).map fun j =>
    (displacement (all.map List.length) x.2 + j) * extent

def MemProc.withDirectory (p : MemProc) (extent : Nat) (all : List (List (List (BitVec 8)))) :
    MemProc :=
  { p with
    rmt_mem_arr_len := all.map List.length
    recv_buf := all.flatten.flatten
    rmt_mem_arr := rmtPointers extent (all.map List.length)
      ((List.range all.length).map (displacement (all.map List.length))) }

section Blocks

variable {extent : Nat} {p : MemProc} {objs : List (List (BitVec 8))} {junk : Nat → BitVec 8}

@[simp] theorem length_uruMalloc (size : Nat) : (uruMalloc junk size).length = size := by
  simp [uruMalloc]

theorem MemProc.Holds.sendBuf_eq (h : p.Holds extent objs) :
    p.sendBuf extent junk = if objs.length * extent < 2 ^ 64 then .ok objs.flatten
      else .error .undefined := by
  rw [MemProc.sendBuf, sizeMul, h.len]
  by_cases hfits : objs.length * extent < 2 ^ 64
  · rw [if_pos hfits, if_pos hfits, ok_bind]
    refine fill_ok objs (fun i hi buf => ?_) ?_
    · have hlen : objs[i].length = extent := h.size _ (List.getElem_mem hi)
      have hdispl : displacement (objs.map List.length) i = i * extent :=
        displacement_of_forall (fun x hx => by
          obtain ⟨obj, hobj, rfl⟩ := List.mem_map.mp hx
          exact h.size obj hobj) (by simpa using hi.le)
      rw [fetch_eq_ok.mpr (h.entry i hi), ok_bind, hlen, hdispl]
    · rw [length_uruMalloc, length_flatten_of_forall h.size]
  · rw [if_neg hfits, if_neg hfits, error_bind]

theorem allgatherv_eq {all : List (List (List (BitVec 8)))}
    (hsize : ∀ objs ∈ all, ∀ obj ∈ objs, obj.length = extent) {recv_buf : List (BitVec 8)}
    (hbuf : recv_buf.length = all.flatten.flatten.length) :
    allgatherv extent (all.map List.flatten)
      ((List.range all.length).map (displacement (all.map List.length))) recv_buf =
        .ok all.flatten.flatten := by
  have hunit : (all.map List.flatten).map List.length =
      (all.map List.length).map (· * extent) := by
    rw [List.map_map, List.map_map]
    exact List.map_congr_left fun objs hobjs => length_flatten_of_forall (hsize objs hobjs)
  rw [List.flatten_flatten] at hbuf ⊢
  refine fill_ok (all.map List.flatten) (fun r hr buf => ?_) hbuf
  have hr' : r < all.length := by simpa using hr
  rw [fetch_of_lt hr, ok_bind, fetch_of_lt (by simpa using hr'), ok_bind, List.getElem_map,
    List.getElem_range, hunit, displacement_map_mul]

theorem MemProc.receive_eq {all : List (List (List (BitVec 8)))} (hne : all ≠ [])
    (hsize : ∀ objs ∈ all, ∀ obj ∈ objs, obj.length = extent) :
    p.receive extent (all.map List.length) (all.map List.flatten) junk =
      if all.flatten.length < 2 ^ 31 ∧ all.flatten.length * extent < 2 ^ 64 then
        .ok (p.withDirectory extent all)
      else .error .undefined := by
  have hall : ∀ obj ∈ all.flatten, obj.length = extent := by
    intro obj hobj
    obtain ⟨objs, hobjs, hmem⟩ := List.mem_flatten.mp hobj
    exact hsize objs hobjs obj hmem
  rw [MemProc.receive, gatherLayout_eq (by simpa using hne), ← List.length_flatten]
  by_cases htotal : all.flatten.length < 2 ^ 31
  · rw [if_pos htotal, ok_bind]
    dsimp only
    rw [sizeMul]
    by_cases hfits : all.flatten.length * extent < 2 ^ 64
    · rw [if_pos hfits, ok_bind, if_pos ⟨htotal, hfits⟩, List.length_map,
        allgatherv_eq hsize (by rw [length_uruMalloc, length_flatten_of_forall hall])]
      rfl
    · rw [if_neg hfits, error_bind, if_neg fun h => hfits h.2]
  · rw [if_neg htotal, error_bind, if_neg fun h => htotal h.1]

theorem rmtPointers_eq (extent : Nat) (all : List (List (List (BitVec 8)))) :
    rmtPointers extent (all.map List.length)
        ((List.range all.length).map (displacement (all.map List.length))) =
      all.zipIdx.map fun x => (List.range x.1.length).map fun j =>
        (displacement (all.map List.length) x.2 + j) * extent := by
  rw [rmtPointers, List.zipIdx_eq_zip_range', List.zip_map, List.map_map, ← List.range_eq_range']
  rfl

end Blocks

/-- A pointer of the directory leads to the descriptor that it is meant for. -/
theorem MemProc.Directory.lookup {extent : Nat} {all : List (List (List (BitVec 8)))}
    {p : MemProc} (h : p.Directory extent all)
    (hsize : ∀ objs ∈ all, ∀ obj ∈ objs, obj.length = extent) {r : Nat} (hr : r < all.length) :
    p.rmt_mem_arr_len[r]? = some all[r].length ∧
      ∃ ptrs, p.rmt_mem_arr[r]? = some ptrs ∧ ptrs.length = all[r].length ∧
        ∀ (j : Nat) (hj : j < all[r].length),
          ∃ ptr, ptrs[j]? = some ptr ∧ slice p.recv_buf ptr extent = all[r][j] := by
  have hall : ∀ obj ∈ all.flatten, obj.length = extent := by
    intro obj hobj
    obtain ⟨objs, hobjs, hmem⟩ := List.mem_flatten.mp hobj
    exact hsize objs hobjs obj hmem
  refine ⟨by rw [h.counts]; simp [hr], (List.range all[r].length).map fun j =>
    (displacement (all.map List.length) r + j) * extent, ?_, by simp, fun j hj =>
      ⟨(displacement (all.map List.length) r + j) * extent, by simp [hj], ?_⟩⟩
  · rw [h.ptrs]
    simp [hr]
  · have hat := getElem?_flatten hr hj
    obtain ⟨hlt, heq⟩ := List.getElem?_eq_some_iff.mp hat
    rw [h.buf, slice_flatten hall hlt, heq]

end Unr.Core
