import Unr.Core.Layout
import Unr.Logic.Buffer
import Unr.Logic.Loop

/-!
The descriptor of a registered region, byte by byte.

`unr_mem_reg` writes the four fields of the descriptor, and then every opened
channel writes its handle behind them. The descriptor can be copied to another
process as it is, because a channel gets back from its handle to the fields by
the offset it was opened with.
-/

namespace Unr.Core

open Unr.Uru Unr.Logic

/-! ### The fields -/

def storeUnrMem (obj : List (BitVec 8)) (m : UnrMem) : List (BitVec 8) :=
  splice (splice (splice (splice obj 0 (leBytes 8 m.addr)) 8 (leBytes 8 m.size))
    16 (leBytes 4 m.rank)) 20 (leBytes 4 m.idx)

def loadUnrMem (obj : List (BitVec 8)) (off : Nat) : UnrMem where
  addr := ofLeBytes (slice obj off 8)
  size := ofLeBytes (slice obj (off + 8) 8)
  rank := ofLeBytes (slice obj (off + 16) 4)
  idx := ofLeBytes (slice obj (off + 20) 4)

structure UnrMem.Fits (m : UnrMem) : Prop where
  addr : m.addr < 256 ^ 8
  size : m.size < 256 ^ 8
  rank : m.rank < 256 ^ 4
  idx : m.idx < 256 ^ 4

def UnrMem.bytes (m : UnrMem) : List (BitVec 8) :=
  leBytes 8 m.addr ++ leBytes 8 m.size ++ leBytes 4 m.rank ++ leBytes 4 m.idx

section Fields

variable {obj : List (BitVec 8)} {m : UnrMem}

@[simp] theorem UnrMem.length_bytes (m : UnrMem) : m.bytes.length = sizeofUnrMem := by
  simp [bytes, sizeofUnrMem]

theorem storeUnrMem_eq : storeUnrMem obj m = splice obj 0 m.bytes := by
  have hadjacent : ∀ (xs ys : List (BitVec 8)) (off : Nat), xs.length = off →
      splice (splice obj 0 xs) off ys = splice obj 0 (xs ++ ys) := by
    intro xs ys off hoff
    have hone := @splice_splice_adjacent _ obj xs 0 ys (Nat.zero_le _)
    rwa [Nat.zero_add, hoff] at hone
  rw [storeUnrMem, hadjacent _ _ 8 (by simp), hadjacent _ _ 16 (by simp),
    hadjacent _ _ 20 (by simp)]
  rfl

theorem loadUnrMem_of_bytes {off : Nat} (hfits : m.Fits)
    (hbytes : slice obj off sizeofUnrMem = m.bytes) : loadUnrMem obj off = m := by
  have hall : slice obj off m.bytes.length = m.bytes := by rwa [UnrMem.length_bytes]
  have hpart : ∀ o n, o + n ≤ sizeofUnrMem → slice obj (off + o) n = slice m.bytes o n :=
    fun o n h => slice_of_slice hall (by rwa [UnrMem.length_bytes])
  have haddr : slice obj off 8 = leBytes 8 m.addr := hpart 0 8 (by decide)
  have hsize : slice obj (off + 8) 8 = leBytes 8 m.size := hpart 8 8 (by decide)
  have hrank : slice obj (off + 16) 4 = leBytes 4 m.rank := hpart 16 4 (by decide)
  have hidx : slice obj (off + 20) 4 = leBytes 4 m.idx := hpart 20 4 (by decide)
  rw [loadUnrMem, haddr, hsize, hrank, hidx, ofLeBytes_leBytes hfits.addr,
    ofLeBytes_leBytes hfits.size, ofLeBytes_leBytes hfits.rank, ofLeBytes_leBytes hfits.idx]

end Fields

/-! ### The handles -/

/-- A channel table with what the `mem_reg` function of each channel writes
into its handle for a region. The handle has room for it. -/
structure MemRegTable extends HandleTable where
  mem_reg : Nat → UnrMem → List (BitVec 8)
  mem_reg_le : ∀ c m, (mem_reg c m).length ≤ (toChannelTable.attr c).mem_h_size

section

variable (t : MemRegTable) (chs : Nat → UriChannelT) (m : UnrMem)

def uriMemReg (c mem_h : Nat) (obj : List (BitVec 8)) : Prog (List (BitVec 8)) := do
  uruAssert ((chs c).opened = true)
  if mem_h + (t.mem_reg c m).length ≤ obj.length then
    return splice obj mem_h (t.mem_reg c m)
  else throw .undefined

/-- The loop over one list of channels, with their `intra_channel_reuse` and
their offsets. -/
def regPass (xs : List ((Nat × Option Nat) × Nat)) (obj : List (BitVec 8)) :
    Prog (List (BitVec 8)) :=
  xs.foldlM (fun obj x =>
    match x.1.2 with
    | none => uriMemReg t chs m x.1.1 x.2 obj
    | some _ => .ok obj) obj

/-- The descriptor that `unr_mem_reg` allocates and fills. -/
def unrMemObject (ch : UnrChannels) : Prog (List (BitVec 8)) := do
  let obj := storeUnrMem (List.replicate ch.unr_mem_t_size 0) m
  let obj ← regPass t chs m
    ((ch.inter.channels.map fun c => (c, none)).zip ch.inter.uri_mem_h_offset) obj
  regPass t chs m ((ch.intra.channels.zip ch.intra_channel_reuse).zip ch.intra.uri_mem_h_offset) obj

/-- `uri_mem_get_info` for a handle at position `mem_p`: the address, the size
and the rank. -/
def uriMemGetInfoAt (c : Nat) (obj : List (BitVec 8)) (mem_p : Nat) : Prog (Nat × Nat × Nat) :=
  if (chs c).mem_h_offset ≤ mem_p ∧ mem_p - (chs c).mem_h_offset + sizeofUnrMem ≤ obj.length then
    let unr_mem_p := loadUnrMem obj (mem_p - (chs c).mem_h_offset)
    .ok (unr_mem_p.addr, unr_mem_p.size, unr_mem_p.rank)
  else .error .undefined

/-- A descriptor in which the channels of `written` have their handles. -/
structure Descriptor (ch : UnrChannels) (written : List Nat) (obj : List (BitVec 8)) : Prop where
  length : obj.length = ch.unr_mem_t_size
  fields : slice obj 0 sizeofUnrMem = m.bytes
  handle : ∀ c ∈ written, slice obj (chs c).mem_h_offset (t.mem_reg c m).length = t.mem_reg c m

end

section

variable {t : MemRegTable} {chs : Nat → UriChannelT} {m : UnrMem} {ch : UnrChannels}
  {written : List Nat} {obj : List (BitVec 8)}

theorem Descriptor.reg (h : Descriptor t chs m ch written obj)
    (hready : ChannelsReady t.toChannelTable ch chs) (hwritten : written ⊆ ch.avail_channels)
    {c : Nat} (hc : c ∈ ch.avail_channels) :
    ∃ obj', uriMemReg t chs m c (chs c).mem_h_offset obj = .ok obj' ∧
      Descriptor t chs m ch (written ++ [c]) obj' := by
  obtain ⟨hbehind, hinside⟩ := hready.inside c hc
  have hle := t.mem_reg_le c m
  have hroom : (chs c).mem_h_offset + (t.mem_reg c m).length ≤ obj.length := by
    rw [h.length]
    omega
  refine ⟨splice obj (chs c).mem_h_offset (t.mem_reg c m), ?_, ?_, ?_, ?_⟩
  · rw [uriMemReg, uruAssert_bind, if_pos (hready.opened c hc).1, if_pos hroom]
    rfl
  · rw [length_splice hroom, h.length]
  · rw [slice_splice_of_disjoint hroom (.inl (by simpa using hbehind)), h.fields]
  · intro c' hc'
    by_cases hsame : c' = c
    · subst hsame
      exact slice_splice_self hroom
    · have hc' : c' ∈ written := by
        rcases List.mem_append.mp hc' with hc' | hc'
        · exact hc'
        · exact absurd (List.mem_singleton.mp hc') hsame
      have hle' := t.mem_reg_le c' m
      rw [slice_splice_of_disjoint hroom, h.handle c' hc']
      rcases hready.apart c' (hwritten hc') c hc hsame with hbefore | hafter
      · exact .inl (by omega)
      · exact .inr (by omega)

theorem Descriptor.pass (hready : ChannelsReady t.toChannelTable ch chs) (reuse : Nat → Option Nat)
    {cs : List Nat} (hcs : cs ⊆ ch.avail_channels) (hwritten : written ⊆ ch.avail_channels)
    (h : Descriptor t chs m ch written obj) :
    ∃ obj', regPass t chs m (cs.map fun c => ((c, reuse c), (chs c).mem_h_offset)) obj =
        .ok obj' ∧
      Descriptor t chs m ch (written ++ cs.filter fun c => (reuse c).isNone) obj' := by
  induction cs generalizing written obj with
  | nil => exact ⟨obj, rfl, by simpa using h⟩
  | cons c cs ih =>
      obtain ⟨hc, hcs⟩ := List.cons_subset.mp hcs
      simp only [regPass, List.map_cons, List.foldlM_cons, List.filter_cons] at ih ⊢
      cases hreuse : reuse c with
      | none =>
          obtain ⟨next, hreg, hnext⟩ := h.reg hready hwritten hc
          obtain ⟨obj', hrun, hobj'⟩ := ih hcs
            (List.append_subset.mpr ⟨hwritten, by simpa using hc⟩) hnext
          refine ⟨obj', by simp only [hreg, ok_bind, hrun], ?_⟩
          simpa using hobj'
      | some j =>
          obtain ⟨obj', hrun, hobj'⟩ := ih hcs hwritten h
          refine ⟨obj', by simp only [ok_bind, hrun], ?_⟩
          simpa using hobj'

theorem zip_map_self {α β : Type} (xs : List α) (f : α → β) :
    xs.zip (xs.map f) = xs.map fun x => (x, f x) := by
  induction xs with
  | nil => rfl
  | cons x xs ih => rw [List.map_cons, List.zip_cons_cons, ih, List.map_cons]

/-- `unr_mem_reg` fills the descriptor, however the two lists overlap. -/
theorem unrMemObject_ok (hready : ChannelsReady t.toChannelTable ch chs) (m : UnrMem) :
    ∃ obj, unrMemObject t chs m ch = .ok obj ∧ Descriptor t chs m ch ch.avail_channels obj := by
  have hroom : 0 + m.bytes.length ≤ (List.replicate ch.unr_mem_t_size (0 : BitVec 8)).length := by
    simpa using hready.size_le
  have hstart : Descriptor t chs m ch [] (storeUnrMem (List.replicate ch.unr_mem_t_size 0) m) := by
    rw [storeUnrMem_eq]
    refine ⟨by rw [length_splice hroom, List.length_replicate], ?_, fun _ hc => nomatch hc⟩
    have hself := slice_splice_self hroom
    rwa [UnrMem.length_bytes] at hself
  have hinter : (ch.inter.channels.map fun c => (c, (none : Option Nat))).zip
      ch.inter.uri_mem_h_offset =
        ch.inter.channels.map fun c => ((c, none), (chs c).mem_h_offset) := by
    rw [hready.inter_offset]
    exact List.zip_map' ..
  have hintra : (ch.intra.channels.zip ch.intra_channel_reuse).zip ch.intra.uri_mem_h_offset =
      ch.intra.channels.map fun c =>
        ((c, ch.inter.channels.findIdx? (· == c)), (chs c).mem_h_offset) := by
    rw [hready.intra_offset, hready.reuse, zip_map_self]
    exact List.zip_map' ..
  have hsub : ch.inter.channels ⊆ ch.avail_channels := fun c hc => (hready.mem c).mpr (.inl hc)
  have hsub' : ch.intra.channels ⊆ ch.avail_channels := fun c hc => (hready.mem c).mpr (.inr hc)
  obtain ⟨mid, hrun, hmid⟩ := hstart.pass hready (fun _ => none) hsub (List.nil_subset _)
  have hall : ([] ++ ch.inter.channels.filter fun _ => (none : Option Nat).isNone) =
      ch.inter.channels := by simp
  rw [hall] at hmid
  obtain ⟨obj, hrun', hobj⟩ :=
    hmid.pass hready (fun c => ch.inter.channels.findIdx? (· == c)) hsub' hsub
  refine ⟨obj, ?_, ?_⟩
  · simp only [unrMemObject, hinter, hrun, ok_bind, hintra, hrun']
  · rw [hready.avail]
    exact hobj

theorem Descriptor.getInfo (h : Descriptor t chs m ch written obj)
    (hready : ChannelsReady t.toChannelTable ch chs) (hfits : m.Fits) (c : Nat) :
    uriMemGetInfoAt chs c obj (chs c).mem_h_offset = .ok (m.addr, m.size, m.rank) := by
  have hroom : 0 + sizeofUnrMem ≤ obj.length := by
    rw [h.length, Nat.zero_add]
    exact hready.size_le
  rw [uriMemGetInfoAt, Nat.sub_self, if_pos ⟨Nat.le_refl _, hroom⟩,
    loadUnrMem_of_bytes hfits h.fields]

end

theorem ChannelsReady.offset_eq {t : ChannelTable} {ch : UnrChannels} {chs : Nat → UriChannelT}
    (h : ChannelsReady t ch chs) {g : ChannelGroup} (hg : g = ch.inter ∨ g = ch.intra) {j : Nat}
    (hj : j < g.num) : g.uri_mem_h_offset.getD j 0 = (chs (g.channels.getD j 0)).mem_h_offset ∧
      g.channels.getD j 0 ∈ ch.avail_channels := by
  have hoffset : g.uri_mem_h_offset = g.channels.map fun c => (chs c).mem_h_offset := by
    rcases hg with rfl | rfl
    · exact h.inter_offset
    · exact h.intra_offset
  have hj' : j < g.channels.length := hj
  rw [hoffset]
  simp only [List.getD, List.getElem?_map, List.getElem?_eq_getElem hj', Option.map_some,
    Option.getD_some, true_and]
  have hmem := List.getElem_mem hj'
  rcases hg with rfl | rfl
  · exact (h.mem _).mpr (.inl hmem)
  · exact (h.mem _).mpr (.inr hmem)

/-- Whatever two lists `unr_init` accepts: every channel of either list is
available and opened once, under its position as id; the handles lie behind
the descriptor and apart from each other; both lists agree about the offsets,
which are those the channels were opened with; and in every descriptor that
`unr_mem_reg` fills, every channel finds its handle and, from there, the
address, the size and the rank of the region. -/
theorem channels_laid_out {t : MemRegTable} {inter_channels intra_channels : List Nat}
    {ch : UnrChannels} {chs : Nat → UriChannelT}
    (h : unrInitOpen t.toChannelTable registered inter_channels intra_channels = .ok (ch, chs)) :
    ch.inter.channels = inter_channels ∧ ch.intra.channels = intra_channels ∧
      ChannelsReady t.toChannelTable ch chs ∧
      (∀ j < ch.inter.num, ∀ k < ch.intra.num,
        ch.inter.channels.getD j 0 = ch.intra.channels.getD k 0 →
        ch.inter.uri_mem_h_offset.getD j 0 = ch.intra.uri_mem_h_offset.getD k 0) ∧
      ∀ (addr size : BitVec 64) (rank idx : BitVec 32),
        let m : UnrMem := ⟨addr.toNat, size.toNat, rank.toNat, idx.toNat⟩
        ∃ obj, unrMemObject t chs m ch = .ok obj ∧ obj.length = ch.unr_mem_t_size ∧
          ∀ g, g = ch.inter ∨ g = ch.intra → ∀ j < g.num,
            uriMemGetInfoAt chs (g.channels.getD j 0) obj (g.uri_mem_h_offset.getD j 0) =
              .ok (addr.toNat, size.toNat, rank.toNat) ∧
            slice obj (g.uri_mem_h_offset.getD j 0) (t.mem_reg (g.channels.getD j 0) m).length =
              t.mem_reg (g.channels.getD j 0) m := by
  obtain ⟨hready, hinter, hintra, -⟩ := unrInitOpen_ready h
  refine ⟨hinter, hintra, hready, ?_, ?_⟩
  · intro j hj k hk hsame
    rw [(hready.offset_eq (.inl rfl) hj).1, (hready.offset_eq (.inr rfl) hk).1, hsame]
  · intro addr size rank idx m
    have hfits : m.Fits := ⟨addr.isLt, size.isLt, rank.isLt, idx.isLt⟩
    obtain ⟨obj, hrun, hobj⟩ := unrMemObject_ok hready m
    refine ⟨obj, hrun, hobj.length, fun g hg j hj => ?_⟩
    obtain ⟨hoffset, hmem⟩ := hready.offset_eq hg hj
    rw [hoffset]
    exact ⟨hobj.getInfo hready hfits _, hobj.handle _ hmem⟩

def threeHandles : MemRegTable where
  arr := [⟨.verbs, 4096, 16⟩, ⟨.verbs, 4096, 4⟩, ⟨.verbs, 4096, 8⟩]
  length_le := by decide
  blocksize_lt := by decide
  mem_h_size_lt := by decide
  mem_reg := fun c m => if c = 0 then leBytes 4 m.idx else []
  mem_reg_le := by
    intro c m
    by_cases hc : c = 0
    · subst hc
      simp [ChannelTable.attr]
    · simp [hc]

/-- The second list repeats one channel of the first, in another place. -/
theorem channels_laid_out_overlap :
    ∃ ch chs, unrInitOpen threeHandles.toChannelTable registered [0, 1] [2, 1] = .ok (ch, chs) ∧
      ChannelsReady threeHandles.toChannelTable ch chs ∧
      ch.avail_channels = [0, 1, 2] ∧ ch.inter.uri_mem_h_offset = [24, 40] ∧
      ch.intra.uri_mem_h_offset = [44, 40] ∧ ch.unr_mem_t_size = 52 := by
  obtain ⟨⟨ch, chs⟩, hinit⟩ : ∃ r,
      unrInitOpen threeHandles.toChannelTable registered [0, 1] [2, 1] = .ok r := ⟨_, rfl⟩
  have hlaid := channels_laid_out hinit
  cases hinit
  exact ⟨_, _, rfl, hlaid.2.2.1, rfl, rfl, rfl, rfl⟩

end Unr.Core
