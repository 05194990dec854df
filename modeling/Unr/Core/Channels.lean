import Unr.Uru.Types

/-!
The channel configuration that `unr_init` builds from the registered
channels and the two lists the user selected, and what every accepted
configuration satisfies.

A channel is named by its position in `uri_channel_arr`. Reading the two
environment variables is left to the caller: here the selection is already a
list of positions.
-/

namespace Unr.Core

open Unr.Uru

inductive ChannelType
  | mpi | verbs
  deriving Repr, DecidableEq

/-- The attributes of a registered channel that `unr_init` reads, and the size
`uri_mem_h_size` reports for it. -/
structure UriChannel where
  type : ChannelType
  blocksize : Nat
  mem_h_size : Nat
  deriving Repr, DecidableEq

def uriMaxChannelNum : Nat := 16

/-- `uri_channel_arr`. The array has `URI_MAX_CHANNEL_NUM` entries, and every
channel module registers with a block size of 4096 bytes; what the layers
above rely on is only that all registered block sizes together fit in a
`size_t`. -/
structure ChannelTable where
  arr : List UriChannel
  length_le : arr.length ≤ uriMaxChannelNum
  blocksize_lt : ∀ c ∈ arr, uriMaxChannelNum * c.blocksize < 2 ^ 64

def ChannelTable.attr (t : ChannelTable) (c : Nat) : UriChannel :=
  t.arr.getD c { type := .mpi, blocksize := 0, mem_h_size := 0 }

/-- The columns of `unr_channels_t` that describe the inter-node or the
intra-node channels. -/
structure ChannelGroup where
  channels : List Nat
  uri_mem_h_offset : List Nat
  channel_blk_size : List Nat
  channel_blk_size_sum : Nat
  deriving Repr, DecidableEq

def ChannelGroup.num (g : ChannelGroup) : Nat := g.channels.length

/-- `unr_mem_t`, the descriptor of a registered region. The space for the
per-channel handles behind it is addressed by offsets. -/
structure UnrMem where
  addr : Nat
  size : Nat
  rank : Nat
  idx : Nat
  deriving Repr, DecidableEq

structure UnrChannels where
  avail_channels : List Nat
  inter : ChannelGroup
  intra : ChannelGroup
  intra_channel_reuse : List (Option Nat)
  unr_mem_t_size : Nat
  loc_mem_arr : List UnrMem
  rmt_mem_arr : List (List UnrMem)
  deriving Repr, DecidableEq

def sizeofUnrMem : Nat := 24

/-- The layout pass over one list: a channel that is opened here gets the
next free offset, a reused one the offset it has as an inter-node channel. -/
def layoutOffsets (t : ChannelTable) (inter_uri_mem_h_offset : List Nat) :
    List (Nat × Option Nat) → Nat → List Nat × Nat
  | [], unr_mem_t_size => ([], unr_mem_t_size)
  | (_, some j) :: rest, unr_mem_t_size =>
      let (offsets, final) := layoutOffsets t inter_uri_mem_h_offset rest unr_mem_t_size
      (inter_uri_mem_h_offset.getD j 0 :: offsets, final)
  | (c, none) :: rest, unr_mem_t_size =>
      let (offsets, final) := layoutOffsets t inter_uri_mem_h_offset rest
        (unr_mem_t_size + (t.attr c).mem_h_size)
      (unr_mem_t_size :: offsets, final)

/-- The block size checks of one list: each is a power of two, and all agree
with the first channel in block size and type. -/
def checkGroup (t : ChannelTable) (channels uri_mem_h_offset : List Nat) :
    Prog ChannelGroup := do
  uruAssert (∀ c ∈ channels, 0 < (t.attr c).blocksize ∧
    (t.attr c).blocksize &&& ((t.attr c).blocksize - 1) = 0)
  uruAssert (∀ c ∈ channels.tail,
    (t.attr c).blocksize = (t.attr (channels.headD 0)).blocksize)
  uruAssert (∀ c ∈ channels.tail, (t.attr c).type = (t.attr (channels.headD 0)).type)
  return {
    channels := channels
    uri_mem_h_offset := uri_mem_h_offset
    channel_blk_size := channels.map fun c => (t.attr c).blocksize
    channel_blk_size_sum :=
      channels.foldl (fun sum c => wrap64 (sum + (t.attr c).blocksize)) 0 }

/-- `unr_init` after the environment variables have been read. -/
def unrInit (t : ChannelTable) (inter_channels intra_channels : List Nat) :
    Prog UnrChannels := do
  -- `find_channel` has found every name, and both lists name a channel
  uruAssert (∀ c ∈ inter_channels, c < t.arr.length)
  uruAssert (inter_channels ≠ [])
  uruAssert (∀ c ∈ intra_channels, c < t.arr.length)
  uruAssert (intra_channels ≠ [])
  uruAssert inter_channels.Nodup
  uruAssert intra_channels.Nodup
  let reuse := intra_channels.map fun c => inter_channels.findIdx? (· == c)
  let (inter_offset, size) :=
    layoutOffsets t [] (inter_channels.map fun c => (c, none)) sizeofUnrMem
  let (intra_offset, size) :=
    layoutOffsets t inter_offset (intra_channels.zip reuse) size
  let inter ← checkGroup t inter_channels inter_offset
  let intra ← checkGroup t intra_channels intra_offset
  return {
    avail_channels := inter_channels ++
      intra_channels.filter fun c => (inter_channels.findIdx? (· == c)).isNone
    inter := inter
    intra := intra
    intra_channel_reuse := reuse
    unr_mem_t_size := size
    loc_mem_arr := []
    rmt_mem_arr := [] }

/-! ### What an accepted configuration satisfies -/

/-- A group whose channels all have block size `b`, with the sum of the block
sizes exact. -/
structure ChannelGroup.Accepted (g : ChannelGroup) (b : Nat) : Prop where
  /-- There is a channel. -/
  num_pos : 0 < g.num
  /-- Every channel has its handle offset. -/
  offset_length : g.uri_mem_h_offset.length = g.num
  /-- The block sizes are all `b`. -/
  blk_size : g.channel_blk_size = List.replicate g.num b
  /-- Blocks are not empty. -/
  blk_pos : 0 < b
  /-- The sum of the block sizes did not wrap. -/
  blk_size_sum : g.channel_blk_size_sum = g.num * b
  /-- It is a `size_t`. -/
  sum_lt : g.num * b < 2 ^ 64

@[simp] theorem layoutOffsets_length (t : ChannelTable) (io : List Nat)
    (cs : List (Nat × Option Nat)) (n : Nat) :
    (layoutOffsets t io cs n).1.length = cs.length := by
  induction cs generalizing n with
  | nil => rfl
  | cons c rest ih =>
      obtain ⟨c, _ | j⟩ := c <;> simp [layoutOffsets, ih]

theorem length_le_of_nodup {t : ChannelTable} {channels : List Nat}
    (hnodup : channels.Nodup) (hlt : ∀ c ∈ channels, c < t.arr.length) :
    channels.length ≤ uriMaxChannelNum := by
  have hsub : channels ⊆ List.range t.arr.length :=
    fun c hc => List.mem_range.mpr (hlt c hc)
  have hle := (List.Nodup.subperm hnodup hsub).length_le
  rw [List.length_range] at hle
  exact Nat.le_trans hle t.length_le

/-- As long as the true sum fits, adding up the block sizes does not wrap. -/
theorem foldl_blocksize {t : ChannelTable} {b : Nat} (channels : List Nat)
    (hb : ∀ c ∈ channels, (t.attr c).blocksize = b) (sum : Nat)
    (hlt : sum + channels.length * b < 2 ^ 64) :
    channels.foldl (fun sum c => wrap64 (sum + (t.attr c).blocksize)) sum =
      sum + channels.length * b := by
  induction channels generalizing sum with
  | nil => simp
  | cons c cs ih =>
      have hc := hb c (by simp)
      rw [List.length_cons, Nat.add_mul, Nat.one_mul] at hlt ⊢
      rw [List.foldl_cons, hc, wrap64_of_lt (by omega),
        ih (fun c' hc' => hb c' (by simp [hc'])) (sum + b) (by omega)]
      omega

theorem checkGroup_accepted {t : ChannelTable} {channels offsets : List Nat}
    {g : ChannelGroup} (hg : checkGroup t channels offsets = .ok g)
    (hlt : ∀ c ∈ channels, c < t.arr.length) (hne : channels ≠ [])
    (hnodup : channels.Nodup) (hoff : offsets.length = channels.length) :
    g.channels = channels ∧ ∃ b, g.Accepted b := by
  simp only [checkGroup, bind_eq_ok, uruAssert_eq_ok, pure_eq_ok] at hg
  obtain ⟨-, hpow, -, hsame, -, -, rfl⟩ := hg
  refine ⟨rfl, (t.attr (channels.headD 0)).blocksize, ?_⟩
  obtain ⟨c₀, cs, rfl⟩ := List.exists_cons_of_ne_nil hne
  have hb : ∀ c ∈ c₀ :: cs, (t.attr c).blocksize = (t.attr c₀).blocksize := by
    intro c hc
    rcases List.mem_cons.mp hc with rfl | hc
    · rfl
    · exact hsame c hc
  have hlen := length_le_of_nodup hnodup hlt
  have hmem : t.attr c₀ ∈ t.arr := by
    have h₀ := hlt c₀ (by simp)
    simp [ChannelTable.attr, List.getD, List.getElem?_eq_getElem h₀]
  have hfit := t.blocksize_lt _ hmem
  have hsum : (c₀ :: cs).length * (t.attr c₀).blocksize < 2 ^ 64 :=
    Nat.lt_of_le_of_lt (Nat.mul_le_mul_right _ hlen) hfit
  refine ⟨by simp [ChannelGroup.num], hoff, ?_, (hpow c₀ (by simp)).1, ?_, hsum⟩
  · exact List.eq_replicate_iff.mpr ⟨by simp [ChannelGroup.num], by
      intro x hx
      obtain ⟨c, hc, rfl⟩ := List.mem_map.mp hx
      exact hb c hc⟩
  · simpa [ChannelGroup.num] using foldl_blocksize (c₀ :: cs) hb 0 (by simpa using hsum)

/-- What `unr_init` guarantees of both groups. -/
structure UnrChannels.Accepted (ch : UnrChannels) (b_inter b_intra : Nat) : Prop where
  inter : ch.inter.Accepted b_inter
  intra : ch.intra.Accepted b_intra
  /-- The two groups together are few enough to be counted in a `uint8_t`. -/
  num_lt : ch.inter.num + ch.intra.num < 256

theorem unrInit_accepted {t : ChannelTable} {inter_channels intra_channels : List Nat}
    {ch : UnrChannels} (h : unrInit t inter_channels intra_channels = .ok ch) :
    ∃ b_inter b_intra, ch.Accepted b_inter b_intra := by
  simp only [unrInit, bind_eq_ok, uruAssert_eq_ok, pure_eq_ok] at h
  obtain ⟨-, hlt, -, hne, -, hlt', -, hne', -, hnodup, -, hnodup',
    inter, hinter, intra, hintra, rfl⟩ := h
  obtain ⟨hch, b, hb⟩ := checkGroup_accepted hinter hlt hne hnodup (by simp)
  obtain ⟨hch', b', hb'⟩ := checkGroup_accepted hintra hlt' hne' hnodup' (by simp)
  have h₁ := length_le_of_nodup hnodup hlt
  have h₂ := length_le_of_nodup hnodup' hlt'
  refine ⟨b, b', hb, hb', ?_⟩
  simp only [ChannelGroup.num, hch, hch', uriMaxChannelNum] at h₁ h₂ ⊢
  omega

end Unr.Core
