import Unr.Core.Channels
import Unr.Logic.Shares

/-!
How `unr_init` opens the channels and lays out their handles behind the
descriptor of a region.

The two lists may overlap. A channel in both is opened for the first list, and
the second one only repeats its offset. What the two passes amount to is one
pass over `avail_channels`: its members are opened one after the other, and
each gets the range behind those opened before it.
-/

namespace Unr.Core

open Unr.Uru Unr.Logic

/-- `uri_channel_t`, as far as `unr_init` changes it. -/
structure UriChannelT where
  channel_id : Nat
  opened : Bool
  mem_h_offset : Nat
  /-- Ghost: how often `channel_open` of the module has been called. -/
  opens : Nat
  deriving Repr, DecidableEq

def uriChannelOpen (chs : Nat → UriChannelT) (c mem_h_offset : Nat) : Nat → UriChannelT :=
  if (chs c).opened then chs
  else Function.update chs c
    { chs c with opened := true, mem_h_offset := mem_h_offset, opens := (chs c).opens + 1 }

def uriMemHSize (t : ChannelTable) (chs : Nat → UriChannelT) (c : Nat) : Prog Nat := do
  uruAssert ((chs c).opened = true)
  return (t.attr c).mem_h_size

def setChannelIds (chs : Nat → UriChannelT) (avail_channels : List Nat) : Nat → UriChannelT :=
  avail_channels.zipIdx.foldl
    (fun chs x => Function.update chs x.1 { chs x.1 with channel_id := x.2 }) chs

/-- What the layout pass keeps up to date. -/
structure Opening where
  chs : Nat → UriChannelT
  unr_mem_t_size : Nat

/-- The layout pass over one list, with the channels it opens. -/
def openPass (t : ChannelTable) (inter_uri_mem_h_offset : List Nat) :
    List (Nat × Option Nat) → Opening → Prog (List Nat × Opening)
  | [], s => .ok ([], s)
  | (_, some j) :: rest, s => do
      let (offsets, s') ← openPass t inter_uri_mem_h_offset rest s
      return (inter_uri_mem_h_offset.getD j 0 :: offsets, s')
  | (c, none) :: rest, s => do
      let chs := uriChannelOpen s.chs c s.unr_mem_t_size
      let tmp ← uriMemHSize t chs c
      let (offsets, s') ←
        openPass t inter_uri_mem_h_offset rest ⟨chs, wrap64 (s.unr_mem_t_size + tmp)⟩
      return (s.unr_mem_t_size :: offsets, s')

/-- `unr_init` after the environment variables have been read, with the state
of the channels. -/
def unrInitOpen (t : ChannelTable) (chs : Nat → UriChannelT)
    (inter_channels intra_channels : List Nat) : Prog (UnrChannels × (Nat → UriChannelT)) := do
  uruAssert (∀ c ∈ inter_channels, c < t.arr.length)
  uruAssert (inter_channels ≠ [])
  uruAssert (∀ c ∈ intra_channels, c < t.arr.length)
  uruAssert (intra_channels ≠ [])
  uruAssert inter_channels.Nodup
  uruAssert intra_channels.Nodup
  let reuse := intra_channels.map fun c => inter_channels.findIdx? (· == c)
  let avail_channels := inter_channels ++
    intra_channels.filter fun c => (inter_channels.findIdx? (· == c)).isNone
  let chs := setChannelIds chs avail_channels
  let (inter_offset, s) ←
    openPass t [] (inter_channels.map fun c => (c, none)) ⟨chs, sizeofUnrMem⟩
  let (intra_offset, s) ← openPass t inter_offset (intra_channels.zip reuse) s
  let inter ← checkGroup t inter_channels inter_offset
  let intra ← checkGroup t intra_channels intra_offset
  return ({
    avail_channels := avail_channels
    inter := inter
    intra := intra
    intra_channel_reuse := reuse
    unr_mem_t_size := s.unr_mem_t_size
    loc_mem_arr := []
    rmt_mem_arr := [] }, s.chs)

def registered : Nat → UriChannelT := fun _ => ⟨0, false, 0, 0⟩

/-- A channel table whose modules report handle sizes of a few words: all
handles together with the descriptor fit in a `size_t`. -/
structure HandleTable extends ChannelTable where
  mem_h_size_lt : sizeofUnrMem + (arr.map UriChannel.mem_h_size).sum < 2 ^ 64

/-! ### Setting the ids -/

section Ids

variable {chs : Nat → UriChannelT} {avail : List Nat}

theorem setChannelIds_concat (chs : Nat → UriChannelT) (avail : List Nat) (c : Nat) :
    setChannelIds chs (avail ++ [c]) = Function.update (setChannelIds chs avail) c
      { setChannelIds chs avail c with channel_id := avail.length } := by
  simp [setChannelIds, List.zipIdx_append, List.foldl_append]

theorem setChannelIds_frame (chs : Nat → UriChannelT) (avail : List Nat) (c : Nat) : ∃ channel_id,
    setChannelIds chs avail c = { chs c with channel_id := channel_id } := by
  induction avail using List.reverseRecOn with
  | nil => exact ⟨(chs c).channel_id, rfl⟩
  | append_singleton avail c' ih =>
      obtain ⟨channel_id, hid⟩ := ih
      rw [setChannelIds_concat]
      by_cases hc : c = c'
      · subst hc
        exact ⟨avail.length, by rw [Function.update_self, hid]⟩
      · exact ⟨channel_id, by rw [Function.update_of_ne hc, hid]⟩

theorem setChannelIds_of_notMem {c : Nat} (hc : c ∉ avail) : setChannelIds chs avail c = chs c := by
  induction avail using List.reverseRecOn with
  | nil => rfl
  | append_singleton avail c' ih =>
      rw [List.mem_append, List.mem_singleton, not_or] at hc
      rw [setChannelIds_concat, Function.update_of_ne hc.2, ih hc.1]

theorem setChannelIds_id (hnodup : avail.Nodup) {i : Nat} (hi : i < avail.length) :
    (setChannelIds chs avail avail[i]).channel_id = i := by
  induction avail using List.reverseRecOn with
  | nil => exact absurd hi (Nat.not_lt_zero _)
  | append_singleton avail c ih =>
      rw [setChannelIds_concat]
      obtain ⟨hnodup', -, hdisjoint⟩ := List.nodup_append.mp hnodup
      by_cases hlast : i < avail.length
      · have hne : avail[i] ≠ c := hdisjoint _ (List.getElem_mem hlast) c (by simp)
        rw [List.getElem_append_left hlast, Function.update_of_ne hne]
        exact ih hnodup' hlast
      · have heq : i = avail.length := by
          rw [List.length_append, List.length_singleton] at hi
          omega
        subst heq
        simp

end Ids

/-! ### One pass -/

def handleSizes (t : ChannelTable) (cs : List Nat) : List Nat :=
  cs.map fun c => (t.attr c).mem_h_size

/-- The channels of `opened` have been opened in this order, each behind the
handles of those before it, and all others are as they were in `chs`. -/
structure Opening.Of (t : ChannelTable) (chs : Nat → UriChannelT) (opened : List Nat)
    (s : Opening) : Prop where
  size : s.unr_mem_t_size = sizeofUnrMem + (handleSizes t opened).sum
  channel : ∀ (i : Nat) (hi : i < opened.length), s.chs opened[i] =
    { chs opened[i] with
      opened := true
      mem_h_offset := sizeofUnrMem + displacement (handleSizes t opened) i
      opens := (chs opened[i]).opens + 1 }
  other : ∀ c ∉ opened, s.chs c = chs c

section Pass

variable {t : ChannelTable} {chs : Nat → UriChannelT} {opened : List Nat} {s : Opening} {c : Nat}

@[simp] theorem length_handleSizes (cs : List Nat) : (handleSizes t cs).length = cs.length :=
  List.length_map ..

@[simp] theorem handleSizes_append (cs cs' : List Nat) :
    handleSizes t (cs ++ cs') = handleSizes t cs ++ handleSizes t cs' := List.map_append

@[simp] theorem handleSizes_singleton : handleSizes t [c] = [(t.attr c).mem_h_size] := rfl

theorem Opening.Of.open (h : s.Of t chs opened) (hfresh : c ∉ opened)
    (hclosed : (chs c).opened = false)
    (hfits : sizeofUnrMem + (handleSizes t (opened ++ [c])).sum < 2 ^ 64) :
    uriMemHSize t (uriChannelOpen s.chs c s.unr_mem_t_size) c = .ok (t.attr c).mem_h_size ∧
      Opening.Of t chs (opened ++ [c]) ⟨uriChannelOpen s.chs c s.unr_mem_t_size,
        wrap64 (s.unr_mem_t_size + (t.attr c).mem_h_size)⟩ := by
  have hsum : (handleSizes t (opened ++ [c])).sum =
      (handleSizes t opened).sum + (t.attr c).mem_h_size := by simp
  have hopen : uriChannelOpen s.chs c s.unr_mem_t_size = Function.update s.chs c
      { chs c with
        opened := true
        mem_h_offset := s.unr_mem_t_size
        opens := (chs c).opens + 1 } := by
    rw [uriChannelOpen, h.other c hfresh, hclosed]
    rfl
  rw [hopen]
  refine ⟨?_, ?_, ?_, ?_⟩
  · simp [uriMemHSize, uruAssert]
  · rw [hsum, ← Nat.add_assoc, ← h.size] at hfits
    rw [wrap64_of_lt hfits, h.size, hsum, Nat.add_assoc]
  · intro i hi
    rw [List.length_append, List.length_singleton] at hi
    by_cases hlast : i < opened.length
    · have hne : opened[i] ≠ c := fun heq => hfresh (heq ▸ List.getElem_mem hlast)
      simp only [List.getElem_append_left hlast, Function.update_of_ne hne, h.channel i hlast]
      rw [handleSizes_append, displacement_append_left (by simpa using hlast.le)]
    · have heq : i = opened.length := by omega
      subst heq
      have hdisp : displacement (handleSizes t (opened ++ [c])) opened.length =
          (handleSizes t opened).sum := by
        rw [handleSizes_append, ← length_handleSizes (t := t) opened, displacement_append_length]
      simp only [hdisp, List.getElem_concat_length, Function.update_self, h.size]
  · intro c' hc'
    rw [List.mem_append, List.mem_singleton, not_or] at hc'
    simp only [Function.update_of_ne hc'.2, h.other c' hc'.1]

def opensOf (cs : List (Nat × Option Nat)) : List Nat :=
  cs.filterMap fun x => if x.2 = none then some x.1 else none

/-- The offset of an entry of a list: that of its channel, or that of the
inter-node channel it repeats. -/
def offsetOf (inter_offset : List Nat) (chs : Nat → UriChannelT) (x : Nat × Option Nat) : Nat :=
  match x.2 with
  | some j => inter_offset.getD j 0
  | none => (chs x.1).mem_h_offset

theorem openPass_ok (inter_offset : List Nat) (cs : List (Nat × Option Nat))
    (h : s.Of t chs opened) (hnodup : (opened ++ opensOf cs).Nodup)
    (hclosed : ∀ c ∈ opensOf cs, (chs c).opened = false)
    (hfits : sizeofUnrMem + (handleSizes t (opened ++ opensOf cs)).sum < 2 ^ 64) :
    ∃ s' : Opening, openPass t inter_offset cs s =
        .ok (cs.map (offsetOf inter_offset s'.chs), s') ∧
      s'.Of t chs (opened ++ opensOf cs) ∧
      layoutOffsets t inter_offset cs s.unr_mem_t_size =
        (cs.map (offsetOf inter_offset s'.chs), s'.unr_mem_t_size) := by
  induction cs generalizing opened s with
  | nil => exact ⟨s, rfl, by simpa [opensOf] using h, rfl⟩
  | cons x rest ih =>
      -- a channel without a place in the first list is opened, any other one takes its offset over
      obtain ⟨c, _ | j⟩ := x
      · have hopens : opened ++ opensOf ((c, none) :: rest) = (opened ++ [c]) ++ opensOf rest := by
          simp [opensOf]
        rw [hopens] at hnodup hfits
        have hfresh : c ∉ opened := by
          have hnodup' := (List.nodup_append.mp hnodup).1
          exact fun hc => (List.nodup_append.mp hnodup').2.2 c hc c (by simp) rfl
        have hpart : sizeofUnrMem + (handleSizes t (opened ++ [c])).sum < 2 ^ 64 := by
          rw [handleSizes_append, List.sum_append] at hfits
          exact Nat.lt_of_le_of_lt (Nat.add_le_add_left (Nat.le_add_right _ _) _) hfits
        obtain ⟨hsize, hopen⟩ := h.open hfresh (hclosed c (by simp [opensOf])) hpart
        obtain ⟨s', hrun, hs', hlayout⟩ := ih hopen hnodup
          (fun c' hc' => hclosed c' (List.mem_filterMap.mpr
            (by
              obtain ⟨x, hx, heq⟩ := List.mem_filterMap.mp hc'
              exact ⟨x, List.mem_cons_of_mem _ hx, heq⟩))) hfits
        have hlt : opened.length < (opened ++ [c] ++ opensOf rest).length := by simp
        have hchannel := hs'.channel opened.length hlt
        have hat : (opened ++ [c] ++ opensOf rest)[opened.length] = c := by simp
        have hdisp : displacement (handleSizes t (opened ++ [c] ++ opensOf rest)) opened.length =
            (handleSizes t opened).sum := by
          rw [List.append_assoc, handleSizes_append, ← length_handleSizes (t := t) opened,
            displacement_append_length]
        rw [hat, hdisp, ← h.size] at hchannel
        have hoffset : offsetOf inter_offset s'.chs (c, none) = s.unr_mem_t_size := by
          rw [offsetOf, hchannel]
        -- all handles fit, so this sum does not wrap
        have hwrap : wrap64 (s.unr_mem_t_size + (t.attr c).mem_h_size) =
            s.unr_mem_t_size + (t.attr c).mem_h_size := by
          have hadd := hopen.size
          rw [handleSizes_append, List.sum_append, ← Nat.add_assoc, ← h.size] at hadd
          simpa using hadd
        rw [hwrap] at hlayout
        refine ⟨s', ?_, hopens ▸ hs', ?_⟩
        · simp only [openPass, hsize, ok_bind, hrun]
          rw [List.map_cons, hoffset]
          rfl
        · simp only [layoutOffsets, hlayout, List.map_cons, hoffset]
      · have hopens : opensOf ((c, some j) :: rest) = opensOf rest := by simp [opensOf]
        rw [hopens] at hnodup hclosed hfits
        obtain ⟨s', hrun, hs', hlayout⟩ := ih h hnodup hclosed hfits
        refine ⟨s', ?_, hopens ▸ hs', ?_⟩
        · simp only [openPass, hrun, ok_bind]
          rfl
        · simp only [layoutOffsets, hlayout, List.map_cons]
          rfl

end Pass

/-! ### Both passes -/

section Init

variable {t : HandleTable} {inter_channels intra_channels : List Nat}

/-- The channels of the second list that are not in the first. -/
def newChannels (inter_channels intra_channels : List Nat) : List Nat :=
  intra_channels.filter fun c => (inter_channels.findIdx? (· == c)).isNone

theorem mem_newChannels {c : Nat} :
    c ∈ newChannels inter_channels intra_channels ↔ c ∈ intra_channels ∧ c ∉ inter_channels := by
  rw [newChannels, List.mem_filter, Option.isNone_iff_eq_none, List.findIdx?_eq_none_iff]
  simp only [beq_eq_false_iff_ne, ne_eq]
  exact and_congr_right fun _ => ⟨fun h hc => h c hc rfl, fun h x hx heq => h (heq ▸ hx)⟩

theorem nodup_avail (hinter : inter_channels.Nodup) (hintra : intra_channels.Nodup) :
    (inter_channels ++ newChannels inter_channels intra_channels).Nodup := by
  refine List.nodup_append.mpr ⟨hinter, hintra.filter _, ?_⟩
  rintro c hc _ hc' rfl
  exact (mem_newChannels.mp hc').2 hc

theorem opensOf_inter : opensOf (inter_channels.map fun c => (c, none)) = inter_channels := by
  simp [opensOf, List.filterMap_map]

theorem opensOf_intra : opensOf (intra_channels.zip
    (intra_channels.map fun c => inter_channels.findIdx? (· == c))) =
      newChannels inter_channels intra_channels := by
  induction intra_channels with
  | nil => rfl
  | cons c cs ih =>
      rw [newChannels] at ih ⊢
      rw [List.map_cons, List.zip_cons_cons, List.filter_cons, ← ih]
      cases inter_channels.findIdx? (· == c) <;> simp [opensOf]

theorem HandleTable.sum_lt (t : HandleTable) {cs : List Nat} (hnodup : cs.Nodup)
    (hlt : ∀ c ∈ cs, c < t.arr.length) :
    sizeofUnrMem + (handleSizes t.toChannelTable cs).sum < 2 ^ 64 := by
  have hsub : cs ⊆ List.range t.arr.length := fun c hc => List.mem_range.mpr (hlt c hc)
  obtain ⟨l, hperm, hsublist⟩ := List.Nodup.subperm hnodup hsub
  have hall : handleSizes t.toChannelTable (List.range t.arr.length) =
      t.arr.map UriChannel.mem_h_size := by
    apply List.ext_getElem
    · simp
    · intro i hi hi'
      have hi'' : i < t.arr.length := by simpa using hi'
      simp [handleSizes, ChannelTable.attr, List.getD, hi'']
  have hle : (handleSizes t.toChannelTable cs).sum ≤ (t.arr.map UriChannel.mem_h_size).sum := by
    rw [← hall, handleSizes, ← (hperm.map _).sum_eq]
    exact (hsublist.map _).sum_le_sum fun _ _ => Nat.zero_le _
  exact Nat.lt_of_le_of_lt (Nat.add_le_add_left hle _) t.mem_h_size_lt

theorem checkGroup_lists {t : ChannelTable} {channels offsets : List Nat} {g : ChannelGroup}
    (hg : checkGroup t channels offsets = .ok g) :
    g.channels = channels ∧ g.uri_mem_h_offset = offsets := by
  simp only [checkGroup, bind_eq_ok, uruAssert_eq_ok, pure_eq_ok] at hg
  obtain ⟨-, -, -, -, -, -, rfl⟩ := hg
  exact ⟨rfl, rfl⟩

/-- What `unr_init` has done to the channels when it returns. -/
structure ChannelsReady (t : ChannelTable) (ch : UnrChannels) (chs : Nat → UriChannelT) : Prop where
  /-- Every selected channel is available, once. -/
  nodup : ch.avail_channels.Nodup
  mem : ∀ c, c ∈ ch.avail_channels ↔ c ∈ ch.inter.channels ∨ c ∈ ch.intra.channels
  /-- The channels of the second list that are not in the first come after it. -/
  avail : ch.avail_channels =
    ch.inter.channels ++ newChannels ch.inter.channels ch.intra.channels
  reuse : ch.intra_channel_reuse =
    ch.intra.channels.map fun c => ch.inter.channels.findIdx? (· == c)
  /-- The id of a channel is its position. -/
  id : ∀ (i : Nat) (hi : i < ch.avail_channels.length), (chs ch.avail_channels[i]).channel_id = i
  /-- It has been opened once, and no other channel has. -/
  opened : ∀ c ∈ ch.avail_channels, (chs c).opened = true ∧ (chs c).opens = 1
  other : ∀ c ∉ ch.avail_channels, chs c = registered c
  /-- The handles lie behind the descriptor, within the size that is allocated,
  and apart from each other. -/
  inside : ∀ c ∈ ch.avail_channels, sizeofUnrMem ≤ (chs c).mem_h_offset ∧
    (chs c).mem_h_offset + (t.attr c).mem_h_size ≤ ch.unr_mem_t_size
  apart : ∀ c ∈ ch.avail_channels, ∀ c' ∈ ch.avail_channels, c ≠ c' →
    (chs c).mem_h_offset + (t.attr c).mem_h_size ≤ (chs c').mem_h_offset ∨
      (chs c').mem_h_offset + (t.attr c').mem_h_size ≤ (chs c).mem_h_offset
  /-- Both lists hold the offsets that the channels were opened with. -/
  inter_offset : ch.inter.uri_mem_h_offset =
    ch.inter.channels.map fun c => (chs c).mem_h_offset
  intra_offset : ch.intra.uri_mem_h_offset =
    ch.intra.channels.map fun c => (chs c).mem_h_offset
  size_le : sizeofUnrMem ≤ ch.unr_mem_t_size
  size_lt : ch.unr_mem_t_size < 2 ^ 64

theorem Opening.Of.apart {t : ChannelTable} {chs : Nat → UriChannelT} {opened : List Nat}
    {s : Opening} (h : s.Of t chs opened) {i j : Nat} (hi : i < opened.length)
    (hj : j < opened.length) (hij : i < j) :
    (s.chs opened[i]).mem_h_offset + (t.attr opened[i]).mem_h_size ≤
      (s.chs opened[j]).mem_h_offset := by
  have hi' : i < (handleSizes t opened).length := by simpa using hi
  have hmono := displacement_mono (handleSizes t opened) (Nat.succ_le_of_lt hij)
  rw [Nat.succ_eq_add_one, displacement_succ hi'] at hmono
  rw [h.channel i hi, h.channel j hj]
  simp only [handleSizes, List.getElem_map] at hmono ⊢
  omega

theorem Opening.Of.inside {t : ChannelTable} {chs : Nat → UriChannelT} {opened : List Nat}
    {s : Opening} (h : s.Of t chs opened) {i : Nat} (hi : i < opened.length) :
    sizeofUnrMem ≤ (s.chs opened[i]).mem_h_offset ∧
      (s.chs opened[i]).mem_h_offset + (t.attr opened[i]).mem_h_size ≤ s.unr_mem_t_size := by
  have hi' : i < (handleSizes t opened).length := by simpa using hi
  have hsum := displacement_add_le_sum hi'
  rw [h.channel i hi, h.size]
  simp only [handleSizes, List.getElem_map] at hsum ⊢
  omega

/-- The channels whose ids have been set are opened in the same order. -/
theorem Opening.Of.ids {t : ChannelTable} {avail : List Nat} {s : Opening}
    (h : s.Of t (setChannelIds registered avail) avail) (hnodup : avail.Nodup) {i : Nat}
    (hi : i < avail.length) : (s.chs avail[i]).channel_id = i ∧ (s.chs avail[i]).opened = true ∧
      (s.chs avail[i]).opens = 1 := by
  obtain ⟨channel_id, hid⟩ := setChannelIds_frame registered avail avail[i]
  rw [h.channel i hi]
  refine ⟨setChannelIds_id hnodup hi, rfl, ?_⟩
  rw [hid]
  rfl

theorem Opening.Of.chs_eq {t : ChannelTable} {chs : Nat → UriChannelT} {opened more : List Nat}
    {s s' : Opening} (h : s.Of t chs opened) (h' : s'.Of t chs (opened ++ more)) {c : Nat}
    (hc : c ∈ opened) : s'.chs c = s.chs c := by
  obtain ⟨i, hi, rfl⟩ := List.mem_iff_getElem.mp hc
  have hchannel := h'.channel i (by rw [List.length_append]; omega)
  rw [List.getElem_append_left hi] at hchannel
  rw [hchannel, h.channel i hi, handleSizes_append,
    displacement_append_left (by simpa using hi.le)]

theorem offsetOf_inter (chs : Nat → UriChannelT) :
    (inter_channels.map fun c => (c, none)).map (offsetOf [] chs) =
      inter_channels.map fun c => (chs c).mem_h_offset := by
  simp [offsetOf]

/-- The offsets of the second list, if the first one holds those of its
channels. -/
theorem offsetOf_intra (chs : Nat → UriChannelT) :
    (intra_channels.zip (intra_channels.map fun c => inter_channels.findIdx? (· == c))).map
        (offsetOf (inter_channels.map fun c => (chs c).mem_h_offset) chs) =
      intra_channels.map fun c => (chs c).mem_h_offset := by
  induction intra_channels with
  | nil => rfl
  | cons c cs ih =>
      rw [List.map_cons, List.zip_cons_cons, List.map_cons, ih, List.map_cons]
      congr 1
      cases hreuse : inter_channels.findIdx? (· == c) with
      | none => rfl
      | some k =>
          obtain ⟨hk, hat, -⟩ := List.findIdx?_eq_some_iff_getElem.mp hreuse
          simp [offsetOf, List.getD, hk, beq_iff_eq.mp hat]

/-- In `unr_init` every channel that is used is opened once, and every list holds
the offset that its channel was opened with. -/
theorem unrInitOpen_ready {ch : UnrChannels} {chs : Nat → UriChannelT}
    (h : unrInitOpen t.toChannelTable registered inter_channels intra_channels = .ok (ch, chs)) :
    ChannelsReady t.toChannelTable ch chs ∧
      ch.inter.channels = inter_channels ∧ ch.intra.channels = intra_channels ∧
      unrInit t.toChannelTable inter_channels intra_channels = .ok ch := by
  simp only [unrInitOpen, bind_eq_ok, uruAssert_eq_ok, pure_eq_ok, Prod.exists, Prod.mk.injEq] at h
  obtain ⟨-, hlt, -, hne, -, hlt', -, hne', -, hnodup, -, hnodup', inter_offset, s, hs,
    intra_offset, s', hs', inter, hinter, intra, hintra, rfl, rfl⟩ := h
  have havail := nodup_avail hnodup hnodup'
  have hfits := t.sum_lt havail fun c hc => by
    rcases List.mem_append.mp hc with hc | hc
    · exact hlt c hc
    · exact hlt' c (mem_newChannels.mp hc).1
  -- setting the ids opens no channel
  have hclosed : ∀ c, (setChannelIds registered
      (inter_channels ++ newChannels inter_channels intra_channels) c).opened = false := by
    intro c
    obtain ⟨channel_id, hid⟩ := setChannelIds_frame registered _ c
    rw [hid]
    rfl
  have hstart : Opening.Of t.toChannelTable
      (setChannelIds registered (inter_channels ++ newChannels inter_channels intra_channels)) []
      ⟨setChannelIds registered (inter_channels ++ newChannels inter_channels intra_channels),
        sizeofUnrMem⟩ :=
    ⟨rfl, fun i hi => absurd hi (Nat.not_lt_zero i), fun _ _ => rfl⟩
  -- the first list
  obtain ⟨s₁, hrun₁, hof₁, hlayout₁⟩ := openPass_ok []
    (inter_channels.map fun c => (c, none)) hstart (by rwa [opensOf_inter])
    (fun c _ => hclosed c) (t.sum_lt (by rwa [opensOf_inter]) (by rwa [opensOf_inter]))
  rw [opensOf_inter, List.nil_append] at hof₁
  rw [offsetOf_inter] at hrun₁ hlayout₁
  obtain ⟨rfl, rfl⟩ := Prod.mk.inj (Except.ok.inj (hs.symm.trans hrun₁))
  -- the second list
  obtain ⟨s₂, hrun₂, hof₂, hlayout₂⟩ := openPass_ok
    (inter_channels.map fun c => (s.chs c).mem_h_offset)
    (intra_channels.zip (intra_channels.map fun c => inter_channels.findIdx? (· == c)))
    hof₁ (by rwa [opensOf_intra]) (fun c _ => hclosed c) (by rwa [opensOf_intra])
  obtain ⟨rfl, rfl⟩ := Prod.mk.inj (Except.ok.inj (hs'.symm.trans hrun₂))
  rw [opensOf_intra] at hof₂
  -- the second pass leaves the channels of the first alone
  have hsame : (inter_channels.map fun c => (s.chs c).mem_h_offset) =
      inter_channels.map fun c => (s'.chs c).mem_h_offset :=
    List.map_congr_left fun c hc => by rw [hof₁.chs_eq hof₂ hc]
  rw [hsame, offsetOf_intra] at hintra hlayout₂
  rw [hsame] at hinter hlayout₁
  obtain ⟨hch, hoff⟩ := checkGroup_lists hinter
  obtain ⟨hch', hoff'⟩ := checkGroup_lists hintra
  constructor
  · refine ⟨havail, ?_, ?_, ?_, ?_, ?_, ?_, ?_, ?_, ?_, ?_, ?_, ?_⟩
    · intro c
      rw [List.mem_append, hch, hch']
      change c ∈ inter_channels ∨ c ∈ newChannels inter_channels intra_channels ↔ _
      rw [mem_newChannels]
      tauto
    · rw [hch, hch']
      rfl
    · rw [hch, hch']
    · exact fun i hi => (hof₂.ids havail hi).1
    · intro c hc
      obtain ⟨i, hi, rfl⟩ := List.mem_iff_getElem.mp hc
      exact (hof₂.ids havail hi).2
    · exact fun c hc => (hof₂.other c hc).trans (setChannelIds_of_notMem hc)
    · intro c hc
      obtain ⟨i, hi, rfl⟩ := List.mem_iff_getElem.mp hc
      exact hof₂.inside hi
    -- of two channels, the handle of the one opened first ends before that of the other
    · intro c hc c' hc' hne
      obtain ⟨i, hi, rfl⟩ := List.mem_iff_getElem.mp hc
      obtain ⟨j, hj, rfl⟩ := List.mem_iff_getElem.mp hc'
      rcases Nat.lt_trichotomy i j with hij | rfl | hij
      · exact .inl (hof₂.apart hi hj hij)
      · exact absurd rfl hne
      · exact .inr (hof₂.apart hj hi hij)
    · rw [hoff, hch]
    · rw [hoff', hch']
    · rw [hof₂.size]
      exact Nat.le_add_right _ _
    · rw [hof₂.size]
      exact hfits
  · refine ⟨hch, hch', ?_⟩
    simp only [unrInit, hlayout₁, hlayout₂, hinter, hintra, uruAssert_bind, if_pos hlt, if_pos hne,
      if_pos hlt', if_pos hne', if_pos hnodup, if_pos hnodup', ok_bind]
    rfl

end Init

end Unr.Core
