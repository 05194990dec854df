import Unr.Core.ShareShape

/-!
The turns of the loop that hands out the remainder of a send.

The channels that get a part of the remainder follow each other from the
cursor on, so no channel gets two, and no turn adds more to a share than what
is left of the send. With the closed form of the shares this gives how far the
shares can be apart, and that none is smaller than a block unless the send is.
-/

namespace Unr.Core

open Unr.Uru Unr.Logic

def restTurns (blk : List Nat) (n : Nat) : Nat → RestState → List RestState
  | 0, _ => []
  | fuel + 1, s => if s.rest = 0 then [] else s :: restTurns blk n fuel (restStep blk n s)

/-- `div_plan_wrt_offset` after earlier sends: allocated with zeros, and filled
for each of them. -/
def offsetsAfter (len : Nat) (sends : List (Nat × List Nat)) : List Nat :=
  sends.foldl (fun offsets x => divPlanWrtOffset x.1 x.2 offsets) (List.replicate len 0)

/-! ### The channels of the turns -/

/-- Every turn of the loop begins in a state in which blocks are being handed
out, and the channels follow each other. -/
theorem Dealing.turns {n b even rest c : Nat} (hfit : even + rest < 2 ^ 64) (hb : 0 < b)
    (hlt : rest < n * b) (fuel : Nat) {t : Nat} {s : RestState} (h : Dealing n b even rest c t s) :
    ∃ k, t + k ≤ n ∧
      (restTurns (List.replicate n b) n fuel s).map RestState.next_channel_id =
        (List.range' t k).map (fun u => (c + u) % n) ∧
      ∀ s' ∈ restTurns (List.replicate n b) n fuel s, ∃ t', Dealing n b even rest c t' s' := by
  induction fuel generalizing t s with
  | zero => exact ⟨0, h.turn.le, rfl, fun _ hs' => nomatch hs'⟩
  | succ fuel ih =>
      rw [restTurns, if_neg h.more.ne']
      rcases h.step hfit hb hlt with hnext | hlast
      · obtain ⟨k, hk, hcursors, hall⟩ := ih hnext
        refine ⟨k + 1, by omega, ?_, fun s' hs' => ?_⟩
        · rw [List.map_cons, hcursors, List.range'_succ, List.map_cons, h.cursor]
        · rcases List.mem_cons.mp hs' with rfl | hs'
          · exact ⟨t, h⟩
          · exact hall s' hs'
      · have hend :
            restTurns (List.replicate n b) n fuel (restStep (List.replicate n b) n s) = [] := by
          cases fuel with
          | zero => rfl
          | succ fuel => rw [restTurns, if_pos hlast.1]
        refine ⟨1, h.turn, ?_, fun s' hs' => ?_⟩
        · rw [hend, List.map_singleton, h.cursor]
          rfl
        · rw [hend, List.mem_singleton] at hs'
          exact ⟨t, hs' ▸ h⟩

theorem restTurns_start {g : ChannelGroup} {b size cursor : Nat} {scratch : List Nat}
    (hg : g.Accepted b) (hsize : size < 2 ^ 64) (hcursor : cursor < g.num)
    (hroom : g.num ≤ scratch.length) :
    ∃ k, 0 + k ≤ g.num ∧
      (restTurns (List.replicate g.num b) g.num (size % g.channel_blk_size_sum)
        (restStart g size cursor scratch)).map RestState.next_channel_id =
        (List.range' 0 k).map (fun u => (cursor + u) % g.num) ∧
      ∀ s ∈ restTurns (List.replicate g.num b) g.num (size % g.channel_blk_size_sum)
        (restStart g size cursor scratch), ∃ t, Dealing g.num b (size / (g.num * b) * b)
          (size % g.channel_blk_size_sum) cursor t s := by
  by_cases hzero : size % g.channel_blk_size_sum = 0
  · rw [hzero]
    exact ⟨0, Nat.zero_le _, rfl, fun _ hs => nomatch hs⟩
  · exact (dealing_start hg hsize hcursor hroom hzero).turns
      (Nat.lt_of_le_of_lt (even_add_rest_le hg size) hsize) hg.blk_pos (rest_lt hg size) _

theorem nodup_behind {n c t k : Nat} (h : t + k ≤ n) :
    ((List.range' t k).map fun u => (c + u) % n).Nodup := by
  refine List.Nodup.map_on ?_ (List.nodup_range' (s := t) (n := k))
  intro u hu v hv heq
  rw [List.mem_range'_1] at hu hv
  by_contra hne
  exact behind_ne (c := c) (by omega : v < n) (by omega : u < n) hne heq

/-! ### The size of the shares -/

section Shares

variable {n b size : Nat}

/-- A share that is not empty has a block, or all of the send. -/
theorem min_le_shareBehind {t : Nat} (hne : shareBehind n b size t ≠ 0) :
    min size b ≤ shareBehind n b size t := by
  rw [shareBehind] at hne ⊢
  by_cases heven : size / (n * b) = 0
  · -- the remainder is the whole send
    have hrest : size % (n * b) = size := by
      have hdiv := Nat.div_add_mod size (n * b)
      rwa [heven, Nat.mul_zero, Nat.zero_add] at hdiv
    rw [heven, Nat.zero_mul, Nat.zero_add, hrest] at hne ⊢
    unfold restShare at hne ⊢
    split_ifs at hne ⊢ with hmore hlast
    · exact Nat.min_le_right _ _
    · have hblocks := Nat.div_mul_le_self size b
      by_cases hzero : size / b = 0
      · rw [hlast, hzero, Nat.zero_sub, Nat.zero_mul, Nat.sub_zero]
        exact Nat.min_le_left _ _
      · obtain ⟨k, hk⟩ := Nat.exists_eq_succ_of_ne_zero hzero
        rw [hk, Nat.succ_eq_add_one, Nat.add_sub_cancel] at hlast
        rw [hk, ← hlast, Nat.succ_eq_add_one, Nat.add_mul] at hblocks
        omega
    · exact absurd rfl hne
  · have hblock : 1 * b ≤ size / (n * b) * b :=
      Nat.mul_le_mul_right b (Nat.one_le_iff_ne_zero.mpr heven)
    omega

theorem restShare_lt (hb : 0 < b) (rest t : Nat) : restShare b rest t < 2 * b := by
  refine Nat.lt_of_le_of_lt (restShare_le b rest t) ?_
  have hlt : rest < b * (rest / b) + b := Nat.lt_mul_div_succ rest hb
  rw [Nat.mul_comm] at hlt
  by_cases hzero : rest / b = 0
  · rw [hzero] at hlt ⊢
    omega
  · obtain ⟨k, hk⟩ := Nat.exists_eq_succ_of_ne_zero hzero
    rw [hk, Nat.succ_eq_add_one, Nat.add_mul] at hlt
    rw [hk, Nat.succ_eq_add_one, Nat.add_sub_cancel]
    omega

end Shares

/-! ### The offsets -/

theorem divPlanWrtOffset_frame (n : Nat) (div offsets : List Nat) :
    (divPlanWrtOffset n div offsets).length = offsets.length ∧
      (divPlanWrtOffset n div offsets).getD 0 0 = offsets.getD 0 0 := by
  rw [divPlanWrtOffset]
  induction n - 1 with
  | zero => exact ⟨rfl, rfl⟩
  | succ m ih =>
      rw [List.range_succ, List.foldl_append, List.foldl_cons, List.foldl_nil]
      refine ⟨by rw [List.length_set, ih.1], ?_⟩
      rw [← ih.2]
      simp [List.getD]

theorem offsetsAfter_zero (len : Nat) (sends : List (Nat × List Nat)) :
    (offsetsAfter len sends).length = len ∧ (offsetsAfter len sends).getD 0 0 = 0 := by
  induction sends using List.reverseRecOn with
  | nil =>
      refine ⟨List.length_replicate, ?_⟩
      cases len <;> simp [offsetsAfter, List.getD]
  | append_singleton sends x ih =>
      obtain ⟨hlen, hzero⟩ := divPlanWrtOffset_frame x.1 x.2 (offsetsAfter len sends)
      rw [offsetsAfter, List.foldl_concat]
      exact ⟨hlen.trans ih.1, hzero.trans ih.2⟩

/-! ### The division of a send -/

/-- The shares `div` of a send and the cursor behind it, on arrays of any
contents. -/
structure SendSplit (g : ChannelGroup) (b size next_channel_id : Nat) (scratch div : List Nat)
    (next_channel_id' : Nat) : Prop where
  sum : (div.take g.num).sum = size
  /-- No sum of shares overflows, nor does the even share. -/
  partial_sum : ∀ j, displacement (div.take g.num) j ≤ size
  even : size / g.channel_blk_size_sum * b ≤ size
  /-- The turns of the loop are for different channels. -/
  turns_nodup : ((restTurns g.channel_blk_size g.num (size % g.channel_blk_size_sum)
    (restStart g size next_channel_id scratch)).map RestState.next_channel_id).Nodup
  /-- None overflows, because no turn adds more to the share of its channel than
  what is left. -/
  turn : ∀ s ∈ restTurns g.channel_blk_size g.num (size % g.channel_blk_size_sum)
    (restStart g size next_channel_id scratch),
      s.next_channel_id < g.num ∧ s.div_plan_wrt_size.getD s.next_channel_id 0 + s.rest ≤ size
  cursor : next_channel_id' < g.num
  /-- A message is not cut into pieces smaller than a block. -/
  least : ∀ j < g.num, div.getD j 0 ≠ 0 → min size b ≤ div.getD j 0
  spread : ∀ i < g.num, ∀ j < g.num, div.getD i 0 < div.getD j 0 + 2 * b
  /-- The shares are consecutive, whatever sends came before. -/
  offsets : ∀ len sends, g.num ≤ len →
    let div_plan_wrt_offset := divPlanWrtOffset g.num div (offsetsAfter len sends)
    div_plan_wrt_offset.getD 0 0 = 0 ∧
      (∀ j, j + 1 < g.num → div_plan_wrt_offset.getD (j + 1) 0 =
        div_plan_wrt_offset.getD j 0 + div.getD j 0) ∧
      div_plan_wrt_offset.getD (g.num - 1) 0 + div.getD (g.num - 1) 0 = size

/-- The division of a send of any size, over any number of channels with one
block size, from any channel on. -/
theorem send_split {g : ChannelGroup} {b size next_channel_id : Nat} {scratch : List Nat}
    (hg : g.Accepted b) (hsize : size < 2 ^ 64) (hcursor : next_channel_id < g.num)
    (hroom : g.num ≤ scratch.length) :
    ∃ div next_channel_id', divPlanWrtSize g size next_channel_id scratch =
        .ok (div, next_channel_id') ∧
      SendSplit g b size next_channel_id scratch div next_channel_id' := by
  obtain ⟨div, next_channel_id', hrun, hsplit, hcursor'⟩ :=
    divPlanWrtSize_spec hg hsize hcursor hroom
  have hshares := divPlanWrtSize_shares hg hsize hcursor hrun
  refine ⟨div, next_channel_id', hrun, ?_⟩
  constructor
  case sum => exact hsplit.sum
  case partial_sum => exact fun j => hsplit.sum ▸ displacement_le_sum _ j
  case even =>
    rw [hg.blk_size_sum]
    exact Nat.le_trans (Nat.le_add_right _ _) (even_add_rest_le hg size)
  case turns_nodup =>
    rw [hg.blk_size]
    obtain ⟨k, hk, hcursors, -⟩ := restTurns_start hg hsize hcursor hroom
    rw [hcursors]
    exact nodup_behind hk
  -- no turn comes back to a channel: before its turn it has the even share only
  case turn =>
    intro s hs
    rw [hg.blk_size] at hs
    obtain ⟨-, -, -, hall⟩ := restTurns_start hg hsize hcursor hroom
    obtain ⟨t, ht⟩ := hall s hs
    have hshare := ht.dealt t ht.turn
    have hleft := ht.left
    have hle := even_add_rest_le hg size
    rw [← ht.cursor, if_neg (Nat.lt_irrefl t), Nat.add_zero] at hshare
    exact ⟨ht.cursor_lt, by omega⟩
  case cursor => exact hcursor'
  -- every channel is some number of places behind the cursor
  case least =>
    intro j hj hne
    obtain ⟨t, ht, rfl⟩ := exists_behind hcursor hj
    rw [hshares t ht] at hne ⊢
    exact min_le_shareBehind hne
  case spread =>
    intro i hi j hj
    obtain ⟨t, ht, rfl⟩ := exists_behind hcursor hi
    obtain ⟨u, hu, rfl⟩ := exists_behind hcursor hj
    have hlt := restShare_lt hg.blk_pos (size % (g.num * b)) t
    rw [hshares t ht, hshares u hu, shareBehind, shareBehind]
    omega
  case offsets =>
    intro len sends hlen
    obtain ⟨hlength, hfirst⟩ := offsetsAfter_zero len sends
    obtain ⟨-, hzero, hat⟩ := divPlanWrtOffset_spec hfirst (by rwa [hlength]) hsplit.room
      (by rwa [hsplit.sum])
    have hshare : ∀ j < g.num, displacement (div.take g.num) (j + 1) =
        displacement (div.take g.num) j + div.getD j 0 := by
      intro j hj
      have hj' : j < (div.take g.num).length := by
        rw [List.length_take, Nat.min_eq_left hsplit.room]
        exact hj
      have hj'' : j < div.length := Nat.lt_of_lt_of_le hj hsplit.room
      rw [displacement_succ hj', List.getElem_take, List.getD, List.getElem?_eq_getElem hj'',
        Option.getD_some]
    refine ⟨hzero, fun j hj => by rw [hat _ hj, hat j (by omega), hshare j (by omega)], ?_⟩
    have hnum := hg.num_pos
    have hlast := hshare (g.num - 1) (by omega)
    have htotal := displacement_length (div.take g.num)
    rw [List.length_take, Nat.min_eq_left hsplit.room, hsplit.sum] at htotal
    rw [hat _ (by omega), ← hlast, Nat.sub_add_cancel hnum, htotal]

def threeBlocks : ChannelGroup where
  channels := [0, 1, 2]
  uri_mem_h_offset := [24, 24, 24]
  channel_blk_size := [4, 4, 4]
  channel_blk_size_sum := 12

/-- Nine bytes from the last channel on: the tail of one byte is merged into the
second piece, behind the wrap of the cursor. -/
theorem send_split_wrap :
    divPlanWrtSize threeBlocks 9 2 [7, 7, 7, 7] = .ok ([5, 0, 4, 7], 1) ∧
      SendSplit threeBlocks 4 9 2 [7, 7, 7, 7] [5, 0, 4, 7] 1 := by
  have haccepted : threeBlocks.Accepted 4 :=
    ⟨by decide, rfl, rfl, by decide, rfl, by decide⟩
  have hrun : divPlanWrtSize threeBlocks 9 2 [7, 7, 7, 7] = .ok ([5, 0, 4, 7], 1) := by decide
  obtain ⟨div, cursor, hrun', hsplit⟩ : ∃ div cursor,
      divPlanWrtSize threeBlocks 9 2 [7, 7, 7, 7] = .ok (div, cursor) ∧
        SendSplit threeBlocks 4 9 2 [7, 7, 7, 7] div cursor :=
    send_split haccepted (by decide) (by decide) (by decide)
  cases hrun.symm.trans hrun'
  exact ⟨hrun, hsplit⟩

end Unr.Core
