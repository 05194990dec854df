import Unr.Core.SendParts

/-!
The shares of a send in closed form.

The loop that hands out the remainder visits the channels of the group in
order, beginning at the cursor. It gives every channel it visits one block and
the last one what is left, which is less than two blocks. So the share of a
channel is given by the size of the send, the number of channels, their block
size, and how far behind the cursor the channel lies.
-/

namespace Unr.Core

open Unr.Uru Unr.Logic

/-- What the channel `t` places behind the cursor gets of a remainder `rest`:
a block if two more are to come after it, all that is left if it is the last,
and nothing if it is not reached. -/
def restShare (b rest t : Nat) : Nat :=
  if t + 2 ≤ rest / b then b
  else if t = rest / b - 1 then rest - t * b
  else 0

def shareBehind (n b size t : Nat) : Nat :=
  size / (n * b) * b + restShare b (size % (n * b)) t

/-- The largest share of a send: that of the last channel that gets a part of
the remainder. -/
def largestShare (n b size : Nat) : Nat :=
  size / (n * b) * b + (size % (n * b) - (size % (n * b) / b - 1) * b)

def ChannelGroup.blocksize (g : ChannelGroup) : Nat := g.channel_blk_size.headD 0

theorem ChannelGroup.Accepted.blocksize_eq {g : ChannelGroup} {b : Nat} (hg : g.Accepted b) :
    g.blocksize = b := by
  obtain ⟨n, hn⟩ := Nat.exists_eq_succ_of_ne_zero hg.num_pos.ne'
  rw [blocksize, hg.blk_size, hn, List.replicate_succ, List.headD_cons]

/-- The shares `share` of a send over the channels of `g`: they add up to the
send, and they are dealt beginning at some channel. -/
structure SharesOf (g : ChannelGroup) (size : Nat) (share : List Nat) : Prop where
  length : share.length = g.num
  total : share.sum = size
  dealt : ∃ c < g.num, ∀ t < g.num,
    share.getD ((c + t) % g.num) 0 = shareBehind g.num g.blocksize size t
  /-- They are the shares of a send in the sense of `Send`. -/
  send : size ≠ 0 → ∃ s : Send, s.group = g ∧ s.div_plan_wrt_size.take g.num = share

/-! ### One turn of the loop -/

theorem getD_bump {a : List Nat} {c x : Nat} (hc : c < a.length) (i : Nat) :
    (bump a c x).getD i 0 = if i = c then wrap64 (a.getD c 0 + x) else a.getD i 0 := by
  rw [bump, List.getD, List.getElem?_modify]
  by_cases hic : i = c
  · subst hic
    simp [List.getD, hc]
  · simp [List.getD, hic, Ne.symm hic]

theorem bump_bump (a : List Nat) (c x y : Nat) : bump (bump a c x) c y = bump a c (x + y) := by
  rw [bump, bump, bump, List.modify_modify_eq]
  congr 1
  funext v
  simp only [Function.comp_apply, wrap64, Nat.mod_add_mod, Nat.add_assoc]

theorem restLoop_of_rest {blk : List Nat} {n fuel : Nat} {s : RestState} (h : s.rest = 0) :
    restLoop blk n fuel s = .ok s := by
  cases fuel <;> simp [restLoop, h]

/-- Different distances from the cursor are different channels. -/
theorem behind_ne {n c t u : Nat} (ht : t < n) (hu : u < n) (hne : u ≠ t) :
    (c + u) % n ≠ (c + t) % n := by
  intro heq
  have hmod : u ≡ t [MOD n] := Nat.ModEq.add_left_cancel' c heq
  exact hne (hmod.eq_of_lt_of_lt hu ht)

/-- The state after `t` blocks of the remainder have been handed out, with
more to come. -/
structure Dealing (n b even rest c t : Nat) (s : RestState) : Prop where
  turn : t < n
  length : n ≤ s.div_plan_wrt_size.length
  cursor : s.next_channel_id = (c + t) % n
  left : s.rest + t * b = rest
  more : 0 < s.rest
  /-- After the first block at least one more is left. -/
  next : t = 0 ∨ b ≤ s.rest
  dealt : ∀ u < n,
    s.div_plan_wrt_size.getD ((c + u) % n) 0 = even + if u < t then b else 0

def Dealt (n b even rest c : Nat) (s : RestState) : Prop :=
  s.rest = 0 ∧ ∀ u < n, s.div_plan_wrt_size.getD ((c + u) % n) 0 = even + restShare b rest u

namespace Dealing

variable {n b even rest c t : Nat} {s : RestState}

theorem cursor_lt (h : Dealing n b even rest c t s) : s.next_channel_id < n := by
  rw [h.cursor]
  exact Nat.mod_lt _ (Nat.zero_lt_of_lt h.turn)

theorem bump (h : Dealing n b even rest c t s) {x : Nat} (hlt : even + x < 2 ^ 64) {u : Nat}
    (hu : u < n) :
    (bump s.div_plan_wrt_size s.next_channel_id x).getD ((c + u) % n) 0 =
      even + if u < t then b else if u = t then x else 0 := by
  rw [getD_bump (Nat.lt_of_lt_of_le h.cursor_lt h.length), h.cursor]
  by_cases hut : u = t
  · subst hut
    rw [if_pos rfl, h.dealt u hu]
    simp only [Nat.lt_irrefl, if_false, if_true, Nat.add_zero]
    exact wrap64_of_lt hlt
  · rw [if_neg (behind_ne h.turn hu hut), h.dealt u hu]
    by_cases hlt : u < t <;> simp [hlt, hut]

theorem last (h : Dealing n b even rest c t s) (hfit : even + rest < 2 ^ 64) (hb : 0 < b)
    (hshort : s.rest < 2 * b) {s' : RestState} (hrest : s'.rest = 0)
    (hshares : s'.div_plan_wrt_size = Core.bump s.div_plan_wrt_size s.next_channel_id s.rest) :
    Dealt n b even rest c s' := by
  have hleft := h.left
  refine ⟨hrest, fun u hu => ?_⟩
  rw [hshares, h.bump (by omega) hu]
  congr 1
  have hdiv : rest / b - 1 = t := by
    rcases h.next with rfl | hnext
    · have : rest / b < 2 := (Nat.div_lt_iff_lt_mul hb).mpr (by omega)
      omega
    · have h₁ : t + 1 ≤ rest / b := by
        rw [Nat.le_div_iff_mul_le hb, Nat.add_mul]
        omega
      have h₂ : rest / b < t + 2 := by
        rw [Nat.div_lt_iff_lt_mul hb, Nat.add_mul]
        omega
      omega
  unfold restShare
  rw [hdiv]
  by_cases hut : u = t
  · have hnot : ¬ u + 2 ≤ rest / b := by omega
    rw [if_neg (by omega), if_pos hut, if_neg hnot, if_pos hut, hut]
    omega
  · by_cases hlt : u < t
    · rw [if_pos hlt, if_pos (by omega)]
    · have hnot : ¬ u + 2 ≤ rest / b := by omega
      rw [if_neg hlt, if_neg hut, if_neg hnot, if_neg hut]

/-- A turn that leaves at least one block goes on to the next channel, any
other one is the last. -/
theorem step (h : Dealing n b even rest c t s) (hfit : even + rest < 2 ^ 64) (hb : 0 < b)
    (hlt : rest < n * b) :
    Dealing n b even rest c (t + 1) (restStep (List.replicate n b) n s) ∨
      Dealt n b even rest c (restStep (List.replicate n b) n s) := by
  have hn : 0 < n := Nat.zero_lt_of_lt h.turn
  have hblk : (List.replicate n b).getD s.next_channel_id 0 = b := by
    simp [List.getD, h.cursor_lt]
  have hblk' : (List.replicate n b).getD ((s.next_channel_id + 1) % n) 0 = b := by
    simp [List.getD, Nat.mod_lt _ hn]
  have hleft := h.left
  by_cases hmore : 2 * b ≤ s.rest
  · -- one block for this channel
    left
    have hstep : restStep (List.replicate n b) n s =
        { div_plan_wrt_size := Core.bump s.div_plan_wrt_size s.next_channel_id b
          rest := s.rest - b
          next_channel_id := (s.next_channel_id + 1) % n } := by
      have h₁ : s.rest > b := by omega
      have h₂ : ¬ s.rest - b < b := by omega
      simp only [restStep, hblk, hblk', h₁, h₂, if_true, if_false]
    -- a full round would have used the rest up
    have hturn : t + 1 < n := by
      by_contra hge
      have hmul : n * b ≤ (t + 1) * b := Nat.mul_le_mul_right b (by omega)
      rw [Nat.add_mul] at hmul
      omega
    rw [hstep]
    refine ⟨hturn, by simpa using h.length, ?_, ?_, ?_, .inr ?_, fun u hu => ?_⟩
    · dsimp only
      rw [h.cursor, Nat.mod_add_mod, Nat.add_assoc]
    · dsimp only
      rw [Nat.add_mul]
      omega
    · dsimp only
      omega
    · dsimp only
      omega
    · rw [h.bump (by omega) hu]
      congr 1
      split_ifs <;> omega
  · -- the rest is for this channel, in one piece or in two
    right
    have hstep : restStep (List.replicate n b) n s =
        { div_plan_wrt_size := Core.bump s.div_plan_wrt_size s.next_channel_id s.rest
          rest := 0
          next_channel_id := (s.next_channel_id + 1) % n } := by
      simp only [restStep, hblk, hblk']
      by_cases hgt : s.rest > b
      · have hshort : s.rest - b < b := by omega
        have hwhole : b + (s.rest - b) = s.rest := by omega
        simp only [hgt, hshort, if_true, bump_bump, hwhole]
      · simp only [hgt, if_false, hb, if_true, bump_bump, Nat.add_zero]
    rw [hstep]
    exact h.last hfit hb (by omega) rfl rfl

theorem restLoop (h : Dealing n b even rest c t s) (hfit : even + rest < 2 ^ 64) (hb : 0 < b)
    (hlt : rest < n * b) {fuel : Nat} {s' : RestState}
    (hrun : Core.restLoop (List.replicate n b) n fuel s = .ok s') : Dealt n b even rest c s' := by
  induction fuel generalizing s t with
  | zero =>
      rw [Core.restLoop, if_neg h.more.ne'] at hrun
      cases hrun
  | succ fuel ih =>
      rw [Core.restLoop, if_neg h.more.ne'] at hrun
      rcases h.step hfit hb hlt with hnext | hlast
      · exact ih hnext hrun
      · rw [restLoop_of_rest hlast.1] at hrun
        cases hrun
        exact hlast

end Dealing

/-! ### The shares -/

section

variable {g : ChannelGroup} {b size cursor : Nat} {scratch : List Nat}

theorem getD_even (hg : g.Accepted b) (hsize : size < 2 ^ 64) {j : Nat} (hj : j < g.num) :
    (fillPrefix g.num
      (fun j => wrap64 (size / g.channel_blk_size_sum * g.channel_blk_size.getD j 0))
      scratch).getD j 0 = size / (g.num * b) * b := by
  have hle : size / (g.num * b) * b ≤ size :=
    Nat.le_trans (Nat.mul_le_mul_left _ (Nat.le_mul_of_pos_left b hg.num_pos))
      (Nat.div_mul_le_self _ _)
  have hblk : (List.replicate g.num b).getD j 0 = b := by
    simp [List.getD, hj]
  rw [fillPrefix, List.getD, List.getElem?_append_left (by simpa using hj), List.getElem?_map,
    List.getElem?_range hj, hg.blk_size_sum, hg.blk_size]
  simp only [Option.map_some, Option.getD_some, hblk]
  exact wrap64_of_lt (by omega)

def restStart (g : ChannelGroup) (size next_channel_id : Nat) (scratch : List Nat) : RestState where
  div_plan_wrt_size := fillPrefix g.num
    (fun j => wrap64 (size / g.channel_blk_size_sum * g.channel_blk_size.getD j 0)) scratch
  rest := size % g.channel_blk_size_sum
  next_channel_id := next_channel_id

theorem even_add_rest_le (hg : g.Accepted b) (size : Nat) :
    size / (g.num * b) * b + size % g.channel_blk_size_sum ≤ size := by
  have hdiv := Nat.div_add_mod size (g.num * b)
  have hle : size / (g.num * b) * b ≤ g.num * b * (size / (g.num * b)) := by
    rw [Nat.mul_comm (g.num * b)]
    exact Nat.mul_le_mul_left _ (Nat.le_mul_of_pos_left b hg.num_pos)
  rw [hg.blk_size_sum]
  omega

theorem rest_lt (hg : g.Accepted b) (size : Nat) :
    size % g.channel_blk_size_sum < g.num * b := by
  rw [hg.blk_size_sum]
  exact Nat.mod_lt _ (Nat.mul_pos hg.num_pos hg.blk_pos)

theorem dealing_start (hg : g.Accepted b) (hsize : size < 2 ^ 64) (hcursor : cursor < g.num)
    (hroom : g.num ≤ scratch.length) (hrest : size % g.channel_blk_size_sum ≠ 0) :
    Dealing g.num b (size / (g.num * b) * b) (size % g.channel_blk_size_sum) cursor 0
      (restStart g size cursor scratch) := by
  refine ⟨hg.num_pos, ?_, (Nat.mod_eq_of_lt hcursor).symm, ?_, Nat.pos_of_ne_zero hrest,
    .inl rfl, fun u _ => ?_⟩
  · simpa [restStart, fillPrefix_length _ _ hroom] using hroom
  · rw [Nat.zero_mul, Nat.add_zero]
    rfl
  · simpa [restStart] using getD_even hg hsize (Nat.mod_lt _ hg.num_pos)

theorem divPlanWrtSize_shares (hg : g.Accepted b) (hsize : size < 2 ^ 64)
    (hcursor : cursor < g.num) {div : List Nat} {cursor' : Nat}
    (hrun : divPlanWrtSize g size cursor scratch = .ok (div, cursor')) :
    ∀ t < g.num, div.getD ((cursor + t) % g.num) 0 = shareBehind g.num b size t := by
  have hguard : ¬ (scratch.length < g.num ∨ g.channel_blk_size_sum = 0) := by
    intro hbad
    rw [divPlanWrtSize, if_pos hbad] at hrun
    cases hrun
  have hlen : g.num ≤ scratch.length := by omega
  rw [divPlanWrtSize, if_neg hguard] at hrun
  obtain ⟨s, hloop, hrun⟩ := bind_eq_ok.mp hrun
  obtain ⟨-, -, hrun⟩ := bind_eq_ok.mp hrun
  cases hrun
  suffices hdealt : Dealt g.num b (size / (g.num * b) * b) (size % g.channel_blk_size_sum)
      cursor s by
    intro t ht
    rw [hdealt.2 t ht, hg.blk_size_sum]
    rfl
  change restLoop g.channel_blk_size g.num _ (restStart g size cursor scratch) = .ok s at hloop
  by_cases hzero : size % g.channel_blk_size_sum = 0
  · rw [restLoop_of_rest hzero] at hloop
    cases hloop
    refine ⟨hzero, fun u _ => ?_⟩
    rw [hzero]
    simpa [restStart, restShare] using getD_even hg hsize (Nat.mod_lt (cursor + u) hg.num_pos)
  · rw [hg.blk_size] at hloop
    exact (dealing_start hg hsize hcursor hlen hzero).restLoop
      (Nat.lt_of_le_of_lt (even_add_rest_le hg size) hsize) hg.blk_pos (rest_lt hg size) hloop

theorem sharesOf_divPlanWrtSize (hg : g.Accepted b) (hsize : size < 2 ^ 64)
    (hcursor : cursor < g.num) {div : List Nat} {cursor' : Nat}
    (hrun : divPlanWrtSize g size cursor scratch = .ok (div, cursor'))
    (hsplit : SplitOf g.num size scratch div) : SharesOf g size (div.take g.num) where
  length := by rw [List.length_take, Nat.min_eq_left hsplit.room]
  total := hsplit.sum
  dealt := by
    refine ⟨cursor, hcursor, fun t ht => ?_⟩
    have hlt := Nat.mod_lt (cursor + t) hg.num_pos
    rw [hg.blocksize_eq, ← divPlanWrtSize_shares hg hsize hcursor hrun t ht]
    simp [List.getD, hlt]
  send := by
    intro hne
    have hroom : g.num ≤ scratch.length := by rw [← hsplit.length]; exact hsplit.room
    refine ⟨⟨g, b, hg, size, Nat.pos_of_ne_zero hne, hsize, cursor, hcursor, scratch, hroom⟩,
      rfl, ?_⟩
    simp only [Send.div_plan_wrt_size, hrun]

theorem sharesOf_zero (hg : g.Accepted b) : SharesOf g 0 (List.replicate g.num 0) where
  length := by simp
  total := by simp
  dealt := by
    refine ⟨0, hg.num_pos, fun t ht => ?_⟩
    rw [Nat.zero_add, Nat.mod_eq_of_lt ht]
    simp [List.getD, ht, shareBehind, restShare]
  send := fun hne => absurd rfl hne

end

/-! ### The largest share -/

theorem restShare_le (b rest t : Nat) : restShare b rest t ≤ rest - (rest / b - 1) * b := by
  unfold restShare
  split
  · rename_i hmore
    have hle := Nat.div_mul_le_self rest b
    rw [show rest / b = rest / b - 1 + 1 by omega, Nat.add_mul] at hle
    omega
  · split
    · rename_i hlast
      rw [hlast]
    · exact Nat.zero_le _

theorem restShare_last (b rest : Nat) :
    restShare b rest (rest / b - 1) = rest - (rest / b - 1) * b := by
  rw [restShare, if_neg (by omega), if_pos rfl]

/-- The channel under the cursor always gets something. -/
theorem shareBehind_zero_pos {n b size : Nat} (hb : 0 < b) (hsize : 0 < size) :
    0 < shareBehind n b size 0 := by
  unfold shareBehind restShare
  have hdiv := Nat.div_add_mod size (n * b)
  by_cases hzero : size / (n * b) = 0
  · rw [hzero, Nat.mul_zero, Nat.zero_add] at hdiv
    rw [hdiv]
    split_ifs <;> omega
  · have hpos := Nat.mul_pos (Nat.pos_of_ne_zero hzero) hb
    omega

theorem shareBehind_one_pos {n b size : Nat} (hb : 0 < b) (hsize : 2 * b ≤ size) :
    0 < shareBehind n b size 1 := by
  unfold shareBehind restShare
  have hdiv := Nat.div_add_mod size (n * b)
  by_cases hzero : size / (n * b) = 0
  · rw [hzero, Nat.mul_zero, Nat.zero_add] at hdiv
    have htwo : 2 ≤ size / b := (Nat.le_div_iff_mul_le hb).mpr hsize
    rw [hdiv]
    split_ifs <;> omega
  · have hpos := Nat.mul_pos (Nat.pos_of_ne_zero hzero) hb
    omega

theorem shareBehind_eq_zero {n b size t : Nat} (hn : 2 ≤ n) (hsize : size < 2 * b)
    (ht : 1 ≤ t) : shareBehind n b size t = 0 := by
  have hb : 0 < b := by omega
  have hlt : size < n * b := Nat.lt_of_lt_of_le hsize (Nat.mul_le_mul_right b hn)
  have hone : size / b < 2 := (Nat.div_lt_iff_lt_mul hb).mpr hsize
  rw [shareBehind, Nat.div_eq_of_lt hlt, Nat.mod_eq_of_lt hlt, Nat.zero_mul, Nat.zero_add,
    restShare, if_neg (by omega), if_neg (by omega)]

theorem exists_behind {n c j : Nat} (hc : c < n) (hj : j < n) : ∃ t < n, (c + t) % n = j := by
  rcases Nat.le_total c j with hle | hle
  · exact ⟨j - c, by omega, by rw [Nat.add_sub_cancel' hle, Nat.mod_eq_of_lt hj]⟩
  · by_cases heq : c = j
    · exact ⟨0, by omega, by rw [Nat.add_zero, Nat.mod_eq_of_lt hc, heq]⟩
    · refine ⟨j + n - c, by omega, ?_⟩
      rw [show c + (j + n - c) = j + n by omega, Nat.add_mod_right, Nat.mod_eq_of_lt hj]

section

variable {n b size c : Nat} {div : List Nat} (hn : 0 < n) (hb : 0 < b) (hc : c < n)
  (hshares : ∀ t < n, div.getD ((c + t) % n) 0 = shareBehind n b size t)

include hc hshares in
theorem share_le_largestShare {j : Nat} (hj : j < n) : div.getD j 0 ≤ largestShare n b size := by
  obtain ⟨t, ht, rfl⟩ := exists_behind hc hj
  rw [hshares t ht]
  exact Nat.add_le_add_left (restShare_le _ _ _) _

include hn hb hshares in
theorem exists_largestShare : ∃ j < n, div.getD j 0 = largestShare n b size := by
  have hlast : size % (n * b) / b - 1 < n := by
    have hlt : size % (n * b) / b < n :=
      (Nat.div_lt_iff_lt_mul hb).mpr (Nat.mod_lt _ (Nat.mul_pos hn hb))
    omega
  refine ⟨(c + (size % (n * b) / b - 1)) % n, Nat.mod_lt _ hn, ?_⟩
  rw [hshares _ hlast, shareBehind, restShare_last]
  rfl

include hn hb hc hshares in
/-- A send has a single part exactly when there is one channel to choose from,
or less than two blocks to send. -/
theorem nonZeros_eq_one_iff (hroom : n ≤ div.length) (hsize : 0 < size) :
    nonZeros n div = 1 ↔ n = 1 ∨ size < 2 * b := by
  -- the channel at the cursor has a share in any case
  have hcursor : div.getD c 0 ≠ 0 := by
    have hshare := hshares 0 hn
    rw [Nat.add_zero, Nat.mod_eq_of_lt hc] at hshare
    rw [hshare]
    exact (shareBehind_zero_pos hb hsize).ne'
  rw [nonZeros_eq_length hroom]
  constructor
  · intro hone
    by_contra hmany
    obtain ⟨hn1, hsize2⟩ := not_or.mp hmany
    -- with two blocks to send, the next channel has a share too
    have hnext : div.getD ((c + 1) % n) 0 ≠ 0 := by
      rw [hshares 1 (by omega)]
      exact (shareBehind_one_pos hb (Nat.le_of_not_lt hsize2)).ne'
    obtain ⟨x, hx⟩ := List.length_eq_one_iff.mp hone
    have hmem : ∀ j < n, div.getD j 0 ≠ 0 → j = x := by
      intro j hj hne
      have hin : j ∈ (List.range n).filter fun j => div.getD j 0 ≠ 0 :=
        List.mem_filter.mpr ⟨List.mem_range.mpr hj, by simpa using hne⟩
      rw [hx] at hin
      exact List.mem_singleton.mp hin
    have hsame := (hmem _ (Nat.mod_lt _ hn) hnext).trans (hmem c hc hcursor).symm
    refine behind_ne (c := c) hn (by omega : 1 < n) Nat.one_ne_zero ?_
    rw [hsame, Nat.add_zero, Nat.mod_eq_of_lt hc]
  · intro hfew
    -- otherwise no channel but the one at the cursor has a share
    have honly : ∀ j ∈ List.range n, decide (div.getD j 0 ≠ 0) = (j == c) := by
      intro j hj
      obtain ⟨t, ht, rfl⟩ := exists_behind hc (List.mem_range.mp hj)
      by_cases hzero : t = 0
      · subst hzero
        rw [Nat.add_zero, Nat.mod_eq_of_lt hc]
        simpa using hcursor
      · have hne := behind_ne (c := c) hn ht hzero
        rw [Nat.add_zero, Nat.mod_eq_of_lt hc] at hne
        have hshare : div.getD ((c + t) % n) 0 = 0 := by
          rw [hshares t ht]
          exact shareBehind_eq_zero (by omega) (by omega) (by omega)
        rw [hshare]
        simpa using hne
    rw [List.filter_congr honly, ← List.countP_eq_length_filter]
    exact List.count_eq_one_of_mem List.nodup_range (List.mem_range.mpr hc)

end

end Unr.Core
