import Unr.Core.Channels
import Unr.Logic.Shares
import Unr.Logic.PackedCounter

/-!
How `unr_rdma_plan_create` divides one send over the channels of a group: the
shares of the channels, their displacements, and the amount each part adds to
the signals of the send.

The three computations work in place on scratch arrays that are as long as
the plan has channels and are reused from one send to the next; only the
first `num_channels` entries belong to the current send.
-/

namespace Unr.Core

open Unr.Uru Unr.Logic

/-- `for (j = 0; j < n; j++) a[j] = f(j);` -/
def fillPrefix {α : Type} (n : Nat) (f : Nat → α) (a : List α) : List α :=
  (List.range n).map f ++ a.drop n

/-- `a[c] += x;` on a `size_t` array. -/
def bump (a : List Nat) (c x : Nat) : List Nat :=
  a.modify c fun y => wrap64 (y + x)

structure RestState where
  div_plan_wrt_size : List Nat
  rest : Nat
  next_channel_id : Nat
  deriving Repr, DecidableEq

/-- One turn of that loop, the increment of the cursor included. -/
def restStep (blk : List Nat) (n : Nat) (s : RestState) : RestState :=
  let c := s.next_channel_id
  let s := if s.rest > blk.getD c 0 then
      { s with div_plan_wrt_size := bump s.div_plan_wrt_size c (blk.getD c 0)
               rest := s.rest - blk.getD c 0 }
    else
      { s with div_plan_wrt_size := bump s.div_plan_wrt_size c s.rest, rest := 0 }
  let s := if s.rest < blk.getD ((c + 1) % n) 0 then
      { s with div_plan_wrt_size := bump s.div_plan_wrt_size c s.rest, rest := 0 }
    else s
  { s with next_channel_id := (c + 1) % n }

/-- `for (rest = ...; rest; ...)`, for at most `fuel` turns. -/
def restLoop (blk : List Nat) (n : Nat) : Nat → RestState → Prog RestState
  | fuel, s =>
    if s.rest = 0 then .ok s
    else match fuel with
      | 0 => .error .diverges
      | fuel + 1 => restLoop blk n fuel (restStep blk n s)

/-- `div_plan_wrt_size` for a send of `size` bytes, computed in the scratch
array left by the previous send, and the advanced cursor. -/
def divPlanWrtSize (g : ChannelGroup) (size next_channel_id : Nat) (scratch : List Nat) :
    Prog (List Nat × Nat) := do
  if scratch.length < g.num ∨ g.channel_blk_size_sum = 0 then
    throw .undefined
  let even := fillPrefix g.num
    (fun j => wrap64 (size / g.channel_blk_size_sum * g.channel_blk_size.getD j 0)) scratch
  let rest := size % g.channel_blk_size_sum
  -- every turn hands out at least one byte
  let s ← restLoop g.channel_blk_size g.num rest
    { div_plan_wrt_size := even, rest := rest, next_channel_id := next_channel_id }
  uruAssert ((s.div_plan_wrt_size.take g.num).foldl (fun sum x => wrap64 (sum + x)) 0 = size)
  return (s.div_plan_wrt_size, s.next_channel_id)

/-- `div_plan_wrt_offset`; the first entry is never written. -/
def divPlanWrtOffset (n : Nat) (div_plan_wrt_size scratch : List Nat) : List Nat :=
  (List.range (n - 1)).foldl
    (fun a j => a.set (j + 1) (wrap64 (a.getD j 0 + div_plan_wrt_size.getD j 0))) scratch

/-- The number of parts of a send: its channels with a share. -/
def nonZeros (n : Nat) (div_plan_wrt_size : List Nat) : Nat :=
  (div_plan_wrt_size.take n).countP (· ≠ 0)

def firstPart (n : Nat) (div_plan_wrt_size : List Nat) : Nat :=
  (div_plan_wrt_size.take n).findIdx (· ≠ 0)

/-- `sig_add_arr`, an array of `len` entries: the higher 32 bits count the
sub-messages, the lower 31 bits the messages. -/
def sigAddArr (len n : Nat) (div_plan_wrt_size : List Nat) : List (BitVec 64) :=
  let non_zeros := nonZeros n div_plan_wrt_size
  let first := firstPart n div_plan_wrt_size
  (List.range len).map fun j =>
    if n ≤ j ∨ div_plan_wrt_size.getD j 0 = 0 then 0#64
    else if non_zeros = 1 then (if j = first then -1#64 else 0#64)
    else if j = first then -1#64 + BitVec.ofNat 64 (non_zeros - 1) <<< 32
    else 0xFFFFFFFF00000000#64

/-! ### The loop hands out exactly the remainder -/

/-- What stays true while the remainder is handed out: the first `n` entries
and the rest add up to the send, the entries behind them are untouched and
the cursor names a channel. -/
structure RestInv (n size : Nat) (tail : List Nat) (s : RestState) : Prop where
  length : n ≤ s.div_plan_wrt_size.length
  tail : s.div_plan_wrt_size.drop n = tail
  cursor : s.next_channel_id < n
  sum : (s.div_plan_wrt_size.take n).sum + s.rest = size

@[simp] theorem bump_length (a : List Nat) (c x : Nat) : (bump a c x).length = a.length := by
  simp [bump]

theorem sum_take_bump {a : List Nat} {c n x : Nat} (hc : c < n) (hn : n ≤ a.length)
    (hlt : (a.take n).sum + x < 2 ^ 64) :
    ((bump a c x).take n).sum = (a.take n).sum + x := by
  have hlen : c < (a.take n).length := by simp; omega
  have hle : (a.take n)[c] ≤ (a.take n).sum := List.le_sum_of_mem (List.getElem_mem hlen)
  rw [bump, List.take_modify]
  exact sum_modify hlen (wrap64_of_lt (by omega))

theorem RestInv.bump {n size x : Nat} {tail : List Nat} {s : RestState}
    (h : RestInv n size tail s) (hsize : size < 2 ^ 64) (hx : x ≤ s.rest) :
    RestInv n size tail { s with
      div_plan_wrt_size := bump s.div_plan_wrt_size s.next_channel_id x
      rest := s.rest - x } where
  length := by simpa using h.length
  tail := by rw [← h.tail]; exact List.drop_modify_of_lt _ _ _ _ h.cursor
  cursor := h.cursor
  sum := by
    have hsum := h.sum
    dsimp only
    rw [sum_take_bump h.cursor h.length (by omega)]
    omega

theorem RestInv.step {n size b : Nat} {tail : List Nat} {s : RestState}
    (h : RestInv n size tail s) (hsize : size < 2 ^ 64) (hb : 0 < b) (hrest : 0 < s.rest) :
    RestInv n size tail (restStep (List.replicate n b) n s) ∧
      (restStep (List.replicate n b) n s).rest < s.rest := by
  have hn : 0 < n := by have := h.cursor; omega
  have hnext : (s.next_channel_id + 1) % n < n := Nat.mod_lt _ hn
  have hblk : (List.replicate n b).getD s.next_channel_id 0 = b := by
    simp [List.getD, h.cursor]
  have hblk' : (List.replicate n b).getD ((s.next_channel_id + 1) % n) 0 = b := by
    simp [List.getD, hnext]
  have hfull := h.bump (x := b) hsize
  have hlast := h.bump (x := s.rest) hsize le_rfl
  rw [Nat.sub_self] at hlast
  simp only [restStep, hblk, hblk']
  by_cases hgt : s.rest > b
  · have hfull := hfull hgt.le
    simp only [hgt, if_true]
    by_cases hshort : s.rest - b < b
    · have hmerge := hfull.bump hsize le_rfl
      simp only [Nat.sub_self] at hmerge
      simp only [hshort, if_true]
      exact ⟨⟨hmerge.length, hmerge.tail, hnext, hmerge.sum⟩, hrest⟩
    · simp only [hshort, if_false]
      exact ⟨⟨hfull.length, hfull.tail, hnext, hfull.sum⟩, by omega⟩
  · have hmerge := hlast.bump (x := 0) hsize le_rfl
    simp only [hgt, if_false, hb, if_true]
    exact ⟨⟨hmerge.length, hmerge.tail, hnext, hmerge.sum⟩, hrest⟩

theorem restLoop_spec {n size b : Nat} {tail : List Nat} (hsize : size < 2 ^ 64) (hb : 0 < b)
    (fuel : Nat) {s : RestState} (h : RestInv n size tail s) (hfuel : s.rest ≤ fuel) :
    ∃ s', restLoop (List.replicate n b) n fuel s = .ok s' ∧ RestInv n size tail s' ∧
      s'.rest = 0 := by
  induction fuel generalizing s with
  | zero => exact ⟨s, by simp [restLoop, Nat.le_zero.mp hfuel], h, Nat.le_zero.mp hfuel⟩
  | succ fuel ih =>
      by_cases hzero : s.rest = 0
      · exact ⟨s, by simp [restLoop, hzero], h, hzero⟩
      · obtain ⟨hinv, hlt⟩ := h.step hsize hb (Nat.pos_of_ne_zero hzero)
        obtain ⟨s', hrun, hs'⟩ := ih hinv (by omega)
        exact ⟨s', by simpa [restLoop, hzero] using hrun, hs'⟩

/-! ### The shares of a send -/

@[simp] theorem fillPrefix_length {α : Type} (n : Nat) (f : Nat → α) {a : List α}
    (h : n ≤ a.length) : (fillPrefix n f a).length = a.length := by
  simp [fillPrefix]
  omega

@[simp] theorem take_fillPrefix {α : Type} (n : Nat) (f : Nat → α) (a : List α) :
    (fillPrefix n f a).take n = (List.range n).map f := by
  rw [fillPrefix, List.take_left' (by simp)]

@[simp] theorem drop_fillPrefix {α : Type} (n : Nat) (f : Nat → α) (a : List α) :
    (fillPrefix n f a).drop n = a.drop n := by
  rw [fillPrefix, List.drop_left' (by simp)]

theorem foldl_wrap64 (xs : List Nat) (sum : Nat) (h : sum + xs.sum < 2 ^ 64) :
    xs.foldl (fun sum x => wrap64 (sum + x)) sum = sum + xs.sum := by
  induction xs generalizing sum with
  | nil => simp
  | cons x xs ih =>
      rw [List.sum_cons] at h ⊢
      rw [List.foldl_cons, wrap64_of_lt (by omega), ih _ (by omega)]
      omega

/-- Before the remainder is handed out every channel has the same share, and
the shares miss the send by exactly the remainder. -/
theorem restInv_even {g : ChannelGroup} {b size cursor : Nat} {scratch : List Nat}
    (hg : g.Accepted b) (hsize : size < 2 ^ 64) (hcursor : cursor < g.num)
    (hlen : g.num ≤ scratch.length) :
    RestInv g.num size (scratch.drop g.num) {
      div_plan_wrt_size := fillPrefix g.num
        (fun j => wrap64 (size / g.channel_blk_size_sum * g.channel_blk_size.getD j 0)) scratch
      rest := size % g.channel_blk_size_sum
      next_channel_id := cursor } where
  length := by rw [fillPrefix_length _ _ hlen]; exact hlen
  tail := by simp
  cursor := hcursor
  sum := by
    have hle : size / (g.num * b) * b ≤ size := by
      calc size / (g.num * b) * b
          ≤ size / (g.num * b) * (g.num * b) :=
            Nat.mul_le_mul_left _ (Nat.le_mul_of_pos_left b hg.num_pos)
        _ ≤ size := Nat.div_mul_le_self _ _
    have heven : (List.range g.num).map
        (fun j => wrap64 (size / g.channel_blk_size_sum * g.channel_blk_size.getD j 0)) =
        List.replicate g.num (size / (g.num * b) * b) := by
      apply List.eq_replicate_iff.mpr
      refine ⟨by simp, fun x hx => ?_⟩
      obtain ⟨j, hj, rfl⟩ := List.mem_map.mp hx
      rw [hg.blk_size_sum, hg.blk_size, List.getD,
        List.getElem?_replicate_of_lt (List.mem_range.mp hj), Option.getD_some,
        wrap64_of_lt (by omega)]
    dsimp only
    rw [take_fillPrefix, heven, List.sum_replicate_nat, hg.blk_size_sum]
    calc g.num * (size / (g.num * b) * b) + size % (g.num * b)
        = g.num * b * (size / (g.num * b)) + size % (g.num * b) := by ring
      _ = size := Nat.div_add_mod size (g.num * b)

/-- What the division of one send leaves behind: the shares of the `n`
channels add up to the send, the rest of the scratch array is as it was. -/
structure SplitOf (n size : Nat) (scratch div_plan_wrt_size : List Nat) : Prop where
  length : div_plan_wrt_size.length = scratch.length
  room : n ≤ div_plan_wrt_size.length
  stale : div_plan_wrt_size.drop n = scratch.drop n
  sum : (div_plan_wrt_size.take n).sum = size

/-- The division succeeds on every accepted group, whatever the scratch array
holds, and the assertion on the sum of the shares passes. -/
theorem divPlanWrtSize_spec {g : ChannelGroup} {b size cursor : Nat} {scratch : List Nat}
    (hg : g.Accepted b) (hsize : size < 2 ^ 64) (hcursor : cursor < g.num)
    (hlen : g.num ≤ scratch.length) :
    ∃ div cursor', divPlanWrtSize g size cursor scratch = .ok (div, cursor') ∧
      SplitOf g.num size scratch div ∧ cursor' < g.num := by
  obtain ⟨s', hloop, hinv, hrest⟩ :=
    restLoop_spec hsize hg.blk_pos (size % g.channel_blk_size_sum)
      (restInv_even hg hsize hcursor hlen) le_rfl
  have hsum := hinv.sum
  rw [hrest, Nat.add_zero] at hsum
  have hlen' : s'.div_plan_wrt_size.length = scratch.length := by
    have h₁ := congrArg List.length hinv.tail
    have h₂ := hinv.length
    simp only [List.length_drop] at h₁
    omega
  have hassert : (s'.div_plan_wrt_size.take g.num).foldl
      (fun sum x => wrap64 (sum + x)) 0 = size := by
    rw [foldl_wrap64 _ _ (by omega), hsum, Nat.zero_add]
  have hguard : ¬ (scratch.length < g.num ∨ g.channel_blk_size_sum = 0) := by
    have hpos := Nat.mul_pos hg.num_pos hg.blk_pos
    rw [hg.blk_size_sum]
    omega
  rw [hg.blk_size] at hloop
  refine ⟨s'.div_plan_wrt_size, s'.next_channel_id, ?_,
    ⟨hlen', hinv.length, hinv.tail, hsum⟩, hinv.cursor⟩
  simp only [divPlanWrtSize, hguard, if_false, hg.blk_size]
  exact bind_eq_ok.mpr ⟨s', hloop,
    bind_eq_ok.mpr ⟨(), uruAssert_eq_ok.mpr hassert, rfl⟩⟩

/-! ### The displacements of the shares -/

/-- As long as the first entry of the scratch array is still the zero it was
allocated with, the displacements are those of consecutive shares. -/
theorem divPlanWrtOffset_spec {n : Nat} {div scratch : List Nat} (hzero : scratch.getD 0 0 = 0)
    (hn : n ≤ scratch.length) (hdiv : n ≤ div.length) (hlt : (div.take n).sum < 2 ^ 64) :
    (divPlanWrtOffset n div scratch).length = scratch.length ∧
      (divPlanWrtOffset n div scratch).getD 0 0 = 0 ∧
      ∀ j < n, (divPlanWrtOffset n div scratch).getD j 0 = displacement (div.take n) j := by
  -- after `m` turns the first `m + 1` offsets are set
  have key : ∀ m ≤ n - 1,
      let a := (List.range m).foldl
        (fun a j => a.set (j + 1) (wrap64 (a.getD j 0 + div.getD j 0))) scratch
      a.length = scratch.length ∧ a.getD 0 0 = 0 ∧
        ∀ j ≤ m, a.getD j 0 = displacement (div.take n) j := by
    intro m
    induction m with
    | zero =>
        intro _
        refine ⟨rfl, hzero, fun j hj => ?_⟩
        rw [Nat.le_zero.mp hj, displacement_zero]
        exact hzero
    | succ m ih =>
        intro hm
        obtain ⟨hlen, h0, hval⟩ := ih (by omega)
        simp only [List.range_succ, List.foldl_append, List.foldl_cons, List.foldl_nil]
        generalize hgen : (List.range m).foldl
          (fun a j => a.set (j + 1) (wrap64 (a.getD j 0 + div.getD j 0))) scratch = a at *
        have hmdiv : m < (div.take n).length := by simp; omega
        have hnext : wrap64 (a.getD m 0 + div.getD m 0) = displacement (div.take n) (m + 1) := by
          have hle := displacement_le_sum (div.take n) (m + 1)
          have hget : div.getD m 0 = (div.take n)[m] := by
            simp [List.getD, List.getElem?_eq_getElem (show m < div.length by omega)]
          rw [hval m le_rfl, hget, ← displacement_succ hmdiv, wrap64_of_lt (by omega)]
        refine ⟨by simpa using hlen, by simpa [List.getD, List.getElem?_set] using h0,
          fun j hj => ?_⟩
        by_cases hjm : j = m + 1
        · subst hjm
          rw [hnext]
          simp [List.getD, show m + 1 < a.length by omega]
        · rw [← hval j (by omega)]
          simp [List.getD, Ne.symm hjm]
  obtain ⟨hlen, h0, hval⟩ := key (n - 1) le_rfl
  exact ⟨hlen, h0, fun j hj => hval j (by omega)⟩

/-! ### What the parts add

The two halves of the added words, read as in `packed`: the first part of a
send takes one message away and announces the sub-messages still to come,
every other part takes one of those away. -/

theorem two_le_countP {α : Type} {p : α → Bool} {xs : List α} {i j : Nat} (hij : i < j)
    (hj : j < xs.length) (hpi : p xs[i]) (hpj : p xs[j]) : 2 ≤ xs.countP p := by
  have hi : i < (xs.take (i + 1)).length := by simp; omega
  have hsplit : xs.countP p = (xs.take (i + 1)).countP p + (xs.drop (i + 1)).countP p := by
    rw [← List.countP_append, List.take_append_drop]
  have hone : 0 < (xs.take (i + 1)).countP p :=
    List.countP_pos_iff.mpr ⟨_, List.getElem_mem hi, by simpa using hpi⟩
  have hj' : j - (i + 1) < (xs.drop (i + 1)).length := by simp; omega
  have htwo : 0 < (xs.drop (i + 1)).countP p := by
    refine List.countP_pos_iff.mpr ⟨_, List.getElem_mem hj', ?_⟩
    rw [List.getElem_drop]
    simpa [show i + 1 + (j - (i + 1)) = j by omega] using hpj
  omega

theorem firstPart_spec {n : Nat} {div : List Nat} (hpos : 0 < (div.take n).sum) :
    firstPart n div < n ∧ div.getD (firstPart n div) 0 ≠ 0 := by
  have hex : ∃ x ∈ div.take n, (decide (x ≠ 0)) = true := by
    by_contra hnone
    have hall : ∀ x ∈ div.take n, x = 0 := by
      intro x hx
      by_contra hne
      exact hnone ⟨x, hx, by simpa using hne⟩
    exact hpos.ne' (List.sum_eq_zero hall)
  have hlt := List.findIdx_lt_length_of_exists hex
  have hval := List.findIdx_getElem (w := hlt)
  have hlen : (div.take n).length ≤ n := by simp
  have hbound : firstPart n div < div.length := by
    have : (div.take n).length ≤ div.length := by simp
    exact Nat.lt_of_lt_of_le hlt this
  refine ⟨Nat.lt_of_lt_of_le hlt hlen, ?_⟩
  rw [List.getElem_take] at hval
  rw [List.getD, List.getElem?_eq_getElem hbound, Option.getD_some]
  exact of_decide_eq_true hval

theorem nonZeros_pos {n : Nat} {div : List Nat} (hpos : 0 < (div.take n).sum) :
    0 < nonZeros n div := by
  by_contra hzero
  have hnone := List.countP_eq_zero.mp (Nat.eq_zero_of_not_pos hzero)
  have hall : ∀ x ∈ div.take n, x = 0 := by
    intro x hx
    simpa using hnone x hx
  exact hpos.ne' (List.sum_eq_zero hall)

theorem eq_firstPart_of_nonZeros {n j : Nat} {div : List Nat} (hpos : 0 < (div.take n).sum)
    (hone : nonZeros n div = 1) (hj : j < n) (hdiv : div.getD j 0 ≠ 0) :
    j = firstPart n div := by
  obtain ⟨hfirst, hne⟩ := firstPart_spec hpos
  have inTake : ∀ {i : Nat}, i < n → div.getD i 0 ≠ 0 →
      ∃ h : i < (div.take n).length, (div.take n)[i] ≠ 0 := by
    intro i hi hdiv
    have hlt : i < div.length := by
      by_contra hge
      exact hdiv (by simp [List.getD, List.getElem?_eq_none (not_lt.mp hge)])
    refine ⟨by simp; omega, ?_⟩
    simpa [List.getD, List.getElem?_eq_getElem hlt] using hdiv
  obtain ⟨hj', hdj⟩ := inTake hj hdiv
  obtain ⟨hf', hdf⟩ := inTake hfirst hne
  rcases Nat.lt_trichotomy j (firstPart n div) with hlt | heq | hgt
  · have := two_le_countP (p := (· ≠ 0)) hlt hf' (by simpa using hdj) (by simpa using hdf)
    rw [nonZeros] at hone
    omega
  · exact heq
  · have := two_le_countP (p := (· ≠ 0)) hgt hj' (by simpa using hdf) (by simpa using hdj)
    rw [nonZeros] at hone
    omega

/-- The word a part adds: `(-1, parts - 1)` for the first part of the send,
`(0, -1)` for every other one. -/
theorem sigAddArr_getD (len : Nat) {n j : Nat} {div : List Nat} (hpos : 0 < (div.take n).sum)
    (hj : j < n) (hlen : n ≤ len) (hdiv : div.getD j 0 ≠ 0) :
    (sigAddArr len n div).getD j 0 =
      if j = firstPart n div then packed 64 32 (-1) ((nonZeros n div : ℤ) - 1)
      else packed 64 32 0 (-1) := by
  have hget : (sigAddArr len n div).getD j 0 =
      if nonZeros n div = 1 then (if j = firstPart n div then -1#64 else 0#64)
      else if j = firstPart n div then
        -1#64 + BitVec.ofNat 64 (nonZeros n div - 1) <<< 32
      else 0xFFFFFFFF00000000#64 := by
    have hge : ¬ n ≤ j := by omega
    have hor : ¬ (n ≤ j ∨ div.getD j 0 = 0) := by
      rintro (h | h)
      · exact hge h
      · exact hdiv h
    rw [sigAddArr, List.getD, List.getElem?_map, List.getElem?_range (by omega)]
    simp only [Option.map_some, Option.getD_some]
    rw [if_neg hor]
  -- the shift writes the number of further parts into the upper half
  have hshift : BitVec.ofNat 64 (nonZeros n div - 1) <<< 32 =
      BitVec.ofInt 64 (2 ^ 32 * ((nonZeros n div : ℤ) - 1)) := by
    have hnz := nonZeros_pos hpos
    have hcast : (2 : ℤ) ^ 32 * ((nonZeros n div : ℤ) - 1) =
        (((nonZeros n div - 1) * 2 ^ 32 : ℕ) : ℤ) := by
      push_cast [Nat.cast_sub hnz]
      ring
    rw [hcast, BitVec.ofInt_natCast]
    apply BitVec.eq_of_toNat_eq
    simp [Nat.shiftLeft_eq]
  rw [hget]
  by_cases hone : nonZeros n div = 1
  · have hfirst := eq_firstPart_of_nonZeros hpos hone hj hdiv
    simp only [hone, hfirst, if_true, Nat.cast_one, sub_self]
    decide
  · simp only [hone, if_false]
    by_cases hfirst : j = firstPart n div
    · simp only [hfirst, if_true]
      rw [hshift, packed, BitVec.ofInt_add]
      rfl
    · simp only [hfirst, if_false]
      decide

end Unr.Core
