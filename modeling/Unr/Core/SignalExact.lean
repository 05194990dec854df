import Unr.Core.SignalRuns

/-!
What the counter tells about a round: the signal is triggered by the last
part and by no other, and the two calls that look at the word in between, the
check of `unr_sig_check` and the assertion of the daemon, see the high half of
the counter as well.
-/

namespace Unr.Core

open Unr.Uru Unr.Logic

/-- Rounds that fit are exact: after any number of them the signal can be used
for another one, in which the counter is zero once everything has arrived and
not before. -/
theorem signal_exact {N : Nat} (hpos : 0 < N) (hlt : N < 2 ^ 31) {created : UruFlag}
    (hcreate : unrSigCreate (BitVec.ofNat 64 N) = .ok created) {completed : List Round}
    (hcompleted : ∀ r ∈ completed, r.Fits N) :
    ∃ flag, playRounds created completed = .ok flag ∧ ∀ r : Round, r.Fits N →
      (∀ applied, applied <+: r.order →
        ((applyParts flag applied).counter = 0#64 ↔ applied = r.order)) ∧
      triggers flag r.order = 1 ∧
      ∃ flag', unrSigReset (applyParts flag r.order) = .ok flag' := by
  have hstart := fresh_of_create hpos (by omega) hcreate
  obtain ⟨flag, hplay⟩ := hstart.playRounds_ok hlt hcompleted
  have hfresh := fresh_of_playRounds hlt hstart hplay
  refine ⟨flag, hplay, fun r hfits => ⟨?_, ?_, hfresh.reset_ok hlt hfits⟩⟩
  · rintro applied ⟨rest, hsplit⟩
    rw [hfresh.counter_eq_zero_iff hlt hfits hsplit, ← hsplit]
    constructor
    · rintro rfl
      rw [List.append_nil]
    · intro hall
      exact List.append_cancel_left (by rw [List.append_nil]; exact hall.symm)
  · exact triggers_eq_one (r.order_ne_nil hpos hfits) fun applied rest hsplit =>
      hfresh.counter_eq_zero_iff hlt hfits hsplit

def twoChannels : ChannelGroup where
  channels := [0, 1]
  uri_mem_h_offset := [24, 24]
  channel_blk_size := [4096, 4096]
  channel_blk_size_sum := 8192

def twoBlocks : Send where
  group := twoChannels
  blk := 4096
  accepted := ⟨by decide, by decide, by decide, by decide, by decide, by decide⟩
  size := 8192
  size_pos := by decide
  size_lt := by decide
  next_channel_id := 0
  cursor_lt := by decide
  scratch := [0, 0, 0]
  room := by decide

theorem twoBlocks_parts : twoBlocks.parts = [⟨twoBlocks, 0⟩, ⟨twoBlocks, 1⟩] := rfl

def inOrder : Round where
  sends := [twoBlocks]
  order := [⟨twoBlocks, 0⟩, ⟨twoBlocks, 1⟩]
  perm := by rw [List.flatMap_singleton, twoBlocks_parts]

/-- The second part of the send overtakes the first. -/
def overtaken : Round where
  sends := [twoBlocks]
  order := [⟨twoBlocks, 1⟩, ⟨twoBlocks, 0⟩]
  perm := by
    rw [List.flatMap_singleton, twoBlocks_parts]
    exact List.Perm.swap _ _ _

theorem inOrder_fits : inOrder.Fits 1 := ⟨rfl, by decide +kernel⟩
theorem overtaken_fits : overtaken.Fits 1 := ⟨rfl, by decide +kernel⟩

def oneEvent : UruFlag := { counter := 1, queue := none, num_event := 1, idx := -1 }

theorem signal_exact_two_blocks :
    unrSigCreate 1 = .ok oneEvent ∧ ∃ flag, playRounds oneEvent [inOrder] = .ok flag ∧
      triggers flag overtaken.order = 1 := by
  have hcreate : unrSigCreate 1 = .ok oneEvent := rfl
  have hfits : ∀ r ∈ [inOrder], r.Fits 1 := by simpa using inOrder_fits
  obtain ⟨flag, hplay, hround⟩ := signal_exact (N := 1) (by decide) (by decide) hcreate hfits
  exact ⟨hcreate, flag, hplay, (hround overtaken overtaken_fits).2.1⟩

/-! ### The check between two parts

The mask of `unr_sig_check` covers the whole high half of the counter. -/

/-- The check returns exactly when the number of sub-messages announced and
not yet delivered is a multiple of `2 ^ 32`. -/
theorem sig_check_returns_iff {N : Nat} (hpos : 0 < N) (hlt : N < 2 ^ 31)
    {created flag : UruFlag} (hcreate : unrSigCreate (BitVec.ofNat 64 N) = .ok created)
    {completed : List Round} (hplay : playRounds created completed = .ok flag)
    {r : Round} (hsends : r.sends.length ≤ N) {applied : List Part}
    (hpre : applied <+: r.order) :
    (unrSigCheck (applyParts flag applied) = .ok .signalTriggered ∨
      unrSigCheck (applyParts flag applied) = .ok .signalWaiting) ↔
      (2 : ℤ) ^ 32 ∣ outstanding applied := by
  obtain ⟨rest, hsplit⟩ := hpre
  have hfresh := fresh_of_playRounds hlt (fresh_of_create hpos (by omega) hcreate) hplay
  exact check_applied_iff hsplit hfresh hlt hsends

theorem sig_check_returns_iff_two_blocks :
    unrSigCreate 1 = .ok oneEvent ∧ playRounds oneEvent [] = .ok oneEvent ∧
      ((unrSigCheck (applyParts oneEvent inOrder.order) = .ok .signalTriggered ∨
        unrSigCheck (applyParts oneEvent inOrder.order) = .ok .signalWaiting) ↔
        (2 : ℤ) ^ 32 ∣ outstanding inOrder.order) :=
  have hcreate : unrSigCreate 1 = .ok oneEvent := rfl
  have hplay : playRounds oneEvent [] = .ok oneEvent := rfl
  ⟨hcreate, hplay, sig_check_returns_iff (N := 1) (by decide) (by decide) hcreate hplay
    (r := inOrder) (by decide) (List.prefix_refl _)⟩

/-- With the first of two parts in, the counter is `2 ^ 32` and the check ends
the process, although the signal has received less than it expects. -/
theorem sig_check_overflow_half_delivered :
    unrSigCreate 1 = .ok oneEvent ∧ inOrder.sends.length ≤ 1 ∧
      [⟨twoBlocks, 0⟩] <+: inOrder.order ∧
      unrSigCheck (applyParts oneEvent [⟨twoBlocks, 0⟩]) = .error (.exit .eventOverflow) :=
  ⟨rfl, by decide, ⟨_, rfl⟩, rfl⟩

/-! ### The assertion of the daemon

The daemon reads the counter as a signed number, so a part that overtakes the
first part of its send makes it negative. -/

/-- The daemon gets through a round exactly when after each part the number of
sub-messages announced and not yet delivered is, as a 32-bit number, below
`2 ^ 31`. -/
theorem daemon_assert_holds_iff {N : Nat} (hpos : 0 < N) (hlt : N < 2 ^ 31)
    {created flag : UruFlag} (hcreate : unrSigCreate (BitVec.ofNat 64 N) = .ok created)
    {completed : List Round} (hplay : playRounds created completed = .ok flag)
    {r : Round} (hsends : r.sends.length ≤ N) :
    (∃ flag', deliver flag r.order = .ok flag') ↔
      ∀ applied, applied <+: r.order → 2 * (outstanding applied % 2 ^ 32) < 2 ^ 32 := by
  have hfresh := fresh_of_playRounds hlt (fresh_of_create hpos (by omega) hcreate) hplay
  constructor
  · rintro ⟨flag', hdeliver⟩ applied ⟨rest, hsplit⟩
    obtain ⟨-, hall⟩ := deliver_ok_iff.mp hdeliver
    by_cases hnil : applied = []
    · rw [hnil, outstanding_nil]
      decide
    · exact (toInt_applied_iff hsplit hfresh hlt hsends).mp (hall applied rest hnil hsplit)
  · intro hall
    refine ⟨applyParts flag r.order, deliver_ok_iff.mpr ⟨rfl, fun applied rest _ hsplit => ?_⟩⟩
    exact (toInt_applied_iff hsplit hfresh hlt hsends).mpr (hall applied ⟨rest, hsplit⟩)

theorem daemon_assert_holds_iff_two_blocks :
    unrSigCreate 1 = .ok oneEvent ∧ playRounds oneEvent [] = .ok oneEvent ∧
      ((∃ flag', deliver oneEvent inOrder.order = .ok flag') ↔
        ∀ applied, applied <+: inOrder.order →
          2 * (outstanding applied % 2 ^ 32) < 2 ^ 32) :=
  have hcreate : unrSigCreate 1 = .ok oneEvent := rfl
  have hplay : playRounds oneEvent [] = .ok oneEvent := rfl
  ⟨hcreate, hplay, daemon_assert_holds_iff (N := 1) (by decide) (by decide) hcreate hplay
    (r := inOrder) (by decide)⟩

/-- When the second of two parts is observed first, the counter is `1 - 2 ^ 32`
and the assertion fails. -/
theorem daemon_assert_fails_overtaken :
    unrSigCreate 1 = .ok oneEvent ∧ overtaken.sends.length ≤ 1 ∧
      deliver oneEvent overtaken.order = .error (.exit .assertExit) :=
  ⟨rfl, by decide, rfl⟩

end Unr.Core
